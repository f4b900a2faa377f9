import TrustNode.Mempool.Drain

namespace TrustNode.Mempool

open TrustNode.TxProcessor

namespace Pool

def Expired (pool : Pool) (now : UInt64) (p : Slot) : Prop :=
  p ∈ pool.inner.bySeq ∧ pool.config.maxAgeMs < p.2.ageMs now

section

variable {C : Crypto} {config : MempoolConfig} {pool : Pool} {now : UInt64} {p : Slot}

theorem stale_eq_nil_iff : pool.stale now = [] ↔ ∀ p, ¬pool.Expired now p := by
  rw [stale, List.map_eq_nil_iff, List.filter_eq_nil_iff]
  refine forall_congr' fun p => ?_
  rw [Expired, not_and, decide_eq_true_eq]

theorem Kept.drained (h : Kept C config pool) (hp : p ∈ pool.inner.bySeq) :
    p.2.tx ∈ (pool.drain pool.inner.bySeq.length).1 := by
  obtain ⟨queue, hqueue⟩ := Queue.exists_of_wellFormed h.wellFormed
  rw [hqueue.drain_eq h.wellFormed, List.take_of_length_le hqueue.perm.length_eq.le]
  exact List.mem_map_of_mem (hqueue.perm.mem_iff.mpr hp)

theorem Kept.duplicate (h : Kept C config pool) (hp : p ∈ pool.inner.bySeq) (now : UInt64) :
    (pool.insert C now p.2.tx).1 = .error .duplicate := by
  obtain ⟨hhash, hfee, hmin, hsignature⟩ := h.entries p hp
  have hlinked := (h.wellFormed.linked (p.2.tx.hash C) p.1).mpr ⟨p.2, hp, hhash⟩
  rw [insert, if_neg (by simp [hsignature]), h.same,
    if_neg (UInt64.not_lt.mpr (hfee ▸ hmin)), if_pos (by simp [hlinked])]
  rfl

theorem stale_expire (h : Kept C config pool) (now : UInt64) :
    (pool.expire now).2.stale now = [] := by
  let old := pool.inner.bySeq.filter fun p => pool.config.maxAgeMs < p.2.ageMs now
  have hold : pool.inner.taken (pool.stale now) = old := by
    have hsub : old.Sublist pool.inner.bySeq := List.filter_sublist
    exact Inner.taken_map_fst h.wellFormed (h.wellFormed.seqs.sublist (hsub.map _)) hsub.subset
  have hperm := Inner.taken_perm h.wellFormed (pool.stale now)
  rw [hold] at hperm
  have hnodup := hperm.nodup_iff.mp h.wellFormed.seqs.of_map
  rw [stale_eq_nil_iff]
  rintro p ⟨hp, hage⟩
  have hparked := hperm.mem_iff.mpr (List.mem_append_left _ hp)
  have hgone : p ∈ old := List.mem_filter.mpr ⟨hparked, decide_eq_true hage⟩
  exact (List.nodup_append.mp hnodup).2.2 p hp p hgone rfl

end

theorem expired_invisible_iff (C : Crypto) (config : MempoolConfig) (calls : List Call)
    (now : UInt64) :
    let pool := after C config calls
    ((∀ p, pool.Expired now p → ∀ limit, p.2.tx ∉ (pool.drain limit).1) ↔ pool.stale now = []) ∧
      ((∀ p, pool.Expired now p → (pool.insert C now p.2.tx).1 ≠ .error .duplicate) ↔
        pool.stale now = []) ∧
      (pool.expire now).2.stale now = [] := by
  intro pool
  have h : Kept C config pool := kept_after C config calls
  rw [stale_eq_nil_iff]
  refine ⟨⟨fun hnever p hp => ?_, fun hnone p hp => absurd hp (hnone p)⟩,
    ⟨fun hnever p hp => ?_, fun hnone p hp => absurd hp (hnone p)⟩, stale_expire h now⟩
  · exact hnever p hp _ (h.drained hp.1)
  · exact hnever p hp (h.duplicate hp.1 now)

theorem expired_entry_drained_and_duplicate :
    let tx := bareTransaction 1 5000
    let pool := after acceptingCrypto .default [.insert 0 tx]
    (pool.stale 60001).length = 1 ∧ (pool.drain 1).1 = [tx] ∧
      (pool.insert acceptingCrypto 60001 tx).1 = .error .duplicate := by
  decide +kernel

end Pool

end TrustNode.Mempool
