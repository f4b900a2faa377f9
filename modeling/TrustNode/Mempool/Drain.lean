import TrustNode.Base.Sha256
import TrustNode.Mempool.Representation

namespace TrustNode.Mempool

open TrustNode.TxProcessor

def Ahead (p q : Slot) : Prop := q.2.fee < p.2.fee ∨ p.2.fee = q.2.fee ∧ p.1 < q.1

structure Queue (pool : Pool) (queue : List Slot) : Prop where
  perm : queue.Perm pool.inner.bySeq
  sorted : queue.Pairwise Ahead

def priority (p : Slot) : UInt64 × ℕ := (p.2.fee, p.1)

namespace Pool

theorem before_iff (a b : UInt64 × ℕ) :
    before a b ↔ b.1.toNat < a.1.toNat ∨ a.1.toNat = b.1.toNat ∧ a.2 ≤ b.2 := by
  rw [before, UInt64.lt_iff_toNat_lt, UInt64.toNat_inj]

theorem before_total (a b : UInt64 × ℕ) : before a b ∨ before b a := by
  rw [before_iff, before_iff]
  omega

theorem before_trans {a b c : UInt64 × ℕ} (hab : before a b) (hbc : before b c) : before a c := by
  rw [before_iff] at hab hbc ⊢
  omega

theorem before_antisymm {a b : UInt64 × ℕ} (hab : before a b) (hba : before b a) : a = b := by
  rw [before_iff] at hab hba
  refine Prod.ext (UInt64.toNat_inj.mp ?_) ?_ <;> omega

instance : Std.Total before := ⟨before_total⟩

instance : IsTrans (UInt64 × ℕ) before := ⟨fun _ _ _ => before_trans⟩

instance : Std.Antisymm before := ⟨fun _ _ => before_antisymm⟩

end Pool

namespace Ahead

variable {p q : Slot}

theorem before (h : Ahead p q) : Pool.before (priority p) (priority q) :=
  h.imp id fun hseq => ⟨hseq.1, hseq.2.le⟩

theorem asymm (h : Ahead p q) : ¬Ahead q p := by
  simp only [Ahead, UInt64.lt_iff_toNat_lt, ← UInt64.toNat_inj] at h ⊢
  omega

theorem of_before (h : Pool.before (priority p) (priority q)) (hne : p.1 ≠ q.1) : Ahead p q :=
  h.imp id fun hseq => ⟨hseq.1, lt_of_le_of_ne hseq.2 hne⟩

end Ahead

namespace Inner

variable {C : Crypto} {inner : Inner}

theorem taken_map_fst (hwf : inner.WellFormed C) {slots : List Slot}
    (hnodup : (slots.map Prod.fst).Nodup) (hsub : slots ⊆ inner.bySeq) :
    inner.taken (slots.map Prod.fst) = slots := by
  induction slots generalizing inner with
  | nil => rfl
  | cons slot rest ih =>
    obtain ⟨seq, entry⟩ := slot
    obtain ⟨hseq, hrest⟩ := List.nodup_cons.mp hnodup
    have hmem : (seq, entry) ∈ inner.bySeq := hsub List.mem_cons_self
    obtain ⟨found, inner', hremoved⟩ := removeSeq_of_mem (List.mem_map_of_mem hmem)
    obtain ⟨hfound, hinner⟩ := removeSeq_eq_some hremoved
    have hentry : found = entry := hwf.entry_unique hfound hmem
    have hothers : rest ⊆ inner'.bySeq := by
      intro other hother
      rw [hinner]
      refine List.mem_filter.mpr ⟨hsub (List.mem_cons_of_mem _ hother), decide_eq_true ?_⟩
      intro heq
      exact hseq (heq ▸ List.mem_map_of_mem hother)
    rw [List.map_cons, taken, hremoved, hentry]
    dsimp only
    rw [ih (hwf.removeSeq hremoved) hrest hothers]

end Inner

namespace Queue

variable {C : Crypto} {pool : Pool} {queue : List Slot}

theorem ordered (h : Queue pool queue) : pool.ordered = queue.map priority := by
  have hsorted : (queue.map priority).Pairwise Pool.before :=
    List.pairwise_map.mpr (h.sorted.imp Ahead.before)
  refine List.Perm.eq_of_pairwise' (List.pairwise_insertionSort _ _) hsorted ?_
  exact (List.perm_insertionSort _ _).trans (h.perm.symm.map priority)

theorem unique {other : List Slot} (h : Queue pool queue) (h' : Queue pool other) :
    other = queue :=
  (h'.perm.trans h.perm.symm).eq_of_pairwise
    (fun _ _ _ _ hpq hqp => absurd hqp hpq.asymm) h'.sorted h.sorted

theorem drained_seqs (h : Queue pool queue) (limit : ℕ) :
    (pool.ordered.take limit).map Prod.snd = (queue.take limit).map Prod.fst := by
  rw [h.ordered, ← List.map_take, List.map_map]
  rfl

theorem nodup_seqs (h : Queue pool queue) (hwf : pool.inner.WellFormed C) :
    (queue.map Prod.fst).Nodup :=
  (h.perm.map Prod.fst).nodup_iff.mpr hwf.seqs

theorem taken (h : Queue pool queue) (hwf : pool.inner.WellFormed C) (limit : ℕ) :
    pool.inner.taken ((queue.take limit).map Prod.fst) = queue.take limit := by
  refine Inner.taken_map_fst hwf ?_ ?_
  · exact (h.nodup_seqs hwf).sublist ((List.take_sublist limit queue).map _)
  · exact fun p hp => h.perm.subset (List.mem_of_mem_take hp)

theorem drain_eq (h : Queue pool queue) (hwf : pool.inner.WellFormed C) (limit : ℕ) :
    pool.drain limit =
      ((queue.take limit).map fun slot => slot.2.tx,
        { pool with inner := ((queue.take limit).map Prod.fst).foldl Inner.dropSeq pool.inner }) := by
  rw [Pool.drain, h.drained_seqs, Inner.foldl_takeSeqs, h.taken hwf]
  rfl

theorem drain (h : Queue pool queue) (hwf : pool.inner.WellFormed C) (limit : ℕ) :
    Queue (pool.drain limit).2 (queue.drop limit) where
  perm := by
    have hsplit := Inner.taken_perm hwf ((queue.take limit).map Prod.fst)
    rw [h.taken hwf] at hsplit
    have hqueue := (List.take_append_drop limit queue ▸ h.perm).trans hsplit
    rw [h.drain_eq hwf]
    exact (List.perm_append_right_iff _).mp (List.perm_append_comm.trans hqueue)
  sorted := h.sorted.sublist (List.drop_sublist limit queue)

theorem drain_drain (h : Queue pool queue) (hwf : pool.inner.WellFormed C) (a b : ℕ) :
    (pool.drain a).1 ++ ((pool.drain a).2.drain b).1 = (pool.drain (a + b)).1 ∧
      ((pool.drain a).2.drain b).2 = (pool.drain (a + b)).2 := by
  have hwf' : (pool.drain a).2.inner.WellFormed C := (Pool.drain_spec hwf a).wellFormed
  rw [(h.drain hwf a).drain_eq hwf', h.drain_eq hwf, h.drain_eq hwf, List.take_add]
  dsimp only
  rw [List.map_append, List.map_append, List.foldl_append]
  exact ⟨rfl, rfl⟩

theorem exists_of_wellFormed (hwf : pool.inner.WellFormed C) : ∃ queue, Queue pool queue := by
  let earlier : Slot → Slot → Prop := fun p q => Pool.before (priority p) (priority q)
  have : Std.Total earlier := ⟨fun _ _ => Pool.before_total _ _⟩
  have : IsTrans Slot earlier := ⟨fun _ _ _ => Pool.before_trans⟩
  have hperm := pool.inner.bySeq.perm_insertionSort earlier
  have hseqs := List.pairwise_map.mp ((hperm.map Prod.fst).nodup_iff.mpr hwf.seqs)
  have hsorted := pool.inner.bySeq.pairwise_insertionSort earlier
  exact ⟨_, hperm, (hsorted.and hseqs).imp fun h => Ahead.of_before h.1 h.2⟩

end Queue

namespace Pool

theorem drain_takes_best_first (C : Crypto) (config : MempoolConfig) (calls : List Call) :
    let pool := after C config calls
    ∃ queue, Queue pool queue ∧ (∀ other, Queue pool other → other = queue) ∧
      (∀ limit, (pool.drain limit).1 = (queue.take limit).map (fun slot => slot.2.tx) ∧
        (pool.drain limit).1.length = min limit pool.inner.bySeq.length ∧
        Queue (pool.drain limit).2 (queue.drop limit)) ∧
      ∀ a b, (pool.drain a).1 ++ ((pool.drain a).2.drain b).1 = (pool.drain (a + b)).1 ∧
        ((pool.drain a).2.drain b).2 = (pool.drain (a + b)).2 := by
  intro pool
  have hwf : pool.inner.WellFormed C := (kept_after C config calls).wellFormed
  obtain ⟨queue, h⟩ := Queue.exists_of_wellFormed hwf
  refine ⟨queue, h, fun other h' => h.unique h', fun limit => ⟨?_, ?_, h.drain hwf limit⟩,
    h.drain_drain hwf⟩
  · rw [h.drain_eq hwf]
  · rw [h.drain_eq hwf, List.length_map, List.length_take, h.perm.length_eq]

def bareTransaction (tag : UInt8) (fee : UInt64) : Transaction where
  signature := List.replicate 64 0
  signer := Bytes32.splat 42
  accountKeys := []
  instructions := []
  recentBlockhash := Bytes32.splat tag
  computeBudget := 200000
  fee := fee

example :
    let calls := [(1, 5000), (2, 6000), (3, 6000)].map fun (tag, fee) =>
      Call.insert 0 (bareTransaction tag fee)
    ((after acceptingCrypto .default calls).drain 2).1 =
      [bareTransaction 2 6000, bareTransaction 3 6000] := by
  decide +kernel

end Pool

end TrustNode.Mempool
