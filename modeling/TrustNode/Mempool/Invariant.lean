import TrustNode.Mempool.Pool

namespace TrustNode.Mempool

open TrustNode.TxProcessor

namespace Inner

def parked (inner : Inner) : List TxHash := inner.bySeq.map fun p => p.2.hash

structure WellFormed (C : Crypto) (inner : Inner) : Prop where
  seqs : (inner.bySeq.map Prod.fst).Nodup
  below : ∀ p ∈ inner.bySeq, p.1 < inner.nextSeq
  linked : ∀ h seq, inner.byHash.lookup h = some seq ↔
    ∃ entry, (seq, entry) ∈ inner.bySeq ∧ entry.hash = h
  hashes : ∀ p ∈ inner.bySeq, p.2.hash = p.2.tx.hash C

variable {C : Crypto} {inner inner' : Inner} {entry : MempoolEntry} {seq : ℕ}

theorem mem_of_lookup {l : List (ℕ × MempoolEntry)} (h : l.lookup seq = some entry) :
    (seq, entry) ∈ l := by
  obtain ⟨l₁, l₂, rfl, _⟩ := List.lookup_eq_some_iff.mp h
  exact List.mem_append_right l₁ List.mem_cons_self

theorem removeSeq_eq_some (h : inner.removeSeq seq = some (entry, inner')) :
    (seq, entry) ∈ inner.bySeq ∧
      inner' = { inner with
        byHash := inner.byHash.erase entry.hash
        bySeq := inner.bySeq.filter fun p => p.1 ≠ seq } := by
  cases hl : inner.bySeq.lookup seq with
  | none => simp [removeSeq, hl] at h
  | some e =>
    simp only [removeSeq, hl, Option.some.injEq, Prod.mk.injEq] at h
    obtain ⟨rfl, rfl⟩ := h
    exact ⟨mem_of_lookup hl, rfl⟩

theorem mem_parked {h : TxHash} : h ∈ inner.parked ↔ ∃ seq entry, (seq, entry) ∈ inner.bySeq ∧
    entry.hash = h := by
  simp [parked]

namespace WellFormed

theorem new (C : Crypto) : WellFormed C .new where
  seqs := by simp [Inner.new]
  below := by simp [Inner.new]
  linked := by simp [Inner.new]
  hashes := by simp [Inner.new]

theorem mem_parked_iff (hwf : WellFormed C inner) {h : TxHash} :
    h ∈ inner.parked ↔ (inner.byHash.lookup h).isSome := by
  rw [mem_parked, Option.isSome_iff_exists]
  exact exists_congr fun seq => (hwf.linked h seq).symm

theorem seq_unique (hwf : WellFormed C inner) {seq seq' : ℕ} {e e' : MempoolEntry}
    (he : (seq, e) ∈ inner.bySeq) (he' : (seq', e') ∈ inner.bySeq) (hh : e.hash = e'.hash) :
    seq = seq' := by
  have hs := (hwf.linked e.hash seq).mpr ⟨e, he, rfl⟩
  have hs' := (hwf.linked e.hash seq').mpr ⟨e', he', hh.symm⟩
  rw [hs] at hs'
  exact Option.some.inj hs'

theorem entry_unique (hwf : WellFormed C inner) {seq : ℕ} {e e' : MempoolEntry}
    (he : (seq, e) ∈ inner.bySeq) (he' : (seq, e') ∈ inner.bySeq) : e = e' :=
  congrArg Prod.snd (List.inj_on_of_nodup_map hwf.seqs he he' rfl)

theorem removeSeq (hwf : WellFormed C inner) (h : inner.removeSeq seq = some (entry, inner')) :
    WellFormed C inner' := by
  obtain ⟨hmem, rfl⟩ := removeSeq_eq_some h
  refine ⟨?_, ?_, ?_, ?_⟩
  · exact hwf.seqs.sublist (List.filter_sublist.map _)
  · exact fun p hp => hwf.below p (List.mem_of_mem_filter hp)
  · intro h seq'
    simp only [Table.lookup_erase, List.mem_filter, decide_eq_true_eq]
    by_cases hh : h = entry.hash
    · subst hh
      simp only [if_true, reduceCtorEq, false_iff, not_exists]
      rintro e ⟨⟨he, hne⟩, heq⟩
      exact hne (hwf.seq_unique he hmem heq)
    · simp only [hh, if_false, hwf.linked]
      refine exists_congr fun e => ?_
      constructor
      · rintro ⟨he, rfl⟩
        refine ⟨⟨he, ?_⟩, rfl⟩
        rintro rfl
        exact hh (congrArg MempoolEntry.hash (hwf.entry_unique he hmem))
      · rintro ⟨⟨he, _⟩, heq⟩
        exact ⟨he, heq⟩
  · exact fun p hp => hwf.hashes p (List.mem_of_mem_filter hp)

theorem dropSeq (hwf : WellFormed C inner) (seq : ℕ) : WellFormed C (inner.dropSeq seq) := by
  cases h : inner.removeSeq seq with
  | none => simpa [Inner.dropSeq, h] using hwf
  | some r =>
    obtain ⟨entry, inner'⟩ := r
    simpa [Inner.dropSeq, h] using hwf.removeSeq h

theorem foldl_dropSeq (hwf : WellFormed C inner) (seqs : List ℕ) :
    WellFormed C (seqs.foldl Inner.dropSeq inner) := by
  induction seqs generalizing inner with
  | nil => exact hwf
  | cons seq rest ih => exact ih (hwf.dropSeq seq)

theorem mem_park {p : ℕ × MempoolEntry} :
    p ∈ (inner.park entry).bySeq ↔ p ∈ inner.bySeq ∨ p = (inner.nextSeq, entry) := by
  simp [Inner.park]

theorem linked_park (hwf : WellFormed C inner) (hfresh : inner.byHash.lookup entry.hash = none)
    (h : TxHash) (seq : ℕ) :
    (inner.park entry).byHash.lookup h = some seq ↔
      ∃ e, (seq, e) ∈ (inner.park entry).bySeq ∧ e.hash = h := by
  simp only [mem_park, Prod.mk.injEq]
  rw [Inner.park, Table.lookup_insert]
  split_ifs with hh
  · subst hh
    have hold : ¬∃ e, (seq, e) ∈ inner.bySeq ∧ e.hash = entry.hash := by
      rw [← hwf.linked, hfresh]
      simp
    simp only [Option.some.injEq]
    constructor
    · rintro rfl
      exact ⟨entry, .inr ⟨rfl, rfl⟩, rfl⟩
    · rintro ⟨e, he | ⟨rfl, rfl⟩, heq⟩
      · exact absurd ⟨e, he, heq⟩ hold
      · rfl
  · rw [hwf.linked]
    refine exists_congr fun e => ?_
    constructor
    · rintro ⟨he, heq⟩
      exact ⟨.inl he, heq⟩
    · rintro ⟨he | ⟨rfl, rfl⟩, heq⟩
      · exact ⟨he, heq⟩
      · exact absurd heq.symm hh

theorem park (hwf : WellFormed C inner) (hfresh : inner.byHash.lookup entry.hash = none)
    (hhash : entry.hash = entry.tx.hash C) : WellFormed C (inner.park entry) where
  seqs := by
    have hnext : inner.nextSeq ∉ inner.bySeq.map Prod.fst := by
      intro hmem
      obtain ⟨p, hp, heq⟩ := List.mem_map.mp hmem
      have hlt := hwf.below p hp
      omega
    simp only [Inner.park, List.map_append, List.map_cons, List.map_nil]
    exact hwf.seqs.append (List.nodup_singleton _) (List.disjoint_singleton.mpr hnext)
  below := by
    intro p hp
    obtain hold | rfl := mem_park.mp hp
    · exact Nat.lt_succ_of_lt (hwf.below p hold)
    · exact Nat.lt_succ_self _
  linked := hwf.linked_park hfresh
  hashes := by
    intro p hp
    obtain hold | rfl := mem_park.mp hp
    · exact hwf.hashes p hold
    · exact hhash

end WellFormed

theorem parked_removeSeq (hwf : WellFormed C inner)
    (h : inner.removeSeq seq = some (entry, inner')) {x : TxHash} :
    x ∈ inner'.parked ↔ x ∈ inner.parked ∧ x ≠ entry.hash := by
  rw [(hwf.removeSeq h).mem_parked_iff, hwf.mem_parked_iff]
  obtain ⟨_, rfl⟩ := removeSeq_eq_some h
  rw [Table.lookup_erase]
  by_cases hx : x = entry.hash <;> simp [hx]

theorem parked_dropSeq_subset (inner : Inner) (seq : ℕ) :
    (inner.dropSeq seq).parked ⊆ inner.parked := by
  cases h : inner.removeSeq seq with
  | none => simp [dropSeq, h]
  | some r =>
    obtain ⟨entry, inner'⟩ := r
    obtain ⟨_, rfl⟩ := removeSeq_eq_some h
    simp only [dropSeq, h, Option.map_some, Option.getD_some, parked]
    exact (List.filter_sublist.map _).subset

theorem parked_foldl_dropSeq_subset (seqs : List ℕ) (inner : Inner) :
    (seqs.foldl dropSeq inner).parked ⊆ inner.parked := by
  induction seqs generalizing inner with
  | nil => exact List.Subset.refl _
  | cons seq rest ih => exact List.Subset.trans (ih _) (inner.parked_dropSeq_subset seq)

end Inner

namespace Pool

variable {C : Crypto} {pool : Pool}

theorem wellFormed_expireLocked (hwf : pool.inner.WellFormed C) (now : UInt64) :
    (pool.expireLocked now).2.inner.WellFormed C :=
  hwf.foldl_dropSeq (pool.stale now)

theorem parked_expireLocked_subset (pool : Pool) (now : UInt64) :
    (pool.expireLocked now).2.inner.parked ⊆ pool.inner.parked :=
  Inner.parked_foldl_dropSeq_subset (pool.stale now) pool.inner

theorem makeRoom_eq_some {tx : Transaction} {roomy : Pool} (h : pool.makeRoom tx = some roomy) :
    pool.inner.bySeq.length < pool.config.maxSize ∧ roomy = pool ∨
      ∃ p, cheapest pool.inner.bySeq = some p ∧ p.2.fee < tx.fee ∧
        pool.config.maxSize ≤ pool.inner.bySeq.length ∧
        roomy = { pool with
          inner := pool.inner.dropSeq p.1
          totalEvicted := pool.totalEvicted + 1 } := by
  rw [makeRoom] at h
  split_ifs at h with hfull
  · cases hc : cheapest pool.inner.bySeq with
    | none =>
      rw [hc] at h
      cases h
    | some p =>
      rw [hc] at h
      dsimp only at h
      split_ifs at h with hfee
      exact .inr ⟨p, rfl, hfee, hfull, (Option.some.inj h).symm⟩
  · exact .inl ⟨Nat.not_le.mp hfull, (Option.some.inj h).symm⟩

theorem makeRoom_spec (hwf : pool.inner.WellFormed C) {tx : Transaction} {roomy : Pool}
    (h : pool.makeRoom tx = some roomy) :
    roomy.inner.WellFormed C ∧ roomy.inner.parked ⊆ pool.inner.parked := by
  obtain ⟨-, rfl⟩ | ⟨p, -, -, -, rfl⟩ := makeRoom_eq_some h
  · exact ⟨hwf, List.Subset.refl _⟩
  · exact ⟨hwf.dropSeq p.1, pool.inner.parked_dropSeq_subset p.1⟩

def screened (C : Crypto) (tx : Transaction) (pool : Pool) : Bool :=
  tx.verifySignature C && decide (pool.config.minFee ≤ tx.fee) &&
    (pool.inner.byHash.lookup (tx.hash C)).isNone

theorem insert_of_not_screened {tx : Transaction} (h : pool.screened C tx = false) (now : UInt64) :
    ∃ e, pool.insert C now tx = pool.reject e := by
  unfold insert
  split_ifs with hsignature hfee hduplicate
  · exact ⟨_, rfl⟩
  · exact ⟨_, rfl⟩
  · exact ⟨_, rfl⟩
  · rw [Bool.not_eq_false] at hsignature
    rw [Option.isSome_iff_ne_none, not_not] at hduplicate
    simp [screened, hsignature, UInt64.not_lt.mp hfee, hduplicate] at h

theorem insert_of_screened {tx : Transaction} (h : pool.screened C tx = true) (now : UInt64) :
    (∀ roomy, (pool.expireLocked now).2.makeRoom tx = some roomy →
        pool.insert C now tx = (.ok (tx.hash C), roomy.accept ⟨tx.hash C, tx, tx.fee, now⟩)) ∧
      ((pool.expireLocked now).2.makeRoom tx = none →
        pool.insert C now tx = (pool.expireLocked now).2.reject .full) := by
  simp only [screened, Bool.and_eq_true, decide_eq_true_eq, Option.isNone_iff_eq_none] at h
  obtain ⟨⟨hsignature, hfee⟩, hfresh⟩ := h
  unfold insert
  rw [if_neg (by simp [hsignature]), if_neg (UInt64.not_lt.mpr hfee), if_neg (by simp [hfresh])]
  refine ⟨fun roomy hroom => ?_, fun hroom => ?_⟩
  · simp only [hroom]
  · simp only [hroom]

theorem insert_outcome (C : Crypto) (pool : Pool) (now : UInt64) (tx : Transaction) :
    (pool.screened C tx = false ∧ ∃ e, pool.insert C now tx = pool.reject e) ∨
      pool.screened C tx = true ∧
        ((pool.expireLocked now).2.makeRoom tx = none ∧
            pool.insert C now tx = (pool.expireLocked now).2.reject .full ∨
          ∃ roomy, (pool.expireLocked now).2.makeRoom tx = some roomy ∧
            pool.insert C now tx =
              (.ok (tx.hash C), roomy.accept ⟨tx.hash C, tx, tx.fee, now⟩)) := by
  cases hscreened : pool.screened C tx with
  | false => exact .inl ⟨rfl, insert_of_not_screened hscreened now⟩
  | true =>
    obtain ⟨hroomy, hfull⟩ := insert_of_screened hscreened now
    cases hroom : (pool.expireLocked now).2.makeRoom tx with
    | none => exact .inr ⟨rfl, .inl ⟨rfl, hfull hroom⟩⟩
    | some roomy => exact .inr ⟨rfl, .inr ⟨roomy, rfl, hroomy roomy hroom⟩⟩

theorem insert_spec (hwf : pool.inner.WellFormed C) (now : UInt64) (tx : Transaction) :
    (pool.insert C now tx).2.inner.WellFormed C ∧
      ∀ h ∈ (pool.insert C now tx).2.inner.parked,
        h ∈ pool.inner.parked ∨ h = tx.hash C ∧ (pool.insert C now tx).1 = .ok (tx.hash C) := by
  have hexpired := wellFormed_expireLocked hwf now
  have hsub := parked_expireLocked_subset pool now
  obtain ⟨-, e, he⟩ | ⟨hscreened, ⟨-, hfull⟩ | ⟨roomy, hroom, hpool⟩⟩ := insert_outcome C pool now tx
  · rw [he]
    exact ⟨hwf, fun h hh => .inl hh⟩
  · rw [hfull]
    exact ⟨hexpired, fun h hh => .inl (hsub hh)⟩
  · obtain ⟨hroomy, hroomySub⟩ := makeRoom_spec hexpired hroom
    have habsent : roomy.inner.byHash.lookup (tx.hash C) = none := by
      rw [← Option.not_isSome_iff_eq_none, ← hroomy.mem_parked_iff]
      intro hmem
      have hparked := hwf.mem_parked_iff.mp (hsub (hroomySub hmem))
      simp only [screened, Bool.and_eq_true, Option.isNone_iff_eq_none] at hscreened
      simp [hscreened.2] at hparked
    rw [hpool]
    refine ⟨hroomy.park habsent rfl, fun h hh => ?_⟩
    simp only [accept, Inner.parked, Inner.park, List.map_append, List.mem_append, List.map_cons,
      List.map_nil, List.mem_singleton] at hh
    rcases hh with hh | hh
    · exact .inl (hsub (hroomySub hh))
    · exact .inr ⟨hh, rfl⟩

structure Taken (C : Crypto) (inner : Inner) (acc : List Transaction × Inner) : Prop where
  wellFormed : acc.2.WellFormed C
  nodup : (acc.1.map (Transaction.hash C)).Nodup
  gone : ∀ tx ∈ acc.1, tx.hash C ∈ inner.parked ∧ tx.hash C ∉ acc.2.parked
  subset : acc.2.parked ⊆ inner.parked

theorem Taken.step {inner : Inner} {acc : List Transaction × Inner} (h : Taken C inner acc)
    (seq : ℕ) : Taken C inner (takeSeqs acc seq) := by
  cases hr : acc.2.removeSeq seq with
  | none => simpa [takeSeqs, hr] using h
  | some r =>
    obtain ⟨entry, inner'⟩ := r
    have hmem := (Inner.removeSeq_eq_some hr).1
    have hhash : entry.hash = entry.tx.hash C := h.wellFormed.hashes _ hmem
    have hparked : entry.tx.hash C ∈ acc.2.parked :=
      Inner.mem_parked.mpr ⟨seq, entry, hmem, hhash⟩
    have hiff := fun x => Inner.parked_removeSeq (x := x) h.wellFormed hr
    simp only [takeSeqs, hr]
    refine ⟨h.wellFormed.removeSeq hr, ?_, ?_, ?_⟩
    · rw [List.map_append, List.map_singleton]
      refine h.nodup.append (List.nodup_singleton _) (List.disjoint_singleton.mpr ?_)
      intro hdup
      obtain ⟨tx, htx, heq⟩ := List.mem_map.mp hdup
      exact (h.gone tx htx).2 (heq ▸ hparked)
    · intro tx htx
      rcases List.mem_append.mp htx with htx | htx
      · obtain ⟨hin, hout⟩ := h.gone tx htx
        exact ⟨hin, fun hc => hout ((hiff _).mp hc).1⟩
      · rw [List.mem_singleton] at htx
        subst htx
        exact ⟨h.subset hparked, fun hc => ((hiff _).mp hc).2 hhash.symm⟩
    · exact fun x hx => h.subset ((hiff x).mp hx).1

theorem Taken.foldl {inner : Inner} {acc : List Transaction × Inner} (h : Taken C inner acc)
    (seqs : List ℕ) : Taken C inner (seqs.foldl takeSeqs acc) := by
  induction seqs generalizing acc with
  | nil => exact h
  | cons seq rest ih => exact ih (h.step seq)

theorem drain_spec (hwf : pool.inner.WellFormed C) (limit : ℕ) :
    Taken C pool.inner ((pool.drain limit).1, (pool.drain limit).2.inner) := by
  have hstart : Taken C pool.inner ([], pool.inner) :=
    ⟨hwf, List.nodup_nil, by simp, List.Subset.refl _⟩
  exact hstart.foldl ((pool.ordered.take limit).map Prod.snd)

end Pool

end TrustNode.Mempool
