import TrustNode.Base.Reorder
import TrustNode.TxProcessor.Scheduler

namespace TrustNode.TxProcessor

open TrustNode.Accounts
open TrustNode.ProgramExecutor (SystemInstruction)

namespace Transaction

theorem conflictsWith_iff {tx other : Transaction} :
    tx.conflictsWith other = true ↔
      (∃ k ∈ tx.writeAccounts, k ∈ other.writeAccounts ∨ k ∈ other.readAccounts) ∨
        ∃ k ∈ other.writeAccounts, k ∈ tx.writeAccounts ∨ k ∈ tx.readAccounts := by
  simp only [conflictsWith, Bool.or_eq_true, List.any_eq_true, List.contains_iff_mem]

theorem conflictsWith_comm (tx other : Transaction) :
    tx.conflictsWith other = other.conflictsWith tx := by
  rw [conflictsWith, conflictsWith, Bool.or_comm]

end Transaction

namespace Filling

structure Tracks (f : Filling) : Prop where
  writes_eq : f.writes = f.batch.transactions.flatMap Transaction.writeAccounts
  reads_eq : f.reads = f.batch.transactions.flatMap Transaction.readAccounts

theorem tracks_start (index : UInt64) : (start index).Tracks := ⟨rfl, rfl⟩

theorem Tracks.defer {f : Filling} (h : f.Tracks) (tx : Transaction) : (f.defer tx).Tracks :=
  ⟨h.writes_eq, h.reads_eq⟩

theorem Tracks.accept {f : Filling} (h : f.Tracks) (tx : Transaction) : (f.accept tx).Tracks where
  writes_eq := by simp [Filling.accept, h.writes_eq]
  reads_eq := by simp [Filling.accept, h.reads_eq]

theorem Tracks.conflicts_of_mem {f : Filling} (h : f.Tracks) {m tx : Transaction}
    (hm : m ∈ f.batch.transactions) (hconflict : m.conflictsWith tx = true) :
    f.conflicts tx = true := by
  have hwrites : ∀ {k}, k ∈ m.writeAccounts → k ∈ f.writes := fun hk => by
    rw [h.writes_eq]
    exact List.mem_flatMap.mpr ⟨m, hm, hk⟩
  have hreads : ∀ {k}, k ∈ m.readAccounts → k ∈ f.reads := fun hk => by
    rw [h.reads_eq]
    exact List.mem_flatMap.mpr ⟨m, hm, hk⟩
  simp only [conflicts, Bool.or_eq_true, List.any_eq_true, List.contains_iff_mem]
  obtain ⟨k, hk, hw | hr⟩ | ⟨k, hk, hw | hr⟩ := Transaction.conflictsWith_iff.mp hconflict
  · exact .inl ⟨k, hw, .inl (hwrites hk)⟩
  · exact .inr ⟨k, hr, hwrites hk⟩
  · exact .inl ⟨k, hk, .inl (hwrites hw)⟩
  · exact .inl ⟨k, hk, .inr (hreads hr)⟩

theorem Tracks.mem_of_conflicts {f : Filling} (h : f.Tracks) {tx : Transaction}
    (hconflict : f.conflicts tx = true) :
    ∃ m ∈ f.batch.transactions, m.conflictsWith tx = true := by
  simp only [conflicts, Bool.or_eq_true, List.any_eq_true, List.contains_iff_mem, h.writes_eq,
    h.reads_eq, List.mem_flatMap] at hconflict
  obtain ⟨k, hk, ⟨m, hm, hw⟩ | ⟨m, hm, hr⟩⟩ | ⟨k, hk, m, hm, hw⟩ := hconflict
  · exact ⟨m, hm, Transaction.conflictsWith_iff.mpr (.inl ⟨k, hw, .inl hk⟩)⟩
  · exact ⟨m, hm, Transaction.conflictsWith_iff.mpr (.inr ⟨k, hk, .inr hr⟩)⟩
  · exact ⟨m, hm, Transaction.conflictsWith_iff.mpr (.inl ⟨k, hw, .inr hk⟩)⟩

end Filling

namespace Scheduler

theorem conflict_free_of_admits {s : Scheduler} {f : Filling} (h : f.Tracks) {tx : Transaction}
    (hadmits : s.admits f tx = true) {m : Transaction} (hm : m ∈ f.batch.transactions) :
    m.conflictsWith tx = false := by
  rw [admits] at hadmits
  split_ifs at hadmits with hsize hcompute
  · rw [List.isEmpty_iff.mp hadmits] at hm
    cases hm
  · cases hconflict : m.conflictsWith tx with
    | false => rfl
    | true =>
      rw [h.conflicts_of_mem hm hconflict] at hadmits
      cases hadmits

end Scheduler

abbrev Item := Transaction × ℕ

instance : Std.Symm fun a b : Item => a.1.conflictsWith b.1 = false :=
  ⟨fun a b h => (Transaction.conflictsWith_comm b.1 a.1).trans h⟩

namespace Scheduler

def split (s : Scheduler) : Filling → List Item → List Item × List Item
  | _, [] => ([], [])
  | f, item :: rest =>
    if s.admits f item.1 then
      (item :: (split s (f.accept item.1) rest).1, (split s (f.accept item.1) rest).2)
    else ((split s (f.defer item.1) rest).1, item :: (split s (f.defer item.1) rest).2)

def pass (s : Scheduler) (items : List Item) : List Item × List Item :=
  s.split (.start (UInt64.ofNat s.batches.length)) items

def rounds : ℕ → List Item → Scheduler → List (List Item)
  | 0, _, _ => []
  | fuel + 1, items, s =>
    if (s.pass items).1.isEmpty then []
    else
      (s.pass items).1 ::
        rounds fuel (s.pass items).2 (s.pushBatch (s.fill (items.map Prod.fst)).batch)

def queue (s : Scheduler) : List Item := s.pending.zipIdx

def scheduleRounds (s : Scheduler) : List (List Item) :=
  rounds s.pending.length s.queue { s with pending := [] }

def Precedes : List (List Item) → Item → Item → Prop
  | [], _, _ => False
  | round :: rest, a, b => a ∈ round ∧ b ∈ rest.flatten ∨ Precedes rest a b

instance decidablePrecedes :
    (rounds : List (List Item)) → (a b : Item) → Decidable (Precedes rounds a b)
  | [], _, _ => .isFalse id
  | _ :: rest, a, b =>
    have := decidablePrecedes rest a b
    inferInstanceAs (Decidable (_ ∨ _))

def Ordered (items : List Item) (rounds : List (List Item)) : Prop :=
  ∀ a ∈ items, ∀ b ∈ items, a.2 < b.2 → a.1.conflictsWith b.1 = true → Precedes rounds a b

instance (items : List Item) (rounds : List (List Item)) : Decidable (Ordered items rounds) :=
  inferInstanceAs (Decidable (∀ a ∈ items, ∀ b ∈ items, a.2 < b.2 →
    a.1.conflictsWith b.1 = true → Precedes rounds a b))

def PreservesOrder (s : Scheduler) : Prop := Ordered s.queue s.scheduleRounds

instance (s : Scheduler) : Decidable s.PreservesOrder :=
  inferInstanceAs (Decidable (Ordered s.queue s.scheduleRounds))

def PassClear (s : Scheduler) : Filling → List Transaction → Prop
  | _, [] => True
  | f, tx :: rest =>
    (s.admits f tx = true → ∀ d ∈ f.stillRemaining, d.conflictsWith tx = false) ∧
      PassClear s (s.place f tx) rest

def RoundsClear : ℕ → List Transaction → Scheduler → Prop
  | 0, _, _ => True
  | fuel + 1, remaining, s =>
    remaining = [] ∨
      s.PassClear (.start (UInt64.ofNat s.batches.length)) remaining ∧
        RoundsClear fuel (s.fill remaining).stillRemaining (s.pushBatch (s.fill remaining).batch)

def NeverOvertakes (s : Scheduler) : Prop :=
  RoundsClear s.pending.length s.pending { s with pending := [] }

def load (txs : List Transaction) : ℕ := (txs.map fun tx => tx.computeBudget.toNat).sum

structure OrderSafe (txs : List Transaction) : Prop where
  transitive : ∀ {a b c}, [a, b, c].Sublist txs → a.conflictsWith b = true →
    b.conflictsWith c = true → a.conflictsWith c = true
  budgets : ∀ {a b}, [a, b].Sublist txs → a.conflictsWith b = true →
    a.computeBudget ≤ b.computeBudget
  total : load txs < 2 ^ 64

section Split

variable {s : Scheduler} {f : Filling} {items : List Item}

theorem split_perm (s : Scheduler) (f : Filling) (items : List Item) :
    ((s.split f items).1 ++ (s.split f items).2).Perm items := by
  induction items generalizing f with
  | nil => exact .nil
  | cons item rest ih =>
    rw [split]
    split_ifs
    · exact (ih (f.accept item.1)).cons item
    · exact List.perm_middle.trans ((ih (f.defer item.1)).cons item)

theorem split_sublist (s : Scheduler) (f : Filling) (items : List Item) :
    (s.split f items).1.Sublist items ∧ (s.split f items).2.Sublist items := by
  induction items generalizing f with
  | nil => exact ⟨.slnil, .slnil⟩
  | cons item rest ih =>
    rw [split]
    split_ifs
    · exact ⟨(ih (f.accept item.1)).1.cons_cons item, (ih (f.accept item.1)).2.cons item⟩
    · exact ⟨(ih (f.defer item.1)).1.cons item, (ih (f.defer item.1)).2.cons_cons item⟩

theorem foldl_place_split (s : Scheduler) (f : Filling) (items : List Item) :
    ((items.map Prod.fst).foldl s.place f).batch.transactions =
        f.batch.transactions ++ (s.split f items).1.map Prod.fst ∧
      ((items.map Prod.fst).foldl s.place f).stillRemaining =
        f.stillRemaining ++ (s.split f items).2.map Prod.fst := by
  induction items generalizing f with
  | nil => simp [split]
  | cons item rest ih =>
    rw [List.map_cons, List.foldl_cons, split, place]
    split_ifs
    · obtain ⟨htaken, hleft⟩ := ih (f.accept item.1)
      rw [htaken, hleft]
      simp [Filling.accept]
    · obtain ⟨htaken, hleft⟩ := ih (f.defer item.1)
      rw [htaken, hleft]
      simp [Filling.defer]

theorem split_conflict_free (h : f.Tracks) (items : List Item) :
    (∀ m ∈ f.batch.transactions, ∀ b ∈ (s.split f items).1, m.conflictsWith b.1 = false) ∧
      (s.split f items).1.Pairwise fun a b => a.1.conflictsWith b.1 = false := by
  induction items generalizing f with
  | nil => exact ⟨fun _ _ _ hb => absurd hb List.not_mem_nil, .nil⟩
  | cons item rest ih =>
    rw [split]
    split_ifs with hadmits
    · obtain ⟨hbatch, hpairs⟩ := ih (h.accept item.1)
      have hmem : ∀ m ∈ f.batch.transactions, m ∈ (f.accept item.1).batch.transactions :=
        fun m hm => List.mem_append_left _ hm
      have hitem : item.1 ∈ (f.accept item.1).batch.transactions :=
        List.mem_append_right _ (List.mem_singleton_self _)
      refine ⟨fun m hm b hb => ?_, .cons (hbatch item.1 hitem) hpairs⟩
      obtain rfl | hb := List.mem_cons.mp hb
      · exact conflict_free_of_admits h hadmits hm
      · exact hbatch m (hmem m hm) b hb
    · exact ih (h.defer item.1)

theorem passClear_iff (hsorted : items.Pairwise fun a b => a.2 < b.2) :
    s.PassClear f (items.map Prod.fst) ↔
      (∀ d ∈ f.stillRemaining, ∀ b ∈ (s.split f items).1, d.conflictsWith b.1 = false) ∧
        ∀ a ∈ (s.split f items).2, ∀ b ∈ (s.split f items).1, a.2 < b.2 →
          a.1.conflictsWith b.1 = false := by
  induction items generalizing f with
  | nil => simp [split, PassClear]
  | cons item rest ih =>
    obtain ⟨hfirst, hrest⟩ := List.pairwise_cons.mp hsorted
    rw [List.map_cons, PassClear, split, place]
    split_ifs with hadmits
    · have hlate : ∀ a ∈ (s.split (f.accept item.1) rest).2, ¬a.2 < item.2 := fun a ha =>
        (hfirst a ((split_sublist s _ rest).2.subset ha)).asymm
      rw [ih hrest]
      simp only [hadmits, true_implies, List.forall_mem_cons, Filling.accept]
      constructor
      · rintro ⟨hitem, hstill, hleft⟩
        exact ⟨fun d hd => ⟨hitem d hd, hstill d hd⟩,
          fun a ha => ⟨fun hlt => absurd hlt (hlate a ha), hleft a ha⟩⟩
      · rintro ⟨hstill, hleft⟩
        exact ⟨fun d hd => (hstill d hd).1, fun d hd => (hstill d hd).2, fun a ha => (hleft a ha).2⟩
    · have hearly : ∀ b ∈ (s.split (f.defer item.1) rest).1, item.2 < b.2 := fun b hb =>
        hfirst b ((split_sublist s _ rest).1.subset hb)
      rw [ih hrest]
      simp only [hadmits, Bool.false_eq_true, false_implies, true_and, Filling.defer,
        List.forall_mem_append, List.forall_mem_singleton, List.forall_mem_cons]
      constructor
      · rintro ⟨⟨hstill, hitem⟩, hleft⟩
        exact ⟨hstill, fun b hb _ => hitem b hb, hleft⟩
      · rintro ⟨hstill, hitem, hleft⟩
        exact ⟨⟨hstill, fun b hb => hitem b hb (hearly b hb)⟩, hleft⟩

end Split

section Rounds

variable {s : Scheduler} {fuel : ℕ} {items : List Item}

theorem fill_pass (s : Scheduler) (items : List Item) :
    (s.fill (items.map Prod.fst)).batch.transactions = (s.pass items).1.map Prod.fst ∧
      (s.fill (items.map Prod.fst)).stillRemaining = (s.pass items).2.map Prod.fst :=
  foldl_place_split s (.start (UInt64.ofNat s.batches.length)) items

theorem transactions_ne_nil (hne : items ≠ []) : items.map Prod.fst ≠ [] :=
  fun hnil => hne (List.map_eq_nil_iff.mp hnil)

theorem pass_nonempty (hsize : 1 ≤ s.maxBatchSize) (hne : items ≠ []) : (s.pass items).1 ≠ [] := by
  intro hnil
  refine s.fill_nonempty hsize (transactions_ne_nil hne) ?_
  rw [(fill_pass s items).1, hnil, List.map_nil]

theorem length_pass_lt (hsize : 1 ≤ s.maxBatchSize) (hne : items ≠ []) :
    (s.pass items).2.length < items.length := by
  have hlt := s.length_stillRemaining_lt hsize (transactions_ne_nil hne)
  rwa [(fill_pass s items).2, List.length_map, List.length_map] at hlt

theorem rounds_succ (hsize : 1 ≤ s.maxBatchSize) (hne : items ≠ []) (fuel : ℕ) :
    rounds (fuel + 1) items s =
      (s.pass items).1 ::
        rounds fuel (s.pass items).2 (s.pushBatch (s.fill (items.map Prod.fst)).batch) := by
  rw [rounds, if_neg (List.isEmpty_iff.not.mpr (pass_nonempty hsize hne))]

theorem rounds_nil (fuel : ℕ) (s : Scheduler) : rounds fuel [] s = [] := by
  cases fuel <;> rfl

@[elab_as_elim]
theorem rounds_induction {motive : ℕ → List Item → Scheduler → Prop}
    (nil : ∀ fuel s, motive fuel [] s)
    (step : ∀ fuel items s, 1 ≤ s.maxBatchSize → items ≠ [] → (s.pass items).2.length ≤ fuel →
      motive fuel (s.pass items).2 (s.pushBatch (s.fill (items.map Prod.fst)).batch) →
        motive (fuel + 1) items s)
    (fuel : ℕ) (items : List Item) (s : Scheduler) (hsize : 1 ≤ s.maxBatchSize)
    (hfuel : items.length ≤ fuel) : motive fuel items s := by
  induction fuel generalizing items s with
  | zero =>
    obtain rfl := List.length_eq_zero_iff.mp (Nat.le_zero.mp hfuel)
    exact nil 0 s
  | succ fuel ih =>
    by_cases hne : items = []
    · exact hne ▸ nil (fuel + 1) s
    · have hshorter : (s.pass items).2.length ≤ fuel :=
        Nat.le_of_lt_succ ((length_pass_lt hsize hne).trans_le hfuel)
      exact step fuel items s hsize hne hshorter (ih _ _ hsize hshorter)

theorem batches_scheduleLoop (hsize : 1 ≤ s.maxBatchSize) (hfuel : items.length ≤ fuel) :
    (scheduleLoop fuel (items.map Prod.fst) s).batches.map ExecutionBatch.transactions =
      s.batches.map ExecutionBatch.transactions ++
        (rounds fuel items s).map (List.map Prod.fst) := by
  refine rounds_induction (fun fuel s => ?_) (fun fuel items s hsize hne _ ih => ?_)
    fuel items s hsize hfuel
  · cases fuel <;> simp [scheduleLoop, rounds_nil]
  · rw [scheduleLoop_succ hsize (transactions_ne_nil hne), rounds_succ hsize hne,
      (fill_pass s items).2, ih]
    simp [pushBatch, (fill_pass s items).1]

theorem rounds_perm (hsize : 1 ≤ s.maxBatchSize) (hfuel : items.length ≤ fuel) :
    (rounds fuel items s).flatten.Perm items := by
  refine rounds_induction (fun fuel s => ?_) (fun fuel items s hsize hne _ ih => ?_)
    fuel items s hsize hfuel
  · rw [rounds_nil]
    exact .nil
  · rw [rounds_succ hsize hne, List.flatten_cons]
    exact (ih.append_left _).trans (split_perm s _ items)

theorem pass_conflict_free (s : Scheduler) (items : List Item) :
    (s.pass items).1.Pairwise fun a b => a.1.conflictsWith b.1 = false :=
  (split_conflict_free (Filling.tracks_start _) items).2

theorem nodup_of_sorted (hsorted : items.Pairwise fun a b => a.2 < b.2) : items.Nodup :=
  hsorted.imp fun hlt he => hlt.ne (congrArg Prod.snd he)

theorem pass_disjoint (hsorted : items.Pairwise fun a b => a.2 < b.2) :
    (s.pass items).1.Disjoint (s.pass items).2 :=
  List.disjoint_of_nodup_append ((split_perm s _ items).nodup_iff.mpr (nodup_of_sorted hsorted))

theorem mem_pass {a : Item} : a ∈ items ↔ a ∈ (s.pass items).1 ∨ a ∈ (s.pass items).2 :=
  ((split_perm s _ items).mem_iff (a := a)).symm.trans List.mem_append

theorem mem_of_precedes {rounds : List (List Item)} {a b : Item} (h : Precedes rounds a b) :
    a ∈ rounds.flatten ∧ b ∈ rounds.flatten := by
  induction rounds with
  | nil => exact h.elim
  | cons round rest ih =>
    rw [List.flatten_cons, List.mem_append, List.mem_append]
    obtain ⟨ha, hb⟩ | hrest := h
    · exact ⟨.inl ha, .inr hb⟩
    · exact ⟨.inr (ih hrest).1, .inr (ih hrest).2⟩

theorem not_sublist_of_precedes {rounds : List (List Item)} (hnodup : rounds.flatten.Nodup)
    {a b : Item} (h : Precedes rounds a b) : ¬[b, a].Sublist rounds.flatten := by
  induction rounds with
  | nil => exact h.elim
  | cons round rest ih =>
    rw [List.flatten_cons] at hnodup ⊢
    have hdisjoint := List.disjoint_of_nodup_append hnodup
    intro hsub
    obtain ⟨ha, hb⟩ | hrest := h <;>
      obtain ⟨hbround, _⟩ | hlater := Reorder.sublist_pair_append hsub
    · exact hdisjoint hbround hb
    · exact hdisjoint ha (hlater.subset (by simp))
    · exact hdisjoint hbround (mem_of_precedes hrest).2
    · exact ih hnodup.of_append_right hrest hlater

theorem ordered_step {later : List (List Item)} (hsorted : items.Pairwise fun a b => a.2 < b.2)
    (hlater : later.flatten.Perm (s.pass items).2) :
    Ordered items ((s.pass items).1 :: later) ↔
      (∀ a ∈ (s.pass items).2, ∀ b ∈ (s.pass items).1, a.2 < b.2 →
          a.1.conflictsWith b.1 = false) ∧
        Ordered (s.pass items).2 later := by
  have hdisjoint := pass_disjoint (s := s) hsorted
  constructor
  · intro horder
    refine ⟨fun a ha b hb hlt => ?_, fun a ha b hb hlt hconflict => ?_⟩
    · refine Bool.eq_false_iff.mpr fun hconflict => ?_
      obtain ⟨htaken, _⟩ | hprecedes :=
        horder a (mem_pass.mpr (.inr ha)) b (mem_pass.mpr (.inl hb)) hlt hconflict
      · exact hdisjoint htaken ha
      · exact hdisjoint hb (hlater.subset (mem_of_precedes hprecedes).2)
    · obtain ⟨htaken, _⟩ | hprecedes :=
        horder a (mem_pass.mpr (.inr ha)) b (mem_pass.mpr (.inr hb)) hlt hconflict
      · exact (hdisjoint htaken ha).elim
      · exact hprecedes
  · rintro ⟨hpass, hrest⟩ a ha b hb hlt hconflict
    obtain ha | ha := mem_pass.mp ha <;> obtain hb | hb := mem_pass.mp hb
    · have hfree := (pass_conflict_free s items).forall ha hb fun he => hlt.ne (he ▸ rfl)
      exact absurd (hconflict.symm.trans hfree) (by decide)
    · exact .inl ⟨ha, hlater.mem_iff.mpr hb⟩
    · exact absurd (hconflict.symm.trans (hpass a ha b hb hlt)) (by decide)
    · exact .inr (hrest a ha b hb hlt hconflict)

theorem ordered_iff_roundsClear (hsize : 1 ≤ s.maxBatchSize) (hfuel : items.length ≤ fuel)
    (hsorted : items.Pairwise fun a b => a.2 < b.2) :
    Ordered items (rounds fuel items s) ↔ RoundsClear fuel (items.map Prod.fst) s := by
  revert hsorted
  refine rounds_induction (fun fuel s _ => ?_) (fun fuel items s hsize hne hleft ih hsorted => ?_)
    fuel items s hsize hfuel
  · cases fuel <;> simp [RoundsClear, Ordered]
  · have hclear : s.PassClear (.start (UInt64.ofNat s.batches.length)) (items.map Prod.fst) ↔
        ∀ a ∈ (s.pass items).2, ∀ b ∈ (s.pass items).1, a.2 < b.2 →
          a.1.conflictsWith b.1 = false :=
      (passClear_iff hsorted).trans (and_iff_right fun d hd => absurd hd List.not_mem_nil)
    rw [RoundsClear, or_iff_right (transactions_ne_nil hne), hclear, (fill_pass s items).2,
      ← ih (hsorted.sublist (split_sublist s _ items).2), rounds_succ hsize hne]
    exact ordered_step hsorted (rounds_perm hsize hleft)

end Rounds

section Safety

variable {s : Scheduler} {f : Filling} {seen txs : List Transaction} {d tx : Transaction}

inductive Waits (s : Scheduler) (f : Filling) (seen : List Transaction) (d : Transaction) : Prop
  | full (h : s.maxBatchSize ≤ f.batch.transactions.length)
  | heavy (hne : f.batch.transactions ≠ [])
      (h : s.maxBatchCompute.toNat < load f.batch.transactions + d.computeBudget.toNat)
  | behind (m : Transaction) (hm : m ∈ f.batch.transactions) (h : m.conflictsWith d = true)
      (horder : [m, d].Sublist seen)

structure Filled (s : Scheduler) (f : Filling) (seen : List Transaction) : Prop where
  tracks : f.Tracks
  batch_sublist : f.batch.transactions.Sublist seen
  compute : f.batch.totalCompute.toNat = load f.batch.transactions
  waiting : ∀ d ∈ f.stillRemaining, d ∈ seen ∧ Waits s f seen d

theorem load_append (txs more : List Transaction) : load (txs ++ more) = load txs + load more := by
  simp [load]

theorem load_le_of_sublist {txs more : List Transaction} (h : txs.Sublist more) :
    load txs ≤ load more :=
  (h.map _).sum_le_sum (fun _ _ => Nat.zero_le _)

theorem OrderSafe.sublist {more : List Transaction} (h : OrderSafe more) (hsub : txs.Sublist more) :
    OrderSafe txs where
  transitive hab := h.transitive (hab.trans hsub)
  budgets hab := h.budgets (hab.trans hsub)
  total := (load_le_of_sublist hsub).trans_lt h.total

theorem Waits.mono {g : Filling} {seen' : List Transaction} (h : Waits s f seen d)
    (hbatch : f.batch.transactions.Sublist g.batch.transactions) (hseen : seen.Sublist seen') :
    Waits s g seen' d := by
  cases h with
  | full h => exact .full (h.trans hbatch.length_le)
  | heavy hne h =>
    refine .heavy (fun hnil => hne (List.sublist_nil.mp (hnil ▸ hbatch))) (h.trans_le ?_)
    exact Nat.add_le_add_right (load_le_of_sublist hbatch) _
  | behind m hm h horder => exact .behind m (hbatch.subset hm) h (horder.trans hseen)

theorem Filled.toNat_add (h : Filled s f seen) (hsafe : OrderSafe (seen ++ [tx])) :
    (f.batch.totalCompute + tx.computeBudget).toNat =
      load f.batch.transactions + tx.computeBudget.toNat := by
  have htotal := hsafe.total
  have hle := load_le_of_sublist h.batch_sublist
  rw [load_append] at htotal
  have hsingle : load [tx] = tx.computeBudget.toNat := by simp [load]
  rw [UInt64.toNat_add, h.compute, Nat.mod_eq_of_lt (by omega)]

theorem Filled.not_admits (h : Filled s f seen) (hsafe : OrderSafe (seen ++ [tx]))
    (hd : d ∈ f.stillRemaining) (hconflict : d.conflictsWith tx = true) :
    s.admits f tx = false := by
  obtain ⟨hseen, hwaits⟩ := h.waiting d hd
  have hpair : [d, tx].Sublist (seen ++ [tx]) :=
    (List.singleton_sublist.mpr hseen).append (List.Sublist.refl [tx])
  cases hwaits with
  | full hfull => rw [admits, if_pos hfull]
  | heavy hne hheavy =>
    have hbudget := UInt64.le_iff_toNat_le.mp (hsafe.budgets hpair hconflict)
    have hover : s.maxBatchCompute < f.batch.totalCompute + tx.computeBudget := by
      rw [UInt64.lt_iff_toNat_lt, h.toNat_add hsafe]
      omega
    simp [admits, hover, hne]
  | behind m hm hmd horder =>
    have htriple : [m, d, tx].Sublist (seen ++ [tx]) := horder.append (List.Sublist.refl [tx])
    have hmt := h.tracks.conflicts_of_mem hm (hsafe.transitive htriple hmd hconflict)
    have hne : f.batch.transactions ≠ [] := List.ne_nil_of_mem hm
    simp [admits, hmt, hne]

theorem Filled.waits (h : Filled s f seen) (hsafe : OrderSafe (seen ++ [tx]))
    (hadmits : ¬s.admits f tx = true) : Waits s f (seen ++ [tx]) tx := by
  rw [admits] at hadmits
  split_ifs at hadmits with hfull hover
  · exact .full hfull
  · rw [UInt64.lt_iff_toNat_lt, h.toNat_add hsafe] at hover
    exact .heavy (List.isEmpty_iff.not.mp hadmits) hover
  · obtain ⟨m, hm, hconflict⟩ := h.tracks.mem_of_conflicts (by simpa using hadmits)
    refine .behind m hm hconflict ?_
    exact (List.singleton_sublist.mpr (h.batch_sublist.subset hm)).append (List.Sublist.refl [tx])

theorem Filled.place (h : Filled s f seen) (hsafe : OrderSafe (seen ++ [tx])) :
    Filled s (s.place f tx) (seen ++ [tx]) := by
  have hseen : seen.Sublist (seen ++ [tx]) := List.sublist_append_left seen [tx]
  rw [Scheduler.place]
  split_ifs with hadmits
  · refine ⟨h.tracks.accept tx, h.batch_sublist.append (List.Sublist.refl [tx]), ?_, ?_⟩
    · rw [Filling.accept, h.toNat_add hsafe, load_append]
      simp [load]
    · intro d hd
      obtain ⟨hd, hwaits⟩ := h.waiting d hd
      exact ⟨hseen.subset hd, hwaits.mono (List.sublist_append_left _ [tx]) hseen⟩
  · refine ⟨h.tracks.defer tx, h.batch_sublist.trans hseen, h.compute, ?_⟩
    intro d hd
    obtain hd | hd := List.mem_append.mp hd
    · obtain ⟨hd, hwaits⟩ := h.waiting d hd
      exact ⟨hseen.subset hd, hwaits.mono (List.Sublist.refl _) hseen⟩
    · obtain rfl := List.mem_singleton.mp hd
      exact ⟨by simp, (h.waits hsafe hadmits).mono (List.Sublist.refl _) (List.Sublist.refl _)⟩

theorem Filled.passClear (h : Filled s f seen) (hsafe : OrderSafe (seen ++ txs)) :
    s.PassClear f txs := by
  induction txs generalizing f seen with
  | nil => trivial
  | cons tx rest ih =>
    rw [List.append_cons] at hsafe
    have hfirst := hsafe.sublist (List.sublist_append_left (seen ++ [tx]) rest)
    refine ⟨fun hadmits d hd => ?_, ih (h.place hfirst) hsafe⟩
    refine Bool.eq_false_iff.mpr fun hconflict => ?_
    rw [h.not_admits hfirst hd hconflict] at hadmits
    cases hadmits

theorem filled_start (s : Scheduler) (index : UInt64) : Filled s (.start index) [] where
  tracks := Filling.tracks_start index
  batch_sublist := .slnil
  compute := rfl
  waiting := fun _ hd => absurd hd List.not_mem_nil

theorem OrderSafe.roundsClear {fuel : ℕ} {items : List Item} (hsize : 1 ≤ s.maxBatchSize)
    (hfuel : items.length ≤ fuel) (hsafe : OrderSafe (items.map Prod.fst)) :
    RoundsClear fuel (items.map Prod.fst) s := by
  revert hsafe
  refine rounds_induction (fun fuel s _ => ?_) (fun fuel items s hsize hne hleft ih hsafe => ?_)
    fuel items s hsize hfuel
  · cases fuel <;> simp [RoundsClear]
  · refine .inr ⟨(filled_start s _).passClear hsafe, ?_⟩
    rw [(fill_pass s items).2]
    exact ih (hsafe.sublist ((split_sublist s _ items).2.map Prod.fst))

end Safety

section Queue

variable {s : Scheduler}

theorem queue_transactions (s : Scheduler) : s.queue.map Prod.fst = s.pending :=
  List.zipIdx_map_fst 0 s.pending

theorem queue_sorted (s : Scheduler) : s.queue.Pairwise fun a b => a.2 < b.2 := by
  have hlabels : (s.queue.map Prod.snd).Pairwise (· < ·) := by
    rw [queue, List.zipIdx_map_snd]
    exact List.pairwise_lt_range'
  exact List.pairwise_map.mp hlabels

theorem queue_length (s : Scheduler) : s.queue.length ≤ s.pending.length :=
  List.length_zipIdx.le

theorem scheduleRounds_perm (hsize : 1 ≤ s.maxBatchSize) : s.scheduleRounds.flatten.Perm s.queue :=
  rounds_perm (s := { s with pending := [] }) hsize s.queue_length

theorem batches_schedule (hsize : 1 ≤ s.maxBatchSize) :
    (s.schedule.batches.drop s.batches.length).map ExecutionBatch.transactions =
      s.scheduleRounds.map (List.map Prod.fst) := by
  have hloop := batches_scheduleLoop (s := { s with pending := [] }) hsize s.queue_length
  rw [queue_transactions] at hloop
  rw [List.map_drop, schedule, hloop]
  exact List.drop_left' (List.length_map _)

theorem preservesOrder_iff (hsize : 1 ≤ s.maxBatchSize) :
    s.PreservesOrder ↔ s.NeverOvertakes := by
  have hiff := ordered_iff_roundsClear (s := { s with pending := [] }) hsize s.queue_length
    s.queue_sorted
  rwa [queue_transactions] at hiff

theorem OrderSafe.neverOvertakes (hsize : 1 ≤ s.maxBatchSize) (hsafe : OrderSafe s.pending) :
    s.NeverOvertakes := by
  rw [← queue_transactions] at hsafe
  have hclear := hsafe.roundsClear (s := { s with pending := [] }) hsize s.queue_length
  rwa [queue_transactions] at hclear

theorem PreservesOrder.foldl_eq (hsize : 1 ≤ s.maxBatchSize) (horder : s.PreservesOrder)
    {σ : Type} {f : σ → Transaction → σ}
    (hcommute : ∀ a b, a.conflictsWith b = false → Reorder.Commute f a b) (st : σ) :
    ((s.schedule.batches.drop s.batches.length).flatMap ExecutionBatch.transactions).foldl f st =
      s.pending.foldl f st := by
  have hperm := scheduleRounds_perm hsize
  have hnodup : s.scheduleRounds.flatten.Nodup :=
    hperm.nodup_iff.mpr (nodup_of_sorted s.queue_sorted)
  have hlabelled := Reorder.foldl_eq_of_inversions (f := fun st (item : Item) => f st item.1) hperm
    (fun a b _ hab hba => ?_) st
  · rw [List.flatMap_def, batches_schedule hsize, ← List.map_flatten, List.foldl_map, hlabelled,
      ← List.foldl_map, queue_transactions]
  · have hlt : b.2 < a.2 := by simpa using s.queue_sorted.sublist hba
    refine hcommute a.1 b.1 (Bool.eq_false_iff.mpr fun hconflict => ?_)
    have hprecedes := horder b (hba.subset (by simp)) a (hba.subset (by simp)) hlt
      ((Transaction.conflictsWith_comm _ _).trans hconflict)
    exact not_sublist_of_precedes hnodup hprecedes hab

theorem schedule_order (hsize : 1 ≤ s.maxBatchSize) :
    ((s.schedule.batches.drop s.batches.length).map ExecutionBatch.transactions =
          s.scheduleRounds.map (List.map Prod.fst) ∧
        s.scheduleRounds.flatten.Perm s.queue) ∧
      (s.PreservesOrder ↔ s.NeverOvertakes) ∧
      (OrderSafe s.pending → s.PreservesOrder) ∧
      (s.PreservesOrder → ∀ {σ : Type} (f : σ → Transaction → σ),
        (∀ a b, a.conflictsWith b = false → Reorder.Commute f a b) → ∀ st,
          ((s.schedule.batches.drop s.batches.length).flatMap ExecutionBatch.transactions).foldl
            f st = s.pending.foldl f st) := by
  refine ⟨⟨batches_schedule hsize, scheduleRounds_perm hsize⟩, preservesOrder_iff hsize, ?_, ?_⟩
  · intro hsafe
    exact (preservesOrder_iff hsize).mpr (hsafe.neverOvertakes hsize)
  · intro horder σ f hcommute st
    exact horder.foldl_eq hsize hcommute st

end Queue

def payment (sender receiver : UInt8) (senderWritable : Bool) (lamports : UInt64) : Transaction where
  signature := List.replicate 64 0
  signer := Bytes32.splat sender
  accountKeys := [Bytes32.splat sender, Bytes32.splat receiver]
  instructions :=
    [{ programId := systemProgramId
       accounts := [⟨0, true, senderWritable⟩, ⟨1, false, true⟩]
       data := SystemInstruction.toData (.transfer lamports) }]
  recentBlockhash := Bytes32.splat 0
  computeBudget := 200000
  fee := 5000

def collected : Scheduler :=
  defaultSolana.enqueueBatch [payment 1 9 true 10, payment 2 9 true 20, payment 3 9 true 30]

theorem collected_payments_keep_order : collected.PreservesOrder := by
  have hconflict : ∀ a ∈ collected.pending, ∀ b ∈ collected.pending,
      a.conflictsWith b = true ∧ a.computeBudget ≤ b.computeBudget := by decide +kernel
  refine (schedule_order (by decide)).2.2.1 ⟨?_, ?_, by decide +kernel⟩
  · intro a b c hsub _ _
    exact (hconflict a (hsub.subset (by simp)) c (hsub.subset (by simp))).1
  · intro a b hsub _
    exact (hconflict a (hsub.subset (by simp)) b (hsub.subset (by simp))).2

def relayed : Scheduler :=
  defaultSolana.enqueueBatch [payment 1 2 true 10, payment 2 3 true 10, payment 3 4 true 10]

theorem relayed_payment_is_overtaken :
    1 ≤ relayed.maxBatchSize ∧
      relayed.schedule.batches.map ExecutionBatch.transactions =
        [[payment 1 2 true 10, payment 3 4 true 10], [payment 2 3 true 10]] ∧
      ¬relayed.PreservesOrder := by
  decide +kernel

end Scheduler

end TrustNode.TxProcessor
