import TrustNode.TxProcessor.Passes

namespace TrustNode.TxProcessor.Scheduler

structure CountersFit (s : Scheduler) (batch : ExecutionBatch) : Prop where
  scheduled : s.totalScheduled.toNat + batch.transactions.length < 2 ^ 64
  index : s.batches.length + 1 < 2 ^ 64

def AdditionsFit (s : Scheduler) (remaining : List Transaction) : Prop :=
  ∀ before tx after, remaining = before ++ tx :: after →
    (s.fill before).batch.transactions.length < s.maxBatchSize →
      (s.fill before).batch.totalCompute.toNat + tx.computeBudget.toNat < 2 ^ 64

def PassSumsFit (s : Scheduler) (remaining : List Transaction) : Prop :=
  ∀ before tx after, remaining = before ++ tx :: after →
    (s.fill before).batch.transactions.length < s.maxBatchSize →
      load (s.fill before).batch.transactions + tx.computeBudget.toNat < 2 ^ 64

structure WithinCap (cap : UInt64) (batch : ExecutionBatch) : Prop where
  limit : batch.transactions.length = 1 ∨ load batch.transactions ≤ cap.toNat
  total : batch.totalCompute.toNat = load batch.transactions

structure Capped (s : Scheduler) : Prop where
  batches : ∀ batch ∈ s.emitted, WithinCap s.maxBatchCompute batch
  additions : ∀ s' remaining, AtHead s s' remaining → s'.AdditionsFit remaining
  counters : ∀ s' remaining, AtHead s s' remaining →
    (s'.fill remaining).batch.transactions ≠ [] → s'.CountersFit (s'.fill remaining).batch

structure SumsFit (s : Scheduler) : Prop where
  sums : ∀ s' remaining, AtHead s s' remaining → s'.PassSumsFit remaining
  counters : ∀ s' remaining, AtHead s s' remaining →
    (s'.fill remaining).batch.transactions ≠ [] → s'.CountersFit (s'.fill remaining).batch

structure Feasible (s : Scheduler) (batch : List Transaction) : Prop where
  size : batch.length < s.maxBatchSize
  free : batch.Pairwise fun a b => a.conflictsWith b = false
  limit : batch.length = 1 ∨ load batch ≤ s.maxBatchCompute.toNat

structure QueueFits (s : Scheduler) : Prop where
  sums : ∀ earlier tx later, s.pending = earlier ++ tx :: later →
    ∀ batch : List Transaction, batch.Sublist earlier → s.Feasible batch →
      load batch + tx.computeBudget.toNat < 2 ^ 64
  scheduled : 1 ≤ s.maxBatchSize → s.totalScheduled.toNat + s.pending.length < 2 ^ 64
  batches : 1 ≤ s.maxBatchSize → s.batches.length + s.pending.length < 2 ^ 64

structure PrefixesFit (s : Scheduler) : Prop where
  sums : ∀ earlier tx later, s.pending = earlier ++ tx :: later → s.Feasible earlier →
    load earlier + tx.computeBudget.toNat < 2 ^ 64
  scheduled : 1 ≤ s.maxBatchSize → s.totalScheduled.toNat + s.pending.length < 2 ^ 64
  batches : s.emitted ≠ [] → s.batches.length + s.emitted.length < 2 ^ 64

structure SmallBudgets (s : Scheduler) : Prop where
  cap : ∀ tx ∈ s.pending, s.maxBatchCompute.toNat + tx.computeBudget.toNat < 2 ^ 64
  pairs : s.pending.Pairwise fun a b => a.computeBudget.toNat + b.computeBudget.toNat < 2 ^ 64
  scheduled : s.totalScheduled.toNat + s.pending.length < 2 ^ 64
  batches : s.batches.length + s.pending.length < 2 ^ 64

section Pass

variable {s : Scheduler} {before remaining : List Transaction} {tx : Transaction}

theorem AdditionsFit.init (h : s.AdditionsFit (before ++ [tx])) : s.AdditionsFit before := by
  rintro earlier other after rfl
  exact h earlier other (after ++ [tx]) (by simp)

theorem withinCap_accept (hexact : (s.fill before).batch.totalCompute.toNat =
      load (s.fill before).batch.transactions)
    (hfits : (s.fill before).batch.totalCompute.toNat + tx.computeBudget.toNat < 2 ^ 64)
    (hadmits : s.admits (s.fill before) tx = true) :
    WithinCap s.maxBatchCompute ((s.fill before).accept tx).batch := by
  have htotal : ((s.fill before).batch.totalCompute + tx.computeBudget).toNat =
      load (s.fill before).batch.transactions + tx.computeBudget.toNat := by
    rw [UInt64.toNat_add, Nat.mod_eq_of_lt hfits, hexact]
  have hload : load ((s.fill before).batch.transactions ++ [tx]) =
      load (s.fill before).batch.transactions + tx.computeBudget.toNat := by
    rw [load_append, load_singleton]
  refine ⟨?_, htotal.trans hload.symm⟩
  rw [admits, if_neg (not_le.mpr (s.length_lt_of_admits hadmits))] at hadmits
  split_ifs at hadmits with hover
  · left
    simp [Filling.accept, List.isEmpty_iff.mp hadmits]
  · right
    rw [UInt64.lt_iff_toNat_lt, htotal, not_lt] at hover
    exact hload.trans_le hover

theorem AdditionsFit.withinCap (h : s.AdditionsFit remaining) :
    WithinCap s.maxBatchCompute (s.fill remaining).batch := by
  induction remaining using List.reverseRecOn with
  | nil => exact ⟨.inr (Nat.zero_le _), rfl⟩
  | append_singleton before tx ih =>
    have hbefore := ih h.init
    rw [fill_snoc, place]
    split_ifs with hadmits
    · have hfits := h before tx [] rfl (s.length_lt_of_admits hadmits)
      exact withinCap_accept hbefore.total hfits hadmits
    · exact hbefore

theorem additionsFit_iff : s.AdditionsFit remaining ↔ s.PassSumsFit remaining := by
  constructor
  · rintro h before tx after rfl hroom
    have hbefore : s.AdditionsFit before := by
      rintro earlier other later rfl
      exact h earlier other (later ++ tx :: after) (by simp)
    rw [← hbefore.withinCap.total]
    exact h before tx after rfl hroom
  · intro h before tx after heq hroom
    have hle := (s.toNat_totalCompute_fill before).trans_le (Nat.mod_le _ _)
    have hsum := h before tx after heq hroom
    omega

end Pass

section Bounded

variable {s s' : Scheduler} {remaining before : List Transaction} {tx : Transaction}

theorem AdditionsFit.snoc (hbefore : s.AdditionsFit before)
    (hfits : (s.fill before).batch.transactions.length < s.maxBatchSize →
      (s.fill before).batch.totalCompute.toNat + tx.computeBudget.toNat < 2 ^ 64) :
    s.AdditionsFit (before ++ [tx]) := by
  intro earlier other after heq
  obtain rfl | ⟨later, last, rfl⟩ := after.eq_nil_or_concat'
  · obtain ⟨rfl, hlast⟩ := List.append_inj' heq rfl
    obtain rfl := (List.cons.inj hlast).1
    exact hfits
  · rw [← List.cons_append, ← List.append_assoc] at heq
    obtain ⟨rfl, -⟩ := List.append_inj' heq rfl
    exact hbefore earlier other later rfl

theorem feasible_fill (hsize : (s.fill before).batch.transactions.length < s.maxBatchSize)
    (hcap : WithinCap s.maxBatchCompute (s.fill before).batch) :
    s.Feasible (s.fill before).batch.transactions :=
  ⟨hsize, (s.fill_spec before).2.1, hcap.limit⟩

theorem additionsFit_of_feasible
    (h : ∀ earlier tx later, remaining = earlier ++ tx :: later →
      ∀ batch : List Transaction, batch.Sublist earlier → s.Feasible batch →
        load batch + tx.computeBudget.toNat < 2 ^ 64) : s.AdditionsFit remaining := by
  induction remaining using List.reverseRecOn with
  | nil =>
    intro before tx after heq
    simp at heq
  | append_singleton before tx ih =>
    have hbefore := ih fun earlier other later heq => h earlier other (later ++ [tx]) (by simp [heq])
    refine hbefore.snoc fun hsize => ?_
    have hcap := hbefore.withinCap
    rw [hcap.total]
    exact h before tx [] rfl _ (s.fill_spec before).1 (feasible_fill hsize hcap)

theorem AtHead.batches_length_le (h : AtHead s s' remaining) :
    s'.batches.length + remaining.length ≤ s.batches.length + s.pending.length := by
  induction h with
  | enter => exact le_rfl
  | @again s' remaining _ _ hbatch ih =>
    have hlength := s'.length_fill remaining
    have hpos := List.length_pos_iff.mpr hbatch
    simp only [pushBatch, List.length_append, List.length_singleton]
    omega

theorem toNat_totalScheduled_pushBatch {batch : ExecutionBatch}
    (hfits : s.totalScheduled.toNat + batch.transactions.length < 2 ^ 64) :
    (s.pushBatch batch).totalScheduled.toNat =
      s.totalScheduled.toNat + batch.transactions.length := by
  have hcount : (UInt64.ofNat batch.transactions.length).toNat = batch.transactions.length :=
    UInt64.toNat_ofNat_of_lt' (by rw [UInt64.size]; omega)
  rw [pushBatch, UInt64.toNat_add, hcount, Nat.mod_eq_of_lt hfits]

theorem AtHead.totalScheduled_le (h : AtHead s s' remaining)
    (hfits : s.totalScheduled.toNat + s.pending.length < 2 ^ 64) :
    s'.totalScheduled.toNat + remaining.length ≤ s.totalScheduled.toNat + s.pending.length := by
  induction h with
  | enter => exact le_rfl
  | @again s' remaining _ _ _ ih =>
    have hlength := s'.length_fill remaining
    rw [toNat_totalScheduled_pushBatch (by omega)]
    omega

theorem AtHead.totalScheduled_ge (h : AtHead s s' remaining)
    (hfits : ∀ u rest, AtHead s u rest → (u.fill rest).batch.transactions ≠ [] →
      u.totalScheduled.toNat + (u.fill rest).batch.transactions.length < 2 ^ 64) :
    s.totalScheduled.toNat + s.pending.length ≤ s'.totalScheduled.toNat + remaining.length := by
  induction h with
  | enter => exact le_rfl
  | @again s' remaining hhead _ hbatch ih =>
    have hlength := s'.length_fill remaining
    rw [toNat_totalScheduled_pushBatch (hfits s' remaining hhead hbatch)]
    omega

theorem exists_split_of_sublist {α : Type*} {l before after : List α} {a : α}
    (h : (before ++ a :: after).Sublist l) :
    ∃ earlier later, l = earlier ++ a :: later ∧ before.Sublist earlier := by
  obtain ⟨front, back, rfl, hfront, hback⟩ := List.append_sublist_iff.mp h
  obtain ⟨skipped, later, rfl⟩ := List.append_of_mem (hback.subset List.mem_cons_self)
  exact ⟨front ++ skipped, later, by simp, hfront.trans (List.sublist_append_left _ _)⟩

theorem Feasible.congr {batch : List Transaction} (h : s'.Feasible batch)
    (hlimits : s'.maxBatchSize = s.maxBatchSize ∧ s'.maxBatchCompute = s.maxBatchCompute) :
    s.Feasible batch :=
  ⟨hlimits.1 ▸ h.size, h.free, hlimits.2 ▸ h.limit⟩

theorem QueueFits.sumsFit (h : QueueFits s) : SumsFit s where
  sums s' remaining hhead := by
    refine additionsFit_iff.mp (additionsFit_of_feasible fun before tx after heq batch hsub hfeasible => ?_)
    obtain ⟨earlier, later, hpending, hbefore⟩ := exists_split_of_sublist (heq ▸ hhead.sublist)
    exact h.sums earlier tx later hpending batch (hsub.trans hbefore) (hfeasible.congr hhead.limits)
  counters s' remaining hhead hbatch := by
    have hlength := s'.length_fill remaining
    have hpos := List.length_pos_iff.mpr hbatch
    have hsize : 1 ≤ s.maxBatchSize := by
      have hle := s'.length_fill_le remaining
      rw [hhead.limits.1] at hle
      omega
    have hfits := h.scheduled hsize
    have hscheduled := hhead.totalScheduled_le hfits
    have hindex := h.batches hsize
    have hbatches := hhead.batches_length_le
    exact ⟨by omega, by omega⟩

theorem SmallBudgets.queueFits (h : SmallBudgets s) : QueueFits s where
  sums earlier tx later hpending batch hsub hfeasible := by
    have hpairs := h.pairs
    have hcap := h.cap tx (by simp [hpending])
    rw [hpending, List.pairwise_append] at hpairs
    obtain hone | hle := hfeasible.limit
    · obtain ⟨m, rfl⟩ := List.length_eq_one_iff.mp hone
      rw [load_singleton]
      exact hpairs.2.2 m (hsub.subset List.mem_cons_self) tx List.mem_cons_self
    · omega
  scheduled _ := h.scheduled
  batches _ := h.batches

end Bounded

section Necessary

variable {s s' : Scheduler} {remaining before : List Transaction} {tx : Transaction}

theorem Feasible.init (h : s.Feasible (before ++ [tx])) : s.Feasible before where
  size := by
    have hsize := h.size
    rw [List.length_append] at hsize
    omega
  free := h.free.sublist (List.sublist_append_left _ _)
  limit := by
    obtain hone | hle := h.limit
    · obtain rfl : before = [] := by simpa using hone
      exact .inr (Nat.zero_le _)
    · rw [load_append] at hle
      exact .inr ((Nat.le_add_right _ _).trans hle)

theorem admits_of_feasible (h : s.Feasible (before ++ [tx]))
    (hbefore : (s.fill before).batch.transactions = before) :
    s.admits (s.fill before) tx = true := by
  have hsize := h.size
  rw [List.length_append, List.length_singleton] at hsize
  obtain hone | hle := h.limit
  · obtain rfl : before = [] := by simpa using hone
    exact s.admits_start (by omega) _ tx
  · rw [load_append, load_singleton] at hle
    have hroom : s.HasRoom (s.fill before) tx := by
      constructor
      · rw [hbefore]
        omega
      · rwa [hbefore]
    rw [s.admits_of_hasRoom hroom, Bool.not_eq_true', ← Bool.not_eq_true, conflicts_fill_iff, hbefore]
    rintro ⟨m, hm, hconflict⟩
    have hfree := (List.pairwise_append.mp h.free).2.2 m hm tx (List.mem_singleton_self _)
    rw [Transaction.conflictsWith_comm, hfree] at hconflict
    cases hconflict

theorem Feasible.fill_eq (h : s.Feasible before) : (s.fill before).batch.transactions = before := by
  induction before using List.reverseRecOn with
  | nil => rfl
  | append_singleton before tx ih =>
    have hbefore := ih h.init
    rw [fill_snoc, place, if_pos (admits_of_feasible h hbefore), Filling.accept, hbefore]

theorem Loops.ends {final : Scheduler} (hloops : Loops s' remaining final)
    (hhead : AtHead s s' remaining) (hsize : 1 ≤ s.maxBatchSize) : AtHead s final [] := by
  induction hloops with
  | done => exact hhead
  | @stuck s' remaining hne hnil =>
    exact absurd hnil (s'.fill_nonempty (hhead.limits.1 ▸ hsize) hne)
  | again hne hbatch _ ih => exact ih (hhead.again hne hbatch)

theorem AtHead.batches_length_lt (h : AtHead s s' remaining)
    (hfits : ∀ u rest, AtHead s u rest → (u.fill rest).batch.transactions ≠ [] →
      u.batches.length + 1 < 2 ^ 64) :
    s'.batches.length = s.batches.length ∨ s'.batches.length < 2 ^ 64 := by
  cases h with
  | enter => exact .inl rfl
  | @again s' remaining hhead _ hbatch =>
    right
    rw [pushBatch, List.length_append]
    exact hfits s' remaining hhead hbatch

theorem length_batches_schedule (s : Scheduler) :
    s.schedule.batches.length = s.batches.length + s.emitted.length := by
  obtain ⟨left, hdrained⟩ := s.schedule_drained
  rw [hdrained.batches, List.length_append]

theorem maxBatchSize_pos_of_emitted (h : s.emitted ≠ []) : 1 ≤ s.maxBatchSize := by
  obtain ⟨left, hdrained⟩ := s.schedule_drained
  obtain ⟨batch, hbatch⟩ := List.exists_mem_of_ne_nil _ h
  obtain ⟨hne, hle⟩ := hdrained.sizes batch hbatch
  exact (List.length_pos_iff.mpr hne).trans_le hle

theorem SumsFit.prefixesFit (h : SumsFit s) : PrefixesFit s where
  sums earlier tx later hpending hfeasible := by
    have hfill : ({ s with pending := [] } : Scheduler).Feasible earlier :=
      hfeasible.congr ⟨rfl, rfl⟩
    have hpass := h.sums _ _ .enter earlier tx later hpending
    rw [hfill.fill_eq] at hpass
    exact hpass hfeasible.size
  scheduled hsize := by
    have hend := s.loops_schedule.ends .enter hsize
    have htotal := hend.totalScheduled_ge fun u rest hhead hbatch =>
      (h.counters u rest hhead hbatch).scheduled
    have hlt := s.schedule.totalScheduled.toNat_lt
    rw [List.length_nil] at htotal
    omega
  batches hne := by
    have hend := s.loops_schedule.ends .enter (maxBatchSize_pos_of_emitted hne)
    have hlength := hend.batches_length_lt fun u rest hhead hbatch =>
      (h.counters u rest hhead hbatch).index
    have hpos := List.length_pos_iff.mpr hne
    rw [length_batches_schedule] at hlength
    omega

end Necessary

theorem capped_iff_sumsFit {s : Scheduler} : Capped s ↔ SumsFit s := by
  constructor
  · intro h
    exact ⟨fun s' remaining hhead => additionsFit_iff.mp (h.additions s' remaining hhead),
      h.counters⟩
  · intro h
    refine ⟨fun batch hbatch => ?_, fun s' remaining hhead =>
      additionsFit_iff.mpr (h.sums s' remaining hhead), h.counters⟩
    obtain ⟨s', remaining, hhead, rfl⟩ := emitted_filled hbatch
    rw [← hhead.limits.2]
    exact (additionsFit_iff.mpr (h.sums s' remaining hhead)).withinCap

theorem compute_capped (s : Scheduler) :
    (QueueFits s → Capped s) ∧ (Capped s → PrefixesFit s) ∧ (Capped s ↔ SumsFit s) ∧
      (SmallBudgets s → QueueFits s) := by
  refine ⟨fun h => capped_iff_sumsFit.mpr h.sumsFit, fun h => ?_, capped_iff_sumsFit,
    SmallBudgets.queueFits⟩
  exact (capped_iff_sumsFit.mp h).prefixesFit

def loneTransaction : Scheduler :=
  (Scheduler.new 128 18446744073709551615).enqueueBatch
    [{ payment 42 50 true 1 with computeBudget := 1 }]

theorem lone_transaction_capped : Capped loneTransaction ∧ ¬SmallBudgets loneTransaction := by
  constructor
  · refine (compute_capped loneTransaction).1
      ⟨fun earlier tx later hpending batch hsub _ => ?_, by decide, by decide⟩
    obtain rfl : earlier = [] := by
      have hlength : 1 = (earlier ++ tx :: later).length := congrArg List.length hpending
      rw [List.length_append, List.length_cons] at hlength
      exact List.length_eq_zero_iff.mp (by omega)
    rw [List.sublist_nil.mp hsub]
    exact (Nat.zero_add _).trans_lt tx.computeBudget.toNat_lt
  · intro h
    exact absurd (h.cap _ List.mem_cons_self) (by decide)

def wrappingQueue : Scheduler :=
  (Scheduler.new 128 10).enqueueBatch
    [{ payment 42 50 true 1 with computeBudget := 1 },
      { payment 43 51 true 1 with computeBudget := 18446744073709551615 }]

theorem wrapping_queue_exceeds_cap :
    wrappingQueue.emitted = [⟨0, wrappingQueue.pending, 0⟩] ∧
      load wrappingQueue.pending = 2 ^ 64 ∧ ¬Capped wrappingQueue := by
  have hemitted : wrappingQueue.emitted = [⟨0, wrappingQueue.pending, 0⟩] := by decide +kernel
  have hload : load wrappingQueue.pending = 2 ^ 64 := by decide +kernel
  refine ⟨hemitted, hload, fun h => ?_⟩
  have htotal := (h.batches ⟨0, wrappingQueue.pending, 0⟩ (by simp [hemitted])).total
  rw [hload] at htotal
  cases htotal

end TrustNode.TxProcessor.Scheduler
