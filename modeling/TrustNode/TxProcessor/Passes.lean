import TrustNode.TxProcessor.Ordering

namespace TrustNode.TxProcessor.Scheduler

def emitted (s : Scheduler) : List ExecutionBatch := s.schedule.batches.drop s.batches.length

inductive Loops : Scheduler → List Transaction → Scheduler → Prop
  | done (s : Scheduler) : Loops s [] s
  | stuck {s : Scheduler} {remaining : List Transaction} (hne : remaining ≠ [])
      (hbatch : (s.fill remaining).batch.transactions = []) :
      Loops s remaining { s with pending := s.pending ++ (s.fill remaining).stillRemaining }
  | again {s final : Scheduler} {remaining : List Transaction} (hne : remaining ≠ [])
      (hbatch : (s.fill remaining).batch.transactions ≠ [])
      (hrest : Loops (s.pushBatch (s.fill remaining).batch) (s.fill remaining).stillRemaining final) :
      Loops s remaining final

inductive AtHead (s : Scheduler) : Scheduler → List Transaction → Prop
  | enter : AtHead s { s with pending := [] } s.pending
  | again {s' : Scheduler} {remaining : List Transaction} (h : AtHead s s' remaining)
      (hne : remaining ≠ []) (hbatch : (s'.fill remaining).batch.transactions ≠ []) :
      AtHead s (s'.pushBatch (s'.fill remaining).batch) (s'.fill remaining).stillRemaining

theorem fill_spec (s : Scheduler) (remaining : List Transaction) :
    (s.fill remaining).batch.transactions.Sublist remaining ∧
      (s.fill remaining).batch.transactions.Pairwise (fun a b => a.conflictsWith b = false) ∧
      (s.fill remaining).stillRemaining.Sublist remaining := by
  have hspec := fill_pass s remaining.zipIdx
  have hsub := split_sublist s (.start (UInt64.ofNat s.batches.length)) remaining.zipIdx
  have htaken := hsub.1.map Prod.fst
  have hleft := hsub.2.map Prod.fst
  rw [List.zipIdx_map_fst] at hspec htaken hleft
  rw [hspec.1, hspec.2]
  exact ⟨htaken, List.pairwise_map.mpr (pass_conflict_free s remaining.zipIdx), hleft⟩

theorem foldl_place_induction {s : Scheduler} {P : Filling → Prop} {f : Filling} (hstart : P f)
    (haccept : ∀ f tx, s.admits f tx = true → P f → P (f.accept tx))
    (hdefer : ∀ f tx, P f → P (f.defer tx)) (txs : List Transaction) : P (txs.foldl s.place f) := by
  induction txs generalizing f with
  | nil => exact hstart
  | cons tx rest ih =>
    refine ih ?_
    rw [place]
    split_ifs with hadmits
    · exact haccept f tx hadmits hstart
    · exact hdefer f tx hstart

section Filling

variable (s : Scheduler)

theorem fill_append (before after : List Transaction) :
    s.fill (before ++ after) = after.foldl s.place (s.fill before) := by
  rw [fill, List.foldl_append]
  rfl

theorem fill_snoc (before : List Transaction) (tx : Transaction) :
    s.fill (before ++ [tx]) = s.place (s.fill before) tx := fill_append s before [tx]

theorem length_lt_of_admits {f : Filling} {tx : Transaction} (h : s.admits f tx = true) :
    f.batch.transactions.length < s.maxBatchSize := by
  by_contra hfull
  rw [admits, if_pos (not_lt.mp hfull)] at h
  cases h

theorem length_fill_le (remaining : List Transaction) :
    (s.fill remaining).batch.transactions.length ≤ s.maxBatchSize := by
  refine foldl_place_induction (P := fun f => f.batch.transactions.length ≤ s.maxBatchSize)
    (Nat.zero_le _) (fun f tx hadmits _ => ?_) (fun _ _ h => h) remaining
  rw [Filling.accept, List.length_append, List.length_singleton]
  exact s.length_lt_of_admits hadmits

theorem tracks_fill (remaining : List Transaction) : (s.fill remaining).Tracks :=
  foldl_place_induction (Filling.tracks_start _) (fun _ tx _ h => h.accept tx)
    (fun _ tx h => h.defer tx) remaining

theorem fill_extends (before after : List Transaction) :
    (s.fill before).batch.transactions <+: (s.fill (before ++ after)).batch.transactions ∧
      (s.fill before).stillRemaining <+: (s.fill (before ++ after)).stillRemaining := by
  rw [fill_append]
  refine foldl_place_induction (P := fun f =>
    (s.fill before).batch.transactions <+: f.batch.transactions ∧
      (s.fill before).stillRemaining <+: f.stillRemaining)
    ⟨List.prefix_rfl, List.prefix_rfl⟩ (fun f tx _ h => ?_) (fun f tx h => ?_) after
  · exact ⟨h.1.trans (List.prefix_append _ _), h.2⟩
  · exact ⟨h.1, h.2.trans (List.prefix_append _ _)⟩

theorem length_fill (remaining : List Transaction) :
    (s.fill remaining).batch.transactions.length + (s.fill remaining).stillRemaining.length =
      remaining.length := by
  rw [← List.length_append, (s.fill_perm remaining).length_eq]

end Filling

section Looping

variable {s s' final final' : Scheduler} {remaining : List Transaction}

theorem Loops.unique (h : Loops s remaining final) (h' : Loops s remaining final') :
    final = final' := by
  induction h with
  | done s =>
    cases h' with
    | done => rfl
    | stuck hne => exact absurd rfl hne
    | again hne => exact absurd rfl hne
  | stuck hne hbatch =>
    cases h' with
    | done => exact absurd rfl hne
    | stuck => rfl
    | again _ hbatch' => exact absurd hbatch hbatch'
  | again hne hbatch hrest ih =>
    cases h' with
    | done => exact absurd rfl hne
    | stuck _ hbatch' => exact absurd hbatch' hbatch
    | again _ _ hrest' => exact ih hrest'

theorem Loops.next (h : Loops s remaining final) (hne : remaining ≠ [])
    (hbatch : (s.fill remaining).batch.transactions ≠ []) :
    Loops (s.pushBatch (s.fill remaining).batch) (s.fill remaining).stillRemaining final := by
  cases h with
  | done => exact absurd rfl hne
  | stuck _ hnil => exact absurd hnil hbatch
  | again _ _ hrest => exact hrest

theorem loops_scheduleLoop {fuel : ℕ} (hfuel : remaining.length ≤ fuel) :
    Loops s remaining (scheduleLoop fuel remaining s) := by
  induction fuel generalizing remaining s with
  | zero =>
    obtain rfl := List.length_eq_zero_iff.mp (Nat.le_zero.mp hfuel)
    exact .done s
  | succ fuel ih =>
    simp only [scheduleLoop, List.isEmpty_iff]
    split_ifs with hnil hbatch
    · subst hnil
      exact .done s
    · exact .stuck hnil hbatch
    · refine .again hnil hbatch (ih ?_)
      have hlength := s.length_fill remaining
      have hpos := List.length_pos_iff.mpr hbatch
      omega

theorem loops_schedule (s : Scheduler) : Loops { s with pending := [] } s.pending s.schedule :=
  loops_scheduleLoop le_rfl

theorem loops_iff_schedule : Loops { s with pending := [] } s.pending final ↔ final = s.schedule := by
  constructor
  · intro h
    exact h.unique s.loops_schedule
  · rintro rfl
    exact s.loops_schedule

structure Drained (s : Scheduler) (remaining : List Transaction) (final : Scheduler)
    (emitted : List ExecutionBatch) (left : List Transaction) : Prop where
  batches : final.batches = s.batches ++ emitted
  pending : final.pending = s.pending ++ left
  perm : (emitted.flatMap ExecutionBatch.transactions ++ left).Perm remaining
  sizes : ∀ batch ∈ emitted,
    batch.transactions ≠ [] ∧ batch.transactions.length ≤ s.maxBatchSize
  empty : 1 ≤ s.maxBatchSize → left = []

theorem Loops.drained (h : Loops s remaining final) :
    ∃ emitted left, Drained s remaining final emitted left := by
  induction h with
  | done s => exact ⟨[], [], by simp, by simp, by simp, by simp, fun _ => rfl⟩
  | @stuck s remaining hne hbatch =>
    have hperm := s.fill_perm remaining
    rw [hbatch, List.nil_append] at hperm
    refine ⟨[], (s.fill remaining).stillRemaining, by simp, rfl, by simpa using hperm, by simp,
      fun hsize => ?_⟩
    exact absurd hbatch (s.fill_nonempty hsize hne)
  | @again s final remaining hne hbatch hrest ih =>
    obtain ⟨emitted, left, hdrained⟩ := ih
    refine ⟨(s.fill remaining).batch :: emitted, left, ?_, hdrained.pending, ?_, ?_, hdrained.empty⟩
    · rw [hdrained.batches, pushBatch, List.append_assoc]
      rfl
    · rw [List.flatMap_cons, List.append_assoc]
      exact (hdrained.perm.append_left _).trans (s.fill_perm remaining)
    · exact List.forall_mem_cons.mpr ⟨⟨hbatch, s.length_fill_le remaining⟩, hdrained.sizes⟩

theorem schedule_drained (s : Scheduler) :
    ∃ left, Drained { s with pending := [] } s.pending s.schedule s.emitted left := by
  obtain ⟨emitted, left, h⟩ := s.loops_schedule.drained
  have hemitted : s.emitted = emitted := by
    rw [Scheduler.emitted, h.batches]
    exact List.drop_left
  exact ⟨left, hemitted ▸ h⟩

theorem schedule_conserves (s : Scheduler) :
    (∀ final, Loops { s with pending := [] } s.pending final ↔ final = s.schedule) ∧
      (s.emitted.flatMap ExecutionBatch.transactions ++ s.schedule.pending).Perm s.pending ∧
      s.schedule.batches = s.batches ++ s.emitted ∧
      (∀ batch ∈ s.emitted,
        batch.transactions ≠ [] ∧ batch.transactions.length ≤ s.maxBatchSize) ∧
      (1 ≤ s.maxBatchSize → s.schedule.pending = []) := by
  obtain ⟨left, h⟩ := s.schedule_drained
  have hpending : s.schedule.pending = left := h.pending
  refine ⟨fun final => loops_iff_schedule, ?_, h.batches, h.sizes, fun hsize => ?_⟩
  · rw [hpending]
    exact h.perm
  · rw [hpending]
    exact h.empty hsize

end Looping

section Heads

variable {s s' : Scheduler} {remaining : List Transaction}

theorem AtHead.limits (h : AtHead s s' remaining) :
    s'.maxBatchSize = s.maxBatchSize ∧ s'.maxBatchCompute = s.maxBatchCompute := by
  induction h with
  | enter => exact ⟨rfl, rfl⟩
  | again _ _ _ ih => exact ih

theorem AtHead.sublist (h : AtHead s s' remaining) : remaining.Sublist s.pending := by
  induction h with
  | enter => exact List.Sublist.refl _
  | @again s' remaining _ _ _ ih => exact (s'.fill_spec remaining).2.2.trans ih

theorem AtHead.loops (h : AtHead s s' remaining) : Loops s' remaining s.schedule := by
  induction h with
  | enter => exact s.loops_schedule
  | again _ hne hbatch ih => exact ih.next hne hbatch

theorem AtHead.batches (h : AtHead s s' remaining) : s.batches <+: s'.batches := by
  induction h with
  | enter => exact List.prefix_rfl
  | again _ _ _ ih => exact ih.trans (List.prefix_append _ _)

theorem AtHead.pushes (h : AtHead s s' remaining)
    (hbatch : (s'.fill remaining).batch.transactions ≠ []) :
    ∃ later left,
      s.schedule.batches = s'.batches ++ (s'.fill remaining).batch :: later ∧
        (later.flatMap ExecutionBatch.transactions ++ left).Perm (s'.fill remaining).stillRemaining ∧
        (1 ≤ s.maxBatchSize → left = []) := by
  have hne : remaining ≠ [] := by
    rintro rfl
    exact hbatch rfl
  have hnext := h.again hne hbatch
  obtain ⟨later, left, hdrained⟩ := hnext.loops.drained
  refine ⟨later, left, ?_, hdrained.perm, fun hsize => hdrained.empty ?_⟩
  · rw [hdrained.batches, pushBatch, List.append_assoc]
    rfl
  · rwa [hnext.limits.1]

theorem Loops.filled {final : Scheduler} (hloops : Loops s' remaining final)
    (hhead : AtHead s s' remaining) :
    ∃ emitted, final.batches = s'.batches ++ emitted ∧
      ∀ batch ∈ emitted, ∃ u rest, AtHead s u rest ∧ (u.fill rest).batch.transactions ≠ [] ∧
        batch = (u.fill rest).batch := by
  induction hloops with
  | done => exact ⟨[], by simp, by simp⟩
  | stuck => exact ⟨[], by simp, by simp⟩
  | @again s' final remaining hne hnonempty hrest ih =>
    obtain ⟨emitted, hbatches, hemitted⟩ := ih (hhead.again hne hnonempty)
    refine ⟨(s'.fill remaining).batch :: emitted, ?_, ?_⟩
    · rw [hbatches, pushBatch, List.append_assoc]
      rfl
    · exact List.forall_mem_cons.mpr ⟨⟨s', remaining, hhead, hnonempty, rfl⟩, hemitted⟩

theorem mem_emitted_iff {batch : ExecutionBatch} :
    batch ∈ s.emitted ↔ ∃ s' remaining, AtHead s s' remaining ∧
      (s'.fill remaining).batch.transactions ≠ [] ∧ batch = (s'.fill remaining).batch := by
  constructor
  · intro h
    obtain ⟨emitted, hbatches, hemitted⟩ := s.loops_schedule.filled .enter
    rw [Scheduler.emitted, hbatches, List.drop_left] at h
    exact hemitted batch h
  · rintro ⟨s', remaining, hhead, hbatch, rfl⟩
    obtain ⟨later, -, hbatches, -⟩ := hhead.pushes hbatch
    obtain ⟨earlier, hearlier⟩ := hhead.batches
    rw [Scheduler.emitted, hbatches, ← hearlier, List.append_assoc, List.drop_left]
    exact List.mem_append_right _ List.mem_cons_self

theorem emitted_filled {batch : ExecutionBatch} (h : batch ∈ s.emitted) :
    ∃ s' remaining, AtHead s s' remaining ∧ batch = (s'.fill remaining).batch := by
  obtain ⟨s', remaining, hhead, -, hbatch⟩ := mem_emitted_iff.mp h
  exact ⟨s', remaining, hhead, hbatch⟩

theorem emitted_spec {batch : ExecutionBatch} (h : batch ∈ s.emitted) :
    batch.transactions.Sublist s.pending ∧
      batch.transactions.Pairwise fun a b => a.conflictsWith b = false := by
  obtain ⟨s', remaining, hhead, rfl⟩ := emitted_filled h
  obtain ⟨hsub, hfree, -⟩ := s'.fill_spec remaining
  exact ⟨hsub.trans hhead.sublist, hfree⟩

end Heads

section Conflicts

variable (s : Scheduler)

theorem load_singleton (tx : Transaction) : load [tx] = tx.computeBudget.toNat := by
  simp [load]

theorem toNat_totalCompute_fill (remaining : List Transaction) :
    (s.fill remaining).batch.totalCompute.toNat =
      load (s.fill remaining).batch.transactions % 2 ^ 64 := by
  refine foldl_place_induction (P := fun f =>
    f.batch.totalCompute.toNat = load f.batch.transactions % 2 ^ 64) rfl (fun f tx _ h => ?_)
    (fun _ _ h => h) remaining
  rw [Filling.accept, UInt64.toNat_add, h, load_append, load_singleton]
  omega

structure HasRoom (f : Filling) (tx : Transaction) : Prop where
  size : f.batch.transactions.length < s.maxBatchSize
  compute : load f.batch.transactions + tx.computeBudget.toNat ≤ s.maxBatchCompute.toNat

theorem admits_of_hasRoom {before : List Transaction} {tx : Transaction}
    (h : s.HasRoom (s.fill before) tx) :
    s.admits (s.fill before) tx = !(s.fill before).conflicts tx := by
  have hload := s.toNat_totalCompute_fill before
  have hcap := s.maxBatchCompute.toNat_lt
  have hcompute := h.compute
  have hunder : ¬s.maxBatchCompute < (s.fill before).batch.totalCompute + tx.computeBudget := by
    rw [UInt64.lt_iff_toNat_lt, UInt64.toNat_add]
    omega
  rw [admits, if_neg (not_le.mpr h.size), if_neg hunder]

theorem conflicts_fill_iff {before : List Transaction} {tx : Transaction} :
    (s.fill before).conflicts tx = true ↔
      ∃ m ∈ (s.fill before).batch.transactions, tx.conflictsWith m = true := by
  have htracks := s.tracks_fill before
  constructor
  · intro h
    obtain ⟨m, hm, hconflict⟩ := htracks.mem_of_conflicts h
    exact ⟨m, hm, (Transaction.conflictsWith_comm tx m).trans hconflict⟩
  · rintro ⟨m, hm, hconflict⟩
    exact htracks.conflicts_of_mem hm ((Transaction.conflictsWith_comm m tx).trans hconflict)

def Defers (before : List Transaction) (tx : Transaction) : Prop :=
  s.place (s.fill before) tx = (s.fill before).defer tx

def Places (before : List Transaction) (tx : Transaction) : Prop :=
  s.place (s.fill before) tx = (s.fill before).accept tx

theorem places_iff_admits {before : List Transaction} {tx : Transaction} :
    s.Places before tx ↔ s.admits (s.fill before) tx = true := by
  rw [Places, place]
  split_ifs with hadmits
  · simp [hadmits]
  · simp [hadmits, Filling.accept, Filling.defer]

theorem defers_iff_not_places {before : List Transaction} {tx : Transaction} :
    s.Defers before tx ↔ ¬s.Places before tx := by
  rw [places_iff_admits, Defers, place]
  split_ifs with hadmits
  · simp [hadmits, Filling.accept, Filling.defer]
  · simp [hadmits]

theorem fill_considered (before : List Transaction) (tx : Transaction) (after : List Transaction) :
    s.fill (before ++ tx :: after) = s.fill ((before ++ [tx]) ++ after) := by
  rw [List.append_assoc, List.singleton_append]

theorem batch_of_places {before : List Transaction} {tx : Transaction} (h : s.Places before tx)
    (after : List Transaction) :
    (s.fill before).batch.transactions ++ [tx] <+:
      (s.fill (before ++ tx :: after)).batch.transactions := by
  have hextends := (s.fill_extends (before ++ [tx]) after).1
  rw [fill_snoc, h] at hextends
  rw [fill_considered]
  exact hextends

theorem stillRemaining_of_defers {before : List Transaction} {tx : Transaction}
    (h : s.Defers before tx) (after : List Transaction) :
    (s.fill before).stillRemaining ++ [tx] <+:
      (s.fill (before ++ tx :: after)).stillRemaining := by
  have hextends := (s.fill_extends (before ++ [tx]) after).2
  rw [fill_snoc, h] at hextends
  rw [fill_considered]
  exact hextends

theorem places_iff_of_hasRoom {before : List Transaction} {tx : Transaction}
    (h : s.HasRoom (s.fill before) tx) :
    s.Places before tx ↔
      ¬∃ m ∈ (s.fill before).batch.transactions, tx.conflictsWith m = true := by
  rw [places_iff_admits, s.admits_of_hasRoom h, ← conflicts_fill_iff]
  simp

end Conflicts

theorem batches_conflict_free (s : Scheduler) :
    (∀ batch ∈ s.emitted, batch.transactions.Pairwise fun a b => a.conflictsWith b = false) ∧
      (∀ batch, batch ∈ s.emitted ↔ ∃ s' remaining, AtHead s s' remaining ∧
        (s'.fill remaining).batch.transactions ≠ [] ∧ batch = (s'.fill remaining).batch) ∧
      ∀ s' before tx after, AtHead s s' (before ++ tx :: after) →
        s'.HasRoom (s'.fill before) tx →
          (s'.Defers before tx ↔
            ∃ m ∈ (s'.fill before).batch.transactions, tx.conflictsWith m = true) ∧
          (s'.Defers before tx → (s'.fill before).stillRemaining ++ [tx] <+:
            (s'.fill (before ++ tx :: after)).stillRemaining) ∧
          (¬s'.Defers before tx → (s'.fill before).batch.transactions ++ [tx] <+:
            (s'.fill (before ++ tx :: after)).batch.transactions) ∧
          ∃ later,
            s.schedule.batches = s'.batches ++ (s'.fill (before ++ tx :: after)).batch :: later ∧
              (later.flatMap ExecutionBatch.transactions).Perm
                (s'.fill (before ++ tx :: after)).stillRemaining := by
  refine ⟨fun batch hbatch => (emitted_spec hbatch).2, fun batch => mem_emitted_iff,
    fun s' before tx after hhead hroom => ?_⟩
  have hplaces := s'.places_iff_of_hasRoom hroom
  have hsize : 1 ≤ s'.maxBatchSize := Nat.one_le_of_lt hroom.size
  refine ⟨?_, fun h => s'.stillRemaining_of_defers h after, fun h => s'.batch_of_places ?_ after, ?_⟩
  · rw [defers_iff_not_places, hplaces, not_not]
  · rw [defers_iff_not_places, not_not] at h
    exact h
  · obtain ⟨later, left, hbatches, hperm, hleft⟩ :=
      hhead.pushes (s'.fill_nonempty hsize (List.append_ne_nil_of_right_ne_nil _ (List.cons_ne_nil _ _)))
    obtain rfl := hleft (hhead.limits.1 ▸ hsize)
    exact ⟨later, hbatches, by simpa using hperm⟩

def sharedSender : Scheduler :=
  Scheduler.defaultSolana.enqueueBatch [payment 42 50 true 1, payment 42 51 true 1, payment 43 52 true 1]

theorem second_payment_deferred :
    sharedSender.emitted.map ExecutionBatch.transactions =
        [[payment 42 50 true 1, payment 43 52 true 1], [payment 42 51 true 1]] ∧
      ({ sharedSender with pending := [] } : Scheduler).Defers [payment 42 50 true 1]
        (payment 42 51 true 1) := by
  refine ⟨by decide +kernel, ?_⟩
  have hroom : ({ sharedSender with pending := [] } : Scheduler).HasRoom
      (({ sharedSender with pending := [] } : Scheduler).fill [payment 42 50 true 1])
      (payment 42 51 true 1) := ⟨by decide +kernel, by decide +kernel⟩
  refine ((batches_conflict_free sharedSender).2.2 _ _ _ [payment 43 52 true 1] .enter hroom).1.mpr ?_
  exact ⟨payment 42 50 true 1, by decide +kernel, by decide +kernel⟩

end TrustNode.TxProcessor.Scheduler
