import TrustNode.TxProcessor.Transaction

namespace TrustNode.TxProcessor

open TrustNode.Accounts

structure ExecutionBatch where
  index : UInt64
  transactions : List Transaction
  totalCompute : UInt64
deriving DecidableEq

structure Scheduler where
  pending : List Transaction
  batches : List ExecutionBatch
  totalScheduled : UInt64
  maxBatchSize : ℕ
  maxBatchCompute : UInt64
deriving DecidableEq

structure Filling where
  batch : ExecutionBatch
  writes : List Pubkey
  reads : List Pubkey
  stillRemaining : List Transaction

namespace Filling

def start (index : UInt64) : Filling where
  batch := { index := index, transactions := [], totalCompute := 0 }
  writes := []
  reads := []
  stillRemaining := []

def defer (f : Filling) (tx : Transaction) : Filling :=
  { f with stillRemaining := f.stillRemaining ++ [tx] }

def accept (f : Filling) (tx : Transaction) : Filling :=
  { f with
    batch :=
      { f.batch with
        transactions := f.batch.transactions ++ [tx]
        totalCompute := f.batch.totalCompute + tx.computeBudget }
    writes := f.writes ++ tx.writeAccounts
    reads := f.reads ++ tx.readAccounts }

def conflicts (f : Filling) (tx : Transaction) : Bool :=
  tx.writeAccounts.any (fun w => f.writes.contains w || f.reads.contains w) ||
    tx.readAccounts.any f.writes.contains

end Filling

namespace Scheduler

def new (maxBatchSize : ℕ) (maxBatchCompute : UInt64) : Scheduler where
  pending := []
  batches := []
  totalScheduled := 0
  maxBatchSize := maxBatchSize
  maxBatchCompute := maxBatchCompute

def defaultSolana : Scheduler := new 128 (200000 * 128)

def enqueueBatch (s : Scheduler) (txs : List Transaction) : Scheduler :=
  { s with pending := s.pending ++ txs }

def admits (s : Scheduler) (f : Filling) (tx : Transaction) : Bool :=
  if s.maxBatchSize ≤ f.batch.transactions.length then false
  else if s.maxBatchCompute < f.batch.totalCompute + tx.computeBudget then
    f.batch.transactions.isEmpty
  else !f.conflicts tx

def place (s : Scheduler) (f : Filling) (tx : Transaction) : Filling :=
  if s.admits f tx then f.accept tx else f.defer tx

def fill (s : Scheduler) (remaining : List Transaction) : Filling :=
  remaining.foldl s.place (.start (UInt64.ofNat s.batches.length))

def pushBatch (s : Scheduler) (batch : ExecutionBatch) : Scheduler :=
  { s with
    batches := s.batches ++ [batch]
    totalScheduled := s.totalScheduled + UInt64.ofNat batch.transactions.length }

def scheduleLoop : ℕ → List Transaction → Scheduler → Scheduler
  | 0, _, s => s
  | fuel + 1, remaining, s =>
    if remaining.isEmpty then s
    else
      let f := s.fill remaining
      if f.batch.transactions.isEmpty then { s with pending := s.pending ++ f.stillRemaining }
      else scheduleLoop fuel f.stillRemaining (s.pushBatch f.batch)

def schedule (s : Scheduler) : Scheduler :=
  scheduleLoop s.pending.length s.pending { s with pending := [] }

section Placement

variable (s : Scheduler)

theorem admits_start (h : 1 ≤ s.maxBatchSize) (index : UInt64) (tx : Transaction) :
    s.admits (.start index) tx = true := by
  have hsize : ¬s.maxBatchSize ≤ 0 := by omega
  simp [admits, Filling.start, Filling.conflicts, hsize]

theorem place_perm (f : Filling) (tx : Transaction) :
    ((s.place f tx).batch.transactions ++ (s.place f tx).stillRemaining).Perm
      (f.batch.transactions ++ f.stillRemaining ++ [tx]) := by
  unfold place
  split
  · simp only [Filling.accept, List.append_assoc]
    exact List.Perm.append_left _ List.perm_append_comm
  · simp [Filling.defer]

theorem foldl_place_perm (txs : List Transaction) (f : Filling) :
    ((txs.foldl s.place f).batch.transactions ++ (txs.foldl s.place f).stillRemaining).Perm
      (f.batch.transactions ++ f.stillRemaining ++ txs) := by
  induction txs generalizing f with
  | nil => simp
  | cons tx rest ih =>
    refine (ih (s.place f tx)).trans ?_
    have hstep := (s.place_perm f tx).append_right rest
    simpa using hstep

theorem fill_perm (remaining : List Transaction) :
    ((s.fill remaining).batch.transactions ++ (s.fill remaining).stillRemaining).Perm remaining := by
  simpa [fill, Filling.start] using
    s.foldl_place_perm remaining (.start (UInt64.ofNat s.batches.length))

theorem length_place_le (f : Filling) (tx : Transaction) :
    f.batch.transactions.length ≤ (s.place f tx).batch.transactions.length := by
  unfold place
  split <;> simp [Filling.accept, Filling.defer]

theorem length_foldl_place_le (txs : List Transaction) (f : Filling) :
    f.batch.transactions.length ≤ (txs.foldl s.place f).batch.transactions.length := by
  induction txs generalizing f with
  | nil => exact le_rfl
  | cons tx rest ih => exact (s.length_place_le f tx).trans (ih _)

theorem fill_nonempty (h : 1 ≤ s.maxBatchSize) {remaining : List Transaction}
    (hr : remaining ≠ []) : (s.fill remaining).batch.transactions ≠ [] := by
  obtain ⟨tx, rest, rfl⟩ := List.exists_cons_of_ne_nil hr
  have hfirst : (s.place (.start (UInt64.ofNat s.batches.length)) tx).batch.transactions = [tx] := by
    rw [place, if_pos (s.admits_start h _ tx)]
    rfl
  have hlen := s.length_foldl_place_le rest (s.place (.start (UInt64.ofNat s.batches.length)) tx)
  rw [hfirst] at hlen
  intro hnil
  rw [fill, List.foldl_cons] at hnil
  simp [hnil] at hlen

theorem length_stillRemaining_lt (h : 1 ≤ s.maxBatchSize) {remaining : List Transaction}
    (hr : remaining ≠ []) : (s.fill remaining).stillRemaining.length < remaining.length := by
  have hlen := (s.fill_perm remaining).length_eq
  have hpos := List.length_pos_iff.mpr (s.fill_nonempty h hr)
  rw [List.length_append] at hlen
  omega

variable {s}

theorem scheduleLoop_succ (h : 1 ≤ s.maxBatchSize) {remaining : List Transaction}
    (hr : remaining ≠ []) (fuel : ℕ) :
    scheduleLoop (fuel + 1) remaining s =
      scheduleLoop fuel (s.fill remaining).stillRemaining
        (s.pushBatch (s.fill remaining).batch) := by
  simp [scheduleLoop, hr, s.fill_nonempty h hr]

end Placement

def scheduled (s : Scheduler) : List Transaction := s.batches.flatMap ExecutionBatch.transactions

theorem scheduleLoop_spec {fuel : ℕ} {remaining : List Transaction} {s : Scheduler}
    (hsize : 1 ≤ s.maxBatchSize) (hfuel : remaining.length ≤ fuel) :
    (scheduleLoop fuel remaining s).pending = s.pending ∧
      ∃ batches, (scheduleLoop fuel remaining s).batches = s.batches ++ batches ∧
        (batches.flatMap ExecutionBatch.transactions).Perm remaining := by
  induction fuel generalizing remaining s with
  | zero =>
    obtain rfl := List.length_eq_zero_iff.mp (Nat.le_zero.mp hfuel)
    exact ⟨rfl, [], by simp [scheduleLoop], .nil⟩
  | succ fuel ih =>
    by_cases hr : remaining = []
    · subst hr
      exact ⟨rfl, [], by simp [scheduleLoop], .nil⟩
    · have hshorter : (s.fill remaining).stillRemaining.length ≤ fuel := by
        have hlt := s.length_stillRemaining_lt hsize hr
        omega
      obtain ⟨hpend, batches, hb, hp⟩ :=
        ih (s := s.pushBatch (s.fill remaining).batch) hsize hshorter
      rw [scheduleLoop_succ hsize hr]
      refine ⟨hpend, (s.fill remaining).batch :: batches, ?_, ?_⟩
      · rw [hb]
        simp [pushBatch]
      · rw [List.flatMap_cons]
        exact (hp.append_left _).trans (s.fill_perm remaining)

theorem schedule_perm {s : Scheduler} (hsize : 1 ≤ s.maxBatchSize) (hb : s.batches = []) :
    s.schedule.scheduled.Perm s.pending := by
  obtain ⟨_, batches, hbatches, hp⟩ :=
    scheduleLoop_spec (s := { s with pending := [] }) hsize (le_refl s.pending.length)
  rw [scheduled, schedule, hbatches]
  simpa [hb] using hp

end Scheduler

end TrustNode.TxProcessor
