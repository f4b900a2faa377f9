import TrustNode.ProgramExecutor.Units
import TrustNode.TxProcessor.Supply

namespace TrustNode.TxProcessor.Executor

open Exec
open TrustNode.Accounts
open TrustNode.ProgramExecutor (InstructionProcessor.processInstruction_units)

section Outcome

variable {C : Crypto} {db : AccountsDB} {tx : Transaction}

theorem feePaid_of_failure (h : (executeTransaction C db tx).1.success = false) :
    (executeTransaction C db tx).1.feePaid = 0 := by
  unfold executeTransaction at h ⊢
  dsimp only at h ⊢
  cases hv : tx.validate with
  | error e => rfl
  | ok u =>
    rw [hv] at h
    dsimp only at h ⊢
    split_ifs at h ⊢
    · rcases hf : executeFeePayment tx ⟨db, .new tx.computeBudget⟩ with ⟨e | u, s⟩
      · rfl
      · rw [hf] at h
        dsimp only at h ⊢
        rcases hl : executeInstructions tx tx.instructions s with ⟨e | u, t⟩
        · rfl
        · rw [hl] at h
          cases h
    · rfl

theorem result_of_completes (h : FeePhasePassed C db tx) (hc : Completes db tx) :
    (executeTransaction C db tx).1 =
      .ofSuccess ((loop db tx).2.ctx.computeUnits + 150) tx.fee := by
  have hf := executeFeePayment_of_paid h
  obtain ⟨hv, hs, -⟩ := h
  rcases hl : loop db tx with ⟨e | u, t⟩
  · rw [Completes, hl] at hc
    cases hc
  · rw [loop] at hl
    simp only [executeTransaction, hv, hs, hf, hl, if_true, consumeCompute]
    split <;> rfl

theorem success_iff :
    (executeTransaction C db tx).1.success = true ↔ FeePhasePassed C db tx ∧ Completes db tx := by
  by_cases h : FeePhasePassed C db tx
  · by_cases hc : Completes db tx
    · exact iff_of_true (executeTransaction_of_completes h hc).1 ⟨h, hc⟩
    · simp [(executeTransaction_of_fails h hc).1, hc]
  · simp [(executeTransaction_of_not_paid h).1, h]

end Outcome

section Compute

variable {C : Crypto} {db : AccountsDB} {tx : Transaction}

def unitsOf (ixs : List Instruction) : ℕ :=
  (ixs.map fun ix => (programInstruction ix).units.toNat).sum

def spentUnits (tx : Transaction) : ℕ := 300 + unitsOf tx.instructions

theorem units_executeInstruction (tx : Transaction) (ix : Instruction) (s : ExecutorState) :
    wp (executeInstruction tx ix)
      (fun _ t => t.ctx.computeUnits = s.ctx.computeUnits + (programInstruction ix).units)
      (fun _ _ => True) s := by
  unfold executeInstruction
  simp only [wp_ite, wp_bind, wp_modifyGet, wp_consumeCompute, wp_pure, wp_fail, implies_true,
    true_and, and_true]
  intro _ _ hsuccess
  rw [processed, InstructionProcessor.processInstruction_units hsuccess]

theorem units_executeInstructions (tx : Transaction) (ixs : List Instruction) (s : ExecutorState) :
    wp (executeInstructions tx ixs)
      (fun _ t => t.ctx.computeUnits.toNat = (s.ctx.computeUnits.toNat + unitsOf ixs) % 2 ^ 64)
      (fun _ _ => True) s := by
  induction ixs generalizing s with
  | nil =>
    have hlt := s.ctx.computeUnits.toNat_lt
    rw [executeInstructions, wp_pure]
    exact (Nat.mod_eq_of_lt hlt).symm
  | cons ix rest ih =>
    rw [executeInstructions, wp_bind]
    refine wp_mono (units_executeInstruction tx ix s) (fun _ t ht => ?_) fun _ _ _ => trivial
    refine wp_mono (ih t) (fun _ u hu => ?_) fun _ _ _ => trivial
    rw [hu, ht, UInt64.toNat_add, unitsOf, unitsOf, List.map_cons, List.sum_cons]
    omega

theorem units_of_success (h : (executeTransaction C db tx).1.success = true) :
    (executeTransaction C db tx).1.computeUnitsConsumed.toNat = spentUnits tx % 2 ^ 64 := by
  obtain ⟨hpaid, hc⟩ := success_iff.mp h
  rw [result_of_completes hpaid hc]
  rcases hl : loop db tx with ⟨e | u, t⟩
  · rw [Completes, hl] at hc
    cases hc
  · have hunits := wp_ok (units_executeInstructions tx tx.instructions (afterFee db tx)) hl
    have hstart : (afterFee db tx).ctx.computeUnits.toNat = 150 := rfl
    have hbase : (150 : UInt64).toNat = 150 := rfl
    change (t.ctx.computeUnits + 150).toNat = _
    rw [UInt64.toNat_add, hunits, hstart, hbase, spentUnits]
    omega

end Compute

theorem compute_budget_bounds_success (C : Crypto) (db : AccountsDB) (tx : Transaction) :
    ((executeTransaction C db tx).1.success = true →
        (executeTransaction C db tx).1.computeUnitsConsumed ≤ tx.computeBudget) ↔
      ((executeTransaction C db tx).1.success = true →
        spentUnits tx % 2 ^ 64 ≤ tx.computeBudget.toNat) := by
  refine forall_congr' fun h => ?_
  rw [UInt64.le_iff_toNat_le, units_of_success h]

def budgeted (budget : UInt64) : Transaction :=
  { transferTransaction [systemTransfer 1000 1 true] with computeBudget := budget }

theorem base_cost_exceeds_budget :
    (executeTransaction acceptingCrypto fundedPayer (budgeted 450)).1.success = true ∧
      (executeTransaction acceptingCrypto fundedPayer (budgeted 450)).1.computeUnitsConsumed = 600 := by
  decide +kernel

section Fee

variable (C : Crypto) (db : AccountsDB) (tx : Transaction)

def feePhase : AccountsDB :=
  match tx.validate with
  | .error _ => db
  | .ok () =>
    if tx.verifySignature C then (executeFeePayment tx ⟨db, .new tx.computeBudget⟩).2.db else db

def feeDebited : ℕ := db.lamportsAt tx.signer - (feePhase C db tx).lamportsAt tx.signer

theorem feePhase_eq : feePhase C db tx = if FeePhasePassed C db tx then charged db tx else db := by
  unfold feePhase
  split
  next e hv => rw [if_neg fun h => by cases hv.symm.trans h.1]
  next hv =>
    split_ifs with hs h h
    · rw [executeFeePayment_of_paid h]
      rfl
    · rcases hf : executeFeePayment tx ⟨db, .new tx.computeBudget⟩ with ⟨e | u, s⟩
      · exact (wp_error (executeFeePayment_spec db tx) hf).2
      · exact absurd ⟨hv, hs, (wp_ok (executeFeePayment_spec db tx) hf).1⟩ h
    · exact absurd h.2.1 hs
    · rfl

theorem feeDebited_eq : feeDebited C db tx = feeCharged C db tx := by
  rw [feeDebited, feePhase_eq, feeCharged]
  split_ifs with h
  · obtain ⟨-, -, -, a, ha, hfee⟩ := h
    have hle := UInt64.le_iff_toNat_le.mp hfee
    have hload := (load_charged ha tx.signer).trans (if_pos rfl)
    rw [AccountsDB.lamportsAt_of_load ha, AccountsDB.lamportsAt_of_load hload]
    dsimp only
    rw [UInt64.toNat_sub_of_le _ _ hfee]
    omega
  · exact Nat.sub_self _

end Fee

theorem fee_pos_of_paid {C : Crypto} {db : AccountsDB} {tx : Transaction}
    (h : FeePhasePassed C db tx) : 0 < tx.fee.toNat := by
  have hvalid := h.1
  rw [Transaction.validate] at hvalid
  split_ifs at hvalid with _ _ hfee
  have hmin := UInt64.le_iff_toNat_le.mp (UInt64.not_lt.mp hfee)
  exact lt_of_lt_of_le (by decide) hmin

theorem reported_fee_exact (C : Crypto) (db : AccountsDB) (tx : Transaction) :
    feeDebited C db tx = feeCharged C db tx ∧
      ((executeTransaction C db tx).1.feePaid.toNat = feeDebited C db tx ↔
        (FeePhasePassed C db tx → Completes db tx)) := by
  refine ⟨feeDebited_eq C db tx, ?_⟩
  rw [feeDebited_eq, feeCharged]
  split_ifs with hpaid
  · by_cases hc : Completes db tx
    · rw [result_of_completes hpaid hc]
      exact iff_of_true rfl fun _ => hc
    · have hfailed : (executeTransaction C db tx).1.success = false :=
        Bool.eq_false_iff.mpr fun h => hc (success_iff.mp h).2
      rw [feePaid_of_failure hfailed]
      refine iff_of_false (fun hfee => ?_) fun h => hc (h hpaid)
      exact absurd (fee_pos_of_paid hpaid) (hfee ▸ lt_irrefl _)
  · have hfailed : (executeTransaction C db tx).1.success = false :=
      Bool.eq_false_iff.mpr fun h => hpaid (success_iff.mp h).1
    rw [feePaid_of_failure hfailed]
    exact iff_of_true rfl fun h => absurd h hpaid

theorem failed_instruction_hides_fee :
    let tx := transferTransaction [systemTransfer 2000000 1 true]
    (executeTransaction acceptingCrypto fundedPayer tx).1.feePaid = 0 ∧
      (executeTransaction acceptingCrypto fundedPayer tx).2.lamportsAt (Bytes32.splat 42) = 995000 ∧
      feeDebited acceptingCrypto fundedPayer tx = 5000 := by decide +kernel

end TrustNode.TxProcessor.Executor
