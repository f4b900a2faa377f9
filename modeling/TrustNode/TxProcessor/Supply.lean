import TrustNode.Base.Sha256
import TrustNode.TxProcessor.Steps

namespace TrustNode.TxProcessor.Executor

open TrustNode.Accounts
open TrustNode.ProgramExecutor (SystemInstruction)

section Conservation

variable (C : Crypto) (db : AccountsDB) (tx : Transaction)

def feeCharged : ℕ := if FeePhasePassed C db tx then tx.fee.toNat else 0

def Conserves : Prop :=
  (executeTransaction C db tx).2.supply + feeCharged C db tx = db.supply

def CreditsCovered : Prop :=
  (Completes db tx → ∀ ix ∈ appliedInstructions db tx, credit tx tx.signer ix = 0) ∧
    (¬Completes db tx → ∀ k ∉ mutableAccounts tx, ∀ ix ∈ appliedInstructions db tx,
      credit tx k ix = 0)

def CreditsCoveredAlong : AccountsDB → List Transaction → Prop
  | _, [] => True
  | db, tx :: rest => (FeePhasePassed C db tx → CreditsCovered db tx) ∧
      CreditsCoveredAlong (executeTransaction C db tx).2 rest

end Conservation

variable {C : Crypto} {db : AccountsDB} {tx : Transaction}

theorem credits_eq_zero {ixs : List Instruction} {k : Pubkey} :
    credits tx ixs k = 0 ↔ ∀ ix ∈ ixs, credit tx k ix = 0 := by
  simp [credits, List.sum_eq_zero_iff]

theorem supply_charged (h : FeePhasePassed C db tx) :
    (charged db tx).supply + tx.fee.toNat = db.supply := by
  obtain ⟨_, _, _, a, ha, hfee⟩ := h
  have hstore := db.supply_store tx.signer { a with lamports := a.lamports - tx.fee }
  have hle := UInt64.le_iff_toNat_le.mp hfee
  rw [AccountsDB.lamportsAt_of_load ha] at hstore
  simp only [UInt64.toNat_sub_of_le _ _ hfee] at hstore
  rw [charged, ha]
  dsimp only
  omega

theorem load_charged_signer (h : FeePhasePassed C db tx) :
    ∃ a, (charged db tx).load tx.signer = some a := by
  obtain ⟨_, _, _, a, ha, _⟩ := h
  exact ⟨_, (load_charged ha tx.signer).trans (if_pos rfl)⟩

theorem supply_of_completes (h : FeePhasePassed C db tx) (hc : Completes db tx) :
    (executeTransaction C db tx).2.supply =
      (charged db tx).supply + credits tx (appliedInstructions db tx) tx.signer := by
  obtain ⟨a, ha⟩ := load_charged_signer h
  rw [(executeTransaction_of_completes h hc).2, (loop_steps db tx).supply ha]

theorem lamportsAt_of_fails (h : FeePhasePassed C db tx) (hc : ¬Completes db tx) (k : Pubkey) :
    (executeTransaction C db tx).2.lamportsAt k = (charged db tx).lamportsAt k +
      if k ∈ mutableAccounts tx then 0 else credits tx (appliedInstructions db tx) k := by
  rw [(executeTransaction_of_fails h hc).2]
  have hload := load_rollback (charged db tx) (loop db tx).2.db tx k
  by_cases hk : k ∈ mutableAccounts tx
  · rw [if_pos hk] at hload
    rw [AccountsDB.lamportsAt_congr hload, if_pos hk, add_zero]
  · rw [if_neg hk] at hload
    have hne : k ≠ tx.signer := fun he => hk (mem_mutableAccounts.mpr (.inl he))
    rw [AccountsDB.lamportsAt_congr hload, if_neg hk, (loop_steps db tx).lamportsAt hne]

theorem supply_eq_charged_iff (h : FeePhasePassed C db tx) (hc : ¬Completes db tx) :
    (charged db tx).supply = (executeTransaction C db tx).2.supply ↔
      ∀ k ∉ mutableAccounts tx, credits tx (appliedInstructions db tx) k = 0 := by
  have hcell := lamportsAt_of_fails h hc
  have hiff : (charged db tx).supply = (executeTransaction C db tx).2.supply ↔
      ∀ k, (charged db tx).lamportsAt k = (executeTransaction C db tx).2.lamportsAt k :=
    Table.total_eq_iff_of_le fun k => by
      change (charged db tx).lamportsAt k ≤ (executeTransaction C db tx).2.lamportsAt k
      rw [hcell k]
      exact Nat.le_add_right _ _
  rw [hiff]
  refine forall_congr' fun k => ?_
  rw [hcell k]
  by_cases hk : k ∈ mutableAccounts tx <;> simp [hk, eq_comm]

theorem conserves_iff_of_paid (h : FeePhasePassed C db tx) :
    Conserves C db tx ↔ CreditsCovered db tx := by
  have hfee := supply_charged h
  simp only [Conserves, feeCharged, if_pos h, CreditsCovered]
  by_cases hc : Completes db tx
  · have hsupply := supply_of_completes h hc
    simp only [hc, true_implies, not_true, false_implies, and_true, ← credits_eq_zero]
    omega
  · have hiff := supply_eq_charged_iff h hc
    simp only [hc, false_implies, not_false_eq_true, true_implies, true_and, ← credits_eq_zero,
      ← hiff]
    omega

theorem conserves_iff : Conserves C db tx ↔ (FeePhasePassed C db tx → CreditsCovered db tx) := by
  by_cases h : FeePhasePassed C db tx
  · rw [conserves_iff_of_paid h]
    exact ⟨fun hc _ => hc, fun hc => hc h⟩
  · have hdb := (executeTransaction_of_not_paid h).2
    simp [Conserves, feeCharged, h, hdb]

theorem executeAll_supply_le {txs : List Transaction} (h : CreditsCoveredAlong C db txs) :
    (executeAll C db txs).supply ≤ db.supply := by
  induction txs generalizing db with
  | nil => exact le_rfl
  | cons tx rest ih =>
    obtain ⟨hstep, hrest⟩ := h
    have hkept : Conserves C db tx := conserves_iff.mpr hstep
    calc (executeAll C db (tx :: rest)).supply
        = (executeAll C (executeTransaction C db tx).2 rest).supply := rfl
      _ ≤ (executeTransaction C db tx).2.supply := ih hrest
      _ ≤ db.supply := by
        rw [Conserves] at hkept
        omega

theorem executeTransaction_supply (C : Crypto) :
    (∀ db tx, Conserves C db tx ↔ (FeePhasePassed C db tx → CreditsCovered db tx)) ∧
      ∀ db txs, CreditsCoveredAlong C db txs → (executeAll C db txs).supply ≤ db.supply :=
  ⟨fun _ _ => conserves_iff, fun _ _ => executeAll_supply_le⟩

def systemTransfer (lamports : UInt64) (dest : UInt8) (writable : Bool) : Instruction where
  programId := systemProgramId
  accounts := [⟨0, true, true⟩, ⟨dest, false, writable⟩]
  data := SystemInstruction.toData (.transfer lamports)

def transferTransaction (instructions : List Instruction) : Transaction where
  signature := List.replicate 64 0
  signer := Bytes32.splat 42
  accountKeys := [Bytes32.splat 42, Bytes32.splat 7]
  instructions := instructions
  recentBlockhash := Bytes32.splat 0
  computeBudget := 200000
  fee := 5000

def fundedPayer : AccountsDB :=
  AccountsDB.new.store (Bytes32.splat 42) (Account.newSystemAccount (Bytes32.splat 42) 1000000)

theorem transfer_mints_lamports :
    ¬Conserves acceptingCrypto fundedPayer (transferTransaction [systemTransfer 1000 0 true]) ∧
      ¬Conserves acceptingCrypto fundedPayer
        (transferTransaction [systemTransfer 1000 1 false, systemTransfer 2000000 1 false]) := by
  refine ⟨?_, ?_⟩ <;> unfold Conserves <;> decide +kernel

end TrustNode.TxProcessor.Executor
