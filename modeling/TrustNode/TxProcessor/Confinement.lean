import TrustNode.TxProcessor.Atomicity

namespace TrustNode.TxProcessor.Executor

open Exec
open TrustNode.Accounts

section Specification

variable (C : Crypto) (db : AccountsDB) (tx : Transaction)

def Confined : Prop :=
  ∀ k, (executeTransaction C db tx).2.load k ≠ db.load k → k = tx.signer ∨ k ∈ tx.writeAccounts

def Untouched (k : Pubkey) : Prop :=
  if db.exists k then credits tx tx.instructions k = 0 ∧ deltas tx tx.instructions k = 0
  else ∀ ix ∈ tx.instructions, k ∉ targets tx ix

end Specification

variable {C : Crypto} {db : AccountsDB} {tx : Transaction}

theorem applied_of_ok {ixs : List Instruction} {s : ExecutorState}
    (h : (executeInstructions tx ixs s).1 = .ok ()) : applied tx ixs s = ixs := by
  induction ixs generalizing s with
  | nil => rfl
  | cons ix rest ih =>
    have hspec := executeInstruction_spec tx ix s
    change (Exec.bind (executeInstruction tx ix) (fun _ => executeInstructions tx rest) s).1 = _ at h
    rcases he : executeInstruction tx ix s with ⟨e | u, t⟩
    · simp only [Exec.bind, he] at h
      cases h
    · simp only [Exec.bind, he] at h
      simp only [applied, (wp_ok hspec he).1, if_true, he, ih h]

theorem appliedInstructions_of_completes (h : Completes db tx) :
    appliedInstructions db tx = tx.instructions := applied_of_ok h

theorem paid_and_completes_of_success (h : (executeTransaction C db tx).1.success = true) :
    FeePhasePassed C db tx ∧ Completes db tx := by
  by_contra hnot
  have hfail : (executeTransaction C db tx).1.success = false := by
    by_cases hpaid : FeePhasePassed C db tx
    · exact (executeTransaction_of_fails hpaid fun hc => hnot ⟨hpaid, hc⟩).1
    · exact (executeTransaction_of_not_paid hpaid).1
  rw [h] at hfail
  cases hfail

theorem load_success_eq_iff (hpaid : FeePhasePassed C db tx) (hc : Completes db tx) {k : Pubkey}
    (hk : k ≠ tx.signer) :
    (executeTransaction C db tx).2.load k = db.load k ↔ Untouched db tx k := by
  rw [(executeTransaction_of_completes hpaid hc).2, ← load_charged_of_ne hpaid hk,
    loop_load_eq_iff hpaid hk, LeftInPlace, appliedInstructions_of_completes hc, Untouched]

theorem write_set_confinement (h : (executeTransaction C db tx).1.success = true) :
    (Confined C db tx ↔ ∀ k, k ≠ tx.signer → k ∉ tx.writeAccounts → Untouched db tx k) ∧
      ((∀ ix ∈ tx.instructions, ∀ k ∈ targets tx ix, k ∈ tx.writeAccounts) →
        ∀ k ∉ tx.writeAccounts,
          (executeTransaction C db tx).2.load k = (charged db tx).load k) := by
  obtain ⟨hpaid, hc⟩ := paid_and_completes_of_success h
  constructor
  · constructor
    · intro hconfined k hsigner hwrite
      rw [← load_success_eq_iff hpaid hc hsigner]
      by_contra hchanged
      exact (hconfined k hchanged).elim hsigner hwrite
    · intro huntouched k hchanged
      by_contra hk
      obtain ⟨hsigner, hwrite⟩ := not_or.mp hk
      exact hchanged ((load_success_eq_iff hpaid hc hsigner).mpr (huntouched k hsigner hwrite))
  · intro hdeclared k hk
    rw [(executeTransaction_of_completes hpaid hc).2]
    refine (loop_steps db tx).load_of_not_target fun ix hix htarget => hk ?_
    rw [appliedInstructions_of_completes hc] at hix
    exact hdeclared ix hix k htarget

theorem writable_transfer_is_confined :
    Confined acceptingCrypto fundedPayer (transferTransaction [systemTransfer 1000 1 true]) := by
  have hdeclared : ∀ ix ∈ (transferTransaction [systemTransfer 1000 1 true]).instructions,
      ∀ k ∈ targets (transferTransaction [systemTransfer 1000 1 true]) ix,
        k ∈ (transferTransaction [systemTransfer 1000 1 true]).writeAccounts := by decide +kernel
  refine (write_set_confinement (by decide +kernel)).1.mpr fun k hsigner hwrite => ?_
  have habsent : fundedPayer.load k = none := AccountsDB.load_store_of_ne .new _ hsigner
  rw [Untouched, AccountsDB.exists_eq, habsent]
  exact fun ix hix htarget => hwrite (hdeclared ix hix k htarget)

theorem read_only_destination_is_credited :
    (executeTransaction acceptingCrypto fundedPayer
        (transferTransaction [systemTransfer 1000 1 false])).1.success = true ∧
      ¬Confined acceptingCrypto fundedPayer
        (transferTransaction [systemTransfer 1000 1 false]) := by
  refine ⟨by decide +kernel, fun hconfined => ?_⟩
  have hkey := hconfined (Bytes32.splat 7) (by decide +kernel)
  revert hkey
  decide +kernel

end TrustNode.TxProcessor.Executor
