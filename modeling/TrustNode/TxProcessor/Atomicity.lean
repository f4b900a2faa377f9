import TrustNode.TxProcessor.Supply

namespace TrustNode.TxProcessor.Executor

open TrustNode.Accounts

section Specification

variable (C : Crypto) (db : AccountsDB) (tx : Transaction)

def feeOnly (k : Pubkey) (a : Account) : Account :=
  if k = tx.signer ∧ FeePhasePassed C db tx then { a with lamports := a.lamports - tx.fee } else a

def Atomic : Prop :=
  (executeTransaction C db tx).1.success = false →
    ∀ k, (executeTransaction C db tx).2.load k = (db.load k).map (feeOnly C db tx k)

def LeftInPlace (k : Pubkey) : Prop :=
  if db.exists k then
    credits tx (appliedInstructions db tx) k = 0 ∧ deltas tx (appliedInstructions db tx) k = 0
  else ∀ ix ∈ appliedInstructions db tx, k ∉ targets tx ix

end Specification

variable {C : Crypto} {db : AccountsDB} {tx : Transaction}

theorem load_charged_eq_feeOnly (h : FeePhasePassed C db tx) (k : Pubkey) :
    (charged db tx).load k = (db.load k).map (feeOnly C db tx k) := by
  obtain ⟨a, ha, _⟩ := h.2.2.2
  rw [load_charged ha]
  by_cases hk : k = tx.signer
  · subst hk
    have ha' : db.load tx.signer = some a := ha
    simp [ha', feeOnly, h]
  · cases db.load k <;> simp [feeOnly, hk]

theorem load_charged_of_ne (h : FeePhasePassed C db tx) {k : Pubkey} (hk : k ≠ tx.signer) :
    (charged db tx).load k = db.load k := by
  obtain ⟨a, ha, _⟩ := h.2.2.2
  rw [load_charged ha, if_neg hk]

theorem loop_load_eq_iff (h : FeePhasePassed C db tx) {k : Pubkey} (hk : k ≠ tx.signer) :
    (loop db tx).2.db.load k = (charged db tx).load k ↔ LeftInPlace db tx k := by
  have hsteps := loop_steps db tx
  have hbefore := load_charged_of_ne h hk
  cases hl : db.load k with
  | none =>
    simp only [LeftInPlace, AccountsDB.exists_eq, hl, Option.isSome_none, Bool.false_eq_true,
      if_false]
    constructor
    · intro heq ix hix htarget
      obtain ⟨a, ha⟩ := hsteps.load_of_target hix htarget
      rw [heq, hbefore, hl] at ha
      cases ha
    · exact hsteps.load_of_not_target
  | some a =>
    obtain ⟨a', ha', hmoved⟩ := hsteps.moved (hbefore.trans hl)
    simp only [LeftInPlace, AccountsDB.exists_eq, hl, Option.isSome_some, if_true]
    rw [ha', hbefore, hl, Option.some.injEq]
    exact hmoved.eq_iff hk

theorem atomic_iff_of_fails (h : FeePhasePassed C db tx) (hc : ¬Completes db tx) :
    Atomic C db tx ↔ ∀ k ∉ mutableAccounts tx, LeftInPlace db tx k := by
  obtain ⟨hfail, hafter⟩ := executeTransaction_of_fails h hc
  simp only [Atomic, hfail, true_implies, hafter, load_rollback, ← load_charged_eq_feeOnly h]
  refine forall_congr' fun k => ?_
  by_cases hk : k ∈ mutableAccounts tx
  · simp [hk]
  · have hne : k ≠ tx.signer := fun he => hk (mem_mutableAccounts.mpr (.inl he))
    simpa [hk] using loop_load_eq_iff h hne

theorem executeTransaction_atomic (C : Crypto) (db : AccountsDB) (tx : Transaction) :
    Atomic C db tx ↔
      (FeePhasePassed C db tx → ¬Completes db tx →
        ∀ k ∉ mutableAccounts tx, LeftInPlace db tx k) := by
  by_cases h : FeePhasePassed C db tx
  · by_cases hc : Completes db tx
    · have hsuccess := (executeTransaction_of_completes h hc).1
      simp [Atomic, hsuccess, hc]
    · rw [atomic_iff_of_fails h hc]
      exact ⟨fun hk _ _ => hk, fun hk => hk h hc⟩
  · have hdb := (executeTransaction_of_not_paid h).2
    have hid : ∀ k, feeOnly C db tx k = id := fun k => by
      funext a
      simp [feeOnly, h]
    simp [Atomic, hdb, hid, h]

theorem failed_transfer_persists :
    ¬Atomic acceptingCrypto fundedPayer
      (transferTransaction [systemTransfer 1000 1 false, systemTransfer 2000000 1 false]) := by
  intro hatomic
  have hload := hatomic (by decide +kernel) (Bytes32.splat 7)
  revert hload
  decide +kernel

end TrustNode.TxProcessor.Executor
