import TrustNode.ProgramExecutor.Effect
import TrustNode.TxProcessor.Transaction

namespace TrustNode.TxProcessor

open Exec
open TrustNode.Accounts
open TrustNode.ProgramExecutor (InstructionResult InstructionProcessor.processInstruction)

structure ExecutionContext where
  computeUnits : UInt64
  maxComputeUnits : UInt64
deriving DecidableEq

def ExecutionContext.new (maxCompute : UInt64) : ExecutionContext where
  computeUnits := 0
  maxComputeUnits := maxCompute

structure ExecutorState where
  db : AccountsDB
  ctx : ExecutionContext

abbrev Execution (α : Type) := Exec ExecutorState TransactionError α

namespace Executor

def consumeCompute (units : UInt64) : Execution Unit := fun s =>
  let total := s.ctx.computeUnits + units
  let t : ExecutorState := { s with ctx := { s.ctx with computeUnits := total } }
  if t.ctx.maxComputeUnits < total then (.error .computeBudgetExceeded, t) else (.ok (), t)

def executeFeePayment (tx : Transaction) : Execution Unit := do
  consumeCompute 150
  let loaded ← read fun s => s.db.load tx.signer
  let account ← okOr loaded (.insufficientLamports tx.fee 0)
  if account.lamports < tx.fee then fail (.insufficientLamports tx.fee account.lamports)
  else
    update fun s =>
      { s with db := s.db.store tx.signer { account with lamports := account.lamports - tx.fee } }

def signersMatch (tx : Transaction) (ix : Instruction) : Bool :=
  ix.accounts.all fun m => !m.isSigner || tx.resolve m.index == some tx.signer

def programInstruction (ix : Instruction) : ProgramExecutor.Instruction where
  programId := ix.programId
  accountMetas := ix.accounts.map fun m => ⟨m.index.toNat, m.isSigner, m.isWritable⟩
  data := ix.data

def processed (tx : Transaction) (ix : Instruction) (db : AccountsDB) :
    InstructionResult × AccountsDB :=
  InstructionProcessor.processInstruction db (programInstruction ix) tx.signer tx.accountKeys

def executeInstruction (tx : Transaction) (ix : Instruction) : Execution Unit :=
  if signersMatch tx ix then do
    let result ← modifyGet fun s =>
      ((processed tx ix s.db).1, { s with db := (processed tx ix s.db).2 })
    consumeCompute result.computeUnitsConsumed
    if result.success then pure ()
    else fail (.programError ((result.error.map (·.toString)).getD "program failed"))
  else fail .invalidSignature

def executeInstructions (tx : Transaction) : List Instruction → Execution Unit
  | [] => pure ()
  | ix :: rest => do
    executeInstruction tx ix
    executeInstructions tx rest

def mutableAccounts (tx : Transaction) : List Pubkey :=
  ((tx.signer :: tx.writeAccounts).insertionSort (· ≤ ·)).dedup

def snapshotTransaction (db : AccountsDB) (tx : Transaction) : List (Pubkey × Option Account) :=
  (mutableAccounts tx).map fun key => (key, db.load key)

def restore (db : AccountsDB) : Pubkey × Option Account → AccountsDB
  | (key, some account) => db.store key account
  | (key, none) => db.remove key

def rollbackTransaction (snapshot : List (Pubkey × Option Account)) (db : AccountsDB) :
    AccountsDB :=
  snapshot.foldl restore db

def executeTransaction (C : Crypto) (db : AccountsDB) (tx : Transaction) :
    TransactionResult × AccountsDB :=
  let ctx := ExecutionContext.new tx.computeBudget
  match tx.validate with
  | .error e => (.failure e 0, db)
  | .ok () =>
    if tx.verifySignature C then
      match executeFeePayment tx ⟨db, ctx⟩ with
      | (.error e, s) => (.failure e s.ctx.computeUnits, s.db)
      | (.ok (), s) =>
        let snapshot := snapshotTransaction s.db tx
        match executeInstructions tx tx.instructions s with
        | (.error e, t) => (.failure e t.ctx.computeUnits, rollbackTransaction snapshot t.db)
        | (.ok (), t) =>
          let u := (consumeCompute 150 t).2
          (.ofSuccess u.ctx.computeUnits tx.fee, u.db)
    else (.failure .invalidSignature ctx.computeUnits, db)

@[simp] theorem wp_consumeCompute (units : UInt64) {Q : Unit → ExecutorState → Prop}
    {E : TransactionError → ExecutorState → Prop} {s : ExecutorState} :
    wp (consumeCompute units) Q E s ↔
      (s.ctx.maxComputeUnits < s.ctx.computeUnits + units → E .computeBudgetExceeded
        { s with ctx := { s.ctx with computeUnits := s.ctx.computeUnits + units } }) ∧
      (¬s.ctx.maxComputeUnits < s.ctx.computeUnits + units → Q ()
        { s with ctx := { s.ctx with computeUnits := s.ctx.computeUnits + units } }) := by
  by_cases h : s.ctx.maxComputeUnits < s.ctx.computeUnits + units <;> simp [wp, consumeCompute, h]

def executeAll (C : Crypto) (db : AccountsDB) (txs : List Transaction) : AccountsDB :=
  txs.foldl (fun db tx => (executeTransaction C db tx).2) db

theorem mem_mutableAccounts {tx : Transaction} {k : Pubkey} :
    k ∈ mutableAccounts tx ↔ k = tx.signer ∨ k ∈ tx.writeAccounts := by
  rw [mutableAccounts, List.mem_dedup, List.mem_insertionSort, List.mem_cons]

theorem load_restore (db : AccountsDB) (k : Pubkey) (v : Option Account) (j : Pubkey) :
    (restore db (k, v)).load j = if j = k then v else db.load j := by
  cases v with
  | none => exact AccountsDB.load_remove db k j
  | some a => exact AccountsDB.load_store db k a j

theorem load_restore_all (before : AccountsDB) (keys : List Pubkey) (db : AccountsDB)
    (j : Pubkey) :
    (rollbackTransaction (keys.map fun k => (k, before.load k)) db).load j =
      if j ∈ keys then before.load j else db.load j := by
  induction keys generalizing db with
  | nil => simp [rollbackTransaction]
  | cons k ks ih =>
    have hstep := ih (restore db (k, before.load k))
    rw [load_restore] at hstep
    simp only [rollbackTransaction, List.map_cons, List.foldl_cons] at hstep ⊢
    rw [hstep]
    by_cases hj : j ∈ ks
    · simp [hj]
    · by_cases hk : j = k
      · subst hk
        simp
      · simp [hj, hk]

theorem load_rollback (before db : AccountsDB) (tx : Transaction) (j : Pubkey) :
    (rollbackTransaction (snapshotTransaction before tx) db).load j =
      if j ∈ mutableAccounts tx then before.load j else db.load j :=
  load_restore_all before (mutableAccounts tx) db j

section FeePhase

def charged (db : AccountsDB) (tx : Transaction) : AccountsDB :=
  match db.load tx.signer with
  | some a => db.store tx.signer { a with lamports := a.lamports - tx.fee }
  | none => db

def afterFee (db : AccountsDB) (tx : Transaction) : ExecutorState where
  db := charged db tx
  ctx := { computeUnits := 150, maxComputeUnits := tx.computeBudget }

def CanPay (db : AccountsDB) (tx : Transaction) : Prop :=
  150 ≤ tx.computeBudget ∧ ∃ a ∈ db.load tx.signer, tx.fee ≤ a.lamports

instance (db : AccountsDB) (tx : Transaction) : Decidable (CanPay db tx) :=
  inferInstanceAs (Decidable (_ ∧ _))

def FeePhasePassed (C : Crypto) (db : AccountsDB) (tx : Transaction) : Prop :=
  tx.validate = .ok () ∧ tx.verifySignature C = true ∧ CanPay db tx

instance (C : Crypto) (db : AccountsDB) (tx : Transaction) : Decidable (FeePhasePassed C db tx) :=
  inferInstanceAs (Decidable (_ ∧ _ ∧ _))

theorem load_charged {db : AccountsDB} {tx : Transaction} {a : Account}
    (h : db.load tx.signer = some a) (k : Pubkey) :
    (charged db tx).load k =
      if k = tx.signer then some { a with lamports := a.lamports - tx.fee } else db.load k := by
  simp only [charged, h]
  exact AccountsDB.load_store db tx.signer _ k

theorem executeFeePayment_spec (db : AccountsDB) (tx : Transaction) :
    wp (executeFeePayment tx) (fun _ t => CanPay db tx ∧ t = afterFee db tx)
      (fun _ t => ¬CanPay db tx ∧ t.db = db) ⟨db, .new tx.computeBudget⟩ := by
  simp only [executeFeePayment, wp_bind, wp_consumeCompute, wp_read, wp_okOr, wp_ite, wp_fail,
    wp_update, ExecutionContext.new, UInt64.zero_add]
  refine ⟨fun hlow => ⟨fun hpay => absurd hlow (UInt64.not_lt.mpr hpay.1), trivial⟩,
    fun hbudget => ?_⟩
  refine ⟨fun hnone => ⟨fun hpay => ?_, trivial⟩, fun a ha => ⟨fun hpoor => ⟨fun hpay => ?_, trivial⟩,
    fun hrich => ?_⟩⟩
  · obtain ⟨_, a, ha, _⟩ := hpay
    rw [hnone] at ha
    cases ha
  · obtain ⟨_, b, hb, hfee⟩ := hpay
    rw [ha] at hb
    obtain rfl := Option.some.inj hb
    exact absurd hpoor (UInt64.not_lt.mpr hfee)
  · refine ⟨⟨UInt64.not_lt.mp hbudget, a, ha, UInt64.not_lt.mp hrich⟩, ?_⟩
    simp only [afterFee, charged, ha]

end FeePhase

section Outcome

variable {C : Crypto} {db : AccountsDB} {tx : Transaction}

def loop (db : AccountsDB) (tx : Transaction) : Except TransactionError Unit × ExecutorState :=
  executeInstructions tx tx.instructions (afterFee db tx)

def Completes (db : AccountsDB) (tx : Transaction) : Prop := (loop db tx).1 = .ok ()

instance (db : AccountsDB) (tx : Transaction) : Decidable (Completes db tx) :=
  inferInstanceAs (Decidable (_ = _))

theorem executeTransaction_of_not_paid (h : ¬FeePhasePassed C db tx) :
    (executeTransaction C db tx).1.success = false ∧ (executeTransaction C db tx).2 = db := by
  cases hv : tx.validate with
  | error e => simp [executeTransaction, hv]
  | ok u =>
    by_cases hs : tx.verifySignature C = true
    · rcases hf : executeFeePayment tx ⟨db, .new tx.computeBudget⟩ with ⟨e | u, s⟩
      · have hdb := (wp_error (executeFeePayment_spec db tx) hf).2
        simp [executeTransaction, hv, hs, hf, hdb]
      · exact absurd ⟨hv, hs, (wp_ok (executeFeePayment_spec db tx) hf).1⟩ h
    · simp [executeTransaction, hv, hs]

theorem executeFeePayment_of_paid (h : FeePhasePassed C db tx) :
    executeFeePayment tx ⟨db, .new tx.computeBudget⟩ = (.ok (), afterFee db tx) := by
  rcases hf : executeFeePayment tx ⟨db, .new tx.computeBudget⟩ with ⟨e | u, s⟩
  · exact absurd h.2.2 (wp_error (executeFeePayment_spec db tx) hf).1
  · rw [(wp_ok (executeFeePayment_spec db tx) hf).2]

theorem executeTransaction_of_completes (h : FeePhasePassed C db tx) (hc : Completes db tx) :
    (executeTransaction C db tx).1.success = true ∧
      (executeTransaction C db tx).2 = (loop db tx).2.db := by
  have hf := executeFeePayment_of_paid h
  obtain ⟨hv, hs, _⟩ := h
  rcases hl : loop db tx with ⟨e | u, t⟩
  · simp [Completes, hl] at hc
  · rw [loop] at hl
    simp only [executeTransaction, hv, hs, hf, hl, if_true, consumeCompute]
    split <;> simp

theorem executeTransaction_of_fails (h : FeePhasePassed C db tx) (hc : ¬Completes db tx) :
    (executeTransaction C db tx).1.success = false ∧
      (executeTransaction C db tx).2 =
        rollbackTransaction (snapshotTransaction (charged db tx) tx) (loop db tx).2.db := by
  have hf := executeFeePayment_of_paid h
  obtain ⟨hv, hs, _⟩ := h
  rcases hl : loop db tx with ⟨e | u, t⟩
  · rw [loop] at hl
    simp only [executeTransaction, hv, hs, hf, hl, if_true]
    exact ⟨rfl, rfl⟩
  · simp [Completes, hl] at hc

end Outcome

end Executor

end TrustNode.TxProcessor
