import TrustNode.ProgramExecutor.Writes
import TrustNode.TxProcessor.Steps

namespace TrustNode.TxProcessor.Executor

open TrustNode.Accounts

section Transactions

variable (tx : Transaction)

def instructionWrites : AccountsDB → List Instruction → List Update
  | _, [] => []
  | db, ix :: rest =>
    let first := ProgramExecutor.writes (programInstruction ix) tx.signer tx.accountKeys db
    first ++ instructionWrites (applyUpdates db first) rest

def feeWrites (db : AccountsDB) : List Update :=
  ((db.load tx.signer).map fun account =>
    Update.store tx.signer { account with lamports := account.lamports - tx.fee }).toList

def restoreWrite : Pubkey × Option Account → Update
  | (key, some account) => .store key account
  | (key, none) => .remove key

def rollbackWrites (db : AccountsDB) : List Update :=
  (snapshotTransaction (charged db tx) tx).map restoreWrite

def transactionWrites (C : Crypto) (db : AccountsDB) : List Update :=
  if FeePhasePassed C db tx then
    feeWrites tx db ++ instructionWrites tx (charged db tx) (appliedInstructions db tx) ++
      if Completes db tx then [] else rollbackWrites tx db
  else []

end Transactions

def executionWrites (C : Crypto) : AccountsDB → List Transaction → List Update
  | _, [] => []
  | db, tx :: rest =>
    transactionWrites tx C db ++ executionWrites C (executeTransaction C db tx).2 rest

section Replayed

variable {tx : Transaction} {db db' : AccountsDB}

theorem Steps.applyUpdates_writes {ixs : List Instruction} (h : Steps tx db ixs db') :
    applyUpdates db (instructionWrites tx db ixs) = db' := by
  induction h with
  | nil db => rfl
  | cons hstep hrest ih =>
    rw [instructionWrites, applyUpdates_append, hstep.applyUpdates_writes, ih]

theorem applyUpdates_feeWrites (tx : Transaction) (db : AccountsDB) :
    applyUpdates db (feeWrites tx db) = charged db tx := by
  rw [feeWrites, charged]
  cases db.load tx.signer with
  | none => rfl
  | some account => rfl

theorem applyUpdates_restoreWrites (snapshot : List (Pubkey × Option Account)) (db : AccountsDB) :
    applyUpdates db (snapshot.map restoreWrite) = rollbackTransaction snapshot db := by
  induction snapshot generalizing db with
  | nil => rfl
  | cons entry rest ih =>
    rw [rollbackTransaction, List.foldl_cons, ← rollbackTransaction, ← ih]
    obtain ⟨key, account⟩ := entry
    cases account with
    | none => rfl
    | some account => rfl

theorem applyUpdates_transactionWrites (C : Crypto) (tx : Transaction) (db : AccountsDB) :
    applyUpdates db (transactionWrites tx C db) = (executeTransaction C db tx).2 := by
  rw [transactionWrites]
  split_ifs with hpaid hcompletes
  · rw [List.append_nil, applyUpdates_append, applyUpdates_feeWrites,
      (loop_steps db tx).applyUpdates_writes, (executeTransaction_of_completes hpaid hcompletes).2]
  · rw [applyUpdates_append, applyUpdates_append, applyUpdates_feeWrites,
      (loop_steps db tx).applyUpdates_writes, rollbackWrites, applyUpdates_restoreWrites,
      (executeTransaction_of_fails hpaid hcompletes).2]
  · exact (executeTransaction_of_not_paid hpaid).2.symm

theorem applyUpdates_executionWrites (C : Crypto) (txs : List Transaction) (db : AccountsDB) :
    applyUpdates db (executionWrites C db txs) = executeAll C db txs := by
  induction txs generalizing db with
  | nil => rfl
  | cons tx rest ih =>
    rw [executionWrites, applyUpdates_append, applyUpdates_transactionWrites, ih]
    rfl

end Replayed

end TrustNode.TxProcessor.Executor
