import TrustNode.ProgramExecutor.Movement
import TrustNode.TxProcessor.Executor

namespace TrustNode.TxProcessor.Executor

open Exec
open TrustNode.Accounts
open TrustNode.ProgramExecutor (Applies Moved)

variable (tx : Transaction)

def runs (ix : Instruction) (db : AccountsDB) : Bool :=
  signersMatch tx ix && (processed tx ix db).1.success

def applied : List Instruction → ExecutorState → List Instruction
  | [], _ => []
  | ix :: rest, s =>
    if runs tx ix s.db then
      ix :: match executeInstruction tx ix s with
        | (.ok (), t) => applied rest t
        | (.error _, _) => []
    else []

inductive Steps : AccountsDB → List Instruction → AccountsDB → Prop
  | nil (db : AccountsDB) : Steps db [] db
  | cons {db db' db'' : AccountsDB} {ix : Instruction} {rest : List Instruction}
      (hstep : Applies (programInstruction ix) tx.signer tx.accountKeys db db')
      (hrest : Steps db' rest db'') : Steps db (ix :: rest) db''

variable {tx}

theorem executeInstruction_spec (tx : Transaction) (ix : Instruction) (s : ExecutorState) :
    wp (executeInstruction tx ix)
      (fun _ t => runs tx ix s.db = true ∧
        Applies (programInstruction ix) tx.signer tx.accountKeys s.db t.db)
      (fun _ t => (runs tx ix s.db = true ∧
        Applies (programInstruction ix) tx.signer tx.accountKeys s.db t.db) ∨
        (runs tx ix s.db = false ∧ t.db = s.db)) s := by
  by_cases hm : signersMatch tx ix = true
  · have hp := ProgramExecutor.InstructionProcessor.processInstruction_cases s.db
      (programInstruction ix) tx.signer tx.accountKeys
    change ((processed tx ix s.db).1.success = false ∧ (processed tx ix s.db).2 = s.db) ∨
      ((processed tx ix s.db).1.success = true ∧
        Applies (programInstruction ix) tx.signer tx.accountKeys s.db (processed tx ix s.db).2)
      at hp
    simp only [executeInstruction, wp_bind, wp_modifyGet, wp_consumeCompute, wp_ite,
      wp_pure, wp_fail, runs, hm, Bool.true_and]
    obtain ⟨hfail, hdb⟩ | ⟨hok, happ⟩ := hp
    · simp [hfail, hdb]
    · simp [hok, happ]
  · rw [executeInstruction, if_neg hm, wp_fail]
    simp [runs, hm]

theorem executeInstructions_steps (ixs : List Instruction) (s : ExecutorState) :
    Steps tx s.db (applied tx ixs s) (executeInstructions tx ixs s).2.db := by
  induction ixs generalizing s with
  | nil => exact .nil s.db
  | cons ix rest ih =>
    have hspec := executeInstruction_spec tx ix s
    change Steps tx s.db _ (Exec.bind (executeInstruction tx ix) _ s).2.db
    rcases he : executeInstruction tx ix s with ⟨e | u, t⟩
    · obtain ⟨hr, happ⟩ | ⟨hr, hdb⟩ := wp_error hspec he
      · simp only [applied, Exec.bind, he, hr, if_true]
        exact .cons happ (.nil t.db)
      · simp only [applied, Exec.bind, he, hr, hdb]
        exact .nil s.db
    · obtain ⟨hr, happ⟩ := wp_ok hspec he
      simp only [applied, Exec.bind, he, hr, if_true]
      exact .cons happ (ih t)

def appliedInstructions (db : AccountsDB) (tx : Transaction) : List Instruction :=
  applied tx tx.instructions (afterFee db tx)

theorem loop_steps (db : AccountsDB) (tx : Transaction) :
    Steps tx (charged db tx) (appliedInstructions db tx) (loop db tx).2.db :=
  executeInstructions_steps tx.instructions (afterFee db tx)

section Effects

variable (tx : Transaction) (ixs : List Instruction) (k : Pubkey)

def credit (ix : Instruction) : ℕ :=
  ProgramExecutor.credit (programInstruction ix) tx.accountKeys k

def delta (ix : Instruction) : ℤ :=
  ProgramExecutor.delta (programInstruction ix) tx.accountKeys k

def targets (ix : Instruction) : List Pubkey :=
  ProgramExecutor.targets (programInstruction ix) tx.signer tx.accountKeys

def credits : ℕ := (ixs.map (credit tx k)).sum

def deltas : ℤ := (ixs.map (delta tx k)).sum

end Effects

namespace Steps

variable {db db' : AccountsDB} {ixs : List Instruction} {k : Pubkey}

theorem moved (h : Steps tx db ixs db') {a : Account} (ha : db.load k = some a) :
    ∃ a', db'.load k = some a' ∧ Moved tx.signer k (credits tx ixs k) (deltas tx ixs k) a a' := by
  induction h generalizing a with
  | nil db => exact ⟨a, ha, .refl tx.signer k a⟩
  | cons hstep hrest ih =>
    obtain ⟨b, hb, hmove⟩ := hstep.moved ha
    obtain ⟨c, hc, hmoves⟩ := ih hb
    exact ⟨c, hc, hmove.trans hmoves⟩

theorem load_of_not_target (h : Steps tx db ixs db') (hk : ∀ ix ∈ ixs, k ∉ targets tx ix) :
    db'.load k = db.load k := by
  induction h with
  | nil db => rfl
  | cons hstep hrest ih =>
    rw [List.forall_mem_cons] at hk
    exact (ih hk.2).trans (hstep.load_of_not_target hk.1)

theorem load_of_target (h : Steps tx db ixs db') {ix : Instruction} (hix : ix ∈ ixs)
    (hk : k ∈ targets tx ix) : ∃ a, db'.load k = some a := by
  induction h with
  | nil db => cases hix
  | cons hstep hrest ih =>
    rcases List.mem_cons.mp hix with rfl | hix
    · obtain ⟨b, hb⟩ := hstep.load_of_target hk
      obtain ⟨c, hc, _⟩ := hrest.moved hb
      exact ⟨c, hc⟩
    · exact ih hix

theorem lamportsAt (h : Steps tx db ixs db') (hk : k ≠ tx.signer) :
    db'.lamportsAt k = db.lamportsAt k + credits tx ixs k := by
  induction h with
  | nil db => rfl
  | cons hstep hrest ih =>
    rw [ih, hstep.lamportsAt hk, add_assoc]
    rfl

theorem supply (h : Steps tx db ixs db') {a : Account} (ha : db.load tx.signer = some a) :
    db'.supply = db.supply + credits tx ixs tx.signer := by
  induction h generalizing a with
  | nil db => rfl
  | cons hstep hrest ih =>
    obtain ⟨b, hb, _⟩ := hstep.moved ha
    rw [ih hb, hstep.supply ha, add_assoc]
    rfl

end Steps

end TrustNode.TxProcessor.Executor
