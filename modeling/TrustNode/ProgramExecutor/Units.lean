import TrustNode.ProgramExecutor.Movement

namespace TrustNode.ProgramExecutor

open Exec
open TrustNode.Accounts

def SystemInstruction.units : SystemInstruction → UInt64
  | .transfer _ => 150
  | .createAccount _ _ _ => 200
  | .assign _ => 100
  | .nonceInitialize => 0

def TokenInstruction.units : TokenInstruction → UInt64
  | .initializeMint => 300
  | .initializeAccount _ => 300
  | .transfer _ => 200
  | .mintTo _ => 200
  | .burn _ => 200

def Instruction.units (ix : Instruction) : UInt64 :=
  150 + (ix.systemOp.elim 0 SystemInstruction.units + ix.tokenOp.elim 0 TokenInstruction.units)

def Spends (body : Program Unit) (units : UInt64) : Prop :=
  ∀ s, wp body (fun _ t => t.budget.consumed = s.budget.consumed + units) (fun _ _ => True) s

theorem spends_fail (units spent : UInt64) (e : InstructionError) (s : ProgramState) :
    wp (consume units >>= fun _ => (fail e : Program Unit))
      (fun _ t => t.budget.consumed = s.budget.consumed + spent) (fun _ _ => True) s := by
  simp only [wp_bind, wp_consume, wp_fail, implies_true, and_self]

section Handlers

variable (metas : List AccountMeta) (signer : Pubkey) (keys : List Pubkey)

namespace SystemProgram

theorem spends_processTransfer (lamports : UInt64) :
    Spends (processTransfer lamports metas signer keys) 150 := by
  intro s
  rcases metas with _ | ⟨fromMeta, _ | ⟨toMeta, rest⟩⟩
  · exact spends_fail _ _ _ s
  · exact spends_fail _ _ _ s
  · unfold processTransfer
    simp only [wp_bind, wp_consume, wp_ofExcept, wp_okOr, wp_ite, wp_load, wp_store, wp_log, wp_fail,
      implies_true, and_self]

theorem spends_processCreateAccount (lamports space : UInt64) (owner : Pubkey) :
    Spends (processCreateAccount lamports space owner metas signer keys) 200 := by
  intro s
  rcases metas with _ | ⟨payerMeta, _ | ⟨newMeta, rest⟩⟩
  · exact spends_fail _ _ _ s
  · exact spends_fail _ _ _ s
  · unfold processCreateAccount
    simp only [wp_bind, wp_consume, wp_ofExcept, wp_okOr, wp_ite, wp_load, wp_accountExists, wp_store,
      wp_log, wp_fail, implies_true, and_self]

theorem spends_processAssign (owner : Pubkey) :
    Spends (processAssign owner metas signer keys) 100 := by
  intro s
  rcases metas with _ | ⟨acct, rest⟩
  · exact spends_fail _ _ _ s
  · unfold processAssign
    simp only [wp_bind, wp_consume, wp_ofExcept, wp_okOr, wp_ite, wp_load, wp_store, wp_log, wp_fail,
      implies_true, and_self]

theorem spends_processInstruction {data : Bytes} {op : SystemInstruction}
    (h : SystemInstruction.fromData data = .ok op) :
    Spends (processInstruction data metas signer keys) op.units := by
  intro s
  simp only [processInstruction, h, wp_bind, wp_ofExcept, reduceCtorEq, implies_true,
    Except.ok.injEq, forall_eq', true_and]
  cases op with
  | transfer lamports => exact spends_processTransfer metas signer keys lamports s
  | createAccount lamports space owner =>
    exact spends_processCreateAccount metas signer keys lamports space owner s
  | assign owner => exact spends_processAssign metas signer keys owner s
  | nonceInitialize => simp

end SystemProgram

namespace TokenProgram

theorem spends_processInitializeMint : Spends (processInitializeMint metas signer keys) 300 := by
  intro s
  unfold processInitializeMint
  simp only [wp_bind, wp_consume, wp_ofExcept, wp_okOr, wp_ite, wp_accountExists, wp_store, wp_log,
    wp_fail, implies_true, and_self]

theorem spends_processInitializeAccount (mint : Pubkey) :
    Spends (processInitializeAccount mint metas signer keys) 300 := by
  intro s
  rcases metas with _ | ⟨mintMeta, _ | ⟨newMeta, _ | ⟨ownerMeta, rest⟩⟩⟩
  · exact spends_fail _ _ _ s
  · exact spends_fail _ _ _ s
  · exact spends_fail _ _ _ s
  · unfold processInitializeAccount
    simp only [wp_bind, wp_consume, wp_ofExcept, wp_ite, wp_loadOwned, wp_accountExists, wp_store,
      wp_log, wp_fail, implies_true, and_self]

theorem spends_processTokenTransfer (amount : UInt64) :
    Spends (processTokenTransfer amount metas signer keys) 200 := by
  intro s
  rcases metas with _ | ⟨fromMeta, _ | ⟨toMeta, rest⟩⟩
  · exact spends_fail _ _ _ s
  · exact spends_fail _ _ _ s
  · unfold processTokenTransfer
    simp only [wp_bind, wp_consume, wp_ofExcept, wp_okOr, wp_ite, wp_loadOwned, wp_store, wp_log,
      wp_fail, implies_true, and_self]

theorem spends_processMintTo (amount : UInt64) :
    Spends (processMintTo amount metas signer keys) 200 := by
  intro s
  rcases metas with _ | ⟨mintMeta, _ | ⟨destMeta, rest⟩⟩
  · exact spends_fail _ _ _ s
  · exact spends_fail _ _ _ s
  · unfold processMintTo
    simp only [wp_bind, wp_consume, wp_ofExcept, wp_okOr, wp_ite, wp_loadOwned, wp_store, wp_log,
      wp_fail, implies_true, and_self]

theorem spends_processBurn (amount : UInt64) :
    Spends (processBurn amount metas signer keys) 200 := by
  intro s
  rcases metas with _ | ⟨mintMeta, _ | ⟨tokenMeta, rest⟩⟩
  · exact spends_fail _ _ _ s
  · exact spends_fail _ _ _ s
  · unfold processBurn
    simp only [wp_bind, wp_consume, wp_ofExcept, wp_okOr, wp_ite, wp_loadOwned, wp_store, wp_log,
      wp_fail, implies_true, and_self]

theorem spends_processInstruction {data : Bytes} {op : TokenInstruction}
    (h : TokenInstruction.fromData data = .ok op) :
    Spends (processInstruction data metas signer keys) op.units := by
  intro s
  simp only [processInstruction, h, wp_bind, wp_ofExcept, reduceCtorEq, implies_true,
    Except.ok.injEq, forall_eq', true_and]
  cases op with
  | initializeMint => exact spends_processInitializeMint metas signer keys s
  | initializeAccount mint => exact spends_processInitializeAccount metas signer keys mint s
  | transfer amount => exact spends_processTokenTransfer metas signer keys amount s
  | mintTo amount => exact spends_processMintTo metas signer keys amount s
  | burn amount => exact spends_processBurn metas signer keys amount s

end TokenProgram

end Handlers

namespace InstructionProcessor

theorem dispatch_units {units spent : UInt64} {body : Program Unit} {s : ProgramState}
    (hspends : Spends body spent) (hstart : s.budget.consumed = 0)
    (h : (dispatch units body s).1.success = true) :
    (dispatch units body s).1.computeUnitsConsumed = units + spent := by
  have hconsume : wp (consume units) (fun _ t => t.budget.consumed = units) (fun _ _ => True) s := by
    simp [hstart]
  unfold dispatch at h ⊢
  rcases hc : consume units s with ⟨e | u, t⟩
  · rw [hc] at h
    cases h
  · have ht := wp_ok hconsume hc
    rw [hc] at h
    dsimp only at h ⊢
    rcases hb : body t with ⟨e | u, t'⟩
    · rw [hb] at h
      cases h
    · have hbody := wp_ok (hspends t) hb
      rw [ht] at hbody
      exact hbody

theorem processInstruction_system (db : AccountsDB) {ix : Instruction} (signer : Pubkey)
    (keys : List Pubkey) (hprog : ix.programId = systemProgramId) :
    processInstruction db ix signer keys =
      dispatch 150 (SystemProgram.processInstruction ix.data ix.accountMetas signer keys)
        (start db ix) := if_pos hprog

theorem processInstruction_token (db : AccountsDB) {ix : Instruction} (signer : Pubkey)
    (keys : List Pubkey) (hprog : ix.programId = tokenProgramId) :
    processInstruction db ix signer keys =
      dispatch 150 (TokenProgram.processInstruction ix.data ix.accountMetas signer keys)
        (start db ix) := by
  have hother : ix.programId ≠ Bytes32.splat 1 := by
    rw [hprog]
    decide
  exact (if_neg hother).trans (if_pos hprog)

theorem processInstruction_units {db : AccountsDB} {ix : Instruction} {signer : Pubkey}
    {keys : List Pubkey} (h : (processInstruction db ix signer keys).1.success = true) :
    (processInstruction db ix signer keys).1.computeUnitsConsumed = ix.units := by
  obtain ⟨hfail, -⟩ | ⟨-, happlies⟩ := processInstruction_cases db ix signer keys
  · rw [hfail] at h
    cases h
  · cases happlies with
    | @system op hprog hop _ =>
      obtain ⟨hs, ht⟩ := systemOp_of_system hprog hop
      rw [processInstruction_system db signer keys hprog] at h ⊢
      rw [dispatch_units (SystemProgram.spends_processInstruction _ _ _ hop) rfl h, Instruction.units,
        hs, ht]
      exact congrArg (150 + ·) (UInt64.add_zero _).symm
    | @token op hprog hop _ =>
      obtain ⟨hs, ht⟩ := tokenOp_of_token hprog hop
      rw [processInstruction_token db signer keys hprog] at h ⊢
      rw [dispatch_units (TokenProgram.spends_processInstruction _ _ _ hop) rfl h, Instruction.units,
        hs, ht]
      exact congrArg (150 + ·) (UInt64.zero_add _).symm

end InstructionProcessor

end TrustNode.ProgramExecutor
