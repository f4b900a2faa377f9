import TrustNode.Base.Trace
import TrustNode.ProgramExecutor.Footprint

namespace TrustNode.ProgramExecutor

open Exec
open TrustNode.Accounts

def accountsMemory : Memory AccountsDB Pubkey Account where
  get := AccountsDB.load
  set := fun db k v => match v with
    | some account => db.store k account
    | none => db.remove k
  get_set := fun db k v j => by
    cases v with
    | some account => exact AccountsDB.load_store db k account j
    | none => exact AccountsDB.load_remove db k j
  ext := fun _ _ => AccountsDB.ext_load

def ProgramState.parts : ProgramState ≃ (ComputeBudget × List String) × AccountsDB where
  toFun := fun s => ((s.budget, s.logs), s.accounts)
  invFun := fun p => ⟨p.2, p.1.1, p.1.2⟩
  left_inv := fun _ => rfl
  right_inv := fun _ => rfl

abbrev ProgramTrace (held : Pubkey → Bool → Prop) {α : Type} (p : Program α) : Type :=
  Traced accountsMemory held ProgramState.parts p

abbrev Reads (held : Pubkey → Bool → Prop) (metas : List AccountMeta) (keys : List Pubkey) : Prop :=
  Covers {k | ∃ b, held k b} metas keys

def Writes (held : Pubkey → Bool → Prop) (metas : List AccountMeta) (keys : List Pubkey)
    (i : ℕ) : Prop :=
  ∀ k, (metas[i]?.bind fun m => keys[m.index]?) = some k → held k true

section Primitives

variable {held : Pubkey → Bool → Prop}

def traceConsume (units : UInt64) : ProgramTrace held (consume units) :=
  .ofLocal
    (fun x =>
      let budget := { x.1 with consumed := x.1.consumed + units }
      if budget.max < budget.consumed then (.error .insufficientComputeUnits, (budget, x.2))
      else (.ok (), (budget, x.2)))
    fun x db => by
      by_cases h : x.1.max < x.1.consumed + units <;>
        simp [consume, ProgramState.parts, h]

def traceLoad {key : Pubkey} (h : ∃ b, held key b) : ProgramTrace held (load key) :=
  .ofTrace (.load h) fun _ _ => rfl

def traceExists {key : Pubkey} (h : ∃ b, held key b) : ProgramTrace held (accountExists key) :=
  .ofTrace ((Trace.load h).bind fun account => .done account.isSome) fun _ _ => rfl

def traceStore {key : Pubkey} (h : held key true) (account : Account) :
    ProgramTrace held (store key account) :=
  .ofTrace (.write h (some account)) fun _ _ => rfl

def traceLog (msg : String) : ProgramTrace held (log msg) :=
  .ofLocal (fun x => (.ok (), (x.1, x.2 ++ [msg]))) fun _ _ => rfl

end Primitives

section Handlers

variable {held : Pubkey → Bool → Prop} {metas : List AccountMeta} {signer : Pubkey}
  {keys : List Pubkey}

theorem held_of_requireSigner (hs : held signer true) {m : AccountMeta} {k : Pubkey}
    (hk : requireSigner m signer keys = .ok k) : held k true :=
  (requireSigner_eq_ok.mp hk).2 ▸ hs

theorem Writes.resolve {i : ℕ} (h : Writes held metas keys i) {m : AccountMeta}
    (hm : metas[i]? = some m) {k : Pubkey} (hk : resolveAccountKey m.index keys = .ok k) :
    held k true :=
  h k (by rw [hm, Option.bind_some, resolveAccountKey_eq_ok.mp hk])

namespace SystemProgram

def traceTransfer (hs : held signer true) (hr : Reads held metas keys)
    (h1 : Writes held metas keys 1) (lamports : UInt64) :
    ProgramTrace held (processTransfer lamports metas signer keys) :=
  .bind (traceConsume 150) fun _ =>
    match metas, hr, h1 with
    | [], _, _ => .fail _
    | [_], _, _ => .fail _
    | _ :: toMeta :: _, hr, h1 =>
      .ofExceptBind fun _ hfrom =>
        .bind (traceLoad ⟨true, held_of_requireSigner hs hfrom⟩) fun _ => .okOrBind fun _ _ =>
          .ite (fun _ => .fail _) fun _ => .ofExceptBind fun _ hto =>
            .bind (traceLoad (hr.resolve (m := toMeta) (by simp) hto)) fun _ => .okOrBind fun _ _ =>
              .bind (traceStore (held_of_requireSigner hs hfrom) _) fun _ =>
                .bind (traceStore (h1.resolve rfl hto) _) fun _ => traceLog _

def traceCreateAccount (hs : held signer true) (hr : Reads held metas keys)
    (h1 : Writes held metas keys 1) (lamports space : UInt64) (owner : Pubkey) :
    ProgramTrace held (processCreateAccount lamports space owner metas signer keys) :=
  .bind (traceConsume 200) fun _ =>
    match metas, hr, h1 with
    | [], _, _ => .fail _
    | [_], _, _ => .fail _
    | _ :: newMeta :: _, hr, h1 =>
      .ofExceptBind fun _ hpayer => .ofExceptBind fun _ hkey => .ite (fun _ => .fail _) fun _ =>
        .bind (traceExists (hr.resolve (m := newMeta) (by simp) hkey)) fun _ =>
          .ite (fun _ => .fail _) fun _ =>
            .bind (traceLoad ⟨true, held_of_requireSigner hs hpayer⟩) fun _ => .okOrBind fun _ _ =>
              .okOrBind fun _ _ => .ite (fun _ => .fail _) fun _ =>
                .bind (traceStore (held_of_requireSigner hs hpayer) _) fun _ =>
                  .bind (traceStore (h1.resolve rfl hkey) _) fun _ => traceLog _

def traceAssign (hs : held signer true) (owner : Pubkey) :
    ProgramTrace held (processAssign owner metas signer keys) :=
  .bind (traceConsume 100) fun _ =>
    match metas with
    | [] => .fail _
    | _ :: _ =>
      .ofExceptBind fun _ hkey =>
        .bind (traceLoad ⟨true, held_of_requireSigner hs hkey⟩) fun _ => .okOrBind fun _ _ =>
          .ite (fun _ => .fail _) fun _ =>
            .bind (traceStore (held_of_requireSigner hs hkey) _) fun _ => traceLog _

end SystemProgram

namespace TokenProgram

def traceLoadOwned {key : Pubkey} (h : ∃ b, held key b) : ProgramTrace held (loadOwned key) :=
  .bind (traceLoad h) fun _ => .okOrBind fun _ _ => .ite (fun _ => .fail _) fun _ => .pure _

def traceInitializeMint (hs : held signer true) :
    ProgramTrace held (processInitializeMint metas signer keys) :=
  .bind (traceConsume 300) fun _ => .okOrBind fun _ _ => .ofExceptBind fun _ _ =>
    .ite (fun _ => .fail _) fun hkey =>
      have hmint := (not_not.mp hkey).symm ▸ hs
      .bind (traceExists ⟨true, hmint⟩) fun _ => .ite (fun _ => .fail _) fun _ =>
        .bind (traceStore hmint _) fun _ => traceLog _

def traceInitializeAccount (hr : Reads held metas keys) (h1 : Writes held metas keys 1)
    (mint : Pubkey) : ProgramTrace held (processInitializeAccount mint metas signer keys) :=
  .bind (traceConsume 300) fun _ =>
    match metas, hr, h1 with
    | [], _, _ => .fail _
    | [_], _, _ => .fail _
    | [_, _], _, _ => .fail _
    | mintMeta :: newMeta :: _ :: _, hr, h1 =>
      .ofExceptBind fun _ hmint => .ofExceptBind fun _ hkey => .ofExceptBind fun _ _ =>
        .ite (fun _ => .fail _) fun _ => .ite (fun _ => .fail _) fun _ =>
          .bind (traceLoadOwned (hr.resolve (m := mintMeta) (by simp) hmint)) fun _ =>
            .ite (fun _ => .fail _) fun _ =>
              .bind (traceExists (hr.resolve (m := newMeta) (by simp) hkey)) fun _ =>
                .ite (fun _ => .fail _) fun _ =>
                  .bind (traceStore (h1.resolve rfl hkey) _) fun _ => traceLog _

def traceTokenTransfer (hr : Reads held metas keys) (h0 : Writes held metas keys 0)
    (h1 : Writes held metas keys 1) (amount : UInt64) :
    ProgramTrace held (processTokenTransfer amount metas signer keys) :=
  .bind (traceConsume 200) fun _ =>
    match metas, hr, h0, h1 with
    | [], _, _, _ => .fail _
    | [_], _, _, _ => .fail _
    | fromMeta :: toMeta :: _, hr, h0, h1 =>
      .ofExceptBind fun _ hfrom => .ofExceptBind fun _ hto => .ite (fun _ => .fail _) fun _ =>
        .bind (traceLoadOwned (hr.resolve (m := fromMeta) (by simp) hfrom)) fun _ =>
          .bind (traceLoadOwned (hr.resolve (m := toMeta) (by simp) hto)) fun _ =>
            .okOrBind fun _ _ => .ite (fun _ => .fail _) fun _ => .okOrBind fun _ _ =>
              .ite (fun _ => .fail _) fun _ => .ite (fun _ => .fail _) fun _ =>
                .okOrBind fun _ _ => .okOrBind fun _ _ =>
                  .bind (traceStore (h0.resolve rfl hfrom) _) fun _ =>
                    .bind (traceStore (h1.resolve rfl hto) _) fun _ => traceLog _

def traceMintTo (hr : Reads held metas keys) (h0 : Writes held metas keys 0)
    (h1 : Writes held metas keys 1) (amount : UInt64) :
    ProgramTrace held (processMintTo amount metas signer keys) :=
  .bind (traceConsume 200) fun _ =>
    match metas, hr, h0, h1 with
    | [], _, _, _ => .fail _
    | [_], _, _, _ => .fail _
    | mintMeta :: destMeta :: _, hr, h0, h1 =>
      .ofExceptBind fun _ hmint => .ofExceptBind fun _ hdest =>
        .bind (traceLoadOwned (hr.resolve (m := mintMeta) (by simp) hmint)) fun _ =>
          .okOrBind fun _ _ => .ite (fun _ => .fail _) fun _ =>
            .bind (traceLoadOwned (hr.resolve (m := destMeta) (by simp) hdest)) fun _ =>
              .okOrBind fun _ _ => .ite (fun _ => .fail _) fun _ =>
                .okOrBind fun _ _ => .okOrBind fun _ _ =>
                  .bind (traceStore (h0.resolve rfl hmint) _) fun _ =>
                    .bind (traceStore (h1.resolve rfl hdest) _) fun _ => traceLog _

def traceBurn (hr : Reads held metas keys) (h0 : Writes held metas keys 0)
    (h1 : Writes held metas keys 1) (amount : UInt64) :
    ProgramTrace held (processBurn amount metas signer keys) :=
  .bind (traceConsume 200) fun _ =>
    match metas, hr, h0, h1 with
    | [], _, _, _ => .fail _
    | [_], _, _, _ => .fail _
    | mintMeta :: tokenMeta :: _, hr, h0, h1 =>
      .ofExceptBind fun _ hmint => .ofExceptBind fun _ htoken =>
        .bind (traceLoadOwned (hr.resolve (m := mintMeta) (by simp) hmint)) fun _ =>
          .okOrBind fun _ _ =>
            .bind (traceLoadOwned (hr.resolve (m := tokenMeta) (by simp) htoken)) fun _ =>
              .okOrBind fun _ _ => .ite (fun _ => .fail _) fun _ => .ite (fun _ => .fail _) fun _ =>
                .ite (fun _ => .fail _) fun _ => .ite (fun _ => .fail _) fun _ =>
                  .bind (traceStore (h0.resolve rfl hmint) _) fun _ =>
                    .bind (traceStore (h1.resolve rfl htoken) _) fun _ => traceLog _

end TokenProgram

end Handlers

structure Permits (held : Pubkey → Bool → Prop) (ix : Instruction) (signer : Pubkey)
    (keys : List Pubkey) : Prop where
  payer : held signer true
  reads : Reads held ix.accountMetas keys
  program : ix.programId = systemProgramId ∨ ix.programId = tokenProgramId ∨
    ∃ b, held ix.programId b
  targets : ∀ k ∈ targets ix signer keys, held k true

namespace Permits

variable {held : Pubkey → Bool → Prop} {ix : Instruction} {signer : Pubkey} {keys : List Pubkey}

theorem transfer (h : Permits held ix signer keys) (hp : ix.programId = systemProgramId)
    {lamports : UInt64} (hop : SystemInstruction.fromData ix.data = .ok (.transfer lamports)) :
    Writes held ix.accountMetas keys 1 := by
  intro k hk
  refine h.targets k (List.mem_append_left _ ?_)
  have : ix.systemOp = some (.transfer lamports) := by
    rw [Instruction.systemOp, if_pos hp, hop]
    rfl
  rw [this]
  exact List.mem_cons_of_mem _ (Option.mem_toList.mpr hk)

theorem createAccount (h : Permits held ix signer keys) (hp : ix.programId = systemProgramId)
    {lamports space : UInt64} {owner : Pubkey}
    (hop : SystemInstruction.fromData ix.data = .ok (.createAccount lamports space owner)) :
    Writes held ix.accountMetas keys 1 := by
  intro k hk
  refine h.targets k (List.mem_append_left _ ?_)
  have : ix.systemOp = some (.createAccount lamports space owner) := by
    rw [Instruction.systemOp, if_pos hp, hop]
    rfl
  rw [this]
  exact List.mem_cons_of_mem _ (Option.mem_toList.mpr hk)

theorem tokenOp_eq (hp : ix.programId = tokenProgramId) {op : TokenInstruction}
    (hop : TokenInstruction.fromData ix.data = .ok op) : ix.tokenOp = some op := by
  rw [Instruction.tokenOp, if_pos hp, hop]
  rfl

theorem initializeAccount (h : Permits held ix signer keys) (hp : ix.programId = tokenProgramId)
    {mint : Pubkey} (hop : TokenInstruction.fromData ix.data = .ok (.initializeAccount mint)) :
    Writes held ix.accountMetas keys 1 := by
  intro k hk
  refine h.targets k (List.mem_append_right _ ?_)
  rw [tokenOp_eq hp hop]
  exact Option.mem_toList.mpr hk

theorem moved (h : Permits held ix signer keys) (hp : ix.programId = tokenProgramId)
    {op : TokenInstruction} (hop : TokenInstruction.fromData ix.data = .ok op)
    (hmint : op ≠ .initializeMint) (haccount : ∀ mint, op ≠ .initializeAccount mint) :
    Writes held ix.accountMetas keys 0 ∧ Writes held ix.accountMetas keys 1 := by
  have htargets : ∀ k ∈ (keyAt ix keys 0).toList ++ (keyAt ix keys 1).toList, held k true := by
    intro k hk
    refine h.targets k (List.mem_append_right _ ?_)
    rw [tokenOp_eq hp hop]
    cases op with
    | initializeMint => exact absurd rfl hmint
    | initializeAccount mint => exact absurd rfl (haccount mint)
    | transfer amount => exact hk
    | mintTo amount => exact hk
    | burn amount => exact hk
  exact ⟨fun k hk => htargets k (List.mem_append_left _ (Option.mem_toList.mpr hk)),
    fun k hk => htargets k (List.mem_append_right _ (Option.mem_toList.mpr hk))⟩

end Permits

section Instructions

variable {held : Pubkey → Bool → Prop} {ix : Instruction} {signer : Pubkey} {keys : List Pubkey}

def SystemProgram.traceInstruction (h : Permits held ix signer keys)
    (hp : ix.programId = systemProgramId) :
    ProgramTrace held (SystemProgram.processInstruction ix.data ix.accountMetas signer keys) :=
  .ofExceptBind fun op hop =>
    match op, hop with
    | .transfer lamports, hop => traceTransfer h.payer h.reads (h.transfer hp hop) lamports
    | .createAccount lamports space owner, hop =>
      traceCreateAccount h.payer h.reads (h.createAccount hp hop) lamports space owner
    | .assign owner, _ => traceAssign h.payer owner
    | .nonceInitialize, _ => .bind (traceLog _) fun _ => .fail _

def TokenProgram.traceInstruction (h : Permits held ix signer keys)
    (hp : ix.programId = tokenProgramId) :
    ProgramTrace held (TokenProgram.processInstruction ix.data ix.accountMetas signer keys) :=
  .ofExceptBind fun op hop =>
    match op, hop with
    | .initializeMint, _ => traceInitializeMint h.payer
    | .initializeAccount mint, hop => traceInitializeAccount h.reads (h.initializeAccount hp hop) mint
    | .transfer amount, hop =>
      have hmoved := h.moved hp hop (by simp) (by simp)
      traceTokenTransfer h.reads hmoved.1 hmoved.2 amount
    | .mintTo amount, hop =>
      have hmoved := h.moved hp hop (by simp) (by simp)
      traceMintTo h.reads hmoved.1 hmoved.2 amount
    | .burn amount, hop =>
      have hmoved := h.moved hp hop (by simp) (by simp)
      traceBurn h.reads hmoved.1 hmoved.2 amount

namespace InstructionProcessor

def verdict : Except InstructionError Unit × ComputeBudget × List String → InstructionResult
  | (.ok (), budget, logs) =>
    let units := budget.consumed
    .withLogs true units none (logs ++ [s!"Program success ({units} compute units)"])
  | (.error e, budget, logs) =>
    .withLogs false budget.consumed (some e) (logs ++ ["Program failed: " ++ e.toString])

theorem finish_eq (r : Except InstructionError Unit) (s : ProgramState) :
    finish (r, s) = (verdict (r, s.budget, s.logs), s.accounts) := by
  cases r <;> rfl

def afterConsume (body : Program Unit) :
    Except InstructionError Unit × ComputeBudget × List String → AccountsDB →
      InstructionResult × AccountsDB
  | (.error e, x), db => (.withLogs false x.1.consumed (some e) x.2, db)
  | (.ok (), x), db =>
    (verdict (split ProgramState.parts body x db).1, (split ProgramState.parts body x db).2)

def traceAfterConsume {body : Program Unit} (t : ProgramTrace held body) :
    ∀ r, Trace accountsMemory held (afterConsume body r)
  | (.error e, x) => .done (InstructionResult.withLogs false x.1.consumed (some e) x.2)
  | (.ok (), x) => (t x).bind fun r => .done (verdict r)

theorem dispatch_eq (units : UInt64) (body : Program Unit) (x : ComputeBudget × List String)
    (db : AccountsDB) :
    afterConsume body (split ProgramState.parts (consume units) x db).1
        (split ProgramState.parts (consume units) x db).2 =
      dispatch units body ⟨db, x.1, x.2⟩ := by
  unfold dispatch split
  rw [show ProgramState.parts.symm (x, db) = ⟨db, x.1, x.2⟩ from rfl]
  generalize consume units ⟨db, x.1, x.2⟩ = out
  obtain ⟨e | u, s⟩ := out
  · rfl
  · exact (finish_eq _ _).symm

def traceDispatch (units : UInt64) {body : Program Unit} (t : ProgramTrace held body)
    (x : ComputeBudget × List String) :
    Trace accountsMemory held fun db => dispatch units body ⟨db, x.1, x.2⟩ :=
  ((traceConsume units x).bind (traceAfterConsume t)).congr (dispatch_eq units body x)

def foreign (ix : Instruction) (program : Option Account) (db : AccountsDB) :
    InstructionResult × AccountsDB :=
  match program with
  | some account =>
    if account.executable then
      dispatch 500 (fail (.programError "program is deployed but no SBF runtime is linked"))
        (start db ix)
    else finish (.error .invalidAccountOwner, start db ix)
  | none => finish (.error .accountNotFound, start db ix)

def opening (ix : Instruction) : ComputeBudget × List String :=
  (.new defaultComputeUnits, ["Program " ++ ix.programId.hex 4])

theorem start_eq (ix : Instruction) (db : AccountsDB) :
    start db ix = ⟨db, (opening ix).1, (opening ix).2⟩ := rfl

def traceRejected (ix : Instruction) (e : InstructionError) :
    Trace accountsMemory held fun db => finish (.error e, start db ix) :=
  (Trace.done (verdict (.error e, opening ix))).congr fun _ => rfl

theorem foreign_executable (ix : Instruction) {account : Account} (h : account.executable = true)
    (db : AccountsDB) :
    dispatch 500 (fail (.programError "program is deployed but no SBF runtime is linked"))
        ⟨db, (opening ix).1, (opening ix).2⟩ = foreign ix (some account) db := by
  rw [foreign, if_pos h, start_eq]

theorem foreign_plain (ix : Instruction) {account : Account} (h : ¬account.executable = true)
    (db : AccountsDB) :
    finish (.error .invalidAccountOwner, start db ix) = foreign ix (some account) db := by
  rw [foreign, if_neg h]

def traceForeign (ix : Instruction) : ∀ program, Trace accountsMemory held (foreign ix program)
  | some account =>
    if h : account.executable = true then
      (traceDispatch 500 (.fail _) (opening ix)).congr (foreign_executable ix h)
    else (traceRejected ix .invalidAccountOwner).congr (foreign_plain ix h)
  | none => traceRejected ix .accountNotFound

def traceInstruction (h : Permits held ix signer keys) :
    Trace accountsMemory held fun db => processInstruction db ix signer keys :=
  if hs : ix.programId = systemProgramId then
    (traceDispatch 150 (SystemProgram.traceInstruction h hs) (opening ix)).congr
      fun _ => (if_pos hs).symm
  else if ht : ix.programId = tokenProgramId then
    (traceDispatch 150 (TokenProgram.traceInstruction h ht) (opening ix)).congr
      fun _ => ((if_neg hs).trans (if_pos ht)).symm
  else
    ((Trace.load ((h.program.resolve_left hs).resolve_left ht)).bind (traceForeign ix)).congr
      fun _ => ((if_neg hs).trans (if_neg ht)).symm

end InstructionProcessor

end Instructions

end TrustNode.ProgramExecutor
