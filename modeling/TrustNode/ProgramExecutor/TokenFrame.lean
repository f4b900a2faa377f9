import TrustNode.ProgramExecutor.Movement

namespace TrustNode.ProgramExecutor

open Exec
open TrustNode.Accounts
open InstructionProcessor (processInstruction processInstruction_cases)

theorem rent_eq_zero_iff {op : TokenInstruction} : rent op = 0 ↔ op ≠ .initializeMint := by
  cases op with
  | initializeMint => decide
  | _ => simp [rent]

namespace Applies

variable {ix : Instruction} {signer : Pubkey} {keys : List Pubkey} {db db' : AccountsDB}

theorem lamports_of_stores {first second k : Pubkey} {x y x' y' a : Account}
    (hx : db.load first = some x) (hy : db.load second = some y) (hfirst : x'.lamports = x.lamports)
    (hsecond : y'.lamports = y.lamports) (ha : db.load k = some a) :
    ∃ a', ((db.store first x').store second y').load k = some a' ∧ a'.lamports = a.lamports := by
  refine AccountsDB.exists_load_store_store ha ?_ ?_ fun _ _ => rfl
  · rintro rfl
    obtain rfl := Option.some.inj (hy.symm.trans ha)
    exact hsecond
  · rintro - rfl
    obtain rfl := Option.some.inj (hx.symm.trans ha)
    exact hfirst

theorem lamports_of_create {key k : Pubkey} {x a : Account} (hfresh : db.load key = none)
    (ha : db.load k = some a) :
    ∃ a', (db.store key x).load k = some a' ∧ a'.lamports = a.lamports := by
  refine AccountsDB.exists_load_store ha (fun hk => ?_) fun _ => rfl
  exact absurd hk.symm (AccountsDB.ne_of_load hfresh ha)

theorem lamports_of_token {op : TokenInstruction}
    (h : TokenApplies ix.accountMetas signer keys db op db') {k : Pubkey} {a : Account}
    (ha : db.load k = some a) : ∃ a', db'.load k = some a' ∧ a'.lamports = a.lamports := by
  cases h with
  | initializeMint hmetas hkey hfresh => exact lamports_of_create hfresh ha
  | initializeAccount hmetas hmint hkey howner hload howned hdata hfresh =>
    exact lamports_of_create hfresh ha
  | transfer hmetas hfrom hto hne hsrc hdst hsd hdd hfunds hcredit =>
    exact lamports_of_stores hsrc hdst rfl rfl ha
  | mintTo hmetas hmint hkey hload hdst hmd hdd hsupply hbalance =>
    exact lamports_of_stores hload hdst rfl rfl ha
  | burn hmetas hmint hkey hload hsrc hmd hsd hbalance hsupply =>
    exact lamports_of_stores hload hsrc rfl rfl ha

theorem token_of_program (hprog : ix.programId = tokenProgramId)
    (h : Applies ix signer keys db db') :
    ∃ op, ix.tokenOp = some op ∧ TokenApplies ix.accountMetas signer keys db op db' := by
  cases h with
  | system hsystem hop h => exact absurd (hsystem.symm.trans hprog) (by decide)
  | @token op _ hop h => exact ⟨op, (tokenOp_of_token hprog hop).2, h⟩

end Applies

def createsMint (db : AccountsDB) (ix : Instruction) (signer : Pubkey) (keys : List Pubkey) : Prop :=
  ix.tokenOp = some .initializeMint ∧ keyAt ix keys 0 = some signer ∧ db.load signer = none

theorem processInitializeMint_ok {metas : List AccountMeta} {signer : Pubkey} {keys : List Pubkey}
    {s : ProgramState} (hkey : (metas[0]?.bind fun m => keys[m.index]?) = some signer)
    (hfresh : s.accounts.load signer = none) (hroom : ¬s.budget.max < s.budget.consumed + 300) :
    wp (TokenProgram.processInitializeMint metas signer keys) (fun _ _ => True) (fun _ _ => False)
      s := by
  obtain ⟨acct, hacct, hkey⟩ := Option.bind_eq_some_iff.mp hkey
  have hmissing : s.accounts.exists signer = false := by
    rw [AccountsDB.exists_eq, hfresh, Option.isSome_none]
  unfold TokenProgram.processInitializeMint
  simp [List.head?_eq_getElem?, hacct, resolveAccountKey_eq_ok.mpr hkey, hmissing, hroom]

theorem success_of_dispatch {units : UInt64} {body : Program Unit} {s : ProgramState}
    (h : wp (consume units) (fun _ => wp body (fun _ _ => True) fun _ _ => False)
      (fun _ _ => False) s) :
    (InstructionProcessor.dispatch units body s).1.success = true := by
  rcases hc : consume units s with ⟨e | u, t⟩
  · exact (wp_error h hc).elim
  · rcases hb : body t with ⟨e | u, t'⟩
    · exact (wp_error (wp_ok h hc) hb).elim
    · simp [InstructionProcessor.dispatch, hc, hb, InstructionProcessor.finish,
        InstructionResult.withLogs]

-- An instruction starts with the default budget, which covers the 450 units of this path.
theorem success_of_createsMint {db : AccountsDB} {ix : Instruction} {signer : Pubkey}
    {keys : List Pubkey} (h : createsMint db ix signer keys) :
    (processInstruction db ix signer keys).1.success = true := by
  obtain ⟨hop, hkey, hfresh⟩ := h
  rw [Instruction.tokenOp] at hop
  split_ifs at hop with hprog
  have hdata : TokenInstruction.fromData ix.data = .ok .initializeMint := by
    cases hdata : TokenInstruction.fromData ix.data with
    | error e => rw [hdata] at hop; cases hop
    | ok op => rw [hdata] at hop; cases hop; rfl
  have hsystem : ix.programId ≠ Bytes32.splat 1 := by
    rw [hprog]
    decide
  rw [processInstruction, if_neg hsystem, if_pos (show ix.programId = Bytes32.splat 2 from hprog)]
  have hdispatch : ¬(ComputeBudget.new defaultComputeUnits).max <
      (ComputeBudget.new defaultComputeUnits).consumed + 150 := by decide
  have hcreate : ¬(ComputeBudget.new defaultComputeUnits).max <
      (ComputeBudget.new defaultComputeUnits).consumed + 150 + 300 := by decide
  refine success_of_dispatch ((wp_consume 150).mpr ⟨fun hlt => absurd hlt hdispatch, fun _ => ?_⟩)
  unfold TokenProgram.processInstruction
  simp only [wp_bind, wp_ofExcept, hdata, reduceCtorEq, IsEmpty.forall_iff, implies_true, true_and]
  rintro _ ⟨⟩
  have hbody := processInitializeMint_ok (s := ⟨db, ⟨(ComputeBudget.new defaultComputeUnits).max,
    (ComputeBudget.new defaultComputeUnits).consumed + 150⟩, (InstructionProcessor.start db ix).logs⟩)
    hkey hfresh hcreate
  exact hbody

theorem createsMint_of_applies {db db' : AccountsDB} {ix : Instruction} {signer : Pubkey}
    {keys : List Pubkey} (hop : ix.tokenOp = some .initializeMint)
    (h : TokenApplies ix.accountMetas signer keys db .initializeMint db') :
    createsMint db ix signer keys := by
  cases h with
  | initializeMint hmetas hkey hfresh => exact ⟨hop, (keyAt_zero keys hmetas).trans hkey, hfresh⟩

theorem token_instructions_keep_lamports (db : AccountsDB) (ix : Instruction) (signer : Pubkey)
    (keys : List Pubkey) (hprog : ix.programId = tokenProgramId) :
    (∀ k a, db.load k = some a →
        ∃ a', (processInstruction db ix signer keys).2.load k = some a' ∧
          a'.lamports = a.lamports) ∧
      ((processInstruction db ix signer keys).2.supply = db.supply ↔
        ¬createsMint db ix signer keys) := by
  obtain ⟨hfail, hsame⟩ | ⟨hsuccess, happlies⟩ := processInstruction_cases db ix signer keys
  · refine ⟨fun k a ha => ⟨a, hsame.symm ▸ ha, rfl⟩, iff_of_true (by rw [hsame]) fun hcreates => ?_⟩
    rw [success_of_createsMint hcreates] at hfail
    cases hfail
  · obtain ⟨op, hop, htoken⟩ := happlies.token_of_program hprog
    refine ⟨fun k a ha => Applies.lamports_of_token htoken ha, ?_⟩
    rw [Applies.supply_of_token htoken, Nat.add_eq_left, rent_eq_zero_iff]
    refine not_congr ⟨?_, fun hcreates => Option.some.inj (hop.symm.trans hcreates.1)⟩
    rintro rfl
    exact createsMint_of_applies hop htoken

def initializeFirst : Instruction where
  programId := tokenProgramId
  accountMetas := [⟨0, true, true⟩]
  data := TokenInstruction.initializeMint.toData

theorem existing_mint_keeps_lamports :
    let db := AccountsDB.store .new (Bytes32.splat 7) (.newSystemAccount (Bytes32.splat 7) 5)
    (processInstruction db initializeFirst (Bytes32.splat 7)
      [Bytes32.splat 7]).2.supply = 5 := by
  intro db
  have hkeeps := token_instructions_keep_lamports db initializeFirst
    (Bytes32.splat 7) [Bytes32.splat 7] rfl
  rw [hkeeps.2.mpr fun hcreates => absurd hcreates.2.2 (by decide +kernel)]
  decide +kernel

theorem initialize_mint_creates_lamports :
    AccountsDB.supply .new = 0 ∧
      (processInstruction .new initializeFirst (Bytes32.splat 7)
        [Bytes32.splat 7]).2.supply = 890880 := by decide +kernel

end TrustNode.ProgramExecutor
