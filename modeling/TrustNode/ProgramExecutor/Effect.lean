import TrustNode.ProgramExecutor.Processor

namespace TrustNode.ProgramExecutor

open Exec Word
open TrustNode.Accounts

section Effects

variable (metas : List AccountMeta) (signer : Pubkey) (keys : List Pubkey) (db : AccountsDB)

inductive SystemApplies : SystemInstruction → AccountsDB → Prop
  | transfer {lamports credited : UInt64} {fromMeta toMeta : AccountMeta} {rest : List AccountMeta}
      {dest : Pubkey} {src dst : Account}
      (hmetas : metas = fromMeta :: toMeta :: rest)
      (hfrom : keys[fromMeta.index]? = some signer) (hto : keys[toMeta.index]? = some dest)
      (hsrc : db.load signer = some src) (hfunds : lamports ≤ src.lamports)
      (hdst : dst = (db.load dest).getD (Account.newSystemAccount dest 0))
      (hcredit : credited.toNat = dst.lamports.toNat + lamports.toNat) :
      SystemApplies (.transfer lamports)
        ((db.store signer { src with lamports := src.lamports - lamports }).store dest
          { dst with lamports := credited })
  | createAccount {lamports space newLamports : UInt64} {owner : Pubkey}
      {payerMeta newMeta : AccountMeta} {rest : List AccountMeta} {key : Pubkey} {payer : Account}
      (hmetas : metas = payerMeta :: newMeta :: rest)
      (hpayer : keys[payerMeta.index]? = some signer) (hkey : keys[newMeta.index]? = some key)
      (hfresh : db.load key = none) (hload : db.load signer = some payer)
      (hsum : newLamports.toNat = lamports.toNat + minimumRentExemptBalance.toNat)
      (hfunds : newLamports ≤ payer.lamports) :
      SystemApplies (.createAccount lamports space owner)
        ((db.store signer { payer with lamports := payer.lamports - newLamports }).store key
          { lamports := newLamports, owner := owner, executable := false, rentEpoch := 0,
            data := .data (List.replicate space.toNat 0) })
  | assign {owner : Pubkey} {acct : AccountMeta} {rest : List AccountMeta} {account : Account}
      (hmetas : metas = acct :: rest) (hkey : keys[acct.index]? = some signer)
      (hload : db.load signer = some account) (howner : account.owner = systemProgramId) :
      SystemApplies (.assign owner) (db.store signer { account with owner := owner })

inductive TokenApplies : TokenInstruction → AccountsDB → Prop
  | initializeMint {acct : AccountMeta} {rest : List AccountMeta}
      (hmetas : metas = acct :: rest) (hkey : keys[acct.index]? = some signer)
      (hfresh : db.load signer = none) :
      TokenApplies .initializeMint (db.store signer (Account.newMint signer signer))
  | initializeAccount {mint key authority : Pubkey} {supply : UInt64} {mintAccount : Account}
      {mintMeta newMeta ownerMeta : AccountMeta} {rest : List AccountMeta}
      (hmetas : metas = mintMeta :: newMeta :: ownerMeta :: rest)
      (hmint : keys[mintMeta.index]? = some mint) (hkey : keys[newMeta.index]? = some key)
      (howner : keys[ownerMeta.index]? = some signer)
      (hload : db.load mint = some mintAccount) (howned : mintAccount.owner = tokenProgramId)
      (hdata : mintAccount.data = .mint authority supply) (hfresh : db.load key = none) :
      TokenApplies (.initializeAccount mint)
        (db.store key (Account.newTokenAccount key mint signer 0))
  | transfer {amount fromBalance toBalance credited : UInt64} {fromKey toKey mint toAuthority : Pubkey}
      {src dst : Account} {fromMeta toMeta : AccountMeta} {rest : List AccountMeta}
      (hmetas : metas = fromMeta :: toMeta :: rest)
      (hfrom : keys[fromMeta.index]? = some fromKey) (hto : keys[toMeta.index]? = some toKey)
      (hne : fromKey ≠ toKey)
      (hsrc : db.load fromKey = some src) (hdst : db.load toKey = some dst)
      (hsd : src.data = .token mint signer fromBalance)
      (hdd : dst.data = .token mint toAuthority toBalance)
      (hfunds : amount ≤ fromBalance) (hcredit : credited.toNat = toBalance.toNat + amount.toNat) :
      TokenApplies (.transfer amount)
        ((db.store fromKey { src with data := .token mint signer (fromBalance - amount) }).store
          toKey { dst with data := .token mint toAuthority credited })
  | mintTo {amount supply balance newSupply newBalance : UInt64} {mint key authority : Pubkey}
      {mintAccount dst : Account} {mintMeta destMeta : AccountMeta} {rest : List AccountMeta}
      (hmetas : metas = mintMeta :: destMeta :: rest)
      (hmint : keys[mintMeta.index]? = some mint) (hkey : keys[destMeta.index]? = some key)
      (hload : db.load mint = some mintAccount) (hdst : db.load key = some dst)
      (hmd : mintAccount.data = .mint signer supply)
      (hdd : dst.data = .token mint authority balance)
      (hsupply : newSupply.toNat = supply.toNat + amount.toNat)
      (hbalance : newBalance.toNat = balance.toNat + amount.toNat) :
      TokenApplies (.mintTo amount)
        ((db.store mint { mintAccount with data := .mint signer newSupply }).store key
          { dst with data := .token mint authority newBalance })
  | burn {amount supply balance : UInt64} {mint key authority : Pubkey}
      {mintAccount src : Account} {mintMeta tokenMeta : AccountMeta} {rest : List AccountMeta}
      (hmetas : metas = mintMeta :: tokenMeta :: rest)
      (hmint : keys[mintMeta.index]? = some mint) (hkey : keys[tokenMeta.index]? = some key)
      (hload : db.load mint = some mintAccount) (hsrc : db.load key = some src)
      (hmd : mintAccount.data = .mint authority supply)
      (hsd : src.data = .token mint signer balance)
      (hbalance : amount ≤ balance) (hsupply : amount ≤ supply) :
      TokenApplies (.burn amount)
        ((db.store mint { mintAccount with data := .mint authority (supply - amount) }).store key
          { src with data := .token mint signer (balance - amount) })

end Effects

inductive Applies (ix : Instruction) (signer : Pubkey) (keys : List Pubkey) (db db' : AccountsDB) :
    Prop
  | system {op : SystemInstruction} (hprog : ix.programId = systemProgramId)
      (hop : SystemInstruction.fromData ix.data = .ok op)
      (h : SystemApplies ix.accountMetas signer keys db op db')
  | token {op : TokenInstruction} (hprog : ix.programId = tokenProgramId)
      (hop : TokenInstruction.fromData ix.data = .ok op)
      (h : TokenApplies ix.accountMetas signer keys db op db')

section Rules

variable {s : ProgramState}

@[simp] theorem wp_consume (units : UInt64) {Q : Unit → ProgramState → Prop}
    {E : InstructionError → ProgramState → Prop} :
    wp (consume units) Q E s ↔
      (s.budget.max < s.budget.consumed + units → E .insufficientComputeUnits
        { s with budget := { s.budget with consumed := s.budget.consumed + units } }) ∧
      (¬s.budget.max < s.budget.consumed + units → Q ()
        { s with budget := { s.budget with consumed := s.budget.consumed + units } }) := by
  by_cases h : s.budget.max < s.budget.consumed + units <;> simp [wp, consume, h]

@[simp] theorem wp_load (key : Pubkey) {Q : Option Account → ProgramState → Prop}
    {E : InstructionError → ProgramState → Prop} :
    wp (load key) Q E s ↔ Q (s.accounts.load key) s := Iff.rfl

@[simp] theorem wp_accountExists (key : Pubkey) {Q : Bool → ProgramState → Prop}
    {E : InstructionError → ProgramState → Prop} :
    wp (accountExists key) Q E s ↔ Q (s.accounts.exists key) s := Iff.rfl

@[simp] theorem wp_store (key : Pubkey) (account : Account) {Q : Unit → ProgramState → Prop}
    {E : InstructionError → ProgramState → Prop} :
    wp (store key account) Q E s ↔ Q () { s with accounts := s.accounts.store key account } :=
  Iff.rfl

@[simp] theorem wp_log (msg : String) {Q : Unit → ProgramState → Prop}
    {E : InstructionError → ProgramState → Prop} :
    wp (log msg) Q E s ↔ Q () { s with logs := s.logs ++ [msg] } := Iff.rfl

@[simp] theorem wp_loadOwned (key : Pubkey) {Q : Account → ProgramState → Prop}
    {E : InstructionError → ProgramState → Prop} :
    wp (TokenProgram.loadOwned key) Q E s ↔
      (s.accounts.load key = none → E .accountNotFound s) ∧
      ∀ a, s.accounts.load key = some a →
        (a.owner = tokenProgramId → Q a s) ∧
        (¬a.owner = tokenProgramId → E .invalidAccountOwner s) := by
  simp [TokenProgram.loadOwned]

theorem wp_consume_fail (units : UInt64) (e : InstructionError) {Q : Unit → ProgramState → Prop} :
    wp (do consume units; fail e) Q (fun _ t => t.accounts = s.accounts) s := by
  simp only [wp_bind, wp_consume, wp_fail, implies_true, and_self]

end Rules

namespace SystemProgram

variable (metas : List AccountMeta) (signer : Pubkey) (keys : List Pubkey) (s : ProgramState)

theorem processTransfer_spec (lamports : UInt64) :
    wp (processTransfer lamports metas signer keys)
      (fun _ t => SystemApplies metas signer keys s.accounts (.transfer lamports) t.accounts)
      (fun _ t => t.accounts = s.accounts) s := by
  rcases metas with _ | ⟨fromMeta, _ | ⟨toMeta, rest⟩⟩
  · exact wp_consume_fail _ _
  · exact wp_consume_fail _ _
  · unfold processTransfer
    simp only [wp_bind, wp_consume, wp_ofExcept, wp_load, wp_okOr, wp_ite,
      wp_fail, wp_store, wp_log, implies_true, true_and]
    intro _ k hk
    obtain ⟨hfrom, rfl⟩ := requireSigner_eq_ok.mp hk
    intro src hsrc hfunds dest hdest credited hcredit
    exact .transfer rfl hfrom (resolveAccountKey_eq_ok.mp hdest) hsrc (UInt64.not_lt.mp hfunds) rfl
      (checkedAdd_eq_some.mp hcredit)

theorem processCreateAccount_spec (lamports space : UInt64) (owner : Pubkey) :
    wp (processCreateAccount lamports space owner metas signer keys)
      (fun _ t =>
        SystemApplies metas signer keys s.accounts (.createAccount lamports space owner) t.accounts)
      (fun _ t => t.accounts = s.accounts) s := by
  rcases metas with _ | ⟨payerMeta, _ | ⟨newMeta, rest⟩⟩
  · exact wp_consume_fail _ _
  · exact wp_consume_fail _ _
  · unfold processCreateAccount
    simp only [wp_bind, wp_consume, wp_ofExcept, wp_load, wp_okOr, wp_ite,
      wp_fail, wp_accountExists, wp_store, wp_log, implies_true, true_and]
    intro _ k hk
    obtain ⟨hpayer, rfl⟩ := requireSigner_eq_ok.mp hk
    intro key hkey _ hfresh payer hload newLamports hsum hfunds
    exact .createAccount rfl hpayer (resolveAccountKey_eq_ok.mp hkey)
      (AccountsDB.load_of_not_exists hfresh) hload (checkedAdd_eq_some.mp hsum)
      (UInt64.not_lt.mp hfunds)

theorem processAssign_spec (owner : Pubkey) :
    wp (processAssign owner metas signer keys)
      (fun _ t => SystemApplies metas signer keys s.accounts (.assign owner) t.accounts)
      (fun _ t => t.accounts = s.accounts) s := by
  rcases metas with _ | ⟨acct, rest⟩
  · exact wp_consume_fail _ _
  · unfold processAssign
    simp only [wp_bind, wp_consume, wp_ofExcept, wp_load, wp_okOr, wp_ite, wp_fail,
      wp_store, wp_log, implies_true, true_and]
    intro _ k hk
    obtain ⟨hkey, rfl⟩ := requireSigner_eq_ok.mp hk
    intro account hload howner
    exact .assign rfl hkey hload (not_not.mp howner)

theorem processInstruction_spec (data : Bytes) :
    wp (processInstruction data metas signer keys)
      (fun _ t => ∃ op, SystemInstruction.fromData data = .ok op ∧
        SystemApplies metas signer keys s.accounts op t.accounts)
      (fun _ t => t.accounts = s.accounts) s := by
  simp only [processInstruction, wp_bind, wp_ofExcept, implies_true, true_and]
  intro op hop
  refine wp_mono ?_ (fun _ _ h => ⟨op, hop, h⟩) fun _ _ h => h
  cases op with
  | transfer lamports => exact processTransfer_spec metas signer keys s lamports
  | createAccount lamports space owner =>
    exact processCreateAccount_spec metas signer keys s lamports space owner
  | assign owner => exact processAssign_spec metas signer keys s owner
  | nonceInitialize => simp

end SystemProgram

namespace TokenProgram

variable (metas : List AccountMeta) (signer : Pubkey) (keys : List Pubkey) (s : ProgramState)

theorem isMint_eq_true {d : AccountData} (h : ¬isMint d = false) :
    ∃ authority supply, d = .mint authority supply := by
  cases d with
  | mint authority supply => exact ⟨authority, supply, rfl⟩
  | _ => simp [isMint] at h

theorem tokenFields_eq_some {d : AccountData} {m a : Pubkey} {n : UInt64} :
    tokenFields d = some (m, a, n) ↔ d = .token m a n := by
  cases d <;> simp [tokenFields]

theorem mintFields_eq_some {d : AccountData} {a : Pubkey} {n : UInt64} :
    mintFields d = some (a, n) ↔ d = .mint a n := by
  cases d <;> simp [mintFields]

theorem processInitializeMint_spec :
    wp (processInitializeMint metas signer keys)
      (fun _ t => TokenApplies metas signer keys s.accounts .initializeMint t.accounts)
      (fun _ t => t.accounts = s.accounts) s := by
  rcases metas with _ | ⟨acct, rest⟩
  · simp [processInitializeMint]
  · unfold processInitializeMint
    simp only [wp_bind, wp_consume, wp_ofExcept, wp_okOr, wp_ite, wp_fail,
      wp_accountExists, wp_store, wp_log, implies_true, true_and, List.head?_cons]
    rintro _ _ ⟨⟩ k hk hsigner hfresh
    obtain rfl : k = signer := not_not.mp hsigner
    exact .initializeMint rfl (resolveAccountKey_eq_ok.mp hk) (AccountsDB.load_of_not_exists hfresh)

theorem processInitializeAccount_spec (mint : Pubkey) :
    wp (processInitializeAccount mint metas signer keys)
      (fun _ t => TokenApplies metas signer keys s.accounts (.initializeAccount mint) t.accounts)
      (fun _ t => t.accounts = s.accounts) s := by
  rcases metas with _ | ⟨mintMeta, _ | ⟨newMeta, _ | ⟨ownerMeta, rest⟩⟩⟩
  · exact wp_consume_fail _ _
  · exact wp_consume_fail _ _
  · exact wp_consume_fail _ _
  · unfold processInitializeAccount
    simp only [wp_bind, wp_consume, wp_ofExcept, wp_ite, wp_fail,
      wp_accountExists, wp_store, wp_log, wp_loadOwned, implies_true, true_and, and_true]
    intro _ mintKey hmint key hkey owner howner hm ho mintAccount hload howned hdata hfresh
    obtain rfl : mintKey = mint := not_not.mp hm
    obtain rfl : owner = signer := not_not.mp ho
    obtain ⟨authority, supply, hd⟩ := isMint_eq_true hdata
    exact .initializeAccount rfl (resolveAccountKey_eq_ok.mp hmint) (resolveAccountKey_eq_ok.mp hkey)
      (resolveAccountKey_eq_ok.mp howner) hload howned hd (AccountsDB.load_of_not_exists hfresh)

theorem processTokenTransfer_spec (amount : UInt64) :
    wp (processTokenTransfer amount metas signer keys)
      (fun _ t => TokenApplies metas signer keys s.accounts (.transfer amount) t.accounts)
      (fun _ t => t.accounts = s.accounts) s := by
  rcases metas with _ | ⟨fromMeta, _ | ⟨toMeta, rest⟩⟩
  · exact wp_consume_fail _ _
  · exact wp_consume_fail _ _
  · unfold processTokenTransfer
    simp only [wp_bind, wp_consume, wp_ofExcept, wp_okOr, wp_ite, wp_fail,
      wp_store, wp_log, wp_loadOwned, implies_true, true_and, and_true, Prod.forall]
    intro _ fromKey hfrom toKey hto hne src hsrc _ dst hdst _ mint authority fromBalance hsd hauth
      toMint toAuthority toBalance hdd hm hfunds debited hdebit credited hcredit
    obtain rfl : authority = signer := not_not.mp hauth
    obtain rfl : mint = toMint := not_not.mp hm
    obtain ⟨hle, rfl⟩ := checkedSub_eq_some.mp hdebit
    rw [tokenFields_eq_some] at hsd hdd
    simp only [hsd, hdd, setAmount]
    exact .transfer rfl (resolveAccountKey_eq_ok.mp hfrom) (resolveAccountKey_eq_ok.mp hto) hne
      hsrc hdst hsd hdd hle (checkedAdd_eq_some.mp hcredit)

theorem processMintTo_spec (amount : UInt64) :
    wp (processMintTo amount metas signer keys)
      (fun _ t => TokenApplies metas signer keys s.accounts (.mintTo amount) t.accounts)
      (fun _ t => t.accounts = s.accounts) s := by
  rcases metas with _ | ⟨mintMeta, _ | ⟨destMeta, rest⟩⟩
  · exact wp_consume_fail _ _
  · exact wp_consume_fail _ _
  · unfold processMintTo
    simp only [wp_bind, wp_consume, wp_ofExcept, wp_okOr, wp_ite, wp_fail,
      wp_store, wp_log, wp_loadOwned, implies_true, true_and, and_true, Prod.forall]
    intro _ mint hmint key hkey mintAccount hload _ authority supply hmd hauth dst hdst _ destMint
      holder balance hdd hm newSupply hsupply newBalance hbalance
    obtain rfl : authority = signer := not_not.mp hauth
    obtain rfl : destMint = mint := not_not.mp hm
    rw [mintFields_eq_some] at hmd
    rw [tokenFields_eq_some] at hdd
    simp only [hmd, hdd, setAmount, setSupply]
    exact .mintTo rfl (resolveAccountKey_eq_ok.mp hmint) (resolveAccountKey_eq_ok.mp hkey) hload
      hdst hmd hdd (checkedAdd_eq_some.mp hsupply) (checkedAdd_eq_some.mp hbalance)

theorem processBurn_spec (amount : UInt64) :
    wp (processBurn amount metas signer keys)
      (fun _ t => TokenApplies metas signer keys s.accounts (.burn amount) t.accounts)
      (fun _ t => t.accounts = s.accounts) s := by
  rcases metas with _ | ⟨mintMeta, _ | ⟨tokenMeta, rest⟩⟩
  · exact wp_consume_fail _ _
  · exact wp_consume_fail _ _
  · unfold processBurn
    simp only [wp_bind, wp_consume, wp_ofExcept, wp_okOr, wp_ite, wp_fail, wp_store,
      wp_log, wp_loadOwned, implies_true, true_and, and_true, Prod.forall]
    intro _ mint hmint key hkey mintAccount hload _ authority supply hmd src hsrc _ tokenMint holder
      balance hsd hauth hm hbalance hsupply
    obtain rfl : holder = signer := not_not.mp hauth
    obtain rfl : tokenMint = mint := not_not.mp hm
    rw [mintFields_eq_some] at hmd
    rw [tokenFields_eq_some] at hsd
    simp only [hmd, hsd, setAmount, setSupply]
    exact .burn rfl (resolveAccountKey_eq_ok.mp hmint) (resolveAccountKey_eq_ok.mp hkey) hload
      hsrc hmd hsd (UInt64.not_lt.mp hbalance) (UInt64.not_lt.mp hsupply)

theorem processInstruction_spec (data : Bytes) :
    wp (processInstruction data metas signer keys)
      (fun _ t => ∃ op, TokenInstruction.fromData data = .ok op ∧
        TokenApplies metas signer keys s.accounts op t.accounts)
      (fun _ t => t.accounts = s.accounts) s := by
  simp only [processInstruction, wp_bind, wp_ofExcept, implies_true, true_and]
  intro op hop
  refine wp_mono ?_ (fun _ _ h => ⟨op, hop, h⟩) fun _ _ h => h
  cases op with
  | initializeMint => exact processInitializeMint_spec metas signer keys s
  | initializeAccount mint => exact processInitializeAccount_spec metas signer keys s mint
  | transfer amount => exact processTokenTransfer_spec metas signer keys s amount
  | mintTo amount => exact processMintTo_spec metas signer keys s amount
  | burn amount => exact processBurn_spec metas signer keys s amount

end TokenProgram

namespace InstructionProcessor

theorem dispatch_cases {units : UInt64} {body : Program Unit} {s : ProgramState}
    {P : AccountsDB → Prop}
    (h : ∀ t : ProgramState, t.accounts = s.accounts →
      wp body (fun _ t' => P t'.accounts) (fun _ t' => t'.accounts = s.accounts) t) :
    ((dispatch units body s).1.success = false ∧ (dispatch units body s).2 = s.accounts) ∨
      ((dispatch units body s).1.success = true ∧ P (dispatch units body s).2) := by
  have hc : wp (consume units) (fun _ t => t.accounts = s.accounts)
      (fun _ t => t.accounts = s.accounts) s := by simp
  cases hr : consume units s with
  | mk r t =>
    cases r with
    | error e =>
      have ht := wp_error hc hr
      simp [dispatch, hr, InstructionResult.withLogs, ht]
    | ok u =>
      have ht := wp_ok hc hr
      have hb := h t ht
      cases hbody : body t with
      | mk r' t' =>
        cases r' with
        | error e =>
          have ht' := wp_error hb hbody
          simp [dispatch, hr, hbody, finish, InstructionResult.withLogs, ht']
        | ok u' =>
          have ht' := wp_ok hb hbody
          simp [dispatch, hr, hbody, finish, InstructionResult.withLogs, ht']

theorem processInstruction_foreign {ix : Instruction} (db : AccountsDB) (signer : Pubkey)
    (keys : List Pubkey) (hs : ix.programId ≠ Bytes32.splat 1)
    (ht : ix.programId ≠ Bytes32.splat 2) :
    (processInstruction db ix signer keys).1.success = false ∧
      (processInstruction db ix signer keys).2 = db := by
  simp only [processInstruction, if_neg hs, if_neg ht]
  cases hp : db.load ix.programId with
  | none => simp [finish, start, InstructionResult.withLogs]
  | some account =>
    cases he : account.executable with
    | false => simp [he, finish, start, InstructionResult.withLogs]
    | true =>
      simp [he, dispatch, consume, start, ComputeBudget.new, defaultComputeUnits, finish,
        fail, InstructionResult.withLogs]

theorem processInstruction_cases (db : AccountsDB) (ix : Instruction) (signer : Pubkey)
    (keys : List Pubkey) :
    ((processInstruction db ix signer keys).1.success = false ∧
        (processInstruction db ix signer keys).2 = db) ∨
      ((processInstruction db ix signer keys).1.success = true ∧
        Applies ix signer keys db (processInstruction db ix signer keys).2) := by
  by_cases hs : ix.programId = Bytes32.splat 1
  · simp only [processInstruction, if_pos hs]
    refine dispatch_cases (s := start db ix) fun t ht => ?_
    have hspec := SystemProgram.processInstruction_spec ix.accountMetas signer keys t ix.data
    rw [ht] at hspec
    exact wp_mono hspec (fun _ _ ⟨op, hop, h⟩ => .system hs hop h) fun _ _ h => h
  · by_cases ht : ix.programId = Bytes32.splat 2
    · simp only [processInstruction, if_neg hs, if_pos ht]
      refine dispatch_cases (s := start db ix) fun t hacc => ?_
      have hspec := TokenProgram.processInstruction_spec ix.accountMetas signer keys t ix.data
      rw [hacc] at hspec
      exact wp_mono hspec (fun _ _ ⟨op, hop, h⟩ => .token ht hop h) fun _ _ h => h
    · exact .inl (processInstruction_foreign db signer keys hs ht)

end InstructionProcessor

end TrustNode.ProgramExecutor
