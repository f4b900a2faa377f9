import TrustNode.ProgramExecutor.Movement

namespace TrustNode.ProgramExecutor

open TrustNode.Accounts

structure Call where
  instruction : Instruction
  signer : Pubkey
  accountKeys : List Pubkey

def processAll (db : AccountsDB) (calls : List Call) : AccountsDB :=
  calls.foldl (fun db c =>
    (InstructionProcessor.processInstruction db c.instruction c.signer c.accountKeys).2) db

def held (mint : Pubkey) (a : Account) : ℕ :=
  match a.data with
  | .token m _ amount => if m = mint then amount.toNat else 0
  | _ => 0

def tokenSum (db : AccountsDB) (mint : Pubkey) : ℕ := Table.total (fun _ a => held mint a) db.index

def heldAt (db : AccountsDB) (mint k : Pubkey) : ℕ := (db.load k).elim 0 (held mint)

structure TokenInvariant (db : AccountsDB) : Prop where
  backed : ∀ k a mint authority amount, db.load k = some a → a.data = .token mint authority amount →
    ∃ m authority' supply, db.load mint = some m ∧ m.owner = tokenProgramId ∧
      m.data = .mint authority' supply
  owned : ∀ k a authority supply, db.load k = some a → a.data = .mint authority supply →
    a.owner = tokenProgramId
  supply : ∀ k a authority supply, db.load k = some a → a.data = .mint authority supply →
    supply.toNat = tokenSum db k

structure FreshAccount (db : AccountsDB) (a : Account) : Prop where
  token : ∀ mint authority amount, a.data = .token mint authority amount →
    amount = 0 ∧ ∃ m authority' supply, db.load mint = some m ∧ m.data = .mint authority' supply
  mint : ∀ authority supply, a.data = .mint authority supply →
    supply = 0 ∧ a.owner = tokenProgramId

section Sums

variable {db : AccountsDB} {mint k j : Pubkey} {a b : Account}

theorem heldAt_of_load (h : db.load k = some a) : heldAt db mint k = held mint a := by
  simp [heldAt, h]

theorem heldAt_of_none (h : db.load k = none) : heldAt db mint k = 0 := by
  simp [heldAt, h]

theorem held_token {m authority : Pubkey} {n : UInt64} (h : a.data = .token m authority n) :
    held mint a = if m = mint then n.toNat else 0 := by
  simp [held, h]

theorem held_mint {authority : Pubkey} {n : UInt64} (h : a.data = .mint authority n) :
    held mint a = 0 := by
  simp [held, h]

theorem held_congr (h : a.data = b.data) : held mint a = held mint b := by
  simp [held, h]

theorem tokenSum_store_store (db : AccountsDB) (mint : Pubkey) {k j : Pubkey} (a b : Account)
    (h : j ≠ k) :
    tokenSum ((db.store k a).store j b) mint + (heldAt db mint k + heldAt db mint j) =
      tokenSum db mint + (held mint a + held mint b) :=
  Table.total_insert_insert _ db.index a b h

theorem tokenSum_congr {db' : AccountsDB} (h : ∀ k, heldAt db' mint k = heldAt db mint k) :
    tokenSum db' mint = tokenSum db mint :=
  Table.total_congr h

theorem tokenSum_eq_zero (h : ∀ k, heldAt db mint k = 0) : tokenSum db mint = 0 :=
  Table.total_eq_zero h

theorem tokenSum_store_mint_token {mint' key authority holder authority' holder' : Pubkey}
    {supply balance supply' balance' : UInt64} (ha : db.load mint' = some a)
    (hb : db.load key = some b) (hmd : a.data = .mint authority supply)
    (htd : b.data = .token mint' holder balance) (mint : Pubkey) :
    (tokenSum ((db.store mint' { a with data := .mint authority' supply' }).store key
        { b with data := .token mint' holder' balance' }) mint : ℤ) =
      tokenSum db mint + if mint' = mint then (balance'.toNat : ℤ) - balance.toNat else 0 := by
  have hsum := tokenSum_store_store db mint { a with data := .mint authority' supply' }
    { b with data := .token mint' holder' balance' } (mint_ne_holder ha hb hmd htd).symm
  rw [heldAt_of_load ha, heldAt_of_load hb, held_mint hmd, held_token htd, held_mint rfl,
    held_token rfl] at hsum
  split_ifs at hsum ⊢
  · omega
  · omega

end Sums

namespace FreshAccount

variable {db : AccountsDB} {a : Account}

theorem of_plain (htoken : ∀ m authority n, a.data ≠ .token m authority n)
    (hmint : ∀ authority n, a.data ≠ .mint authority n) : FreshAccount db a where
  token := fun m authority n h => absurd h (htoken m authority n)
  mint := fun authority n h => absurd h (hmint authority n)

theorem held_eq_zero (h : FreshAccount db a) (mint : Pubkey) : held mint a = 0 := by
  cases hd : a.data with
  | token m authority n =>
    rw [held_token hd, (h.token m authority n hd).1]
    simp
  | _ => simp [held, hd]

end FreshAccount

namespace Applies

variable {ix : Instruction} {signer : Pubkey} {keys : List Pubkey} {db db' : AccountsDB}

theorem fresh_of_system {op : SystemInstruction}
    (h : SystemApplies ix.accountMetas signer keys db op db') {k : Pubkey} {a : Account}
    (hk : db.load k = none) (ha : db'.load k = some a) : FreshAccount db a := by
  cases h with
  | @transfer _ _ _ _ _ dest _ _ hmetas hfrom hto hsrc hfunds hdst hcredit =>
    have hs := AccountsDB.ne_of_load hk hsrc
    by_cases hd : k = dest
    · subst hd
      rw [hk] at hdst
      subst hdst
      rw [AccountsDB.load_store_self, Option.some.injEq] at ha
      subst ha
      exact .of_plain (by simp [Account.newSystemAccount]) (by simp [Account.newSystemAccount])
    · simp [AccountsDB.load_store, hd, hs, hk] at ha
  | @createAccount _ _ _ _ _ _ _ key _ hmetas hpayer hkey hfresh hload hsum hfunds =>
    have hs := AccountsDB.ne_of_load hk hload
    by_cases hd : k = key
    · subst hd
      rw [AccountsDB.load_store_self, Option.some.injEq] at ha
      subst ha
      exact .of_plain (by simp) (by simp)
    · simp [AccountsDB.load_store, hd, hs, hk] at ha
  | assign hmetas hkey hload howner =>
    simp [AccountsDB.load_store, AccountsDB.ne_of_load hk hload, hk] at ha

theorem fresh_of_token {op : TokenInstruction}
    (h : TokenApplies ix.accountMetas signer keys db op db') {k : Pubkey} {a : Account}
    (hk : db.load k = none) (ha : db'.load k = some a) : FreshAccount db a := by
  cases h with
  | initializeMint hmetas hkey hfresh =>
    by_cases hd : k = signer
    · subst hd
      rw [AccountsDB.load_store_self, Option.some.injEq] at ha
      subst ha
      exact ⟨by simp [Account.newMint], by simp [Account.newMint, eq_comm]⟩
    · simp [AccountsDB.load_store, hd, hk] at ha
  | @initializeAccount mint key authority supply m _ _ _ _ hmetas hmint hkey howner hload howned
      hdata hfresh =>
    by_cases hd : k = key
    · subst hd
      rw [AccountsDB.load_store_self, Option.some.injEq] at ha
      subst ha
      refine ⟨?_, by simp [Account.newTokenAccount]⟩
      intro mint' authority' amount h
      simp only [Account.newTokenAccount, AccountData.token.injEq] at h
      obtain ⟨rfl, rfl, rfl⟩ := h
      exact ⟨rfl, m, authority, supply, hload, hdata⟩
    · simp [AccountsDB.load_store, hd, hk] at ha
  | transfer hmetas hfrom hto hne hsrc hdst hsd hdd hfunds hcredit =>
    rw [load_of_absent hsrc hdst hk] at ha
    cases ha
  | mintTo hmetas hmint hkey hload hdst hmd hdd hsupply hbalance =>
    rw [load_of_absent hload hdst hk] at ha
    cases ha
  | burn hmetas hmint hkey hload hsrc hmd hsd hbalance hsupply =>
    rw [load_of_absent hload hsrc hk] at ha
    cases ha

theorem fresh (h : Applies ix signer keys db db') {k : Pubkey} {a : Account}
    (hk : db.load k = none) (ha : db'.load k = some a) : FreshAccount db a := by
  cases h with
  | system hprog hop h => exact fresh_of_system h hk ha
  | token hprog hop h => exact fresh_of_token h hk ha

theorem heldAt_of_delta_eq_zero (h : Applies ix signer keys db db') (mint : Pubkey) {k : Pubkey}
    (hz : delta ix keys k = 0) : heldAt db' mint k = heldAt db mint k := by
  cases ha : db.load k with
  | none =>
    rw [heldAt_of_none ha]
    cases hb : db'.load k with
    | none => exact heldAt_of_none hb
    | some b => rw [heldAt_of_load hb, (h.fresh ha hb).held_eq_zero]
  | some a =>
    obtain ⟨b, hb, hmoved⟩ := h.moved ha
    have hamount := hmoved.amount
    rw [hz, add_zero, Nat.cast_inj] at hamount
    rw [heldAt_of_load ha, heldAt_of_load hb, held_congr
      (AccountData.ext_amount hmoved.shape hamount)]

theorem tokenSum_of_delta_eq_zero (h : Applies ix signer keys db db') (mint : Pubkey)
    (hz : ∀ k, delta ix keys k = 0) :
    (tokenSum db' mint : ℤ) = tokenSum db mint + delta ix keys mint := by
  rw [tokenSum_congr fun k => h.heldAt_of_delta_eq_zero mint (hz k), hz mint, add_zero]

theorem tokenSum_of_token {op : TokenInstruction} (happ : Applies ix signer keys db db')
    (ht : ix.tokenOp = some op) (h : TokenApplies ix.accountMetas signer keys db op db')
    {mint authority : Pubkey} {supply : UInt64} {m : Account} (hm : db.load mint = some m)
    (hd : m.data = .mint authority supply) :
    (tokenSum db' mint : ℤ) = tokenSum db mint + delta ix keys mint := by
  cases h with
  | initializeMint hmetas hkey hfresh =>
    exact happ.tokenSum_of_delta_eq_zero mint fun k => by simp [delta, ht]
  | initializeAccount hmetas hmint hkey howner hload howned hdata hfresh =>
    exact happ.tokenSum_of_delta_eq_zero mint fun k => by simp [delta, ht]
  | @transfer amount fromBalance toBalance credited fromKey toKey mint' toAuthority src dst _ _ _
      hmetas hfrom hto hne hsrc hdst hsd hdd hfunds hcredit =>
    have hle := UInt64.le_iff_toNat_le.mp hfunds
    have hmf := (mint_ne_holder hm hsrc hd hsd).symm
    have hmt := (mint_ne_holder hm hdst hd hdd).symm
    have hsum := tokenSum_store_store db mint
      { src with data := .token mint' signer (fromBalance - amount) }
      { dst with data := .token mint' toAuthority credited } hne.symm
    rw [heldAt_of_load hsrc, heldAt_of_load hdst, held_token hsd, held_token hdd, held_token rfl,
      held_token rfl, UInt64.toNat_sub_of_le _ _ hfunds] at hsum
    simp only [delta, ht, keyAt_zero keys hmetas, keyAt_one keys hmetas, hfrom, hto,
      Option.some.injEq, hmf, hmt, if_false, add_zero]
    split at hsum <;> omega
  | @mintTo amount supply' balance newSupply newBalance mint' key authority' mintAccount dst _ _ _
      hmetas hmint hkey hload hdst hmd hdd hsupply hbalance =>
    have hmk := (mint_ne_holder hm hdst hd hdd).symm
    rw [tokenSum_store_mint_token hload hdst hmd hdd mint]
    simp only [delta, ht, keyAt_zero keys hmetas, keyAt_one keys hmetas, hmint, hkey,
      Option.some.injEq, hmk, if_false, add_zero]
    split_ifs
    · omega
    · rfl
  | @burn amount supply' balance mint' key authority' mintAccount src _ _ _
      hmetas hmint hkey hload hsrc hmd hsd hbalance hsupply =>
    have hle := UInt64.le_iff_toNat_le.mp hbalance
    have hmk := (mint_ne_holder hm hsrc hd hsd).symm
    rw [tokenSum_store_mint_token hload hsrc hmd hsd mint, UInt64.toNat_sub_of_le _ _ hbalance]
    simp only [delta, ht, keyAt_zero keys hmetas, keyAt_one keys hmetas, hmint, hkey,
      Option.some.injEq, hmk, if_false, add_zero]
    split_ifs
    · omega
    · rfl

theorem tokenSum (h : Applies ix signer keys db db') {mint authority : Pubkey} {supply : UInt64}
    {m : Account} (hm : db.load mint = some m) (hd : m.data = .mint authority supply) :
    (tokenSum db' mint : ℤ) = tokenSum db mint + delta ix keys mint := by
  have happ := h
  cases h with
  | system hprog hop h =>
    have ht := (systemOp_of_system hprog hop).2
    exact happ.tokenSum_of_delta_eq_zero mint fun k => by simp [delta, ht]
  | token hprog hop h => exact tokenSum_of_token happ (tokenOp_of_token hprog hop).2 h hm hd

end Applies

namespace TokenInvariant

variable {ix : Instruction} {signer : Pubkey} {keys : List Pubkey} {db db' : AccountsDB}

theorem owned_step (hinv : TokenInvariant db) (h : Applies ix signer keys db db') {k : Pubkey}
    {a : Account} {authority : Pubkey} {supply : UInt64} (ha : db'.load k = some a)
    (hd : a.data = .mint authority supply) : a.owner = tokenProgramId := by
  cases hb : db.load k with
  | none => exact ((h.fresh hb ha).mint authority supply hd).2
  | some b =>
    obtain ⟨c, hc, hmoved⟩ := h.moved hb
    obtain rfl := Option.some.inj (ha.symm.trans hc)
    obtain ⟨n, hn⟩ := Moved.mint_of_shape hmoved.shape.symm hd
    have howner := hinv.owned k b authority n hb hn
    by_contra hne
    have hsystem := (hmoved.owner (howner ▸ hne)).2
    rw [howner] at hsystem
    exact absurd hsystem (by decide)

theorem backed_step (hinv : TokenInvariant db) (h : Applies ix signer keys db db') {k : Pubkey}
    {a : Account} {mint authority : Pubkey} {amount : UInt64} (ha : db'.load k = some a)
    (hd : a.data = .token mint authority amount) :
    ∃ m authority' supply, db'.load mint = some m ∧ m.owner = tokenProgramId ∧
      m.data = .mint authority' supply := by
  have hbefore : ∃ m authority' supply, db.load mint = some m ∧
      m.data = .mint authority' supply := by
    cases hb : db.load k with
    | none => exact ((h.fresh hb ha).token mint authority amount hd).2
    | some b =>
      obtain ⟨c, hc, hmoved⟩ := h.moved hb
      obtain rfl := Option.some.inj (ha.symm.trans hc)
      obtain ⟨n, hn⟩ := Moved.token_of_shape hmoved.shape.symm hd
      obtain ⟨m, authority', supply, hm, _, hmd⟩ := hinv.backed k b mint authority n hb hn
      exact ⟨m, authority', supply, hm, hmd⟩
  obtain ⟨m, authority', supply, hm, hmd⟩ := hbefore
  obtain ⟨m', hm', hmoved⟩ := h.moved hm
  obtain ⟨supply', hmd'⟩ := Moved.mint_of_shape hmoved.shape hmd
  exact ⟨m', authority', supply', hm', hinv.owned_step h hm' hmd', hmd'⟩

theorem tokenSum_of_absent (hinv : TokenInvariant db) (h : Applies ix signer keys db db')
    {mint : Pubkey} (hmint : db.load mint = none) : tokenSum db' mint = 0 := by
  refine tokenSum_eq_zero fun k => ?_
  cases ha : db'.load k with
  | none => exact heldAt_of_none ha
  | some a =>
    rw [heldAt_of_load ha]
    cases hb : db.load k with
    | none => exact (h.fresh hb ha).held_eq_zero mint
    | some b =>
      obtain ⟨c, hc, hmoved⟩ := h.moved hb
      obtain rfl := Option.some.inj (ha.symm.trans hc)
      cases hd : a.data with
      | token mint' authority n =>
        rw [held_token hd, if_neg]
        rintro rfl
        obtain ⟨n', hn'⟩ := Moved.token_of_shape hmoved.shape.symm hd
        obtain ⟨m, _, _, hm, _⟩ := hinv.backed k b mint' authority n' hb hn'
        exact AccountsDB.ne_of_load hmint hm rfl
      | _ => simp [held, hd]

theorem supply_step (hinv : TokenInvariant db) (h : Applies ix signer keys db db') {k : Pubkey}
    {a : Account} {authority : Pubkey} {supply : UInt64} (ha : db'.load k = some a)
    (hd : a.data = .mint authority supply) : supply.toNat = tokenSum db' k := by
  cases hb : db.load k with
  | none =>
    rw [hinv.tokenSum_of_absent h hb, ((h.fresh hb ha).mint authority supply hd).1]
    rfl
  | some b =>
    obtain ⟨c, hc, hmoved⟩ := h.moved hb
    obtain rfl := Option.some.inj (ha.symm.trans hc)
    obtain ⟨n, hn⟩ := Moved.mint_of_shape hmoved.shape.symm hd
    have hbefore := hinv.supply k b authority n hb hn
    have hsum := h.tokenSum hb hn
    have hamount := hmoved.amount
    simp only [hd, hn, AccountData.amount] at hamount
    omega

theorem step (hinv : TokenInvariant db) (h : Applies ix signer keys db db') :
    TokenInvariant db' where
  backed := fun _ _ _ _ _ ha hd => hinv.backed_step h ha hd
  owned := fun _ _ _ _ ha hd => hinv.owned_step h ha hd
  supply := fun _ _ _ _ ha hd => hinv.supply_step h ha hd

theorem of_system (h : ∀ k a, db.load k = some a → a.data = .system) : TokenInvariant db where
  backed := by
    intro k a mint authority amount ha hd
    rw [h k a ha] at hd
    cases hd
  owned := by
    intro k a authority supply ha hd
    rw [h k a ha] at hd
    cases hd
  supply := by
    intro k a authority supply ha hd
    rw [h k a ha] at hd
    cases hd

theorem processInstruction (hinv : TokenInvariant db) (c : Call) :
    TokenInvariant
      (InstructionProcessor.processInstruction db c.instruction c.signer c.accountKeys).2 := by
  obtain ⟨_, hdb⟩ | ⟨_, happ⟩ :=
    InstructionProcessor.processInstruction_cases db c.instruction c.signer c.accountKeys
  · rw [hdb]
    exact hinv
  · exact hinv.step happ

theorem processAll (hinv : TokenInvariant db) (calls : List Call) :
    TokenInvariant (processAll db calls) := by
  induction calls generalizing db with
  | nil => exact hinv
  | cons c rest ih => exact ih (hinv.processInstruction c)

end TokenInvariant

theorem token_supply_invariant (db : AccountsDB)
    (h : ∀ k a, db.load k = some a → a.data = .system) (calls : List Call) :
    TokenInvariant (processAll db calls) :=
  (TokenInvariant.of_system h).processAll calls

def tokenCall (op : TokenInstruction) (signer : Pubkey) (keys : List Pubkey) : Call where
  instruction :=
    { programId := tokenProgramId
      accountMetas := (List.range keys.length).map fun i => ⟨i, false, true⟩
      data := op.toData }
  signer := signer
  accountKeys := keys

def genesis : AccountsDB :=
  AccountsDB.new.store (Bytes32.splat 42) (Account.newSystemAccount (Bytes32.splat 42) 1000000)

def mintAndBurn : List Call :=
  let mint := Bytes32.splat 5
  let holder := Bytes32.splat 6
  let wallet := Bytes32.splat 7
  [tokenCall .initializeMint mint [mint],
    tokenCall (.initializeAccount mint) holder [mint, wallet, holder],
    tokenCall (.mintTo 500) mint [mint, wallet],
    tokenCall (.burn 200) holder [mint, wallet]]

theorem token_supply_after_mint_and_burn :
    tokenSum (processAll genesis mintAndBurn) (Bytes32.splat 5) = 300 ∧
      TokenInvariant (processAll genesis mintAndBurn) := by
  refine ⟨by decide +kernel, token_supply_invariant genesis ?_ mintAndBurn⟩
  intro k a ha
  rw [genesis, AccountsDB.load_store] at ha
  split at ha
  · obtain rfl := Option.some.inj ha
    rfl
  · cases ha

end TrustNode.ProgramExecutor
