import TrustNode.ProgramExecutor.Effect

namespace TrustNode.Accounts

namespace AccountData

def amount : AccountData → ℕ
  | .token _ _ n => n.toNat
  | .mint _ n => n.toNat
  | _ => 0

def shape : AccountData → AccountData
  | .token m authority _ => .token m authority 0
  | .mint authority _ => .mint authority 0
  | d => d

theorem ext_amount {d d' : AccountData} (hs : d.shape = d'.shape) (ha : d.amount = d'.amount) :
    d = d' := by
  cases d <;> cases d' <;> simp_all [shape, amount, UInt64.toNat_inj]

end AccountData

namespace AccountsDB

def lamportsAt (db : AccountsDB) (k : Pubkey) : ℕ := (db.load k).elim 0 fun a => a.lamports.toNat

theorem lamportsAt_of_load {db : AccountsDB} {k : Pubkey} {a : Account} (h : db.load k = some a) :
    db.lamportsAt k = a.lamports.toNat := by simp [lamportsAt, h]

theorem lamportsAt_of_none {db : AccountsDB} {k : Pubkey} (h : db.load k = none) :
    db.lamportsAt k = 0 := by simp [lamportsAt, h]

theorem lamportsAt_congr {db db' : AccountsDB} {k : Pubkey} (h : db.load k = db'.load k) :
    db.lamportsAt k = db'.lamportsAt k := by simp only [lamportsAt, h]

theorem supply_store (db : AccountsDB) (k : Pubkey) (a : Account) :
    (db.store k a).supply + db.lamportsAt k = db.supply + a.lamports.toNat :=
  Table.total_insert _ db.index k a

theorem supply_store_store (db : AccountsDB) {k j : Pubkey} (a b : Account) (h : j ≠ k) :
    ((db.store k a).store j b).supply + (db.lamportsAt k + db.lamportsAt j) =
      db.supply + (a.lamports.toNat + b.lamports.toNat) :=
  Table.total_insert_insert _ db.index a b h

theorem supply_rewrite {db : AccountsDB} {k j : Pubkey} {a b a' b' : Account} (h : j ≠ k)
    (ha : db.load k = some a) (hb : db.load j = some b) (hla : a'.lamports = a.lamports)
    (hlb : b'.lamports = b.lamports) : ((db.store k a').store j b').supply = db.supply := by
  have hstore := supply_store_store db a' b' h
  rw [lamportsAt_of_load ha, lamportsAt_of_load hb, hla, hlb] at hstore
  omega

end AccountsDB

end TrustNode.Accounts

namespace TrustNode.ProgramExecutor

open TrustNode.Accounts

structure Moved (signer k : Pubkey) (credit : ℕ) (delta : ℤ) (a a' : Account) : Prop where
  executable : a'.executable = a.executable
  rentEpoch : a'.rentEpoch = a.rentEpoch
  shape : a'.data.shape = a.data.shape
  amount : (a'.data.amount : ℤ) = a.data.amount + delta
  owner : a'.owner ≠ a.owner → k = signer ∧ a.owner = systemProgramId
  lamports : k ≠ signer → a'.lamports.toNat = a.lamports.toNat + credit
  spend : ∀ mint authority n, a.data = .token mint authority n →
    a'.data.amount < a.data.amount → authority = signer
  issue : ∀ authority n, a.data = .mint authority n →
    a.data.amount < a'.data.amount → authority = signer

namespace Moved

variable {signer k : Pubkey} {credit : ℕ} {delta : ℤ} {a a' : Account}

theorem of_lamports (a : Account) (lamports : UInt64)
    (h : k ≠ signer → lamports.toNat = a.lamports.toNat + credit) :
    Moved signer k credit 0 a { a with lamports := lamports } where
  executable := rfl
  rentEpoch := rfl
  shape := rfl
  amount := by simp
  owner := fun hne => absurd rfl hne
  lamports := h
  spend := fun _ _ _ _ hlt => absurd hlt (lt_irrefl _)
  issue := fun _ _ _ hlt => absurd hlt (lt_irrefl _)

theorem refl (signer k : Pubkey) (a : Account) : Moved signer k 0 0 a a :=
  of_lamports a a.lamports fun _ => rfl

theorem of_owner {a : Account} (howner : a.owner = systemProgramId) (owner : Pubkey) :
    Moved signer signer credit 0 a { a with owner := owner } where
  executable := rfl
  rentEpoch := rfl
  shape := rfl
  amount := by simp
  owner := fun _ => ⟨rfl, howner⟩
  lamports := fun h => absurd rfl h
  spend := fun _ _ _ _ hlt => absurd hlt (lt_irrefl _)
  issue := fun _ _ _ hlt => absurd hlt (lt_irrefl _)

theorem of_data {d : AccountData} (hshape : d.shape = a.data.shape)
    (hamount : (d.amount : ℤ) = a.data.amount + delta)
    (hspend : ∀ mint authority n, a.data = .token mint authority n →
      d.amount < a.data.amount → authority = signer)
    (hissue : ∀ authority n, a.data = .mint authority n →
      a.data.amount < d.amount → authority = signer) :
    Moved signer k 0 delta a { a with data := d } where
  executable := rfl
  rentEpoch := rfl
  shape := hshape
  amount := hamount
  owner := fun hne => absurd rfl hne
  lamports := fun _ => rfl
  spend := hspend
  issue := hissue

theorem of_token {mint authority : Pubkey} {n n' : UInt64} (hd : a.data = .token mint authority n)
    (hn : (n'.toNat : ℤ) = n.toNat + delta) (hauth : n' < n → authority = signer) :
    Moved signer k 0 delta a { a with data := .token mint authority n' } := by
  refine of_data ?_ ?_ ?_ ?_ <;> rw [hd]
  · rfl
  · exact hn
  · intro m b x hx hlt
    cases hx
    exact hauth (UInt64.lt_iff_toNat_lt.mpr hlt)
  · intro b x hx
    cases hx

theorem of_mint {authority : Pubkey} {n n' : UInt64} (hd : a.data = .mint authority n)
    (hn : (n'.toNat : ℤ) = n.toNat + delta) (hauth : n < n' → authority = signer) :
    Moved signer k 0 delta a { a with data := .mint authority n' } := by
  refine of_data ?_ ?_ ?_ ?_ <;> rw [hd]
  · rfl
  · exact hn
  · intro m b x hx
    cases hx
  · intro b x hx hlt
    cases hx
    exact hauth (UInt64.lt_iff_toNat_lt.mpr hlt)

section Amounts

variable {mint authority : Pubkey} {n n' amount : UInt64}

theorem credit_token (hd : a.data = .token mint authority n)
    (hn : n'.toNat = n.toNat + amount.toNat) :
    Moved signer k 0 amount.toNat a { a with data := .token mint authority n' } := by
  refine of_token hd (by omega) fun hlt => ?_
  rw [UInt64.lt_iff_toNat_lt] at hlt
  omega

theorem debit_token (hd : a.data = .token mint signer n) (hle : amount ≤ n) :
    Moved signer k 0 (-amount.toNat) a { a with data := .token mint signer (n - amount) } := by
  have hle' := UInt64.le_iff_toNat_le.mp hle
  refine of_token hd ?_ fun _ => rfl
  rw [UInt64.toNat_sub_of_le _ _ hle]
  omega

theorem credit_mint (hd : a.data = .mint signer n) (hn : n'.toNat = n.toNat + amount.toNat) :
    Moved signer k 0 amount.toNat a { a with data := .mint signer n' } :=
  of_mint hd (by omega) fun _ => rfl

theorem debit_mint (hd : a.data = .mint authority n) (hle : amount ≤ n) :
    Moved signer k 0 (-amount.toNat) a { a with data := .mint authority (n - amount) } := by
  have hle' := UInt64.le_iff_toNat_le.mp hle
  refine of_mint hd ?_ fun hlt => ?_
  · rw [UInt64.toNat_sub_of_le _ _ hle]
    omega
  · rw [UInt64.lt_iff_toNat_lt, UInt64.toNat_sub_of_le _ _ hle] at hlt
    omega

end Amounts

theorem token_of_shape {d d' : AccountData} {mint authority : Pubkey} {n : UInt64}
    (h : d'.shape = d.shape) (hd : d = .token mint authority n) :
    ∃ n', d' = .token mint authority n' := by
  subst hd
  cases d' <;> simp_all [AccountData.shape]

theorem mint_of_shape {d d' : AccountData} {authority : Pubkey} {n : UInt64}
    (h : d'.shape = d.shape) (hd : d = .mint authority n) : ∃ n', d' = .mint authority n' := by
  subst hd
  cases d' <;> simp_all [AccountData.shape]

theorem trans {credit' : ℕ} {delta' : ℤ} {a'' : Account} (h : Moved signer k credit delta a a')
    (h' : Moved signer k credit' delta' a' a'') :
    Moved signer k (credit + credit') (delta + delta') a a'' where
  executable := h'.executable.trans h.executable
  rentEpoch := h'.rentEpoch.trans h.rentEpoch
  shape := h'.shape.trans h.shape
  amount := by rw [h'.amount, h.amount, add_assoc]
  owner := by
    intro hne
    by_cases hfst : a'.owner = a.owner
    · rw [← hfst] at hne ⊢
      exact h'.owner hne
    · exact h.owner hfst
  lamports := fun hk => by rw [h'.lamports hk, h.lamports hk, add_assoc]
  spend := by
    intro mint authority n hd hlt
    obtain ⟨n', hd'⟩ := token_of_shape h.shape hd
    rcases lt_or_ge a'.data.amount a.data.amount with hfst | hfst
    · exact h.spend mint authority n hd hfst
    · exact h'.spend mint authority n' hd' (lt_of_lt_of_le hlt hfst)
  issue := by
    intro authority n hd hlt
    obtain ⟨n', hd'⟩ := mint_of_shape h.shape hd
    rcases lt_or_ge a.data.amount a'.data.amount with hfst | hfst
    · exact h.issue authority n hd hfst
    · exact h'.issue authority n' hd' (lt_of_le_of_lt hfst hlt)

theorem eq_iff (h : Moved signer k credit delta a a') (hk : k ≠ signer) :
    a' = a ↔ credit = 0 ∧ delta = 0 := by
  have hlamports := h.lamports hk
  have hamount := h.amount
  constructor
  · rintro rfl
    omega
  · rintro ⟨rfl, rfl⟩
    have hl : a'.lamports = a.lamports := UInt64.toNat_inj.mp (by omega)
    have hd : a'.data = a.data := AccountData.ext_amount h.shape (by omega)
    have he := h.executable
    have hr := h.rentEpoch
    have ho : a'.owner = a.owner := by_contra fun hne => hk (h.owner hne).1
    cases a
    cases a'
    simp_all

end Moved

def keyAt (ix : Instruction) (keys : List Pubkey) (i : ℕ) : Option Pubkey :=
  ix.accountMetas[i]?.bind fun m => keys[m.index]?

namespace Instruction

def systemOp (ix : Instruction) : Option SystemInstruction :=
  if ix.programId = systemProgramId then (SystemInstruction.fromData ix.data).toOption else none

def tokenOp (ix : Instruction) : Option TokenInstruction :=
  if ix.programId = tokenProgramId then (TokenInstruction.fromData ix.data).toOption else none

end Instruction

section Static

variable (ix : Instruction) (signer : Pubkey) (keys : List Pubkey)

def credit (k : Pubkey) : ℕ :=
  match ix.systemOp with
  | some (.transfer lamports) => if keyAt ix keys 1 = some k then lamports.toNat else 0
  | some (.createAccount lamports _ _) =>
      if keyAt ix keys 1 = some k then lamports.toNat + minimumRentExemptBalance.toNat else 0
  | _ => 0

def delta (k : Pubkey) : ℤ :=
  let at0 (n : ℤ) : ℤ := if keyAt ix keys 0 = some k then n else 0
  let at1 (n : ℤ) : ℤ := if keyAt ix keys 1 = some k then n else 0
  match ix.tokenOp with
  | some (.transfer amount) => at0 (-amount.toNat) + at1 amount.toNat
  | some (.mintTo amount) => at0 amount.toNat + at1 amount.toNat
  | some (.burn amount) => at0 (-amount.toNat) + at1 (-amount.toNat)
  | _ => 0

def targets : List Pubkey :=
  (match ix.systemOp with
    | some (.transfer _) => signer :: (keyAt ix keys 1).toList
    | some (.createAccount _ _ _) => signer :: (keyAt ix keys 1).toList
    | some (.assign _) => [signer]
    | _ => []) ++
  (match ix.tokenOp with
    | some .initializeMint => [signer]
    | some (.initializeAccount _) => (keyAt ix keys 1).toList
    | some _ => (keyAt ix keys 0).toList ++ (keyAt ix keys 1).toList
    | none => [])

end Static

theorem mem_targets {ix : Instruction} {signer : Pubkey} {keys : List Pubkey} {k : Pubkey}
    (hk : k ∈ targets ix signer keys) : k = signer ∨ ∃ i, keyAt ix keys i = some k := by
  rcases List.mem_append.mp hk with hk | hk
  · split at hk <;> simp at hk
    · exact hk.imp_right fun h => ⟨1, h⟩
    · exact hk.imp_right fun h => ⟨1, h⟩
    · exact .inl hk
  · split at hk <;> simp at hk
    · exact .inl hk
    · exact .inr ⟨1, hk⟩
    · exact .inr (hk.elim (fun h => ⟨0, h⟩) fun h => ⟨1, h⟩)

section Ops

variable {ix : Instruction}

theorem systemOp_of_system {op : SystemInstruction} (hprog : ix.programId = systemProgramId)
    (hop : SystemInstruction.fromData ix.data = .ok op) :
    ix.systemOp = some op ∧ ix.tokenOp = none := by
  have hne : systemProgramId ≠ tokenProgramId := by decide
  simp [Instruction.systemOp, Instruction.tokenOp, hprog, hop, Except.toOption, hne]

theorem tokenOp_of_token {op : TokenInstruction} (hprog : ix.programId = tokenProgramId)
    (hop : TokenInstruction.fromData ix.data = .ok op) :
    ix.systemOp = none ∧ ix.tokenOp = some op := by
  have hne : tokenProgramId ≠ systemProgramId := by decide
  simp [Instruction.systemOp, Instruction.tokenOp, hprog, hop, Except.toOption, hne]

end Ops

section KeyAt

variable {ix : Instruction} {m0 m1 : AccountMeta} {rest : List AccountMeta}

theorem keyAt_zero (keys : List Pubkey) (h : ix.accountMetas = m0 :: rest) :
    keyAt ix keys 0 = keys[m0.index]? := by
  simp [keyAt, h]

theorem keyAt_one (keys : List Pubkey) (h : ix.accountMetas = m0 :: m1 :: rest) :
    keyAt ix keys 1 = keys[m1.index]? := by
  simp [keyAt, h]

end KeyAt

theorem mint_ne_holder {db : AccountsDB} {m k mint authority holder : Pubkey} {a b : Account}
    {supply balance : UInt64} (ha : db.load m = some a) (hb : db.load k = some b)
    (hm : a.data = .mint authority supply) (ht : b.data = .token mint holder balance) : m ≠ k := by
  rintro rfl
  rw [Option.some.inj (ha.symm.trans hb), ht] at hm
  cases hm

def rent : TokenInstruction → ℕ
  | .initializeMint => minimumRentExemptBalance.toNat
  | _ => 0

namespace Applies

variable {ix : Instruction} {signer : Pubkey} {keys : List Pubkey} {db db' : AccountsDB}

theorem moved_of_system {op : SystemInstruction} (hs : ix.systemOp = some op)
    (ht : ix.tokenOp = none) (h : SystemApplies ix.accountMetas signer keys db op db') {k : Pubkey}
    {a : Account} (ha : db.load k = some a) :
    ∃ a', db'.load k = some a' ∧ Moved signer k (credit ix keys k) (delta ix keys k) a a' := by
  cases h with
  | @transfer lamports credited _ _ _ dest src dst hmetas hfrom hto hsrc hfunds hdst hcredit =>
    simp only [credit, delta, hs, ht, keyAt_one keys hmetas, hto, Option.some.injEq]
    refine AccountsDB.exists_load_store_store ha ?_ ?_ ?_
    · rintro rfl
      obtain rfl : dst = a := by rw [hdst, ha]; rfl
      simp only [if_true]
      exact .of_lamports dst credited fun _ => hcredit
    · rintro hk rfl
      obtain rfl := Option.some.inj (hsrc.symm.trans ha)
      simp only [Ne.symm hk, if_false]
      exact .of_lamports src _ fun h => absurd rfl h
    · intro hk _
      simp only [Ne.symm hk, if_false]
      exact .refl signer k a
  | @createAccount _ _ _ _ _ _ _ key payer hmetas hpayer hkey hfresh hload hsum hfunds =>
    have hk := AccountsDB.ne_of_load hfresh ha
    simp only [credit, delta, hs, ht, keyAt_one keys hmetas, hkey, Option.some.injEq, hk, if_false]
    refine AccountsDB.exists_load_store_store ha (fun he => absurd he.symm hk) ?_ ?_
    · rintro - rfl
      obtain rfl := Option.some.inj (hload.symm.trans ha)
      exact .of_lamports payer _ fun h => absurd rfl h
    · intro _ _
      exact .refl signer k a
  | @assign owner _ _ account hmetas hkey hload howner =>
    simp only [credit, delta, hs, ht]
    refine AccountsDB.exists_load_store ha ?_ fun _ => .refl signer k a
    rintro rfl
    obtain rfl := Option.some.inj (hload.symm.trans ha)
    exact .of_owner howner owner

theorem moved_of_stores {first second k : Pubkey} {x y x' y' a : Account} {d e : ℤ}
    (hne : first ≠ second) (hx : db.load first = some x) (hy : db.load second = some y)
    (hfirst : Moved signer first 0 d x x') (hsecond : Moved signer second 0 e y y')
    (ha : db.load k = some a) :
    ∃ a', ((db.store first x').store second y').load k = some a' ∧
      Moved signer k 0 ((if first = k then d else 0) + if second = k then e else 0) a a' := by
  refine AccountsDB.exists_load_store_store ha ?_ ?_ ?_
  · rintro rfl
    obtain rfl := Option.some.inj (hy.symm.trans ha)
    simpa only [if_true, hne, if_false, zero_add] using hsecond
  · rintro hk rfl
    obtain rfl := Option.some.inj (hx.symm.trans ha)
    simpa only [if_true, Ne.symm hk, if_false, add_zero] using hfirst
  · intro hk hkf
    simp only [Ne.symm hk, Ne.symm hkf, if_false, add_zero]
    exact .refl signer k a

theorem moved_of_token {op : TokenInstruction} (hs : ix.systemOp = none)
    (ht : ix.tokenOp = some op) (h : TokenApplies ix.accountMetas signer keys db op db')
    {k : Pubkey} {a : Account} (ha : db.load k = some a) :
    ∃ a', db'.load k = some a' ∧ Moved signer k (credit ix keys k) (delta ix keys k) a a' := by
  cases h with
  | initializeMint hmetas hkey hfresh =>
    have hk := (AccountsDB.ne_of_load hfresh ha).symm
    simp only [credit, delta, hs, ht, AccountsDB.load_store_of_ne _ _ hk]
    exact ⟨a, ha, .refl signer k a⟩
  | @initializeAccount _ key _ _ _ _ _ _ _ hmetas hmint hkey howner hload howned hdata hfresh =>
    have hk := (AccountsDB.ne_of_load hfresh ha).symm
    simp only [credit, delta, hs, ht, AccountsDB.load_store_of_ne _ _ hk]
    exact ⟨a, ha, .refl signer k a⟩
  | transfer hmetas hfrom hto hne hsrc hdst hsd hdd hfunds hcredit =>
    simp only [credit, delta, hs, ht, keyAt_zero keys hmetas, keyAt_one keys hmetas, hfrom, hto,
      Option.some.injEq]
    exact moved_of_stores hne hsrc hdst (.debit_token hsd hfunds) (.credit_token hdd hcredit) ha
  | mintTo hmetas hmint hkey hload hdst hmd hdd hsupply hbalance =>
    simp only [credit, delta, hs, ht, keyAt_zero keys hmetas, keyAt_one keys hmetas, hmint, hkey,
      Option.some.injEq]
    exact moved_of_stores (mint_ne_holder hload hdst hmd hdd) hload hdst
      (.credit_mint hmd hsupply) (.credit_token hdd hbalance) ha
  | burn hmetas hmint hkey hload hsrc hmd hsd hbalance hsupply =>
    simp only [credit, delta, hs, ht, keyAt_zero keys hmetas, keyAt_one keys hmetas, hmint, hkey,
      Option.some.injEq]
    exact moved_of_stores (mint_ne_holder hload hsrc hmd hsd) hload hsrc
      (.debit_mint hmd hsupply) (.debit_token hsd hbalance) ha

theorem moved (h : Applies ix signer keys db db') {k : Pubkey} {a : Account}
    (ha : db.load k = some a) :
    ∃ a', db'.load k = some a' ∧ Moved signer k (credit ix keys k) (delta ix keys k) a a' := by
  cases h with
  | system hprog hop h =>
    obtain ⟨hs, ht⟩ := systemOp_of_system hprog hop
    exact moved_of_system hs ht h ha
  | token hprog hop h =>
    obtain ⟨hs, ht⟩ := tokenOp_of_token hprog hop
    exact moved_of_token hs ht h ha

theorem writes (h : Applies ix signer keys db db') :
    ∃ updates, updates.map Prod.fst = targets ix signer keys ∧ db' = db.applyBatch updates := by
  cases h with
  | system hprog hop h =>
    obtain ⟨hs, ht⟩ := systemOp_of_system hprog hop
    cases h with
    | transfer hmetas hfrom hto hsrc hfunds hdst hcredit =>
      exact ⟨[(_, _), (_, _)], by simp [targets, hs, ht, keyAt_one keys hmetas, hto], rfl⟩
    | createAccount hmetas hpayer hkey hfresh hload hsum hfunds =>
      exact ⟨[(_, _), (_, _)], by simp [targets, hs, ht, keyAt_one keys hmetas, hkey], rfl⟩
    | assign hmetas hkey hload howner => exact ⟨[(_, _)], by simp [targets, hs, ht], rfl⟩
  | token hprog hop h =>
    obtain ⟨hs, ht⟩ := tokenOp_of_token hprog hop
    cases h with
    | initializeMint hmetas hkey hfresh => exact ⟨[(_, _)], by simp [targets, hs, ht], rfl⟩
    | initializeAccount hmetas hmint hkey howner hload howned hdata hfresh =>
      exact ⟨[(_, _)], by simp [targets, hs, ht, keyAt_one keys hmetas, hkey], rfl⟩
    | transfer hmetas hfrom hto hne hsrc hdst hsd hdd hfunds hcredit =>
      exact ⟨[(_, _), (_, _)], by simp [targets, hs, ht, keyAt_zero keys hmetas,
        keyAt_one keys hmetas, hfrom, hto], rfl⟩
    | mintTo hmetas hmint hkey hload hdst hmd hdd hsupply hbalance =>
      exact ⟨[(_, _), (_, _)], by simp [targets, hs, ht, keyAt_zero keys hmetas,
        keyAt_one keys hmetas, hmint, hkey], rfl⟩
    | burn hmetas hmint hkey hload hsrc hmd hsd hbalance hsupply =>
      exact ⟨[(_, _), (_, _)], by simp [targets, hs, ht, keyAt_zero keys hmetas,
        keyAt_one keys hmetas, hmint, hkey], rfl⟩

theorem load_of_not_target (h : Applies ix signer keys db db') {k : Pubkey}
    (hk : k ∉ targets ix signer keys) : db'.load k = db.load k := by
  obtain ⟨updates, hkeys, rfl⟩ := h.writes
  exact AccountsDB.load_applyBatch_of_notMem db updates (hkeys ▸ hk)

theorem load_of_target (h : Applies ix signer keys db db') {k : Pubkey}
    (hk : k ∈ targets ix signer keys) : ∃ a, db'.load k = some a := by
  obtain ⟨updates, hkeys, rfl⟩ := h.writes
  exact AccountsDB.load_applyBatch_of_mem db updates (hkeys ▸ hk)

theorem supply_of_system {op : SystemInstruction} (hs : ix.systemOp = some op)
    (h : SystemApplies ix.accountMetas signer keys db op db') :
    db'.supply = db.supply + credit ix keys signer := by
  cases h with
  | @transfer lamports credited _ _ _ dest src dst hmetas hfrom hto hsrc hfunds hdst hcredit =>
    have hle := UInt64.le_iff_toNat_le.mp hfunds
    have hfrom' := AccountsDB.lamportsAt_of_load hsrc
    simp only [credit, hs, keyAt_one keys hmetas, hto, Option.some.injEq]
    by_cases hd : dest = signer
    · subst hd
      obtain rfl : dst = src := by rw [hdst, hsrc]; rfl
      have hstore := db.supply_store dest { dst with lamports := credited }
      simp only [AccountsDB.store_store, if_true] at hstore ⊢
      omega
    · have hto' : db.lamportsAt dest = dst.lamports.toNat := by
        rw [hdst, AccountsDB.lamportsAt]
        cases db.load dest <;> rfl
      have hstore := db.supply_store_store { src with lamports := src.lamports - lamports }
        { dst with lamports := credited } hd
      simp only [UInt64.toNat_sub_of_le _ _ hfunds, hd, if_false] at hstore ⊢
      omega
  | @createAccount lamports space newLamports owner _ _ _ key payer hmetas hpayer hkey hfresh hload
      hsum hfunds =>
    have hle := UInt64.le_iff_toNat_le.mp hfunds
    have hpayer' := AccountsDB.lamportsAt_of_load hload
    have hkey' := AccountsDB.lamportsAt_of_none hfresh
    have hne := AccountsDB.ne_of_load hfresh hload
    have hstore := db.supply_store_store { payer with lamports := payer.lamports - newLamports }
      { lamports := newLamports, owner := owner, executable := false, rentEpoch := 0,
        data := .data (List.replicate space.toNat 0) } hne
    simp only [UInt64.toNat_sub_of_le _ _ hfunds, credit, hs, keyAt_one keys hmetas, hkey,
      Option.some.injEq, hne, if_false] at hstore ⊢
    omega
  | @assign owner _ _ account hmetas hkey hload howner =>
    have hstore := db.supply_store signer { account with owner := owner }
    have hload' := AccountsDB.lamportsAt_of_load hload
    simp only [credit, hs] at hstore ⊢
    omega

theorem supply_of_token {op : TokenInstruction}
    (h : TokenApplies ix.accountMetas signer keys db op db') :
    db'.supply = db.supply + rent op := by
  cases h with
  | initializeMint hmetas hkey hfresh =>
    have hstore := db.supply_store signer (Account.newMint signer signer)
    rw [AccountsDB.lamportsAt_of_none hfresh] at hstore
    exact hstore
  | @initializeAccount mint key _ _ _ _ _ _ _ hmetas hmint hkey howner hload howned hdata hfresh =>
    have hstore := db.supply_store key (Account.newTokenAccount key mint signer 0)
    rw [AccountsDB.lamportsAt_of_none hfresh] at hstore
    exact hstore
  | transfer hmetas hfrom hto hne hsrc hdst hsd hdd hfunds hcredit =>
    exact AccountsDB.supply_rewrite hne.symm hsrc hdst rfl rfl
  | mintTo hmetas hmint hkey hload hdst hmd hdd hsupply hbalance =>
    exact AccountsDB.supply_rewrite (mint_ne_holder hload hdst hmd hdd).symm hload hdst rfl rfl
  | burn hmetas hmint hkey hload hsrc hmd hsd hbalance hsupply =>
    exact AccountsDB.supply_rewrite (mint_ne_holder hload hsrc hmd hsd).symm hload hsrc rfl rfl

theorem rent_eq_zero {op : TokenInstruction} (h : TokenApplies ix.accountMetas signer keys db op db')
    {a : Account} (ha : db.load signer = some a) : rent op = 0 := by
  cases h with
  | initializeMint hmetas hkey hfresh => exact absurd rfl (AccountsDB.ne_of_load hfresh ha)
  | _ => rfl

theorem supply (h : Applies ix signer keys db db') {a : Account}
    (ha : db.load signer = some a) : db'.supply = db.supply + credit ix keys signer := by
  cases h with
  | system hprog hop h => exact supply_of_system (systemOp_of_system hprog hop).1 h
  | token hprog hop h =>
    rw [supply_of_token h, rent_eq_zero h ha, credit, (tokenOp_of_token hprog hop).1]

theorem absent_of_system {op : SystemInstruction} (hs : ix.systemOp = some op)
    (h : SystemApplies ix.accountMetas signer keys db op db') {k : Pubkey} (hk : k ≠ signer)
    (ha : db.load k = none) : db'.lamportsAt k = credit ix keys k := by
  cases h with
  | @transfer _ _ _ _ _ dest _ _ hmetas hfrom hto hsrc hfunds hdst hcredit =>
    by_cases hd : k = dest
    · subst hd
      rw [ha] at hdst
      subst hdst
      simp [AccountsDB.lamportsAt, credit, hs, keyAt_one keys hmetas, hto, hcredit,
        Account.newSystemAccount]
    · simp [AccountsDB.lamportsAt, AccountsDB.load_store, credit, hs, keyAt_one keys hmetas, hto,
        hd, Ne.symm hd, hk, ha]
  | @createAccount _ _ _ _ _ _ _ key _ hmetas hpayer hkey hfresh hload hsum hfunds =>
    by_cases hd : k = key
    · subst hd
      simp [AccountsDB.lamportsAt, credit, hs, keyAt_one keys hmetas, hkey, hsum]
    · simp [AccountsDB.lamportsAt, AccountsDB.load_store, credit, hs, keyAt_one keys hmetas, hkey,
        hd, Ne.symm hd, hk, ha]
  | assign hmetas hkey hload howner =>
    simp [AccountsDB.lamportsAt, AccountsDB.load_store, credit, hs, hk, ha]

theorem load_of_absent {first second k : Pubkey} {x y : Account} (hx : db.load first = some x)
    (hy : db.load second = some y) (ha : db.load k = none) (x' y' : Account) :
    ((db.store first x').store second y').load k = none := by
  have hfirst := AccountsDB.ne_of_load ha hx
  have hsecond := AccountsDB.ne_of_load ha hy
  rw [AccountsDB.load_store_of_ne _ _ hsecond, AccountsDB.load_store_of_ne _ _ hfirst, ha]

theorem absent_of_token {op : TokenInstruction}
    (h : TokenApplies ix.accountMetas signer keys db op db') {k : Pubkey} (hk : k ≠ signer)
    (ha : db.load k = none) : db'.lamportsAt k = 0 := by
  cases h with
  | initializeMint hmetas hkey hfresh =>
    simp [AccountsDB.lamportsAt, AccountsDB.load_store, hk, ha]
  | @initializeAccount _ key _ _ _ _ _ _ _ hmetas hmint hkey howner hload howned hdata hfresh =>
    by_cases hd : k = key <;>
      simp [AccountsDB.lamportsAt, AccountsDB.load_store, hd, ha, Account.newTokenAccount]
  | transfer hmetas hfrom hto hne hsrc hdst hsd hdd hfunds hcredit =>
    exact AccountsDB.lamportsAt_of_none (load_of_absent hsrc hdst ha _ _)
  | mintTo hmetas hmint hkey hload hdst hmd hdd hsupply hbalance =>
    exact AccountsDB.lamportsAt_of_none (load_of_absent hload hdst ha _ _)
  | burn hmetas hmint hkey hload hsrc hmd hsd hbalance hsupply =>
    exact AccountsDB.lamportsAt_of_none (load_of_absent hload hsrc ha _ _)

theorem lamportsAt_of_absent (h : Applies ix signer keys db db') {k : Pubkey} (hk : k ≠ signer)
    (ha : db.load k = none) : db'.lamportsAt k = credit ix keys k := by
  cases h with
  | system hprog hop h => exact absent_of_system (systemOp_of_system hprog hop).1 h hk ha
  | token hprog hop h =>
    rw [absent_of_token h hk ha, credit, (tokenOp_of_token hprog hop).1]

theorem lamportsAt (h : Applies ix signer keys db db') {k : Pubkey} (hk : k ≠ signer) :
    db'.lamportsAt k = db.lamportsAt k + credit ix keys k := by
  cases ha : db.load k with
  | none => rw [h.lamportsAt_of_absent hk ha, AccountsDB.lamportsAt_of_none ha, zero_add]
  | some a =>
    obtain ⟨a', ha', hm⟩ := h.moved ha
    rw [AccountsDB.lamportsAt_of_load ha', AccountsDB.lamportsAt_of_load ha, hm.lamports hk]

end Applies

end TrustNode.ProgramExecutor
