import TrustNode.Accounts.Refinement
import TrustNode.ProgramExecutor.Movement

namespace TrustNode.ProgramExecutor

open Word
open TrustNode.Accounts

section Writes

variable (ix : Instruction) (signer : Pubkey) (keys : List Pubkey) (db : AccountsDB)

def SystemInstruction.writes : SystemInstruction → Option (List Update)
  | .transfer lamports => do
    let src ← db.load signer
    let toPubkey ← keyAt ix keys 1
    let dst := (db.load toPubkey).getD (Account.newSystemAccount toPubkey 0)
    let credited ← checkedAdd dst.lamports lamports
    pure [.store signer { src with lamports := src.lamports - lamports },
      .store toPubkey { dst with lamports := credited }]
  | .createAccount lamports space owner => do
    let key ← keyAt ix keys 1
    let payer ← db.load signer
    let newLamports ← checkedAdd lamports minimumRentExemptBalance
    pure [.store signer { payer with lamports := payer.lamports - newLamports },
      .store key
        { lamports := newLamports, owner := owner, executable := false, rentEpoch := 0,
          data := .data (List.replicate space.toNat 0) }]
  | .assign owner => do
    let account ← db.load signer
    pure [.store signer { account with owner := owner }]
  | .nonceInitialize => none

def TokenInstruction.writes : TokenInstruction → Option (List Update)
  | .initializeMint => some [.store signer (Account.newMint signer signer)]
  | .initializeAccount mint => do
    let key ← keyAt ix keys 1
    pure [.store key (Account.newTokenAccount key mint signer 0)]
  | .transfer amount => do
    let fromKey ← keyAt ix keys 0
    let toKey ← keyAt ix keys 1
    let src ← db.load fromKey
    let dst ← db.load toKey
    let fromFields ← TokenProgram.tokenFields src.data
    let toFields ← TokenProgram.tokenFields dst.data
    let newTo ← checkedAdd toFields.2.2 amount
    pure [
      .store fromKey { src with data := TokenProgram.setAmount (fromFields.2.2 - amount) src.data },
      .store toKey { dst with data := TokenProgram.setAmount newTo dst.data }]
  | .mintTo amount => do
    let mintKey ← keyAt ix keys 0
    let destKey ← keyAt ix keys 1
    let mintAccount ← db.load mintKey
    let dst ← db.load destKey
    let minted ← TokenProgram.mintFields mintAccount.data
    let held ← TokenProgram.tokenFields dst.data
    let newSupply ← checkedAdd minted.2 amount
    let newBalance ← checkedAdd held.2.2 amount
    pure [
      .store mintKey { mintAccount with data := TokenProgram.setSupply newSupply mintAccount.data },
      .store destKey { dst with data := TokenProgram.setAmount newBalance dst.data }]
  | .burn amount => do
    let mintKey ← keyAt ix keys 0
    let tokenKey ← keyAt ix keys 1
    let mintAccount ← db.load mintKey
    let src ← db.load tokenKey
    let minted ← TokenProgram.mintFields mintAccount.data
    let held ← TokenProgram.tokenFields src.data
    pure [
      .store mintKey
        { mintAccount with data := TokenProgram.setSupply (minted.2 - amount) mintAccount.data },
      .store tokenKey { src with data := TokenProgram.setAmount (held.2.2 - amount) src.data }]

def writes : List Update :=
  ((ix.systemOp >>= SystemInstruction.writes ix signer keys db).or
    (ix.tokenOp >>= TokenInstruction.writes ix signer keys db)).getD []

end Writes

section Replayed

variable {ix : Instruction} {signer : Pubkey} {keys : List Pubkey} {db db' : AccountsDB}

theorem keyAt_zero_of_key {m : AccountMeta} {rest : List AccountMeta} {k : Pubkey}
    (hmetas : ix.accountMetas = m :: rest) (hkey : keys[m.index]? = some k) :
    keyAt ix keys 0 = some k := (keyAt_zero keys hmetas).trans hkey

theorem keyAt_one_of_key {m m' : AccountMeta} {rest : List AccountMeta} {k : Pubkey}
    (hmetas : ix.accountMetas = m :: m' :: rest) (hkey : keys[m'.index]? = some k) :
    keyAt ix keys 1 = some k := (keyAt_one keys hmetas).trans hkey

theorem bind_of_eq_some {α β : Type} {o : Option α} {a : α} (h : o = some a) (f : α → Option β) :
    o >>= f = f a := by
  rw [h]
  rfl

theorem SystemApplies.writes {op : SystemInstruction}
    (h : SystemApplies ix.accountMetas signer keys db op db') :
    (op.writes ix signer keys db).map (applyUpdates db) = some db' := by
  cases h with
  | transfer hmetas hfrom hto hsrc hfunds hdst hcredit =>
    subst hdst
    rw [SystemInstruction.writes, bind_of_eq_some hsrc, bind_of_eq_some (keyAt_one_of_key hmetas hto),
      bind_of_eq_some (checkedAdd_eq_some.mpr hcredit)]
    rfl
  | createAccount hmetas hpayer hkey hfresh hload hsum hfunds =>
    rw [SystemInstruction.writes, bind_of_eq_some (keyAt_one_of_key hmetas hkey), bind_of_eq_some hload,
      bind_of_eq_some (checkedAdd_eq_some.mpr hsum)]
    rfl
  | assign hmetas hkey hload howner =>
    rw [SystemInstruction.writes, bind_of_eq_some hload]
    rfl

theorem TokenApplies.writes {op : TokenInstruction}
    (h : TokenApplies ix.accountMetas signer keys db op db') :
    (op.writes ix signer keys db).map (applyUpdates db) = some db' := by
  cases h with
  | initializeMint => rfl
  | initializeAccount hmetas hmint hkey =>
    rw [TokenInstruction.writes, bind_of_eq_some (keyAt_one_of_key hmetas hkey)]
    rfl
  | transfer hmetas hfrom hto hne hsrc hdst hsd hdd hfunds hcredit =>
    rw [TokenInstruction.writes, bind_of_eq_some (keyAt_zero_of_key hmetas hfrom),
      bind_of_eq_some (keyAt_one_of_key hmetas hto), bind_of_eq_some hsrc, bind_of_eq_some hdst,
      bind_of_eq_some (TokenProgram.tokenFields_eq_some.mpr hsd),
      bind_of_eq_some (TokenProgram.tokenFields_eq_some.mpr hdd),
      bind_of_eq_some (checkedAdd_eq_some.mpr hcredit), hsd, hdd]
    rfl
  | mintTo hmetas hmint hkey hload hdst hmd hdd hsupply hbalance =>
    rw [TokenInstruction.writes, bind_of_eq_some (keyAt_zero_of_key hmetas hmint),
      bind_of_eq_some (keyAt_one_of_key hmetas hkey), bind_of_eq_some hload, bind_of_eq_some hdst,
      bind_of_eq_some (TokenProgram.mintFields_eq_some.mpr hmd),
      bind_of_eq_some (TokenProgram.tokenFields_eq_some.mpr hdd),
      bind_of_eq_some (checkedAdd_eq_some.mpr hsupply),
      bind_of_eq_some (checkedAdd_eq_some.mpr hbalance), hmd, hdd]
    rfl
  | burn hmetas hmint hkey hload hsrc hmd hsd hbalance hsupply =>
    rw [TokenInstruction.writes, bind_of_eq_some (keyAt_zero_of_key hmetas hmint),
      bind_of_eq_some (keyAt_one_of_key hmetas hkey), bind_of_eq_some hload, bind_of_eq_some hsrc,
      bind_of_eq_some (TokenProgram.mintFields_eq_some.mpr hmd),
      bind_of_eq_some (TokenProgram.tokenFields_eq_some.mpr hsd), hmd, hsd]
    rfl

theorem Applies.applyUpdates_writes (h : Applies ix signer keys db db') :
    applyUpdates db (ProgramExecutor.writes ix signer keys db) = db' := by
  cases h with
  | system hprog hop h =>
    obtain ⟨hsystem, -⟩ := systemOp_of_system hprog hop
    obtain ⟨updates, hwrites, happly⟩ := Option.map_eq_some_iff.mp h.writes
    rw [ProgramExecutor.writes, bind_of_eq_some hsystem, hwrites]
    exact happly
  | token hprog hop h =>
    obtain ⟨hsystem, htoken⟩ := tokenOp_of_token hprog hop
    obtain ⟨updates, hwrites, happly⟩ := Option.map_eq_some_iff.mp h.writes
    rw [ProgramExecutor.writes, hsystem, bind_of_eq_some htoken, hwrites]
    exact happly

end Replayed

end TrustNode.ProgramExecutor
