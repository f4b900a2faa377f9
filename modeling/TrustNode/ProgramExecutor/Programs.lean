import TrustNode.Base.Exec
import TrustNode.Base.Word
import TrustNode.Accounts.Store
import TrustNode.ProgramExecutor.Instruction

namespace TrustNode.ProgramExecutor

open Exec Word
open TrustNode.Accounts

structure ComputeBudget where
  max : UInt64
  consumed : UInt64
deriving DecidableEq

def ComputeBudget.new (max : UInt64) : ComputeBudget := ⟨max, 0⟩

structure ProgramState where
  accounts : AccountsDB
  budget : ComputeBudget
  logs : List String

abbrev Program := Exec ProgramState InstructionError

def consume (units : UInt64) : Program Unit := fun s =>
  let budget := { s.budget with consumed := s.budget.consumed + units }
  if budget.max < budget.consumed then
    (.error .insufficientComputeUnits, { s with budget := budget })
  else (.ok (), { s with budget := budget })

def load (key : Pubkey) : Program (Option Account) := read fun s => s.accounts.load key

def accountExists (key : Pubkey) : Program Bool := read fun s => s.accounts.exists key

def store (key : Pubkey) (account : Account) : Program Unit :=
  update fun s => { s with accounts := s.accounts.store key account }

def log (msg : String) : Program Unit := update fun s => { s with logs := s.logs ++ [msg] }

namespace SystemProgram

def maxPermittedDataLength : UInt64 := 10 * 1024 * 1024

def processTransfer (lamports : UInt64) (metas : List AccountMeta) (signer : Pubkey)
    (keys : List Pubkey) : Program Unit := do
  consume 150
  match metas with
  | fromMeta :: toMeta :: _ => do
    let fromPubkey ← ofExcept (requireSigner fromMeta signer keys)
    let fromAccount ← okOr (← load fromPubkey) .accountNotFound
    if fromAccount.lamports < lamports then
      fail (.insufficientFunds lamports fromAccount.lamports)
    else do
      let toPubkey ← ofExcept (resolveAccountKey toMeta.index keys)
      let toAccount := (← load toPubkey).getD (Account.newSystemAccount toPubkey 0)
      let credited ← okOr (checkedAdd toAccount.lamports lamports) .arithmeticOverflow
      store fromPubkey { fromAccount with lamports := fromAccount.lamports - lamports }
      store toPubkey { toAccount with lamports := credited }
      let src := fromPubkey.hex 8
      let dst := toPubkey.hex 8
      log s!"Transfer: {lamports} lamports from {src} to {dst}"
  | _ => fail (.invalidInstructionData "Transfer requires 2 accounts")

def processCreateAccount (lamports space : UInt64) (owner : Pubkey) (metas : List AccountMeta)
    (signer : Pubkey) (keys : List Pubkey) : Program Unit := do
  consume 200
  match metas with
  | payerMeta :: newAccountMeta :: _ => do
    let payerPubkey ← ofExcept (requireSigner payerMeta signer keys)
    let newAccountPubkey ← ofExcept (resolveAccountKey newAccountMeta.index keys)
    if maxPermittedDataLength < space then
      fail (.dataSizeTooLarge space maxPermittedDataLength)
    else if ← accountExists newAccountPubkey then
      fail (.programError "Account already exists")
    else do
      let payer ← okOr (← load payerPubkey) .accountNotFound
      let newLamports ← okOr (checkedAdd lamports minimumRentExemptBalance) .arithmeticOverflow
      if payer.lamports < newLamports then
        fail (.insufficientFunds newLamports payer.lamports)
      else do
        store payerPubkey { payer with lamports := payer.lamports - newLamports }
        store newAccountPubkey
          { lamports := newLamports, owner := owner, executable := false, rentEpoch := 0,
            data := .data (List.replicate space.toNat 0) }
        let key := newAccountPubkey.hex 8
        let ownerHex := owner.hex 8
        log s!"CreateAccount: {key} ({lamports} lamports, {space} bytes) owned by {ownerHex}"
  | _ => fail (.invalidInstructionData "CreateAccount requires 2 accounts")

def processAssign (owner : Pubkey) (metas : List AccountMeta) (signer : Pubkey)
    (keys : List Pubkey) : Program Unit := do
  consume 100
  match metas with
  | acct :: _ => do
    let accountPubkey ← ofExcept (requireSigner acct signer keys)
    let account ← okOr (← load accountPubkey) .accountNotFound
    if account.owner ≠ Bytes32.splat 1 then fail .invalidAccountOwner
    else do
      store accountPubkey { account with owner := owner }
      let key := accountPubkey.hex 8
      let ownerHex := owner.hex 8
      log s!"Assign: {key} to {ownerHex}"
  | [] => fail (.invalidInstructionData "Assign requires 1 account")

def processInstruction (data : Bytes) (metas : List AccountMeta) (signer : Pubkey)
    (keys : List Pubkey) : Program Unit := do
  match ← ofExcept (SystemInstruction.fromData data) with
  | .transfer lamports => processTransfer lamports metas signer keys
  | .createAccount lamports space owner =>
    processCreateAccount lamports space owner metas signer keys
  | .assign owner => processAssign owner metas signer keys
  | .nonceInitialize => do
    log "NonceInitialize: durable nonce accounts are not implemented"
    fail (.invalidInstructionData "nonce accounts are not implemented")

end SystemProgram

namespace TokenProgram

def loadOwned (key : Pubkey) : Program Account := do
  let account ← okOr (← load key) .accountNotFound
  if account.owner ≠ tokenProgramId then fail .invalidAccountOwner
  else pure account

def processInitializeMint (metas : List AccountMeta) (signer : Pubkey) (keys : List Pubkey) :
    Program Unit := do
  consume 300
  let acct ← okOr metas.head? (.invalidInstructionData "InitializeMint requires 1 account")
  let mintKey ← ofExcept (resolveAccountKey acct.index keys)
  if mintKey ≠ signer then fail .incorrectAuthority
  else if ← accountExists mintKey then fail (.programError "Mint already exists")
  else do
    store mintKey (Account.newMint mintKey signer)
    let key := mintKey.hex 8
    let authority := signer.hex 8
    log s!"Token: InitializeMint {key} authority {authority}"

def isMint : AccountData → Bool
  | .mint _ _ => true
  | _ => false

def processInitializeAccount (mint : Pubkey) (metas : List AccountMeta) (signer : Pubkey)
    (keys : List Pubkey) : Program Unit := do
  consume 300
  match metas with
  | mintMeta :: newMeta :: ownerMeta :: _ => do
    let mintKey ← ofExcept (resolveAccountKey mintMeta.index keys)
    let newKey ← ofExcept (resolveAccountKey newMeta.index keys)
    let ownerKey ← ofExcept (resolveAccountKey ownerMeta.index keys)
    if mintKey ≠ mint then fail .mintMismatch
    else if ownerKey ≠ signer then fail .incorrectAuthority
    else do
      let mintAccount ← loadOwned mintKey
      if isMint mintAccount.data = false then fail .mintMismatch
      else if ← accountExists newKey then fail (.programError "Token account already exists")
      else do
        store newKey (Account.newTokenAccount newKey mintKey ownerKey 0)
        let key := newKey.hex 8
        let mintHex := mintKey.hex 8
        let ownerHex := ownerKey.hex 8
        log s!"Token: InitializeAccount {key} for mint {mintHex} owner {ownerHex}"
  | _ =>
    fail (.invalidInstructionData "InitializeAccount requires 3 accounts (mint, account, owner)")

def tokenFields : AccountData → Option (Pubkey × Pubkey × UInt64)
  | .token mint authority amount => some (mint, authority, amount)
  | _ => none

def mintFields : AccountData → Option (Pubkey × UInt64)
  | .mint authority supply => some (authority, supply)
  | _ => none

def setAmount (amount : UInt64) : AccountData → AccountData
  | .token mint authority _ => .token mint authority amount
  | d => d

def setSupply (supply : UInt64) : AccountData → AccountData
  | .mint authority _ => .mint authority supply
  | d => d

def processTokenTransfer (amount : UInt64) (metas : List AccountMeta) (signer : Pubkey)
    (keys : List Pubkey) : Program Unit := do
  consume 200
  match metas with
  | fromMeta :: toMeta :: _ => do
    let fromKey ← ofExcept (resolveAccountKey fromMeta.index keys)
    let toKey ← ofExcept (resolveAccountKey toMeta.index keys)
    if fromKey = toKey then fail (.invalidInstructionData "Source and destination must differ")
    else do
      let fromAccount ← loadOwned fromKey
      let toAccount ← loadOwned toKey
      let (fromMint, fromAuthority, fromBalance) ← okOr (tokenFields fromAccount.data) .mintMismatch
      if fromAuthority ≠ signer then fail .incorrectAuthority
      else do
        let (toMint, _, toBalance) ← okOr (tokenFields toAccount.data) .mintMismatch
        if fromMint ≠ toMint then fail .mintMismatch
        else if fromBalance < amount then fail (.insufficientFunds amount fromBalance)
        else do
          let newFrom ← okOr (checkedSub fromBalance amount) (.insufficientFunds amount fromBalance)
          let newTo ← okOr (checkedAdd toBalance amount) .arithmeticOverflow
          store fromKey { fromAccount with data := setAmount newFrom fromAccount.data }
          store toKey { toAccount with data := setAmount newTo toAccount.data }
          let src := fromKey.hex 8
          let dst := toKey.hex 8
          log s!"Token: Transfer {amount} tokens from {src} to {dst}"
  | _ => fail (.invalidInstructionData "Transfer requires 2 accounts")

def processMintTo (amount : UInt64) (metas : List AccountMeta) (signer : Pubkey)
    (keys : List Pubkey) : Program Unit := do
  consume 200
  match metas with
  | mintMeta :: destMeta :: _ => do
    let mintKey ← ofExcept (resolveAccountKey mintMeta.index keys)
    let destKey ← ofExcept (resolveAccountKey destMeta.index keys)
    let mintAccount ← loadOwned mintKey
    let (mintAuthority, supply) ← okOr (mintFields mintAccount.data) .mintMismatch
    if mintAuthority ≠ signer then fail .incorrectAuthority
    else do
      let destAccount ← loadOwned destKey
      let (destMint, _, destBalance) ← okOr (tokenFields destAccount.data) .mintMismatch
      if destMint ≠ mintKey then fail .mintMismatch
      else do
        let newSupply ← okOr (checkedAdd supply amount) .arithmeticOverflow
        let newBalance ← okOr (checkedAdd destBalance amount) .arithmeticOverflow
        store mintKey { mintAccount with data := setSupply newSupply mintAccount.data }
        store destKey { destAccount with data := setAmount newBalance destAccount.data }
        let dst := destKey.hex 8
        log s!"Token: Mint {amount} tokens to {dst} (supply {newSupply})"
  | _ => fail (.invalidInstructionData "MintTo requires 2 accounts (mint, destination)")

def processBurn (amount : UInt64) (metas : List AccountMeta) (signer : Pubkey)
    (keys : List Pubkey) : Program Unit := do
  consume 200
  match metas with
  | mintMeta :: tokenMeta :: _ => do
    let mintKey ← ofExcept (resolveAccountKey mintMeta.index keys)
    let tokenKey ← ofExcept (resolveAccountKey tokenMeta.index keys)
    let mintAccount ← loadOwned mintKey
    let (_, supply) ← okOr (mintFields mintAccount.data) .mintMismatch
    let tokenAccount ← loadOwned tokenKey
    let (tokenMint, tokenAuthority, balance) ← okOr (tokenFields tokenAccount.data) .mintMismatch
    if tokenAuthority ≠ signer then fail .incorrectAuthority
    else if tokenMint ≠ mintKey then fail .mintMismatch
    else if balance < amount then fail (.insufficientFunds amount balance)
    else if supply < amount then fail (.insufficientFunds amount supply)
    else do
      let newSupply := supply - amount
      let newBalance := balance - amount
      store mintKey { mintAccount with data := setSupply newSupply mintAccount.data }
      store tokenKey { tokenAccount with data := setAmount newBalance tokenAccount.data }
      let src := tokenKey.hex 8
      log s!"Token: Burn {amount} tokens from {src} (supply {newSupply})"
  | _ => fail (.invalidInstructionData "Burn requires 2 accounts (mint, token account)")

def processInstruction (data : Bytes) (metas : List AccountMeta) (signer : Pubkey)
    (keys : List Pubkey) : Program Unit := do
  match ← ofExcept (TokenInstruction.fromData data) with
  | .initializeMint => processInitializeMint metas signer keys
  | .initializeAccount mint => processInitializeAccount mint metas signer keys
  | .transfer amount => processTokenTransfer amount metas signer keys
  | .mintTo amount => processMintTo amount metas signer keys
  | .burn amount => processBurn amount metas signer keys

end TokenProgram

end TrustNode.ProgramExecutor
