import TrustNode.Accounts.Account

namespace TrustNode.ProgramExecutor

open Bytes
open TrustNode.Accounts

inductive InstructionError where
  | insufficientComputeUnits
  | invalidInstructionData (msg : String)
  | accountNotFound
  | accountNotWritable
  | insufficientFunds (needed available : UInt64)
  | programError (msg : String)
  | invalidAccountOwner
  | incorrectAuthority
  | mintMismatch
  | dataSizeTooLarge (requested max : UInt64)
  | arithmeticOverflow
  | custom (code : UInt32) (msg : String)
deriving DecidableEq

def InstructionError.toString : InstructionError → String
  | .insufficientComputeUnits => "Insufficient compute units"
  | .invalidInstructionData msg => s!"Invalid instruction data: {msg}"
  | .accountNotFound => "Account not found"
  | .accountNotWritable => "Account not writable"
  | .insufficientFunds needed available => s!"Insufficient funds: need {needed}, have {available}"
  | .programError msg => s!"Program error: {msg}"
  | .invalidAccountOwner => "Invalid account owner"
  | .incorrectAuthority => "Incorrect authority: signer may not perform this action"
  | .mintMismatch => "Mint mismatch"
  | .dataSizeTooLarge requested max => s!"Data size {requested} exceeds maximum {max}"
  | .arithmeticOverflow => "Arithmetic overflow"
  | .custom code msg => s!"Custom error {code}: {msg}"

structure AccountMeta where
  index : ℕ
  isSigner : Bool
  isWritable : Bool
deriving DecidableEq

structure Instruction where
  programId : Pubkey
  accountMetas : List AccountMeta
  data : Bytes
deriving DecidableEq

def resolveAccountKey (index : ℕ) (accountKeys : List Pubkey) : Except InstructionError Pubkey :=
  match accountKeys[index]? with
  | some key => .ok key
  | none => .error .accountNotFound

def requireSigner (acct : AccountMeta) (signer : Pubkey) (accountKeys : List Pubkey) :
    Except InstructionError Pubkey :=
  match resolveAccountKey acct.index accountKeys with
  | .error e => .error e
  | .ok key => if key ≠ signer then .error .incorrectAuthority else .ok key

theorem resolveAccountKey_eq_ok {index : ℕ} {keys : List Pubkey} {k : Pubkey} :
    resolveAccountKey index keys = .ok k ↔ keys[index]? = some k := by
  cases h : keys[index]? <;> simp [resolveAccountKey, h]

theorem requireSigner_eq_ok {acct : AccountMeta} {signer : Pubkey} {keys : List Pubkey}
    {k : Pubkey} :
    requireSigner acct signer keys = .ok k ↔ keys[acct.index]? = some signer ∧ k = signer := by
  cases h : keys[acct.index]? with
  | none => simp [requireSigner, resolveAccountKey, h]
  | some key =>
    by_cases hk : key = signer
    · simp [requireSigner, resolveAccountKey, h, hk, eq_comm]
    · simp [requireSigner, resolveAccountKey, h, hk]

inductive SystemInstruction where
  | transfer (lamports : UInt64)
  | createAccount (lamports space : UInt64) (owner : Pubkey)
  | assign (owner : Pubkey)
  | nonceInitialize
deriving DecidableEq

namespace SystemInstruction

def fromData (data : Bytes) : Except InstructionError SystemInstruction :=
  match data with
  | [] => .error (.invalidInstructionData "Empty instruction data")
  | tag :: _ =>
    match tag.toNat with
    | 2 =>
      if data.length < 9 then .error (.invalidInstructionData "Transfer requires 8 bytes")
      else .ok (.transfer (u64FromLe ((data.drop 1).take 8)))
    | 0 =>
      if h : data.length < 49 then
        .error (.invalidInstructionData "CreateAccount requires 49 bytes")
      else
        .ok (.createAccount (u64FromLe ((data.drop 1).take 8)) (u64FromLe ((data.drop 9).take 8))
          (Bytes32.slice data 17 (by omega)))
    | 1 =>
      if h : data.length < 33 then .error (.invalidInstructionData "Assign requires 32 bytes")
      else .ok (.assign (Bytes32.slice data 1 (by omega)))
    | 7 => .ok .nonceInitialize
    | other => .error (.invalidInstructionData s!"Unknown system instruction: {other}")

def toData : SystemInstruction → Bytes
  | .transfer lamports => 2 :: u64ToLe lamports
  | .createAccount lamports space owner => 0 :: (u64ToLe lamports ++ u64ToLe space ++ owner.toList)
  | .assign owner => 1 :: owner.toList
  | .nonceInitialize => [7]

end SystemInstruction

inductive TokenInstruction where
  | initializeMint
  | initializeAccount (mint : Pubkey)
  | transfer (amount : UInt64)
  | mintTo (amount : UInt64)
  | burn (amount : UInt64)
deriving DecidableEq

namespace TokenInstruction

def amountData (name : String) (data : Bytes) (build : UInt64 → TokenInstruction) :
    Except InstructionError TokenInstruction :=
  if data.length < 9 then .error (.invalidInstructionData (name ++ " requires 8 bytes"))
  else .ok (build (u64FromLe ((data.drop 1).take 8)))

def fromData (data : Bytes) : Except InstructionError TokenInstruction :=
  match data with
  | [] => .error (.invalidInstructionData "Empty token instruction")
  | tag :: _ =>
    match tag.toNat with
    | 0 =>
      if h : data.length < 33 then
        .error (.invalidInstructionData "InitializeAccount requires 32-byte mint")
      else .ok (.initializeAccount (Bytes32.slice data 1 (by omega)))
    | 1 => .ok .initializeMint
    | 3 => amountData "Transfer" data .transfer
    | 7 => amountData "MintTo" data .mintTo
    | 8 => amountData "Burn" data .burn
    | other => .error (.invalidInstructionData s!"Unknown token instruction: {other}")

def toData : TokenInstruction → Bytes
  | .initializeMint => [1]
  | .initializeAccount mint => 0 :: mint.toList
  | .transfer amount => 3 :: u64ToLe amount
  | .mintTo amount => 7 :: u64ToLe amount
  | .burn amount => 8 :: u64ToLe amount

end TokenInstruction

end TrustNode.ProgramExecutor
