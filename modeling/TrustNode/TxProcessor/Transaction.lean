import TrustNode.ProgramExecutor.Instruction

namespace TrustNode.TxProcessor

open Bytes
open TrustNode.Accounts

structure AccountMeta where
  index : UInt8
  isSigner : Bool
  isWritable : Bool
deriving DecidableEq

structure Instruction where
  programId : Pubkey
  accounts : List AccountMeta
  data : Bytes
deriving DecidableEq

structure Transaction where
  signature : Bytes
  signer : Pubkey
  accountKeys : List Pubkey
  instructions : List Instruction
  recentBlockhash : Bytes32
  computeBudget : UInt64
  fee : UInt64
deriving DecidableEq

inductive TransactionError where
  | noInstructions
  | zeroComputeBudget
  | insufficientFee
  | invalidSignature
  | accountNotFound (index : UInt8)
  | insufficientLamports (needed available : UInt64)
  | programError (msg : String)
  | computeBudgetExceeded
  | blockhashNotFound
  | duplicateTransaction
deriving DecidableEq

def TransactionError.debug : TransactionError → String
  | .noInstructions => "NoInstructions"
  | .zeroComputeBudget => "ZeroComputeBudget"
  | .insufficientFee => "InsufficientFee"
  | .invalidSignature => "InvalidSignature"
  | .accountNotFound index => s!"AccountNotFound({index})"
  | .insufficientLamports needed available =>
      s!"InsufficientLamports \x7b needed: {needed}, available: {available} \x7d"
  | .programError msg => "ProgramError(" ++ msg.quote ++ ")"
  | .computeBudgetExceeded => "ComputeBudgetExceeded"
  | .blockhashNotFound => "BlockhashNotFound"
  | .duplicateTransaction => "DuplicateTransaction"

structure TransactionResult where
  success : Bool
  computeUnitsConsumed : UInt64
  feePaid : UInt64
  error : Option TransactionError
  logs : List String
deriving DecidableEq

namespace TransactionResult

def ofSuccess (computeUnits fee : UInt64) : TransactionResult where
  success := true
  computeUnitsConsumed := computeUnits
  feePaid := fee
  error := none
  logs := ["Transaction executed successfully"]

def failure (error : TransactionError) (computeUnits : UInt64) : TransactionResult where
  success := false
  computeUnitsConsumed := computeUnits
  feePaid := 0
  error := some error
  logs := ["Transaction failed: " ++ error.debug]

@[simp] theorem ofSuccess_success (units fee : UInt64) : (ofSuccess units fee).success = true := rfl

@[simp] theorem failure_success (e : TransactionError) (units : UInt64) :
    (failure e units).success = false := rfl

end TransactionResult

namespace Instruction

def message (ix : Instruction) : Bytes :=
  ix.programId.toList ++ u32ToLe ix.accounts.length ++
    ix.accounts.flatMap (fun m =>
      [m.index, if m.isSigner then 1 else 0, if m.isWritable then 1 else 0]) ++
    u32ToLe ix.data.length ++ ix.data

end Instruction

namespace Transaction

def new (signer : Pubkey) (instructions : List Instruction) (recentBlockhash : Bytes32) :
    Transaction where
  signature := []
  signer := signer
  accountKeys := [signer]
  instructions := instructions
  recentBlockhash := recentBlockhash
  computeBudget := 200000
  fee := 5000

def message (tx : Transaction) : Bytes :=
  tx.signer.toList ++ tx.recentBlockhash.toList ++ u64ToLe tx.fee ++ u64ToLe tx.computeBudget ++
    u32ToLe tx.accountKeys.length ++ tx.accountKeys.flatMap Bytes32.toList ++
    tx.instructions.flatMap Instruction.message

def hash (C : Crypto) (tx : Transaction) : Bytes32 := C.sha256 tx.message

def resolve (tx : Transaction) (index : UInt8) : Option Pubkey := tx.accountKeys[index.toNat]?

def metaKeys (tx : Transaction) (keep : AccountMeta → Bool) : List Pubkey :=
  tx.instructions.flatMap fun ix => (ix.accounts.filter keep).filterMap fun m => tx.resolve m.index

def readAccounts (tx : Transaction) : List Pubkey := tx.metaKeys fun m => !m.isWritable

def writeAccounts (tx : Transaction) : List Pubkey := tx.metaKeys fun m => m.isWritable

def conflictsWith (tx other : Transaction) : Bool :=
  tx.writeAccounts.any (fun w => other.writeAccounts.contains w || other.readAccounts.contains w) ||
    other.writeAccounts.any fun w => tx.writeAccounts.contains w || tx.readAccounts.contains w

def validate (tx : Transaction) : Except TransactionError Unit :=
  if tx.instructions.isEmpty then .error .noInstructions
  else if tx.computeBudget = 0 then .error .zeroComputeBudget
  else if tx.fee < 5000 then .error .insufficientFee
  else .ok ()

def verifySignature (C : Crypto) (tx : Transaction) : Bool :=
  C.verify tx.signer (tx.hash C).toList tx.signature

theorem mem_metaKeys {tx : Transaction} {keep : AccountMeta → Bool} {k : Pubkey} :
    k ∈ tx.metaKeys keep ↔
      ∃ ix ∈ tx.instructions, ∃ m ∈ ix.accounts, keep m = true ∧ tx.resolve m.index = some k := by
  simp only [metaKeys, List.mem_flatMap, List.mem_filterMap, List.mem_filter, and_assoc]

end Transaction

end TrustNode.TxProcessor
