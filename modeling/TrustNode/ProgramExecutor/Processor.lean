import TrustNode.ProgramExecutor.Programs

namespace TrustNode.ProgramExecutor

open Exec
open TrustNode.Accounts

def defaultComputeUnits : UInt64 := 150000

structure InstructionResult where
  success : Bool
  computeUnitsConsumed : UInt64
  returnData : Option Bytes
  error : Option InstructionError
  logs : List String
deriving DecidableEq

namespace InstructionResult

def withLogs (success : Bool) (computeUnits : UInt64) (error : Option InstructionError)
    (logs : List String) : InstructionResult where
  success := success
  computeUnitsConsumed := computeUnits
  returnData := none
  error := error
  logs := logs

end InstructionResult

namespace InstructionProcessor

def start (accounts : AccountsDB) (ix : Instruction) : ProgramState where
  accounts := accounts
  budget := .new defaultComputeUnits
  logs := ["Program " ++ ix.programId.hex 4]

def finish : Except InstructionError Unit × ProgramState → InstructionResult × AccountsDB
  | (.ok (), s) =>
    let units := s.budget.consumed
    (.withLogs true units none (s.logs ++ [s!"Program success ({units} compute units)"]),
      s.accounts)
  | (.error e, s) =>
    (.withLogs false s.budget.consumed (some e) (s.logs ++ ["Program failed: " ++ e.toString]),
      s.accounts)

def dispatch (units : UInt64) (body : Program Unit) (s : ProgramState) :
    InstructionResult × AccountsDB :=
  match consume units s with
  | (.error e, t) => (.withLogs false t.budget.consumed (some e) t.logs, t.accounts)
  | (.ok (), t) => finish (body t)

def processInstruction (accounts : AccountsDB) (ix : Instruction) (signer : Pubkey)
    (keys : List Pubkey) : InstructionResult × AccountsDB :=
  let s := start accounts ix
  if ix.programId = Bytes32.splat 1 then
    dispatch 150 (SystemProgram.processInstruction ix.data ix.accountMetas signer keys) s
  else if ix.programId = Bytes32.splat 2 then
    dispatch 150 (TokenProgram.processInstruction ix.data ix.accountMetas signer keys) s
  else
    match accounts.load ix.programId with
    | some account =>
      if account.executable then
        dispatch 500
          (fail (.programError "program is deployed but no SBF runtime is linked")) s
      else finish (.error .invalidAccountOwner, s)
    | none => finish (.error .accountNotFound, s)

end InstructionProcessor

end TrustNode.ProgramExecutor
