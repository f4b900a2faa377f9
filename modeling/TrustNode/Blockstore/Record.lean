import TrustNode.TxProcessor.Transaction

namespace TrustNode.Blockstore

open Bytes
open TrustNode.TxProcessor

def genesisParent : Bytes32 := Bytes32.splat 0

structure BlockRecord where
  slot : UInt64
  height : UInt64
  parentHash : Bytes32
  blockHash : Bytes32
  pohHash : Bytes32
  stateRoot : Bytes32
  entryCount : UInt64
  txCount : UInt64
  transactions : List Transaction
  timestampMs : UInt64
deriving DecidableEq

namespace BlockRecord

def computeHash (C : Crypto) (parentHash : Bytes32) (slot height : UInt64) (pohHash : Bytes32)
    (entryCount txCount : UInt64) (stateRoot : Bytes32) (transactions : List Transaction) :
    Bytes32 :=
  C.sha256 (parentHash.toList ++ u64ToLe slot ++ u64ToLe height ++ pohHash.toList ++
    u64ToLe entryCount ++ u64ToLe txCount ++ stateRoot.toList ++
    transactions.flatMap fun tx => (tx.hash C).toList)

def new (C : Crypto) (now : UInt64) (parentHash : Bytes32) (slot height : UInt64)
    (pohHash : Bytes32) (entryCount : UInt64) (stateRoot : Bytes32)
    (transactions : List Transaction) : BlockRecord where
  slot := slot
  height := height
  parentHash := parentHash
  blockHash := computeHash C parentHash slot height pohHash entryCount
    (UInt64.ofNat transactions.length) stateRoot transactions
  pohHash := pohHash
  stateRoot := stateRoot
  entryCount := entryCount
  txCount := UInt64.ofNat transactions.length
  transactions := transactions
  timestampMs := now

def verifyHash (C : Crypto) (r : BlockRecord) : Bool :=
  r.blockHash == computeHash C r.parentHash r.slot r.height r.pohHash r.entryCount r.txCount
    r.stateRoot r.transactions

end BlockRecord

inductive AppendError where
  | parentMismatch (got expected : Bytes32)
  | hashMismatch
  | encode
  | write
deriving DecidableEq

def AppendError.toString : AppendError → String
  | .parentMismatch got expected =>
      s!"record parent mismatch: got {got.hex 8}, expected {expected.hex 8}"
  | .hashMismatch => "record block_hash does not verify"
  | .encode => "failed to encode block record"
  | .write => "write failed"

structure Ledger where
  records : List BlockRecord
deriving DecidableEq

namespace Ledger

def tip (l : Ledger) : Bytes32 := (l.records.getLast?.map BlockRecord.blockHash).getD genesisParent

def appendRecord (C : Crypto) (written : Bool) (l : Ledger) (r : BlockRecord) :
    Except AppendError Unit × Ledger :=
  if r.parentHash ≠ l.tip then (.error (.parentMismatch r.parentHash l.tip), l)
  else if r.verifyHash C = false then (.error .hashMismatch, l)
  else if written then (.ok (), { l with records := l.records ++ [r] })
  else (.error .write, l)

def append (C : Crypto) (now : UInt64) (written : Bool) (l : Ledger) (slot height : UInt64)
    (entryCount : UInt64) (pohHash stateRoot : Bytes32) (transactions : List Transaction) :
    Except AppendError BlockRecord × Ledger :=
  let record := BlockRecord.new C now l.tip slot height pohHash entryCount stateRoot transactions
  match l.appendRecord C written record with
  | (.ok (), l') => (.ok record, l')
  | (.error e, l') => (.error e, l')

theorem append_eq (C : Crypto) (now : UInt64) (written : Bool) (l : Ledger)
    (slot height entryCount : UInt64) (pohHash stateRoot : Bytes32)
    (transactions : List Transaction) :
    l.append C now written slot height entryCount pohHash stateRoot transactions =
      let record := BlockRecord.new C now l.tip slot height pohHash entryCount stateRoot transactions
      if written then (.ok record, { l with records := l.records ++ [record] })
      else (.error .write, l) := by
  cases written <;> simp [append, appendRecord, BlockRecord.new, BlockRecord.verifyHash]

end Ledger

end TrustNode.Blockstore
