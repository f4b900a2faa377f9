import TrustNode.Base.Scan
import TrustNode.Base.Serde
import TrustNode.Blockstore.Record

namespace TrustNode

structure Blockstore where
  file : Bytes
  ledger : Blockstore.Ledger
deriving DecidableEq

namespace Blockstore

open Bytes
open TrustNode.TxProcessor

def magic : Bytes := [84, 78, 66, 76]

def maxFramePayload : ℕ := 16 * 1024 * 1024

def hashLen : ℕ := 32

def headerLen : ℕ := 8

inductive Chunk where
  | ok (buf rest : Bytes)
  | cleanEof
  | torn

def fill (n : ℕ) (file : Bytes) : Chunk :=
  if n ≤ file.length then .ok (file.take n) (file.drop n)
  else if file.isEmpty then .cleanEof
  else .torn

def frame (C : Crypto) (payload : Bytes) : Bytes :=
  magic ++ (u32ToLe payload.length ++ (payload ++ (C.sha256 payload).toList))

variable (C : Crypto) (S : Serde BlockRecord)

def readFrame (expectedParent : Bytes32) (file : Bytes) : Option (BlockRecord × ℕ × Bytes) :=
  match fill 4 file with
  | .ok tag rest =>
    if tag ≠ magic then none
    else
      match fill 4 rest with
      | .ok lenBuf rest =>
        let payloadLen := leNat lenBuf
        if payloadLen = 0 ∨ maxFramePayload < payloadLen then none
        else
          match fill payloadLen rest with
          | .ok payload rest =>
            match fill hashLen rest with
            | .ok expectedSum rest =>
              if (C.sha256 payload).toList ≠ expectedSum then none
              else
                match S.fromSlice payload with
                | some record =>
                  if record.parentHash ≠ expectedParent ∨ record.verifyHash C = false then none
                  else some (record, headerLen + payload.length + hashLen, rest)
                | none => none
            | _ => none
          | _ => none
      | _ => none
  | _ => none

def replayStep (state : List BlockRecord × ℕ) (file : Bytes) :
    Option ((List BlockRecord × ℕ) × Bytes) :=
  (readFrame C S (Ledger.tip ⟨state.1⟩) file).map fun (record, frameLen, rest) =>
    ((state.1 ++ [record], state.2 + frameLen), rest)

def replay (file : Bytes) : List BlockRecord × ℕ := (Scan.scanAll (replayStep C S) ([], 0) file).1

def «open» (file : Bytes) : Blockstore :=
  let (records, validLen) := replay C S file
  if file.length ≠ validLen then ⟨file.take validLen, ⟨records⟩⟩ else ⟨file, ⟨records⟩⟩

inductive WriteResult where
  | ok
  | failed (written : ℕ)
deriving DecidableEq

def appendRecord (w : WriteResult) (b : Blockstore) (r : BlockRecord) :
    Except AppendError Unit × Blockstore :=
  if r.parentHash ≠ b.ledger.tip then (.error (.parentMismatch r.parentHash b.ledger.tip), b)
  else if r.verifyHash C = false then (.error .hashMismatch, b)
  else
    match S.toVec r with
    | none => (.error .encode, b)
    | some payload =>
      match w with
      | .ok => (.ok (), ⟨b.file ++ frame C payload, ⟨b.ledger.records ++ [r]⟩⟩)
      | .failed written => (.error .write, { b with file := b.file ++ (frame C payload).take written })

def append (now : UInt64) (w : WriteResult) (b : Blockstore) (slot height entryCount : UInt64)
    (pohHash stateRoot : Bytes32) (transactions : List Transaction) :
    Except AppendError BlockRecord × Blockstore :=
  let record :=
    BlockRecord.new C now b.ledger.tip slot height pohHash entryCount stateRoot transactions
  match appendRecord C S w b record with
  | (.ok (), b') => (.ok record, b')
  | (.error e, b') => (.error e, b')

inductive Call where
  | appendRecord (record : BlockRecord)
  | append (now slot height entryCount : UInt64) (pohHash stateRoot : Bytes32)
      (transactions : List Transaction)

def Call.record (b : Blockstore) : Call → BlockRecord
  | appendRecord record => record
  | append now slot height entryCount pohHash stateRoot transactions =>
      BlockRecord.new C now b.ledger.tip slot height pohHash entryCount stateRoot transactions

def Call.run (w : WriteResult) (b : Blockstore) :
    Call → Except AppendError BlockRecord × Blockstore
  | appendRecord record =>
      match b.appendRecord C S w record with
      | (.ok (), b') => (.ok record, b')
      | (.error e, b') => (.error e, b')
  | append now slot height entryCount pohHash stateRoot transactions =>
      b.append C S now w slot height entryCount pohHash stateRoot transactions

section Outcomes

variable {C S} {w : WriteResult} {b b' : Blockstore} {r : BlockRecord} {e : AppendError}

theorem appendRecord_ledger (h : (S.toVec r).isSome) :
    ((b.appendRecord C S w r).1, (b.appendRecord C S w r).2.ledger) =
      b.ledger.appendRecord C (w = .ok) r := by
  obtain ⟨payload, hpayload⟩ := Option.isSome_iff_exists.mp h
  rw [Blockstore.appendRecord, Ledger.appendRecord, hpayload]
  split_ifs with hparent hverify hw
  · rfl
  · rfl
  · rw [of_decide_eq_true hw]
  · cases w with
    | ok => exact absurd rfl hw
    | failed written => rfl

theorem appendRecord_ok (h : b.appendRecord C S w r = (.ok (), b')) :
    w = .ok ∧ r.parentHash = b.ledger.tip ∧ r.verifyHash C = true ∧ (S.toVec r).isSome ∧
      b' = ⟨b.file ++ frame C (S.encoded r), ⟨b.ledger.records ++ [r]⟩⟩ := by
  rw [Blockstore.appendRecord] at h
  split_ifs at h with hparent hverify
  · cases h
  · cases h
  · cases hpayload : S.toVec r with
    | none =>
      rw [hpayload] at h
      cases h
    | some payload =>
      rw [hpayload] at h
      cases w with
      | failed written => cases h
      | ok =>
        cases h
        refine ⟨rfl, not_not.mp hparent, (Bool.not_eq_false _).mp hverify, rfl, ?_⟩
        rw [Serde.encoded, hpayload, Option.getD_some]

theorem appendRecord_error (h : b.appendRecord C S w r = (.error e, b')) :
    ∃ debris, b' = { b with file := b.file ++ debris } ∧ (w = .ok → debris = []) := by
  have hsame : b = { b with file := b.file ++ [] } := by rw [List.append_nil]
  rw [Blockstore.appendRecord] at h
  split_ifs at h
  · cases h
    exact ⟨[], hsame, fun _ => rfl⟩
  · cases h
    exact ⟨[], hsame, fun _ => rfl⟩
  · cases hpayload : S.toVec r with
    | none =>
      rw [hpayload] at h
      cases h
      exact ⟨[], hsame, fun _ => rfl⟩
    | some payload =>
      rw [hpayload] at h
      cases w with
      | ok => cases h
      | failed written =>
        cases h
        exact ⟨_, rfl, fun hw => by cases hw⟩

theorem run_eq (call : Call) :
    call.run C S w b =
      match b.appendRecord C S w (call.record C b) with
      | (.ok (), b') => (.ok (call.record C b), b')
      | (.error e, b') => (.error e, b') := by
  cases call <;> rfl

theorem run_append {now slot height entryCount : UInt64} {pohHash stateRoot : Bytes32}
    {transactions : List Transaction}
    (hr : r = BlockRecord.new C now b.ledger.tip slot height pohHash entryCount stateRoot transactions)
    (h : (S.toVec r).isSome) :
    (Call.append now slot height entryCount pohHash stateRoot transactions).run C S w b =
      match w with
      | .ok => (.ok r, ⟨b.file ++ frame C (S.encoded r), ⟨b.ledger.records ++ [r]⟩⟩)
      | .failed written =>
          (.error .write, { b with file := b.file ++ (frame C (S.encoded r)).take written }) := by
  obtain ⟨payload, hpayload⟩ := Option.isSome_iff_exists.mp h
  have hparent : r.parentHash = b.ledger.tip := by rw [hr, BlockRecord.new]
  have hverify : r.verifyHash C = true := by rw [hr, BlockRecord.verifyHash, beq_iff_eq]; rfl
  have hencoded : S.encoded r = payload := by rw [Serde.encoded, hpayload, Option.getD_some]
  rw [run_eq, Call.record, ← hr, Blockstore.appendRecord, if_neg (not_not.mpr hparent),
    if_neg ((Bool.not_eq_false _).mpr hverify), hpayload, hencoded]
  cases w <;> rfl

theorem run_ok {call : Call} (h : call.run C S w b = (.ok r, b')) :
    r = call.record C b ∧ b.appendRecord C S w r = (.ok (), b') := by
  rw [run_eq] at h
  cases hres : b.appendRecord C S w (call.record C b) with
  | mk res b'' =>
    rw [hres] at h
    cases res with
    | error e => cases h
    | ok u =>
      cases h
      exact ⟨rfl, hres⟩

theorem run_error {call : Call} (h : call.run C S w b = (.error e, b')) :
    b.appendRecord C S w (call.record C b) = (.error e, b') := by
  rw [run_eq] at h
  cases hres : b.appendRecord C S w (call.record C b) with
  | mk res b'' =>
    rw [hres] at h
    cases res with
    | error e =>
      cases h
      rfl
    | ok u => cases h

end Outcomes

end Blockstore

end TrustNode
