import Mathlib.Data.List.Chain
import TrustNode.Poh.Hasher

namespace TrustNode.Poh

open Bytes

structure TransactionEntry where
  transaction : Bytes
  signature : Bytes
deriving DecidableEq

inductive EntryData where
  | tick
  | transactions (txs : List TransactionEntry)
deriving DecidableEq

def EntryData.bytes : EntryData → Bytes
  | tick => [116, 105, 99, 107]
  | transactions txs => txs.flatMap fun tx => tx.transaction ++ tx.signature

structure PohEntry where
  hash : Bytes32
  prevHash : Bytes32
  numHashes : UInt64
  slot : UInt64
  index : UInt64
  data : EntryData
deriving DecidableEq

namespace PohEntry

def computeHash (C : Crypto) (e : PohEntry) : Bytes32 :=
  let chained := PohHasher.hashChain C e.prevHash e.numHashes.toNat
  C.sha256 (chained.toList ++ u64ToLe e.slot ++ u64ToLe e.index ++ e.data.bytes)

def verify (C : Crypto) (e : PohEntry) : Bool := e.hash == e.computeHash C

def sealed (C : Crypto) (prevHash : Bytes32) (numHashes slot index : UInt64) (data : EntryData) :
    PohEntry :=
  let entry : PohEntry := ⟨Bytes32.splat 0, prevHash, numHashes, slot, index, data⟩
  { entry with hash := entry.computeHash C }

def tick (C : Crypto) (prevHash : Bytes32) (numHashes slot index : UInt64) : PohEntry :=
  sealed C prevHash numHashes slot index .tick

def transaction (C : Crypto) (prevHash : Bytes32) (numHashes slot index : UInt64)
    (transaction signature : Bytes) : PohEntry :=
  sealed C prevHash numHashes slot index (.transactions [⟨transaction, signature⟩])

theorem verify_sealed (C : Crypto) (prevHash : Bytes32) (numHashes slot index : UInt64)
    (data : EntryData) : (sealed C prevHash numHashes slot index data).verify C = true :=
  beq_self_eq_true _

def Follows (a b : PohEntry) : Prop := b.prevHash = a.hash

instance : DecidableRel Follows := fun a b => inferInstanceAs (Decidable (b.prevHash = a.hash))

end PohEntry

structure Entry where
  hash : Bytes32
  slot : UInt64
  parentHash : Bytes32
  entries : List PohEntry
  height : UInt64
  timestamp : UInt64
deriving DecidableEq

namespace Entry

def verifyEntries (C : Crypto) : Option PohEntry → List PohEntry → Bool
  | _, [] => true
  | prev, entry :: rest =>
    if !entry.verify C then false
    else if prev.any fun p => entry.prevHash != p.hash then false
    else verifyEntries C (some entry) rest

def verifyPohChain (C : Crypto) (block : Entry) : Bool :=
  if block.entries.isEmpty then false
  else if !verifyEntries C none block.entries then false
  else if block.entries.head?.any fun first => first.prevHash != block.parentHash then false
  else true

theorem verifyEntries_iff (C : Crypto) (prev : Option PohEntry) (l : List PohEntry) :
    verifyEntries C prev l = true ↔
      (∀ e ∈ l, e.verify C = true) ∧ (prev.toList ++ l).IsChain PohEntry.Follows := by
  induction l generalizing prev with
  | nil => cases prev <;> simp [verifyEntries]
  | cons e rest ih =>
    rw [verifyEntries, List.forall_mem_cons]
    split_ifs with he hp
    · simp_all
    · cases prev with
      | none => simp at hp
      | some p => simp_all [PohEntry.Follows]
    · rw [ih]
      cases prev with
      | none => simp_all
      | some p => simp_all [PohEntry.Follows]

theorem verifyPohChain_iff {C : Crypto} {block : Entry} :
    block.verifyPohChain C = true ↔
      (∀ e ∈ block.entries, e.verify C = true) ∧ block.entries.IsChain PohEntry.Follows ∧
        block.entries.head?.map PohEntry.prevHash = some block.parentHash := by
  have hentries := verifyEntries_iff C none block.entries
  cases hb : block.entries with
  | nil => simp [verifyPohChain, hb]
  | cons first rest =>
    rw [hb, Option.toList_none, List.nil_append] at hentries
    simp [verifyPohChain, hb, hentries, and_assoc]

end Entry

end TrustNode.Poh
