import TrustNode.Base.Reorder
import TrustNode.Base.Table
import TrustNode.Gossip.Message

namespace TrustNode.Gossip

structure CrdsEntry where
  data : PushData
  insertedAt : UInt64
  sender : Bytes32
  propagationCount : UInt32
deriving DecidableEq

structure Crds where
  entries : Table Bytes32 CrdsEntry
  contacts : Table Bytes32 ContactInfo
  selfInfo : Option ContactInfo
  maxEntries : ℕ
  totalInserted : UInt64
  totalPruned : UInt64

namespace Crds

def new (maxEntries : ℕ) : Crds where
  entries := ∅
  contacts := ∅
  selfInfo := none
  maxEntries := maxEntries
  totalInserted := 0
  totalPruned := 0

def removeOld (s : Crds) (id : Bytes32) : Crds :=
  { s with entries := s.entries.erase id, totalPruned := s.totalPruned + 1 }

def pruneOld (order : Arrangement (Bytes32 × UInt64)) (s : Crds) : Crds :=
  let entries := order.run (s.entries.listing.map fun p => (p.1, p.2.insertedAt))
  let sorted := entries.insertionSort fun a b => a.2 ≤ b.2
  let toRemove := sorted.length - s.maxEntries * 9 / 10
  ((sorted.take toRemove).map Prod.fst).foldl removeOld s

def insertPush (now : UInt64) (order : Arrangement (Bytes32 × UInt64)) (msg : GossipMessage)
    (s : Crds) : Bool × Crds :=
  match msg.pushData with
  | none => (false, s)
  | some data =>
    if data.id ∈ s.entries then (false, s)
    else
      let inserted := { s with
        entries := s.entries.insert data.id ⟨data, now, msg.sender, 0⟩
        totalInserted := s.totalInserted + 1 }
      (true, if inserted.maxEntries < inserted.entries.keys.card then inserted.pruneOld order
        else inserted)

def insertContact (contact : ContactInfo) (s : Crds) : Crds :=
  { s with contacts := s.contacts.insert contact.pubkey contact }

def setSelfInfo (info : ContactInfo) (s : Crds) : Crds := { s with selfInfo := some info }

def entriesNewerThan (order : Arrangement CrdsEntry) (timestamp : UInt64) (s : Crds) :
    List CrdsEntry :=
  order.run ((s.entries.listing.map Prod.snd).filter fun e => timestamp < e.insertedAt)

def contactList (order : Arrangement ContactInfo) (s : Crds) : List ContactInfo :=
  order.run (s.contacts.listing.map Prod.snd)

def randomContacts (order : Arrangement ContactInfo) (count : ℕ) (s : Crds) : List ContactInfo :=
  (s.contactList order).take count

theorem contacts_foldl_removeOld (ids : List Bytes32) (s : Crds) :
    (ids.foldl removeOld s).contacts = s.contacts := by
  induction ids generalizing s with
  | nil => rfl
  | cons id rest ih => exact ih (s.removeOld id)

@[simp] theorem contacts_insertPush (now : UInt64) (order : Arrangement (Bytes32 × UInt64))
    (msg : GossipMessage) (s : Crds) : (s.insertPush now order msg).2.contacts = s.contacts := by
  unfold insertPush
  split
  · rfl
  · split
    · rfl
    · dsimp only
      split
      · exact contacts_foldl_removeOld _ _
      · rfl

end Crds

end TrustNode.Gossip
