import TrustNode.Gossip.Isolation
import TrustNode.Net.Message

namespace TrustNode.Gossip

open TrustNode.Net

structure Forward where
  push : GossipMessage
  handledBefore : List GossipMessage
deriving DecidableEq

structure Outgoing where
  message : GossipMessage
  forward : Option Forward

structure Transmission where
  addr : SocketAddr
  bytes : Bytes
  outgoing : Outgoing
  contacts : Table Bytes32 ContactInfo

structure Network where
  identity : Bytes32
  protocol : GossipProtocol
  handled : List GossipMessage
  queue : List Outgoing
  wire : List Transmission

namespace Network

def start (key : SigningKey) (gossip tpu : SocketAddr) (rpcPort : UInt16) (version : String)
    (now : UInt64) (peers : List ContactInfo) : Network :=
  let selfContact : ContactInfo :=
    { pubkey := key.verifyingKey
      gossip := gossip
      tpu := tpu
      rpc := .localhost rpcPort
      tvu := tpu
      stake := 1
      version := version
      wallclock := now }
  let crds := ((Crds.new 100000).setSelfInfo selfContact).insertContact selfContact
  { identity := key.verifyingKey
    protocol := .new key (peers.foldl (fun s peer => s.insertContact peer) crds)
    handled := []
    queue := []
    wire := [] }

def reaches (n : Network) (contact : ContactInfo) : Bool :=
  !(contact.pubkey = n.identity) && !contact.gossip.isUnspecified

def enqueue (forward : Option Forward) (protocol : GossipProtocol) (n : Network) : Network :=
  { n with
    protocol := { protocol with msgSender := [] }
    queue := n.queue ++ protocol.msgSender.map (⟨·, forward⟩) }

inductive Event where
  | handleMessage (env : Ambient) (msg : GossipMessage)
  | sendPing (now nonce : UInt64) (peer : ContactInfo)
  | transmit (order : Arrangement ContactInfo)

variable (C : Crypto) (toJson : GossipPayload → Bytes)
  (toVec : NetMessage → Except String Bytes)

def fanOut (order : Arrangement ContactInfo) (out : Outgoing) (n : Network) : List Transmission :=
  match (NetMessage.gossip out.message).encode toVec with
  | .error _ => []
  | .ok bytes =>
    ((n.protocol.crds.contactList order).filter n.reaches).map fun contact =>
      ⟨contact.gossip, bytes, out, n.protocol.crds.contacts⟩

def step (n : Network) : Event → Network
  | .handleMessage env msg =>
    let forward := if msg.messageType = .push then some ⟨msg, n.handled⟩ else none
    { n.enqueue forward (n.protocol.handleMessage C toJson env msg) with
      handled := n.handled ++ [msg] }
  | .sendPing now nonce peer => n.enqueue none (n.protocol.sendPing toJson now nonce peer)
  | .transmit order =>
    match n.queue with
    | [] => n
    | out :: rest => { n with queue := rest, wire := n.wire ++ n.fanOut toVec order out }

def run (n : Network) (events : List Event) : Network := events.foldl (step C toJson toVec) n

def Excluded (f : Forward) (peer : Bytes32) : Prop :=
  peer = f.push.sender ∨
    ∃ msg ∈ f.handledBefore, msg.verifySignature C toJson = true ∧ msg.sender = peer ∧
      ∃ data, f.push.pushData = some data ∧ data.kind ∈ msg.prunedKinds

def Honours (t : Transmission) : Prop :=
  ∀ f ∈ t.outgoing.forward, ∀ peer contact, t.contacts.lookup peer = some contact →
    Excluded C toJson f peer → t.addr ≠ contact.gossip

def Routable (n : Network) (peer : Bytes32) (contact : ContactInfo) : Prop :=
  contact.gossip.isUnspecified = false ∧
    (peer ≠ n.identity ∨ ∃ other c, other ≠ n.identity ∧
      n.protocol.crds.contacts.lookup other = some c ∧ c.gossip = contact.gossip)

def Clear (n : Network) : Prop :=
  ∀ out ∈ n.queue.head?, ∀ bytes, (NetMessage.gossip out.message).encode toVec = .ok bytes →
    ∀ f ∈ out.forward, ∀ peer contact, n.protocol.crds.contacts.lookup peer = some contact →
      Excluded C toJson f peer → ¬n.Routable peer contact

def ClearRun (n : Network) : List Event → Prop
  | [] => True
  | event :: rest =>
    (∀ order, event = .transmit order → n.Clear C toJson toVec) ∧
      ClearRun (n.step C toJson toVec event) rest

def Keyed (n : Network) : Prop :=
  ∀ peer contact, n.protocol.crds.contacts.lookup peer = some contact → contact.pubkey = peer

variable {C toJson toVec}

theorem keyed_insert {contacts : Table Bytes32 ContactInfo}
    (h : ∀ peer contact, contacts.lookup peer = some contact → contact.pubkey = peer)
    (c : ContactInfo) (peer : Bytes32) (contact : ContactInfo)
    (hlookup : (contacts.insert c.pubkey c).lookup peer = some contact) : contact.pubkey = peer := by
  rw [Table.lookup_insert] at hlookup
  split_ifs at hlookup with hpeer
  · rw [hpeer, Option.some.inj hlookup]
  · exact h peer contact hlookup

theorem keyed_start (key : SigningKey) (gossip tpu : SocketAddr) (rpcPort : UInt16)
    (version : String) (now : UInt64) (peers : List ContactInfo) :
    (start key gossip tpu rpcPort version now peers).Keyed := by
  have hpeers : ∀ s : Crds,
      (∀ peer contact, s.contacts.lookup peer = some contact → contact.pubkey = peer) →
      ∀ peer contact, (peers.foldl (fun s peer => s.insertContact peer) s).contacts.lookup peer =
        some contact → contact.pubkey = peer := by
    induction peers with
    | nil => exact fun s hs => hs
    | cons c rest ih => exact fun s hs => ih (s.insertContact c) (keyed_insert hs c)
  refine hpeers _ (keyed_insert (fun peer contact h => ?_) _)
  exact absurd h (by simp [Crds.setSelfInfo, Crds.new])

variable (C toJson toVec) in
theorem Keyed.step {n : Network} (h : n.Keyed) (event : Event) :
    (n.step C toJson toVec event).Keyed := by
  cases event with
  | handleMessage env msg =>
    intro peer contact hlookup
    change (n.protocol.handleMessage C toJson env msg).crds.contacts.lookup peer = some contact
      at hlookup
    cases hverified : msg.verifySignature C toJson with
    | false =>
      rw [GossipProtocol.handleMessage, hverified] at hlookup
      exact h peer contact hlookup
    | true =>
      rw [(GossipProtocol.effect_handleMessage C toJson env msg n.protocol hverified).contacts]
        at hlookup
      cases hannounced : msg.announced with
      | none =>
        rw [hannounced] at hlookup
        exact h peer contact hlookup
      | some c =>
        rw [hannounced] at hlookup
        exact keyed_insert h c peer contact hlookup
  | sendPing now nonce peer => exact h
  | transmit order =>
    rw [Network.step]
    split
    · exact h
    · exact h

theorem mem_fanOut {order : Arrangement ContactInfo} {out : Outgoing} {n : Network}
    {t : Transmission} :
    t ∈ n.fanOut toVec order out ↔
      ∃ bytes peer contact, (NetMessage.gossip out.message).encode toVec = .ok bytes ∧
        n.protocol.crds.contacts.lookup peer = some contact ∧ n.reaches contact = true ∧
        t = ⟨contact.gossip, bytes, out, n.protocol.crds.contacts⟩ := by
  have hlist : ∀ contact, contact ∈ n.protocol.crds.contactList order ↔
      ∃ peer, n.protocol.crds.contacts.lookup peer = some contact := by
    intro contact
    rw [Crds.contactList, (order.perm _).mem_iff, List.mem_map]
    constructor
    · rintro ⟨e, he, rfl⟩
      exact ⟨e.1, Table.mem_listing.mp he⟩
    · rintro ⟨peer, hpeer⟩
      exact ⟨(peer, contact), Table.mem_listing.mpr hpeer, rfl⟩
  rw [fanOut]
  cases hencode : (NetMessage.gossip out.message).encode toVec with
  | error e => simp
  | ok bytes =>
    simp only [List.mem_map, List.mem_filter, hlist]
    constructor
    · rintro ⟨contact, ⟨⟨peer, hpeer⟩, hreach⟩, rfl⟩
      exact ⟨bytes, peer, contact, rfl, hpeer, hreach, rfl⟩
    · rintro ⟨_, peer, contact, ⟨⟩, hpeer, hreach, rfl⟩
      exact ⟨contact, ⟨⟨peer, hpeer⟩, hreach⟩, rfl⟩

theorem reaches_iff {n : Network} (h : n.Keyed) {peer : Bytes32} {contact : ContactInfo}
    (hlookup : n.protocol.crds.contacts.lookup peer = some contact) :
    n.reaches contact = true ↔ peer ≠ n.identity ∧ contact.gossip.isUnspecified = false := by
  rw [reaches, h peer contact hlookup]
  simp

theorem fanOut_honours_iff {n : Network} (h : n.Keyed) (order : Arrangement ContactInfo)
    (out : Outgoing) :
    (∀ t ∈ n.fanOut toVec order out, Honours C toJson t) ↔
      (∀ bytes, (NetMessage.gossip out.message).encode toVec = .ok bytes →
        ∀ f ∈ out.forward, ∀ peer contact, n.protocol.crds.contacts.lookup peer = some contact →
          Excluded C toJson f peer → ¬n.Routable peer contact) := by
  constructor
  · rintro hhonours bytes hbytes f hf peer contact hlookup hexcluded ⟨hspecified, hroute⟩
    obtain ⟨other, c, hother, hc, haddr⟩ : ∃ other c, other ≠ n.identity ∧
        n.protocol.crds.contacts.lookup other = some c ∧ c.gossip = contact.gossip := by
      rcases hroute with hpeer | hshared
      · exact ⟨peer, contact, hpeer, hlookup, rfl⟩
      · exact hshared
    have hreach : n.reaches c = true := (reaches_iff h hc).mpr ⟨hother, haddr ▸ hspecified⟩
    have hsent : (⟨c.gossip, bytes, out, n.protocol.crds.contacts⟩ : Transmission) ∈
        n.fanOut toVec order out :=
      mem_fanOut.mpr ⟨bytes, other, c, hbytes, hc, hreach, rfl⟩
    exact hhonours _ hsent f hf peer contact hlookup hexcluded haddr
  · rintro hclear t ht f hf peer contact hlookup hexcluded haddr
    obtain ⟨bytes, other, c, hbytes, hc, hreach, rfl⟩ := mem_fanOut.mp ht
    obtain ⟨hother, hspecified⟩ := (reaches_iff h hc).mp hreach
    exact hclear bytes hbytes f hf peer contact hlookup hexcluded
      ⟨haddr ▸ hspecified, Or.inr ⟨other, c, hother, hc, haddr⟩⟩

theorem wire_honours_step {n : Network} (h : n.Keyed) (event : Event) :
    (∀ t ∈ (n.step C toJson toVec event).wire, Honours C toJson t) ↔
      (∀ t ∈ n.wire, Honours C toJson t) ∧
        ∀ order, event = .transmit order → n.Clear C toJson toVec := by
  cases event with
  | handleMessage env msg => exact ⟨fun hw => ⟨hw, fun _ he => by cases he⟩, fun hw => hw.1⟩
  | sendPing now nonce peer => exact ⟨fun hw => ⟨hw, fun _ he => by cases he⟩, fun hw => hw.1⟩
  | transmit order =>
    rw [step, Clear]
    cases hqueue : n.queue with
    | nil => simp
    | cons out rest =>
      dsimp only
      rw [List.forall_mem_append, fanOut_honours_iff h order out]
      refine and_congr_right fun _ => ⟨fun hclear _ _ o ho => ?_, fun hclear => ?_⟩
      · rw [List.head?_cons, Option.mem_some_iff] at ho
        exact ho ▸ hclear
      · exact hclear order rfl out rfl

theorem wire_honours_run {n : Network} (h : n.Keyed) (events : List Event) :
    (∀ t ∈ (n.run C toJson toVec events).wire, Honours C toJson t) ↔
      (∀ t ∈ n.wire, Honours C toJson t) ∧ n.ClearRun C toJson toVec events := by
  induction events generalizing n with
  | nil => simp [run, ClearRun]
  | cons event rest ih =>
    have hrest := ih (h.step C toJson toVec event)
    rw [wire_honours_step h event, and_assoc] at hrest
    exact hrest

variable (C toJson toVec)

theorem prunes_honoured_iff (key : SigningKey) (gossip tpu : SocketAddr) (rpcPort : UInt16)
    (version : String) (now : UInt64) (peers : List ContactInfo) (events : List Event) :
    let n := start key gossip tpu rpcPort version now peers
    (∀ t ∈ (n.run C toJson toVec events).wire, Honours C toJson t) ↔
      n.ClearRun C toJson toVec events := by
  intro n
  rw [wire_honours_run (keyed_start key gossip tpu rpcPort version now peers) events]
  exact and_iff_right fun _ ht => absurd ht List.not_mem_nil

def peerAt (id : UInt8) (port : UInt16) : ContactInfo :=
  { ContactInfo.default (Bytes32.splat id) with gossip := .localhost port }

def threePeers : Network :=
  start ⟨Bytes32.splat 1, fun _ => List.replicate 64 0⟩ ⟨.replicate 4 0, 8000⟩
    ⟨.replicate 4 0, 8001⟩ 8899 "0.1.0" 0 [peerAt 3 9003, peerAt 4 9004, peerAt 5 9005]

def votePrune : GossipMessage :=
  GossipProtocol.signedBy (Bytes32.splat 3) .prune (.prune ["vote"] (Bytes32.splat 3))

def votePush : GossipMessage :=
  GossipProtocol.signedBy (Bytes32.splat 5) .push (.push ⟨Bytes32.splat 9, [1], "vote"⟩)

def pruneThenPush : List Event :=
  [.handleMessage GossipProtocol.calm votePrune, .handleMessage GossipProtocol.calm votePush,
    .transmit (.given _)]

def afterPrune : Network :=
  threePeers.run acceptingCrypto GossipPayload.json (fun msg => .ok msg.json) pruneThenPush

theorem pruned_peer_is_sent_pushes :
    (∃ t ∈ afterPrune.wire, t.addr = (peerAt 3 9003).gossip ∧
        ¬Honours acceptingCrypto GossipPayload.json t) ∧
      ∃ t ∈ afterPrune.wire, t.addr = (peerAt 5 9005).gossip ∧
        ¬Honours acceptingCrypto GossipPayload.json t := by
  have hsent : ∀ peer ∈ [peerAt 3 9003, peerAt 5 9005], ∃ t ∈ afterPrune.wire,
      t.addr = peer.gossip ∧ t.outgoing.forward = some ⟨votePush, [votePrune]⟩ ∧
        t.contacts.lookup peer.pubkey = some peer := by
    decide +kernel
  obtain ⟨hpruned, hsender⟩ := List.forall_mem_cons.mp hsent
  obtain ⟨t, ht, haddr, hforward, hcontact⟩ := hpruned
  obtain ⟨t', ht', haddr', hforward', hcontact'⟩ := List.forall_mem_singleton.mp hsender
  refine ⟨⟨t, ht, haddr, fun hhonours => ?_⟩, t', ht', haddr', fun hhonours => ?_⟩
  · exact hhonours _ hforward _ _ hcontact
      (Or.inr ⟨votePrune, List.mem_cons_self, rfl, rfl, _, rfl, List.mem_cons_self⟩) haddr
  · exact hhonours _ hforward' _ _ hcontact' (Or.inl rfl) haddr'

end Network

end TrustNode.Gossip
