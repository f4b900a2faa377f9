import TrustNode.Gossip.Crds

namespace TrustNode.Gossip

structure ProtocolStats where
  messagesHandled : UInt64
  invalidMessages : UInt64
  prunesReceived : UInt64
  pongsReceived : UInt64
deriving DecidableEq

structure GossipProtocol where
  crds : Crds
  validatorId : Bytes32
  signer : SigningKey
  msgSender : List GossipMessage
  receivedCount : Table MessageType UInt64
  pendingPings : Table UInt64 Bytes32
  pruned : Table (Bytes32 × String) UInt64
  stats : ProtocolStats

structure Ambient where
  now : ℕ → UInt64
  pruneOrder : ℕ → Arrangement (Bytes32 × UInt64)
  entryOrder : ℕ → Arrangement CrdsEntry
  contactOrder : Arrangement ContactInfo

namespace GossipProtocol

variable (C : Crypto) (toJson : GossipPayload → Bytes)

def new (signer : SigningKey) (crds : Crds) : GossipProtocol where
  crds := crds
  validatorId := signer.verifyingKey
  signer := signer
  msgSender := []
  receivedCount := ∅
  pendingPings := ∅
  pruned := ∅
  stats := ⟨0, 0, 0, 0⟩

def signed (now : UInt64) (messageType : MessageType) (payload : GossipPayload)
    (p : GossipProtocol) : GossipMessage :=
  (GossipMessage.new now p.validatorId messageType payload).sign toJson p.signer

def send (msg : GossipMessage) (p : GossipProtocol) : GossipProtocol :=
  { p with msgSender := p.msgSender ++ [msg] }

def isPruned (peer : Bytes32) (kind : String) (p : GossipProtocol) : Bool :=
  (peer, kind) ∈ p.pruned

def forwardsTo (msg : GossipMessage) (kind : String) (p : GossipProtocol) (peer : ContactInfo) :
    Bool :=
  !(peer.pubkey = p.validatorId || peer.pubkey = msg.sender) && !p.isPruned peer.pubkey kind

def forwardPush (env : Ambient) (msg : GossipMessage) (p : GossipProtocol) : GossipProtocol :=
  match msg.pushData with
  | none => p
  | some data =>
    let peers := p.crds.randomContacts env.contactOrder 3
    (peers.filter (p.forwardsTo msg data.kind)).zipIdx.foldl
      (fun p i => p.send (p.signed toJson (env.now (i.2 + 1)) .push msg.payload)) p

def handlePush (env : Ambient) (msg : GossipMessage) (p : GossipProtocol) : GossipProtocol :=
  let (inserted, crds) := p.crds.insertPush (env.now 0) (env.pruneOrder 0) msg
  let p := { p with crds := crds }
  if inserted then p.forwardPush toJson env msg else p

def selfContact (p : GossipProtocol) : ContactInfo :=
  p.crds.selfInfo.getD (.default p.validatorId)

def handlePullRequest (env : Ambient) (msg : GossipMessage) (p : GossipProtocol) :
    GossipProtocol :=
  match msg.payload with
  | .pullRequest filters _ =>
    let items := filters.zipIdx.flatMap fun f =>
      ((p.crds.entriesNewerThan (env.entryOrder f.2) f.1.2).map CrdsEntry.data).filter
        fun data => data.kind = f.1.1
    p.send (p.signed toJson (env.now 0) .pullResponse (.pullResponse items p.selfContact))
  | _ => p

def handlePullResponse (env : Ambient) (msg : GossipMessage) (p : GossipProtocol) :
    GossipProtocol :=
  match msg.payload with
  | .pullResponse items contactInfo =>
    let crds := items.zipIdx.foldl
      (fun s i => (s.insertPush (env.now i.2) (env.pruneOrder i.2)
        (.new (env.now i.2) msg.sender .push (.push i.1))).2) p.crds
    { p with crds := crds.insertContact contactInfo }
  | _ => p

def handlePrune (env : Ambient) (msg : GossipMessage) (p : GossipProtocol) : GossipProtocol :=
  let p := match msg.payload with
    | .prune kinds _ =>
      { p with pruned := kinds.foldl (fun t kind => t.insert (msg.sender, kind) (env.now 0)) p.pruned }
    | _ => p
  { p with stats := { p.stats with prunesReceived := p.stats.prunesReceived + 1 } }

def handlePing (env : Ambient) (msg : GossipMessage) (p : GossipProtocol) : GossipProtocol :=
  match msg.payload with
  | .ping nonce => p.send (p.signed toJson (env.now 0) .pong (.pong nonce))
  | _ => p

def handlePong (msg : GossipMessage) (p : GossipProtocol) : GossipProtocol :=
  match msg.payload with
  | .pong nonce =>
    { p with
      pendingPings := p.pendingPings.erase nonce
      stats := { p.stats with pongsReceived := p.stats.pongsReceived + 1 } }
  | _ => p

def dispatch (env : Ambient) (msg : GossipMessage) (p : GossipProtocol) : GossipProtocol :=
  match msg.messageType with
  | .push => p.handlePush toJson env msg
  | .pullRequest => p.handlePullRequest toJson env msg
  | .pullResponse => p.handlePullResponse env msg
  | .prune => p.handlePrune env msg
  | .ping => p.handlePing toJson env msg
  | .pong => p.handlePong msg

def handleMessage (env : Ambient) (msg : GossipMessage) (p : GossipProtocol) : GossipProtocol :=
  if !msg.verifySignature C toJson then
    { p with stats := { p.stats with invalidMessages := p.stats.invalidMessages + 1 } }
  else
    let count := (p.receivedCount.lookup msg.messageType).getD 0
    let p := { p with receivedCount := p.receivedCount.insert msg.messageType (count + 1) }
    let p := p.dispatch toJson env msg
    { p with stats := { p.stats with messagesHandled := p.stats.messagesHandled + 1 } }

def sendPing (now nonce : UInt64) (peer : ContactInfo) (p : GossipProtocol) : GossipProtocol :=
  let p := { p with pendingPings := p.pendingPings.insert nonce peer.pubkey }
  p.send (p.signed toJson now .ping (.ping nonce))

end GossipProtocol

end TrustNode.Gossip
