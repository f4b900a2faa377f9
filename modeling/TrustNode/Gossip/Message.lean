import TrustNode.Base.Crypto
import TrustNode.Base.Serde

namespace TrustNode.Gossip

open Bytes
open JsonText

inductive MessageType where
  | push
  | pullRequest
  | pullResponse
  | prune
  | ping
  | pong
deriving DecidableEq

def MessageType.byte : MessageType → UInt8
  | push => 0
  | pullRequest => 1
  | pullResponse => 2
  | prune => 3
  | ping => 4
  | pong => 5

def MessageType.json : MessageType → Bytes
  | push => text "Push"
  | pullRequest => text "PullRequest"
  | pullResponse => text "PullResponse"
  | prune => text "Prune"
  | ping => text "Ping"
  | pong => text "Pong"

structure SocketAddr where
  ip : Vector UInt8 4
  port : UInt16
deriving DecidableEq

namespace SocketAddr

def localhost (port : UInt16) : SocketAddr := ⟨#v[127, 0, 0, 1], port⟩

def json (addr : SocketAddr) : Bytes :=
  object [("ip", bytes addr.ip.toList), ("port", number addr.port.toNat)]

def isUnspecified (addr : SocketAddr) : Bool := addr.ip == #v[0, 0, 0, 0]

end SocketAddr

structure ContactInfo where
  pubkey : Bytes32
  gossip : SocketAddr
  tpu : SocketAddr
  rpc : SocketAddr
  tvu : SocketAddr
  stake : UInt64
  version : String
  wallclock : UInt64
deriving DecidableEq

def ContactInfo.default (validatorId : Bytes32) : ContactInfo where
  pubkey := validatorId
  gossip := .localhost 8000
  tpu := .localhost 8001
  rpc := .localhost 8002
  tvu := .localhost 8003
  stake := 0
  version := "0.1.0"
  wallclock := 0

def ContactInfo.json (c : ContactInfo) : Bytes :=
  object [("pubkey", bytes c.pubkey.toList), ("gossip", c.gossip.json), ("tpu", c.tpu.json),
    ("rpc", c.rpc.json), ("tvu", c.tvu.json), ("stake", number c.stake.toNat),
    ("version", text c.version), ("wallclock", number c.wallclock.toNat)]

structure PushData where
  id : Bytes32
  content : Bytes
  kind : String
deriving DecidableEq

def PushData.json (data : PushData) : Bytes :=
  object [("id", bytes data.id.toList), ("content", bytes data.content), ("kind", text data.kind)]

inductive GossipPayload where
  | push (data : PushData)
  | pullRequest (filters : List (String × UInt64)) (contactInfo : ContactInfo)
  | pullResponse (items : List PushData) (contactInfo : ContactInfo)
  | prune (kinds : List String) (contact : Bytes32)
  | ping (nonce : UInt64)
  | pong (nonce : UInt64)
deriving DecidableEq

def GossipPayload.json : GossipPayload → Bytes
  | push data => object [("Push", data.json)]
  | pullRequest filters contactInfo =>
    object [("PullRequest", object
      [("filters", array (filters.map fun f => array [text f.1, number f.2.toNat])),
        ("contact_info", contactInfo.json)])]
  | pullResponse items contactInfo =>
    object [("PullResponse", object
      [("items", array (items.map PushData.json)), ("contact_info", contactInfo.json)])]
  | prune kinds contact =>
    object [("Prune", object [("kinds", array (kinds.map text)), ("from", bytes contact.toList)])]
  | ping nonce => object [("Ping", object [("nonce", number nonce.toNat)])]
  | pong nonce => object [("Pong", object [("nonce", number nonce.toNat)])]

structure GossipMessage where
  sender : Bytes32
  messageType : MessageType
  payload : GossipPayload
  timestamp : UInt64
  signature : Bytes
deriving DecidableEq

namespace GossipMessage

def new (now : UInt64) (sender : Bytes32) (messageType : MessageType) (payload : GossipPayload) :
    GossipMessage where
  sender := sender
  messageType := messageType
  payload := payload
  timestamp := now
  signature := []

def signableData (toJson : GossipPayload → Bytes) (msg : GossipMessage) : Bytes :=
  msg.sender.toList ++ [msg.messageType.byte] ++ u64ToLe msg.timestamp ++ toJson msg.payload

def sign (toJson : GossipPayload → Bytes) (key : SigningKey) (msg : GossipMessage) :
    GossipMessage :=
  let bound := { msg with sender := key.verifyingKey }
  { bound with signature := key.sign (bound.signableData toJson) }

def verifySignature (C : Crypto) (toJson : GossipPayload → Bytes) (msg : GossipMessage) : Bool :=
  C.verify msg.sender (msg.signableData toJson) msg.signature

def json (msg : GossipMessage) : Bytes :=
  object [("from", bytes msg.sender.toList), ("message_type", msg.messageType.json),
    ("payload", msg.payload.json), ("timestamp", number msg.timestamp.toNat),
    ("signature", bytes msg.signature)]

def pushData (msg : GossipMessage) : Option PushData :=
  match msg.payload with
  | .push data => some data
  | _ => none

end GossipMessage

end TrustNode.Gossip
