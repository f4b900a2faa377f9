import TrustNode.Base.Crypto
import TrustNode.Base.Serde

namespace TrustNode.Turbine

open Bytes

inductive ShredType where
  | data
  | coding
deriving DecidableEq

def ShredType.byte : ShredType → UInt8
  | data => 0
  | coding => 1

def ShredType.json : ShredType → Bytes
  | data => JsonText.text "Data"
  | coding => JsonText.text "Coding"

structure ShredId where
  slot : UInt64
  index : UInt64
  shredType : ShredType
deriving DecidableEq

def ShredId.json (id : ShredId) : Bytes :=
  JsonText.object [("slot", JsonText.number id.slot.toNat), ("index", JsonText.number id.index.toNat),
    ("shred_type", id.shredType.json)]

structure Shred where
  id : ShredId
  slot : UInt64
  index : UInt64
  shredType : ShredType
  payload : Bytes
  hash : Bytes32
  signer : Bytes32
  signature : Bytes
deriving DecidableEq

namespace Shred

def json (s : Shred) : Bytes :=
  JsonText.object [("id", s.id.json), ("slot", JsonText.number s.slot.toNat),
    ("index", JsonText.number s.index.toNat), ("shred_type", s.shredType.json),
    ("payload", JsonText.bytes s.payload), ("hash", JsonText.bytes s.hash.toList),
    ("signer", JsonText.bytes s.signer.toList), ("signature", JsonText.bytes s.signature)]

def computeHash (C : Crypto) (payload : Bytes) : Bytes32 := C.sha256 payload

def new (C : Crypto) (shredType : ShredType) (slot index : UInt64) (payload : Bytes) : Shred where
  id := { slot := slot, index := index, shredType := shredType }
  slot := slot
  index := index
  shredType := shredType
  payload := payload
  hash := computeHash C payload
  signer := Bytes32.splat 0
  signature := []

def newData (C : Crypto) (slot index : UInt64) (payload : Bytes) : Shred :=
  new C .data slot index payload

def newCoding (C : Crypto) (slot index : UInt64) (payload : Bytes) : Shred :=
  new C .coding slot index payload

def signableData (s : Shred) : Bytes :=
  s.shredType.byte :: (u64ToLe s.slot ++ u64ToLe s.index ++ u32ToLe s.payload.length ++ s.payload)

def sign (key : SigningKey) (s : Shred) : Shred :=
  { s with signer := key.verifyingKey, signature := key.sign s.signableData }

def verifySignature (C : Crypto) (s : Shred) : Bool := C.verify s.signer s.signableData s.signature

def verify (C : Crypto) (s : Shred) : Bool := s.hash == computeHash C s.payload

end Shred

end TrustNode.Turbine
