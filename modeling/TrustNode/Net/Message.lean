import TrustNode.Gossip.Message
import TrustNode.Turbine.Shred

namespace TrustNode.Net

open TrustNode.Gossip
open TrustNode.Turbine

def maxDatagram : ℕ := 64 * 1024

structure Json (α : Type) where
  toVec : α → Except String Bytes
  fromSlice : Bytes → Except String α

inductive NetMessage where
  | shred (shred : Shred)
  | gossip (message : GossipMessage)
deriving DecidableEq

inductive NetError where
  | encode (e : String)
  | malformed (e : String)
  | tooLarge (n : ℕ)
  | io (e : String)
deriving DecidableEq

def NetError.toString : NetError → String
  | .encode e => "encode error: " ++ e
  | .malformed e => "malformed datagram: " ++ e
  | .tooLarge n => s!"datagram too large: {n} > {maxDatagram} bytes"
  | .io e => "io error: " ++ e

def magic : Bytes := [0x54, 0x4E]

def tagShred : UInt8 := 1

def tagGossip : UInt8 := 2

namespace NetMessage

def kind : NetMessage → String
  | .shred _ => "shred"
  | .gossip _ => "gossip"

def tag : NetMessage → UInt8
  | .shred _ => tagShred
  | .gossip _ => tagGossip

def json : NetMessage → Bytes
  | .shred s => JsonText.object [("Shred", s.json)]
  | .gossip message => JsonText.object [("Gossip", message.json)]

def encode (toVec : NetMessage → Except String Bytes) (msg : NetMessage) : Except NetError Bytes :=
  match toVec msg with
  | .error e => .error (.encode e)
  | .ok body =>
    let total := magic.length + 1 + body.length
    if maxDatagram < total then .error (.tooLarge total) else .ok (magic ++ msg.tag :: body)

variable (J : Json NetMessage)

def parse (name : String) (body : Bytes) : Except NetError NetMessage :=
  (J.fromSlice body).mapError fun e => .malformed (name ++ ": " ++ e)

def decode (bytes : Bytes) : Except NetError NetMessage :=
  match bytes.drop magic.length with
  | [] => .error (.malformed "datagram too short")
  | tag :: body =>
    if bytes.take magic.length ≠ magic then .error (.malformed "bad magic")
    else if tag = tagShred then parse J "shred" body
    else if tag = tagGossip then parse J "gossip" body
    else .error (.malformed ("unknown tag " ++ toString tag.toNat))

end NetMessage

structure Datagram where
  bytes : Bytes
  peer : SocketAddr

def recv (J : Json NetMessage) :
    List Datagram → Option ((NetMessage × SocketAddr) × List Datagram)
  | [] => none
  | d :: rest =>
    match NetMessage.decode J (d.bytes.take maxDatagram) with
    | .ok msg => some ((msg, d.peer), rest)
    | .error _ => recv J rest

def Json.RoundTrips {α : Type} (J : Json α) : Prop :=
  ∀ a bytes, J.toVec a = .ok bytes → J.fromSlice bytes = .ok a

namespace NetMessage

variable {J : Json NetMessage} {msg : NetMessage} {bytes : Bytes}

theorem parse_eq_ok {name : String} {body : Bytes} :
    parse J name body = .ok msg ↔ J.fromSlice body = .ok msg := by
  rw [parse]
  cases J.fromSlice body with
  | error e => simp [Except.mapError]
  | ok m => simp [Except.mapError]

theorem decode_eq_ok :
    decode J bytes = .ok msg ↔ ∃ tag body, bytes = magic ++ tag :: body ∧
      (tag = tagShred ∨ tag = tagGossip) ∧ J.fromSlice body = .ok msg := by
  constructor
  · intro h
    rw [decode] at h
    cases hdrop : bytes.drop magic.length with
    | nil => rw [hdrop] at h; cases h
    | cons tag body =>
      rw [hdrop] at h
      dsimp only at h
      split_ifs at h with hmagic hshred hgossip
      all_goals
        have hsplit := (List.take_append_drop magic.length bytes).symm
        rw [hdrop, not_not.mp hmagic] at hsplit
      · exact ⟨tag, body, hsplit, .inl hshred, parse_eq_ok.mp h⟩
      · exact ⟨tag, body, hsplit, .inr hgossip, parse_eq_ok.mp h⟩
  · rintro ⟨tag, body, rfl, htag, hbody⟩
    rw [decode, List.drop_left, List.take_left]
    dsimp only
    rw [if_neg (not_not.mpr rfl)]
    rcases htag with rfl | rfl
    · rw [if_pos rfl, parse_eq_ok, hbody]
    · rw [if_neg (by decide), if_pos rfl, parse_eq_ok, hbody]

theorem encode_eq_ok {toVec : NetMessage → Except String Bytes} (h : encode toVec msg = .ok bytes) :
    ∃ body, toVec msg = .ok body ∧ bytes = magic ++ msg.tag :: body ∧
      bytes.length ≤ maxDatagram := by
  rw [encode] at h
  cases hbody : toVec msg with
  | error e => rw [hbody] at h; cases h
  | ok body =>
    rw [hbody] at h
    dsimp only at h
    split_ifs at h with hlarge
    obtain rfl := Except.ok.inj h
    refine ⟨body, rfl, rfl, ?_⟩
    rw [List.length_append, List.length_cons]
    omega

theorem decode_encode (hJ : J.RoundTrips) (h : encode J.toVec msg = .ok bytes) :
    decode J (bytes.take maxDatagram) = .ok msg := by
  obtain ⟨body, hbody, rfl, hfits⟩ := encode_eq_ok h
  rw [List.take_of_length_le hfits, decode_eq_ok]
  refine ⟨msg.tag, body, rfl, ?_, hJ msg body hbody⟩
  cases msg with
  | shred s => exact .inl rfl
  | gossip m => exact .inr rfl

end NetMessage

end TrustNode.Net
