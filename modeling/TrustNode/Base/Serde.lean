import TrustNode.Base.Bytes

structure Serde (α : Type) where
  toVec : α → Option Bytes
  fromSlice : Bytes → Option α

namespace Serde

variable {α : Type}

def encoded (S : Serde α) (a : α) : Bytes := (S.toVec a).getD []

def RoundTrips (S : Serde α) (a : α) : Prop :=
  ∃ bytes, S.toVec a = some bytes ∧ S.fromSlice bytes = some a

theorem RoundTrips.fromSlice_encoded {S : Serde α} {a : α} (h : S.RoundTrips a) :
    S.fromSlice (S.encoded a) = some a := by
  obtain ⟨bytes, hto, hfrom⟩ := h
  rw [encoded, hto, Option.getD_some, hfrom]

end Serde

-- Compact JSON as serde_json writes it; the numbers are ASCII codes.
namespace JsonText

def number (n : ℕ) : Bytes := (Nat.toDigits 10 n).map fun c => UInt8.ofNat c.toNat

def hexDigit (n : UInt8) : UInt8 := if n < 10 then 48 + n else 87 + n

def escapeByte (b : UInt8) : Bytes :=
  if b = 34 ∨ b = 92 then [92, b]
  else if b = 8 then [92, 98]
  else if b = 9 then [92, 116]
  else if b = 10 then [92, 110]
  else if b = 12 then [92, 102]
  else if b = 13 then [92, 114]
  else if b < 32 then [92, 117, 48, 48, hexDigit (b / 16), hexDigit (b % 16)]
  else [b]

def text (s : String) : Bytes := [34] ++ s.toUTF8.toList.flatMap escapeByte ++ [34]

def array (items : List Bytes) : Bytes := [91] ++ List.intercalate [44] items ++ [93]

def bytes (data : Bytes) : Bytes := array (data.map fun b => number b.toNat)

def object (fields : List (String × Bytes)) : Bytes :=
  [123] ++ List.intercalate [44] (fields.map fun f => text f.1 ++ [58] ++ f.2) ++ [125]

end JsonText

namespace Bytes

def readU64 (data : Bytes) : Option (UInt64 × Bytes) :=
  if data.length < 8 then none else some (u64FromLe (data.take 8), data.drop 8)

def readBytes32 (data : Bytes) : Option (Bytes32 × Bytes) :=
  if h : data.length < 32 then none
  else some (Bytes32.slice data 0 (by omega), data.drop 32)

theorem readU64_append (x : UInt64) (rest : Bytes) : readU64 (u64ToLe x ++ rest) = some (x, rest) := by
  have hlen : ¬(u64ToLe x ++ rest).length < 8 := by
    rw [List.length_append, length_u64ToLe]
    omega
  rw [readU64, if_neg hlen, List.take_left' (length_u64ToLe x), List.drop_left' (length_u64ToLe x),
    u64FromLe_u64ToLe]

theorem readBytes32_append (key : Bytes32) (rest : Bytes) :
    readBytes32 (key.toList ++ rest) = some (key, rest) := by
  have hlen : ¬(key.toList ++ rest).length < 32 := by
    rw [List.length_append, key.length_eq]
    omega
  have hslice : ∀ h, Bytes32.slice (key.toList ++ rest) 0 h = key :=
    fun h => Bytes32.slice_append key (show ([] : Bytes).length = 0 from rfl) h
  rw [readBytes32, dif_neg hlen, hslice, List.drop_left' key.length_eq]

end Bytes
