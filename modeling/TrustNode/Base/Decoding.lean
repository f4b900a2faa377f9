import TrustNode.Base.Bytes

structure PrefixDecodes {α β ε : Type*} (encode : α → List β) (decode : List β → Except ε α) :
    Prop where
  ok_iff : ∀ data a, decode data = .ok a ↔ encode a <+: data

namespace PrefixDecodes

variable {α β ε : Type*} {encode : α → List β} {decode : List β → Except ε α}

theorem round_trip (h : PrefixDecodes encode decode) (a : α) : decode (encode a) = .ok a :=
  (h.ok_iff _ _).mpr (List.prefix_refl _)

theorem eq_of_isPrefix (h : PrefixDecodes encode decode) {a b : α}
    (hab : encode a <+: encode b) : a = b := by
  have ha := (h.ok_iff _ _).mpr hab
  rw [h.round_trip b] at ha
  exact (Except.ok.inj ha).symm

end PrefixDecodes

namespace Bytes

def sliceChecked (data : Bytes) (start stop : ℕ) : Option Bytes :=
  if start ≤ stop ∧ stop ≤ data.length then some ((data.drop start).take (stop - start)) else none

def u64Checked (bytes : Bytes) : Option UInt64 :=
  if bytes.length = 8 then some (u64FromLe bytes) else none

def bytes32Checked (bytes : Bytes) : Option Bytes32 :=
  if h : bytes.length = 32 then some ⟨bytes, h⟩ else none

theorem sliceChecked_u64 (data : Bytes) (start : ℕ) (h : start + 8 ≤ data.length) :
    (sliceChecked data start (start + 8)).bind u64Checked =
      some (u64FromLe ((data.drop start).take 8)) := by
  have hlen : ((data.drop start).take 8).length = 8 := by
    rw [List.length_take, List.length_drop]
    omega
  rw [sliceChecked, if_pos ⟨Nat.le_add_right _ _, h⟩, Nat.add_sub_cancel_left, Option.bind_some,
    u64Checked, if_pos hlen]

theorem sliceChecked_bytes32 (data : Bytes) (start : ℕ) (h : start + 32 ≤ data.length) :
    (sliceChecked data start (start + 32)).bind bytes32Checked =
      some (Bytes32.slice data start h) := by
  have hlen : ((data.drop start).take 32).length = 32 := by
    rw [List.length_take, List.length_drop]
    omega
  rw [sliceChecked, if_pos ⟨Nat.le_add_right _ _, h⟩, Nat.add_sub_cancel_left, Option.bind_some,
    bytes32Checked, dif_pos hlen]
  rfl

theorem u64ToLe_u64FromLe {bytes : Bytes} (h : bytes.length = 8) :
    u64ToLe (u64FromLe bytes) = bytes := by
  have hlt : leNat bytes < 2 ^ 64 := by
    have hbound := leNat_lt bytes
    rw [h] at hbound
    exact hbound
  rw [u64ToLe, u64FromLe, UInt64.toNat_ofNat', Nat.mod_eq_of_lt hlt]
  conv_rhs => rw [← ofNat_leNat bytes, h]

theorem u64ToLe_isPrefix {body : Bytes} {x : UInt64} :
    u64ToLe x <+: body ↔ 8 ≤ body.length ∧ u64FromLe (body.take 8) = x := by
  constructor
  · rintro ⟨rest, rfl⟩
    rw [List.take_left' (length_u64ToLe x), List.length_append, length_u64ToLe, u64FromLe_u64ToLe]
    exact ⟨Nat.le_add_right _ _, rfl⟩
  · rintro ⟨hlen, rfl⟩
    rw [u64ToLe_u64FromLe (List.length_take_of_le hlen)]
    exact List.take_prefix 8 body

theorem bytes32_isPrefix {body : Bytes} {key : Bytes32} :
    key.toList <+: body ↔ 32 ≤ body.length ∧ body.take 32 = key.toList := by
  rw [List.prefix_iff_eq_take, key.length_eq, eq_comm]
  refine ⟨fun h => ⟨?_, h⟩, fun h => h.2⟩
  have hlen := congrArg List.length h
  rw [List.length_take, key.length_eq] at hlen
  omega

theorem append_isPrefix {front back body : Bytes} {n : ℕ} (h : front.length = n) :
    front ++ back <+: body ↔ front <+: body ∧ back <+: body.drop n := by
  constructor
  · rintro ⟨rest, rfl⟩
    rw [List.append_assoc, List.drop_left' h]
    exact ⟨List.prefix_append _ _, List.prefix_append _ _⟩
  · rintro ⟨⟨tail, rfl⟩, hback⟩
    rw [List.drop_left' h] at hback
    exact (List.prefix_append_right_inj front).mpr hback

end Bytes
