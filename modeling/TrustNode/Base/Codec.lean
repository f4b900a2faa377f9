import TrustNode.Base.Serde

structure Codec (α : Type) where
  valid : α → Prop
  write : α → Bytes
  read : Bytes → Option (α × Bytes)
  read_write : ∀ {a : α}, valid a → ∀ rest, read (write a ++ rest) = some (a, rest)

namespace Codec

open Bytes

variable {α β : Type}

theorem write_append_inj (c : Codec α) {a b : α} (ha : c.valid a) (hb : c.valid b)
    {rest rest' : Bytes} (h : c.write a ++ rest = c.write b ++ rest') : a = b ∧ rest = rest' := by
  have hread := c.read_write ha rest
  rw [h, c.read_write hb rest'] at hread
  obtain ⟨hab, hrest⟩ := Prod.mk.inj (Option.some.inj hread)
  exact ⟨hab.symm, hrest.symm⟩

theorem flatMap_write_inj (c : Codec α) (hne : ∀ a, c.write a ≠ []) {l l' : List α}
    (hl : ∀ a ∈ l, c.valid a) (hl' : ∀ a ∈ l', c.valid a)
    (h : l.flatMap c.write = l'.flatMap c.write) : l = l' := by
  induction l generalizing l' with
  | nil =>
    cases l' with
    | nil => rfl
    | cons b l' =>
      rw [List.flatMap_nil, List.flatMap_cons] at h
      exact absurd (List.append_eq_nil_iff.mp h.symm).1 (hne b)
  | cons a l ih =>
    cases l' with
    | nil =>
      rw [List.flatMap_nil, List.flatMap_cons] at h
      exact absurd (List.append_eq_nil_iff.mp h).1 (hne a)
    | cons b l' =>
      rw [List.forall_mem_cons] at hl hl'
      rw [List.flatMap_cons, List.flatMap_cons] at h
      obtain ⟨rfl, hrest⟩ := c.write_append_inj hl.1 hl'.1 h
      rw [ih hl.2 hl'.2 hrest]

def byte : Codec UInt8 where
  valid _ := True
  write b := [b]
  read
    | [] => none
    | b :: rest => some (b, rest)
  read_write _ _ := rfl

def flag : Codec Bool where
  valid _ := True
  write b := [if b then 1 else 0]
  read
    | [] => none
    | b :: rest => some (b = 1, rest)
  read_write {b} _ _ := by cases b <;> rfl

def u64 : Codec UInt64 where
  valid _ := True
  write := u64ToLe
  read := readU64
  read_write {x} _ rest := readU64_append x rest

def bytes32 : Codec Bytes32 where
  valid _ := True
  write := Bytes32.toList
  read := readBytes32
  read_write {key} _ rest := readBytes32_append key rest

def pair (c : Codec α) (d : Codec β) : Codec (α × β) where
  valid p := c.valid p.1 ∧ d.valid p.2
  write p := c.write p.1 ++ d.write p.2
  read data := (c.read data).bind fun p => (d.read p.2).map fun q => ((p.1, q.1), q.2)
  read_write {p} hp rest := by
    rw [List.append_assoc, c.read_write hp.1, Option.bind_some, d.read_write hp.2, Option.map_some]

def imap (c : Codec α) (f : α → β) (g : β → α) (h : ∀ b, f (g b) = b) : Codec β where
  valid b := c.valid (g b)
  write b := c.write (g b)
  read data := (c.read data).map fun p => (f p.1, p.2)
  read_write {b} hb rest := by rw [c.read_write hb, Option.map_some, h]

def readLength (data : Bytes) : Option (ℕ × Bytes) :=
  if data.length < 4 then none else some (leNat (data.take 4), data.drop 4)

theorem readLength_append {n : ℕ} (h : n < 2 ^ 32) (rest : Bytes) :
    readLength (u32ToLe n ++ rest) = some (n, rest) := by
  have hlen : ¬(u32ToLe n ++ rest).length < 4 := by
    rw [List.length_append, length_u32ToLe]
    omega
  rw [readLength, if_neg hlen, List.take_left' (length_u32ToLe n),
    List.drop_left' (length_u32ToLe n), leNat_u32ToLe h]

def readMany (c : Codec α) : ℕ → Bytes → Option (List α × Bytes)
  | 0, data => some ([], data)
  | n + 1, data =>
    (c.read data).bind fun p => (readMany c n p.2).map fun q => (p.1 :: q.1, q.2)

theorem readMany_flatMap (c : Codec α) {l : List α} (h : ∀ a ∈ l, c.valid a) (rest : Bytes) :
    readMany c l.length (l.flatMap c.write ++ rest) = some (l, rest) := by
  induction l with
  | nil => rfl
  | cons a l ih =>
    rw [List.forall_mem_cons] at h
    rw [List.length_cons, readMany, List.flatMap_cons, List.append_assoc, c.read_write h.1,
      Option.bind_some, ih h.2, Option.map_some]

def counted (c : Codec α) : Codec (List α) where
  valid l := l.length < 2 ^ 32 ∧ ∀ a ∈ l, c.valid a
  write l := u32ToLe l.length ++ l.flatMap c.write
  read data := (readLength data).bind fun p => readMany c p.1 p.2
  read_write {l} hl rest := by
    rw [List.append_assoc, readLength_append hl.1, Option.bind_some, readMany_flatMap c hl.2]

def blob : Codec Bytes where
  valid data := data.length < 2 ^ 32
  write data := u32ToLe data.length ++ data
  read data := (readLength data).bind fun p =>
    if p.2.length < p.1 then none else some (p.2.take p.1, p.2.drop p.1)
  read_write {data} hdata rest := by
    rw [List.append_assoc, readLength_append hdata, Option.bind_some,
      if_neg (by rw [List.length_append]; omega), List.take_left, List.drop_left]

@[simp] theorem length_write_pair (c : Codec α) (d : Codec β) (p : α × β) :
    ((c.pair d).write p).length = (c.write p.1).length + (d.write p.2).length :=
  List.length_append

@[simp] theorem length_write_imap (c : Codec α) (f : α → β) (g : β → α) (h : ∀ b, f (g b) = b)
    (b : β) : ((c.imap f g h).write b).length = (c.write (g b)).length := rfl

@[simp] theorem length_write_counted (c : Codec α) (l : List α) :
    (c.counted.write l).length = 4 + (l.map fun a => (c.write a).length).sum := by
  rw [counted, List.length_append, length_u32ToLe, List.length_flatMap]

@[simp] theorem length_write_blob (data : Bytes) : (blob.write data).length = 4 + data.length := by
  rw [blob, List.length_append, length_u32ToLe]

@[simp] theorem length_write_u64 (x : UInt64) : (u64.write x).length = 8 := length_u64ToLe x

@[simp] theorem length_write_bytes32 (key : Bytes32) : (bytes32.write key).length = 32 :=
  key.length_eq

def serde (c : Codec α) : Serde α where
  toVec a := some (c.write a)
  fromSlice data := (c.read data).bind fun p => if p.2.isEmpty then some p.1 else none

theorem serde_roundTrips (c : Codec α) {a : α} (h : c.valid a) : c.serde.RoundTrips a := by
  have hread := c.read_write h []
  rw [List.append_nil] at hread
  refine ⟨c.write a, rfl, ?_⟩
  change (c.read (c.write a)).bind _ = _
  rw [hread]
  rfl

end Codec
