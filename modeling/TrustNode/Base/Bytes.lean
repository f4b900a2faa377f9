import Mathlib.Data.List.Lex
import Mathlib.Order.Basic
import Mathlib.Tactic

abbrev Bytes := List UInt8

namespace Bytes

def leNat : Bytes → ℕ
  | [] => 0
  | b :: bs => b.toNat + 256 * leNat bs

def ofNat : ℕ → ℕ → Bytes
  | 0, _ => []
  | n + 1, x => UInt8.ofNat (x % 256) :: ofNat n (x / 256)

@[simp] theorem length_ofNat (n x : ℕ) : (ofNat n x).length = n := by
  induction n generalizing x with
  | zero => rfl
  | succ n ih => simp [ofNat, ih]

theorem leNat_ofNat (n x : ℕ) (h : x < 256 ^ n) : leNat (ofNat n x) = x := by
  induction n generalizing x with
  | zero => simp at h; simp [ofNat, leNat, h]
  | succ n ih =>
    have hx : x / 256 < 256 ^ n := by
      rw [pow_succ] at h
      omega
    simp only [ofNat, leNat, ih _ hx, UInt8.toNat_ofNat']
    omega

theorem ofNat_leNat (bs : Bytes) : ofNat bs.length (leNat bs) = bs := by
  induction bs with
  | nil => rfl
  | cons b bs ih =>
    have hb := b.toNat_lt
    have hmod : (b.toNat + 256 * leNat bs) % 256 = b.toNat := by omega
    have hdiv : (b.toNat + 256 * leNat bs) / 256 = leNat bs := by omega
    rw [List.length_cons, leNat, ofNat, hmod, hdiv, ih, UInt8.ofNat_toNat]

theorem leNat_lt (bs : Bytes) : leNat bs < 256 ^ bs.length := by
  induction bs with
  | nil => exact Nat.one_pos
  | cons b bs ih =>
    have hb := b.toNat_lt
    rw [List.length_cons, leNat, pow_succ]
    omega

def u64ToLe (x : UInt64) : Bytes := ofNat 8 x.toNat

def u64FromLe (bs : Bytes) : UInt64 := UInt64.ofNat (leNat bs)

@[simp] theorem length_u64ToLe (x : UInt64) : (u64ToLe x).length = 8 := length_ofNat 8 _

@[simp] theorem u64FromLe_u64ToLe (x : UInt64) : u64FromLe (u64ToLe x) = x := by
  have hx : x.toNat < 256 ^ 8 := by simpa using x.toNat_lt
  rw [u64FromLe, u64ToLe, leNat_ofNat 8 _ hx, UInt64.ofNat_toNat]

def u32ToLe (n : ℕ) : Bytes := ofNat 4 (n % 2 ^ 32)

@[simp] theorem length_u32ToLe (n : ℕ) : (u32ToLe n).length = 4 := length_ofNat 4 _

theorem leNat_u32ToLe {n : ℕ} (h : n < 2 ^ 32) : leNat (u32ToLe n) = n := by
  rw [u32ToLe, Nat.mod_eq_of_lt h, leNat_ofNat 4 n (by simpa using h)]

theorem u32ToLe_leNat {bs : Bytes} (h : bs.length = 4) : u32ToLe (leNat bs) = bs := by
  have hlt : leNat bs < 2 ^ 32 := by
    have hbound := leNat_lt bs
    rw [h] at hbound
    exact hbound
  rw [u32ToLe, Nat.mod_eq_of_lt hlt, ← h, ofNat_leNat]

end Bytes

structure Bytes32 where
  toList : Bytes
  length_eq : toList.length = 32
deriving DecidableEq

namespace Bytes32

def splat (b : UInt8) : Bytes32 := ⟨List.replicate 32 b, by simp⟩

theorem toList_injective : Function.Injective toList := by
  rintro ⟨xs, hx⟩ ⟨ys, hy⟩ h
  cases h
  rfl

def slice (data : Bytes) (start : ℕ) (h : start + 32 ≤ data.length) : Bytes32 :=
  ⟨(data.drop start).take 32, by rw [List.length_take, List.length_drop]; omega⟩

theorem slice_append (key : Bytes32) {front rest : Bytes} {start : ℕ} (hstart : front.length = start)
    (h : start + 32 ≤ (front ++ (key.toList ++ rest)).length) :
    slice (front ++ (key.toList ++ rest)) start h = key := by
  obtain ⟨bytes, hlen⟩ := key
  subst hstart
  simp [slice, List.take_left' hlen]

instance : Inhabited Bytes32 := ⟨splat 0⟩

theorem toNats_injective : Function.Injective fun b : Bytes32 => b.toList.map UInt8.toNat := by
  rintro ⟨xs, hx⟩ ⟨ys, hy⟩ h
  have he : xs = ys := List.map_injective_iff.mpr (fun _ _ => UInt8.toNat_inj.mp) h
  subst he
  rfl

instance : LinearOrder Bytes32 := LinearOrder.lift' _ toNats_injective

def hexDigit (n : ℕ) : Char := "0123456789abcdef".toList.getD n '0'

def hexEncode (bs : Bytes) : String :=
  String.ofList (bs.flatMap fun b => [hexDigit (b.toNat / 16), hexDigit (b.toNat % 16)])

def hex (n : ℕ) (b : Bytes32) : String := hexEncode (b.toList.take n)

end Bytes32
