import Mathlib.Algebra.Field.Basic
import Mathlib.Tactic

namespace TrustNode.Turbine.Gf

structure TableState where
  exp : Vector UInt8 512
  log : Vector UInt8 256
  x : UInt16

def shift (x : UInt16) : UInt16 :=
  let y := x <<< 1
  if y &&& 0x100 ≠ 0 then y ^^^ 0x11d else y

namespace TableState

def start : TableState where
  exp := Vector.replicate 512 0
  log := Vector.replicate 256 0
  x := 1

def fill (t : TableState) (i : ℕ) : TableState where
  exp := t.exp.setIfInBounds i t.x.toUInt8
  log := t.log.setIfInBounds t.x.toNat (UInt8.ofNat i)
  x := shift t.x

def filled (n : ℕ) : TableState := (List.range n).foldl fill start

end TableState

def expTable : Vector UInt8 512 :=
  Vector.ofFn fun i =>
    if h : 255 ≤ i.val ∧ i.val < 510 then (TableState.filled 255).exp[i.val - 255]
    else (TableState.filled 255).exp[i]

def logTable : Vector UInt8 256 := (TableState.filled 255).log

theorem toNat_lt (a : UInt8) : a.toNat < 256 := a.toNat_lt

def log (a : UInt8) : ℕ := logTable[(⟨a.toNat, toNat_lt a⟩ : Fin 256)].toNat

theorem log_add_log_lt (a b : UInt8) : log a + log b < 512 := Nat.add_lt_add (toNat_lt _) (toNat_lt _)

def mul (a b : UInt8) : UInt8 :=
  if a = 0 ∨ b = 0 then 0
  else expTable[(⟨log a + log b, log_add_log_lt a b⟩ : Fin 512)]

def inv (a : UInt8) (_ : a ≠ 0) : UInt8 := expTable[(⟨255 - log a, by omega⟩ : Fin 512)]

def pow (base : UInt8) (e : ℕ) : UInt8 := (fun out => mul out base)^[e] 1

section Powers

def double (a : UInt8) : UInt8 := (a <<< 1) ^^^ if a < 128 then 0 else 0x1d

def power (n : ℕ) : UInt8 := double^[n] 1

theorem forall_byte {P : UInt8 → Prop} (h : ∀ n < 256, P (UInt8.ofNat n)) (a : UInt8) : P a := by
  have ha := h a.toNat a.toNat_lt
  rwa [UInt8.ofNat_toNat] at ha

theorem shift_eq (a : UInt8) : shift a.toUInt16 = (double a).toUInt16 :=
  forall_byte (P := fun a => shift a.toUInt16 = (double a).toUInt16) (by decide +kernel) a

theorem double_eq_zero {a : UInt8} (h : double a = 0) : a = 0 :=
  forall_byte (P := fun a => double a = 0 → a = 0) (by decide +kernel) a h

theorem lt_128_iff (a : UInt8) : a < 128 ↔ a.toBitVec.msb = false := by
  rw [BitVec.msb_eq_false_iff_two_mul_lt, UInt8.lt_iff_toNat_lt]
  change a.toNat < 128 ↔ 2 * a.toNat < 2 ^ 8
  omega

theorem double_xor (a b : UInt8) : double (a ^^^ b) = double a ^^^ double b := by
  have hshift : (a ^^^ b) <<< 1 = (a <<< 1) ^^^ (b <<< 1) := by
    apply UInt8.toBitVec_inj.mp
    simp [BitVec.shiftLeft_xor_distrib]
  unfold double
  simp only [lt_128_iff, hshift, UInt8.toBitVec_xor, BitVec.msb_xor]
  cases a.toBitVec.msb <;> cases b.toBitVec.msb
  · simp
  · simp [UInt8.xor_assoc]
  · simp only [Bool.bne_false, Bool.true_eq_false, if_false, if_true, UInt8.xor_zero]
    ac_rfl
  · have hcancel : a <<< 1 ^^^ (0x1d : UInt8) ^^^ (b <<< 1 ^^^ (0x1d : UInt8)) =
        a <<< 1 ^^^ b <<< 1 ^^^ ((0x1d : UInt8) ^^^ 0x1d) := by ac_rfl
    simp only [bne_self_eq_false, Bool.true_eq_false, if_false, if_true, hcancel, UInt8.xor_self]

theorem double_injective : Function.Injective double := by
  intro a b h
  have hzero : double (a ^^^ b) = 0 := by rw [double_xor, h, UInt8.xor_self]
  exact UInt8.xor_eq_zero_iff.mp (double_eq_zero hzero)

theorem iterate_double_zero (n : ℕ) : double^[n] 0 = 0 := Function.iterate_fixed rfl n

theorem iterate_double_xor (n : ℕ) (a b : UInt8) :
    double^[n] (a ^^^ b) = double^[n] a ^^^ double^[n] b := by
  induction n generalizing a b with
  | zero => rfl
  | succ n ih => rw [Function.iterate_succ_apply, double_xor, ih]; rfl

theorem power_add (n m : ℕ) : power (n + m) = double^[n] (power m) :=
  Function.iterate_add_apply double n m 1

theorem power_ne_zero (n : ℕ) : power n ≠ 0 := by
  induction n with
  | zero => decide
  | succ n ih =>
    rw [power, Function.iterate_succ_apply']
    exact fun h => ih (double_eq_zero h)

def orbitAvoidsOne : ℕ → UInt8 → Bool
  | 0, _ => true
  | n + 1, a => a ≠ 1 && orbitAvoidsOne n (double a)

theorem ne_one_of_orbitAvoidsOne {n : ℕ} {a : UInt8} (h : orbitAvoidsOne n a = true) {d : ℕ}
    (hd : d < n) : double^[d] a ≠ 1 := by
  induction n generalizing a d with
  | zero => omega
  | succ n ih =>
    obtain ⟨hne, hrest⟩ := Bool.and_eq_true_iff.mp h
    cases d with
    | zero => simpa using hne
    | succ d => exact ih hrest (by omega)

theorem power_period : power 255 = 1 := by decide +kernel

theorem power_ne_one {d : ℕ} (hpos : 0 < d) (hlt : d < 255) : power d ≠ 1 := by
  obtain ⟨e, rfl⟩ := Nat.exists_eq_succ_of_ne_zero hpos.ne'
  have havoid : orbitAvoidsOne 254 (double 1) = true := by decide +kernel
  exact ne_one_of_orbitAvoidsOne havoid (by omega)

theorem power_inj {i j : ℕ} (hi : i < 255) (hj : j < 255) (h : power i = power j) : i = j := by
  wlog hle : i ≤ j generalizing i j with hsymm
  · exact (hsymm hj hi h.symm (by omega)).symm
  · obtain ⟨d, rfl⟩ := Nat.exists_eq_add_of_le hle
    have hd : power d = 1 := by
      rw [power_add] at h
      exact (double_injective.iterate i h).symm
    by_contra hne
    exact power_ne_one (by omega) (by omega) hd

theorem exists_power {a : UInt8} (h : a ≠ 0) : ∃ n < 255, power n = a := by
  have hsub : (Finset.range 255).image (fun n => (power n).toNat) ⊆ Finset.Ioo 0 256 := by
    intro v hv
    obtain ⟨n, -, rfl⟩ := Finset.mem_image.mp hv
    have hne : (power n).toNat ≠ 0 := fun hz => power_ne_zero n (UInt8.toNat_inj.mp hz)
    exact Finset.mem_Ioo.mpr ⟨by omega, (power n).toNat_lt⟩
  have hcard : ((Finset.range 255).image fun n => (power n).toNat).card = 255 := by
    rw [Finset.card_image_of_injOn, Finset.card_range]
    intro i hi j hj hij
    exact power_inj (Finset.mem_range.mp hi) (Finset.mem_range.mp hj) (UInt8.toNat_inj.mp hij)
  have himage := Finset.eq_of_subset_of_card_le hsub (by simp [hcard])
  have hmem : a.toNat ∈ Finset.Ioo 0 256 := by
    have hne : a.toNat ≠ 0 := fun hz => h (UInt8.toNat_inj.mp hz)
    exact Finset.mem_Ioo.mpr ⟨by omega, a.toNat_lt⟩
  rw [← himage] at hmem
  obtain ⟨n, hn, hna⟩ := Finset.mem_image.mp hmem
  exact ⟨n, Finset.mem_range.mp hn, UInt8.toNat_inj.mp hna⟩

end Powers

section Tables

theorem filled_succ (n : ℕ) : TableState.filled (n + 1) = (TableState.filled n).fill n := by
  simp [TableState.filled, List.range_succ, List.foldl_append]

structure FilledTo (n : ℕ) (t : TableState) : Prop where
  next : t.x = (power n).toUInt16
  exp : ∀ j : Fin 512, j.val < n → t.exp[j] = power j
  log : ∀ j < n, t.log[(⟨(power j).toNat, toNat_lt _⟩ : Fin 256)] = UInt8.ofNat j

theorem filledTo_filled {n : ℕ} (hn : n ≤ 255) : FilledTo n (TableState.filled n) := by
  induction n with
  | zero => exact ⟨rfl, fun j hj => absurd hj j.val.not_lt_zero, fun j hj => absurd hj j.not_lt_zero⟩
  | succ n ih =>
    have hprev := ih (by omega)
    rw [filled_succ]
    refine ⟨?_, ?_, ?_⟩
    · change shift (TableState.filled n).x = _
      rw [hprev.next, shift_eq, power, power, Function.iterate_succ_apply']
    · intro j hj
      by_cases hjn : n = j.val
      · subst hjn
        simp [TableState.fill, hprev.next]
      · have hkeep := hprev.exp j (by omega)
        simpa [TableState.fill, Vector.getElem_setIfInBounds, hjn] using hkeep
    · intro j hj
      by_cases hjn : n = j
      · subst hjn
        simp [TableState.fill, hprev.next]
      · have hne : ¬(power n).toNat = (power j).toNat := fun he =>
          hjn (power_inj (by omega) (by omega) (UInt8.toNat_inj.mp he))
        have hkeep := hprev.log j (by omega)
        simpa [TableState.fill, Vector.getElem_setIfInBounds, hprev.next, hne] using hkeep

theorem log_power {n : ℕ} (hn : n < 255) : log (power n) = n := by
  have h := (filledTo_filled le_rfl).log n hn
  rw [log, logTable, h, UInt8.toNat_ofNat']
  omega

theorem power_add_period (n : ℕ) : power (n + 255) = power n := by
  rw [power_add, power_period]
  rfl

theorem expTable_eq (j : Fin 512) (hj : j.val < 510) : expTable[j] = power j := by
  have hfilled := (filledTo_filled (n := 255) le_rfl).exp
  simp only [expTable, Fin.getElem_fin, Vector.getElem_ofFn]
  by_cases h : 255 ≤ j.val
  · rw [dif_pos ⟨h, hj⟩]
    have hlow := hfilled ⟨j.val - 255, by omega⟩ (by simp only; omega)
    rw [← power_add_period] at hlow
    simpa [Nat.sub_add_cancel h] using hlow
  · rw [dif_neg (fun hc => h hc.1)]
    exact hfilled j (by omega)

theorem iterate_double_period (a : UInt8) : double^[255] a = a := by
  by_cases h : a = 0
  · rw [h, iterate_double_zero]
  · obtain ⟨n, -, rfl⟩ := exists_power h
    rw [← power_add, Nat.add_comm, power_add_period]

end Tables

section Laws

@[simp] theorem zero_mul (a : UInt8) : mul 0 a = 0 := by simp [mul]

@[simp] theorem mul_zero (a : UInt8) : mul a 0 = 0 := by simp [mul]

theorem mul_comm (a b : UInt8) : mul a b = mul b a := by
  simp only [mul, or_comm, Nat.add_comm]

theorem power_mul_of_lt {n : ℕ} (hn : n < 255) (a : UInt8) : mul (power n) a = double^[n] a := by
  by_cases h : a = 0
  · rw [h, mul_zero, iterate_double_zero]
  · obtain ⟨m, hm, rfl⟩ := exists_power h
    rw [mul, if_neg (fun hc => hc.elim (power_ne_zero n) (power_ne_zero m)), ← power_add]
    simp only [log_power hn, log_power hm]
    exact expTable_eq ⟨n + m, by omega⟩ (by simp only; omega)

theorem power_mul (n : ℕ) (a : UInt8) : mul (power n) a = double^[n] a := by
  induction n using Nat.strong_induction_on with
  | h n ih =>
    by_cases hn : n < 255
    · exact power_mul_of_lt hn a
    · obtain ⟨m, rfl⟩ := Nat.exists_eq_add_of_le' (not_lt.mp hn)
      rw [power_add_period, ih m (by omega), Function.iterate_add_apply, iterate_double_period]

theorem one_mul (a : UInt8) : mul 1 a = a := power_mul 0 a

theorem mul_assoc (a b c : UInt8) : mul (mul a b) c = mul a (mul b c) := by
  by_cases ha : a = 0
  · simp [ha]
  · by_cases hb : b = 0
    · simp [hb]
    · obtain ⟨n, -, rfl⟩ := exists_power ha
      obtain ⟨m, -, rfl⟩ := exists_power hb
      rw [power_mul n (power m), ← power_add, power_mul, power_mul m, power_mul,
        Function.iterate_add_apply]

theorem mul_xor (a b c : UInt8) : mul a (b ^^^ c) = mul a b ^^^ mul a c := by
  by_cases ha : a = 0
  · simp [ha]
  · obtain ⟨n, -, rfl⟩ := exists_power ha
    rw [power_mul, power_mul, power_mul, iterate_double_xor]

theorem xor_mul (a b c : UInt8) : mul (a ^^^ b) c = mul a c ^^^ mul b c := by
  rw [mul_comm, mul_xor, mul_comm c a, mul_comm c b]

theorem mul_inv (a : UInt8) (h : a ≠ 0) : mul a (inv a h) = 1 := by
  obtain ⟨n, hn, rfl⟩ := exists_power h
  have hinv : inv (power n) h = power (255 - n) := by
    rw [inv]
    simp only [log_power hn]
    exact expTable_eq ⟨255 - n, by omega⟩ (by simp only; omega)
  rw [hinv, power_mul, ← power_add, Nat.add_sub_cancel' hn.le, power_period]

end Laws

end TrustNode.Turbine.Gf

namespace TrustNode.Turbine

@[ext] structure Gf256 where
  byte : UInt8
deriving DecidableEq

namespace Gf256

instance : Zero Gf256 := ⟨⟨0⟩⟩

instance : One Gf256 := ⟨⟨1⟩⟩

instance : Add Gf256 := ⟨fun a b => ⟨a.byte ^^^ b.byte⟩⟩

instance : Neg Gf256 := ⟨id⟩

instance : Sub Gf256 := ⟨fun a b => ⟨a.byte ^^^ b.byte⟩⟩

instance : Mul Gf256 := ⟨fun a b => ⟨Gf.mul a.byte b.byte⟩⟩

instance : Inv Gf256 := ⟨fun a => if h : a.byte = 0 then 0 else ⟨Gf.inv a.byte h⟩⟩

@[simp] theorem byte_zero : (0 : Gf256).byte = 0 := rfl

@[simp] theorem byte_one : (1 : Gf256).byte = 1 := rfl

@[simp] theorem byte_add (a b : Gf256) : (a + b).byte = a.byte ^^^ b.byte := rfl

@[simp] theorem byte_neg (a : Gf256) : (-a).byte = a.byte := rfl

@[simp] theorem byte_mul (a b : Gf256) : (a * b).byte = Gf.mul a.byte b.byte := rfl

theorem byte_ne_zero {a : Gf256} (h : a ≠ 0) : a.byte ≠ 0 := fun hz => h (Gf256.ext hz)

instance : CommRing Gf256 where
  add_assoc a b c := Gf256.ext (UInt8.xor_assoc _ _ _)
  zero_add a := Gf256.ext UInt8.zero_xor
  add_zero a := Gf256.ext UInt8.xor_zero
  add_comm a b := Gf256.ext (UInt8.xor_comm _ _)
  neg_add_cancel a := Gf256.ext UInt8.xor_self
  nsmul := nsmulRec
  zsmul := zsmulRec
  mul_assoc a b c := Gf256.ext (Gf.mul_assoc _ _ _)
  mul_comm a b := Gf256.ext (Gf.mul_comm _ _)
  one_mul a := Gf256.ext (Gf.one_mul _)
  mul_one a := Gf256.ext ((Gf.mul_comm a.byte 1).trans (Gf.one_mul _))
  zero_mul a := Gf256.ext (Gf.zero_mul a.byte)
  mul_zero a := Gf256.ext (Gf.mul_zero a.byte)
  left_distrib a b c := Gf256.ext (Gf.mul_xor _ _ _)
  right_distrib a b c := Gf256.ext (Gf.xor_mul _ _ _)

instance : Field Gf256 where
  exists_pair_ne := ⟨0, 1, by decide⟩
  mul_inv_cancel a h := by
    have hbyte := byte_ne_zero h
    apply Gf256.ext
    change Gf.mul a.byte (if h : a.byte = 0 then (0 : Gf256) else ⟨Gf.inv a.byte h⟩).byte = 1
    rw [dif_neg hbyte]
    exact Gf.mul_inv a.byte hbyte
  inv_zero := rfl
  nnqsmul := _
  qsmul := _

theorem byte_pow (base : UInt8) (e : ℕ) : ((⟨base⟩ : Gf256) ^ e).byte = Gf.pow base e := by
  induction e with
  | zero => rfl
  | succ e ih => rw [pow_succ, byte_mul, ih, Gf.pow, Gf.pow, Function.iterate_succ_apply']

end Gf256

end TrustNode.Turbine
