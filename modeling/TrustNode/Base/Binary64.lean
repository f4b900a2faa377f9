import Mathlib

namespace Binary64

open Float.Model Float.Model.UnpackedFloat

section Packing

variable {m : ℕ} {e : ℤ}

theorem pack_normal (hm : 0 < m) (hlog : m.log2 = 52) (hhigh : e ≤ 971) :
    UnpackedFloat.pack Format.binary64 (.finite .positive m e hm) =
      packComponents Format.binary64 .positive (BitVec.ofNat 11 (e + 1075).toNat)
        (BitVec.ofNat 52 m) := by
  have hbias : e + ((2 ^ (11 - 1) - 1 : ℕ) : ℤ) + ((52 : ℕ) : ℤ) = e + 1075 := by
    norm_num
    ring
  unfold UnpackedFloat.pack
  dsimp only [Format.exponentBias]
  rw [hbias, if_neg (by omega), if_pos (by rw [hlog]; rfl)]

theorem toNat_implicit_append (v : BitVec 52) : (1#1 ++ v).toNat = 2 ^ 52 + v.toNat := by
  rw [BitVec.toNat_append, ← Nat.shiftLeft_add_eq_or_of_lt v.isLt]
  rfl

theorem unpackSign_positive (x : BitVec 11) (v : BitVec 52) :
    unpackSign (packComponents Format.binary64 .positive x v) = 0#1 := by
  apply BitVec.eq_of_toNat_eq
  have hlt : ((0#1 ++ x) ++ v).toNat < 2 ^ 63 := by
    rw [BitVec.toNat_append, BitVec.toNat_append]
    simp only [BitVec.toNat_ofNat, Nat.zero_mod, Nat.zero_shiftLeft, Nat.zero_or]
    rw [← Nat.shiftLeft_add_eq_or_of_lt v.isLt, Nat.shiftLeft_eq]
    have hx := x.isLt
    have hv := v.isLt
    omega
  change ((((0#1 ++ x) ++ v).extractLsb 63 63).cast _).toNat = 0
  rw [BitVec.toNat_cast, BitVec.extractLsb_toNat, Nat.shiftRight_eq_div_pow,
    Nat.div_eq_of_lt hlt, Nat.zero_mod]

theorem unpack_pack (hm : 0 < m) (hlog : m.log2 = 52) (hlow : -1074 ≤ e) (hhigh : e ≤ 971) :
    (Float.Model.pack (.finite .positive m e hm)).unpack = .finite .positive m e hm := by
  obtain ⟨hle, hlt⟩ := (Nat.log2_eq_iff hm.ne').mp hlog
  have hexp : (BitVec.ofNat 11 (e + 1075).toNat).toNat = (e + 1075).toNat := by
    rw [BitVec.toNat_ofNat, Nat.mod_eq_of_lt (by omega)]
  have hman : (BitVec.ofNat 52 m).toNat = m - 2 ^ 52 := by
    rw [BitVec.toNat_ofNat]
    omega
  have hones : BitVec.ofNat 11 (e + 1075).toNat ≠ -1#11 := by
    intro h
    have hnat := congrArg BitVec.toNat h
    rw [hexp] at hnat
    have : (-1#11 : BitVec 11).toNat = 2047 := by decide
    omega
  have hzero : BitVec.ofNat 11 (e + 1075).toNat ≠ 0#11 := by
    intro h
    have hnat := congrArg BitVec.toNat h
    rw [hexp] at hnat
    have : (0#11 : BitVec 11).toNat = 0 := by decide
    omega
  change UnpackedFloat.unpack Format.binary64
    (UnpackedFloat.pack Format.binary64 (.finite .positive m e hm)) = _
  rw [pack_normal hm hlog hhigh]
  unfold UnpackedFloat.unpack
  simp only [unpackExponent_packComponents, unpackMantissa_packComponents,
    unpackSign_positive, hones, hzero, if_false]
  congr 1
  · rw [toNat_implicit_append, hman]
    omega
  · rw [hexp]
    simp only [Format.exponentBias]
    norm_num
    omega

end Packing

section Rounding

variable {m : ℕ} {e : ℤ}

theorem targetExponent_eq (t : ℤ) :
    Format.binary64.targetExponent t = max (t - 53) (-1074) := rfl

theorem mantissa_repeat (em : ExtendedMantissa) (k : ℕ) :
    (Nat.repeat ExtendedMantissa.shiftRightOne k em).mantissa = em.mantissa / 2 ^ k := by
  induction k with
  | zero => simp [Nat.repeat]
  | succ k ih =>
    simp only [Nat.repeat, ExtendedMantissa.shiftRightOne]
    rw [ih, Nat.div_div_eq_div_mul, pow_succ]

theorem mantissa_shiftRight (m k : ℕ) (a : Accuracy) :
    (ExtendedMantissa.ofMantissaAndAccuracy m a >>> k).mantissa = m / 2 ^ k := by
  have hm : (ExtendedMantissa.ofMantissaAndAccuracy m a).mantissa = m := by
    cases a with
    | exact => rfl
    | inexact o => cases o <;> rfl
  rw [← congrArg (· / 2 ^ k) hm]
  exact mantissa_repeat _ k

theorem roundedMantissa_bounds (em : ExtendedMantissa) :
    em.mantissa ≤ em.roundedMantissa ∧ em.roundedMantissa ≤ em.mantissa + 1 := by
  unfold ExtendedMantissa.roundedMantissa Accuracy.roundToNearestEven
  split <;> omega

theorem shiftToTargetExponent_eq {k : ℕ} (a : Accuracy) (hlog : m.log2 = 52 + k)
    (hlow : -1074 ≤ e + k) :
    shiftToTargetExponent Format.binary64 m e a =
      (ExtendedMantissa.ofMantissaAndAccuracy m a >>> k, e + k) := by
  have hk : (Format.binary64.targetExponent (totalExponent m e) - e).toNat = k := by
    rw [targetExponent_eq]
    unfold totalExponent
    rw [hlog]
    push_cast
    omega
  unfold shiftToTargetExponent shiftToExponent
  simp only [hk]

theorem roundWithAccuracy_eq {k : ℕ} (a : Accuracy) (hlog : m.log2 = 52 + k)
    (hlow : -1074 ≤ e + k) :
    ∃ r m' e' hm', roundWithAccuracy Format.binary64 .positive m e a =
        .finite .positive m' e' hm' ∧
      m'.log2 = 52 ∧ e + k ≤ e' ∧ e' ≤ e + k + 1 ∧
      m / 2 ^ k ≤ r ∧ r ≤ m / 2 ^ k + 1 ∧ (m' : ℚ) * 2 ^ e' = r * 2 ^ (e + k) := by
  set em := ExtendedMantissa.ofMantissaAndAccuracy m a >>> k with hem
  have hman : em.mantissa = m / 2 ^ k := mantissa_shiftRight m k a
  obtain ⟨hr₁, hr₂⟩ := roundedMantissa_bounds em
  rw [hman] at hr₁ hr₂
  have hmne : m ≠ 0 := by
    rintro rfl
    rw [Nat.log2_zero] at hlog
    omega
  obtain ⟨hle, hlt⟩ := (Nat.log2_eq_iff hmne).mp hlog
  have hq₁ : 2 ^ 52 ≤ m / 2 ^ k := by
    rw [Nat.le_div_iff_mul_le (by positivity), ← pow_add]
    exact hle
  have hq₂ : m / 2 ^ k < 2 ^ 53 := by
    rw [Nat.div_lt_iff_lt_mul (by positivity), ← pow_add]
    exact lt_of_lt_of_eq hlt (by ring)
  unfold roundWithAccuracy
  rw [shiftToTargetExponent_eq a hlog hlow]
  dsimp only
  rw [← hem]
  generalize hr : em.roundedMantissa = r at hr₁ hr₂ ⊢
  rcases Nat.lt_or_ge r (2 ^ 53) with hsmall | hbig
  · have hrlog : r.log2 = 52 := (Nat.log2_eq_iff (by omega)).mpr ⟨by omega, hsmall⟩
    rw [shiftToTargetExponent_eq (k := 0) .exact (by simpa using hrlog) (by simpa using hlow)]
    dsimp only
    refine ⟨r, r, e + k, by omega, ?_, hrlog, le_rfl, by omega, hr₁, hr₂, rfl⟩
    simp only [mantissa_shiftRight, pow_zero, Nat.div_one, Nat.cast_zero, add_zero]
    rw [dif_neg (by omega)]
  · have hreq : r = 2 ^ 53 := by omega
    subst hreq
    rw [shiftToTargetExponent_eq (k := 1) .exact (by decide) (by push_cast; omega)]
    dsimp only
    refine ⟨2 ^ 53, 2 ^ 52, e + k + 1, by norm_num, ?_, by decide, by omega, le_rfl, hr₁, hr₂, ?_⟩
    · simp only [mantissa_shiftRight, Nat.cast_one]
      rfl
    · rw [zpow_add_one₀ (by norm_num : (2 : ℚ) ≠ 0)]
      push_cast
      ring

theorem roundWithAccuracy_near {x : ℚ} (a : Accuracy) (hlog : 52 ≤ m.log2)
    (hlow : -1074 ≤ e + (m.log2 - 52)) (hx₁ : m * 2 ^ e ≤ x) (hx₂ : x ≤ (m + 1) * 2 ^ e) :
    ∃ m' e' hm', roundWithAccuracy Format.binary64 .positive m e a =
        .finite .positive m' e' hm' ∧
      m'.log2 = 52 ∧ e + (m.log2 - 52) ≤ e' ∧ e' ≤ e + (m.log2 - 52) + 1 ∧
      |(m' : ℚ) * 2 ^ e' - x| ≤ x / 2 ^ 52 := by
  obtain ⟨k, hk⟩ := Nat.exists_eq_add_of_le hlog
  have hcast : (m.log2 : ℤ) - 52 = k := by omega
  rw [hcast] at hlow ⊢
  obtain ⟨r, m', e', hm', hround, hlog', he₁, he₂, hr₁, hr₂, hval⟩ :=
    roundWithAccuracy_eq a hk hlow
  refine ⟨m', e', hm', hround, hlog', he₁, he₂, ?_⟩
  rw [hval, zpow_add₀ (by norm_num : (2 : ℚ) ≠ 0), zpow_natCast]
  have hmne : m ≠ 0 := by
    rintro rfl
    rw [Nat.log2_zero] at hlog
    omega
  have hpos : (0 : ℚ) < 2 ^ e := by positivity
  obtain ⟨q, hq⟩ : ∃ q, q = m / 2 ^ k := ⟨_, rfl⟩
  rw [← hq] at hr₁ hr₂
  have hqm : q * 2 ^ k ≤ m := hq ▸ Nat.div_mul_le_self m (2 ^ k)
  have hmq : m + 1 ≤ (q + 1) * 2 ^ k := hq ▸ Nat.lt_mul_of_div_lt (Nat.lt_succ_self _) (by positivity)
  have hq52 : 2 ^ 52 ≤ q := by
    rw [hq, Nat.le_div_iff_mul_le (by positivity), ← pow_add]
    exact ((Nat.log2_eq_iff hmne).mp hk).1
  have hqm' : (q : ℚ) * 2 ^ k ≤ m := by exact_mod_cast hqm
  have hmq' : (m : ℚ) + 1 ≤ (q + 1) * 2 ^ k := by exact_mod_cast hmq
  have hr₁' : (q : ℚ) ≤ r := by exact_mod_cast hr₁
  have hr₂' : (r : ℚ) ≤ q + 1 := by exact_mod_cast hr₂
  have hq52' : (2 : ℚ) ^ 52 ≤ q := by exact_mod_cast hq52
  -- one unit in the last place of the shifted mantissa
  set u : ℚ := 2 ^ e * 2 ^ k with hu
  have hupos : 0 < u := by positivity
  have hxlow : q * u ≤ x := by
    calc (q : ℚ) * u = q * 2 ^ k * 2 ^ e := by rw [hu]; ring
      _ ≤ m * 2 ^ e := by gcongr
      _ ≤ x := hx₁
  have hxhigh : x ≤ (q + 1) * u := by
    calc x ≤ (m + 1) * 2 ^ e := hx₂
      _ ≤ (q + 1) * 2 ^ k * 2 ^ e := by gcongr
      _ = (q + 1) * u := by rw [hu]; ring
  have hru₁ : q * u ≤ r * u := by gcongr
  have hru₂ : r * u ≤ (q + 1) * u := by gcongr
  have hulp : u ≤ x / 2 ^ 52 := by
    rw [le_div_iff₀ (by positivity)]
    calc u * 2 ^ 52 ≤ u * q := by gcongr
      _ = q * u := by ring
      _ ≤ x := hxlow
  rw [abs_le]
  constructor <;> linarith

end Rounding

section Values

def Represents (b : ℤ) (f : Float) (v : ℚ) : Prop :=
  ∃ m e hm, f.toModel.unpack = .finite .positive m e hm ∧ m.log2 = 52 ∧ |e| ≤ b ∧
    v = m * 2 ^ e

variable {b c : ℤ} {f g : Float} {v w : ℚ}

theorem represents_pack {m : ℕ} {e : ℤ} (hm : 0 < m) (hlog : m.log2 = 52) (he : |e| ≤ b)
    (hb : b ≤ 971) :
    Represents b ⟨Float.Model.pack (.finite .positive m e hm)⟩ (m * 2 ^ e) := by
  obtain ⟨he₁, he₂⟩ := abs_le.mp he
  exact ⟨m, e, hm, unpack_pack hm hlog (by omega) (by omega), hlog, he, rfl⟩

theorem log2_shiftLeft {n : ℕ} (hn : n ≠ 0) (k : ℕ) : (n <<< k).log2 = n.log2 + k := by
  obtain ⟨hle, hlt⟩ := (Nat.log2_eq_iff hn).mp rfl
  rw [Nat.shiftLeft_eq, Nat.log2_eq_iff (by positivity)]
  constructor
  · rw [pow_add]
    exact Nat.mul_le_mul_right _ hle
  · rw [show n.log2 + k + 1 = n.log2 + 1 + k by ring, pow_add]
    exact Nat.mul_lt_mul_of_pos_right hlt (by positivity)

theorem toFloat_represents {n : UInt64} (hn : n ≠ 0) :
    ∃ v, Represents 53 n.toFloat v ∧ |v - n.toNat| ≤ n.toNat / 2 ^ 52 := by
  have hpos : 0 < n.toNat := Nat.pos_of_ne_zero (fun h => hn (UInt64.toNat_inj.mp h))
  have hlog64 : n.toNat.log2 < 64 := (Nat.log2_lt hpos.ne').mpr n.toNat_lt
  have htotal : totalExponent n.toNat 0 = n.toNat.log2 + 1 := by
    unfold totalExponent
    omega
  have hshift : (0 - Format.binary64.targetExponent (totalExponent n.toNat 0)).toNat =
      52 - n.toNat.log2 := by
    rw [htotal, targetExponent_eq]
    omega
  have hunpacked : UnpackedFloat.ofUInt64 Format.binary64 n =
      roundWithAccuracy Format.binary64 .positive (n.toNat <<< (52 - n.toNat.log2))
        (0 - (52 - n.toNat.log2 : ℕ)) .exact := by
    have hgt : compare (n.toNat : ℤ) 0 = .gt := by
      rw [compare_gt_iff_gt]
      exact_mod_cast hpos
    unfold UnpackedFloat.ofUInt64 UnpackedFloat.ofNat UnpackedFloat.ofInt UnpackedFloat.normalize
    rw [hgt]
    dsimp only
    unfold UnpackedFloat.round decreaseExponent
    rw [Int.toNat_natCast]
    dsimp only
    rw [hshift]
  have hlog : (n.toNat <<< (52 - n.toNat.log2)).log2 = n.toNat.log2 + (52 - n.toNat.log2) :=
    log2_shiftLeft hpos.ne' _
  have hexact : ((n.toNat <<< (52 - n.toNat.log2) : ℕ) : ℚ) *
      2 ^ (0 - ((52 - n.toNat.log2 : ℕ) : ℤ)) = n.toNat := by
    rw [Nat.shiftLeft_eq, zero_sub, zpow_neg, zpow_natCast]
    push_cast
    field_simp
  obtain ⟨m', e', hm', hround, hlog', he₁, he₂, hnear⟩ :=
    roundWithAccuracy_near (m := n.toNat <<< (52 - n.toNat.log2))
      (e := 0 - (52 - n.toNat.log2 : ℕ)) (x := n.toNat) .exact (by omega) (by omega) hexact.le
      (by rw [add_mul, hexact]; exact le_add_of_nonneg_right (by positivity))
  refine ⟨m' * 2 ^ e', ?_, hnear⟩
  have hfloat : n.toFloat = ⟨Float.Model.pack (.finite .positive m' e' hm')⟩ := by
    rw [← hround, ← hunpacked]
    rfl
  rw [hfloat]
  exact represents_pack hm' hlog' (abs_le.mpr ⟨by omega, by omega⟩) (by norm_num)

theorem Represents.mul (hf : Represents b f v) (hg : Represents c g w) (hbc : b + c ≤ 900) :
    ∃ u, Represents (b + c + 54) (f * g) u ∧ |u - v * w| ≤ v * w / 2 ^ 52 := by
  obtain ⟨m₁, e₁, hm₁, hf, hlog₁, he₁, rfl⟩ := hf
  obtain ⟨m₂, e₂, hm₂, hg, hlog₂, he₂, rfl⟩ := hg
  obtain ⟨hle₁, hlt₁⟩ := (Nat.log2_eq_iff hm₁.ne').mp hlog₁
  obtain ⟨hle₂, hlt₂⟩ := (Nat.log2_eq_iff hm₂.ne').mp hlog₂
  have hne : m₁ * m₂ ≠ 0 := (Nat.mul_pos hm₁ hm₂).ne'
  have hlow : 104 ≤ (m₁ * m₂).log2 :=
    (Nat.le_log2 hne).mpr (le_trans (by norm_num) (Nat.mul_le_mul hle₁ hle₂))
  have hhigh : (m₁ * m₂).log2 < 106 :=
    (Nat.log2_lt hne).mpr (lt_of_lt_of_le (Nat.mul_lt_mul'' hlt₁ hlt₂) (by norm_num))
  obtain ⟨hb₁, hb₂⟩ := abs_le.mp he₁
  obtain ⟨hc₁, hc₂⟩ := abs_le.mp he₂
  have hexact : ((m₁ * m₂ : ℕ) : ℚ) * 2 ^ (e₁ + e₂) = m₁ * 2 ^ e₁ * (m₂ * 2 ^ e₂) := by
    rw [zpow_add₀ (by norm_num : (2 : ℚ) ≠ 0)]
    push_cast
    ring
  obtain ⟨m, e, hm, hround, hlog, hlow', hhigh', hnear⟩ :=
    roundWithAccuracy_near (m := m₁ * m₂) (e := e₁ + e₂) .exact (by omega) (by omega) hexact.le
      (by rw [add_mul, hexact]; exact le_add_of_nonneg_right (by positivity))
  refine ⟨m * 2 ^ e, ?_, hnear⟩
  have hfloat : f * g = ⟨Float.Model.pack (.finite .positive m e hm)⟩ := by
    change (⟨Float.Model.pack (UnpackedFloat.mul Format.binary64 f.toModel.unpack
      g.toModel.unpack)⟩ : Float) = _
    rw [hf, hg, ← hround]
    rfl
  rw [hfloat]
  exact represents_pack hm hlog (abs_le.mpr ⟨by omega, by omega⟩) (by omega)

theorem divCore_eq {m₁ m₂ : ℕ} {e₁ e₂ : ℤ} (hlog₁ : m₁.log2 = 52) (hlog₂ : m₂.log2 = 52)
    (hlow : -1021 ≤ e₁ - e₂) :
    divCore Format.binary64 m₁ e₁ m₂ e₂ =
      (m₁ * 2 ^ 53 / m₂, e₁ - e₂ - 53, accuracyOfFraction (m₁ * 2 ^ 53 % m₂) m₂) := by
  have htarget : min (e₁ - e₂) (Format.binary64.targetExponent
      (totalExponent m₁ e₁ - totalExponent m₂ e₂)) = e₁ - e₂ - 53 := by
    rw [targetExponent_eq]
    unfold totalExponent
    rw [hlog₁, hlog₂]
    omega
  have hshift : (e₁ - e₂ - (e₁ - e₂ - 53)).toNat = 53 := by omega
  unfold divCore
  dsimp only
  rw [htarget, hshift, Nat.shiftLeft_eq]

theorem Represents.div (hf : Represents b f v) (hg : Represents c g w) (hbc : b + c ≤ 900) :
    ∃ u, Represents (b + c + 54) (f / g) u ∧ |u - v / w| ≤ v / w / 2 ^ 52 := by
  obtain ⟨m₁, e₁, hm₁, hf, hlog₁, he₁, rfl⟩ := hf
  obtain ⟨m₂, e₂, hm₂, hg, hlog₂, he₂, rfl⟩ := hg
  obtain ⟨hle₁, hlt₁⟩ := (Nat.log2_eq_iff hm₁.ne').mp hlog₁
  obtain ⟨hle₂, hlt₂⟩ := (Nat.log2_eq_iff hm₂.ne').mp hlog₂
  obtain ⟨hb₁, hb₂⟩ := abs_le.mp he₁
  obtain ⟨hc₁, hc₂⟩ := abs_le.mp he₂
  obtain ⟨q, hq⟩ : ∃ q, q = m₁ * 2 ^ 53 / m₂ := ⟨_, rfl⟩
  have hq₁ : 2 ^ 52 ≤ q := by
    rw [hq, Nat.le_div_iff_mul_le hm₂]
    omega
  have hq₂ : q < 2 ^ 54 := by
    rw [hq, Nat.div_lt_iff_lt_mul hm₂]
    omega
  have hlow : 52 ≤ q.log2 := (Nat.le_log2 (by omega)).mpr hq₁
  have hhigh : q.log2 < 54 := (Nat.log2_lt (by omega)).mpr hq₂
  have hm₂' : (0 : ℚ) < m₂ := by exact_mod_cast hm₂
  have hquot : (m₁ : ℚ) * 2 ^ e₁ / (m₂ * 2 ^ e₂) = m₁ * 2 ^ 53 / m₂ * 2 ^ (e₁ - e₂ - 53) := by
    rw [zpow_sub₀ (by norm_num : (2 : ℚ) ≠ 0), zpow_sub₀ (by norm_num : (2 : ℚ) ≠ 0)]
    field_simp
  have hfloor₁ : (q : ℚ) ≤ m₁ * 2 ^ 53 / m₂ := by
    rw [le_div_iff₀ hm₂', hq]
    exact_mod_cast Nat.div_mul_le_self (m₁ * 2 ^ 53) m₂
  have hfloor₂ : (m₁ : ℚ) * 2 ^ 53 / m₂ ≤ q + 1 := by
    rw [div_le_iff₀ hm₂', hq]
    exact_mod_cast (Nat.lt_mul_of_div_lt (Nat.lt_succ_self (m₁ * 2 ^ 53 / m₂)) hm₂).le
  obtain ⟨m, e, hm, hround, hlog, hlow', hhigh', hnear⟩ :=
    roundWithAccuracy_near (m := q) (e := e₁ - e₂ - 53)
      (x := m₁ * 2 ^ e₁ / (m₂ * 2 ^ e₂)) (accuracyOfFraction (m₁ * 2 ^ 53 % m₂) m₂)
      hlow (by omega) (by rw [hquot]; gcongr) (by rw [hquot]; gcongr)
  refine ⟨m * 2 ^ e, ?_, hnear⟩
  have hfloat : f / g = ⟨Float.Model.pack (.finite .positive m e hm)⟩ := by
    change (⟨Float.Model.pack (UnpackedFloat.div Format.binary64 f.toModel.unpack
      g.toModel.unpack)⟩ : Float) = _
    rw [hf, hg, ← hround, hq]
    simp only [UnpackedFloat.div, divCore_eq hlog₁ hlog₂ (by omega : -1021 ≤ e₁ - e₂)]
    rfl
  rw [hfloat]
  exact represents_pack hm hlog (abs_le.mpr ⟨by omega, by omega⟩) (by omega)

theorem roundToInt_positive (m : ℕ) (e : ℤ) :
    roundToInt .positive m e = ⌊(m : ℚ) * 2 ^ e⌋₊ := by
  have hunfold : roundToInt .positive m e =
      ((m <<< e.toNat / 2 ^ (-e).toNat : ℕ) : ℤ) := by
    unfold roundToInt decreaseExponent shiftToExponent
    dsimp only
    rw [mantissa_shiftRight, sub_zero, zero_sub,
      show (-(e - (e.toNat : ℤ))).toNat = (-e).toNat by omega]
    rfl
  rw [hunfold, Nat.shiftLeft_eq]
  congr 1
  rcases le_or_gt 0 e with he | he
  · obtain ⟨k, rfl⟩ := Int.eq_ofNat_of_zero_le he
    rw [zpow_natCast]
    simp only [Int.toNat_natCast, Int.toNat_neg_natCast, pow_zero, Nat.div_one]
    exact_mod_cast (Nat.floor_natCast (R := ℚ) (m * 2 ^ k)).symm
  · obtain ⟨k, rfl⟩ := Int.exists_eq_neg_ofNat he.le
    rw [zpow_neg, zpow_natCast, ← div_eq_mul_inv]
    simp only [Int.toNat_neg_natCast, pow_zero, Nat.mul_one, neg_neg, Int.toNat_natCast]
    exact_mod_cast (Nat.floor_div_eq_div (K := ℚ) m (2 ^ k)).symm

theorem Represents.toUInt64 (h : Represents b f v) :
    f.toUInt64.toNat = min ⌊v⌋₊ (2 ^ 64 - 1) := by
  obtain ⟨m, e, hm, hf, -, -, rfl⟩ := h
  have hunfold : f.toUInt64 = UInt64.ofNatClamp ⌊(m : ℚ) * 2 ^ e⌋₊ := by
    unfold Float.toUInt64 Float.Model.toUInt64 UnpackedFloat.toUInt64
    rw [hf]
    simp only [toInt, roundToInt_positive, Int.toNat_natCast]
  rw [hunfold]
  unfold UInt64.ofNatClamp
  split
  next hlt =>
    rw [UInt64.toNat_ofNatLT]
    have : ⌊(m : ℚ) * 2 ^ e⌋₊ < 2 ^ 64 := hlt
    omega
  next hge =>
    rw [UInt64.toNat_ofNatLT]
    have : ¬ ⌊(m : ℚ) * 2 ^ e⌋₊ < 2 ^ 64 := hge
    change 2 ^ 64 - 1 = _
    omega

end Values

section Zero

def IsZero (f : Float) : Prop :=
  f.toModel.unpack = .zero .positive

variable {b : ℤ} {f g : Float} {v : ℚ}

theorem isZero_toFloat : IsZero (0 : UInt64).toFloat := by
  unfold IsZero
  rfl

theorem unpack_pack_zero :
    (Float.Model.pack (.zero .positive)).unpack = .zero .positive := by
  rfl

theorem IsZero.div (hf : IsZero f) (hg : Represents b g v) : IsZero (f / g) := by
  obtain ⟨m, e, hm, hg, -⟩ := hg
  change (Float.Model.pack (UnpackedFloat.div Format.binary64 f.toModel.unpack
    g.toModel.unpack)).unpack = _
  rw [hf, hg]
  exact unpack_pack_zero

theorem IsZero.mul (hf : IsZero f) (hg : Represents b g v) : IsZero (f * g) := by
  obtain ⟨m, e, hm, hg, -⟩ := hg
  change (Float.Model.pack (UnpackedFloat.mul Format.binary64 f.toModel.unpack
    g.toModel.unpack)).unpack = _
  rw [hf, hg]
  exact unpack_pack_zero

theorem Represents.mul_isZero (hf : Represents b f v) (hg : IsZero g) : IsZero (f * g) := by
  obtain ⟨m, e, hm, hf, -⟩ := hf
  change (Float.Model.pack (UnpackedFloat.mul Format.binary64 f.toModel.unpack
    g.toModel.unpack)).unpack = _
  rw [hf, hg]
  exact unpack_pack_zero

theorem IsZero.mul_isZero (hf : IsZero f) (hg : IsZero g) : IsZero (f * g) := by
  change (Float.Model.pack (UnpackedFloat.mul Format.binary64 f.toModel.unpack
    g.toModel.unpack)).unpack = _
  rw [hf, hg]
  exact unpack_pack_zero

theorem IsZero.toUInt64 (h : IsZero f) : f.toUInt64 = 0 := by
  unfold Float.toUInt64 Float.Model.toUInt64
  rw [h]
  rfl

theorem zero_div_zero_mul (f : Float) :
    ((0 : UInt64).toFloat / (0 : UInt64).toFloat * f).toUInt64 = 0 := by
  have hnan : ((0 : UInt64).toFloat / (0 : UInt64).toFloat).toModel.unpack = .notANumber := by
    rfl
  change (Float.Model.pack (UnpackedFloat.mul Format.binary64
    ((0 : UInt64).toFloat / (0 : UInt64).toFloat).toModel.unpack f.toModel.unpack)).toUInt64 = 0
  rw [hnan]
  simp only [UnpackedFloat.mul]
  rfl

end Zero

section Proportion

def Between (lo hi x v : ℚ) : Prop :=
  lo * x ≤ v ∧ v ≤ hi * x

variable {lo hi lo' hi' x y v w : ℚ}

theorem Between.of_abs {δ : ℚ} (h : |v - x| ≤ x * δ) : Between (1 - δ) (1 + δ) x v := by
  obtain ⟨h₁, h₂⟩ := abs_le.mp h
  constructor <;> linarith

theorem Between.trans (hlo' : 0 ≤ lo') (hhi' : 0 ≤ hi') (h : Between lo hi x v)
    (h' : Between lo' hi' v w) : Between (lo' * lo) (hi' * hi) x w := by
  constructor
  · calc lo' * lo * x = lo' * (lo * x) := by ring
      _ ≤ lo' * v := by gcongr; exact h.1
      _ ≤ w := h'.1
  · calc w ≤ hi' * v := h'.2
      _ ≤ hi' * (hi * x) := by gcongr; exact h.2
      _ = hi' * hi * x := by ring

theorem Between.mul (hlo : 0 ≤ lo) (hlo' : 0 ≤ lo') (hx : 0 ≤ x) (hy : 0 ≤ y)
    (h : Between lo hi x v) (h' : Between lo' hi' y w) :
    Between (lo * lo') (hi * hi') (x * y) (v * w) := by
  have hv : 0 ≤ v := (mul_nonneg hlo hx).trans h.1
  have hw : 0 ≤ w := (mul_nonneg hlo' hy).trans h'.1
  constructor
  · calc lo * lo' * (x * y) = lo * x * (lo' * y) := by ring
      _ ≤ v * w := mul_le_mul h.1 h'.1 (mul_nonneg hlo' hy) hv
  · calc v * w ≤ hi * x * (hi' * y) := mul_le_mul h.2 h'.2 hw (hv.trans h.2)
      _ = hi * hi' * (x * y) := by ring

theorem Between.div (hlo : 0 ≤ lo) (hlo' : 0 < lo') (hx : 0 ≤ x) (hy : 0 < y)
    (h : Between lo hi x v) (h' : Between lo' hi' y w) :
    Between (lo / hi') (hi / lo') (x / y) (v / w) := by
  have hv : 0 ≤ v := (mul_nonneg hlo hx).trans h.1
  have hw : 0 < w := (mul_pos hlo' hy).trans_le h'.1
  constructor
  · calc lo / hi' * (x / y) = lo * x / (hi' * y) := by rw [div_mul_div_comm]
      _ ≤ v / w := div_le_div₀ hv h.1 hw h'.2
  · calc v / w ≤ hi * x / (lo' * y) := div_le_div₀ (hv.trans h.2) h.2 (mul_pos hlo' hy) h'.1
      _ = hi / lo' * (x / y) := by rw [div_mul_div_comm]

theorem Between.weaken (hx : 0 ≤ x) (hlo : lo' ≤ lo) (hhi : hi ≤ hi') (h : Between lo hi x v) :
    Between lo' hi' x v :=
  ⟨(mul_le_mul_of_nonneg_right hlo hx).trans h.1, h.2.trans (mul_le_mul_of_nonneg_right hhi hx)⟩

theorem proportion_pos {part whole scale : UInt64} (hpart : part ≠ 0) (hwhole : whole ≠ 0)
    (hscale : scale ≠ 0) :
    ∃ v : ℚ, (part.toFloat / whole.toFloat * scale.toFloat).toUInt64.toNat =
        min ⌊v⌋₊ (2 ^ 64 - 1) ∧
      Between (1 - 1 / 2 ^ 49) (1 + 1 / 2 ^ 49) (part.toNat / whole.toNat * scale.toNat) v := by
  have hpos {n : UInt64} (hn : n ≠ 0) : (0 : ℚ) < n.toNat := by
    have : n.toNat ≠ 0 := fun h => hn (UInt64.toNat_inj.mp h)
    positivity
  obtain ⟨p, hp, hpnear⟩ := toFloat_represents hpart
  obtain ⟨t, ht, htnear⟩ := toFloat_represents hwhole
  obtain ⟨s, hs, hsnear⟩ := toFloat_represents hscale
  obtain ⟨q, hq, hqnear⟩ := hp.div ht (by norm_num)
  obtain ⟨v, hv, hvnear⟩ := hq.mul hs (by norm_num)
  refine ⟨v, hv.toUInt64, ?_⟩
  rw [div_eq_mul_one_div _ ((2 : ℚ) ^ 52)] at hpnear htnear hsnear hqnear hvnear
  have hquot := ((Between.of_abs hpnear).div (by norm_num) (by norm_num) (hpos hpart).le
    (hpos hwhole) (Between.of_abs htnear)).trans (by norm_num) (by norm_num)
    (Between.of_abs hqnear)
  have hprod := (hquot.mul (by norm_num) (by norm_num)
    (div_pos (hpos hpart) (hpos hwhole)).le (hpos hscale).le
    (Between.of_abs hsnear)).trans (by norm_num) (by norm_num) (Between.of_abs hvnear)
  exact hprod.weaken (mul_pos (div_pos (hpos hpart) (hpos hwhole)) (hpos hscale)).le
    (by norm_num) (by norm_num)

theorem proportion_zero (part : UInt64) {whole scale : UInt64} (hwhole : whole ≠ 0)
    (hzero : part = 0 ∨ scale = 0) :
    (part.toFloat / whole.toFloat * scale.toFloat).toUInt64 = 0 := by
  obtain ⟨t, ht, -⟩ := toFloat_represents hwhole
  by_cases hpart : part = 0
  · subst hpart
    have hquot := isZero_toFloat.div ht
    by_cases hscale : scale = 0
    · subst hscale
      exact (hquot.mul_isZero isZero_toFloat).toUInt64
    · obtain ⟨s, hs, -⟩ := toFloat_represents hscale
      exact (hquot.mul hs).toUInt64
  · obtain rfl := hzero.resolve_left hpart
    obtain ⟨p, hp, -⟩ := toFloat_represents hpart
    obtain ⟨q, hq, -⟩ := hp.div ht (by norm_num)
    exact (hq.mul_isZero isZero_toFloat).toUInt64

theorem proportion_between (part : UInt64) {whole : UInt64} (hwhole : whole ≠ 0)
    (scale : UInt64) :
    ∃ v : ℚ, (part.toFloat / whole.toFloat * scale.toFloat).toUInt64.toNat =
        min ⌊v⌋₊ (2 ^ 64 - 1) ∧
      Between (1 - 1 / 2 ^ 49) (1 + 1 / 2 ^ 49) (part.toNat / whole.toNat * scale.toNat) v := by
  by_cases hzero : part = 0 ∨ scale = 0
  · refine ⟨0, ?_, ?_⟩
    · rw [proportion_zero part hwhole hzero]
      simp
    · have hexact : (part.toNat / whole.toNat * scale.toNat : ℚ) = 0 := by
        rcases hzero with rfl | rfl <;> simp
      rw [hexact]
      constructor <;> simp
  · obtain ⟨hpart, hscale⟩ := not_or.mp hzero
    exact proportion_pos hpart hwhole hscale

end Proportion

end Binary64
