import Mathlib.LinearAlgebra.Matrix.ToLinearEquiv
import Mathlib.LinearAlgebra.Matrix.NonsingularInverse
import Mathlib.Tactic

namespace GaussJordan

abbrev Rows (F : Type*) (n w : ℕ) := Vector (Vector F w) n

variable {F : Type*} {n w : ℕ}

theorem get_eq_getElem {α : Type*} (v : Vector α n) (i : Fin n) :
    v.get i = getElem v i.val i.isLt := rfl

def toMatrix (a : Rows F n w) : Matrix (Fin n) (Fin w) F := Matrix.of fun r c => a[r][c]

theorem toMatrix_apply (a : Rows F n w) (r : Fin n) (c : Fin w) : toMatrix a r c = a[r][c] := rfl

theorem toMatrix_ofFn (f : Fin n → Vector F w) (r : Fin n) (c : Fin w) :
    toMatrix (Vector.ofFn f) r c = (f r)[c] := by
  simp [toMatrix_apply]

theorem toMatrix_ofFn_ofFn (f : Fin n → Fin w → F) :
    toMatrix (Vector.ofFn fun r => Vector.ofFn (f r)) = Matrix.of f := by
  ext r c
  simp [toMatrix_apply]

theorem toMatrix_injective {a b : Rows F n w} (h : toMatrix a = toMatrix b) : a = b := by
  apply Vector.ext
  intro r hr
  apply Vector.ext
  intro c hc
  exact congrFun (congrFun h ⟨r, hr⟩) ⟨c, hc⟩

section Product

variable {l : ℕ}

def product [Semiring F] (a : Rows F n l) (b : Rows F l w) : Rows F n w :=
  Vector.ofFn fun r => Vector.ofFn fun c =>
    (List.finRange l).foldl (fun acc t => acc + a[r][t] * b[t][c]) 0

theorem foldl_finRange_add {M : Type*} [AddCommMonoid M] (f : Fin l → M) :
    (List.finRange l).foldl (fun acc t => acc + f t) 0 = ∑ t, f t := by
  rw [← List.foldl_map (g := fun acc x => acc + x), ← List.sum_eq_foldl, Fin.sum_univ_def]

theorem toMatrix_product [Semiring F] (a : Rows F n l) (b : Rows F l w) :
    toMatrix (product a b) = toMatrix a * toMatrix b := by
  rw [product, toMatrix_ofFn_ofFn]
  ext r c
  exact foldl_finRange_add fun t => a[r][t] * b[t][c]

end Product

section RowOperations

def swapRows (a : Rows F n w) (i p : Fin n) : Rows F n w := a.swap i p

theorem toMatrix_swapRows (a : Rows F n w) (i p r : Fin n) (c : Fin w) :
    toMatrix (swapRows a i p) r c = toMatrix a (Equiv.swap i p r) c := by
  simp only [swapRows, toMatrix_apply, Fin.getElem_fin, Vector.getElem_swap, Equiv.swap_apply_def,
    Fin.ext_iff]
  split
  · rfl
  · split <;> rfl

variable [Field F]

def scaleRow (a : Rows F n w) (i : Fin n) (x : F) : Rows F n w :=
  a.set i (a[i].map fun v => v * x)

variable [DecidableEq F]

def pivot (a : Rows F n w) (i : Fin n) (c : Fin w) : Option (Fin n) :=
  (List.finRange n).find? fun r => decide (i ≤ r) && decide (a[r][c] ≠ 0)

def eliminate (a : Rows F n w) (i : Fin n) (c : Fin w) : Rows F n w :=
  Vector.ofFn fun r =>
    if r ≠ i ∧ a[r][c] ≠ 0 then Vector.zipWith (fun v p => v - a[r][c] * p) a[r] a[i] else a[r]

def reduceColumn (a : Rows F n w) (i : Fin n) (c : Fin w) : Option (Rows F n w) :=
  (pivot a i c).map fun p =>
    let swapped := swapRows a i p
    let normalized := scaleRow swapped i (swapped[i][c])⁻¹
    eliminate normalized i c

end RowOperations

section RowOperationLemmas

variable [Field F] (a : Rows F n w)

theorem toMatrix_scaleRow (i : Fin n) (x : F) (r : Fin n) (c : Fin w) :
    toMatrix (scaleRow a i x) r c = toMatrix a r c * if r = i then x else 1 := by
  by_cases h : r = i
  · subst h
    simp [toMatrix_apply, scaleRow]
  · have hv : ¬i.val = r.val := fun he => h (Fin.ext he.symm)
    simp [toMatrix_apply, scaleRow, h, hv]

theorem toMatrix_swapRows_of_zero {i p : Fin n} {j : Fin w} (hip : i ≤ p)
    (hj : ∀ r, i ≤ r → toMatrix a r j = 0) (r : Fin n) :
    toMatrix (swapRows a i p) r j = toMatrix a r j := by
  rw [toMatrix_swapRows]
  by_cases hri : r = i
  · rw [hri, Equiv.swap_apply_left, hj p hip, hj i le_rfl]
  · by_cases hrp : r = p
    · rw [hrp, Equiv.swap_apply_right, hj p hip, hj i le_rfl]
    · rw [Equiv.swap_apply_of_ne_of_ne hri hrp]

variable [DecidableEq F]

theorem toMatrix_eliminate (i : Fin n) (c : Fin w) (r : Fin n) (j : Fin w) :
    toMatrix (eliminate a i c) r j =
      toMatrix a r j - (if r = i then 0 else toMatrix a r c) * toMatrix a i j := by
  rw [eliminate, toMatrix_ofFn]
  by_cases h : r = i
  · simp [h, toMatrix_apply]
  · by_cases hz : a[r][c] = 0
    · rw [if_neg (fun hc => hc.2 hz), if_neg h, toMatrix_apply a r c, hz, zero_mul, sub_zero]
      rfl
    · rw [if_pos ⟨h, hz⟩, if_neg h]
      simp [toMatrix_apply]

theorem toMatrix_eliminate_scaleRow_of_zero {i : Fin n} {j : Fin w} (x : F) (c : Fin w)
    (hj : toMatrix a i j = 0) (r : Fin n) :
    toMatrix (eliminate (scaleRow a i x) i c) r j = toMatrix a r j := by
  have hzero : toMatrix (scaleRow a i x) i j = 0 := by rw [toMatrix_scaleRow, hj, zero_mul]
  rw [toMatrix_eliminate, hzero, mul_zero, sub_zero, toMatrix_scaleRow]
  by_cases hr : r = i
  · rw [hr, hj, zero_mul]
  · rw [if_neg hr, mul_one]

variable {a}

theorem pivot_eq_some {i p : Fin n} {c : Fin w} (h : pivot a i c = some p) :
    i ≤ p ∧ toMatrix a p c ≠ 0 := by
  have hfound := List.find?_some h
  simpa [toMatrix_apply] using hfound

theorem pivot_eq_none {i : Fin n} {c : Fin w} (h : pivot a i c = none) :
    ∀ r, i ≤ r → toMatrix a r c = 0 := by
  intro r hr
  have hnone := List.find?_eq_none.mp h r (List.mem_finRange r)
  simpa [toMatrix_apply, hr] using hnone

end RowOperationLemmas

section Solutions

open Matrix

variable [Field F]

def SameSolutions (a b : Rows F n w) : Prop :=
  ∀ z : Fin w → F, toMatrix a *ᵥ z = 0 ↔ toMatrix b *ᵥ z = 0

theorem SameSolutions.trans {a b d : Rows F n w} (hab : SameSolutions a b)
    (hbd : SameSolutions b d) : SameSolutions a d := fun z => (hab z).trans (hbd z)

variable (a : Rows F n w)

theorem sameSolutions_swapRows (i p : Fin n) : SameSolutions (swapRows a i p) a := by
  intro z
  have hrow : ∀ r, (toMatrix (swapRows a i p) *ᵥ z) r = (toMatrix a *ᵥ z) (Equiv.swap i p r) := by
    intro r
    simp only [mulVec, dotProduct, toMatrix_swapRows]
  simp only [funext_iff, hrow, Pi.zero_apply]
  exact (Equiv.swap i p).forall_congr_right (q := fun r => (toMatrix a *ᵥ z) r = 0)

theorem sameSolutions_scaleRow (i : Fin n) {x : F} (hx : x ≠ 0) :
    SameSolutions (scaleRow a i x) a := by
  intro z
  have hrow : ∀ r, (toMatrix (scaleRow a i x) *ᵥ z) r =
      (if r = i then x else 1) * (toMatrix a *ᵥ z) r := by
    intro r
    simp only [mulVec, dotProduct, toMatrix_scaleRow, Finset.mul_sum]
    refine Finset.sum_congr rfl fun c _ => ?_
    ring
  have hunit : ∀ r, (if r = i then x else 1) ≠ 0 := fun r => by split <;> simp [hx]
  simp only [funext_iff, hrow, Pi.zero_apply, mul_eq_zero, hunit, false_or]

variable [DecidableEq F]

theorem sameSolutions_eliminate (i : Fin n) (c : Fin w) : SameSolutions (eliminate a i c) a := by
  intro z
  have hrow : ∀ r, (toMatrix (eliminate a i c) *ᵥ z) r =
      (toMatrix a *ᵥ z) r - (if r = i then 0 else toMatrix a r c) * (toMatrix a *ᵥ z) i := by
    intro r
    simp only [mulVec, dotProduct, toMatrix_eliminate, Finset.mul_sum, ← Finset.sum_sub_distrib]
    refine Finset.sum_congr rfl fun j _ => ?_
    ring
  simp only [funext_iff, hrow, Pi.zero_apply]
  constructor
  · intro h r
    have hi := h i
    simp only [if_true, zero_mul, sub_zero] at hi
    simpa [hi] using h r
  · intro h r
    simp [h]

variable {a}

theorem reduceColumn_eq_some {b : Rows F n w} {i : Fin n} {c : Fin w}
    (h : reduceColumn a i c = some b) :
    SameSolutions b a ∧ (∀ r, toMatrix b r c = if r = i then 1 else 0) ∧
      ∀ j, (∀ r, i ≤ r → toMatrix a r j = 0) → ∀ r, toMatrix b r j = toMatrix a r j := by
  obtain ⟨p, hp, rfl⟩ := Option.map_eq_some_iff.mp h
  obtain ⟨hip, hne⟩ := pivot_eq_some hp
  set swapped := swapRows a i p with hswapped
  have hpivot : swapped[i][c] ≠ 0 := by
    change toMatrix swapped i c ≠ 0
    rw [hswapped, toMatrix_swapRows, Equiv.swap_apply_left]
    exact hne
  refine ⟨?_, fun r => ?_, fun j hj r => ?_⟩
  · refine (sameSolutions_eliminate _ i c).trans ?_
    refine (sameSolutions_scaleRow _ i (inv_ne_zero hpivot)).trans ?_
    exact sameSolutions_swapRows a i p
  · have hone : toMatrix swapped i c * (swapped[i][c])⁻¹ = 1 := mul_inv_cancel₀ hpivot
    simp only [toMatrix_eliminate, toMatrix_scaleRow, if_true, hone]
    by_cases hr : r = i
    · simp only [hr, if_true, hone, zero_mul, sub_zero]
    · simp only [hr, if_false, mul_one, sub_self]
  · have hkept : ∀ r, toMatrix swapped r j = toMatrix a r j := toMatrix_swapRows_of_zero a hip hj
    rw [← hkept r]
    exact toMatrix_eliminate_scaleRow_of_zero _ _ c ((hkept i).trans (hj i le_rfl)) r

end Solutions

section Inversion

open Matrix

variable [Field F]

def identityRow (r : Fin n) : Vector F n := Vector.ofFn fun c => if c = r then 1 else 0

def augment (m : Rows F n n) : Rows F n (n + n) :=
  Vector.ofFn fun r => (m[r] : Vector F n) ++ (identityRow r : Vector F n)

def rightHalf (a : Rows F n (n + n)) : Rows F n n :=
  a.map fun row => Vector.ofFn fun c => row[Fin.natAdd n c]

structure ReducedTo (a b : Rows F n (n + n)) (c : ℕ) : Prop where
  solutions : SameSolutions b a
  columns : ∀ j : Fin n, j.val < c → ∀ r, toMatrix b r (Fin.castAdd n j) = if r = j then 1 else 0

theorem augment_mulVec (m : Rows F n n) (x y : Fin n → F) :
    toMatrix (augment m) *ᵥ Fin.append x y = toMatrix m *ᵥ x + y := by
  funext r
  simp only [mulVec, dotProduct, Fin.sum_univ_add, Fin.append_left, Fin.append_right, Pi.add_apply,
    augment, toMatrix_ofFn]
  congr 1
  · refine Finset.sum_congr rfl fun c _ => ?_
    simp [toMatrix_apply]
  · simp [identityRow]

theorem mulVec_of_reducedTo {a b : Rows F n (n + n)} (h : ReducedTo a b n) (x y : Fin n → F) :
    toMatrix b *ᵥ Fin.append x y = x + toMatrix (rightHalf b) *ᵥ y := by
  funext r
  simp only [mulVec, dotProduct, Fin.sum_univ_add, Fin.append_left, Fin.append_right, Pi.add_apply]
  congr 1
  · simp [h.columns]
  · refine Finset.sum_congr rfl fun c _ => ?_
    simp [toMatrix_apply, rightHalf]

section Kernel

def kernelVector (b : Rows F n (n + n)) (i j : Fin n) : F :=
  if j = i then 1 else if j < i then -toMatrix b j (Fin.castAdd n i) else 0

theorem kernelVector_self (b : Rows F n (n + n)) (i : Fin n) : kernelVector b i i = 1 := if_pos rfl

variable {a b : Rows F n (n + n)} {i : Fin n}

theorem mul_kernelVector (h : ReducedTo a b i) (r j : Fin n) :
    toMatrix b r (Fin.castAdd n j) * kernelVector b i j =
      (if j = i then toMatrix b r (Fin.castAdd n i) else 0) -
        if j = r then (if r < i then toMatrix b r (Fin.castAdd n i) else 0) else 0 := by
  rcases lt_trichotomy j i with hlt | rfl | hgt
  · simp only [kernelVector, if_neg hlt.ne, if_pos hlt, h.columns j hlt r]
    by_cases hr : r = j
    · simp [hr, hlt]
    · simp [hr, Ne.symm hr]
  · by_cases hr : j = r
    · subst hr
      simp [kernelVector_self]
    · simp [kernelVector_self, hr]
  · simp only [kernelVector, if_neg hgt.ne', if_neg hgt.asymm, mul_zero]
    by_cases hr : j = r
    · simp [← hr, hgt.asymm]
    · simp [hr]

theorem mulVec_kernelVector (h : ReducedTo a b i)
    (hzero : ∀ r, i ≤ r → toMatrix b r (Fin.castAdd n i) = 0) :
    toMatrix b *ᵥ Fin.append (kernelVector b i) 0 = 0 := by
  funext r
  simp only [mulVec, dotProduct, Fin.sum_univ_add, Fin.append_left, Fin.append_right,
    mul_kernelVector h, Pi.zero_apply, mul_zero, Finset.sum_const_zero, add_zero,
    Finset.sum_sub_distrib, Finset.sum_ite_eq', Finset.mem_univ, if_true]
  by_cases hr : r < i
  · simp [hr]
  · simp [hr, hzero r (not_lt.mp hr)]

end Kernel

variable [DecidableEq F]

def reduceTo (a : Rows F n (n + n)) : (c : ℕ) → c ≤ n → Option (Rows F n (n + n))
  | 0, _ => some a
  | c + 1, h =>
    (reduceTo a c (Nat.le_of_succ_le h)).bind fun b => reduceColumn b ⟨c, h⟩ ⟨c, by omega⟩

def invert (m : Rows F n n) : Option (Rows F n n) :=
  (reduceTo (augment m) n le_rfl).map rightHalf

theorem reducedTo_step {a b d : Rows F n (n + n)} {c : ℕ} (hb : ReducedTo a b c) (hc : c < n)
    (h : reduceColumn b ⟨c, hc⟩ ⟨c, by omega⟩ = some d) : ReducedTo a d (c + 1) := by
  obtain ⟨hsol, hcol, hkeep⟩ := reduceColumn_eq_some h
  refine ⟨hsol.trans hb.solutions, fun j hj r => ?_⟩
  rcases Nat.lt_succ_iff_lt_or_eq.mp hj with hlt | heq
  · have hzero : ∀ r : Fin n, ⟨c, hc⟩ ≤ r → toMatrix b r (Fin.castAdd n j) = 0 := by
      intro r hr
      have hne : r ≠ j := by
        rintro rfl
        exact absurd (Fin.le_def.mp hr) (by simpa using hlt)
      rw [hb.columns j hlt r, if_neg hne]
    rw [hkeep _ hzero r, hb.columns j hlt r]
  · have hj' : j = ⟨c, hc⟩ := Fin.ext heq
    subst hj'
    exact hcol r

theorem reduceTo_eq_some {a b : Rows F n (n + n)} {c : ℕ} (hc : c ≤ n)
    (h : reduceTo a c hc = some b) : ReducedTo a b c := by
  induction c generalizing b with
  | zero =>
    obtain rfl := Option.some.inj h
    exact ⟨fun _ => Iff.rfl, fun j hj => absurd hj (Nat.not_lt_zero _)⟩
  | succ c ih =>
    obtain ⟨d, hd, hstep⟩ := Option.bind_eq_some_iff.mp h
    exact reducedTo_step (ih _ hd) hc hstep

theorem mul_of_invert_eq_some {m N : Rows F n n} (h : invert m = some N) :
    toMatrix m * toMatrix N = 1 := by
  obtain ⟨b, hb, rfl⟩ := Option.map_eq_some_iff.mp h
  have hred := reduceTo_eq_some le_rfl hb
  apply Matrix.ext_of_mulVec_single
  intro i
  set y : Fin n → F := Pi.single i 1
  have hsolves : toMatrix b *ᵥ Fin.append (-(toMatrix (rightHalf b) *ᵥ y)) y = 0 := by
    rw [mulVec_of_reducedTo hred, neg_add_cancel]
  rw [hred.solutions, augment_mulVec, mulVec_neg, neg_add_eq_zero] at hsolves
  rw [← mulVec_mulVec, hsolves, one_mulVec]

theorem reduceTo_eq_none {a : Rows F n (n + n)} {c : ℕ} (hc : c ≤ n)
    (h : reduceTo a c hc = none) :
    ∃ (b : Rows F n (n + n)) (i : Fin n), ReducedTo a b i ∧
      ∀ r, i ≤ r → toMatrix b r (Fin.castAdd n i) = 0 := by
  induction c with
  | zero => cases h
  | succ c ih =>
    cases hprev : reduceTo a c (Nat.le_of_succ_le hc) with
    | none => exact ih _ hprev
    | some b =>
      rw [reduceTo, hprev, Option.bind_some, reduceColumn, Option.map_eq_none_iff] at h
      exact ⟨b, ⟨c, hc⟩, reduceTo_eq_some _ hprev, pivot_eq_none h⟩

theorem det_of_invert_eq_none {m : Rows F n n} (h : invert m = none) : (toMatrix m).det = 0 := by
  obtain ⟨b, i, hred, hzero⟩ := reduceTo_eq_none le_rfl (Option.map_eq_none_iff.mp h)
  have hsolves := mulVec_kernelVector hred hzero
  rw [hred.solutions, augment_mulVec, add_zero] at hsolves
  refine Matrix.exists_mulVec_eq_zero_iff.mp ⟨kernelVector b i, fun hx => ?_, hsolves⟩
  have hone := kernelVector_self b i
  rw [hx] at hone
  exact zero_ne_one hone

theorem exists_invert {m : Rows F n n} (h : (toMatrix m).det ≠ 0) :
    ∃ N, invert m = some N ∧ toMatrix m * toMatrix N = 1 ∧ toMatrix N * toMatrix m = 1 := by
  cases hinv : invert m with
  | none => exact absurd (det_of_invert_eq_none hinv) h
  | some N =>
    have hmul := mul_of_invert_eq_some hinv
    exact ⟨N, rfl, hmul, mul_eq_one_comm.mp hmul⟩

end Inversion

end GaussJordan
