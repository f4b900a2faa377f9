import Mathlib
import TrustNode.Turbine.Recovery

namespace TrustNode.Turbine

open GaussJordan
open Matrix

def Gf.checkedInv (a : UInt8) : Except String UInt8 :=
  if h : a ≠ 0 then .ok (Gf.inv a h) else .error "GF(256): inverse of zero"

abbrev ByteMatrix (n w : ℕ) := Vector (Vector UInt8 w) n

namespace ByteMatrix

variable {n w : ℕ}

def augmented (m : ByteMatrix n n) : ByteMatrix n (n + n) :=
  Vector.ofFn fun r => m.get r ++ Vector.ofFn fun c => if c = r then (1 : UInt8) else 0

def findPivot (a : ByteMatrix n w) (col : Fin n) (c : Fin w) : Option (Fin n) :=
  (List.finRange n).find? fun r => decide (col ≤ r) && decide ((a.get r).get c ≠ 0)

def normalizeRow (a : ByteMatrix n w) (col : Fin n) (pivInv : UInt8) : ByteMatrix n w :=
  a.set col.val ((a.get col).map fun v => Gf.mul v pivInv) col.isLt

def clearColumn (a : ByteMatrix n w) (col : Fin n) (c : Fin w) : ByteMatrix n w :=
  Vector.ofFn fun r =>
    if r ≠ col ∧ (a.get r).get c ≠ 0 then
      Vector.zipWith (fun v p => v ^^^ Gf.mul ((a.get r).get c) p) (a.get r) (a.get col)
    else a.get r

def columnStep (a : ByteMatrix n (n + n)) (col : Fin n) :
    Except String (Option (ByteMatrix n (n + n))) :=
  match findPivot a col (Fin.castAdd n col) with
  | none => .ok none
  | some piv =>
    let swapped := swapRows a col piv
    match Gf.checkedInv ((swapped.get col).get (Fin.castAdd n col)) with
    | .error panic => .error panic
    | .ok pivInv =>
      .ok (some (clearColumn (normalizeRow swapped col pivInv) col (Fin.castAdd n col)))

def columnSteps (a : ByteMatrix n (n + n)) :
    (c : ℕ) → c ≤ n → Except String (Option (ByteMatrix n (n + n)))
  | 0, _ => .ok (some a)
  | c + 1, h =>
    match columnSteps a c (Nat.le_of_succ_le h) with
    | .error panic => .error panic
    | .ok none => .ok none
    | .ok (some b) => columnStep b ⟨c, h⟩

def rightBlock (a : ByteMatrix n (n + n)) : ByteMatrix n n :=
  a.map fun row => Vector.ofFn fun c => row.get (Fin.natAdd n c)

def matInv (m : ByteMatrix n n) : Except String (Option (ByteMatrix n n)) :=
  match columnSteps (augmented m) n le_rfl with
  | .error panic => .error panic
  | .ok reduced => .ok (reduced.map rightBlock)

def powers (k m : ℕ) : ByteMatrix (k + m) k :=
  Vector.ofFn fun r => Vector.ofFn fun c => Gf.pow (UInt8.ofNat r) c

def xorProduct {l : ℕ} (v : ByteMatrix n l) (t : ByteMatrix l w) : ByteMatrix n w :=
  Vector.ofFn fun r => Vector.ofFn fun c =>
    (List.finRange l).foldl (fun acc j => acc ^^^ Gf.mul ((v.get r).get j) ((t.get j).get c)) 0

def generator (k m : ℕ) : Except String (Option (ByteMatrix (k + m) k)) :=
  match matInv (Vector.ofFn fun r => (powers k m).get (Fin.castAdd m r) : ByteMatrix k k) with
  | .error panic => .error panic
  | .ok topInv => .ok (topInv.map (xorProduct (powers k m)))

section Lift

def lift (a : ByteMatrix n w) : Rows Gf256 n w := a.map fun row => row.map Gf256.mk

def lower (a : Rows Gf256 n w) : ByteMatrix n w := a.map fun row => row.map Gf256.byte

theorem get_lift (a : ByteMatrix n w) (r : Fin n) :
    (lift a).get r = (a.get r).map Gf256.mk := Vector.get_map a _ r

theorem get_get_lift (a : ByteMatrix n w) (r : Fin n) (c : Fin w) :
    ((lift a).get r).get c = ⟨(a.get r).get c⟩ := by
  rw [get_lift, Vector.get_map]

theorem get_get_lift_eq_zero (a : ByteMatrix n w) (r : Fin n) (c : Fin w) :
    ((lift a).get r).get c = 0 ↔ (a.get r).get c = 0 := by
  rw [get_get_lift]
  exact Gf256.ext_iff

@[simp] theorem lower_lift (a : ByteMatrix n w) : lower (lift a) = a := by
  simp [lift, lower, Function.comp_def]

@[simp] theorem lift_lower (a : Rows Gf256 n w) : lift (lower a) = a := by
  simp [lift, lower, Function.comp_def]

theorem lift_ofFn (f : Fin n → Vector UInt8 w) :
    lift (Vector.ofFn f) = Vector.ofFn fun r => (f r).map Gf256.mk := by
  simp [lift, Function.comp_def]

theorem lift_ofFn_ofFn (f : Fin n → Fin w → UInt8) :
    lift (Vector.ofFn fun r => Vector.ofFn (f r)) =
      Vector.ofFn fun r => Vector.ofFn fun c => ⟨f r c⟩ := by
  simp [lift, Function.comp_def]

def matrix (a : ByteMatrix n w) : Matrix (Fin n) (Fin w) Gf256 :=
  Matrix.of fun r c => ⟨(a.get r).get c⟩

theorem toMatrix_lift (a : ByteMatrix n w) : toMatrix (lift a) = matrix a := by
  apply Matrix.ext
  intro r c
  exact get_get_lift a r c

end Lift

section Operations

theorem lift_augmented (m : ByteMatrix n n) : lift (augmented m) = augment (lift m) := by
  rw [augmented, lift_ofFn, augment]
  congr 1
  funext r
  rw [Vector.map_append]
  congr 1
  · exact (get_lift m r).symm
  · rw [identityRow, Vector.map_ofFn]
    congr 1
    funext c
    by_cases h : c = r
    · rw [Function.comp_apply, if_pos h, if_pos h]
      rfl
    · rw [Function.comp_apply, if_neg h, if_neg h]
      rfl

theorem pivot_lift (a : ByteMatrix n w) (col : Fin n) (c : Fin w) :
    pivot (lift a) col c = findPivot a col c := by
  unfold pivot findPivot
  congr 1
  funext r
  congr 2
  exact propext (get_get_lift_eq_zero a r c).not

theorem lift_swap (a : ByteMatrix n w) (i p : Fin n) :
    lift (swapRows a i p) = swapRows (lift a) i p := by
  apply Vector.ext
  intro r hr
  simp only [lift, swapRows, Vector.getElem_map, Vector.getElem_swap]
  split
  · rfl
  · split <;> rfl

theorem lift_normalizeRow (a : ByteMatrix n w) (col : Fin n) (x : UInt8) :
    lift (normalizeRow a col x) = scaleRow (lift a) col ⟨x⟩ := by
  have hrow : ((a.get col).map fun v => Gf.mul v x).map Gf256.mk =
      ((lift a).get col).map fun v => v * ⟨x⟩ := by
    rw [get_lift, Vector.map_map, Vector.map_map]
    rfl
  unfold normalizeRow scaleRow lift
  rw [Vector.map_set]
  exact congrArg ((lift a).set col) hrow

theorem lift_clearColumn (a : ByteMatrix n w) (col : Fin n) (c : Fin w) :
    lift (clearColumn a col c) = eliminate (lift a) col c := by
  rw [clearColumn, lift_ofFn, eliminate]
  congr 1
  funext r
  change _ = if r ≠ col ∧ ((lift a).get r).get c ≠ 0 then
    Vector.zipWith (fun v p => v - ((lift a).get r).get c * p) ((lift a).get r) ((lift a).get col)
    else (lift a).get r
  by_cases h : r ≠ col ∧ (a.get r).get c ≠ 0
  · rw [if_pos h, if_pos ⟨h.1, (get_get_lift_eq_zero a r c).not.mpr h.2⟩]
    apply Vector.ext
    intro j hj
    simp only [Vector.getElem_map, Vector.getElem_zipWith, get_lift, Vector.get_map]
    rfl
  · rw [if_neg h, if_neg fun hc => h ⟨hc.1, (get_get_lift_eq_zero a r c).not.mp hc.2⟩, get_lift]

theorem lift_rightBlock (a : ByteMatrix n (n + n)) : lift (rightBlock a) = rightHalf (lift a) := by
  unfold rightBlock rightHalf lift
  rw [Vector.map_map, Vector.map_map]
  congr 1
  funext row
  simp only [Function.comp_apply, Vector.map_ofFn]
  congr 1
  funext c
  exact (Vector.get_map row Gf256.mk (Fin.natAdd n c)).symm

theorem checkedInv_eq {a : UInt8} (h : a ≠ 0) :
    Gf.checkedInv a = .ok ((⟨a⟩ : Gf256)⁻¹).byte := by
  rw [Gf.checkedInv, dif_pos h]
  change _ = Except.ok (if hz : a = 0 then (0 : Gf256) else ⟨Gf.inv a hz⟩).byte
  rw [dif_neg h]

end Operations

section Inversion

theorem get_get_swap_pivot {a : ByteMatrix n w} {col piv : Fin n} {c : Fin w}
    (h : findPivot a col c = some piv) :
    ((swapRows a col piv).get col).get c ≠ 0 := by
  have hfound := List.find?_some h
  have hne : (a.get piv).get c ≠ 0 := by
    simpa using (Bool.and_eq_true_iff.mp hfound).2
  simpa [swapRows, get_eq_getElem] using hne

theorem columnStep_eq (a : ByteMatrix n (n + n)) (col : Fin n) :
    columnStep a col = .ok ((reduceColumn (lift a) col (Fin.castAdd n col)).map lower) := by
  unfold columnStep reduceColumn
  rw [pivot_lift]
  cases hpivot : findPivot a col (Fin.castAdd n col) with
  | none => rfl
  | some piv =>
    -- the pivot search only returns nonzero entries, so the assertion of the inverse holds
    have hinv := checkedInv_eq (get_get_swap_pivot hpivot)
    have hentry := get_get_lift (swapRows a col piv) col (Fin.castAdd n col)
    simp only [hinv, Option.map_some]
    congr 2
    rw [← lower_lift (clearColumn _ _ _), lift_clearColumn, lift_normalizeRow, lift_swap]
    rw [← hentry, lift_swap]
    rfl

theorem columnSteps_eq (a : ByteMatrix n (n + n)) (c : ℕ) (h : c ≤ n) :
    columnSteps a c h = .ok ((reduceTo (lift a) c h).map lower) := by
  induction c with
  | zero => simp [columnSteps, reduceTo]
  | succ c ih =>
    rw [columnSteps, ih, reduceTo]
    cases hprev : reduceTo (lift a) c (Nat.le_of_succ_le h) with
    | none => rfl
    | some b =>
      simp only [Option.map_some, Option.bind_some, columnStep_eq, lift_lower]
      rfl

theorem matInv_eq (m : ByteMatrix n n) : matInv m = .ok ((Turbine.matInv (lift m)).map lower) := by
  rw [matInv, columnSteps_eq, Turbine.matInv, invert, lift_augmented]
  simp only [Option.map_map]
  congr 2
  funext b
  simp only [Function.comp_apply]
  rw [← lower_lift (rightBlock _), lift_rightBlock, lift_lower]

theorem isUnit_matrix_iff (m : ByteMatrix n n) :
    IsUnit (matrix m) ↔ (toMatrix (lift m)).det ≠ 0 := by
  rw [isUnit_iff_isUnit_det, isUnit_iff_ne_zero, toMatrix_lift]

theorem exists_matInv {m : ByteMatrix n n} (h : IsUnit (matrix m)) :
    ∃ N, matInv m = .ok (some N) ∧ matrix N * matrix m = 1 ∧ matrix m * matrix N = 1 := by
  obtain ⟨N, hinv, hright, hleft⟩ := exists_invert ((isUnit_matrix_iff m).mp h)
  refine ⟨lower N, ?_, ?_, ?_⟩
  · rw [matInv_eq, Turbine.matInv, hinv]
    rfl
  · rw [← toMatrix_lift, ← toMatrix_lift, lift_lower, hleft]
  · rw [← toMatrix_lift, ← toMatrix_lift, lift_lower, hright]

theorem matInv_correct (n : ℕ) (m : ByteMatrix n n) :
    (IsUnit (matrix m) → ∃ N, matInv m = .ok (some N) ∧
      matrix N * matrix m = 1 ∧ matrix m * matrix N = 1) ∧
    (matInv m = .ok none ↔ ¬IsUnit (matrix m)) := by
  refine ⟨exists_matInv, fun hnone hunit => ?_, fun hsingular => ?_⟩
  · obtain ⟨N, hsome, -, -⟩ := exists_matInv hunit
    rw [hnone] at hsome
    cases hsome
  · rw [matInv_eq, Turbine.matInv]
    cases hinv : invert (lift m) with
    | none => rfl
    | some N =>
      have hmul := mul_of_invert_eq_some hinv
      rw [toMatrix_lift] at hmul
      exact absurd (IsUnit.of_mul_eq_one _ hmul) hsingular

end Inversion

section Generator

variable {k m : ℕ}

theorem lift_powers : lift (powers k m) = vandermonde k m := lift_ofFn_ofFn _

theorem lift_xorProduct {l : ℕ} (v : ByteMatrix n l) (t : ByteMatrix l w) :
    lift (xorProduct v t) = product (lift v) (lift t) := by
  rw [xorProduct, lift_ofFn_ofFn, product]
  congr 1
  funext r
  congr 1
  funext c
  refine (List.foldl_hom Gf256.mk fun acc j => ?_).symm
  change Gf256.mk acc + ((lift v).get r).get j * ((lift t).get j).get c = _
  rw [get_get_lift, get_get_lift]
  rfl

theorem generator_eq : generator k m = .ok ((Turbine.generator k m).map lower) := by
  have htop : lift (Vector.ofFn fun r => (powers k m).get (Fin.castAdd m r) : ByteMatrix k k) =
      top (vandermonde k m) := by
    rw [lift_ofFn, ← lift_powers, top]
    congr 1
    funext r
    exact (get_lift (powers k m) (Fin.castAdd m r)).symm
  rw [generator, matInv_eq, htop, Turbine.generator]
  simp only [Option.map_map]
  congr 2
  funext t
  simp only [Function.comp_apply]
  rw [← lower_lift (xorProduct _ _), lift_xorProduct, lift_lower, lift_powers]

def rowsAt {l : ℕ} (g : ByteMatrix n w) (f : Fin l → Fin n) : ByteMatrix l w :=
  Vector.ofFn fun r => g.get (f r)

theorem matrix_rowsAt {l : ℕ} (g : ByteMatrix n w) (f : Fin l → Fin n) :
    matrix (rowsAt g f) = (matrix g).submatrix f id := by
  apply Matrix.ext
  intro r c
  simp only [matrix, rowsAt, Vector.get_ofFn, Matrix.of_apply, Matrix.submatrix_apply, id]

theorem recover_isSome {config : ErasureConfig}
    {g : Rows Gf256 config.totalShards config.dataShards}
    (hg : Turbine.generator config.dataShards config.parityShards = some g)
    (hgen : IsGenerator g) {shreds : List Shred}
    {selected : Vector (Fin config.totalShards × Shred) config.dataShards}
    (hselect : ErasureCoder.select config (ErasureCoder.byIndex config shreds) = some selected)
    (size : ℕ) : (ErasureCoder.recover config selected size).isSome := by
  have henough : config.dataShards ≤ (ErasureCoder.byIndex config shreds).length := by
    by_contra hfew
    rw [ErasureCoder.select, dif_neg hfew] at hselect
    cases hselect
  obtain ⟨found, hfound, -, hinj⟩ :=
    ErasureCoder.select_spec (ErasureCoder.kept_byIndex config shreds) henough
  obtain rfl := Option.some.inj (hselect.symm.trans hfound)
  obtain ⟨subInv, hinv, -⟩ := ErasureCoder.exists_subInv hgen hinj
  rw [ErasureCoder.recover_of_subInv hg hinv]
  rfl

theorem generator_systematic_mds {k m : ℕ} (hk : 1 ≤ k) (h : k + m ≤ 256) :
    ∃ g, generator k m = .ok (some g) ∧
      Turbine.generator k m = some (lift g) ∧
      (matrix g).submatrix (Fin.castAdd m) id = 1 ∧
      (∀ f : Fin k → Fin (k + m), Function.Injective f →
        IsUnit ((matrix g).submatrix f id) ∧ ∃ N, matInv (rowsAt g f) = .ok (some N)) ∧
      (∀ C data slot, ErasureCoder.encode ⟨k, m⟩ C data slot =
        .ok (ErasureCoder.shards ⟨k, m⟩ C data slot (lift g))) ∧
      ∀ shreds selected size,
        ErasureCoder.select ⟨k, m⟩ (ErasureCoder.byIndex ⟨k, m⟩ shreds) = some selected →
        (ErasureCoder.recover ⟨k, m⟩ selected size).isSome := by
  obtain ⟨g, hg, hgen⟩ := generator_spec h
  have hmatrix : matrix (lower g) = toMatrix g := by rw [← toMatrix_lift, lift_lower]
  refine ⟨lower g, ?_, ?_, ?_, fun f hf => ?_, fun C data slot => ?_,
    fun shreds selected size hselect => ?_⟩
  · rw [generator_eq, hg]
    rfl
  · rw [hg, lift_lower]
  · rw [hmatrix, hgen.systematic]
  · have hunit : IsUnit ((matrix (lower g)).submatrix f id) := by
      rw [isUnit_iff_isUnit_det, isUnit_iff_ne_zero, hmatrix]
      exact hgen.independent f hf
    obtain ⟨N, hN, -, -⟩ := exists_matInv ((matrix_rowsAt (lower g) f).symm ▸ hunit)
    exact ⟨hunit, N, hN⟩
  · rw [lift_lower]
    exact ErasureCoder.encode_eq hk hg
  · exact recover_isSome hg hgen hselect size

theorem generator_defaultSolana : 1 ≤ 16 ∧ 16 + 4 ≤ 256 ∧
    ∃ g, generator 16 4 = .ok (some g) ∧ (matrix g).submatrix (Fin.castAdd 4) id = 1 ∧
      ∀ f : Fin 16 → Fin (16 + 4), Function.Injective f → ∃ N, matInv (rowsAt g f) = .ok (some N) := by
  refine ⟨by decide, by decide, ?_⟩
  obtain ⟨g, hg, -, hsystematic, hrows, -, -⟩ :=
    generator_systematic_mds (k := 16) (m := 4) (by decide) (by decide)
  exact ⟨g, hg, hsystematic, fun f hf => (hrows f hf).2⟩

end Generator

end ByteMatrix

end TrustNode.Turbine
