import Mathlib.Tactic

namespace Word

def checkedAdd (a b : UInt64) : Option UInt64 :=
  if a.toNat + b.toNat < 2 ^ 64 then some (a + b) else none

theorem checkedAdd_eq_some {a b c : UInt64} :
    checkedAdd a b = some c ↔ c.toNat = a.toNat + b.toNat := by
  unfold checkedAdd
  split
  next h =>
    rw [Option.some.injEq, ← UInt64.toNat_inj, UInt64.toNat_add, Nat.mod_eq_of_lt h]
    exact eq_comm
  next h =>
    have hc := c.toNat_lt
    simp only [reduceCtorEq, false_iff]
    omega

def checkedSub (a b : UInt64) : Option UInt64 := if b ≤ a then some (a - b) else none

theorem checkedSub_eq_some {a b c : UInt64} : checkedSub a b = some c ↔ b ≤ a ∧ a - b = c := by
  by_cases h : b ≤ a <;> simp [checkedSub, h]

def saturatingAdd (a b : UInt64) : UInt64 := (checkedAdd a b).getD (UInt64.ofNat (2 ^ 64 - 1))

theorem toNat_saturatingAdd (a b : UInt64) :
    (saturatingAdd a b).toNat = min (a.toNat + b.toNat) (2 ^ 64 - 1) := by
  unfold saturatingAdd checkedAdd
  split
  next h =>
    rw [Option.getD_some, UInt64.toNat_add, Nat.mod_eq_of_lt h]
    omega
  next h =>
    have hm : (UInt64.ofNat (2 ^ 64 - 1)).toNat = 2 ^ 64 - 1 := by decide
    rw [Option.getD_none, hm]
    omega

theorem saturatingAdd_zero (a : UInt64) : saturatingAdd a 0 = a := by
  apply UInt64.toNat_inj.mp
  have ha := a.toNat_lt
  rw [toNat_saturatingAdd, UInt64.toNat_zero]
  omega

theorem toNat_foldr_saturatingAdd {α : Type*} (f : α → UInt64) (l : List α) :
    (l.foldr (fun x total => saturatingAdd (f x) total) 0).toNat =
      min (l.map fun x => (f x).toNat).sum (2 ^ 64 - 1) := by
  induction l with
  | nil => rfl
  | cons x rest ih =>
    rw [List.foldr_cons, toNat_saturatingAdd, ih, List.map_cons, List.sum_cons]
    omega

theorem toNat_foldl_saturatingAdd {α : Type*} (f : α → UInt64) (l : List α) (init : UInt64) :
    (l.foldl (fun total x => saturatingAdd total (f x)) init).toNat =
      min (init.toNat + (l.map fun x => (f x).toNat).sum) (2 ^ 64 - 1) := by
  induction l generalizing init with
  | nil =>
    have hinit := init.toNat_lt
    simp only [List.foldl_nil, List.map_nil, List.sum_nil]
    omega
  | cons x rest ih =>
    rw [List.foldl_cons, ih, toNat_saturatingAdd, List.map_cons, List.sum_cons]
    omega

theorem toNat_add_one {a : UInt64} (h : a.toNat + 1 < 2 ^ 64) : (a + 1).toNat = a.toNat + 1 := by
  rw [UInt64.toNat_add, UInt64.toNat_one, Nat.mod_eq_of_lt h]

def saturatingMul (a b : UInt64) : UInt64 :=
  UInt64.ofNat (min (a.toNat * b.toNat) (2 ^ 64 - 1))

theorem toNat_saturatingMul (a b : UInt64) :
    (saturatingMul a b).toNat = min (a.toNat * b.toNat) (2 ^ 64 - 1) := by
  rw [saturatingMul, UInt64.toNat_ofNat', Nat.mod_eq_of_lt]
  omega

def saturatingSub (a b : UInt64) : UInt64 := if b ≤ a then a - b else 0

end Word
