import Mathlib.Data.Nat.Digits.Lemmas
import Mathlib.Tactic

namespace Positional

section Carrying

def carryLoop (b m : ℕ) : ℕ → List ℕ → List ℕ × ℕ
  | carry, [] => ([], carry)
  | carry, d :: ds =>
    ((carry + m * d) % b :: (carryLoop b m ((carry + m * d) / b) ds).1,
      (carryLoop b m ((carry + m * d) / b) ds).2)

variable {b m : ℕ}

theorem carryLoop_digits (hb : 1 < b) (hm : 0 < m) (carry v : ℕ) :
    (carryLoop b m carry (b.digits v)).1 ++ b.digits (carryLoop b m carry (b.digits v)).2 =
      b.digits (carry + m * v) := by
  induction v using Nat.strong_induction_on generalizing carry with
  | h v ih =>
    rcases Nat.eq_zero_or_pos v with rfl | hv
    · rw [Nat.digits_zero, carryLoop, List.nil_append, Nat.mul_zero, Nat.add_zero]
    · -- v = v % b + b * (v / b): the low digit leaves the carry for the digits of v / b
      have hsplit : carry + m * v = carry + m * (v % b) + b * (m * (v / b)) := by
        conv_lhs => rw [← Nat.mod_add_div v b]
        ring
      have hpos : 0 < carry + m * v := Nat.add_pos_right carry (Nat.mul_pos hm hv)
      have hlow : (carry + m * v) % b = (carry + m * (v % b)) % b := by
        rw [hsplit, Nat.add_mul_mod_self_left]
      have hhigh : (carry + m * v) / b = (carry + m * (v % b)) / b + m * (v / b) := by
        rw [hsplit, Nat.add_mul_div_left _ _ (by omega)]
      rw [Nat.digits_def' hb hv, carryLoop, List.cons_append, Nat.digits_def' hb hpos, hlow, hhigh,
        ih (v / b) (Nat.div_lt_self hv hb)]

end Carrying

section Value

variable {b : ℕ}

def bigEndian (b : ℕ) (ds : List ℕ) : ℕ := Nat.ofDigits b ds.reverse

theorem foldl_horner (ds : List ℕ) (v : ℕ) :
    ds.foldl (fun v d => d + b * v) v = Nat.ofDigits b ds.reverse + b ^ ds.length * v := by
  induction ds generalizing v with
  | nil => simp
  | cons d ds ih =>
    rw [List.foldl_cons, ih, List.reverse_cons, Nat.ofDigits_append, Nat.ofDigits_singleton,
      List.length_reverse, List.length_cons, pow_succ]
    ring

theorem bigEndian_eq_foldl (ds : List ℕ) : bigEndian b ds = ds.foldl (fun v d => d + b * v) 0 := by
  rw [foldl_horner, Nat.mul_zero, Nat.add_zero, bigEndian]

theorem bigEndian_replicate_zero_append (n : ℕ) (ds : List ℕ) :
    bigEndian b (List.replicate n 0 ++ ds) = bigEndian b ds := by
  rw [bigEndian, bigEndian, List.reverse_append, List.reverse_replicate,
    Nat.ofDigits_append_replicate_zero]

theorem digits_bigEndian (hb : 1 < b) {ds : List ℕ} (hlt : ∀ d ∈ ds, d < b)
    (hhead : ds.head? ≠ some 0) : b.digits (bigEndian b ds) = ds.reverse := by
  refine Nat.digits_ofDigits b hb _ (fun d hd => hlt d (List.mem_reverse.mp hd)) fun hne hlast => ?_
  rw [List.getLast_reverse] at hlast
  exact hhead (hlast ▸ (List.head?_eq_some_head _))

theorem bigEndian_injective (hb : 1 < b) {ds ds' : List ℕ} (hlt : ∀ d ∈ ds, d < b)
    (hhead : ds.head? ≠ some 0) (hlt' : ∀ d ∈ ds', d < b) (hhead' : ds'.head? ≠ some 0)
    (h : bigEndian b ds = bigEndian b ds') : ds = ds' := by
  have hdigits := congrArg b.digits h
  rw [digits_bigEndian hb hlt hhead, digits_bigEndian hb hlt' hhead'] at hdigits
  exact List.reverse_injective hdigits

end Value

section Leading

variable {α : Type*}

theorem replicate_append_inj {x : α} {n n' : ℕ} {l l' : List α} (hl : l.head? ≠ some x)
    (hl' : l'.head? ≠ some x) (h : List.replicate n x ++ l = List.replicate n' x ++ l') :
    n = n' ∧ l = l' := by
  induction n generalizing n' with
  | zero =>
    cases n' with
    | zero => exact ⟨rfl, h⟩
    | succ n' =>
      rw [List.replicate_zero, List.nil_append] at h
      exact absurd (by rw [h]; rfl) hl
  | succ n ih =>
    cases n' with
    | zero =>
      rw [List.replicate_zero, List.nil_append] at h
      exact absurd (by rw [← h]; rfl) hl'
    | succ n' =>
      rw [List.replicate_succ, List.replicate_succ, List.cons_append, List.cons_append,
        List.cons.injEq] at h
      obtain ⟨hn, hrest⟩ := ih h.2
      exact ⟨congrArg Nat.succ hn, hrest⟩

theorem eq_replicate_append_drop [DecidableEq α] (x : α) (l : List α) :
    l = List.replicate (l.takeWhile (· = x)).length x ++ l.drop (l.takeWhile (· = x)).length ∧
      (l.drop (l.takeWhile (· = x)).length).head? ≠ some x := by
  induction l with
  | nil => exact ⟨rfl, by simp⟩
  | cons y l ih =>
    by_cases hy : y = x
    · subst hy
      simp only [List.takeWhile_cons, decide_true, if_true, List.length_cons, List.drop_succ_cons,
        List.replicate_succ, List.cons_append]
      exact ⟨congrArg (y :: ·) ih.1, ih.2⟩
    · simp [hy]

end Leading

end Positional
