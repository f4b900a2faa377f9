import Mathlib.Tactic

namespace FirstWins

variable {κ β : Type} [DecidableEq κ]

def firstOf (l : List (κ × β)) (k : κ) : Option β := (l.find? (·.1 = k)).map Prod.snd

def Functional (l : List (κ × β)) : Prop := ∀ p ∈ l, ∀ q ∈ l, p.1 = q.1 → p.2 = q.2

theorem firstOf_cons (p : κ × β) (l : List (κ × β)) (k : κ) :
    firstOf (p :: l) k = if p.1 = k then some p.2 else firstOf l k := by
  rw [firstOf, List.find?_cons]
  split_ifs with h
  · rw [decide_eq_true h]
    rfl
  · rw [decide_eq_false h]
    rfl

theorem mem_of_firstOf {l : List (κ × β)} {k : κ} {v : β} (h : firstOf l k = some v) :
    (k, v) ∈ l := by
  obtain ⟨p, hp, rfl⟩ := Option.map_eq_some_iff.mp h
  have hkey : p.1 = k := by simpa using List.find?_some hp
  subst hkey
  exact List.mem_of_find?_eq_some hp

theorem firstOf_isSome {l : List (κ × β)} {p : κ × β} (h : p ∈ l) :
    ∃ v, firstOf l p.1 = some v := by
  induction l with
  | nil => exact absurd h List.not_mem_nil
  | cons q rest ih =>
    rw [firstOf_cons]
    split_ifs with hq
    · exact ⟨q.2, rfl⟩
    · rcases List.mem_cons.mp h with rfl | h
      · exact absurd rfl hq
      · exact ih h

theorem Functional.firstOf_eq {l : List (κ × β)} (hl : Functional l) {p : κ × β} (h : p ∈ l) :
    firstOf l p.1 = some p.2 := by
  obtain ⟨v, hv⟩ := firstOf_isSome h
  rw [hv]
  exact congrArg some (hl (p.1, v) (mem_of_firstOf hv) p h rfl)

theorem Functional.firstOf_congr {l l' : List (κ × β)} (hl : Functional l)
    (hmem : ∀ p, p ∈ l ↔ p ∈ l') : firstOf l = firstOf l' := by
  have hl' : Functional l' := fun p hp q hq =>
    hl p ((hmem p).mpr hp) q ((hmem q).mpr hq)
  funext k
  cases hk : firstOf l k with
  | some v => exact (hl'.firstOf_eq ((hmem _).mp (mem_of_firstOf hk))).symm
  | none =>
    cases hk' : firstOf l' k with
    | none => rfl
    | some v =>
      have hsome := hl.firstOf_eq ((hmem _).mpr (mem_of_firstOf hk'))
      rw [hk] at hsome
      cases hsome

theorem functional_iff {l : List (κ × β)} :
    Functional l ↔ ∀ p ∈ l, ∀ q ∈ l, firstOf (p :: l) = firstOf (q :: l) := by
  constructor
  · intro hl p hp q hq
    have hlift : ∀ r ∈ l, ∀ s, s ∈ l ↔ s ∈ r :: l := by
      intro r hr s
      rw [List.mem_cons]
      exact ⟨Or.inr, fun hs => hs.elim (fun he => he ▸ hr) id⟩
    rw [← hl.firstOf_congr (hlift p hp), ← hl.firstOf_congr (hlift q hq)]
  · intro h p hp q hq hkey
    have heq := congrFun (h p hp q hq) p.1
    rw [firstOf_cons, firstOf_cons, if_pos rfl, if_pos hkey.symm] at heq
    exact Option.some.inj heq

end FirstWins
