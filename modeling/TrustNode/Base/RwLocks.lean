import Mathlib.Data.Fintype.Lattice
import Mathlib.Logic.Relation
import Mathlib.Order.WithBot
import TrustNode.Base.Ascending

namespace RwLocks

variable {ι κ : Type*}

inductive Thread (κ : Type*) where
  | running (held todo : List (κ × Bool))
  | finished

def Thread.holds : Thread κ → List (κ × Bool)
  | running held _ => held
  | finished => []

def Thread.next : Thread κ → Option (κ × Bool)
  | running _ todo => todo.head?
  | finished => none

abbrev Threads (ι κ : Type*) := ι → Thread κ

def start (plans : ι → List (κ × Bool)) : Threads ι κ := fun i => .running [] (plans i)

def Grantable (yieldsTo : Threads ι κ → ι → ι → Prop) (s : Threads ι κ) (i : ι) :
    κ × Bool → Prop
  | (k, true) => ∀ j b, (k, b) ∉ (s j).holds
  | (k, false) => (∀ j, (k, true) ∉ (s j).holds) ∧
      ∀ j, j ≠ i → yieldsTo s i j → (s j).next ≠ some (k, true)

variable [DecidableEq ι]

inductive Step (yieldsTo : Threads ι κ → ι → ι → Prop) : Threads ι κ → Threads ι κ → Prop
  | acquire {s : Threads ι κ} {i : ι} {held todo : List (κ × Bool)} {r : κ × Bool}
      (hi : s i = .running held (r :: todo)) (hgrant : Grantable yieldsTo s i r) :
      Step yieldsTo s (Function.update s i (.running (held ++ [r]) todo))
  | finish {s : Threads ι κ} {i : ι} {held : List (κ × Bool)} (hi : s i = .running held []) :
      Step yieldsTo s (Function.update s i .finished)

def Reachable (yieldsTo : Threads ι κ → ι → ι → Prop) (plans : ι → List (κ × Bool)) :
    Threads ι κ → Prop :=
  Relation.ReflTransGen (Step yieldsTo) (start plans)

def OnPlan (plans : ι → List (κ × Bool)) (s : Threads ι κ) : Prop :=
  ∀ i held todo, s i = .running held todo → held ++ todo = plans i

variable {yieldsTo : Threads ι κ → ι → ι → Prop} {plans : ι → List (κ × Bool)}

omit [DecidableEq ι] in
theorem onPlan_start : OnPlan plans (start plans) := by
  intro i held todo hi
  cases hi
  rfl

theorem Step.onPlan {s t : Threads ι κ} (h : Step yieldsTo s t) (hs : OnPlan plans s) :
    OnPlan plans t := by
  intro j held' todo' hj
  cases h with
  | @acquire i held todo r hi hgrant =>
    rcases eq_or_ne j i with rfl | hne
    · rw [Function.update_self] at hj
      cases hj
      rw [← hs j held (r :: todo') hi, List.append_assoc]
      rfl
    · rw [Function.update_of_ne hne] at hj
      exact hs j held' todo' hj
  | @finish i held hi =>
    rcases eq_or_ne j i with rfl | hne
    · rw [Function.update_self] at hj
      cases hj
    · rw [Function.update_of_ne hne] at hj
      exact hs j held' todo' hj

theorem Reachable.onPlan {s : Threads ι κ} (h : Reachable yieldsTo plans s) : OnPlan plans s := by
  induction h with
  | refl => exact onPlan_start
  | tail _ hstep ih => exact hstep.onPlan ih

section Progress

variable [LinearOrder κ]

def nextKey (t : Thread κ) : WithBot κ := (t.next.map Prod.fst : Option κ)

omit [DecidableEq ι] in
theorem OnPlan.held_lt {s : Threads ι κ} (hs : OnPlan plans s)
    (hplans : ∀ i, Ascending.Ordered (plans i)) {i : ι} {held todo : List (κ × Bool)}
    {r q : κ × Bool} (hi : s i = .running held (r :: todo)) (hq : q ∈ held) : q.1 < r.1 := by
  have hordered := hplans i
  rw [← hs i held (r :: todo) hi, Ascending.Ordered, Ascending.keys, List.map_append,
    List.pairwise_append] at hordered
  exact hordered.2.2 q.1 (List.mem_map_of_mem hq) r.1 (List.mem_map_of_mem List.mem_cons_self)

omit [LinearOrder κ] in
theorem exists_step_of_top {s : Threads ι κ} {i : ι} {held todo : List (κ × Bool)}
    {k : κ} {b : Bool} (hi : s i = .running held ((k, b) :: todo))
    (hfree : ∀ j b', (k, b') ∉ (s j).holds) : ∃ t, Step yieldsTo s t := by
  cases b with
  | true => exact ⟨_, .acquire hi hfree⟩
  | false =>
    by_cases hwriter : ∃ j, (s j).next = some (k, true)
    · obtain ⟨j, hj⟩ := hwriter
      cases hsj : s j with
      | finished =>
        rw [hsj] at hj
        cases hj
      | running heldj todoj =>
        rw [hsj] at hj
        cases todoj with
        | nil => cases hj
        | cons r rest =>
          cases hj
          exact ⟨_, .acquire hsj hfree⟩
    · exact ⟨_, .acquire hi ⟨fun j => hfree j true, fun j _ _ hj => hwriter ⟨j, hj⟩⟩⟩

theorem Reachable.exists_step [Finite ι] {s : Threads ι κ} (h : Reachable yieldsTo plans s)
    (hplans : ∀ i, Ascending.Ordered (plans i)) {i : ι} (hi : s i ≠ .finished) :
    ∃ t, Step yieldsTo s t := by
  have hs := h.onPlan
  by_cases hready : ∃ j held, s j = .running held []
  · obtain ⟨j, held, hj⟩ := hready
    exact ⟨_, .finish hj⟩
  have hwaits : ∀ {j held todo}, s j = .running held todo → ∃ r rest, todo = r :: rest := by
    intro j held todo hj
    cases todo with
    | nil => exact absurd ⟨j, held, hj⟩ hready
    | cons r rest => exact ⟨r, rest, rfl⟩
  have : Nonempty ι := ⟨i⟩
  obtain ⟨top, htop⟩ := Finite.exists_max fun j => nextKey (s j)
  cases hsi : s i with
  | finished => exact absurd hsi hi
  | running held todo =>
    obtain ⟨r, rest, rfl⟩ := hwaits hsi
    cases hst : s top with
    | finished =>
      have hle := htop i
      rw [hsi, hst] at hle
      exact absurd hle (WithBot.not_coe_le_bot r.1)
    | running held' todo' =>
      obtain ⟨⟨k, b⟩, rest', rfl⟩ := hwaits hst
      refine exists_step_of_top hst fun j b' hj => ?_
      cases hsj : s j with
      | finished =>
        rw [hsj] at hj
        exact absurd hj List.not_mem_nil
      | running heldj todoj =>
        rw [hsj] at hj
        obtain ⟨q, restj, rfl⟩ := hwaits hsj
        have hle := htop j
        rw [hsj, hst] at hle
        exact absurd (WithBot.coe_le_coe.mp hle) (not_le.mpr (hs.held_lt hplans (q := (k, b')) hsj hj))

end Progress

end RwLocks
