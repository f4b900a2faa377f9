import Mathlib.Logic.Relation
import Mathlib.Tactic

structure SeqObject (μ χ ρ : Type) where
  apply : μ → χ → μ
  reply : μ → χ → ρ

namespace Linearize

variable {σ φ χ ρ μ ι : Type}

structure Machine (σ φ χ ρ : Type) where
  enter : χ → φ
  call : φ → χ
  decided : φ → Option ρ
  advance : σ → φ → σ × (φ ⊕ ρ)
  call_enter : ∀ x, call (enter x) = x
  decided_enter : ∀ x, decided (enter x) = none
  call_advance : ∀ s p q, (advance s p).2 = .inl q → call q = call p
  decided_advance : ∀ s p q r, (advance s p).2 = .inl q → decided p = some r → decided q = some r
  decided_return : ∀ s p r r', (advance s p).2 = .inr r' → decided p = some r → r' = r

def Machine.run (M : Machine σ φ χ ρ) : ℕ → σ → φ → Option (σ × ρ)
  | 0, _, _ => none
  | fuel + 1, s, p =>
    match M.advance s p with
    | (s', .inl q) => M.run fuel s' q
    | (s', .inr r) => some (s', r)

structure State (σ φ χ ρ ι : Type) where
  store : σ
  threads : ι → Option φ
  history : List (ι × χ × ρ)
  returned : List (ι × χ × ρ)

def State.initial (s : σ) : State σ φ χ ρ ι where
  store := s
  threads := fun _ => none
  history := []
  returned := []

section System

variable [DecidableEq ι] (M : Machine σ φ χ ρ)

def Machine.decision (p : φ) (out : φ ⊕ ρ) : Option ρ :=
  match M.decided p with
  | some _ => none
  | none => out.elim M.decided some

def State.enter (s : State σ φ χ ρ ι) (i : ι) (x : χ) : State σ φ χ ρ ι :=
  { s with threads := Function.update s.threads i (some (M.enter x)) }

def State.advance (s : State σ φ χ ρ ι) (i : ι) (p : φ) : State σ φ χ ρ ι :=
  let out := M.advance s.store p
  { store := out.1
    threads := Function.update s.threads i out.2.getLeft?
    history := s.history ++ (M.decision p out.2).toList.map fun r => (i, M.call p, r)
    returned := s.returned ++ out.2.getRight?.toList.map fun r => (i, M.call p, r) }

variable (admits : (ι → Option φ) → χ → Prop) (allows : (ι → Option φ) → φ → Prop)

inductive Step : State σ φ χ ρ ι → State σ φ χ ρ ι → Prop
  | enter {s : State σ φ χ ρ ι} {i : ι} {x : χ} (hi : s.threads i = none)
      (hx : admits s.threads x) : Step s (s.enter M i x)
  | advance {s : State σ φ χ ρ ι} {i : ι} {p : φ} (hi : s.threads i = some p)
      (hp : allows s.threads p) : Step s (s.advance M i p)

def Reachable (start : σ) : State σ φ χ ρ ι → Prop :=
  Relation.ReflTransGen (Step M admits allows) (.initial start)

end System

section Histories

variable (O : SeqObject μ χ ρ)

def current (m : μ) (history : List (ι × χ × ρ)) : μ :=
  history.foldl (fun m e => O.apply m e.2.1) m

def Legal (m : μ) (history : List (ι × χ × ρ)) : Prop :=
  ∀ before e after, history = before ++ e :: after → e.2.2 = O.reply (current O m before) e.2.1

theorem current_snoc (m : μ) (history : List (ι × χ × ρ)) (e : ι × χ × ρ) :
    current O m (history ++ [e]) = O.apply (current O m history) e.2.1 := by
  rw [current, current, List.foldl_append]
  rfl

theorem Legal.nil (m : μ) : Legal O m ([] : List (ι × χ × ρ)) := by
  intro before e after h
  cases before <;> cases h

variable {O}

theorem Legal.snoc {m : μ} {history : List (ι × χ × ρ)} (h : Legal O m history) {e : ι × χ × ρ}
    (he : e.2.2 = O.reply (current O m history) e.2.1) : Legal O m (history ++ [e]) := by
  intro before e' after hsplit
  rcases List.eq_nil_or_concat' after with rfl | ⟨rest, last, rfl⟩
  · obtain ⟨rfl, hlast⟩ := List.append_inj' hsplit rfl
    cases hlast
    exact he
  · rw [← List.cons_append, ← List.append_assoc] at hsplit
    exact h before e' rest (List.append_inj' hsplit rfl).1

end Histories

section Returns

variable [DecidableEq ι] {M : Machine σ φ χ ρ} {admits : (ι → Option φ) → χ → Prop}
  {allows : (ι → Option φ) → φ → Prop} {start : σ} {s : State σ φ χ ρ ι}

def pending (M : Machine σ φ χ ρ) (i : ι) : Option φ → List (ι × χ × ρ)
  | none => []
  | some p => (M.decided p).toList.map fun r => (i, M.call p, r)

def ofThread (i : ι) (history : List (ι × χ × ρ)) : List (ι × χ × ρ) :=
  history.filter fun e => e.1 = i

theorem ofThread_append (i : ι) (history more : List (ι × χ × ρ)) :
    ofThread i (history ++ more) = ofThread i history ++ ofThread i more :=
  List.filter_append history more

theorem ofThread_self (i : ι) (x : χ) (rs : List ρ) :
    ofThread i (rs.map fun r => (i, x, r)) = rs.map fun r => (i, x, r) := by
  rw [ofThread, List.filter_eq_self]
  intro e he
  obtain ⟨r, -, rfl⟩ := List.mem_map.mp he
  exact decide_eq_true rfl

theorem ofThread_other {i j : ι} (hne : j ≠ i) (x : χ) (rs : List ρ) :
    ofThread j (rs.map fun r => (i, x, r)) = [] := by
  rw [ofThread, List.filter_eq_nil_iff]
  intro e he
  obtain ⟨r, -, rfl⟩ := List.mem_map.mp he
  simpa using hne.symm

omit [DecidableEq ι] in
theorem pending_advance (M : Machine σ φ χ ρ) (i : ι) (s : σ) (p : φ) :
    pending M i (some p) ++ (M.decision p (M.advance s p).2).toList.map (fun r => (i, M.call p, r)) =
      (M.advance s p).2.getRight?.toList.map (fun r => (i, M.call p, r)) ++
        pending M i (M.advance s p).2.getLeft? := by
  unfold Machine.decision
  cases hout : (M.advance s p).2 with
  | inl q =>
    cases hdecided : M.decided p with
    | none => simp [pending, hdecided, M.call_advance s p q hout]
    | some r =>
      simp [pending, hdecided, M.call_advance s p q hout, M.decided_advance s p q r hout hdecided]
  | inr r' =>
    cases hdecided : M.decided p with
    | none => simp [pending, hdecided]
    | some r => simp [pending, hdecided, M.decided_return s p r r' hout hdecided]

theorem Reachable.returned_eq (h : Reachable M admits allows start s) (j : ι) :
    ofThread j s.history = ofThread j s.returned ++ pending M j (s.threads j) := by
  induction h with
  | refl => rfl
  | @tail s t _ hstep ih =>
    cases hstep with
    | @enter i x hi hx =>
      dsimp only [State.enter]
      rcases eq_or_ne j i with rfl | hne
      · rw [Function.update_self, pending, M.decided_enter]
        rwa [hi] at ih
      · rwa [Function.update_of_ne hne]
    | @advance i p hi hp =>
      dsimp only [State.advance]
      rw [ofThread_append, ofThread_append]
      rcases eq_or_ne j i with rfl | hne
      · rw [hi] at ih
        rw [ofThread_self, ofThread_self, Function.update_self, ih, List.append_assoc,
          List.append_assoc, pending_advance]
      · rw [ofThread_other hne, ofThread_other hne, Function.update_of_ne hne, List.append_nil,
          List.append_nil, ih]

end Returns

section Simulation

variable [DecidableEq ι] {M : Machine σ φ χ ρ} {O : SeqObject μ χ ρ}
  {admits : (ι → Option φ) → χ → Prop} {allows : (ι → Option φ) → φ → Prop}
  {I : σ → (ι → Option φ) → μ → Prop}

structure Simulation (M : Machine σ φ χ ρ) (O : SeqObject μ χ ρ)
    (admits : (ι → Option φ) → χ → Prop) (allows : (ι → Option φ) → φ → Prop)
    (I : σ → (ι → Option φ) → μ → Prop) : Prop where
  enter : ∀ {s threads m i x}, I s threads m → threads i = none → admits threads x →
    I s (Function.update threads i (some (M.enter x))) m
  silent : ∀ {s threads m i p}, I s threads m → threads i = some p → allows threads p →
    M.decision p (M.advance s p).2 = none →
    I (M.advance s p).1 (Function.update threads i (M.advance s p).2.getLeft?) m
  decides : ∀ {s threads m i p r}, I s threads m → threads i = some p → allows threads p →
    M.decision p (M.advance s p).2 = some r →
    r = O.reply m (M.call p) ∧
      I (M.advance s p).1 (Function.update threads i (M.advance s p).2.getLeft?)
        (O.apply m (M.call p))

theorem Simulation.run (hsim : Simulation M O admits allows I) {start : σ} {m : μ}
    {s : State σ φ χ ρ ι} (h : Reachable M admits allows start s) (hstart : I start (fun _ => none) m) :
    Legal O m s.history ∧ I s.store s.threads (current O m s.history) := by
  induction h with
  | refl => exact ⟨.nil O m, hstart⟩
  | @tail s t _ hstep ih =>
    obtain ⟨hlegal, hinv⟩ := ih
    cases hstep with
    | enter hi hx => exact ⟨hlegal, hsim.enter hinv hi hx⟩
    | @advance i p hi hp =>
      unfold State.advance
      cases hdecision : M.decision p (M.advance s.store p).2 with
      | none =>
        simp only [hdecision, Option.toList_none, List.map_nil, List.append_nil]
        exact ⟨hlegal, hsim.silent hinv hi hp hdecision⟩
      | some r =>
        obtain ⟨hreply, hnext⟩ := hsim.decides hinv hi hp hdecision
        simp only [hdecision, Option.toList_some, List.map_cons, List.map_nil, current_snoc]
        exact ⟨hlegal.snoc hreply, hnext⟩

end Simulation

section Progress

variable [Fintype ι]

def tally (f : φ → ℕ) (threads : ι → Option φ) : ℕ := ∑ i, (threads i).elim 0 f

variable [DecidableEq ι]

theorem tally_update (f : φ → ℕ) (threads : ι → Option φ) (i : ι) (o : Option φ) :
    tally f (Function.update threads i o) + (threads i).elim 0 f = tally f threads + o.elim 0 f := by
  have hupdate : (fun j => (Function.update threads i o j).elim 0 f) =
      Function.update (fun j => (threads j).elim 0 f) i (o.elim 0 f) := by
    funext j
    rw [Function.update_apply, Function.update_apply]
    split_ifs <;> rfl
  have hsum := Finset.add_sum_erase Finset.univ (fun j => (threads j).elim 0 f) (Finset.mem_univ i)
  rw [tally, hupdate, Finset.sum_update_of_mem (Finset.mem_univ i), tally, ← hsum,
    Finset.sdiff_singleton_eq_erase]
  omega

end Progress

end Linearize
