import Mathlib.Tactic

variable {σ ε : Type*} {step : σ → ε → σ}

def Along (step : σ → ε → σ) (P : σ → ε → Prop) : σ → List ε → Prop
  | _, [] => True
  | s, e :: rest => P s e ∧ Along step P (step s e) rest

namespace Along

variable {P : σ → ε → Prop}

theorem invariant {I : σ → Prop} (hstep : ∀ {s e}, I s → P s e → I (step s e)) {s : σ}
    {events : List ε} (h : Along step P s events) (hs : I s) : I (events.foldl step s) := by
  induction events generalizing s with
  | nil => exact hs
  | cons e rest ih => exact ih h.2 (hstep hs h.1)

theorem iff_of_step {I Q : σ → Prop} {U : σ → ε → Prop}
    (hI : ∀ {s e}, I s → P s e → I (step s e))
    (hQ : ∀ {s e}, I s → P s e → (Q (step s e) ↔ Q s ∧ U s e)) {s : σ} {events : List ε}
    (h : Along step P s events) (hs : I s) :
    Q (events.foldl step s) ↔ Q s ∧ Along step U s events := by
  induction events generalizing s with
  | nil => exact (and_iff_left trivial).symm
  | cons e rest ih =>
    rw [List.foldl_cons, ih h.2 (hI hs h.1), hQ hs h.1, and_assoc]
    rfl

end Along
