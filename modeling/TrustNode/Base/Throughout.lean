import Mathlib.Tactic

variable {σ ε : Type*} {step : σ → ε → Option σ}

def Throughout (step : σ → ε → Option σ) (Q : σ → Prop) (R : σ → ε → Prop) : σ → List ε → Prop
  | s, [] => Q s
  | s, e :: rest => Q s ∧ R s e ∧ ∀ s', step s e = some s' → Throughout step Q R s' rest

def Respects (step : σ → ε → Option σ) (P : σ → ε → Prop) : σ → List ε → Prop :=
  Throughout step (fun _ => True) P

namespace Throughout

variable {Q I : σ → Prop} {R P : σ → ε → Prop} {s : σ} {events : List ε}

theorem head (h : Throughout step Q R s events) : Q s := by
  cases events with
  | nil => exact h
  | cons e rest => exact h.1

theorem final {t : σ} (h : Throughout step Q R s events) (ht : events.foldlM step s = some t) :
    Q t := by
  induction events generalizing s with
  | nil => exact Option.some.inj ht ▸ h
  | cons e rest ih =>
    obtain ⟨s', hs', hrest⟩ := Option.bind_eq_some_iff.mp ht
    exact ih (h.2.2 s' hs') hrest

theorem imp {Q' : σ → Prop} {R' : σ → ε → Prop} (hQ : ∀ s, Q s → Q' s) (hR : ∀ s e, R s e → R' s e)
    (h : Throughout step Q R s events) : Throughout step Q' R' s events := by
  induction events generalizing s with
  | nil => exact hQ s h
  | cons e rest ih => exact ⟨hQ s h.1, hR s e h.2.1, fun s' hs' => ih (h.2.2 s' hs')⟩

theorem iff_respects (hI : ∀ {s e s'}, I s → step s e = some s' → I s')
    (hstep : ∀ {s e}, I s → Q s → ((R s e ∧ ∀ s', step s e = some s' → Q s') ↔ P s e)) (hs : I s)
    (hQ : Q s) : Throughout step Q R s events ↔ Respects step P s events := by
  induction events generalizing s with
  | nil => exact iff_of_true hQ trivial
  | cons e rest ih =>
    constructor
    · rintro ⟨-, hR, hrest⟩
      have hnext : ∀ s', step s e = some s' → Q s' := fun s' hs' => (hrest s' hs').head
      refine ⟨trivial, (hstep hs hQ).mp ⟨hR, hnext⟩, fun s' hs' => ?_⟩
      exact (ih (hI hs hs') (hnext s' hs')).mp (hrest s' hs')
    · rintro ⟨-, hP, hrest⟩
      obtain ⟨hR, hnext⟩ := (hstep hs hQ).mpr hP
      exact ⟨hQ, hR, fun s' hs' => (ih (hI hs hs') (hnext s' hs')).mpr (hrest s' hs')⟩

end Throughout

namespace Respects

variable {I : σ → Prop} {P P' : σ → ε → Prop} {s : σ} {events : List ε}

theorem of_invariant (hI : ∀ {s e s'}, I s → P s e → step s e = some s' → I s')
    (hP : ∀ {s e}, I s → P s e → P' s e) (hs : I s) (h : Respects step P s events) :
    Respects step P' s events := by
  induction events generalizing s with
  | nil => trivial
  | cons e rest ih =>
    exact ⟨trivial, hP hs h.2.1, fun s' hs' => ih (hI hs h.2.1 hs') (h.2.2 s' hs')⟩

theorem congr (h : ∀ s e, P s e ↔ P' s e) : Respects step P s events ↔ Respects step P' s events :=
  ⟨Throughout.imp (fun _ => id) fun s e => (h s e).mp,
    Throughout.imp (fun _ => id) fun s e => (h s e).mpr⟩

end Respects
