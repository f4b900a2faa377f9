import Mathlib.Tactic

def Exec (σ ε α : Type) := σ → Except ε α × σ

namespace Exec

variable {σ ε α β : Type}

def bind (x : Exec σ ε α) (f : α → Exec σ ε β) : Exec σ ε β := fun s =>
  match x s with
  | (.ok a, t) => f a t
  | (.error e, t) => (.error e, t)

instance : Monad (Exec σ ε) where
  pure a := fun s => (.ok a, s)
  bind := bind

def fail (e : ε) : Exec σ ε α := fun s => (.error e, s)

def read (f : σ → α) : Exec σ ε α := fun s => (.ok (f s), s)

def update (f : σ → σ) : Exec σ ε Unit := fun s => (.ok (), f s)

def modifyGet (f : σ → α × σ) : Exec σ ε α := fun s => (.ok (f s).1, (f s).2)

def okOr (o : Option α) (e : ε) : Exec σ ε α :=
  match o with
  | some a => pure a
  | none => fail e

def ofExcept (x : Except ε α) : Exec σ ε α := fun s => (x, s)

def wp (x : Exec σ ε α) (Q : α → σ → Prop) (E : ε → σ → Prop) (s : σ) : Prop :=
  match x s with
  | (.ok a, t) => Q a t
  | (.error e, t) => E e t

section Rules

variable {Q : α → σ → Prop} {E : ε → σ → Prop} {s : σ}

@[simp] theorem wp_pure (a : α) : wp (pure a : Exec σ ε α) Q E s ↔ Q a s := Iff.rfl

@[simp] theorem wp_fail (e : ε) : wp (fail e : Exec σ ε α) Q E s ↔ E e s := Iff.rfl

@[simp] theorem wp_read (f : σ → α) : wp (read f : Exec σ ε α) Q E s ↔ Q (f s) s := Iff.rfl

@[simp] theorem wp_update (f : σ → σ) {Q : Unit → σ → Prop} :
    wp (update f : Exec σ ε Unit) Q E s ↔ Q () (f s) := Iff.rfl

@[simp] theorem wp_modifyGet (f : σ → α × σ) :
    wp (modifyGet f : Exec σ ε α) Q E s ↔ Q (f s).1 (f s).2 := Iff.rfl

@[simp] theorem wp_bind (x : Exec σ ε α) (f : α → Exec σ ε β) {Q : β → σ → Prop} :
    wp (x >>= f) Q E s ↔ wp x (fun a => wp (f a) Q E) E s := by
  change wp (bind x f) Q E s ↔ _
  unfold wp bind
  rcases x s with ⟨e | a, t⟩ <;> rfl

@[simp] theorem wp_okOr (o : Option α) (e : ε) :
    wp (okOr o e : Exec σ ε α) Q E s ↔ (o = none → E e s) ∧ ∀ a, o = some a → Q a s := by
  cases o <;> simp [okOr]

@[simp] theorem wp_ofExcept (x : Except ε α) :
    wp (ofExcept x : Exec σ ε α) Q E s ↔
      (∀ e, x = .error e → E e s) ∧ ∀ a, x = .ok a → Q a s := by
  cases x <;> simp [wp, ofExcept]

@[simp] theorem wp_ite (c : Prop) [Decidable c] (x y : Exec σ ε α) :
    wp (if c then x else y) Q E s ↔ (c → wp x Q E s) ∧ (¬c → wp y Q E s) := by
  split <;> simp_all

theorem wp_mono {x : Exec σ ε α} {Q' : α → σ → Prop} {E' : ε → σ → Prop}
    (h : wp x Q E s) (hq : ∀ a t, Q a t → Q' a t) (he : ∀ e t, E e t → E' e t) :
    wp x Q' E' s := by
  unfold wp at h ⊢
  rcases hx : x s with ⟨e | a, t⟩ <;> rw [hx] at h
  · exact he e t h
  · exact hq a t h

theorem wp_ok {x : Exec σ ε α} (h : wp x Q E s) {a : α} {t : σ} (hx : x s = (.ok a, t)) :
    Q a t := by
  unfold wp at h
  rwa [hx] at h

theorem wp_error {x : Exec σ ε α} (h : wp x Q E s) {e : ε} {t : σ} (hx : x s = (.error e, t)) :
    E e t := by
  unfold wp at h
  rwa [hx] at h

end Rules

end Exec
