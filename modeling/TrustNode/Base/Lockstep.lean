import TrustNode.Base.Exec

namespace Exec

variable {σ ε α β : Type}

def Lockstep (R : σ → σ → Prop) (x : Exec σ ε α) : Prop :=
  ∀ s t, R s t → (x s).1 = (x t).1 ∧ R (x s).2 (x t).2

namespace Lockstep

variable {R : σ → σ → Prop}

theorem pure (a : α) : Lockstep R (Pure.pure a : Exec σ ε α) := fun _ _ h => ⟨rfl, h⟩

theorem fail (e : ε) : Lockstep R (Exec.fail e : Exec σ ε α) := fun _ _ h => ⟨rfl, h⟩

theorem ofExcept (x : Except ε α) : Lockstep R (Exec.ofExcept x) := fun _ _ h => ⟨rfl, h⟩

theorem read {f : σ → α} (hf : ∀ s t, R s t → f s = f t) :
    Lockstep R (Exec.read f : Exec σ ε α) := fun s t h => ⟨congrArg Except.ok (hf s t h), h⟩

theorem update {f : σ → σ} (hf : ∀ s t, R s t → R (f s) (f t)) :
    Lockstep R (Exec.update f : Exec σ ε Unit) := fun s t h => ⟨rfl, hf s t h⟩

theorem bind {x : Exec σ ε α} {f : α → Exec σ ε β} (hx : Lockstep R x)
    (hf : ∀ a, Lockstep R (f a)) : Lockstep R (x >>= f) := by
  intro s t h
  obtain ⟨hval, hst⟩ := hx s t h
  change (Exec.bind x f s).1 = (Exec.bind x f t).1 ∧ R (Exec.bind x f s).2 (Exec.bind x f t).2
  cases hs : x s with
  | mk r s' =>
    cases ht : x t with
    | mk r' t' =>
      rw [hs, ht] at hval hst
      simp only at hval hst
      subst hval
      cases r with
      | ok a => simpa only [Exec.bind, hs, ht] using hf a s' t' hst
      | error e => simpa [Exec.bind, hs, ht] using hst

theorem ofExcept_bind {x : Except ε α} {f : α → Exec σ ε β}
    (hf : ∀ a, x = .ok a → Lockstep R (f a)) : Lockstep R (Exec.ofExcept x >>= f) := by
  cases x with
  | ok a => exact hf a rfl
  | error e => exact fun _ _ h => ⟨rfl, h⟩

theorem okOr_bind {o : Option α} {e : ε} {f : α → Exec σ ε β}
    (hf : ∀ a, o = some a → Lockstep R (f a)) : Lockstep R (Exec.okOr o e >>= f) := by
  cases o with
  | some a => exact hf a rfl
  | none => exact fun _ _ h => ⟨rfl, h⟩

theorem ite {c : Prop} [Decidable c] {x y : Exec σ ε α} (hx : Lockstep R x) (hy : Lockstep R y) :
    Lockstep R (if c then x else y) := by
  split
  · exact hx
  · exact hy

end Lockstep

end Exec
