import TrustNode.Base.Exec
import TrustNode.Base.TwoPhase

structure Trace {μ κ β ρ : Type} [DecidableEq κ] (M : Memory μ κ β) (held : κ → Bool → Prop)
    (f : μ → ρ × μ) where
  code : Code κ β ρ
  run_eq : ∀ m, code.run M m = f m
  covered : code.Covered held

namespace Trace

variable {μ κ β ρ τ : Type} [DecidableEq κ] {M : Memory μ κ β} {held : κ → Bool → Prop}
  {f g : μ → ρ × μ}

def done (r : ρ) : Trace M held fun m => (r, m) := ⟨.done r, fun _ => rfl, trivial⟩

def congr (t : Trace M held f) (h : ∀ m, f m = g m) : Trace M held g :=
  ⟨t.code, fun m => (t.run_eq m).trans (h m), t.covered⟩

def load {k : κ} (hk : ∃ b, held k b) : Trace M held fun m => (M.get m k, m) :=
  ⟨.load k .done, fun _ => rfl, hk, fun _ => trivial⟩

def write {k : κ} (hk : held k true) (v : Option β) : Trace M held fun m => ((), M.set m k v) :=
  ⟨.write k v (.done ()), fun _ => rfl, hk, trivial⟩

def bind {h : ρ → μ → τ × μ} (t : Trace M held f) (u : ∀ r, Trace M held (h r)) :
    Trace M held fun m => h (f m).1 (f m).2 where
  code := t.code.bind fun r => (u r).code
  run_eq := fun m => by rw [Code.run_bind, t.run_eq, (u (f m).1).run_eq]
  covered := t.covered.bind fun r => (u r).covered

def weaken {held' : κ → Bool → Prop} (h : ∀ k b, held k b → held' k b) (t : Trace M held f) :
    Trace M held' f :=
  ⟨t.code, t.run_eq, t.covered.mono h⟩

end Trace

namespace Exec

variable {μ σ ε l α γ : Type} (E : σ ≃ l × μ)

def split (p : Exec σ ε α) (x : l) (m : μ) : (Except ε α × l) × μ :=
  match p (E.symm (x, m)) with
  | (r, s) => ((r, (E s).1), (E s).2)

def resume (f : α → Exec σ ε γ) : Except ε α × l → μ → (Except ε γ × l) × μ
  | (.ok a, x), m => split E (f a) x m
  | (.error e, x), m => ((.error e, x), m)

theorem split_bind (p : Exec σ ε α) (f : α → Exec σ ε γ) (x : l) (m : μ) :
    split E (p >>= f) x m = resume E f (split E p x m).1 (split E p x m).2 := by
  change split E (Exec.bind p f) x m = _
  unfold split Exec.bind
  rcases p (E.symm (x, m)) with ⟨e | a, s⟩
  · rfl
  · simp only [resume, split, Prod.mk.eta, Equiv.symm_apply_apply]

end Exec

def Traced {μ κ β σ ε l α : Type} [DecidableEq κ] (M : Memory μ κ β) (held : κ → Bool → Prop)
    (E : σ ≃ l × μ) (p : Exec σ ε α) : Type :=
  ∀ x, Trace M held (Exec.split E p x)

namespace Traced

open Exec

variable {μ κ β σ ε l α γ : Type} [DecidableEq κ] {M : Memory μ κ β} {held : κ → Bool → Prop}
  {E : σ ≃ l × μ}

def ofLocal (f : l → Except ε α × l) {p : Exec σ ε α}
    (h : ∀ x m, p (E.symm (x, m)) = ((f x).1, E.symm ((f x).2, m))) : Traced M held E p :=
  fun x => (Trace.done (f x)).congr fun m => by simp [split, h]

def ofTrace {f : μ → α × μ} (t : Trace M held f) {p : Exec σ ε α}
    (h : ∀ x m, p (E.symm (x, m)) = (.ok (f m).1, E.symm (x, (f m).2))) : Traced M held E p :=
  fun x => (t.bind fun a => .done (.ok a, x)).congr fun m => by simp [split, h]

def pure (a : α) : Traced M held E (Pure.pure a : Exec σ ε α) :=
  ofLocal (fun x => (.ok a, x)) fun _ _ => rfl

def fail (e : ε) : Traced M held E (Exec.fail e : Exec σ ε α) :=
  ofLocal (fun x => (.error e, x)) fun _ _ => rfl

def continuation {f : α → Exec σ ε γ} (hf : ∀ a, Traced M held E (f a)) :
    ∀ r, Trace M held (resume E f r)
  | (.ok a, x) => hf a x
  | (.error e, x) => .done (Except.error e, x)

def bind {p : Exec σ ε α} {f : α → Exec σ ε γ} (hp : Traced M held E p)
    (hf : ∀ a, Traced M held E (f a)) : Traced M held E (p >>= f) :=
  fun x => ((hp x).bind (continuation hf)).congr fun m => (split_bind E p f x m).symm

def okOrBind {o : Option α} {e : ε} {f : α → Exec σ ε γ}
    (hf : ∀ a, o = some a → Traced M held E (f a)) : Traced M held E (okOr o e >>= f) :=
  match o, hf with
  | some a, hf => hf a rfl
  | none, _ => fail e

def ofExceptBind {r : Except ε α} {f : α → Exec σ ε γ}
    (hf : ∀ a, r = .ok a → Traced M held E (f a)) : Traced M held E (ofExcept r >>= f) :=
  match r, hf with
  | .ok a, hf => hf a rfl
  | .error e, _ => fail e

def ite {c : Prop} [dec : Decidable c] {p q : Exec σ ε α} (hp : c → Traced M held E p)
    (hq : ¬c → Traced M held E q) : Traced M held E (if c then p else q) :=
  match dec with
  | isTrue h => hp h
  | isFalse h => hq h

end Traced
