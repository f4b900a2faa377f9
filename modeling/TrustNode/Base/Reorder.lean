import Mathlib.Data.List.Perm.Basic
import Mathlib.Tactic

structure Arrangement (α : Type) where
  run : List α → List α
  perm : ∀ l, (run l).Perm l

def Arrangement.given (α : Type) : Arrangement α where
  run := id
  perm := fun _ => .refl _

namespace Reorder

variable {α σ : Type} {f : σ → α → σ}

def Commute (f : σ → α → σ) (a b : α) : Prop := ∀ s, f (f s a) b = f (f s b) a

theorem foldl_move {pre post : List α} {x : α} (h : ∀ y ∈ pre, Commute f y x) (s : σ) :
    (pre ++ x :: post).foldl f s = (x :: (pre ++ post)).foldl f s := by
  induction pre generalizing s with
  | nil => rfl
  | cons y pre ih =>
    have hrest := ih (fun z hz => h z (List.mem_cons_of_mem y hz)) (f s y)
    have hswap := h y List.mem_cons_self s
    simp only [List.cons_append, List.foldl_cons] at hrest ⊢
    rw [hrest, hswap]

theorem foldl_eq_of_inversions {l l' : List α} (hperm : l.Perm l')
    (h : ∀ a b, a ≠ b → [a, b].Sublist l → [b, a].Sublist l' → Commute f a b) (s : σ) :
    l.foldl f s = l'.foldl f s := by
  induction l' generalizing l s with
  | nil => rw [hperm.eq_nil]
  | cons x rest ih =>
    have hx : x ∈ l := hperm.symm.subset List.mem_cons_self
    obtain ⟨pre, post, rfl, hpre⟩ := List.eq_append_cons_of_mem hx
    have hrest : (pre ++ post).Perm rest :=
      ((List.perm_middle.symm).trans hperm).cons_inv
    have hmove : ∀ y ∈ pre, Commute f y x := by
      intro y hy
      have hne : y ≠ x := fun he => hpre (he ▸ hy)
      have hbefore : [y, x].Sublist (pre ++ x :: post) :=
        (List.singleton_sublist.mpr hy).append (List.singleton_sublist.mpr List.mem_cons_self)
      have hafter : [x, y].Sublist (x :: rest) :=
        (List.singleton_sublist.mpr (hrest.subset (List.mem_append_left post hy))).cons_cons x
      exact h y x hne hbefore hafter
    rw [foldl_move hmove, List.foldl_cons, List.foldl_cons]
    refine ih hrest (fun a b hne hab hba => h a b hne (hab.trans ?_) (hba.trans ?_)) (f s x)
    · exact (List.Sublist.refl pre).append (List.sublist_cons_self x post)
    · exact List.sublist_cons_self x rest

theorem sublist_pair_append {a b : α} {l l' : List α} (h : [a, b].Sublist (l ++ l')) :
    a ∈ l ∧ (b ∈ l ∨ b ∈ l') ∨ [a, b].Sublist l' := by
  obtain ⟨u, v, huv, hu, hv⟩ := List.sublist_append_iff.mp h
  cases u with
  | nil =>
    rw [List.nil_append] at huv
    exact Or.inr (huv ▸ hv)
  | cons x u =>
    rw [List.cons_append] at huv
    obtain ⟨rfl, hrest⟩ := List.cons.inj huv
    refine Or.inl ⟨hu.subset List.mem_cons_self, ?_⟩
    have hb : b ∈ u ++ v := hrest ▸ List.mem_singleton_self b
    rcases List.mem_append.mp hb with hb | hb
    · exact Or.inl (hu.subset (List.mem_cons_of_mem _ hb))
    · exact Or.inr (hv.subset hb)

end Reorder
