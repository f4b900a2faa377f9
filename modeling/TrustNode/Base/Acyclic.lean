import Mathlib.Data.Finset.Card
import Mathlib.Logic.Relation
import Mathlib.Tactic

open Relation

variable {α : Type*} {r s : α → α → Prop} {a b x y : α}

def Acyclic (r : α → α → Prop) : Prop := ∀ a, ¬TransGen r a a

def WithEdge (r : α → α → Prop) (a b : α) : α → α → Prop := fun x y => r x y ∨ x = a ∧ y = b

theorem Acyclic.mono (h : Acyclic s) (himp : ∀ a b, r a b → s a b) : Acyclic r :=
  fun a hcycle => h a (TransGen.mono himp a a hcycle)

theorem transGen_withEdge (h : TransGen (WithEdge r a b) x y) :
    TransGen r x y ∨ ReflTransGen r x a ∧ ReflTransGen r b y := by
  induction h with
  | single hstep =>
    obtain hstep | ⟨rfl, rfl⟩ := hstep
    · exact .inl (.single hstep)
    · exact .inr ⟨.refl, .refl⟩
  | tail _ hstep ih =>
    obtain hstep | ⟨rfl, rfl⟩ := hstep
    · exact ih.imp (·.tail hstep) (fun h => ⟨h.1, h.2.tail hstep⟩)
    · exact .inr ⟨ih.elim TransGen.to_reflTransGen And.left, .refl⟩

theorem acyclic_withEdge_iff : Acyclic (WithEdge r a b) ↔ Acyclic r ∧ ¬ReflTransGen r b a := by
  constructor
  · intro h
    refine ⟨h.mono fun _ _ => .inl, fun hback => h a ?_⟩
    exact .head' (.inr ⟨rfl, rfl⟩) (ReflTransGen.mono (fun _ _ h => Or.inl h) b a hback)
  · rintro ⟨h, hback⟩ x hcycle
    obtain hold | ⟨hto, hfrom⟩ := transGen_withEdge hcycle
    · exact h x hold
    · exact hback (hfrom.trans hto)

theorem Acyclic.induction (h : Acyclic r) {S : Finset α} (hS : ∀ a b, r a b → a ∈ S)
    {P : α → Prop} (hstep : ∀ a, (∀ b, r a b → P b) → P a) (a : α) : P a := by
  classical
  -- the number of sources still reachable drops along every edge
  induction hn : (S.filter fun x => ReflTransGen r a x).card using Nat.strong_induction_on
    generalizing a with
  | h n ih =>
    refine hstep a fun b hab => ih _ ?_ b rfl
    rw [← hn]
    refine Finset.card_lt_card (Finset.ssubset_iff_of_subset ?_ |>.mpr ⟨a, ?_, ?_⟩)
    · intro x hx
      obtain ⟨hxS, hreach⟩ := Finset.mem_filter.mp hx
      exact Finset.mem_filter.mpr ⟨hxS, hreach.head hab⟩
    · exact Finset.mem_filter.mpr ⟨hS a b hab, .refl⟩
    · intro ha
      exact h a (.head' hab (Finset.mem_filter.mp ha).2)
