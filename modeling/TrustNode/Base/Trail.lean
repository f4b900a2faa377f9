import TrustNode.Base.Acyclic

open Relation

variable {α : Type*} (next : α → Option (Option α))

inductive Trail : α → List α → Prop
  | missing {a : α} (h : next a = none) : Trail a []
  | root {a : α} (h : next a = some none) : Trail a [a]
  | link {a p : α} {path : List α} (h : next a = some (some p)) (rest : Trail p path) :
      Trail a (a :: path)

namespace Trail

def Edge (a p : α) : Prop := next a = some (some p)

variable {next} {a p x : α} {path : List α}

theorem tail_of_edge (h : Trail next a path) (he : Edge next a p) :
    ∃ rest, path = a :: rest ∧ Trail next p rest := by
  cases h with
  | missing hnext => cases hnext.symm.trans he
  | root hnext => cases hnext.symm.trans he
  | link hnext hrest =>
    obtain rfl := Option.some.inj (Option.some.inj (hnext.symm.trans he))
    exact ⟨_, rfl, hrest⟩

theorem unique {path' : List α} (h : Trail next a path) (h' : Trail next a path') : path = path' := by
  induction h generalizing path' with
  | missing hnext =>
    cases h' with
    | missing => rfl
    | root hnext' => cases hnext.symm.trans hnext'
    | link hnext' => cases hnext.symm.trans hnext'
  | root hnext =>
    cases h' with
    | missing hnext' => cases hnext.symm.trans hnext'
    | root => rfl
    | link hnext' => cases hnext.symm.trans hnext'
  | link hnext hrest ih =>
    obtain ⟨rest, rfl, hrest'⟩ := h'.tail_of_edge hnext
    rw [ih hrest']

theorem of_reach (h : Trail next a path) (hreach : ReflTransGen (Edge next) a x) :
    ∃ rest, Trail next x rest ∧ rest.length ≤ path.length := by
  induction hreach with
  | refl => exact ⟨path, h, le_rfl⟩
  | tail _ hedge ih =>
    obtain ⟨middle, hmiddle, hle⟩ := ih
    obtain ⟨rest, rfl, hrest⟩ := hmiddle.tail_of_edge hedge
    exact ⟨rest, hrest, (Nat.le_succ _).trans hle⟩

theorem not_cycle (h : Trail next a path) : ¬TransGen (Edge next) a a := by
  intro hcycle
  obtain ⟨p, hedge, hback⟩ := TransGen.head'_iff.mp hcycle
  obtain ⟨rest, rfl, hrest⟩ := h.tail_of_edge hedge
  obtain ⟨again, hagain, hle⟩ := hrest.of_reach hback
  rw [hagain.unique h, List.length_cons] at hle
  omega

theorem mem_iff (h : Trail next a path) :
    x ∈ path ↔ ReflTransGen (Edge next) a x ∧ (next x).isSome = true := by
  induction h with
  | @missing a hnext =>
    refine iff_of_false List.not_mem_nil fun hx => ?_
    rcases ReflTransGen.cases_head hx.1 with rfl | ⟨p, hedge, -⟩
    · rw [hnext] at hx
      cases hx.2
    · cases hnext.symm.trans hedge
  | @root a hnext =>
    rw [List.mem_singleton]
    constructor
    · rintro rfl
      exact ⟨.refl, by rw [hnext]; rfl⟩
    · rintro ⟨hreach, -⟩
      rcases ReflTransGen.cases_head hreach with rfl | ⟨p, hedge, -⟩
      · rfl
      · cases hnext.symm.trans hedge
  | @link a p path hnext hrest ih =>
    rw [List.mem_cons, ih]
    constructor
    · rintro (rfl | ⟨hreach, hx⟩)
      · exact ⟨.refl, by rw [hnext]; rfl⟩
      · exact ⟨.head hnext hreach, hx⟩
    · rintro ⟨hreach, hx⟩
      rcases ReflTransGen.cases_head hreach with rfl | ⟨q, hedge, hrest⟩
      · exact .inl rfl
      · obtain rfl := Option.some.inj (Option.some.inj (hnext.symm.trans hedge))
        exact .inr ⟨hrest, hx⟩

theorem nodup (h : Trail next a path) : path.Nodup := by
  induction h with
  | missing => exact List.nodup_nil
  | root => exact List.nodup_singleton _
  | link hnext hrest ih =>
    refine List.nodup_cons.mpr ⟨fun hmem => ?_, ih⟩
    exact (Trail.link hnext hrest).not_cycle (.head' hnext (hrest.mem_iff.mp hmem).1)

theorem head?_eq (h : Trail next a path) : path.head? = (next a).map fun _ => a := by
  cases h with
  | missing hnext => rw [hnext]; rfl
  | root hnext => rw [hnext]; rfl
  | link hnext => rw [hnext]; rfl

theorem isChain (h : Trail next a path) : path.IsChain (Edge next) := by
  induction h with
  | missing => exact .nil
  | root => exact .singleton _
  | @link a p path hnext hrest ih =>
    refine List.isChain_cons.mpr ⟨fun q hq => ?_, ih⟩
    rw [hrest.head?_eq] at hq
    obtain ⟨-, -, rfl⟩ := Option.map_eq_some_iff.mp hq
    exact hnext

theorem exists_iff {S : Finset α} (hS : ∀ a p, Edge next a p → a ∈ S) :
    (∃ path, Trail next a path) ↔
      ∀ x, ReflTransGen (Edge next) a x → ¬TransGen (Edge next) x x := by
  constructor
  · rintro ⟨path, h⟩ x hreach
    obtain ⟨rest, hrest, -⟩ := h.of_reach hreach
    exact hrest.not_cycle
  · intro hfree
    -- only the edges that start at a reachable point count; among those there is no cycle
    let near : α → α → Prop := fun x y => Edge next x y ∧ ReflTransGen (Edge next) a x
    have hnear : Acyclic near := by
      intro x hcycle
      obtain ⟨y, hedge, -⟩ := TransGen.head'_iff.mp hcycle
      exact hfree x hedge.2 (TransGen.mono (fun _ _ h => h.1) x x hcycle)
    refine hnear.induction (S := S) (fun x y h => hS x y h.1)
      (P := fun x => ReflTransGen (Edge next) a x → ∃ path, Trail next x path) ?_ a .refl
    intro x ih hreach
    cases hnext : next x with
    | none => exact ⟨[], .missing hnext⟩
    | some parent =>
      cases parent with
      | none => exact ⟨[x], .root hnext⟩
      | some p =>
        obtain ⟨path, hpath⟩ := ih p ⟨hnext, hreach⟩ (hreach.tail hnext)
        exact ⟨x :: path, .link hnext hpath⟩

end Trail
