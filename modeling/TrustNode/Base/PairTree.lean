import Mathlib.Tactic

namespace PairTree

variable {α : Type*}

section Defs

variable (f : α → α → α)

def pairUp : List α → List α
  | a :: b :: rest => f a b :: pairUp rest
  | [a] => [a]
  | [] => []

def reduce : ℕ → List α → List α
  | 0, level => level
  | fuel + 1, level => if 1 < level.length then reduce fuel (pairUp f level) else level

def sibling : List α → ℕ → Option (α × Bool)
  | _ :: b :: _, 0 => some (b, false)
  | a :: _ :: _, 1 => some (a, true)
  | _ :: _ :: rest, i + 2 => sibling rest i
  | _, _ => none

def path : ℕ → List α → ℕ → List (α × Bool)
  | 0, _, _ => []
  | fuel + 1, level, i =>
    if 1 < level.length then (sibling level i).toList ++ path fuel (pairUp f level) (i / 2) else []

def side (count i : ℕ) : Option Bool :=
  if i % 2 = 1 then some true else if i + 1 < count then some false else none

def sides : ℕ → ℕ → ℕ → List Bool
  | 0, _, _ => []
  | fuel + 1, count, i =>
    if 1 < count then (side count i).toList ++ sides fuel ((count + 1) / 2) (i / 2) else []

def ordered (x : α) (s : α × Bool) : α × α := if s.2 then (s.1, x) else (x, s.1)

def join (x : α) (s : α × Bool) : α := f (ordered x s).1 (ordered x s).2

def climb (x : α) (siblings : List (α × Bool)) : α := siblings.foldl (join f) x

def pairs : List α → List (α × α)
  | a :: b :: rest => (a, b) :: pairs rest
  | _ => []

def treePairs : ℕ → List α → List (α × α)
  | 0, _ => []
  | fuel + 1, level =>
    if 1 < level.length then pairs level ++ treePairs fuel (pairUp f level) else []

def climbPairs : α → List (α × Bool) → List (α × α)
  | _, [] => []
  | x, s :: rest => ordered x s :: climbPairs (join f x s) rest

end Defs

section Level

variable (f : α → α → α)

theorem length_pairUp (level : List α) : (pairUp f level).length = (level.length + 1) / 2 := by
  induction level using pairUp.induct with
  | case1 a b rest ih =>
    simp only [pairUp, List.length_cons, ih]
    omega
  | case2 a => simp [pairUp]
  | case3 => simp [pairUp]

theorem map_sibling {level : List α} {i : ℕ} (hi : i < level.length) :
    (sibling level i).map Prod.snd = side level.length i := by
  induction level using pairUp.induct generalizing i with
  | case1 a b rest ih =>
    obtain _ | _ | i := i
    · simp [sibling, side]
    · simp [sibling, side]
    · simp only [List.length_cons, Nat.add_lt_add_iff_right] at hi
      have hparity : (i + 1 + 1) % 2 = i % 2 := by omega
      rw [sibling, ih hi, side, side, hparity]
      simp only [List.length_cons, Nat.add_lt_add_iff_right]
  | case2 a =>
    obtain rfl : i = 0 := by simpa using hi
    rfl
  | case3 => cases hi

theorem getElem?_pairUp {level : List α} {i : ℕ} {x : α} (hx : level[i]? = some x) :
    (pairUp f level)[i / 2]? = some (climb f x (sibling level i).toList) := by
  induction level using pairUp.induct generalizing i with
  | case1 a b rest ih =>
    obtain _ | _ | i := i
    · obtain rfl := Option.some.inj hx
      rfl
    · obtain rfl := Option.some.inj hx
      rfl
    · have hdiv : (i + 1 + 1) / 2 = i / 2 + 1 := by omega
      rw [hdiv, pairUp, List.getElem?_cons_succ]
      exact ih hx
  | case2 a =>
    obtain _ | i := i
    · obtain rfl := Option.some.inj hx
      simp [pairUp, sibling, climb]
    · cases hx
  | case3 => cases hx

theorem ordered_mem_pairs {level : List α} {i : ℕ} {x : α} {s : α × Bool} (hx : level[i]? = some x)
    (hs : sibling level i = some s) : ordered x s ∈ pairs level := by
  induction level using pairUp.induct generalizing i with
  | case1 a b rest ih =>
    obtain _ | _ | i := i
    · obtain rfl := Option.some.inj hx
      obtain rfl := Option.some.inj hs
      exact List.mem_cons_self
    · obtain rfl := Option.some.inj hx
      obtain rfl := Option.some.inj hs
      exact List.mem_cons_self
    · exact List.mem_cons_of_mem _ (ih hx hs)
  | case2 a => cases hs
  | case3 => cases hs

end Level

section Proofs

variable {f : α → α → α}

theorem getElem?_short {level : List α} {i : ℕ} {x : α} (h : ¬1 < level.length)
    (hx : level[i]? = some x) : level = [x] := by
  obtain _ | ⟨a, _ | ⟨b, rest⟩⟩ := level
  · cases hx
  · obtain _ | i := i
    · rw [Option.some.inj hx]
    · cases hx
  · simp at h

theorem climb_path {fuel : ℕ} {level : List α} {i : ℕ} {x : α} (hfuel : level.length ≤ fuel + 1)
    (hx : level[i]? = some x) : reduce f fuel level = [climb f x (path f fuel level i)] := by
  induction fuel generalizing level i x with
  | zero => exact getElem?_short (Nat.not_lt.mpr hfuel) hx
  | succ fuel ih =>
    rw [reduce, path]
    split_ifs with hlong
    · have hlength := length_pairUp f level
      rw [ih (by omega) (getElem?_pairUp f hx), climb, climb, climb, List.foldl_append]
    · exact getElem?_short hlong hx

theorem climbPairs_append (x : α) (first rest : List (α × Bool)) :
    climbPairs f x (first ++ rest) = climbPairs f x first ++ climbPairs f (climb f x first) rest := by
  induction first generalizing x with
  | nil => rfl
  | cons s first ih => rw [List.cons_append, climbPairs, ih, climbPairs, List.cons_append]; rfl

theorem ordered_inj {x y : α} {s t : α × Bool} (hside : s.2 = t.2) (h : ordered x s = ordered y t) :
    x = y ∧ s = t := by
  obtain ⟨s, side⟩ := s
  obtain ⟨t, side'⟩ := t
  obtain rfl : side = side' := hside
  cases side with
  | false =>
    obtain ⟨rfl, rfl⟩ := Prod.mk.inj h
    exact ⟨rfl, rfl⟩
  | true =>
    obtain ⟨rfl, rfl⟩ := Prod.mk.inj h
    exact ⟨rfl, rfl⟩

variable {s : Set (α × α)}

theorem step_inj (hinj : s.InjOn (Function.uncurry f)) {level : List α} {i : ℕ} {x y : α}
    {first : List (α × Bool)} (hlevel : ∀ p ∈ pairs level, p ∈ s)
    (hclimb : ∀ p ∈ climbPairs f x first, p ∈ s) (hy : level[i]? = some y)
    (hside : first.map Prod.snd = (side level.length i).toList)
    (h : climb f x first = climb f y (sibling level i).toList) :
    x = y ∧ first = (sibling level i).toList := by
  have hi : i < level.length := (List.getElem?_eq_some_iff.mp hy).1
  rw [← map_sibling hi] at hside
  cases hsibling : sibling level i with
  | none =>
    rw [hsibling] at hside h
    obtain rfl := List.map_eq_nil_iff.mp hside
    exact ⟨h, rfl⟩
  | some honest =>
    rw [hsibling] at hside h
    obtain ⟨t, rfl, ht⟩ := List.map_eq_singleton_iff.mp hside
    have hmem := hclimb _ List.mem_cons_self
    have heq := hinj hmem (hlevel _ (ordered_mem_pairs hy hsibling)) h
    obtain ⟨rfl, rfl⟩ := ordered_inj ht heq
    exact ⟨rfl, rfl⟩

theorem path_unique (hinj : s.InjOn (Function.uncurry f)) {fuel : ℕ} {level : List α} {i : ℕ}
    {x y : α} {siblings : List (α × Bool)} (hlevel : ∀ p ∈ treePairs f fuel level, p ∈ s)
    (hclimb : ∀ p ∈ climbPairs f x siblings, p ∈ s) (hy : level[i]? = some y)
    (hfuel : level.length ≤ fuel + 1)
    (hsides : siblings.map Prod.snd = sides fuel level.length i)
    (h : reduce f fuel level = [climb f x siblings]) : x = y ∧ siblings = path f fuel level i := by
  induction fuel generalizing level i x y siblings with
  | zero =>
    obtain rfl := List.map_eq_nil_iff.mp hsides
    rw [reduce, getElem?_short (Nat.not_lt.mpr hfuel) hy] at h
    exact ⟨(List.singleton_inj.mp h).symm, rfl⟩
  | succ fuel ih =>
    rw [sides] at hsides
    rw [treePairs] at hlevel
    rw [reduce] at h
    rw [path]
    split_ifs at hsides hlevel h ⊢ with hlong
    · obtain ⟨first, rest, rfl, hfirst, hrest⟩ := List.map_eq_append_iff.mp hsides
      rw [climbPairs_append, List.forall_mem_append] at hclimb
      rw [List.forall_mem_append] at hlevel
      have hlength := length_pairUp f level
      rw [← hlength] at hrest
      rw [climb, List.foldl_append] at h
      obtain ⟨hfold, rfl⟩ := ih hlevel.2 hclimb.2 (getElem?_pairUp f hy) (by omega) hrest h
      obtain ⟨rfl, rfl⟩ := step_inj hinj hlevel.1 hclimb.1 hy hfirst hfold
      exact ⟨rfl, rfl⟩
    · obtain rfl := List.map_eq_nil_iff.mp hsides
      rw [getElem?_short hlong hy] at h
      exact ⟨(List.singleton_inj.mp h).symm, rfl⟩

theorem map_path {fuel : ℕ} {level : List α} {i : ℕ} (hi : i < level.length) :
    (path f fuel level i).map Prod.snd = sides fuel level.length i := by
  induction fuel generalizing level i with
  | zero => rfl
  | succ fuel ih =>
    rw [path, sides]
    split_ifs with hlong
    · have hlength := length_pairUp f level
      rw [List.map_append, ih (by omega), hlength, ← map_sibling hi, Option.toList_map]
    · rfl

theorem pairUp_inj (hinj : s.InjOn (Function.uncurry f)) {level level' : List α}
    (hmem : ∀ p ∈ pairs level, p ∈ s) (hmem' : ∀ p ∈ pairs level', p ∈ s)
    (hlen : level.length = level'.length) (h : pairUp f level = pairUp f level') :
    level = level' := by
  induction level using pairUp.induct generalizing level' with
  | case1 a b rest ih =>
    obtain _ | ⟨a', _ | ⟨b', rest'⟩⟩ := level'
    · cases hlen
    · cases hlen
    · simp only [pairs, List.forall_mem_cons] at hmem hmem'
      simp only [pairUp, List.cons.injEq] at h
      obtain ⟨rfl, rfl⟩ := Prod.mk.inj (hinj hmem.1 hmem'.1 h.1)
      simp only [List.length_cons, Nat.add_right_cancel_iff] at hlen
      rw [ih hmem.2 hmem'.2 hlen h.2]
  | case2 a =>
    obtain _ | ⟨a', _ | ⟨b', rest'⟩⟩ := level'
    · cases hlen
    · exact h
    · cases hlen
  | case3 => exact (List.eq_nil_of_length_eq_zero hlen.symm).symm

theorem reduce_inj (hinj : s.InjOn (Function.uncurry f)) {fuel : ℕ} {level level' : List α}
    (hmem : ∀ p ∈ treePairs f fuel level, p ∈ s) (hmem' : ∀ p ∈ treePairs f fuel level', p ∈ s)
    (hlen : level.length = level'.length) (h : reduce f fuel level = reduce f fuel level') :
    level = level' := by
  induction fuel generalizing level level' with
  | zero => exact h
  | succ fuel ih =>
    rw [reduce, reduce, ← hlen] at h
    rw [treePairs] at hmem hmem'
    rw [← hlen] at hmem'
    split_ifs at h hmem hmem' with hlong
    · rw [List.forall_mem_append] at hmem hmem'
      have hnext : pairUp f level = pairUp f level' := by
        refine ih hmem.2 hmem'.2 ?_ h
        rw [length_pairUp, length_pairUp, hlen]
      exact pairUp_inj hinj hmem.1 hmem'.1 hlen hnext
    · exact h

end Proofs

inductive Tree (α : Type*) where
  | leaf (a : α)
  | node (left right : Tree α)

namespace Tree

def value (f : α → α → α) : Tree α → α
  | .leaf a => a
  | .node left right => f (left.value f) (right.value f)

def nodePairs (f : α → α → α) : Tree α → List (α × α)
  | .leaf _ => []
  | .node left right =>
    (left.value f, right.value f) :: (left.nodePairs f ++ right.nodePairs f)

def leaves : Tree α → List α
  | .leaf a => [a]
  | .node left right => left.leaves ++ right.leaves

def descend : Tree α → List Bool → Option (Tree α)
  | t, [] => some t
  | .leaf _, _ :: _ => none
  | .node left _, false :: rest => left.descend rest
  | .node _ right, true :: rest => right.descend rest

theorem descend_nil (t : Tree α) : t.descend [] = some t := by
  cases t with
  | leaf a => rfl
  | node left right => rfl

end Tree

def treeOf (level : List α) : Option (Tree α) :=
  (reduce Tree.node level.length (level.map Tree.leaf)).head?

section Trees

variable {f : α → α → α} {t u : Tree α} {ts : List (Tree α)} {fuel : ℕ} {level : List α}

theorem map_value_pairUp (f : α → α → α) (ts : List (Tree α)) :
    (pairUp Tree.node ts).map (Tree.value f) = pairUp f (ts.map (Tree.value f)) := by
  induction ts using pairUp.induct with
  | case1 a b rest ih =>
    simp only [pairUp, List.map_cons, ih]
    rfl
  | case2 a => rfl
  | case3 => rfl

theorem map_value_reduce (f : α → α → α) (fuel : ℕ) (ts : List (Tree α)) :
    (reduce Tree.node fuel ts).map (Tree.value f) = reduce f fuel (ts.map (Tree.value f)) := by
  induction fuel generalizing ts with
  | zero => rfl
  | succ fuel ih =>
    rw [reduce, reduce, List.length_map]
    split_ifs with hlong
    · rw [ih, map_value_pairUp]
    · rfl

theorem nodePairs_of_mem_pairUp (ht : t ∈ pairUp Tree.node ts) {p : α × α}
    (hp : p ∈ t.nodePairs f) :
    p ∈ pairs (ts.map (Tree.value f)) ∨ ∃ u ∈ ts, p ∈ u.nodePairs f := by
  induction ts using pairUp.induct with
  | case1 a b rest ih =>
    obtain rfl | ht := List.mem_cons.mp ht
    · simp only [Tree.nodePairs, List.mem_cons, List.mem_append] at hp
      obtain rfl | hp | hp := hp
      · exact .inl List.mem_cons_self
      · exact .inr ⟨a, by simp, hp⟩
      · exact .inr ⟨b, by simp, hp⟩
    · obtain hp | ⟨u, hu, hp⟩ := ih ht
      · exact .inl (List.mem_cons_of_mem _ hp)
      · exact .inr ⟨u, List.mem_cons_of_mem _ (List.mem_cons_of_mem _ hu), hp⟩
  | case2 a => exact .inr ⟨t, ht, hp⟩
  | case3 => cases ht

theorem nodePairs_of_mem_reduce (ht : t ∈ reduce Tree.node fuel ts) {p : α × α}
    (hp : p ∈ t.nodePairs f) :
    p ∈ treePairs f fuel (ts.map (Tree.value f)) ∨ ∃ u ∈ ts, p ∈ u.nodePairs f := by
  induction fuel generalizing ts with
  | zero => exact .inr ⟨t, ht, hp⟩
  | succ fuel ih =>
    rw [reduce] at ht
    rw [treePairs, List.length_map]
    split_ifs at ht ⊢ with hlong
    · rw [List.mem_append, ← map_value_pairUp]
      obtain hp | ⟨u, hu, hp⟩ := ih ht
      · exact .inl (.inr hp)
      · obtain hp | hp := nodePairs_of_mem_pairUp hu hp
        · exact .inl (.inl hp)
        · exact .inr hp
    · exact .inr ⟨t, ht, hp⟩

theorem leaves_of_mem_pairUp (ht : t ∈ pairUp Tree.node ts) {a : α} (ha : a ∈ t.leaves) :
    ∃ u ∈ ts, a ∈ u.leaves := by
  induction ts using pairUp.induct with
  | case1 b c rest ih =>
    obtain rfl | ht := List.mem_cons.mp ht
    · obtain ha | ha := List.mem_append.mp ha
      · exact ⟨b, by simp, ha⟩
      · exact ⟨c, by simp, ha⟩
    · obtain ⟨u, hu, ha⟩ := ih ht
      exact ⟨u, List.mem_cons_of_mem _ (List.mem_cons_of_mem _ hu), ha⟩
  | case2 b => exact ⟨t, ht, ha⟩
  | case3 => cases ht

theorem leaves_of_mem_reduce (ht : t ∈ reduce Tree.node fuel ts) {a : α} (ha : a ∈ t.leaves) :
    ∃ u ∈ ts, a ∈ u.leaves := by
  induction fuel generalizing ts with
  | zero => exact ⟨t, ht, ha⟩
  | succ fuel ih =>
    rw [reduce] at ht
    split_ifs at ht
    · obtain ⟨u, hu, ha⟩ := ih ht
      exact leaves_of_mem_pairUp hu ha
    · exact ⟨t, ht, ha⟩

structure Builds (f : α → α → α) (level : List α) (t : Tree α) : Prop where
  root : reduce f level.length level = [t.value f]
  nodes : ∀ p ∈ t.nodePairs f, p ∈ treePairs f level.length level
  leaves : ∀ a ∈ t.leaves, a ∈ level

theorem map_value_leaf (f : α → α → α) (level : List α) :
    (level.map Tree.leaf).map (Tree.value f) = level := by
  rw [List.map_map]
  exact List.map_id level

theorem treeOf_builds (f : α → α → α) (hne : level ≠ []) :
    ∃ t, treeOf level = some t ∧ Builds f level t := by
  obtain ⟨a, rest, rfl⟩ := List.exists_cons_of_ne_nil hne
  have hfuel : ((a :: rest).map Tree.leaf).length ≤ (a :: rest).length + 1 := by simp
  have hfirst : ((a :: rest).map Tree.leaf)[0]? = some (Tree.leaf a) := rfl
  have hsingle := climb_path (f := Tree.node) hfuel hfirst
  refine ⟨_, by rw [treeOf, hsingle, List.head?_cons], ?_, fun p hp => ?_, fun b hb => ?_⟩
  · have hvalues := map_value_reduce f (a :: rest).length ((a :: rest).map Tree.leaf)
    rw [hsingle, map_value_leaf] at hvalues
    exact hvalues.symm
  · obtain hp | ⟨u, hu, hp⟩ := nodePairs_of_mem_reduce (hsingle ▸ List.mem_singleton_self _) hp
    · rwa [map_value_leaf] at hp
    · obtain ⟨c, -, rfl⟩ := List.mem_map.mp hu
      cases hp
  · obtain ⟨u, hu, hb⟩ := leaves_of_mem_reduce (hsingle ▸ List.mem_singleton_self _) hb
    obtain ⟨c, hc, rfl⟩ := List.mem_map.mp hu
    rwa [List.mem_singleton.mp hb]

variable {s : Set (α × α)} {x : α} {siblings : List (α × Bool)}

theorem climb_snoc (x : α) (siblings : List (α × Bool)) (last : α × Bool) :
    climb f x (siblings ++ [last]) = join f (climb f x siblings) last := by
  rw [climb, List.foldl_append]
  rfl

theorem climbPairs_snoc (x : α) (siblings : List (α × Bool)) (last : α × Bool) :
    climbPairs f x (siblings ++ [last]) =
      climbPairs f x siblings ++ [ordered (climb f x siblings) last] := by
  rw [climbPairs_append]
  rfl

theorem descend_spec (hinj : s.InjOn (Function.uncurry f)) (ht : ∀ p ∈ t.nodePairs f, p ∈ s)
    (hclimb : ∀ p ∈ climbPairs f x siblings, p ∈ s) (h : climb f x siblings = t.value f) :
    (∀ u, t.descend (siblings.map Prod.snd).reverse = some u → u.value f = x) ∧
      (t.descend (siblings.map Prod.snd).reverse = none →
        ∃ p ∈ climbPairs f x siblings, Function.uncurry f p ∈ t.leaves) := by
  induction siblings using List.reverseRecOn generalizing t with
  | nil =>
    rw [List.map_nil, List.reverse_nil, Tree.descend_nil]
    refine ⟨fun u hu => ?_, fun hnone => absurd hnone (Option.some_ne_none t)⟩
    rw [← Option.some.inj hu]
    exact h.symm
  | append_singleton siblings last ih =>
    rw [climbPairs_snoc] at hclimb ⊢
    rw [climb_snoc] at h
    rw [List.map_append, List.reverse_append]
    obtain ⟨hearlier, hlast⟩ := List.forall_mem_append.mp hclimb
    cases t with
    | leaf a =>
      constructor
      · intro u hu
        cases hu
      · intro _
        exact ⟨_, List.mem_append_right _ (List.mem_singleton_self _), List.mem_singleton.mpr h⟩
    | node left right =>
      rw [Tree.nodePairs, List.forall_mem_cons, List.forall_mem_append] at ht
      have hpair := hinj (hlast _ (List.mem_singleton_self _)) ht.1 h
      obtain ⟨sibling, side⟩ := last
      cases side with
      | false =>
        obtain ⟨hsome, hnone⟩ := ih ht.2.1 hearlier (Prod.mk.inj hpair).1
        refine ⟨hsome, fun hd => ?_⟩
        obtain ⟨p, hp, hleaf⟩ := hnone hd
        exact ⟨p, List.mem_append_left _ hp, List.mem_append_left _ hleaf⟩
      | true =>
        obtain ⟨hsome, hnone⟩ := ih ht.2.2 hearlier (Prod.mk.inj hpair).2
        refine ⟨hsome, fun hd => ?_⟩
        obtain ⟨p, hp, hleaf⟩ := hnone hd
        exact ⟨p, List.mem_append_left _ hp, List.mem_append_right _ hleaf⟩

end Trees

end PairTree
