import TrustNode.Turbine.Neighborhoods
import TrustNode.Turbine.Recovery

namespace TrustNode.Turbine

namespace Neighborhood

section Nodes

structure Grown (nodes : List TurbineNode) : Prop where
  root : ∀ node : TurbineNode, nodes[0]? = some node → node.parent = none
  child : ∀ (i : ℕ) (node : TurbineNode), nodes[i + 1]? = some node →
    ∃ (p : ℕ) (parent : TurbineNode), node.parent = some p ∧ p ≤ i ∧ nodes[p]? = some parent ∧
      node.depth = parent.depth + 1 ∧ parent.children.count (i + 1) = 1
  depth : ∀ (i : ℕ) (node : TurbineNode), nodes[i]? = some node → node.depth.toNat ≤ i
  below : ∀ (i : ℕ) (node : TurbineNode), nodes[i]? = some node →
    ∀ c ∈ node.children, c < nodes.length

def fan (nodes : List TurbineNode) (i : ℕ) : ℕ := (nodes[i]?.map fun n => n.children.length).getD 0

def grow (nodes : List TurbineNode) (p : ℕ) (new : TurbineNode) : List TurbineNode :=
  (nodes ++ [new]).modify p (.adopt nodes.length)

def touch (p newIdx i : ℕ) (node : TurbineNode) : TurbineNode :=
  if p = i then node.adopt newIdx else node

variable {nodes : List TurbineNode} {p : ℕ} {new parent node : TurbineNode} {newIdx i : ℕ}

@[simp]
theorem parent_touch : (touch p newIdx i node).parent = node.parent := by
  rw [touch]
  split_ifs <;> rfl

@[simp]
theorem depth_touch : (touch p newIdx i node).depth = node.depth := by
  rw [touch]
  split_ifs <;> rfl

@[simp]
theorem entry_touch : (touch p newIdx i node).entry = node.entry := by
  rw [touch]
  split_ifs <;> rfl

theorem mem_children_touch {c : ℕ} (h : c ∈ (touch p newIdx i node).children) :
    c ∈ node.children ∨ c = newIdx := by
  rw [touch] at h
  split_ifs at h
  · exact (List.mem_append.mp h).imp_right List.mem_singleton.mp
  · exact .inl h

theorem count_touch {c : ℕ} (h : c ≠ newIdx) :
    (touch p newIdx i node).children.count c = node.children.count c := by
  rw [touch]
  split_ifs
  · rw [TurbineNode.adopt, List.count_append, List.count_singleton]
    simp [h.symm]
  · rfl

theorem length_grow : (grow nodes p new).length = nodes.length + 1 := by simp [grow]

theorem getElem?_grow_of_lt (hi : i < nodes.length) :
    (grow nodes p new)[i]? = nodes[i]?.map (touch p nodes.length i) := by
  rw [grow, List.getElem?_modify, List.getElem?_append_left hi]
  rfl

theorem getElem?_grow_length (hp : p < nodes.length) :
    (grow nodes p new)[nodes.length]? = some new := by
  rw [grow, List.getElem?_modify, List.getElem?_append_right le_rfl, Nat.sub_self]
  simp [hp.ne]

theorem getElem?_grow_parent (h : nodes[p]? = some parent) :
    (grow nodes p new)[p]? = some (parent.adopt nodes.length) := by
  rw [getElem?_grow_of_lt (List.getElem?_eq_some_iff.mp h).1, h, Option.map_some, touch, if_pos rfl]

theorem getElem?_grow_cases (hp : p < nodes.length) (h : (grow nodes p new)[i]? = some node) :
    (∃ old, nodes[i]? = some old ∧ node = touch p nodes.length i old) ∨
      i = nodes.length ∧ node = new := by
  have hlt : i < nodes.length + 1 := length_grow ▸ (List.getElem?_eq_some_iff.mp h).1
  rcases Nat.lt_succ_iff_lt_or_eq.mp hlt with hi | rfl
  · rw [getElem?_grow_of_lt hi] at h
    obtain ⟨old, hold, rfl⟩ := Option.map_eq_some_iff.mp h
    exact .inl ⟨old, hold, rfl⟩
  · rw [getElem?_grow_length hp] at h
    exact .inr ⟨rfl, (Option.some.inj h).symm⟩

theorem entries_grow :
    (grow nodes p new).map TurbineNode.entry = nodes.map TurbineNode.entry ++ [new.entry] := by
  have hsame : (grow nodes p new).map TurbineNode.entry = (nodes ++ [new]).map TurbineNode.entry := by
    apply List.ext_getElem?
    intro i
    rw [grow, List.getElem?_map, List.getElem?_map, List.getElem?_modify]
    cases (nodes ++ [new])[i]? with
    | none => rfl
    | some node => exact congrArg some entry_touch
  rw [hsame, List.map_append]
  rfl

theorem fan_grow (hp : p < nodes.length) (hnew : new.children = []) (i : ℕ) :
    fan (grow nodes p new) i = fan nodes i + if i = p then 1 else 0 := by
  rcases lt_trichotomy i nodes.length with hi | rfl | hi
  · rw [fan, fan, getElem?_grow_of_lt hi, List.getElem?_eq_getElem hi]
    by_cases hip : i = p
    · simp [hip, touch, TurbineNode.adopt]
    · simp [hip, touch, Ne.symm hip]
  · rw [fan, fan, getElem?_grow_length hp, List.getElem?_eq_none le_rfl, if_neg hp.ne']
    simp [hnew]
  · have hgrown : (grow nodes p new).length ≤ i := by
      rw [length_grow]
      exact hi
    rw [fan, fan, List.getElem?_eq_none hgrown, List.getElem?_eq_none hi.le,
      if_neg (hp.trans hi).ne']
    rfl

theorem Grown.child_grow (h : Grown nodes) (hparent : nodes[p]? = some parent)
    (hnew : new.parent = some p) (hdepth : new.depth = parent.depth + 1)
    (hnode : (Neighborhood.grow nodes p new)[i + 1]? = some node) :
    ∃ (q : ℕ) (above : TurbineNode), node.parent = some q ∧ q ≤ i ∧
      (Neighborhood.grow nodes p new)[q]? = some above ∧ node.depth = above.depth + 1 ∧
      above.children.count (i + 1) = 1 := by
  have hp : p < nodes.length := (List.getElem?_eq_some_iff.mp hparent).1
  obtain ⟨old, hold, rfl⟩ | ⟨hlength, rfl⟩ := getElem?_grow_cases hp hnode
  · have hi : i + 1 < nodes.length := (List.getElem?_eq_some_iff.mp hold).1
    obtain ⟨q, above, hq, hle, habove, hdeep, hcount⟩ := h.child i old hold
    refine ⟨q, touch p nodes.length q above, ?_, hle, ?_, ?_, ?_⟩
    · rw [parent_touch, hq]
    · rw [getElem?_grow_of_lt (by omega), habove, Option.map_some]
    · rw [depth_touch, depth_touch, hdeep]
    · rw [count_touch hi.ne, hcount]
  · have hfresh : parent.children.count (i + 1) = 0 := by
      refine List.count_eq_zero.mpr fun hmem => ?_
      exact absurd (h.below p parent hparent _ hmem) (hlength ▸ lt_irrefl _)
    refine ⟨p, parent.adopt nodes.length, hnew, by omega, getElem?_grow_parent hparent, hdepth, ?_⟩
    rw [TurbineNode.adopt, List.count_append, hfresh, ← hlength, List.count_singleton_self]

theorem Grown.depth_grow (h : Grown nodes) (hparent : nodes[p]? = some parent)
    (hdepth : new.depth = parent.depth + 1)
    (hnode : (Neighborhood.grow nodes p new)[i]? = some node) : node.depth.toNat ≤ i := by
  have hp : p < nodes.length := (List.getElem?_eq_some_iff.mp hparent).1
  obtain ⟨old, hold, rfl⟩ | ⟨rfl, rfl⟩ := getElem?_grow_cases hp hnode
  · rw [depth_touch]
    exact h.depth i old hold
  · have hle := h.depth p parent hparent
    have hone : (1 : UInt8).toNat = 1 := rfl
    rw [hdepth, UInt8.toNat_add]
    omega

theorem Grown.below_grow (h : Grown nodes) (hp : p < nodes.length) (hleaf : new.children = [])
    (hnode : (Neighborhood.grow nodes p new)[i]? = some node) :
    ∀ c ∈ node.children, c < nodes.length + 1 := by
  obtain ⟨old, hold, rfl⟩ | ⟨rfl, rfl⟩ := getElem?_grow_cases hp hnode
  · intro c hc
    rcases mem_children_touch hc with hc | rfl
    · exact Nat.lt_succ_of_lt (h.below i old hold c hc)
    · exact Nat.lt_succ_self _
  · rw [hleaf]
    exact fun c hc => absurd hc List.not_mem_nil

theorem Grown.grow (h : Grown nodes) (hparent : nodes[p]? = some parent)
    (hnew : new.parent = some p) (hdepth : new.depth = parent.depth + 1)
    (hleaf : new.children = []) : Grown (grow nodes p new) where
  root node hnode := by
    have hp : p < nodes.length := (List.getElem?_eq_some_iff.mp hparent).1
    obtain ⟨old, hold, rfl⟩ | ⟨hlength, -⟩ := getElem?_grow_cases hp hnode
    · rw [parent_touch, h.root old hold]
    · omega
  child i node hnode := h.child_grow hparent hnew hdepth hnode
  depth i node hnode := h.depth_grow hparent hdepth hnode
  below i node hnode := by
    rw [length_grow]
    exact h.below_grow (List.getElem?_eq_some_iff.mp hparent).1 hleaf hnode

structure Extends (p : ℕ) (nodes nodes' : List TurbineNode) (added : List ValidatorStake) : Prop where
  entries : nodes'.map TurbineNode.entry = nodes.map TurbineNode.entry ++ added
  grown : Grown nodes'
  fan : ∀ i, fan nodes' i = fan nodes i + if i = p then added.length else 0

theorem Extends.length_eq {nodes' : List TurbineNode} {added : List ValidatorStake}
    (h : Extends p nodes nodes' added) : nodes'.length = nodes.length + added.length := by
  simpa using congrArg List.length h.entries

def seats (validators : List ValidatorStake) (ids : List ℕ) : List ValidatorStake :=
  ids.filterMap fun i => validators[i]?

theorem seats_cons {validators : List ValidatorStake} {c : ℕ} {v : ValidatorStake}
    (h : validators[c]? = some v) (rest : List ℕ) :
    seats validators (c :: rest) = v :: seats validators rest := List.filterMap_cons_some h

theorem seats_append (validators : List ValidatorStake) (a b : List ℕ) :
    seats validators (a ++ b) = seats validators a ++ seats validators b := List.filterMap_append

theorem length_seats {validators : List ValidatorStake} {ids : List ℕ}
    (h : ∀ i ∈ ids, i < validators.length) : (seats validators ids).length = ids.length := by
  induction ids with
  | nil => rfl
  | cons c rest ih =>
    obtain ⟨hc, hrest⟩ := List.forall_mem_cons.mp h
    rw [seats_cons (List.getElem?_eq_getElem hc), List.length_cons, List.length_cons, ih hrest]

theorem extends_attachAll {validators : List ValidatorStake} {children : List ℕ} (h : Grown nodes)
    (hparent : nodes[p]? = some parent) (hrange : ∀ c ∈ children, c < validators.length) :
    ∃ nodes', children.foldlM (attach validators p (parent.depth + 1)) nodes = .ok nodes' ∧
      Extends p nodes nodes' (seats validators children) := by
  induction children generalizing nodes parent with
  | nil => exact ⟨nodes, rfl, by simp [seats], h, by simp [seats]⟩
  | cons c rest ih =>
    have hp : p < nodes.length := (List.getElem?_eq_some_iff.mp hparent).1
    obtain ⟨hlt, hrest⟩ := List.forall_mem_cons.mp hrange
    have hc := List.getElem?_eq_getElem hlt
    set v := validators[c]
    let new := TurbineNode.placed v (parent.depth + 1) nodes.length (some p)
    have hgrown : Grown (grow nodes p new) := h.grow hparent rfl rfl rfl
    obtain ⟨nodes', hfold, hext⟩ := ih hgrown (getElem?_grow_parent hparent) hrest
    refine ⟨nodes', ?_, ?_, hext.grown, fun i => ?_⟩
    · rw [List.foldlM_cons, attach, hc]
      exact hfold
    · rw [hext.entries, entries_grow, seats_cons hc, List.append_assoc]
      rfl
    · rw [hext.fan, fan_grow hp rfl, seats_cons hc, List.length_cons]
      split_ifs <;> omega

end Nodes

section Queue

abbrev Tasks := List (ℕ × List ℕ)

def pending (queue : Tasks) : List ℕ := queue.flatMap Prod.snd

def slots (queue : Tasks) : List ℕ := queue.map Prod.fst ++ pending queue

variable {children remaining : List ℕ}

theorem slice_eq (l : List ℕ) (first width : ℕ) :
    (l.take (min (first + width) l.length)).drop first = (l.drop first).take width := by
  rw [List.drop_take, List.take_eq_take_iff, List.length_drop]
  omega

def perChild (children remaining : List ℕ) : ℕ :=
  (remaining.length + children.length - 1) / children.length

def portion (children remaining : List ℕ) (i : ℕ) : List ℕ :=
  (remaining.drop (i * perChild children remaining)).take (perChild children remaining)

theorem distribute_eq (hchildren : children ≠ []) (hremaining : remaining ≠ []) :
    distribute children remaining = children.zipIdx.filterMap fun x =>
      if x.2 * perChild children remaining < remaining.length then
        some (x.1, portion children remaining x.2)
      else none := by
  rw [distribute, if_neg (by simp [hchildren, hremaining])]
  simp only [slice_eq]
  rfl

theorem pending_filterMap {l : List (ℕ × ℕ)} {P : ℕ → Prop} [DecidablePred P] {f : ℕ → List ℕ}
    (h : ∀ i, ¬P i → f i = []) :
    pending (l.filterMap fun x => if P x.2 then some (x.1, f x.2) else none) =
      (l.map Prod.snd).flatMap f := by
  induction l with
  | nil => rfl
  | cons x rest ih =>
    rw [List.filterMap_cons, List.map_cons, List.flatMap_cons, ← ih]
    split_ifs with hx
    · rfl
    · rw [h x.2 hx]
      rfl

theorem parents_filterMap (l : List (ℕ × ℕ)) (P : ℕ → Prop) [DecidablePred P] (f : ℕ → List ℕ) :
    ((l.filterMap fun x => if P x.2 then some (x.1, f x.2) else none).map Prod.fst).Sublist
      (l.map Prod.fst) := by
  induction l with
  | nil => exact List.Sublist.slnil
  | cons x rest ih =>
    rw [List.filterMap_cons, List.map_cons]
    split_ifs
    · exact ih.cons_cons x.1
    · exact ih.cons x.1

theorem length_le_perChild (h : children ≠ []) :
    remaining.length ≤ children.length * perChild children remaining := by
  have hpos : 0 < children.length := List.length_pos_iff.mpr h
  have hdiv := Nat.div_add_mod (remaining.length + children.length - 1) children.length
  have hmod := Nat.mod_lt (remaining.length + children.length - 1) hpos
  rw [perChild]
  omega

theorem pending_distribute (h : children ≠ []) :
    pending (distribute children remaining) = remaining := by
  rcases eq_or_ne remaining [] with rfl | hremaining
  · rfl
  · have hempty : ∀ i, ¬i * perChild children remaining < remaining.length →
        portion children remaining i = [] := by
      intro i hi
      rw [portion, List.drop_eq_nil_of_le (Nat.not_lt.mp hi), List.take_nil]
    rw [distribute_eq h hremaining, pending_filterMap hempty, List.zipIdx_map_snd,
      ← List.range_eq_range']
    exact (flatMap_take_drop remaining _ _).trans (List.take_of_length_le (length_le_perChild h))

theorem parents_distribute (children remaining : List ℕ) :
    ((distribute children remaining).map Prod.fst).Sublist children := by
  by_cases h : remaining = [] ∨ children = []
  · rw [distribute, if_pos h]
    exact List.nil_sublist _
  · rw [not_or] at h
    have hsub := parents_filterMap children.zipIdx
      (fun i => i * perChild children remaining < remaining.length) (portion children remaining)
    rw [List.zipIdx_map_fst] at hsub
    rwa [distribute_eq h.2 h.1]

end Queue

section Shape

structure Shape where
  count : ℕ
  queue : Tasks
deriving DecidableEq

namespace Shape

def visit (count : ℕ) (rest : Tasks) (p : ℕ) (remaining : List ℕ) : Option Shape :=
  if remaining = [] then some ⟨count, rest⟩
  else if p < count then
    some ⟨count + (remaining.take 3).length,
      rest ++ distribute (remaining.take 3) (remaining.drop 3)⟩
  else none

def loop : ℕ → Shape → Option Shape
  | 0, s => some s
  | fuel + 1, s =>
    match s.queue with
    | [] => some s
    | (p, remaining) :: rest => (visit s.count rest p remaining).bind (loop fuel)

end Shape

def Build.shape (s : Build) : Shape := ⟨s.nodes.length, s.queue⟩

structure Sound (validators : List ValidatorStake) (s : Build) : Prop where
  grown : Grown s.nodes
  members : (s.nodes.map TurbineNode.entry ++ seats validators (pending s.queue)).Perm validators
  inRange : ∀ i ∈ pending s.queue, i < validators.length
  fanOut : ∀ i, fan s.nodes i ≤ 3
  distinct : (slots s.queue).Nodup
  unused : ∀ i ∈ slots s.queue, fan s.nodes i = 0
  root : (s.nodes.map TurbineNode.entry).head? = validators.head?

variable {validators : List ValidatorStake} {maxDepth : ℕ} {nodes : List TurbineNode} {p d : ℕ}
  {remaining : List ℕ} {rest : Tasks}

theorem Sound.length_add (h : Sound validators ⟨nodes, rest, d⟩) :
    nodes.length + (pending rest).length = validators.length := by
  have hlength := h.members.length_eq
  rw [List.length_append, List.length_map, length_seats h.inRange] at hlength
  exact hlength

theorem Sound.skip (h : Sound validators ⟨nodes, (p, []) :: rest, d⟩) :
    Sound validators ⟨nodes, rest, d⟩ where
  grown := h.grown
  members := h.members
  inRange := h.inRange
  fanOut := h.fanOut
  distinct := (List.nodup_cons.mp h.distinct).2
  unused i hi := h.unused i (List.mem_cons_of_mem _ hi)
  root := h.root

theorem pending_visit (hremaining : remaining ≠ []) :
    pending (rest ++ distribute (remaining.take 3) (remaining.drop 3)) =
      pending rest ++ remaining.drop 3 := by
  have hchildren : remaining.take 3 ≠ [] := by simpa using hremaining
  rw [pending, List.flatMap_append]
  exact congrArg (pending rest ++ ·) (pending_distribute hchildren)

theorem slots_visit (rest : Tasks) (hremaining : remaining ≠ []) :
    (slots (rest ++ distribute (remaining.take 3) (remaining.drop 3))).Subperm
      (rest.map Prod.fst ++ (remaining ++ pending rest)) := by
  have hsub : (slots (rest ++ distribute (remaining.take 3) (remaining.drop 3))).Sublist
      (rest.map Prod.fst ++ remaining.take 3 ++ (pending rest ++ remaining.drop 3)) := by
    rw [slots, pending_visit hremaining, List.map_append]
    exact ((parents_distribute _ _).append_left _).append_right _
  have hperm : (rest.map Prod.fst ++ remaining.take 3 ++ (pending rest ++ remaining.drop 3)).Perm
      (rest.map Prod.fst ++ (remaining ++ pending rest)) := by
    rw [List.append_assoc]
    refine List.Perm.append_left _ ?_
    conv_rhs => rw [← List.take_append_drop 3 remaining, List.append_assoc]
    exact List.perm_append_comm.append_left _
  exact hsub.subperm.trans hperm.subperm

theorem seats_visit (validators : List ValidatorStake) (p : ℕ) (rest : Tasks)
    (hremaining : remaining ≠ []) :
    (seats validators (remaining.take 3) ++ seats validators
        (pending (rest ++ distribute (remaining.take 3) (remaining.drop 3)))).Perm
      (seats validators (pending ((p, remaining) :: rest))) := by
  have hseats : seats validators (pending ((p, remaining) :: rest)) =
      seats validators (remaining.take 3) ++ seats validators (remaining.drop 3) ++
        seats validators (pending rest) := by
    rw [← seats_append, List.take_append_drop, ← seats_append]
    rfl
  rw [pending_visit hremaining, hseats, seats_append, List.append_assoc]
  exact List.perm_append_comm.append_left _

theorem Sound.extend (h : Sound validators ⟨nodes, (p, remaining) :: rest, d⟩)
    (hremaining : remaining ≠ []) {nodes' : List TurbineNode} (hp : p < nodes.length)
    (hext : Extends p nodes nodes' (seats validators (remaining.take 3))) (d' : ℕ) :
    Sound validators
      ⟨nodes', rest ++ distribute (remaining.take 3) (remaining.drop 3), d'⟩ := by
  have hslots := slots_visit rest hremaining
  have hdistinct := List.nodup_cons.mp h.distinct
  refine ⟨hext.grown, ?_, fun i hi => ?_, fun i => ?_, ?_, fun i hi => ?_, ?_⟩
  · refine List.Perm.trans ?_ h.members
    rw [hext.entries, List.append_assoc]
    exact (seats_visit validators p rest hremaining).append_left _
  · rw [pending_visit hremaining] at hi
    refine h.inRange i ?_
    rcases List.mem_append.mp hi with hi | hi
    · exact List.mem_append_right _ hi
    · exact List.mem_append_left _ (List.mem_of_mem_drop hi)
  · rw [hext.fan]
    split_ifs with hi
    · have hadded : (seats validators (remaining.take 3)).length ≤ 3 :=
        (List.length_filterMap_le _ _).trans (List.length_take_le _ _)
      rw [hi, h.unused p List.mem_cons_self]
      omega
    · exact h.fanOut i
  · obtain ⟨l, hperm, hsub⟩ := hslots
    exact hperm.nodup_iff.mp (hdistinct.2.sublist hsub)
  · have hold := hslots.subset hi
    have hne : i ≠ p := fun heq => hdistinct.1 (heq ▸ hold)
    rw [hext.fan, if_neg hne]
    exact h.unused i (List.mem_cons_of_mem _ hold)
  · have hnodes : nodes.map TurbineNode.entry ≠ [] := by
      rw [ne_eq, List.map_eq_nil_iff]
      exact List.ne_nil_of_length_pos (Nat.zero_lt_of_lt hp)
    rw [hext.entries, List.head?_append_of_ne_nil _ hnodes]
    exact h.root

theorem visit_outcome (hmax : validators.length ≤ maxDepth)
    (h : Sound validators ⟨nodes, (p, remaining) :: rest, d⟩) :
    (Shape.visit nodes.length rest p remaining = none ∧
        visit validators maxDepth ⟨nodes, rest, d⟩ p remaining = .error .indexOutOfRange) ∨
      ∃ t, visit validators maxDepth ⟨nodes, rest, d⟩ p remaining = .ok t ∧
        Shape.visit nodes.length rest p remaining = some t.shape ∧ Sound validators t := by
  rcases eq_or_ne remaining [] with rfl | hremaining
  · exact .inr ⟨_, rfl, rfl, h.skip⟩
  · rw [visit, if_neg hremaining, Shape.visit, if_neg hremaining]
    dsimp only
    cases hparent : nodes[p]? with
    | none =>
      have hp := List.getElem?_eq_none_iff.mp hparent
      exact .inl ⟨if_neg (Nat.not_lt.mpr hp), rfl⟩
    | some parent =>
      have hp : p < nodes.length := (List.getElem?_eq_some_iff.mp hparent).1
      have hrange : ∀ c ∈ remaining.take 3, c < validators.length := fun c hc =>
        h.inRange c (List.mem_append_left _ (List.mem_of_mem_take hc))
      have hdepth : ¬maxDepth ≤ parent.depth.toNat := by
        have hle : parent.depth.toNat ≤ p := h.grown.depth p parent hparent
        have hlength := h.length_add
        omega
      obtain ⟨nodes', hfold, hext⟩ := extends_attachAll h.grown hparent hrange
      have hsound := h.extend hremaining hp hext (max d (parent.depth + 1).toNat)
      refine .inr ⟨_, ?_, ?_, hsound⟩
      · dsimp only
        rw [if_neg hdepth, hfold]
      · rw [if_pos hp, Build.shape, hext.length_eq, length_seats hrange]

end Shape

end Neighborhood

end TrustNode.Turbine
