import TrustNode.Turbine.Relay
import TrustNode.Turbine.TreeShape

namespace TrustNode.Turbine

namespace Neighborhood

def Linked (nodes : List TurbineNode) : Prop :=
  ∀ (p : ℕ) (parent : TurbineNode) (c : ℕ), nodes[p]? = some parent → c ∈ parent.children →
    ∃ child : TurbineNode, nodes[c]? = some child ∧ child.parent = some p

section Links

variable {nodes : List TurbineNode} {p : ℕ} {new : TurbineNode}

theorem Linked.grow (h : Linked nodes) (hp : p < nodes.length) (hnew : new.parent = some p)
    (hleaf : new.children = []) : Linked (grow nodes p new) := by
  intro q above c habove hc
  obtain ⟨old, hold, rfl⟩ | ⟨rfl, rfl⟩ := getElem?_grow_cases hp habove
  · rw [touch] at hc
    have hkeep : c ∈ old.children →
        ∃ child : TurbineNode, (Neighborhood.grow nodes p new)[c]? = some child ∧
          child.parent = some q := by
      intro hmem
      obtain ⟨child, hchild, hparent⟩ := h q old c hold hmem
      have hlt : c < nodes.length := (List.getElem?_eq_some_iff.mp hchild).1
      refine ⟨touch p nodes.length c child, ?_, ?_⟩
      · rw [getElem?_grow_of_lt hlt, hchild, Option.map_some]
      · rw [parent_touch, hparent]
    split_ifs at hc with hpq
    · rcases List.mem_append.mp hc with hmem | hlast
      · exact hkeep hmem
      · obtain rfl := List.mem_singleton.mp hlast
        exact ⟨new, getElem?_grow_length hp, hpq ▸ hnew⟩
    · exact hkeep hc
  · rw [hleaf] at hc
    cases hc

variable {validators : List ValidatorStake}

theorem Linked.attachAll {childDepth : UInt8} {children : List ℕ} {nodes' : List TurbineNode}
    (h : Linked nodes) (hp : p < nodes.length)
    (hattach : children.foldlM (attach validators p childDepth) nodes = .ok nodes') :
    Linked nodes' := by
  induction children generalizing nodes with
  | nil =>
    obtain rfl := Except.ok.inj hattach
    exact h
  | cons c rest ih =>
    rw [List.foldlM_cons, attach] at hattach
    cases hv : validators[c]? with
    | none => rw [hv] at hattach; cases hattach
    | some v =>
      rw [hv] at hattach
      refine ih (h.grow hp rfl rfl) ?_ hattach
      rw [length_grow]
      omega

theorem Linked.visit {maxDepth parentIdx : ℕ} {remaining : List ℕ} {s t : Build}
    (h : Linked s.nodes) (hvisit : visit validators maxDepth s parentIdx remaining = .ok t) :
    Linked t.nodes := by
  rw [Neighborhood.visit] at hvisit
  split_ifs at hvisit with hremaining
  · obtain rfl := Except.ok.inj hvisit
    exact h
  · split at hvisit
    · cases hvisit
    · next parent hparent =>
      split_ifs at hvisit with hdepth
      · obtain rfl := Except.ok.inj hvisit
        exact h
      · dsimp only at hvisit
        split at hvisit
        · cases hvisit
        · next nodes' hnodes =>
          obtain rfl := Except.ok.inj hvisit
          exact h.attachAll (List.getElem?_eq_some_iff.mp hparent).1 hnodes

theorem Linked.loop {maxDepth fuel : ℕ} {s t : Build} (h : Linked s.nodes)
    (hloop : loop validators maxDepth fuel s = .ok t) : Linked t.nodes := by
  induction fuel generalizing s with
  | zero =>
    obtain rfl := Except.ok.inj hloop
    exact h
  | succ fuel ih =>
    rw [Neighborhood.loop] at hloop
    split at hloop
    · obtain rfl := Except.ok.inj hloop
      exact h
    · next parentIdx remaining rest hqueue =>
      split at hloop
      · cases hloop
      · next s' hvisit => exact ih (Linked.visit (s := { s with queue := rest }) h hvisit) hloop

end Links

structure Built (validators : List ValidatorStake) (tree : Neighborhood) : Prop where
  grown : Grown tree.nodes
  linked : Linked tree.nodes
  members : (tree.nodes.map TurbineNode.entry).Perm validators
  size : tree.nodes.length ≤ 40

theorem getElem?_nil_ne {i : ℕ} {node : TurbineNode} : ([] : List TurbineNode)[i]? ≠ some node := by
  simp

theorem grown_nil : Grown [] :=
  ⟨fun _ h => absurd h getElem?_nil_ne, fun _ _ h => absurd h getElem?_nil_ne,
    fun _ _ h => absurd h getElem?_nil_ne, fun _ _ h => absurd h getElem?_nil_ne⟩

theorem linked_planted (first : ValidatorStake) (total : ℕ) :
    Linked (planted first total).nodes := by
  intro q above c habove hc
  cases q with
  | zero =>
    obtain rfl := Option.some.inj habove
    cases hc
  | succ q => cases habove

theorem built_of_buildTree {validators : List ValidatorStake} {maxDepth : ℕ} {tree : Neighborhood}
    (hmax : validators.length ≤ maxDepth) (h : buildTree validators maxDepth = .ok tree) :
    Built validators tree := by
  have hperm := byStake_perm validators
  have hlength := hperm.length_eq
  rw [buildTree] at h
  cases hsorted : byStake validators with
  | nil =>
    rw [hsorted] at h hperm
    obtain rfl := Except.ok.inj h
    exact ⟨grown_nil, fun _ _ _ h => absurd h getElem?_nil_ne, hperm, by decide⟩
  | cons first others =>
    rw [hsorted, List.length_cons] at hlength
    rw [hsorted] at h hperm
    dsimp only [List.length_cons] at h
    obtain ⟨-, herror⟩ | ⟨hsmall, t, hloop, hqueue, ht⟩ := loop_planted first others (hlength ▸ hmax)
    · rw [herror] at h
      cases h
    · have hmembers : (t.nodes.map TurbineNode.entry).Perm (first :: others) := by
        have hall := ht.members
        rw [hqueue] at hall
        exact (List.append_nil _ ▸ hall :)
      have hlinked : Linked t.nodes := (linked_planted first _).loop hloop
      rw [hloop] at h
      dsimp only at h
      cases hnodes : t.nodes with
      | nil => rw [hnodes] at h; cases h
      | cons root rest =>
        rw [hnodes] at h
        obtain rfl := Except.ok.inj h
        have hsize : t.nodes.length = others.length + 1 := by simpa using hmembers.length_eq
        rw [← hnodes]
        exact ⟨ht.grown, hlinked, hmembers.trans hperm, hsize.trans_le hsmall⟩

theorem Built.keys_nodup {validators : List ValidatorStake} {tree : Neighborhood}
    (h : Built validators tree) (hkeys : (validators.map Prod.fst).Nodup) :
    (tree.nodes.map TurbineNode.validator).Nodup := by
  have hperm := h.members.map Prod.fst
  rw [List.map_map] at hperm
  exact hperm.nodup_iff.mpr hkeys

theorem find_validator {tree : Neighborhood} (hkeys : (tree.nodes.map TurbineNode.validator).Nodup)
    {i : ℕ} {node : TurbineNode} (h : tree.nodes[i]? = some node) :
    tree.find node.validator = some node := by
  have hmem := List.mem_of_getElem? h
  cases hfind : tree.find node.validator with
  | none => simpa using List.find?_eq_none.mp hfind node hmem
  | some other =>
    have hkey : other.validator = node.validator := by
      have hsome := List.find?_some hfind
      exact of_decide_eq_true hsome
    rw [List.inj_on_of_nodup_map hkeys (List.mem_of_find?_eq_some hfind) hmem hkey]

def ParentOf (nodes : List TurbineNode) (p c : ℕ) : Prop :=
  ∃ node : TurbineNode, nodes[c]? = some node ∧ node.parent = some p

theorem Grown.mem_children {nodes : List TurbineNode} (h : Grown nodes) {p c : ℕ}
    (hpc : ParentOf nodes p c) :
    ∃ parent : TurbineNode, nodes[p]? = some parent ∧ c ∈ parent.children ∧ p < c := by
  obtain ⟨node, hnode, hparent⟩ := hpc
  cases c with
  | zero => rw [h.root node hnode] at hparent; cases hparent
  | succ i =>
    obtain ⟨q, above, hq, hle, habove, -, hcount⟩ := h.child i node hnode
    obtain rfl := Option.some.inj (hparent.symm.trans hq)
    exact ⟨above, habove, List.count_pos_iff.mp (by omega), by omega⟩

theorem Grown.exists_parent {nodes : List TurbineNode} (h : Grown nodes) {i : ℕ}
    (hi : i + 1 < nodes.length) : ∃ p, p ≤ i ∧ ParentOf nodes p (i + 1) := by
  have hnode := List.getElem?_eq_getElem hi
  obtain ⟨p, -, hparent, hle, -⟩ := h.child i _ hnode
  exact ⟨p, hle, _, hnode, hparent⟩

end Neighborhood

inductive Downstream (D : Deployment) (u : Bytes32) : Bytes32 → Prop
  | neighbor {nodes : List TurbineNode} {node : TurbineNode}
      (hnodes : (D.tree u).neighbors u = .ok nodes) (hnode : node ∈ nodes) :
      Downstream D u node.validator
  | child {v : Bytes32} {node child : TurbineNode} {nodes : List TurbineNode}
      (hv : Downstream D u v) (hfind : (D.tree v).find v = some node)
      (hnodes : (D.tree v).collect node.children = .ok nodes) (hchild : child ∈ nodes) :
      Downstream D u child.validator

section Shape

open Neighborhood

variable {D : Deployment} {validators : List ValidatorStake} {tree : Neighborhood}

structure Shared (D : Deployment) (validators : List ValidatorStake) (tree : Neighborhood) :
    Prop where
  tree_eq : ∀ v, D.tree v = tree
  built : Built validators tree
  keys : (tree.nodes.map TurbineNode.validator).Nodup

theorem Shared.neighbor (h : Shared D validators tree) {i j : ℕ} {node other : TurbineNode}
    (hi : tree.nodes[i]? = some node) (hj : tree.nodes[j]? = some other)
    (hij : node.parent = some j ∨ j ∈ node.children) :
    Downstream D node.validator other.validator := by
  have hrange : ∀ idx ∈ node.parent.toList ++ node.children, idx < tree.nodes.length := by
    intro idx hidx
    rcases List.mem_append.mp hidx with hparent | hchild
    · have hpc : ParentOf tree.nodes idx i := ⟨node, hi, Option.mem_toList.mp hparent⟩
      obtain ⟨above, habove, -⟩ := h.built.grown.mem_children hpc
      exact (List.getElem?_eq_some_iff.mp habove).1
    · exact h.built.grown.below i node hi idx hchild
  obtain ⟨nodes, hnodes⟩ := exists_collect hrange
  have hmem : other ∈ nodes := by
    refine (mem_collect hnodes).mpr ⟨j, ?_, hj⟩
    rw [List.mem_append, Option.mem_toList]
    exact hij
  have hneighbors : (D.tree node.validator).neighbors node.validator = .ok nodes := by
    rw [h.tree_eq, neighbors, find_validator h.keys hi]
    exact hnodes
  exact .neighbor hneighbors hmem

theorem Shared.child (h : Shared D validators tree) {u : Bytes32} {p c : ℕ}
    {parent child : TurbineNode} (hp : tree.nodes[p]? = some parent)
    (hc : tree.nodes[c]? = some child) (hmem : c ∈ parent.children)
    (hdown : Downstream D u parent.validator) : Downstream D u child.validator := by
  have hbelow : ∀ idx ∈ parent.children, idx < tree.nodes.length :=
    h.built.grown.below p parent hp
  obtain ⟨nodes, hnodes⟩ := exists_collect hbelow
  have hfind := find_validator h.keys hp
  rw [← h.tree_eq parent.validator] at hfind hnodes
  exact .child hdown hfind hnodes ((mem_collect hnodes).mpr ⟨c, hmem, by rwa [h.tree_eq]⟩)

theorem Shared.downstream_cases (h : Shared D validators tree) {i : ℕ} {node : TurbineNode}
    (hi : tree.nodes[i]? = some node) {v : Bytes32} (hdown : Downstream D node.validator v) :
    ∃ (j : ℕ) (other : TurbineNode), tree.nodes[j]? = some other ∧ other.validator = v ∧
      (node.parent = none → j ≠ i) ∧
      ∀ p, node.parent = some p → Relation.ReflTransGen (ParentOf tree.nodes) p j := by
  have hroot : ∀ {j c : ℕ}, ParentOf tree.nodes j c → node.parent = none → c ≠ i := by
    rintro j c ⟨child, hchild, hparent⟩ hnone rfl
    rw [Option.some.inj (hchild.symm.trans hi), hnone] at hparent
    cases hparent
  generalize hu : node.validator = u at hdown
  induction hdown with
  | @neighbor nodes other hnodes hother =>
    rw [h.tree_eq, ← hu, neighbors, find_validator h.keys hi] at hnodes
    obtain ⟨j, hj, hfound⟩ := (mem_collect hnodes).mp hother
    refine ⟨j, other, hfound, rfl, ?_⟩
    rcases List.mem_append.mp hj with hparent | hchild
    · rw [Option.mem_toList] at hparent
      refine ⟨fun hnone => absurd (hparent.symm.trans hnone) (Option.some_ne_none j), fun p hp => ?_⟩
      rw [Option.some.inj (hp.symm.trans hparent)]
    · obtain ⟨child, hc, hback⟩ := h.built.linked i node j hi hchild
      have hstep : ParentOf tree.nodes i j := ⟨child, hc, hback⟩
      exact ⟨hroot hstep, fun p hp => .tail (.single ⟨node, hi, hp⟩) hstep⟩
  | @child v parent child nodes hv hfind hnodes hchild ih =>
    obtain ⟨j, other, hj, rfl, -, hunder⟩ := ih
    rw [h.tree_eq] at hfind hnodes
    obtain rfl := Option.some.inj ((find_validator h.keys hj).symm.trans hfind)
    obtain ⟨c, hc, hfound⟩ := (mem_collect hnodes).mp hchild
    obtain ⟨back, hback, hparent⟩ := h.built.linked j other c hj hc
    have hstep : ParentOf tree.nodes j c := ⟨back, hback, hparent⟩
    exact ⟨c, child, hfound, rfl, hroot hstep, fun p hp => (hunder p hp).tail hstep⟩

theorem Shared.downstream_of_under (h : Shared D validators tree) {i p j : ℕ}
    {node other : TurbineNode} (hi : tree.nodes[i]? = some node) (hp : node.parent = some p)
    (hunder : Relation.ReflTransGen (ParentOf tree.nodes) p j) (hj : tree.nodes[j]? = some other) :
    Downstream D node.validator other.validator := by
  induction hunder generalizing other with
  | refl => exact h.neighbor hi hj (.inl hp)
  | @tail a b _ hab ih =>
    obtain ⟨above, habove, hmem, -⟩ := h.built.grown.mem_children hab
    exact h.child habove hj hmem (ih habove)

theorem Shared.downstream_of_root (h : Shared D validators tree) {root : TurbineNode}
    (hroot : tree.nodes[0]? = some root) {j : ℕ} {other : TurbineNode}
    (hj : tree.nodes[j + 1]? = some other) : Downstream D root.validator other.validator := by
  induction j using Nat.strong_induction_on generalizing other with
  | _ j ih =>
    obtain ⟨p, hle, hpc⟩ := h.built.grown.exists_parent (List.getElem?_eq_some_iff.mp hj).1
    obtain ⟨above, habove, hmem, -⟩ := h.built.grown.mem_children hpc
    cases p with
    | zero =>
      obtain rfl := Option.some.inj (hroot.symm.trans habove)
      exact h.neighbor hroot hj (.inr hmem)
    | succ p => exact h.child habove hj hmem (ih p (by omega) habove)

theorem Shared.under_root (h : Shared D validators tree) {j : ℕ} (hj : j < tree.nodes.length) :
    Relation.ReflTransGen (ParentOf tree.nodes) 0 j := by
  induction j using Nat.strong_induction_on with
  | _ j ih =>
    cases j with
    | zero => exact .refl
    | succ j =>
      obtain ⟨p, hle, hpc⟩ := h.built.grown.exists_parent hj
      exact (ih p (by omega) (by omega)).tail hpc

theorem Shared.depth_le_one_iff (h : Shared D validators tree) {i : ℕ} {node : TurbineNode}
    (hi : tree.nodes[i]? = some node) :
    node.depth.toNat ≤ 1 ↔ node.parent = none ∨ node.parent = some 0 := by
  have hgrown := h.built.grown
  have hsize := h.built.size
  have hone : (1 : UInt8).toNat = 1 := rfl
  cases i with
  | zero =>
    have hdepth := hgrown.depth 0 node hi
    exact iff_of_true (by omega) (.inl (hgrown.root node hi))
  | succ i =>
    obtain ⟨p, above, hparent, hle, habove, hdepth, -⟩ := hgrown.child i node hi
    have hp := hgrown.depth p above habove
    have hlt := (List.getElem?_eq_some_iff.mp habove).1
    rw [hparent, hdepth, UInt8.toNat_add]
    cases p with
    | zero => exact iff_of_true (by omega) (.inr rfl)
    | succ p =>
      obtain ⟨q, top, -, hqle, htop, hpdepth, -⟩ := hgrown.child p above habove
      have hq := hgrown.depth q top htop
      have hqlt := (List.getElem?_eq_some_iff.mp htop).1
      rw [hpdepth, UInt8.toNat_add]
      refine iff_of_false (by omega) ?_
      rintro (hnone | hzero)
      · cases hnone
      · cases hzero

theorem Shared.key_inj (h : Shared D validators tree) {i j : ℕ} {node other : TurbineNode}
    (hi : tree.nodes[i]? = some node) (hj : tree.nodes[j]? = some other)
    (hkey : node.validator = other.validator) : i = j := by
  have hlt : i < (tree.nodes.map TurbineNode.validator).length := by
    rw [List.length_map]
    exact (List.getElem?_eq_some_iff.mp hi).1
  refine (List.getElem?_inj hlt h.keys).mp ?_
  rw [List.getElem?_map, List.getElem?_map, hi, hj, Option.map_some, Option.map_some, hkey]

theorem Shared.parent_of_reaches_root (h : Shared D validators tree) {i : ℕ}
    {node root : TurbineNode} (hi : tree.nodes[i]? = some node) (hroot : tree.nodes[0]? = some root)
    (hdown : Downstream D node.validator root.validator) :
    node.parent = none ∨ node.parent = some 0 := by
  obtain ⟨j, other, hj, hkey, -, hunder⟩ := h.downstream_cases hi hdown
  obtain rfl := h.key_inj hj hroot hkey
  cases hparent : node.parent with
  | none => exact .inl rfl
  | some p =>
    rcases (hunder p hparent).cases_tail with heq | ⟨b, -, hb⟩
    · exact .inr (congrArg some heq.symm)
    · obtain ⟨-, -, -, hlt⟩ := h.built.grown.mem_children hb
      exact absurd hlt (Nat.not_lt_zero b)

theorem Shared.reaches_all_iff (h : Shared D validators tree) {i : ℕ} {node : TurbineNode}
    (hi : tree.nodes[i]? = some node) :
    (∀ other ∈ tree.nodes, other.validator ≠ node.validator →
        Downstream D node.validator other.validator) ↔ node.depth.toNat ≤ 1 := by
  rw [h.depth_le_one_iff hi]
  constructor
  · intro hall
    cases hparent : node.parent with
    | none => exact .inl rfl
    | some p =>
      obtain ⟨root, hroot⟩ : ∃ root, tree.nodes[0]? = some root :=
        ⟨_, List.getElem?_eq_getElem (Nat.zero_lt_of_lt (List.getElem?_eq_some_iff.mp hi).1)⟩
      have hne : root.validator ≠ node.validator := by
        intro hkey
        obtain rfl := h.key_inj hroot hi hkey
        rw [h.built.grown.root node hi] at hparent
        cases hparent
      rw [← hparent]
      exact h.parent_of_reaches_root hi hroot (hall root (List.mem_of_getElem? hroot) hne)
  · intro hdepth other hother hne
    obtain ⟨j, hj⟩ := List.mem_iff_getElem?.mp hother
    rcases hdepth with hnone | hzero
    · obtain rfl : i = 0 := by
        cases i with
        | zero => rfl
        | succ i =>
          obtain ⟨p, -, hparent, -⟩ := h.built.grown.child i node hi
          rw [hnone] at hparent
          cases hparent
      cases j with
      | zero => exact absurd (congrArg _ (Option.some.inj (hj.symm.trans hi))) hne
      | succ j => exact h.downstream_of_root hi hj
    · exact h.downstream_of_under hi hzero (h.under_root (List.getElem?_eq_some_iff.mp hj).1) hj

end Shape

end TrustNode.Turbine
