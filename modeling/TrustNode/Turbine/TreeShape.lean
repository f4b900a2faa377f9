import TrustNode.Turbine.TurbineTree

namespace TrustNode.Turbine.Neighborhood

namespace Shape

section Draining

def weight (queue : Tasks) : ℕ := queue.length + (pending queue).length

theorem weight_visit {count p : ℕ} {rest : Tasks} {remaining : List ℕ} {t : Shape}
    (h : visit count rest p remaining = some t) :
    weight t.queue ≤ weight rest + remaining.length := by
  rcases eq_or_ne remaining [] with rfl | hremaining
  · obtain rfl := Option.some.inj h
    exact le_rfl
  · rw [visit, if_neg hremaining] at h
    split_ifs at h
    obtain rfl := Option.some.inj h
    have hparents := (parents_distribute (remaining.take 3) (remaining.drop 3)).length_le
    have hsplit := congrArg List.length (List.take_append_drop 3 remaining)
    rw [List.length_map] at hparents
    rw [List.length_append] at hsplit
    rw [weight, weight, pending_visit hremaining, List.length_append, List.length_append]
    omega

theorem loop_drains {fuel : ℕ} {s t : Shape} (h : loop fuel s = some t)
    (hfuel : weight s.queue ≤ fuel) : t.queue = [] := by
  induction fuel generalizing s with
  | zero =>
    obtain rfl := Option.some.inj h
    exact List.length_eq_zero_iff.mp (by rw [weight] at hfuel; omega)
  | succ fuel ih =>
    obtain ⟨count, queue⟩ := s
    cases queue with
    | nil =>
      obtain rfl := Option.some.inj h
      rfl
    | cons task rest =>
      obtain ⟨p, remaining⟩ := task
      obtain ⟨u, hvisit, hloop⟩ := Option.bind_eq_some_iff.mp h
      have hle := weight_visit hvisit
      refine ih hloop ?_
      simp only [weight, pending, List.flatMap_cons, List.length_cons, List.length_append]
        at hfuel hle ⊢
      omega

end Draining

section Blocking

theorem visit_bound {count p : ℕ} (rest : Tasks) (remaining : List ℕ) (hp : p < count) :
    ∃ count' extra, visit count rest p remaining = some ⟨count', rest ++ extra⟩ ∧
      count' ≤ count + 3 ∧ count ≤ count' ∧ extra.length ≤ 3 := by
  rw [visit]
  split_ifs with hremaining
  · exact ⟨count, [], by rw [List.append_nil], by omega, le_rfl, by simp⟩
  · have hparents := (parents_distribute (remaining.take 3) (remaining.drop 3)).length_le
    have htake := List.length_take_le 3 remaining
    rw [List.length_map] at hparents
    exact ⟨_, _, rfl, by omega, by omega, by omega⟩

theorem loop_blocked {fuel count q : ℕ} {front rest : Tasks} {remaining : List ℕ}
    (hremaining : remaining ≠ []) (hq : count + 3 * front.length ≤ q) (hfuel : front.length < fuel) :
    loop fuel ⟨count, front ++ (q, remaining) :: rest⟩ = none := by
  induction front generalizing fuel count rest with
  | nil =>
    obtain ⟨fuel, rfl⟩ := Nat.exists_eq_succ_of_ne_zero (Nat.ne_zero_of_lt hfuel)
    rw [List.length_nil] at hq
    have hvisit : visit count rest q remaining = none := by
      rw [visit, if_neg hremaining, if_neg (by omega)]
    exact Option.bind_eq_none_iff.mpr fun s hs => by cases hvisit.symm.trans hs
  | cons task front ih =>
    obtain ⟨fuel, rfl⟩ := Nat.exists_eq_succ_of_ne_zero (Nat.ne_zero_of_lt hfuel)
    obtain ⟨p, ids⟩ := task
    rw [List.length_cons] at hq hfuel
    change (visit count (front ++ (q, remaining) :: rest) p ids).bind (loop fuel) = none
    by_cases hp : p < count
    · obtain ⟨count', extra, hvisit, hcount, -, -⟩ :=
        visit_bound (front ++ (q, remaining) :: rest) ids hp
      rw [hvisit, Option.bind_some, List.append_assoc, List.cons_append]
      exact ih (by omega) (by omega)
    · rw [visit, if_neg hp]
      split_ifs
      · exact ih (by omega) (by omega)
      · rfl

end Blocking

def start (total : ℕ) : Shape := ⟨1, [(0, List.range' 1 (total - 1))]⟩

theorem loop_start_small : ∀ n < 41, (loop n (start n)).isSome = true := by decide +kernel

theorem loop_start_medium : ∀ n < 44, 41 ≤ n → loop n (start n) = none := by decide +kernel

theorem distribute_three {remaining : List ℕ} {a b c : ℕ}
    (h : 2 * perChild [a, b, c] remaining < remaining.length) :
    distribute [a, b, c] remaining =
      [(a, portion [a, b, c] remaining 0), (b, portion [a, b, c] remaining 1),
        (c, portion [a, b, c] remaining 2)] := by
  rw [distribute_eq (List.cons_ne_nil a _) (List.ne_nil_of_length_pos (by omega))]
  simp only [List.zipIdx_cons, List.zipIdx_nil, List.filterMap_cons, List.filterMap_nil]
  rw [if_pos (by omega), if_pos (by omega), if_pos (by omega)]

theorem perChild_three (a b c : ℕ) (remaining : List ℕ) :
    perChild [a, b, c] remaining = (remaining.length + 2) / 3 := rfl

theorem visit_three {count p : ℕ} (rest : Tasks) (a b c : ℕ) (remaining : List ℕ) (hp : p < count) :
    visit count rest p (a :: b :: c :: remaining) =
      some ⟨count + 3, rest ++ distribute [a, b, c] remaining⟩ := by
  rw [visit, if_neg (List.cons_ne_nil a _), if_pos hp]
  rfl

theorem portion_last (m : ℕ) :
    portion [1, 2, 3] (List.range' 4 m) 2 =
      List.range' (4 + 2 * ((m + 2) / 3)) (m - 2 * ((m + 2) / 3)) := by
  rw [portion, perChild_three, List.length_range', List.drop_range', Nat.mul_one,
    List.take_of_length_le]
  rw [List.length_range']
  omega

theorem loop_cons (fuel count p : ℕ) (remaining : List ℕ) (rest : Tasks) :
    loop (fuel + 1) ⟨count, (p, remaining) :: rest⟩ =
      (visit count rest p remaining).bind (loop fuel) := rfl

theorem loop_third_child {fuel q : ℕ} (first second : List ℕ) (k : ℕ) (hq : 31 ≤ q)
    (hfuel : 6 < fuel) :
    loop (fuel + 3) ⟨4, [(1, first), (2, second), (3, List.range' q (k + 8))]⟩ = none := by
  obtain ⟨count₁, extra₁, hvisit₁, hcount₁, hmore₁, hextra₁⟩ :=
    visit_bound [(2, second), (3, List.range' q (k + 8))] first (show 1 < 4 by decide)
  rw [loop_cons, hvisit₁, Option.bind_some, List.cons_append]
  obtain ⟨count₂, extra₂, hvisit₂, hcount₂, hmore₂, hextra₂⟩ :=
    visit_bound ([(3, List.range' q (k + 8))] ++ extra₁) second (show 2 < count₁ by omega)
  rw [loop_cons, hvisit₂, Option.bind_some, List.append_assoc, List.singleton_append]
  have hdistribute : distribute [q, q + 1, q + 2] (List.range' (q + 3) (k + 5)) = _ :=
    distribute_three (by rw [perChild_three, List.length_range']; omega)
  change loop (fuel + 1) ⟨count₂, (3, q :: (q + 1) :: (q + 2) :: List.range' (q + 3) (k + 5)) ::
    (extra₁ ++ extra₂)⟩ = none
  rw [loop_cons, visit_three _ _ _ _ _ (by omega), Option.bind_some, hdistribute]
  -- node q is asked for while at most six tasks, of three nodes each, have run before it
  refine loop_blocked ?_ ?_ ?_
  · rw [portion, Nat.zero_mul, List.drop_zero, perChild_three, List.length_range', ne_eq,
      List.take_eq_nil_iff, not_or]
    exact ⟨by omega, List.cons_ne_nil _ _⟩
  · rw [List.length_append]
    omega
  · rw [List.length_append]
    omega

theorem loop_start_large {m : ℕ} (h : 40 ≤ m) : loop (m + 4) (start (m + 4)) = none := by
  -- the root takes validators 1, 2 and 3, and the third of them gets the last portion
  have hdistribute : distribute [1, 2, 3] (List.range' 4 m) = _ :=
    distribute_three (by rw [perChild_three, List.length_range']; omega)
  obtain ⟨k, hk⟩ : ∃ k, m - 2 * ((m + 2) / 3) = k + 8 := ⟨m - 2 * ((m + 2) / 3) - 8, by omega⟩
  change loop (m + 3 + 1) ⟨1, [(0, 1 :: 2 :: 3 :: List.range' 4 m)]⟩ = none
  rw [loop_cons, visit_three [] 1 2 3 _ (by decide), Option.bind_some, hdistribute, portion_last,
    hk, List.nil_append]
  exact loop_third_child _ _ k (by omega) (by omega)

theorem loop_start_isSome_iff (n : ℕ) : (loop n (start n)).isSome = true ↔ n ≤ 40 := by
  rcases Nat.lt_or_ge n 41 with hsmall | hlarge
  · exact iff_of_true (loop_start_small n hsmall) (Nat.lt_succ_iff.mp hsmall)
  · have hnone : loop n (start n) = none := by
      rcases Nat.lt_or_ge n 44 with hmedium | hhuge
      · exact loop_start_medium n hmedium hlarge
      · obtain ⟨m, rfl⟩ := Nat.exists_eq_add_of_le' (show 4 ≤ n by omega)
        exact loop_start_large (by omega)
    rw [hnone]
    exact iff_of_false (by decide) (by omega)

end Shape

section Runs

variable {validators : List ValidatorStake} {maxDepth : ℕ}

theorem loop_outcome (hmax : validators.length ≤ maxDepth) (fuel : ℕ) {s : Build}
    (h : Sound validators s) :
    (Shape.loop fuel s.shape = none ∧
        loop validators maxDepth fuel s = .error .indexOutOfRange) ∨
      ∃ t, loop validators maxDepth fuel s = .ok t ∧ Shape.loop fuel s.shape = some t.shape ∧
        Sound validators t := by
  induction fuel generalizing s with
  | zero => exact .inr ⟨s, rfl, rfl, h⟩
  | succ fuel ih =>
    obtain ⟨nodes, queue, d⟩ := s
    cases queue with
    | nil => exact .inr ⟨_, rfl, rfl, h⟩
    | cons task rest =>
      obtain ⟨p, remaining⟩ := task
      rw [loop, Build.shape, Shape.loop_cons]
      dsimp only
      obtain ⟨hshape, hvisit⟩ | ⟨t, hvisit, hshape, ht⟩ := visit_outcome hmax h
      · rw [hvisit, hshape]
        exact .inl ⟨rfl, rfl⟩
      · rw [hvisit, hshape]
        exact ih ht

theorem seats_range (l : List ValidatorStake) : seats l (List.range l.length) = l := by
  induction l with
  | nil => rfl
  | cons v rest ih =>
    rw [List.length_cons, List.range_succ_eq_map, seats_cons List.getElem?_cons_zero]
    refine congrArg (v :: ·) ?_
    rw [seats, List.filterMap_map]
    exact ih

theorem grown_singleton {node : TurbineNode} (hparent : node.parent = none) (hdepth : node.depth = 0)
    (hchildren : node.children = []) : Grown [node] := by
  have honly : ∀ (i : ℕ) (other : TurbineNode), [node][i]? = some other → i = 0 ∧ other = node := by
    intro i other h
    cases i with
    | zero => exact ⟨rfl, (Option.some.inj h).symm⟩
    | succ i => cases h
  refine ⟨fun other h => ?_, fun i other h => ?_, fun i other h => ?_, fun i other h => ?_⟩
  · rw [(honly 0 other h).2, hparent]
  · exact absurd (honly (i + 1) other h).1 (Nat.succ_ne_zero i)
  · rw [(honly i other h).2, hdepth]
    exact Nat.zero_le i
  · rw [(honly i other h).2, hchildren]
    exact fun c hc => absurd hc List.not_mem_nil

theorem sound_planted (first : ValidatorStake) (others : List ValidatorStake) :
    Sound (first :: others) (planted first (others.length + 1)) := by
  have hpending : pending (planted first (others.length + 1)).queue = List.range' 1 others.length :=
    List.append_nil _
  have hrange : List.range (others.length + 1) = 0 :: List.range' 1 others.length := by
    rw [List.range_eq_range', List.range'_succ]
  have hslots : slots (planted first (others.length + 1)).queue = List.range (others.length + 1) := by
    rw [slots, hpending, hrange]
    rfl
  have hfan : ∀ i, fan (planted first (others.length + 1)).nodes i = 0 := by
    intro i
    cases i with
    | zero => rfl
    | succ i => rfl
  refine ⟨grown_singleton rfl rfl rfl, ?_, fun i hi => ?_, fun i => (hfan i).trans_le (by decide), ?_,
    fun i _ => hfan i, rfl⟩
  · have hall := seats_range (first :: others)
    rw [List.length_cons, hrange, seats_cons List.getElem?_cons_zero] at hall
    rw [hpending]
    exact List.Perm.of_eq hall
  · rw [hpending, List.mem_range'_1] at hi
    rw [List.length_cons]
    omega
  · rw [hslots]
    exact List.nodup_range

theorem loop_planted (first : ValidatorStake) (others : List ValidatorStake)
    (hmax : others.length + 1 ≤ maxDepth) :
    (¬others.length + 1 ≤ 40 ∧ loop (first :: others) maxDepth (others.length + 1)
        (planted first (others.length + 1)) = .error .indexOutOfRange) ∨
      others.length + 1 ≤ 40 ∧ ∃ t, loop (first :: others) maxDepth (others.length + 1)
        (planted first (others.length + 1)) = .ok t ∧ t.queue = [] ∧ Sound (first :: others) t := by
  have hsize := Shape.loop_start_isSome_iff (others.length + 1)
  have hshape : (planted first (others.length + 1)).shape = Shape.start (others.length + 1) := rfl
  obtain ⟨hnone, herror⟩ | ⟨t, hloop, hsome, ht⟩ :=
    loop_outcome hmax (others.length + 1) (sound_planted first others)
  · rw [← hshape, hnone] at hsize
    exact .inl ⟨fun hle => absurd (hsize.mpr hle) (by decide), herror⟩
  · refine .inr ⟨hsize.mp (by rw [← hshape, hsome]; rfl), t, hloop, ?_, ht⟩
    refine Shape.loop_drains hsome ?_
    rw [hshape, Shape.start, Shape.weight]
    simp [pending]
    omega

end Runs

section Result

structure IsTree (validators : List ValidatorStake) (tree : Neighborhood) : Prop where
  members : (tree.nodes.map TurbineNode.entry).Perm validators
  root : ∀ node : TurbineNode, tree.nodes[0]? = some node → tree.root = node ∧ node.parent = none ∧
    ∀ other ∈ tree.nodes, other.stake ≤ node.stake
  parents : ∀ (i : ℕ) (node : TurbineNode), tree.nodes[i + 1]? = some node →
    ∃ (p : ℕ) (parent : TurbineNode), node.parent = some p ∧ tree.nodes[p]? = some parent ∧
      parent.children.count (i + 1) = 1 ∧ node.depth.toNat = parent.depth.toNat + 1
  fanOut : ∀ node ∈ tree.nodes, node.children.length ≤ 3
  paths : ∀ v ∈ validators, ∃ path, tree.pathTo v.1 = some path ∧
    path.head? = tree.nodes[0]? ∧ path.getLast?.map TurbineNode.validator = some v.1

variable {nodes : List TurbineNode}

theorem Grown.climb (h : Grown nodes) {fuel i : ℕ} (hi : i < nodes.length) (hfuel : i < fuel) :
    ∃ path, climb nodes fuel i = some path ∧ path.head? = nodes[i]? ∧ path.getLast? = nodes[0]? := by
  induction fuel generalizing i with
  | zero => omega
  | succ fuel ih =>
    have hnode := List.getElem?_eq_getElem hi
    cases i with
    | zero =>
      refine ⟨[nodes[0]], ?_, hnode.symm, hnode.symm⟩
      rw [Neighborhood.climb, hnode]
      dsimp only
      rw [h.root _ hnode]
    | succ i =>
      obtain ⟨p, parent, hparent, hle, hfound, -, -⟩ := h.child i _ hnode
      have hp : p < nodes.length := (List.getElem?_eq_some_iff.mp hfound).1
      obtain ⟨path, hclimb, hhead, hlast⟩ := ih hp (by omega)
      refine ⟨nodes[i + 1] :: path, ?_, hnode.symm, ?_⟩
      · rw [Neighborhood.climb, hnode]
        dsimp only
        rw [hparent]
        dsimp only
        rw [hclimb, Option.map_some]
      · cases path with
        | nil =>
          rw [hfound] at hhead
          cases hhead
        | cons above path => rw [List.getLast?_cons_cons, hlast]

theorem pathTo_of_mem {tree : Neighborhood} (h : Grown tree.nodes) {key : Bytes32}
    (hkey : ∃ node ∈ tree.nodes, node.validator = key) :
    ∃ path, tree.pathTo key = some path ∧ path.head? = tree.nodes[0]? ∧
      path.getLast?.map TurbineNode.validator = some key := by
  obtain ⟨node, hnode, hvalidator⟩ := hkey
  cases hfind : tree.nodes.findIdx? fun n => n.validator = key with
  | none =>
    have hno := List.findIdx?_eq_none_iff.mp hfind node hnode
    simp [hvalidator] at hno
  | some i =>
    obtain ⟨hi, hmatch, -⟩ := List.findIdx?_eq_some_iff_getElem.mp hfind
    obtain ⟨path, hclimb, hhead, hlast⟩ := h.climb hi hi
    refine ⟨path.reverse, ?_, ?_, ?_⟩
    · rw [pathTo, hfind]
      dsimp only
      rw [hclimb, Option.map_some]
    · rw [List.head?_reverse, hlast]
    · rw [List.getLast?_reverse, hhead, List.getElem?_eq_getElem hi, Option.map_some]
      exact congrArg some (of_decide_eq_true hmatch)

theorem byStake_perm (validators : List ValidatorStake) : (byStake validators).Perm validators :=
  List.perm_insertionSort heavier validators

theorem stake_le_first {validators others : List ValidatorStake} {first : ValidatorStake}
    (h : byStake validators = first :: others) : ∀ v ∈ first :: others, v.2 ≤ first.2 := by
  have : Std.Total heavier := ⟨fun a b => UInt64.le_total b.2 a.2⟩
  have : IsTrans ValidatorStake heavier := ⟨fun _ _ _ hab hbc => UInt64.le_trans hbc hab⟩
  have hsorted := List.pairwise_insertionSort heavier validators
  rw [← byStake, h, List.pairwise_cons] at hsorted
  intro v hv
  rcases List.mem_cons.mp hv with rfl | hv
  · exact UInt64.le_refl _
  · exact hsorted.1 v hv

variable {validators : List ValidatorStake} {t : Build}

theorem Sound.fanOut_le (h : Sound validators t) {node : TurbineNode} (hnode : node ∈ t.nodes) :
    node.children.length ≤ 3 := by
  obtain ⟨i, hi⟩ := List.mem_iff_getElem?.mp hnode
  have hfan := h.fanOut i
  rwa [fan, hi] at hfan

theorem Sound.depth_succ (h : Sound validators t) (hsize : t.nodes.length ≤ 255) {i : ℕ}
    {node : TurbineNode} (hnode : t.nodes[i + 1]? = some node) :
    ∃ (p : ℕ) (parent : TurbineNode), node.parent = some p ∧ t.nodes[p]? = some parent ∧
      parent.children.count (i + 1) = 1 ∧ node.depth.toNat = parent.depth.toNat + 1 := by
  obtain ⟨p, parent, hparent, -, hfound, hdepth, hcount⟩ := h.grown.child i node hnode
  have hp : p < t.nodes.length := (List.getElem?_eq_some_iff.mp hfound).1
  have hle := h.grown.depth p parent hfound
  have hone : (1 : UInt8).toNat = 1 := rfl
  refine ⟨p, parent, hparent, hfound, hcount, ?_⟩
  rw [hdepth, UInt8.toNat_add]
  omega

theorem isTree_of_sound {others : List ValidatorStake} {first : ValidatorStake}
    {root : TurbineNode} {rest : List TurbineNode} (hsorted : byStake validators = first :: others)
    (h : Sound (first :: others) t) (hqueue : t.queue = []) (hnodes : t.nodes = root :: rest)
    (hsize : others.length + 1 ≤ 40) : IsTree validators ⟨root, t.nodes, t.depth⟩ := by
  have hmembers : (t.nodes.map TurbineNode.entry).Perm (first :: others) := by
    have hperm := h.members
    rw [hqueue] at hperm
    exact (List.append_nil _ ▸ hperm :)
  have hlength : t.nodes.length = others.length + 1 := by simpa using hmembers.length_eq
  have hinput : (first :: others).Perm validators := hsorted ▸ byStake_perm validators
  have hroot : root.entry = first := by
    have hhead := h.root
    rw [hnodes] at hhead
    exact Option.some.inj hhead
  refine ⟨hmembers.trans hinput, fun node hnode => ?_, fun i node hnode => ?_,
    fun node hnode => h.fanOut_le hnode, fun v hv => ?_⟩
  · have hsame : root = node := by
      rw [hnodes] at hnode
      exact Option.some.inj hnode
    refine ⟨hsame, h.grown.root node hnode, fun other hother => ?_⟩
    have hentry := hmembers.subset (List.mem_map_of_mem hother)
    have hstake := stake_le_first hsorted other.entry hentry
    rw [← hroot] at hstake
    exact hsame ▸ hstake
  · exact h.depth_succ (by omega) hnode
  · refine pathTo_of_mem h.grown ?_
    obtain ⟨node, hnode, rfl⟩ := List.mem_map.mp ((hmembers.trans hinput).mem_iff.mpr hv)
    exact ⟨node, hnode, rfl⟩

theorem isTree_empty : IsTree [] empty where
  members := List.Perm.nil
  root node h := by cases h
  parents i node h := by cases h
  fanOut node h := by cases h
  paths v h := by cases h

end Result

theorem buildTree_isTree_iff (validators : List ValidatorStake) (maxDepth : ℕ)
    (hmax : validators.length ≤ maxDepth) :
    ((∃ tree, buildTree validators maxDepth = .ok tree ∧ IsTree validators tree) ↔
        validators.length ≤ 40) ∧
      (40 < validators.length → buildTree validators maxDepth = .error .indexOutOfRange) := by
  have hlength := (byStake_perm validators).length_eq
  rw [buildTree]
  cases hsorted : byStake validators with
  | nil =>
    rw [hsorted] at hlength
    obtain rfl := List.length_eq_zero_iff.mp hlength.symm
    exact ⟨iff_of_true ⟨empty, rfl, isTree_empty⟩ (by decide), fun h => absurd h (by decide)⟩
  | cons first others =>
    rw [hsorted, List.length_cons] at hlength
    rw [← hlength] at hmax ⊢
    dsimp only [List.length_cons]
    obtain ⟨hlarge, herror⟩ | ⟨hsmall, t, hloop, hqueue, ht⟩ := loop_planted first others hmax
    · rw [herror]
      exact ⟨iff_of_false (fun ⟨tree, htree, _⟩ => by cases htree) hlarge, fun _ => rfl⟩
    · rw [hloop]
      dsimp only
      cases hnodes : t.nodes with
      | nil =>
        have hroot := ht.root
        rw [hnodes] at hroot
        cases hroot
      | cons root rest =>
        refine ⟨iff_of_true ⟨_, rfl, ?_⟩ hsmall, fun hlarge => absurd hsmall (Nat.not_le.mpr hlarge)⟩
        exact hnodes ▸ isTree_of_sound hsorted ht hqueue hnodes hsmall

def stakes (n : ℕ) : List ValidatorStake :=
  (List.range n).map fun i => (Bytes32.splat (UInt8.ofNat i), UInt64.ofNat i)

theorem forty_validators_build :
    ∃ tree, buildTree (stakes 40) 40 = .ok tree ∧ IsTree (stakes 40) tree :=
  (buildTree_isTree_iff (stakes 40) 40 (by decide)).1.mpr (by decide)

theorem forty_one_validators_panic :
    buildTree (stakes 41) 41 = .error .indexOutOfRange := by
  decide +kernel

end TrustNode.Turbine.Neighborhood
