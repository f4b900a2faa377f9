import Mathlib.Data.List.MinMax
import Mathlib.Data.Prod.Lex
import TrustNode.Base.Trail
import TrustNode.Consensus.Step

namespace TrustNode.Consensus

open Word

namespace Tower

section Chains

inductive Weighs (nodes : Table BlockHash TowerNode) : BlockHash → UInt64 → Prop
  | unknown {hash : BlockHash} (hnode : nodes.lookup hash = none) : Weighs nodes hash 0
  | forkRoot {hash : BlockHash} {node : TowerNode} (hnode : nodes.lookup hash = some node)
      (hparent : node.parentHash = none) : Weighs nodes hash node.weight
  | link {hash parent : BlockHash} {node : TowerNode} {weight : UInt64}
      (hnode : nodes.lookup hash = some node) (hparent : node.parentHash = some parent)
      (hrest : Weighs nodes parent weight) :
      Weighs nodes hash (saturatingAdd node.weight weight)

inductive Lineage (nodes : Table BlockHash TowerNode) : BlockHash → List BlockHash → Prop
  | unknown {hash : BlockHash} (hnode : nodes.lookup hash = none) : Lineage nodes hash []
  | forkRoot {hash : BlockHash} {node : TowerNode} (hnode : nodes.lookup hash = some node)
      (hparent : node.parentHash = none) : Lineage nodes hash [hash]
  | link {hash parent : BlockHash} {node : TowerNode} {path : List BlockHash}
      (hnode : nodes.lookup hash = some node) (hparent : node.parentHash = some parent)
      (hrest : Lineage nodes parent path) : Lineage nodes hash (hash :: path)

def ownWeight (nodes : Table BlockHash TowerNode) (hash : BlockHash) : UInt64 :=
  ((nodes.lookup hash).map TowerNode.weight).getD 0

def chainTotal (nodes : Table BlockHash TowerNode) (path : List BlockHash) : UInt64 :=
  path.foldr (fun hash total => saturatingAdd (ownWeight nodes hash) total) 0

variable {nodes : Table BlockHash TowerNode}

def parentLinks (nodes : Table BlockHash TowerNode) (hash : BlockHash) :
    Option (Option BlockHash) := (nodes.lookup hash).map TowerNode.parentHash

theorem lineage_iff_trail {hash : BlockHash} {path : List BlockHash} :
    Lineage nodes hash path ↔ Trail (parentLinks nodes) hash path := by
  constructor
  · intro h
    induction h with
    | unknown hnode => exact .missing (Option.map_eq_none_iff.mpr hnode)
    | forkRoot hnode hparent => exact .root (Option.map_eq_some_iff.mpr ⟨_, hnode, hparent⟩)
    | link hnode hparent _ ih => exact .link (Option.map_eq_some_iff.mpr ⟨_, hnode, hparent⟩) ih
  · intro h
    induction h with
    | missing hnext => exact .unknown (Option.map_eq_none_iff.mp hnext)
    | root hnext =>
      obtain ⟨node, hnode, hparent⟩ := Option.map_eq_some_iff.mp hnext
      exact .forkRoot hnode hparent
    | link hnext _ ih =>
      obtain ⟨node, hnode, hparent⟩ := Option.map_eq_some_iff.mp hnext
      exact .link hnode hparent ih

theorem Lineage.unique {hash : BlockHash} {path path' : List BlockHash}
    (h : Lineage nodes hash path) (h' : Lineage nodes hash path') :
    path = path' :=
  (lineage_iff_trail.mp h).unique (lineage_iff_trail.mp h')

theorem ownWeight_of_lookup {hash : BlockHash} {node : TowerNode}
    (h : nodes.lookup hash = some node) : ownWeight nodes hash = node.weight := by
  rw [ownWeight, h]
  rfl

theorem Weighs.lineage {hash : BlockHash} {w : UInt64} (h : Weighs nodes hash w) :
    ∃ path, Lineage nodes hash path ∧ w = chainTotal nodes path := by
  induction h with
  | unknown hnode => exact ⟨_, .unknown hnode, rfl⟩
  | @forkRoot hash node hnode hparent =>
    refine ⟨_, .forkRoot hnode hparent, ?_⟩
    rw [chainTotal, List.foldr_cons, List.foldr_nil, ownWeight_of_lookup hnode,
      saturatingAdd_zero]
  | link hnode hparent hrest ih =>
    obtain ⟨path, hpath, rfl⟩ := ih
    refine ⟨_, .link hnode hparent hpath, ?_⟩
    rw [← ownWeight_of_lookup hnode]
    rfl

theorem Weighs.exists_lineage {hash : BlockHash} {w : UInt64} (h : Weighs nodes hash w) :
    ∃ path, Lineage nodes hash path := by
  obtain ⟨path, hpath, -⟩ := h.lineage
  exact ⟨path, hpath⟩

theorem Weighs.unique {hash : BlockHash} {w w' : UInt64} (h : Weighs nodes hash w)
    (h' : Weighs nodes hash w') : w = w' := by
  obtain ⟨path, hpath, rfl⟩ := h.lineage
  obtain ⟨path', hpath', rfl⟩ := h'.lineage
  rw [hpath.unique hpath']

theorem Weighs.congr {nodes' : Table BlockHash TowerNode}
    (hsame : ∀ hash, (nodes.lookup hash).map (fun n => (n.weight, n.parentHash)) =
      (nodes'.lookup hash).map fun n => (n.weight, n.parentHash))
    {hash : BlockHash} {w : UInt64} (h : Weighs nodes hash w) : Weighs nodes' hash w := by
  induction h with
  | @unknown hash hnode =>
    have heq := hsame hash
    rw [hnode, Option.map_none, eq_comm, Option.map_eq_none_iff] at heq
    exact .unknown heq
  | @forkRoot hash node hnode hparent =>
    have heq := hsame hash
    rw [hnode, Option.map_some, eq_comm] at heq
    obtain ⟨node', hnode', hdata⟩ := Option.map_eq_some_iff.mp heq
    obtain ⟨hweight, hparent'⟩ := Prod.mk.inj hdata
    rw [← hweight]
    exact .forkRoot hnode' (hparent'.trans hparent)
  | @link hash parent node weight hnode hparent hrest ih =>
    have heq := hsame hash
    rw [hnode, Option.map_some, eq_comm] at heq
    obtain ⟨node', hnode', hdata⟩ := Option.map_eq_some_iff.mp heq
    obtain ⟨hweight, hparent'⟩ := Prod.mk.inj hdata
    rw [← hweight]
    exact .link hnode' (hparent'.trans hparent) ih

def MemoSound (nodes : Table BlockHash TowerNode) (memo : Memo) : Prop :=
  ∀ hash w, memo.lookup hash = some w → Weighs nodes hash w

theorem MemoSound.insert {memo : Memo} (h : MemoSound nodes memo) {hash : BlockHash} {w : UInt64}
    (hw : Weighs nodes hash w) : MemoSound nodes (memo.insert hash w) := by
  intro j v hj
  rw [Table.lookup_insert] at hj
  split at hj
  · next heq =>
    subst heq
    obtain rfl := Option.some.inj hj
    exact hw
  · exact h j v hj

theorem chainWeight_eq_some {fuel : ℕ} {hash : BlockHash} {memo memo' : Memo} {w : UInt64}
    (hmemo : MemoSound nodes memo) (h : chainWeight nodes fuel hash memo = some (w, memo')) :
    Weighs nodes hash w ∧ MemoSound nodes memo' := by
  induction fuel generalizing hash w memo' with
  | zero => cases h
  | succ fuel ih =>
    unfold chainWeight at h
    split at h
    · next hfound =>
      obtain ⟨rfl, rfl⟩ := Prod.mk.inj (Option.some.inj h)
      exact ⟨hmemo hash _ hfound, hmemo⟩
    · split at h
      · next hnode =>
        obtain ⟨rfl, rfl⟩ := Prod.mk.inj (Option.some.inj h)
        exact ⟨.unknown hnode, hmemo⟩
      · next node hnode =>
        split at h
        · next hparent =>
          obtain ⟨rfl, rfl⟩ := Prod.mk.inj (Option.some.inj h)
          have hw : Weighs nodes hash node.weight := .forkRoot hnode hparent
          exact ⟨hw, hmemo.insert hw⟩
        · next parent hparent =>
          obtain ⟨⟨weight, rest⟩, hrest, heq⟩ := Option.map_eq_some_iff.mp h
          obtain ⟨rfl, rfl⟩ := Prod.mk.inj heq
          obtain ⟨hweight, hsound⟩ := ih hrest
          have hw : Weighs nodes hash (saturatingAdd node.weight weight) :=
            .link hnode hparent hweight
          exact ⟨hw, hsound.insert hw⟩

def Ranked (nodes : Table BlockHash TowerNode) (rank : BlockHash → ℕ) : Prop :=
  ∀ hash node parent, nodes.lookup hash = some node → node.parentHash = some parent →
    rank parent < rank hash

theorem chainWeight_isSome {rank : BlockHash → ℕ} (hrank : Ranked nodes rank) {fuel : ℕ}
    {hash : BlockHash} (hfuel : rank hash < fuel) (memo : Memo) :
    (chainWeight nodes fuel hash memo).isSome = true := by
  induction fuel generalizing hash with
  | zero => omega
  | succ fuel ih =>
    unfold chainWeight
    split
    · rfl
    · split
      · rfl
      · next node hnode =>
        split
        · rfl
        · next parent hparent =>
          rw [Option.isSome_map]
          have hlt := hrank hash node parent hnode hparent
          exact ih (by omega)

end Chains

section Heads

def slotAt (t : Tower) (hash : BlockHash) : UInt64 :=
  ((t.nodes.lookup hash).map TowerNode.slot).getD 0

def key (c : Candidate) : ℕ ×ₗ ℕ := toLex (c.weight.toNat, c.slot.toNat)

structure IsCandidate (t : Tower) (c : Candidate) : Prop where
  leaf : t.isLeaf c.hash = true
  weight : Weighs t.nodes c.hash c.weight
  slot : c.slot = t.slotAt c.hash

def IsBest (t : Tower) (hash : BlockHash) : Prop :=
  ∃ c, IsCandidate t c ∧ c.hash = hash ∧ ∀ c', IsCandidate t c' → key c' ≤ key c

theorem better_eq (c best : Candidate) : better c (some best) = decide (key best < key c) := by
  rw [better, Bool.eq_iff_iff]
  simp only [Bool.or_eq_true, Bool.and_eq_true, decide_eq_true_eq, key, Prod.Lex.toLex_lt_toLex,
    UInt64.lt_iff_toNat_lt, ← UInt64.toNat_inj]
  tauto

theorem consider_eq_some {t : Tower} {fuel : ℕ} {acc next : Option Candidate × Memo}
    {leaf : BlockHash} (hmemo : MemoSound t.nodes acc.2)
    (h : t.consider fuel acc leaf = some next) :
    MemoSound t.nodes next.2 ∧ ∃ weight, Weighs t.nodes leaf weight ∧
      next.1 = List.argAux (fun b c => key c < key b) acc.1 ⟨leaf, weight, t.slotAt leaf⟩ := by
  obtain ⟨⟨weight, memo⟩, hweight, rfl⟩ := Option.map_eq_some_iff.mp h
  obtain ⟨hw, hsound⟩ := chainWeight_eq_some hmemo hweight
  refine ⟨hsound, weight, hw, ?_⟩
  cases hbest : acc.1 with
  | none => rfl
  | some best =>
    simp only [better_eq, decide_eq_true_eq]
    rfl

theorem foldlM_consider {t : Tower} {fuel : ℕ} {leaves : List BlockHash}
    {acc final : Option Candidate × Memo} (hmemo : MemoSound t.nodes acc.2)
    (h : leaves.foldlM (t.consider fuel) acc = some final) :
    ∃ candidates : List Candidate, candidates.map Candidate.hash = leaves ∧
      (∀ c ∈ candidates, Weighs t.nodes c.hash c.weight ∧ c.slot = t.slotAt c.hash) ∧
      final.1 = candidates.foldl (List.argAux fun b c => key c < key b) acc.1 := by
  induction leaves generalizing acc with
  | nil =>
    obtain rfl := Option.some.inj h
    exact ⟨[], rfl, by simp, rfl⟩
  | cons leaf rest ih =>
    rw [List.foldlM_cons] at h
    obtain ⟨next, hnext, hrest⟩ := Option.bind_eq_some_iff.mp h
    obtain ⟨hsound, weight, hweight, hbest⟩ := consider_eq_some hmemo hnext
    obtain ⟨candidates, hhashes, hcandidates, hfinal⟩ := ih hsound hrest
    refine ⟨⟨leaf, weight, t.slotAt leaf⟩ :: candidates, by simp [hhashes], ?_, ?_⟩
    · intro c hc
      rcases List.mem_cons.mp hc with rfl | hc
      · exact ⟨hweight, rfl⟩
      · exact hcandidates c hc
    · rw [List.foldl_cons, ← hbest]
      exact hfinal

theorem mem_nodes_of_isLeaf {t : Tower} {hash : BlockHash} (h : t.isLeaf hash = true) :
    hash ∈ t.nodes := by
  unfold isLeaf at h
  split at h
  · next node hnode => exact Finmap.mem_of_lookup_eq_some hnode
  · cases h

theorem mem_leaves {t : Tower} {order : IterationOrder} {hash : BlockHash} :
    hash ∈ t.leaves order ↔ t.isLeaf hash = true := by
  rw [leaves, List.mem_filter, (order.perm _).mem_iff, Table.mem_sorted]
  refine and_iff_right_of_imp fun hleaf => ?_
  rw [Finset.mem_val, Finmap.mem_keys]
  exact mem_nodes_of_isLeaf hleaf

theorem IsCandidate.unique {t : Tower} {c c' : Candidate} (h : IsCandidate t c)
    (h' : IsCandidate t c') (hhash : c.hash = c'.hash) : c = c' := by
  have hslot : c.slot = c'.slot := by rw [h.slot, h'.slot, hhash]
  have hweight : c.weight = c'.weight := by
    have hw := h.weight
    rw [hhash] at hw
    exact hw.unique h'.weight
  cases c
  cases c'
  simp_all

theorem memoSound_empty (nodes : Table BlockHash TowerNode) : MemoSound nodes ∅ := by
  intro hash w hlookup
  simp at hlookup

theorem updateBestHead_eq_argmax {t u : Tower} {order : IterationOrder}
    (h : t.updateBestHead order = some u) :
    ∃ candidates : List Candidate, candidates.map Candidate.hash = t.leaves order ∧
      (∀ c ∈ candidates, IsCandidate t c) ∧
      u.bestHead = ((candidates.argmax key).map Candidate.hash).or t.bestHead := by
  obtain ⟨⟨best, memo⟩, hfold, rfl⟩ := Option.map_eq_some_iff.mp h
  obtain ⟨candidates, hhashes, hcandidates, hbest⟩ :=
    foldlM_consider (memoSound_empty t.nodes) hfold
  refine ⟨candidates, hhashes, fun c hc => ?_, ?_⟩
  · have hleaf : c.hash ∈ t.leaves order := hhashes ▸ List.mem_map_of_mem hc
    exact ⟨mem_leaves.mp hleaf, (hcandidates c hc).1, (hcandidates c hc).2⟩
  · change best = candidates.argmax key at hbest
    rw [← hbest]
    cases best <;> rfl

theorem bestHead_updateBestHead {t u : Tower} {order : IterationOrder}
    (h : t.updateBestHead order = some u) :
    (∃ hash, u.bestHead = some hash ∧ IsBest t hash) ∨
      u.bestHead = t.bestHead ∧ ∀ hash, t.isLeaf hash = false := by
  obtain ⟨candidates, hhashes, hall, hhead⟩ := updateBestHead_eq_argmax h
  have hleaf : ∀ hash, t.isLeaf hash = true ↔ ∃ c ∈ candidates, c.hash = hash := by
    intro hash
    rw [← mem_leaves, ← hhashes, List.mem_map]
  cases hmax : candidates.argmax key with
  | none =>
    right
    rw [hmax] at hhead
    refine ⟨hhead, fun hash => ?_⟩
    rw [Bool.eq_false_iff, Ne, hleaf, List.argmax_eq_none.mp hmax]
    simp
  | some c =>
    left
    rw [hmax] at hhead
    refine ⟨c.hash, hhead, c, hall c (List.argmax_mem hmax), rfl, fun c' hc' => ?_⟩
    obtain ⟨d, hd, hhash⟩ := (hleaf c'.hash).mp hc'.leaf
    rw [hc'.unique (hall d hd) hhash.symm]
    exact List.le_of_mem_argmax hd hmax

end Heads

section Progress

structure Grounded (t : Tower) (rank : BlockHash → ℕ) : Prop where
  known : ∀ slot hash, t.slotToHash.lookup slot = some hash → hash ∈ t.nodes
  parents : ∀ hash node parent, t.nodes.lookup hash = some node →
    node.parentHash = some parent → parent ∈ t.nodes ∧ rank parent < rank hash
  bounded : ∀ hash ∈ t.nodes, rank hash < t.nodes.keys.card

namespace Grounded

variable {C : Crypto} {t t' : Tower} {rank : BlockHash → ℕ}

theorem of_unvoted (h : Unvoted t) : Grounded t fun _ => 0 := by
  refine ⟨fun slot hash hslot => ?_, fun hash node parent hnode => ?_, fun hash hmem => ?_⟩
  · simp [h.slotToHash] at hslot
  · simp [h.nodes] at hnode
  · rw [h.nodes] at hmem
    exact absurd hmem Finmap.notMem_empty

theorem congr (h : Grounded t rank) (hnodes : t'.nodes = t.nodes)
    (hslots : t'.slotToHash = t.slotToHash) : Grounded t' rank := by
  refine ⟨?_, ?_, ?_⟩
  · rw [hslots, hnodes]
    exact h.known
  · rw [hnodes]
    exact h.parents
  · rw [hnodes]
    exact h.bounded

theorem parent_baseNode (h : Grounded t rank) {vote : Vote} {parent : BlockHash}
    (hparent : (t.baseNode vote).parentHash = some parent) :
    parent ∈ t.nodes ∧ (vote.blockHash ∈ t.nodes → rank parent < rank vote.blockHash) := by
  rcases t.baseNode_cases vote with ⟨hnone, hfresh⟩ | hold
  · rw [hfresh] at hparent
    obtain ⟨slot, -, hslot⟩ := Option.bind_eq_some_iff.mp hparent
    refine ⟨h.known slot parent hslot, fun hmem => ?_⟩
    rw [← Finmap.lookup_isSome, hnone] at hmem
    cases hmem
  · obtain ⟨hmem, hlt⟩ := h.parents _ _ _ hold hparent
    exact ⟨hmem, fun _ => hlt⟩

theorem cast (h : Grounded t rank) (vote : Vote) :
    Grounded (t.cast vote) fun hash => if hash ∈ t.nodes then rank hash else t.nodes.keys.card := by
  have hkeys : (t.cast vote).nodes.keys = insert vote.blockHash t.nodes.keys := by
    ext hash
    rw [Finset.mem_insert, Finmap.mem_keys, Finmap.mem_keys, mem_nodes_cast]
  refine ⟨fun slot hash hslot => ?_, fun hash node parent hnode hparent => ?_, fun hash hmem => ?_⟩
  · rw [mem_nodes_cast]
    rw [slotToHash_cast, Table.lookup_insert] at hslot
    split at hslot
    · exact Or.inl (Option.some.inj hslot).symm
    · exact Or.inr (h.known slot hash hslot)
  · have hold : parent ∈ t.nodes ∧ (hash ∈ t.nodes → rank parent < rank hash) := by
      obtain ⟨m, rfl, ⟨rfl, rfl⟩ | ⟨-, hm⟩⟩ := lookup_cast_eq_some t vote hnode
      · rw [parentHash_linked, parentHash_votedNode] at hparent
        exact h.parent_baseNode hparent
      · rw [parentHash_linked] at hparent
        obtain ⟨hmem, hlt⟩ := h.parents _ _ _ hm hparent
        exact ⟨hmem, fun _ => hlt⟩
    refine ⟨(mem_nodes_cast t vote parent).mpr (Or.inr hold.1), ?_⟩
    rw [if_pos hold.1]
    split
    · next hmem => exact hold.2 hmem
    · exact h.bounded parent hold.1
  · rw [hkeys]
    split
    · next hmem =>
      have hle := Finset.card_le_card (Finset.subset_insert vote.blockHash t.nodes.keys)
      have hlt := h.bounded hash hmem
      omega
    · next hnew =>
      have hhash : hash = vote.blockHash :=
        ((mem_nodes_cast t vote hash).mp hmem).resolve_right hnew
      subst hhash
      rw [Finset.card_insert_of_notMem (by rwa [Finmap.mem_keys])]
      exact Nat.lt_succ_self _

theorem foldlM_consider_isSome (h : Grounded t rank) {leaves : List BlockHash}
    (hleaves : ∀ leaf ∈ leaves, t.isLeaf leaf = true) (acc : Option Candidate × Memo) :
    (leaves.foldlM (t.consider t.chainFuel) acc).isSome = true := by
  have hrank : Ranked t.nodes rank := fun hash node parent hnode hparent =>
    (h.parents hash node parent hnode hparent).2
  induction leaves generalizing acc with
  | nil => rfl
  | cons leaf rest ih =>
    have hmem : leaf ∈ t.nodes := mem_nodes_of_isLeaf (hleaves leaf List.mem_cons_self)
    have hfuel : rank leaf < t.chainFuel := Nat.lt_succ_of_lt (h.bounded leaf hmem)
    obtain ⟨weighed, hweighed⟩ :=
      Option.isSome_iff_exists.mp (chainWeight_isSome hrank hfuel acc.2)
    rw [List.foldlM_cons, consider, hweighed]
    exact ih (fun l hl => hleaves l (List.mem_cons_of_mem leaf hl)) _

theorem updateBestHead_isSome (h : Grounded t rank) (order : IterationOrder) :
    (t.updateBestHead order).isSome = true := by
  rw [updateBestHead, Option.isSome_map]
  exact h.foldlM_consider_isSome (fun leaf hleaf => mem_leaves.mp hleaf) _

theorem processVote_isSome (h : Grounded t rank) (order : IterationOrder) (vote : Vote) :
    (t.processVote C order vote).isSome = true := by
  unfold processVote
  split
  · rfl
  · split
    · rfl
    · split
      · rfl
      · rw [Option.isSome_map]
        exact (h.cast vote).updateBestHead_isSome order

theorem reject (h : Grounded t rank) {vote : Vote} (hstep : Rejects C t vote t') :
    Grounded t' rank :=
  h.congr hstep.nodes hstep.slotToHash

theorem accept (h : Grounded t rank) {order : IterationOrder} {vote : Vote}
    (hstep : Accepts C order t vote t') : ∃ rank', Grounded t' rank' := by
  refine ⟨_, (h.cast vote).congr hstep.nodes ?_⟩
  rw [hstep.slotToHash, slotToHash_cast]

theorem run {allowed : Tower → Vote → Prop} {start : Tower} {results : List (Vote × Bool)}
    (hstart : Grounded start rank) (hrun : Votes C allowed start results t) :
    ∃ rank', Grounded t rank' := by
  refine hrun.invariant (I := fun _ t => ∃ rank', Grounded t rank') ⟨rank, hstart⟩ ?_ ?_
  · rintro results t vote t' ⟨before, hbefore⟩ - hreject
    exact ⟨before, hbefore.reject hreject⟩
  · rintro results t order vote t' ⟨before, hbefore⟩ - haccept
    exact hbefore.accept haccept

end Grounded

end Progress

section Selection

def outline (n : TowerNode) : UInt64 × UInt64 × Option BlockHash × Bool :=
  (n.slot, n.weight, n.parentHash, n.children.isEmpty)

structure SameTree (t t' : Tower) : Prop where
  rootSlot : t.rootSlot = t'.rootSlot
  nodes : ∀ hash, (t.nodes.lookup hash).map outline = (t'.nodes.lookup hash).map outline

namespace SameTree

variable {t t' : Tower}

theorem symm (h : SameTree t t') : SameTree t' t :=
  ⟨h.rootSlot.symm, fun hash => (h.nodes hash).symm⟩

theorem project {α : Type} (h : SameTree t t') (f : UInt64 × UInt64 × Option BlockHash × Bool → α)
    (hash : BlockHash) :
    (t.nodes.lookup hash).map (fun n => f (outline n)) =
      (t'.nodes.lookup hash).map fun n => f (outline n) := by
  have heq := congrArg (Option.map f) (h.nodes hash)
  rwa [Option.map_map, Option.map_map] at heq

theorem isLeaf_eq (t : Tower) (hash : BlockHash) :
    t.isLeaf hash = ((t.nodes.lookup hash).map fun n =>
      decide (t.rootSlot ≤ (outline n).1) && (outline n).2.2.2).getD false := by
  unfold isLeaf
  cases t.nodes.lookup hash with
  | none => rfl
  | some n => rfl

theorem of_nodes (hroot : t.rootSlot = t'.rootSlot) (hnodes : t.nodes = t'.nodes) :
    SameTree t t' :=
  ⟨hroot, fun hash => by rw [hnodes]⟩

theorem isLeaf (h : SameTree t t') (hash : BlockHash) : t.isLeaf hash = t'.isLeaf hash := by
  rw [isLeaf_eq, isLeaf_eq, h.rootSlot, h.project fun o => decide (t'.rootSlot ≤ o.1) && o.2.2.2]

theorem isCandidate (h : SameTree t t') {c : Candidate} (hc : IsCandidate t c) :
    IsCandidate t' c := by
  refine ⟨(h.isLeaf c.hash).symm.trans hc.leaf, ?_, ?_⟩
  · exact hc.weight.congr (h.project fun o => (o.2.1, o.2.2.1))
  · rw [hc.slot]
    exact congrArg (Option.getD · 0) (h.project Prod.fst c.hash)

theorem isBest (h : SameTree t t') {hash : BlockHash} (hbest : IsBest t hash) :
    IsBest t' hash := by
  obtain ⟨c, hc, hhash, hmax⟩ := hbest
  exact ⟨c, h.isCandidate hc, hhash, fun c' hc' => hmax c' (h.symm.isCandidate hc')⟩

end SameTree

structure Headed (t : Tower) : Prop where
  head : ∀ hash, t.bestHead = some hash → ∃ n, t.nodes.lookup hash = some n ∧ t.rootSlot ≤ n.slot
  best : (∃ hash, t.isLeaf hash = true) → ∃ hash, t.bestHead = some hash ∧ IsBest t hash

namespace Headed

variable {C : Crypto} {order : IterationOrder} {t t' : Tower} {vote : Vote}

theorem of_unvoted (h : Unvoted t) : Headed t := by
  refine ⟨fun hash hhead => ?_, ?_⟩
  · rw [h.bestHead] at hhead
    cases hhead
  · rintro ⟨hash, hleaf⟩
    simp [isLeaf, h.nodes] at hleaf

theorem lookup_of_isLeaf {hash : BlockHash} (h : t.isLeaf hash = true) :
    ∃ n, t.nodes.lookup hash = some n ∧ t.rootSlot ≤ n.slot := by
  unfold isLeaf at h
  split at h
  · next n hn =>
    rw [Bool.and_eq_true, decide_eq_true_eq] at h
    exact ⟨n, hn, h.1⟩
  · cases h

theorem lookup_cast_of_lookup {hash : BlockHash} {n : TowerNode}
    (hn : t.nodes.lookup hash = some n) (vote : Vote) :
    ∃ n', (t.cast vote).nodes.lookup hash = some n' ∧ n'.slot = n.slot := by
  rw [lookup_cast]
  split
  · next heq =>
    subst heq
    refine ⟨_, rfl, ?_⟩
    rw [slot_linked, slot_votedNode, baseNode, hn, Option.getD_some]
  · refine ⟨_, by rw [hn]; rfl, ?_⟩
    rw [slot_linked]

theorem accept (h : Headed t) (hstep : Accepts C order t vote t') : Headed t' := by
  obtain ⟨u, hu, ht'⟩ := hstep.updated
  have hhead : t'.bestHead = u.bestHead := by rw [ht']
  have hcast : (t.cast vote).rootSlot = t.rootSlot ∧ (t.cast vote).bestHead = t.bestHead := by
    rw [cast, linkParent_eq]
    exact ⟨rfl, rfl⟩
  have hsame : SameTree (t.cast vote) t' :=
    .of_nodes (hcast.1.trans hstep.rootSlot.symm) hstep.nodes.symm
  rcases bestHead_updateBestHead hu with ⟨best, hsome, hisBest⟩ | ⟨hkept, hnone⟩
  · have hbest := hsame.isBest hisBest
    refine ⟨fun hash heq => ?_, fun _ => ⟨best, hhead.trans hsome, hbest⟩⟩
    obtain rfl : best = hash := by
      rw [hhead, hsome] at heq
      exact Option.some.inj heq
    obtain ⟨c, hc, rfl, -⟩ := hbest
    exact lookup_of_isLeaf hc.leaf
  · refine ⟨fun hash heq => ?_, ?_⟩
    · rw [hhead, hkept, hcast.2] at heq
      obtain ⟨n, hn, hle⟩ := h.head hash heq
      obtain ⟨n', hn', hslot⟩ := lookup_cast_of_lookup hn vote
      refine ⟨n', hstep.nodes ▸ hn', ?_⟩
      rwa [hstep.rootSlot, hslot]
    · rintro ⟨hash, hleaf⟩
      have hfalse := hnone hash
      rw [hsame.isLeaf, hleaf] at hfalse
      cases hfalse

theorem reject (h : Headed t) (hstep : Rejects C t vote t') : Headed t' := by
  have hsame : SameTree t t' := .of_nodes hstep.rootSlot.symm hstep.nodes.symm
  refine ⟨fun hash heq => ?_, ?_⟩
  · rw [hstep.bestHead] at heq
    rw [hstep.nodes, hstep.rootSlot]
    exact h.head hash heq
  · rintro ⟨hash, hleaf⟩
    obtain ⟨best, hsome, hbest⟩ := h.best ⟨hash, (hsame.isLeaf hash).trans hleaf⟩
    exact ⟨best, hstep.bestHead.trans hsome, hsame.isBest hbest⟩

theorem run {allowed : Tower → Vote → Prop} {start : Tower} {results : List (Vote × Bool)}
    (hstart : Headed start) (hrun : Votes C allowed start results t) : Headed t :=
  hrun.invariant (I := fun _ t => Headed t) hstart (fun h _ hstep => h.reject hstep)
    fun h _ hstep => h.accept hstep

end Headed

theorem Headed.bestHead_eq {t t' : Tower} (h : Headed t) (h' : Headed t') (hsame : SameTree t t')
    (hslots : ∀ c c', IsCandidate t c → IsCandidate t c' → c.slot = c'.slot → c.hash = c'.hash)
    (hleaf : ∀ hash n, t.nodes.lookup hash = some n → t.rootSlot ≤ n.slot →
      ∃ leaf, t.isLeaf leaf = true) : t.bestHead = t'.bestHead := by
  have hone : ∀ leaf, t.isLeaf leaf = true → t.bestHead = t'.bestHead := by
    intro leaf hl
    obtain ⟨best, hbest, c, hc, rfl, hmax⟩ := h.best ⟨leaf, hl⟩
    obtain ⟨best', hbest', c', hc', rfl, hmax'⟩ := h'.best ⟨c.hash, (hsame.isCandidate hc).leaf⟩
    have hback := hsame.symm.isCandidate hc'
    have hkey : key c = key c' :=
      le_antisymm (hmax' c (hsame.isCandidate hc)) (hmax c' hback)
    have hslot : c.slot = c'.slot :=
      UInt64.toNat_inj.mp (congrArg (fun k => (ofLex k).2) hkey)
    rw [hbest, hbest', hslots c c' hc hback hslot]
  cases hhead : t.bestHead with
  | some hash =>
    obtain ⟨n, hn, hle⟩ := h.head hash hhead
    obtain ⟨leaf, hl⟩ := hleaf hash n hn hle
    rw [← hhead]
    exact hone leaf hl
  | none =>
    cases hhead' : t'.bestHead with
    | none => rfl
    | some hash =>
      obtain ⟨n', hn', hle⟩ := h'.head hash hhead'
      have hnode := hsame.nodes hash
      rw [hn', Option.map_some] at hnode
      obtain ⟨n, hn, hout⟩ := Option.map_eq_some_iff.mp hnode
      have hslot : n.slot = n'.slot := congrArg Prod.fst hout
      obtain ⟨leaf, hl⟩ := hleaf hash n hn (by rw [hsame.rootSlot, hslot]; exact hle)
      rw [← hhead, ← hhead']
      exact hone leaf hl

end Selection

end Tower

end TrustNode.Consensus
