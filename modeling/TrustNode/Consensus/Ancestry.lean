import TrustNode.Base.Acyclic
import TrustNode.Base.Sha256
import TrustNode.Consensus.Calls
import TrustNode.Consensus.ForkChoice

namespace TrustNode.Consensus

open Relation
open Word

namespace Tower

section Lineages

variable {nodes : Table BlockHash TowerNode} {hash parent : BlockHash} {path : List BlockHash}

def Points (nodes : Table BlockHash TowerNode) (hash parent : BlockHash) : Prop :=
  ∃ node, nodes.lookup hash = some node ∧ node.parentHash = some parent

def pathWeight (nodes : Table BlockHash TowerNode) (path : List BlockHash) : ℕ :=
  (path.map fun hash => (ownWeight nodes hash).toNat).sum

theorem points_eq_edge : Points nodes = Trail.Edge (parentLinks nodes) := by
  funext hash parent
  exact propext Option.map_eq_some_iff.symm

theorem Lineage.nodup (h : Lineage nodes hash path) : path.Nodup := (lineage_iff_trail.mp h).nodup

theorem Lineage.not_cycle (h : Lineage nodes hash path) : ¬TransGen (Points nodes) hash hash := by
  rw [points_eq_edge]
  exact (lineage_iff_trail.mp h).not_cycle

theorem mem_keys_of_points (h : Points nodes hash parent) : hash ∈ nodes.keys := by
  obtain ⟨node, hnode, -⟩ := h
  exact Finmap.mem_keys.mpr (Finmap.mem_of_lookup_eq_some hnode)

theorem Lineage.mem_nodes (h : Lineage nodes hash path) {other : BlockHash}
    (hother : other ∈ path) : other ∈ nodes.keys := by
  have hstored := ((lineage_iff_trail.mp h).mem_iff.mp hother).2
  rw [parentLinks, Option.isSome_map] at hstored
  exact Finmap.mem_keys.mpr (Finmap.lookup_isSome.mp hstored)

theorem Lineage.length_le (h : Lineage nodes hash path) : path.length ≤ nodes.keys.card := by
  rw [← List.toFinset_card_of_nodup h.nodup]
  exact Finset.card_le_card fun other hother => h.mem_nodes (List.mem_toFinset.mp hother)

theorem Lineage.chainWeight_isSome (h : Lineage nodes hash path) {fuel : ℕ}
    (hfuel : path.length < fuel) (memo : Memo) :
    (chainWeight nodes fuel hash memo).isSome = true := by
  induction h generalizing fuel with
  | unknown hnode =>
    obtain ⟨fuel, rfl⟩ := Nat.exists_eq_add_of_lt hfuel
    rw [chainWeight, hnode]
    split <;> rfl
  | forkRoot hnode hparent =>
    obtain ⟨fuel, rfl⟩ := Nat.exists_eq_add_of_lt hfuel
    rw [chainWeight, hnode]
    split
    · rfl
    · simp only [hparent, Option.isSome_some]
  | link hnode hparent hrest ih =>
    cases fuel with
    | zero => cases hfuel
    | succ fuel =>
      rw [chainWeight, hnode]
      split
      · rfl
      · simp only [hparent, Option.isSome_map]
        exact ih (Nat.lt_of_succ_lt_succ hfuel)

theorem toNat_chainTotal (nodes : Table BlockHash TowerNode) (path : List BlockHash) :
    (chainTotal nodes path).toNat = min (pathWeight nodes path) (2 ^ 64 - 1) :=
  toNat_foldr_saturatingAdd (ownWeight nodes) path

theorem lineage_of_acyclic (h : Acyclic (Points nodes)) (hash : BlockHash) :
    ∃ path, Lineage nodes hash path := by
  simp only [lineage_iff_trail]
  rw [Trail.exists_iff (S := nodes.keys) fun a b hedge => ?_, ← points_eq_edge]
  · exact fun x _ => h x
  · rw [← points_eq_edge] at hedge
    exact mem_keys_of_points hedge

end Lineages

section Termination

variable {t : Tower}

theorem chainWeight_of_cycle {nodes : Table BlockHash TowerNode} {hash : BlockHash}
    (h : TransGen (Points nodes) hash hash) (fuel : ℕ) : chainWeight nodes fuel hash ∅ = none := by
  cases hchain : chainWeight nodes fuel hash ∅ with
  | none => rfl
  | some r =>
    obtain ⟨path, hpath⟩ := (chainWeight_eq_some (memoSound_empty nodes) hchain).1.exists_lineage
    exact absurd h hpath.not_cycle

theorem consider_isSome {leaf : BlockHash} {path : List BlockHash}
    (h : Lineage t.nodes leaf path) (acc : Option Candidate × Memo) :
    ∃ next, t.consider t.chainFuel acc leaf = some next := by
  have hfuel : path.length < t.chainFuel := Nat.lt_succ_of_le h.length_le
  rw [← Option.isSome_iff_exists, consider, Option.isSome_map]
  exact h.chainWeight_isSome hfuel acc.2

theorem foldlM_consider_isSome {leaves : List BlockHash}
    (h : ∀ leaf ∈ leaves, ∃ path, Lineage t.nodes leaf path) (acc : Option Candidate × Memo) :
    (leaves.foldlM (t.consider t.chainFuel) acc).isSome = true := by
  induction leaves generalizing acc with
  | nil => rfl
  | cons leaf rest ih =>
    obtain ⟨path, hpath⟩ := h leaf List.mem_cons_self
    obtain ⟨next, hnext⟩ := consider_isSome hpath acc
    rw [List.foldlM_cons, hnext]
    exact ih (fun l hl => h l (List.mem_cons_of_mem leaf hl)) next

theorem updateBestHead_isSome_iff {order : IterationOrder} :
    (t.updateBestHead order).isSome = true ↔
      ∀ leaf, t.isLeaf leaf = true → ∃ path, Lineage t.nodes leaf path := by
  rw [updateBestHead, Option.isSome_map]
  constructor
  · intro h leaf hleaf
    obtain ⟨final, hfinal⟩ := Option.isSome_iff_exists.mp h
    obtain ⟨candidates, hhashes, hweighs, -⟩ := foldlM_consider (memoSound_empty t.nodes) hfinal
    have hmem : leaf ∈ t.leaves order := mem_leaves.mpr hleaf
    rw [← hhashes, List.mem_map] at hmem
    obtain ⟨c, hc, rfl⟩ := hmem
    exact (hweighs c hc).1.exists_lineage
  · intro h
    exact foldlM_consider_isSome (fun leaf hleaf => h leaf (mem_leaves.mp hleaf)) _

structure ChainsEnd (t : Tower) : Prop where
  acyclic : Acyclic (Points t.nodes)
  chains : ∀ hash, ∃ path w memo, Lineage t.nodes hash path ∧ path.Nodup ∧
    chainWeight t.nodes t.chainFuel hash ∅ = some (w, memo) ∧
    w.toNat = min (pathWeight t.nodes path) (2 ^ 64 - 1)
  heads : ∀ order, (t.updateBestHead order).isSome = true

theorem chainsEnd_iff : ChainsEnd t ↔ Acyclic (Points t.nodes) := by
  refine ⟨fun h => h.acyclic, fun h => ⟨h, fun hash => ?_, fun order => ?_⟩⟩
  · obtain ⟨path, hpath⟩ := lineage_of_acyclic h hash
    have hfuel : path.length < t.chainFuel := Nat.lt_succ_of_le hpath.length_le
    obtain ⟨⟨w, memo⟩, hchain⟩ :=
      Option.isSome_iff_exists.mp (hpath.chainWeight_isSome hfuel ∅)
    obtain ⟨path', hpath', rfl⟩ := (chainWeight_eq_some (memoSound_empty t.nodes) hchain).1.lineage
    rw [hpath'.unique hpath] at hchain
    exact ⟨path, _, memo, hpath, hpath.nodup, hchain, toNat_chainTotal t.nodes path⟩
  · exact updateBestHead_isSome_iff.mpr fun leaf _ => lineage_of_acyclic h leaf

end Termination

section Steps

variable {C : Crypto} {t t' : Tower} {vote : Vote}

def closesLoop (t : Tower) (vote : Vote) : Prop :=
  vote.blockHash ∉ t.nodes ∧ ∃ parent, vote.parentSlot.bind t.slotToHash.lookup = some parent ∧
    ReflTransGen (Points t.nodes) parent vote.blockHash

def avoidsLoops (C : Crypto) (t : Tower) : TowerCall → Prop
  | .processVote _ vote => t.admits C vote = true → ¬closesLoop t vote
  | _ => True

theorem points_iff {nodes : Table BlockHash TowerNode} {hash parent : BlockHash} :
    Points nodes hash parent ↔ (nodes.lookup hash).bind TowerNode.parentHash = some parent :=
  Option.bind_eq_some_iff.symm

theorem points_cast_of_mem (h : vote.blockHash ∈ t.nodes) :
    Points (t.cast vote).nodes = Points t.nodes := by
  funext hash parent
  rw [points_iff, points_iff, parentHash_cast]
  split_ifs with heq
  · obtain ⟨node, hnode⟩ := Option.isSome_iff_exists.mp (Finmap.lookup_isSome.mpr h)
    rw [heq, baseNode, hnode]
    rfl
  · rfl

theorem points_cast_of_notMem (h : vote.blockHash ∉ t.nodes) {hash parent : BlockHash} :
    Points (t.cast vote).nodes hash parent ↔
      Points t.nodes hash parent ∨
        hash = vote.blockHash ∧ vote.parentSlot.bind t.slotToHash.lookup = some parent := by
  have hnone : t.nodes.lookup vote.blockHash = none := Finmap.lookup_eq_none.mpr h
  rw [points_iff, points_iff, parentHash_cast]
  split_ifs with heq
  · rw [heq, baseNode, hnone]
    simp [freshNode]
  · simp [heq]

theorem acyclic_cast_iff (h : Acyclic (Points t.nodes)) :
    Acyclic (Points (t.cast vote).nodes) ↔ ¬closesLoop t vote := by
  by_cases hmem : vote.blockHash ∈ t.nodes
  · rw [points_cast_of_mem hmem]
    exact iff_of_true h fun hloop => hloop.1 hmem
  · cases hparent : vote.parentSlot.bind t.slotToHash.lookup with
    | none =>
      have hsame : Points (t.cast vote).nodes = Points t.nodes := by
        funext hash parent
        rw [points_cast_of_notMem hmem, hparent]
        simp
      rw [hsame, closesLoop, hparent]
      exact iff_of_true h (by simp)
    | some parent =>
      have hedge : Points (t.cast vote).nodes =
          WithEdge (Points t.nodes) vote.blockHash parent := by
        funext hash other
        rw [points_cast_of_notMem hmem, hparent, WithEdge, Option.some.injEq, eq_comm (a := parent)]
      rw [hedge, acyclic_withEdge_iff, and_iff_right h, closesLoop, hparent]
      simp [hmem]

theorem acyclic_admitted_iff (h : Acyclic (Points t.nodes)) (hadmits : t.admits C vote = true)
    (order : IterationOrder) :
    ((t.vote C (order, vote)).isSome = true ∧
        ∀ t', t.vote C (order, vote) = some t' → Acyclic (Points t'.nodes)) ↔
      ¬closesLoop t vote := by
  rw [vote_of_admitted hadmits, Option.isSome_map, ← acyclic_cast_iff h]
  constructor
  · rintro ⟨hsome, hnext⟩
    obtain ⟨u, hu⟩ := Option.isSome_iff_exists.mp hsome
    have hnodes := hnext _ (by rw [hu]; rfl)
    rw [updateBestHead_eq_some _ hu] at hnodes
    exact hnodes
  · intro hcast
    refine ⟨(chainsEnd_iff.mpr hcast).heads order, fun t' hstep => ?_⟩
    obtain ⟨u, hu, rfl⟩ := Option.map_eq_some_iff.mp hstep
    rw [updateBestHead_eq_some _ hu]
    exact hcast

theorem acyclic_call_iff (h : Acyclic (Points t.nodes)) {c : TowerCall} :
    ((t.call C c).isSome = true ∧ ∀ t', t.call C c = some t' → Acyclic (Points t'.nodes)) ↔
      avoidsLoops C t c := by
  cases c with
  | registerValidator v stake =>
    refine iff_of_true ⟨rfl, fun t' hstep => ?_⟩ trivial
    obtain rfl := Option.some.inj hstep
    exact h
  | processVote order vote =>
    rw [avoidsLoops, call]
    cases hadmits : t.admits C vote with
    | false =>
      rw [vote_of_refused hadmits]
      refine iff_of_true ⟨rfl, fun t' hstep => ?_⟩ (by simp)
      obtain rfl := Option.some.inj hstep
      split_ifs <;> exact h
    | true =>
      rw [acyclic_admitted_iff h hadmits]
      exact ⟨fun hopen _ => hopen, fun hopen => hopen rfl⟩
  | advanceRoot newRoot =>
    refine iff_of_true ⟨rfl, fun t' hstep => ?_⟩ trivial
    obtain rfl := Option.some.inj hstep
    refine h.mono fun hash parent => ?_
    rintro ⟨node, hnode, hparent⟩
    exact ⟨node, ((lookup_advanceRoot_eq_some t newRoot).mp hnode).1, hparent⟩

def keepsBlocks (t : Tower) : TowerCall → Prop
  | .advanceRoot newRoot => ∀ hash n, t.nodes.lookup hash = some n → newRoot ≤ n.slot
  | _ => True

theorem nodes_advanceRoot {newRoot : UInt64} (hkeeps : keepsBlocks t (.advanceRoot newRoot)) :
    (t.advanceRoot newRoot).nodes = t.nodes := by
  apply Finmap.ext_lookup
  intro hash
  rw [lookup_advanceRoot]
  cases hnode : t.nodes.lookup hash with
  | none => rfl
  | some node => simp [Option.filter, hkeeps hash node hnode]

theorem Grounded.advanceRoot {rank : BlockHash → ℕ} (h : Grounded t rank) {newRoot : UInt64}
    (hkeeps : keepsBlocks t (.advanceRoot newRoot)) : Grounded (t.advanceRoot newRoot) rank := by
  have hnodes := nodes_advanceRoot hkeeps
  refine ⟨fun slot hash hslot => ?_, ?_, ?_⟩
  · rw [Tower.advanceRoot, Table.lookup_retain, Option.filter_eq_some_iff] at hslot
    rw [hnodes]
    exact h.known slot hash hslot.1
  · rw [hnodes]
    exact h.parents
  · rw [hnodes]
    exact h.bounded

theorem Grounded.call {rank : BlockHash → ℕ} (h : Grounded t rank) {c : TowerCall}
    (hkeeps : keepsBlocks t c) (hstep : t.call C c = some t') : ∃ rank', Grounded t' rank' := by
  cases c with
  | registerValidator v stake =>
    obtain rfl := Option.some.inj hstep
    exact ⟨rank, h.congr rfl rfl⟩
  | processVote order vote =>
    obtain hreject | haccept := vote_cases hstep
    · exact ⟨rank, h.reject hreject⟩
    · exact h.accept haccept
  | advanceRoot newRoot =>
    obtain rfl := Option.some.inj hstep
    exact ⟨rank, h.advanceRoot hkeeps⟩

theorem Grounded.not_closesLoop {rank : BlockHash → ℕ} (h : Grounded t rank) (vote : Vote) :
    ¬closesLoop t vote := by
  rintro ⟨hfresh, parent, hparent, hreach⟩
  obtain ⟨slot, -, hslot⟩ := Option.bind_eq_some_iff.mp hparent
  obtain rfl | ⟨child, -, node, hnode, hlast⟩ := hreach.cases_tail
  · exact hfresh (h.known slot _ hslot)
  · exact hfresh (h.parents child node _ hnode hlast).1

theorem Grounded.avoidsLoops {rank : BlockHash → ℕ} (h : Grounded t rank) (c : TowerCall) :
    avoidsLoops C t c := by
  cases c with
  | registerValidator v stake => trivial
  | processVote order vote => exact fun _ => h.not_closesLoop vote
  | advanceRoot newRoot => trivial

end Steps

section Runs

theorem acyclic_new (genesisSlot : UInt64) : Acyclic (Points (new genesisSlot).nodes) := by
  intro hash hcycle
  obtain ⟨parent, ⟨node, hnode, -⟩, -⟩ := TransGen.head'_iff.mp hcycle
  simp [new] at hnode

theorem throughout_chainsEnd_iff (C : Crypto) (genesisSlot : UInt64) (calls : List TowerCall) :
    Throughout (call C) ChainsEnd (fun t c => (t.call C c).isSome = true) (new genesisSlot) calls ↔
      Respects (call C) (avoidsLoops C) (new genesisSlot) calls := by
  refine Throughout.iff_respects (I := fun _ => True) (fun _ _ => trivial) (fun _ hQ => ?_) trivial
    (chainsEnd_iff.mpr (acyclic_new genesisSlot))
  simp only [chainsEnd_iff] at hQ ⊢
  exact acyclic_call_iff hQ

theorem grounded_new (genesisSlot : UInt64) : Grounded (new genesisSlot) fun _ => 0 :=
  .of_unvoted (unvoted_registered genesisSlot [])

theorem fork_choice_terminates (C : Crypto) (genesisSlot : UInt64) (calls : List TowerCall) :
    (Throughout (call C) ChainsEnd (fun t c => (t.call C c).isSome = true) (new genesisSlot) calls ↔
        Respects (call C) (avoidsLoops C) (new genesisSlot) calls) ∧
      (Respects (call C) keepsBlocks (new genesisSlot) calls →
        Throughout (call C) ChainsEnd (fun t c => (t.call C c).isSome = true)
          (new genesisSlot) calls) := by
  refine ⟨throughout_chainsEnd_iff C genesisSlot calls, fun h => ?_⟩
  rw [throughout_chainsEnd_iff]
  refine h.of_invariant (I := fun t => ∃ rank, Grounded t rank) ?_ ?_ ⟨_, grounded_new genesisSlot⟩
  · rintro t c t' ⟨rank, hgrounded⟩ hkeeps hstep
    exact hgrounded.call hkeeps hstep
  · rintro t c ⟨rank, hgrounded⟩ -
    exact hgrounded.avoidsLoops c

def prunedAncestor : List TowerCall :=
  [.processVote .byKey (ballot 1 5 1 none), .processVote .byKey (ballot 1 10 2 (some 5)),
    .advanceRoot 10]

theorem pruned_ancestor_closes_loop :
    ∃ t, run acceptingCrypto (new 0) prunedAncestor = some t ∧
      t.vote acceptingCrypto (.byKey, ballot 1 12 1 (some 10)) = none ∧
      ∀ fuel, chainWeight (t.cast (ballot 1 12 1 (some 10))).nodes fuel (Bytes32.splat 1) ∅ = none := by
  have hdata : ((run acceptingCrypto (new 0) prunedAncestor).bind fun t =>
      some ((t.vote acceptingCrypto (.byKey, ballot 1 12 1 (some 10))).isNone,
        ((t.cast (ballot 1 12 1 (some 10))).nodes.lookup (Bytes32.splat 1)).bind
          TowerNode.parentHash,
        ((t.cast (ballot 1 12 1 (some 10))).nodes.lookup (Bytes32.splat 2)).bind
          TowerNode.parentHash)) =
      some (true, some (Bytes32.splat 2), some (Bytes32.splat 1)) := by decide +kernel
  obtain ⟨t, hrun, heq⟩ := Option.bind_eq_some_iff.mp hdata
  simp only [Option.some.injEq, Prod.mk.injEq, Option.isNone_iff_eq_none] at heq
  obtain ⟨hvote, hfirst, hsecond⟩ := heq
  refine ⟨t, hrun, hvote, chainWeight_of_cycle (.tail (.single ?_) (points_iff.mpr hsecond))⟩
  exact points_iff.mpr hfirst

end Runs

end Tower

end TrustNode.Consensus
