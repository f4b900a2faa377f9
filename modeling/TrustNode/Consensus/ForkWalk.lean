import TrustNode.Base.Trail
import TrustNode.Consensus.ForkTree

namespace TrustNode.Consensus.ForkChoice

open Relation
open Trail (Edge)

def links (fc : ForkChoice) (hash : BlockHash) : Option (Option BlockHash) :=
  (fc.blocks.lookup hash).map ForkBlock.parentHash

structure IsWalk (fc : ForkChoice) (hash : BlockHash) (chain : List ForkBlock) : Prop where
  nodup : (chain.map ForkBlock.hash).Nodup
  linked : chain.IsChain fun parent child => child.parentHash = some parent.hash
  last : chain.getLast? = fc.blocks.lookup hash
  members : ∀ block, block ∈ chain ↔
    fc.blocks.lookup block.hash = some block ∧ ReflTransGen (Edge fc.links) hash block.hash

def Ends (fc : ForkChoice) (hash : BlockHash) : Prop :=
  ∃ fuel chain, fc.chainFrom fuel hash = some chain ∧ fc.IsWalk hash chain ∧
    fc.forkWeight fuel hash = some ((chain.map ForkBlock.votingPower).foldl (· + ·) 0)

section Walks

variable {fc : ForkChoice} {hash : BlockHash} {path : List BlockHash}

theorem edge_iff {child parent : BlockHash} :
    Edge fc.links child parent ↔
      ∃ block, fc.blocks.lookup child = some block ∧ block.parentHash = some parent :=
  Option.map_eq_some_iff

theorem walk_of_trail (h : Trail fc.links hash path) {fuel : ℕ} (hfuel : path.length < fuel) :
    walk fc.blocks fuel (some hash) = some (path.filterMap fc.blocks.lookup) := by
  induction h generalizing fuel with
  | missing hnext =>
    obtain ⟨fuel, rfl⟩ := Nat.exists_eq_succ_of_ne_zero (Nat.ne_zero_of_lt hfuel)
    rw [walk, Option.map_eq_none_iff.mp hnext, List.filterMap_nil]
  | root hnext =>
    obtain ⟨block, hblock, hparent⟩ := Option.map_eq_some_iff.mp hnext
    obtain ⟨fuel, rfl⟩ := Nat.exists_eq_add_of_lt hfuel
    rw [walk, hblock]
    dsimp only
    rw [hparent, List.length_singleton, Nat.add_comm, walk, Option.map_some, List.filterMap_cons,
      hblock, List.filterMap_nil]
  | link hnext hrest ih =>
    obtain ⟨block, hblock, hparent⟩ := Option.map_eq_some_iff.mp hnext
    obtain ⟨fuel, rfl⟩ := Nat.exists_eq_succ_of_ne_zero (Nat.ne_zero_of_lt hfuel)
    rw [walk, hblock]
    dsimp only
    rw [hparent, ih (Nat.lt_of_succ_lt_succ hfuel), Option.map_some, List.filterMap_cons, hblock]

theorem trail_of_walk {fuel : ℕ} {out : List ForkBlock}
    (h : walk fc.blocks fuel (some hash) = some out) : ∃ path, Trail fc.links hash path := by
  induction fuel generalizing hash out with
  | zero => cases h
  | succ fuel ih =>
    rw [walk] at h
    cases hblock : fc.blocks.lookup hash with
    | none => exact ⟨[], .missing (by rw [links, hblock]; rfl)⟩
    | some block =>
      have hnext : fc.links hash = some block.parentHash := by rw [links, hblock]; rfl
      rw [hblock] at h
      obtain ⟨rest, hrest, -⟩ := Option.map_eq_some_iff.mp h
      cases hparent : block.parentHash with
      | none => exact ⟨[hash], .root (hparent ▸ hnext)⟩
      | some parent =>
        rw [hparent] at hrest
        obtain ⟨path, hpath⟩ := ih hrest
        exact ⟨hash :: path, .link (hparent ▸ hnext) hpath⟩

theorem map_hash_filterMap (hkeyed : fc.Keyed) (h : Trail fc.links hash path) :
    (path.filterMap fc.blocks.lookup).map ForkBlock.hash = path := by
  rw [List.map_filterMap]
  refine (List.filterMap_congr fun x hx => ?_).trans List.filterMap_some
  have hstored := (h.mem_iff.mp hx).2
  rw [links, Option.isSome_map] at hstored
  obtain ⟨block, hblock⟩ := Option.isSome_iff_exists.mp hstored
  rw [hblock, Option.map_some, hkeyed x block hblock]

theorem head?_filterMap (h : Trail fc.links hash path) :
    (path.filterMap fc.blocks.lookup).head? = fc.blocks.lookup hash := by
  cases h with
  | missing hnext => rw [Option.map_eq_none_iff.mp hnext, List.filterMap_nil, List.head?_nil]
  | root hnext =>
    obtain ⟨block, hblock, -⟩ := Option.map_eq_some_iff.mp hnext
    rw [List.filterMap_cons, hblock, List.head?_cons]
  | link hnext =>
    obtain ⟨block, hblock, -⟩ := Option.map_eq_some_iff.mp hnext
    rw [List.filterMap_cons, hblock, List.head?_cons]

theorem isWalk_of_trail (hkeyed : fc.Keyed) (h : Trail fc.links hash path) :
    fc.IsWalk hash (path.filterMap fc.blocks.lookup).reverse := by
  have hhashes := map_hash_filterMap hkeyed h
  have hmem : ∀ block, block ∈ path.filterMap fc.blocks.lookup ↔
      fc.blocks.lookup block.hash = some block ∧ block.hash ∈ path := by
    intro block
    rw [List.mem_filterMap]
    constructor
    · rintro ⟨x, hx, hblock⟩
      obtain rfl := hkeyed x block hblock
      exact ⟨hblock, hx⟩
    · exact fun ⟨hblock, hx⟩ => ⟨_, hx, hblock⟩
  refine ⟨?_, ?_, ?_, fun block => ?_⟩
  · rw [List.map_reverse, List.nodup_reverse, hhashes]
    exact h.nodup
  · rw [List.isChain_reverse]
    have hchain := h.isChain
    rw [← hhashes, List.isChain_map] at hchain
    refine hchain.imp_of_mem_imp fun child parent hchild _ hedge => ?_
    obtain ⟨block, hblock, hparent⟩ := edge_iff.mp hedge
    obtain rfl := Option.some.inj (hblock.symm.trans ((hmem child).mp hchild).1)
    exact hparent
  · rw [List.getLast?_reverse, head?_filterMap h]
  · rw [List.mem_reverse, hmem, h.mem_iff]
    refine and_congr_right fun hblock => and_iff_left ?_
    rw [links, hblock]
    rfl

theorem ends_iff_trail (hkeyed : fc.Keyed) :
    fc.Ends hash ↔ ∃ path, Trail fc.links hash path := by
  constructor
  · rintro ⟨fuel, chain, hchain, -⟩
    obtain ⟨out, hout, -⟩ := Option.map_eq_some_iff.mp hchain
    exact trail_of_walk hout
  · rintro ⟨path, hpath⟩
    have hchain : fc.chainFrom (path.length + 1) hash =
        some (path.filterMap fc.blocks.lookup).reverse := by
      rw [chainFrom, walk_of_trail hpath (Nat.lt_succ_self _), Option.map_some]
    refine ⟨_, _, hchain, isWalk_of_trail hkeyed hpath, ?_⟩
    rw [forkWeight, hchain, Option.map_some]

end Walks

def RisingSlots (blocks : List ForkBlock) : Prop :=
  ∀ block ∈ blocks, ∀ parent ∈ blocks, block.parentHash = some parent.hash →
    parent.slot < block.slot

section Rising

variable {fc : ForkChoice} {blocks : List ForkBlock}

theorem slot_lt_of_descends (hkeyed : fc.Keyed)
    (hstored : ∀ hash block, fc.blocks.lookup hash = some block → block ∈ blocks)
    (hrising : RisingSlots blocks) {x y : BlockHash} (h : TransGen (Edge fc.links) x y)
    {bx by' : ForkBlock} (hx : fc.blocks.lookup x = some bx) (hy : fc.blocks.lookup y = some by') :
    by'.slot < bx.slot := by
  have hedge : ∀ {child parent : BlockHash} {c p : ForkBlock}, Edge fc.links child parent →
      fc.blocks.lookup child = some c → fc.blocks.lookup parent = some p → p.slot < c.slot := by
    intro child parent c p hedge hc hp
    obtain ⟨block, hblock, hparent⟩ := edge_iff.mp hedge
    obtain rfl := Option.some.inj (hblock.symm.trans hc)
    refine hrising block (hstored _ _ hblock) p (hstored _ _ hp) ?_
    rw [hparent, hkeyed parent p hp]
  induction h generalizing by' with
  | single hlink => exact hedge hlink hx hy
  | tail _ hlink ih =>
    obtain ⟨middle, hmiddle, -⟩ := edge_iff.mp hlink
    exact UInt64.lt_trans (hedge hlink hmiddle hy) (ih hmiddle)

theorem acyclic_of_rising (hkeyed : fc.Keyed)
    (hstored : ∀ hash block, fc.blocks.lookup hash = some block → block ∈ blocks)
    (hrising : RisingSlots blocks) : Acyclic (Edge fc.links) := by
  intro x hcycle
  obtain ⟨parent, hlink, -⟩ := TransGen.head'_iff.mp hcycle
  obtain ⟨block, hblock, -⟩ := edge_iff.mp hlink
  exact UInt64.lt_irrefl _ (slot_lt_of_descends hkeyed hstored hrising hcycle hblock hblock)

end Rising

theorem chainFrom_ends_iff (genesis : ForkBlock) (calls : List Call) :
    (∀ hash, (after genesis calls).Ends hash ↔
      ∀ x, ReflTransGen (Edge (after genesis calls).links) hash x →
        ¬TransGen (Edge (after genesis calls).links) x x) ∧
      (RisingSlots (added genesis calls) → ∀ hash, (after genesis calls).Ends hash) := by
  have hkeyed := keyed_after genesis calls
  have hstored : ∀ hash block, (after genesis calls).blocks.lookup hash = some block →
      block ∈ added genesis calls := fun hash block hblock =>
    mem_added_of_lasts ((lookup_after _ _ _ _).mp hblock).2
  have hiff : ∀ hash, (after genesis calls).Ends hash ↔
      ∀ x, ReflTransGen (Edge (after genesis calls).links) hash x →
        ¬TransGen (Edge (after genesis calls).links) x x := by
    intro hash
    rw [ends_iff_trail hkeyed]
    refine Trail.exists_iff (S := (after genesis calls).blocks.keys) fun child parent hlink => ?_
    obtain ⟨block, hblock, -⟩ := edge_iff.mp hlink
    exact Finmap.mem_keys.mpr (Finmap.mem_of_lookup_eq_some hblock)
  refine ⟨hiff, fun hrising hash => (hiff hash).mpr fun x _ => ?_⟩
  exact acyclic_of_rising hkeyed hstored hrising x

theorem chainFrom_self_parent {fc : ForkChoice} {hash : BlockHash} {block : ForkBlock}
    (hblock : fc.blocks.lookup hash = some block) (hparent : block.parentHash = some hash)
    (fuel : ℕ) : fc.chainFrom fuel hash = none := by
  have hwalk : walk fc.blocks fuel (some hash) = none := by
    induction fuel with
    | zero => rfl
    | succ fuel ih =>
      rw [walk, hblock]
      dsimp only
      rw [hparent, ih, Option.map_none]
  rw [chainFrom, hwalk, Option.map_none]

theorem self_parent_walks_forever :
    ¬∃ fuel chain, (after (plainBlock 0 0 none 0)
      [.addBlock (plainBlock 1 1 (some (Bytes32.splat 1)) 5)]).chainFrom fuel (Bytes32.splat 1) =
        some chain := by
  rintro ⟨fuel, chain, hchain⟩
  have hblock : (after (plainBlock 0 0 none 0)
      [.addBlock (plainBlock 1 1 (some (Bytes32.splat 1)) 5)]).blocks.lookup (Bytes32.splat 1) =
        some (plainBlock 1 1 (some (Bytes32.splat 1)) 5) := by decide
  rw [chainFrom_self_parent hblock rfl] at hchain
  cases hchain

end TrustNode.Consensus.ForkChoice
