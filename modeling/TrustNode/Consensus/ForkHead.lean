import TrustNode.Consensus.ForkTree

namespace TrustNode.Consensus

namespace ForkBlock

variable {a b c : ForkBlock}

theorem outranks_iff_toNat :
    b.Outranks a ↔ a.votingPower.toNat < b.votingPower.toNat ∨
      b.votingPower.toNat = a.votingPower.toNat ∧ a.timestamp.toNat < b.timestamp.toNat := by
  rw [Outranks, UInt64.lt_iff_toNat_lt, UInt64.lt_iff_toNat_lt, UInt64.toNat_inj]

theorem Outranks.trans (hcb : c.Outranks b) (hba : b.Outranks a) : c.Outranks a := by
  rw [outranks_iff_toNat] at *
  omega

theorem Outranks.of_not_outranks (hca : c.Outranks a) (hba : ¬b.Outranks a) : c.Outranks b := by
  rw [outranks_iff_toNat] at *
  omega

end ForkBlock

namespace ForkChoice

def FirstBest (head : ForkBlock) (blocks : List ForkBlock) : Prop :=
  ∃ pre post, blocks = pre ++ head :: post ∧ (∀ b ∈ pre, head.Outranks b) ∧
    ∀ b ∈ post, ¬b.Outranks head

section Best

variable {head block : ForkBlock} {blocks : List ForkBlock}

theorem FirstBest.not_outranks (h : FirstBest head blocks) : ∀ b ∈ blocks, ¬b.Outranks head := by
  obtain ⟨pre, post, rfl, hpre, hpost⟩ := h
  intro b hb
  rcases List.mem_append.mp hb with hb | hb
  · intro hover
    have hself := hover.trans (hpre b hb)
    rw [ForkBlock.outranks_iff_toNat] at hself
    omega
  · rcases List.mem_cons.mp hb with rfl | hb
    · rw [ForkBlock.outranks_iff_toNat]
      omega
    · exact hpost b hb

theorem FirstBest.snoc_kept (h : FirstBest head blocks) (hblock : ¬block.Outranks head) :
    FirstBest head (blocks ++ [block]) := by
  obtain ⟨pre, post, rfl, hpre, hpost⟩ := h
  refine ⟨pre, post ++ [block], by rw [List.append_assoc, List.cons_append], hpre, ?_⟩
  exact List.forall_mem_append.mpr ⟨hpost, List.forall_mem_singleton.mpr hblock⟩

theorem FirstBest.snoc_replaced (h : FirstBest head blocks) (hblock : block.Outranks head) :
    FirstBest block (blocks ++ [block]) := by
  refine ⟨blocks, [], rfl, fun b hb => ?_, fun b hb => absurd hb List.not_mem_nil⟩
  exact hblock.of_not_outranks (h.not_outranks b hb)

theorem added_snoc (genesis : ForkBlock) (calls : List Call) (call : Call) :
    added genesis (calls ++ [call]) = added genesis calls ++ (addedBlock call).toList := by
  rw [added, history, ← List.cons_append, List.filterMap_append]
  cases call with
  | addBlock block => rfl
  | prune beforeSlot => rfl

theorem exists_bestHead (genesis : ForkBlock) (calls : List Call) :
    ∃ head, (after genesis calls).bestHead = some head ∧ FirstBest head (added genesis calls) := by
  induction calls using List.reverseRecOn with
  | nil =>
    refine ⟨genesis, rfl, [], [], rfl, ?_, ?_⟩
    · exact fun b hb => absurd hb List.not_mem_nil
    · exact fun b hb => absurd hb List.not_mem_nil
  | append_singleton calls call ih =>
    obtain ⟨head, hhead, hbest⟩ := ih
    rw [after_snoc, added_snoc]
    cases call with
    | addBlock block =>
      rw [step, addBlock, hhead, Option.map_some]
      refine ⟨_, rfl, ?_⟩
      split_ifs with hblock
      · exact hbest.snoc_replaced hblock
      · exact hbest.snoc_kept hblock
    | prune beforeSlot =>
      rw [addedBlock, Option.toList_none, List.append_nil]
      exact ⟨head, hhead, hbest⟩

end Best

structure HeadHolds (fc : ForkChoice) (head : ForkBlock) : Prop where
  cached : fc.bestHead = some head
  stored : fc.blocks.lookup head.hash = some head
  maximal : ∀ hash block, fc.blocks.lookup hash = some block → ¬block.Outranks head

theorem bestHead_holds_iff (genesis : ForkBlock) (calls : List Call) :
    ∃ head, (after genesis calls).bestHead = some head ∧ FirstBest head (added genesis calls) ∧
      (∀ hash block, (after genesis calls).blocks.lookup hash = some block →
        ¬block.Outranks head) ∧
      ((∃ best, HeadHolds (after genesis calls) best) ↔ Lasts head (history genesis calls)) := by
  obtain ⟨head, hhead, hbest⟩ := exists_bestHead genesis calls
  have hmaximal : ∀ hash block, (after genesis calls).blocks.lookup hash = some block →
      ¬block.Outranks head := by
    intro hash block hblock
    exact hbest.not_outranks block (mem_added_of_lasts ((lookup_after _ _ _ _).mp hblock).2)
  refine ⟨head, hhead, hbest, hmaximal, ?_, fun hlasts => ?_⟩
  · rintro ⟨best, hholds⟩
    obtain rfl := Option.some.inj (hhead.symm.trans hholds.cached)
    exact ((lookup_after _ _ _ _).mp hholds.stored).2
  · exact ⟨head, hhead, (lookup_after _ _ _ _).mpr ⟨rfl, hlasts⟩, hmaximal⟩

def overwritten : ForkChoice :=
  after (plainBlock 0 0 none 0)
    [.addBlock (plainBlock 1 1 (some (Bytes32.splat 0)) 5),
      .addBlock (plainBlock 1 1 (some (Bytes32.splat 0)) 3)]

def prunedAway : ForkChoice :=
  after (plainBlock 0 0 none 0)
    [.addBlock (plainBlock 1 1 (some (Bytes32.splat 0)) 5),
      .addBlock (plainBlock 2 2 (some (Bytes32.splat 0)) 3), .prune 2]

theorem not_headHolds {fc : ForkChoice} {head : ForkBlock} (hhead : fc.bestHead = some head)
    (hstored : fc.blocks.lookup head.hash ≠ some head) (best : ForkBlock) : ¬HeadHolds fc best := by
  intro h
  obtain rfl := Option.some.inj (hhead.symm.trans h.cached)
  exact hstored h.stored

theorem head_overwritten_and_head_pruned :
    ((overwritten.blocks.lookup (Bytes32.splat 1)).isSome = true ∧
        ∀ best, ¬HeadHolds overwritten best) ∧
      (prunedAway.blocks.lookup (Bytes32.splat 2)).isSome = true ∧
        ∀ best, ¬HeadHolds prunedAway best := by
  have hhead : overwritten.bestHead = some (plainBlock 1 1 (some (Bytes32.splat 0)) 5) := by decide
  have hpruned : prunedAway.bestHead = some (plainBlock 1 1 (some (Bytes32.splat 0)) 5) := by decide
  refine ⟨⟨by decide, not_headHolds hhead (by decide)⟩, by decide, ?_⟩
  exact not_headHolds hpruned (by decide)

section Heaviest

end Heaviest

end ForkChoice

end TrustNode.Consensus
