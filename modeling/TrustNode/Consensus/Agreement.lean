import TrustNode.Base.Sha256
import TrustNode.Consensus.Tally

namespace TrustNode.Consensus

open Word

namespace Tower

section Stake

variable (t : Tower)

def stakeSum : ℕ := ∑ v ∈ t.stakes.keys ∪ t.validatorStates.keys, (t.stakeOf v).toNat

theorem stakeSum_eq :
    t.stakeSum = ∑ v ∈ t.stakes.keys, (t.stakeOf v).toNat +
      ∑ v ∈ t.validatorStates.keys, (if v ∈ t.stakes.keys then 0 else defaultStake.toNat) := by
  have hunregistered : ∀ v ∈ t.validatorStates.keys \ t.stakes.keys,
      (t.stakeOf v).toNat = if v ∈ t.stakes.keys then 0 else defaultStake.toNat := by
    intro v hv
    have hnot := (Finset.mem_sdiff.mp hv).2
    rw [if_neg hnot, stakeOf]
    rw [Table.mem_keys_iff, Option.not_isSome_iff_eq_none] at hnot
    rw [hnot, Option.getD_none]
  rw [stakeSum, ← Finset.union_sdiff_self_eq_union, Finset.sum_union Finset.disjoint_sdiff,
    Finset.sum_congr rfl hunregistered]
  congr 1
  refine Finset.sum_subset Finset.sdiff_subset fun v hv hnot => ?_
  have hregistered : v ∈ t.stakes.keys := by
    by_contra hc
    exact hnot (Finset.mem_sdiff.mpr ⟨hv, hc⟩)
  exact if_pos hregistered

theorem toNat_totalStake : t.totalStake.toNat = min t.stakeSum (2 ^ 64 - 1) := by
  have hskip : (fun (total : UInt64) (v : ValidatorId) =>
      if v ∈ t.stakes.keys then total else saturatingAdd total defaultStake) =
      fun total v => saturatingAdd total (if v ∈ t.stakes.keys then 0 else defaultStake) := by
    funext total v
    split
    · rw [saturatingAdd_zero]
    · rfl
  have hite : ∀ v, (if v ∈ t.stakes.keys then (0 : UInt64) else defaultStake).toNat =
      if v ∈ t.stakes.keys then 0 else defaultStake.toNat := fun v => apply_ite _ _ _ _
  simp only [totalStake]
  rw [hskip, toNat_foldl_saturatingAdd, toNat_foldl_saturatingAdd, Table.sum_map_sorted,
    Table.sum_map_sorted, stakeSum_eq]
  simp only [hite, UInt64.toNat_zero]
  omega

end Stake

def Supermajority (t : Tower) (node : TowerNode) : Prop :=
  t.totalStake.toNat * 2 < node.weight.toNat * 3

def Agreement (t : Tower) : Prop :=
  ∀ h h' n n', t.nodes.lookup h = some n → t.nodes.lookup h' = some n' → n.slot = n'.slot →
    Supermajority t n → Supermajority t n' → h = h'

def namesNodeSlot (t : Tower) (vote : Vote) : Prop :=
  ∀ n ∈ t.nodes.lookup vote.blockHash, n.slot = vote.slot

instance (t : Tower) (vote : Vote) : Decidable (namesNodeSlot t vote) :=
  Option.decidableForallMem (t.nodes.lookup vote.blockHash)

structure Counted (votes : List Vote) (t : Tower) : Prop extends Tallied votes t where
  voted : ∀ h n, t.nodes.lookup h = some n → ∀ v ∈ n.voters,
    v ∈ t.validatorStates.keys ∧ n.slot ≤ (t.stateOf v).lastVoteSlot
  disjoint : ∀ h h' n n', t.nodes.lookup h = some n → t.nodes.lookup h' = some n' →
    n.slot = n'.slot → h ≠ h' → n.voters.Disjoint n'.voters

namespace Counted

variable {C : Crypto} {order : IterationOrder} {votes : List Vote} {t t' : Tower} {vote : Vote}

theorem agreement (h : Counted votes t) (htotal : t.totalStake.toNat < 2 ^ 63) : Agreement t := by
  intro a b n n' ha hb hslot hn hn'
  by_contra hne
  have hnodup : (n.voters ++ n'.voters).Nodup :=
    (h.nodup a n ha).append (h.nodup b n' hb) (h.disjoint a b n n' ha hb hslot hne)
  have hsub : (n.voters ++ n'.voters).toFinset ⊆ t.stakes.keys ∪ t.validatorStates.keys := by
    intro v hv
    apply Finset.mem_union_right
    rcases List.mem_append.mp (List.mem_toFinset.mp hv) with hv | hv
    · exact (h.voted a n ha v hv).1
    · exact (h.voted b n' hb v hv).1
  have hsum : t.stakeOn n.voters + t.stakeOn n'.voters ≤ t.stakeSum := by
    rw [stakeOn, stakeOn, ← List.sum_append, ← List.map_append, ← List.sum_toFinset _ hnodup]
    exact Finset.sum_le_sum_of_subset hsub
  have hw := h.weight a n ha
  have hw' := h.weight b n' hb
  have hexact := t.toNat_totalStake
  unfold Supermajority at hn hn'
  omega

theorem of_unvoted (h : Unvoted t) : Counted [] t := by
  have hnone : ∀ hash n, t.nodes.lookup hash ≠ some n := by simp [h.nodes]
  exact ⟨.of_unvoted h, fun a n ha => absurd ha (hnone a n),
    fun a b n n' ha => absurd ha (hnone a n)⟩

theorem slot_baseNode (hslot : namesNodeSlot t vote) : (t.baseNode vote).slot = vote.slot := by
  rcases t.baseNode_cases vote with ⟨-, hfresh⟩ | hold
  · rw [hfresh]
    rfl
  · exact hslot _ hold

theorem lookup_of_mem_baseNode {v : ValidatorId} (hv : v ∈ (t.baseNode vote).voters) :
    t.nodes.lookup vote.blockHash = some (t.baseNode vote) := by
  rcases t.baseNode_cases vote with ⟨-, hfresh⟩ | hold
  · rw [hfresh] at hv
    exact absurd hv List.not_mem_nil
  · exact hold

theorem validator_notMem (h : Counted votes t) (hstep : Accepts C order t vote t')
    {hash : BlockHash} {n : TowerNode} (hn : t.nodes.lookup hash = some n)
    (hs : n.slot = vote.slot) : vote.validator ∉ n.voters := by
  intro hv
  have hle := (h.voted hash n hn _ hv).2
  rw [hs] at hle
  exact absurd (lastVoteSlot_lt_of_admits hstep.admitted) (UInt64.not_lt.mpr hle)

theorem votedNode_disjoint (h : Counted votes t) (hslot : namesNodeSlot t vote)
    (hstep : Accepts C order t vote t') {hash : BlockHash} {n : TowerNode}
    (hn : t.nodes.lookup hash = some n) (hne : hash ≠ vote.blockHash) (hs : n.slot = vote.slot) :
    (t.votedNode vote).voters.Disjoint n.voters := by
  intro v hv hv'
  rcases (mem_voters_votedNode t vote).mp hv with rfl | hold
  · exact h.validator_notMem hstep hn hs hv'
  · exact h.disjoint _ _ _ _ (lookup_of_mem_baseNode hold) hn ((slot_baseNode hslot).trans hs.symm)
      (Ne.symm hne) hold hv'

theorem voted_accept (h : Counted votes t) (hslot : namesNodeSlot t vote)
    (hstep : Accepts C order t vote t') {hash : BlockHash} {n : TowerNode}
    (hn : t'.nodes.lookup hash = some n) {v : ValidatorId} (hv : v ∈ n.voters) :
    v ∈ t'.validatorStates.keys ∧ n.slot ≤ (t'.stateOf v).lastVoteSlot := by
  have hold : ∀ a m, t.nodes.lookup a = some m → v ∈ m.voters →
      v ∈ t'.validatorStates.keys ∧ m.slot ≤ (t'.stateOf v).lastVoteSlot := by
    intro a m hm hmv
    obtain ⟨hin, hle⟩ := h.voted a m hm v hmv
    refine ⟨?_, UInt64.le_trans hle (hstep.lastVoteSlot_le v)⟩
    rw [hstep.validatorStates, Finmap.mem_keys, Finmap.mem_insert]
    exact Or.inr (Finmap.mem_keys.mp hin)
  obtain ⟨m, rfl, ⟨-, rfl⟩ | ⟨-, hm⟩⟩ := hstep.lookup_eq_some hn
  · rw [voters_linked, mem_voters_votedNode] at hv
    rw [slot_linked, slot_votedNode]
    rcases hv with rfl | hv
    · constructor
      · rw [hstep.validatorStates, Finmap.mem_keys, Finmap.mem_insert]
        exact Or.inl rfl
      · rw [hstep.stateOf, if_pos rfl, lastVoteSlot_votedState, slot_baseNode hslot]
        exact UInt64.le_refl _
    · exact hold _ _ (lookup_of_mem_baseNode hv) hv
  · rw [voters_linked] at hv
    rw [slot_linked]
    exact hold hash m hm hv

theorem accept (h : Counted votes t) (hslot : namesNodeSlot t vote)
    (hstep : Accepts C order t vote t') : Counted (votes ++ [vote]) t' := by
  have hvotedSlot : (t.votedNode vote).slot = vote.slot := by
    rw [slot_votedNode, slot_baseNode hslot]
  refine ⟨h.toTallied.accept hstep, fun hash n hn v hv => h.voted_accept hslot hstep hn hv, ?_⟩
  intro a b n n' hn hn' hs hne
  obtain ⟨m, rfl, hm⟩ := hstep.lookup_eq_some hn
  obtain ⟨m', rfl, hm'⟩ := hstep.lookup_eq_some hn'
  simp only [slot_linked, voters_linked] at hs ⊢
  rcases hm with ⟨rfl, rfl⟩ | ⟨hna, hm⟩ <;> rcases hm' with ⟨rfl, rfl⟩ | ⟨hnb, hm'⟩
  · exact absurd rfl hne
  · exact h.votedNode_disjoint hslot hstep hm' hnb (hs.symm.trans hvotedSlot)
  · exact (h.votedNode_disjoint hslot hstep hm hna (hs.trans hvotedSlot)).symm
  · exact h.disjoint a b m m' hm hm' hs hne

theorem reject (h : Counted votes t) (hstep : Rejects C t vote t') : Counted votes t' := by
  have hkeys : ∀ v ∈ t.validatorStates.keys, v ∈ t'.validatorStates.keys := by
    intro v hv
    rcases hstep.validatorStates with heq | heq
    · rwa [heq]
    · rw [heq, Finmap.mem_keys, Finmap.mem_insert]
      exact Or.inr (Finmap.mem_keys.mp hv)
  refine ⟨h.toTallied.reject hstep, ?_, ?_⟩ <;> rw [hstep.nodes]
  · intro a n hn v hv
    obtain ⟨hin, hle⟩ := h.voted a n hn v hv
    exact ⟨hkeys v hin, by rwa [hstep.lastVoteSlot]⟩
  · exact h.disjoint

theorem run {start : Tower} {results : List (Vote × Bool)} (hstart : Counted [] start)
    (hrun : Votes C namesNodeSlot start results t) : Counted (accepted results) t :=
  hrun.invariant_accepted hstart (fun h hstep => h.reject hstep) fun h hallowed hstep =>
    h.accept hallowed hstep

end Counted

theorem slot_agreement (C : Crypto) (genesisSlot : UInt64)
    (registrations : List (ValidatorId × UInt64)) (results : List (Vote × Bool)) (t : Tower)
    (hrun : Votes C namesNodeSlot (registered genesisSlot registrations) results t)
    (htotal : t.totalStake.toNat < 2 ^ 63) : Agreement t := by
  have hstart := Counted.of_unvoted (unvoted_registered genesisSlot registrations)
  exact (hstart.run hrun).agreement htotal

def twoValidators : Tower := registered 0 [(Bytes32.splat 1, 1), (Bytes32.splat 2, 1)]

def tally (hash : BlockHash) (final : List (Vote × Bool) × Tower) : UInt64 × Option (UInt64 × UInt64) :=
  (final.2.totalStake, (final.2.nodes.lookup hash).map fun n => (n.slot, n.weight))

theorem both_validators_agree :
    ∃ results t, Votes acceptingCrypto namesNodeSlot twoValidators results t ∧
      t.totalStake = 2 ∧ (t.nodes.lookup (Bytes32.splat 10)).map TowerNode.weight = some 2 ∧
      Agreement t := by
  let final := play acceptingCrypto namesNodeSlot .byKey twoValidators
    [ballot 1 10 10 none, ballot 2 10 10 none]
  have htally : final.map (tally (Bytes32.splat 10)) = some (2, some (10, 2)) := by decide +kernel
  obtain ⟨⟨results, t⟩, hplay, ht⟩ := Option.map_eq_some_iff.mp htally
  simp only [tally, Prod.mk.injEq] at ht
  have hrun : Votes acceptingCrypto namesNodeSlot twoValidators results t := (votes_of_deliver hplay).1
  refine ⟨results, t, hrun, ht.1, ?_, ?_⟩
  · obtain ⟨n, hn, hw⟩ := Option.map_eq_some_iff.mp ht.2
    simp [hn, (Prod.mk.inj hw).2]
  · exact slot_agreement acceptingCrypto 0 _ results t hrun (by rw [ht.1]; decide)

theorem two_blocks_confirmed_at_one_slot :
    ∃ results t, Votes acceptingCrypto anyVote twoValidators results t ∧ t.totalStake = 2 ∧
      ¬Agreement t := by
  let final := play acceptingCrypto anyVote .byKey twoValidators
    [ballot 1 10 10 none, ballot 2 10 11 none, ballot 1 12 11 (some 10), ballot 2 12 10 (some 10)]
  have htally : final.map (fun f => (tally (Bytes32.splat 10) f, tally (Bytes32.splat 11) f)) =
      some ((2, some (10, 2)), (2, some (10, 2))) := by decide +kernel
  obtain ⟨⟨results, t⟩, hplay, ht⟩ := Option.map_eq_some_iff.mp htally
  simp only [tally, Prod.mk.injEq] at ht
  obtain ⟨⟨htotal, hten⟩, -, heleven⟩ := ht
  refine ⟨results, t, (votes_of_deliver hplay).1, htotal, fun hagree => ?_⟩
  obtain ⟨n, hn, hn'⟩ := Option.map_eq_some_iff.mp hten
  obtain ⟨m, hm, hm'⟩ := Option.map_eq_some_iff.mp heleven
  obtain ⟨hslot, hweight⟩ := Prod.mk.inj hn'
  obtain ⟨hslot', hweight'⟩ := Prod.mk.inj hm'
  have hsame := hagree _ _ n m hn hm (hslot.trans hslot'.symm)
    (by rw [Supermajority, htotal, hweight]; decide) (by rw [Supermajority, htotal, hweight']; decide)
  exact absurd hsame (by decide)

end Tower

end TrustNode.Consensus
