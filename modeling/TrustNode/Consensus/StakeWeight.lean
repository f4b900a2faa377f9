import TrustNode.Consensus.Agreement
import TrustNode.Consensus.Calls

namespace TrustNode.Consensus

open Word

namespace Tower

structure StakeWeighted (t : Tower) : Prop where
  nodup : ∀ hash n, t.nodes.lookup hash = some n → n.voters.Nodup
  weight : ∀ hash n, t.nodes.lookup hash = some n → t.stakeOn n.voters < 2 ^ 64 →
    n.weight.toNat = t.stakeOn n.voters
  bounded : ∀ hash n, t.nodes.lookup hash = some n → n.weight ≤ t.totalStake

def keepsWeights (t : Tower) : TowerCall → Prop
  | .registerValidator v stake => ∀ hash n, t.nodes.lookup hash = some n → v ∈ n.voters →
    (t.registerValidator v stake).stakeOn n.voters < 2 ^ 64 →
      if t.stakeOn n.voters < 2 ^ 64 then stake = t.stakeOf v
      else n.weight.toNat = (t.registerValidator v stake).stakeOn n.voters
  | _ => True

def keepsStake (t : Tower) : TowerCall → Prop
  | .registerValidator v stake =>
    ∀ hash n, t.nodes.lookup hash = some n → v ∈ n.voters → stake = t.stakeOf v
  | _ => True

structure VotersKnown (t : Tower) : Prop where
  nodup : ∀ hash n, t.nodes.lookup hash = some n → n.voters.Nodup
  known : ∀ hash n, t.nodes.lookup hash = some n → ∀ v ∈ n.voters, v ∈ t.validatorStates.keys

def Weighted (t : Tower) : Prop :=
  ∀ hash n, t.nodes.lookup hash = some n → t.stakeOn n.voters < 2 ^ 64 →
    n.weight.toNat = t.stakeOn n.voters

section Sums

variable {t : Tower} {voters : List ValidatorId} {v : ValidatorId}

theorem stakeOn_le_stakeSum (hnodup : voters.Nodup)
    (hknown : ∀ v ∈ voters, v ∈ t.validatorStates.keys) : t.stakeOn voters ≤ t.stakeSum := by
  have hsum : t.stakeOn voters = ∑ v ∈ voters.toFinset, (t.stakeOf v).toNat :=
    (List.sum_toFinset _ hnodup).symm
  rw [hsum]
  refine Finset.sum_le_sum_of_subset fun v hv => ?_
  exact Finset.mem_union_right _ (hknown v (List.mem_toFinset.mp hv))

theorem VotersKnown.stakeWeighted_iff (h : VotersKnown t) : StakeWeighted t ↔ Weighted t := by
  refine ⟨fun hw => hw.weight, fun hw => ⟨h.nodup, hw, fun hash n hn => ?_⟩⟩
  have hle := stakeOn_le_stakeSum (h.nodup hash n hn) (h.known hash n hn)
  have hexact := hw hash n hn
  have hcap := n.weight.toNat_lt
  rw [UInt64.le_iff_toNat_le, toNat_totalStake]
  by_cases hfits : t.stakeOn n.voters < 2 ^ 64
  · have hweight := hexact hfits
    omega
  · omega

theorem stakeOf_registerValidator (t : Tower) (v : ValidatorId) (stake : UInt64) (w : ValidatorId) :
    (t.registerValidator v stake).stakeOf w = if w = v then stake else t.stakeOf w := by
  rw [stakeOf, registerValidator, Table.lookup_insert]
  split <;> rfl

theorem stakeOn_registerValidator_of_notMem (hv : v ∉ voters) (stake : UInt64) :
    (t.registerValidator v stake).stakeOn voters = t.stakeOn voters := by
  rw [stakeOn, stakeOn]
  refine congrArg List.sum (List.map_congr_left fun w hw => ?_)
  have hne : w ≠ v := by
    rintro rfl
    exact hv hw
  rw [stakeOf_registerValidator, if_neg hne]

theorem stakeOn_perm {voters' : List ValidatorId} (h : voters.Perm voters') :
    t.stakeOn voters = t.stakeOn voters' := (h.map _).sum_eq

theorem stakeOn_cons (t : Tower) (v : ValidatorId) (voters : List ValidatorId) :
    t.stakeOn (v :: voters) = (t.stakeOf v).toNat + t.stakeOn voters := rfl

theorem stakeOn_registerValidator_of_mem (hnodup : voters.Nodup) (hv : v ∈ voters)
    (stake : UInt64) :
    (t.registerValidator v stake).stakeOn voters + (t.stakeOf v).toNat =
      t.stakeOn voters + stake.toNat := by
  have hperm := List.perm_cons_erase hv
  have hothers := stakeOn_registerValidator_of_notMem (t := t) (hnodup.not_mem_erase (a := v)) stake
  rw [stakeOn_perm hperm, stakeOn_perm (t := t) hperm, stakeOn_cons, stakeOn_cons, hothers,
    stakeOf_registerValidator, if_pos rfl]
  omega

end Sums

section Steps

variable {C : Crypto} {order : IterationOrder} {t t' : Tower} {vote : Vote}

theorem VotersKnown.mono (h : VotersKnown t)
    (hnodes : ∀ hash n, t'.nodes.lookup hash = some n → t.nodes.lookup hash = some n)
    (hstates : t.validatorStates.keys ⊆ t'.validatorStates.keys) : VotersKnown t' :=
  ⟨fun hash n hn => h.nodup hash n (hnodes hash n hn),
    fun hash n hn v hv => hstates (h.known hash n (hnodes hash n hn) v hv)⟩

theorem Weighted.mono (h : Weighted t)
    (hnodes : ∀ hash n, t'.nodes.lookup hash = some n → t.nodes.lookup hash = some n)
    (hstakes : t'.stakes = t.stakes) : Weighted t' := by
  have hstake : ∀ voters, t'.stakeOn voters = t.stakeOn voters := fun voters => by
    simp only [stakeOn, stakeOf, hstakes]
  intro hash n hn
  rw [hstake]
  exact h hash n (hnodes hash n hn)

theorem baseNode_voters (h : VotersKnown t) (vote : Vote) :
    (t.baseNode vote).voters.Nodup ∧
      ∀ v ∈ (t.baseNode vote).voters, v ∈ t.validatorStates.keys := by
  obtain ⟨-, hfresh⟩ | hold := t.baseNode_cases vote
  · rw [hfresh]
    exact ⟨List.nodup_nil, fun v hv => absurd hv List.not_mem_nil⟩
  · exact ⟨h.nodup _ _ hold, h.known _ _ hold⟩

theorem VotersKnown.accept (h : VotersKnown t) (hstep : Accepts C order t vote t') :
    VotersKnown t' := by
  obtain ⟨hnodup, hknown⟩ := baseNode_voters h vote
  have hkeys : t'.validatorStates.keys = insert vote.validator t.validatorStates.keys := by
    rw [hstep.validatorStates, Table.keys_insert]
  refine ⟨fun hash n hn => ?_, fun hash n hn v hv => ?_⟩
  · obtain ⟨m, rfl, ⟨-, rfl⟩ | ⟨-, hm⟩⟩ := hstep.lookup_eq_some hn
    · rw [voters_linked, voters_votedNode]
      split_ifs with hvoted
      · exact hnodup
      · exact hnodup.append (List.nodup_singleton _) (by simpa using hvoted)
    · rw [voters_linked]
      exact h.nodup hash m hm
  · rw [hkeys, Finset.mem_insert]
    obtain ⟨m, rfl, ⟨-, rfl⟩ | ⟨-, hm⟩⟩ := hstep.lookup_eq_some hn
    · rw [voters_linked, mem_voters_votedNode] at hv
      exact hv.imp_right (hknown v)
    · rw [voters_linked] at hv
      exact .inr (h.known hash m hm v hv)

theorem weight_baseNode (h : Weighted t) (vote : Vote)
    (hfits : t.stakeOn (t.baseNode vote).voters < 2 ^ 64) :
    (t.baseNode vote).weight.toNat = t.stakeOn (t.baseNode vote).voters := by
  obtain ⟨-, hfresh⟩ | hold := t.baseNode_cases vote
  · rw [hfresh]
    rfl
  · exact h _ _ hold hfits

theorem weight_votedNode_eq (h : Weighted t) (vote : Vote)
    (hfits : t.stakeOn (t.votedNode vote).voters < 2 ^ 64) :
    (t.votedNode vote).weight.toNat = t.stakeOn (t.votedNode vote).voters := by
  have hbase := weight_baseNode h vote
  rw [voters_votedNode] at hfits ⊢
  rw [weight_votedNode]
  split_ifs at hfits ⊢ with hvoted
  · exact hbase hfits
  · have hsum : t.stakeOn ((t.baseNode vote).voters ++ [vote.validator]) =
        t.stakeOn (t.baseNode vote).voters + (t.stakeOf vote.validator).toNat := by
      simp [stakeOn]
    rw [hsum] at hfits ⊢
    rw [toNat_saturatingAdd, hbase (by omega)]
    omega

theorem Weighted.accept (h : Weighted t) (hstep : Accepts C order t vote t') : Weighted t' := by
  have hstake : ∀ voters, t'.stakeOn voters = t.stakeOn voters := fun voters => by
    simp only [stakeOn, hstep.stakeOf]
  intro hash n hn hfits
  rw [hstake] at hfits ⊢
  obtain ⟨m, rfl, ⟨-, rfl⟩ | ⟨-, hm⟩⟩ := hstep.lookup_eq_some hn
  · rw [voters_linked] at hfits ⊢
    rw [weight_linked]
    exact weight_votedNode_eq h vote hfits
  · rw [voters_linked] at hfits ⊢
    rw [weight_linked]
    exact h hash m hm hfits

theorem weighted_registerValidator_iff (hknown : VotersKnown t) (h : Weighted t) {v : ValidatorId}
    {stake : UInt64} :
    Weighted (t.registerValidator v stake) ↔ keepsWeights t (.registerValidator v stake) := by
  rw [Weighted, keepsWeights]
  refine forall_congr' fun hash => forall_congr' fun n => forall_congr' fun hn => ?_
  have hold := h hash n hn
  by_cases hv : v ∈ n.voters
  · have hsum := stakeOn_registerValidator_of_mem (t := t) (hknown.nodup hash n hn) hv stake
    simp only [hv, true_implies]
    refine imp_congr_right fun hfits => ?_
    split_ifs with hsmall
    · rw [hold hsmall, ← UInt64.toNat_inj]
      omega
    · rfl
  · simp only [hv, false_implies, iff_true]
    rw [stakeOn_registerValidator_of_notMem hv]
    exact hold

theorem keys_registerValidator (t : Tower) (v : ValidatorId) (stake : UInt64) :
    t.validatorStates.keys ⊆ (t.registerValidator v stake).validatorStates.keys := by
  rw [registerValidator, putState, Table.keys_insert]
  exact Finset.subset_insert _ _

theorem Rejects.keys_subset (h : Rejects C t vote t') :
    t.validatorStates.keys ⊆ t'.validatorStates.keys := by
  obtain hsame | hput := h.validatorStates
  · rw [hsame]
  · rw [hput, Table.keys_insert]
    exact Finset.subset_insert _ _

theorem VotersKnown.call (h : VotersKnown t) {c : TowerCall} (hstep : t.call C c = some t') :
    VotersKnown t' := by
  cases c with
  | registerValidator v stake =>
    obtain rfl := Option.some.inj hstep
    exact h.mono (fun _ _ hn => hn) (keys_registerValidator t v stake)
  | processVote order vote =>
    obtain hreject | haccept := vote_cases hstep
    · exact h.mono (fun _ _ hn => hreject.nodes ▸ hn) hreject.keys_subset
    · exact h.accept haccept
  | advanceRoot newRoot =>
    obtain rfl := Option.some.inj hstep
    refine h.mono (fun _ _ hn => ((lookup_advanceRoot_eq_some t newRoot).mp hn).1) fun v hv => ?_
    exact (mem_validatorStates_advanceRoot t newRoot v).mpr hv

theorem weighted_call_iff (hknown : VotersKnown t) (h : Weighted t) {c : TowerCall} :
    (True ∧ ∀ t', t.call C c = some t' → Weighted t') ↔ keepsWeights t c := by
  cases c with
  | registerValidator v stake =>
    rw [← weighted_registerValidator_iff hknown h]
    exact ⟨fun hstep => hstep.2 _ rfl, fun hw => ⟨trivial, fun t' ht' => Option.some.inj ht' ▸ hw⟩⟩
  | processVote order vote =>
    refine iff_of_true ⟨trivial, fun t' hstep => ?_⟩ trivial
    obtain hreject | haccept := vote_cases hstep
    · exact h.mono (fun _ _ hn => hreject.nodes ▸ hn) hreject.stakes
    · exact h.accept haccept
  | advanceRoot newRoot =>
    refine iff_of_true ⟨trivial, fun t' hstep => ?_⟩ trivial
    obtain rfl := Option.some.inj hstep
    exact h.mono (fun _ _ hn => ((lookup_advanceRoot_eq_some t newRoot).mp hn).1) rfl

theorem keepsWeights_of_keepsStake {c : TowerCall} (h : keepsStake t c) : keepsWeights t c := by
  cases c with
  | registerValidator v stake =>
    intro hash n hn hv hfits
    have hsame := h hash n hn hv
    have hstake : (t.registerValidator v stake).stakeOn n.voters = t.stakeOn n.voters := by
      rw [stakeOn, stakeOn]
      refine congrArg List.sum (List.map_congr_left fun w _ => ?_)
      rw [stakeOf_registerValidator]
      split_ifs with heq
      · rw [heq, hsame]
      · rfl
    rw [hstake] at hfits
    rw [if_pos hfits]
    exact hsame
  | processVote order vote => trivial
  | advanceRoot newRoot => trivial

end Steps

section Runs

theorem votersKnown_new (genesisSlot : UInt64) : VotersKnown (new genesisSlot) :=
  ⟨fun hash n hn => by simp [new] at hn, fun hash n hn => by simp [new] at hn⟩

theorem stakeWeighted_new (genesisSlot : UInt64) : StakeWeighted (new genesisSlot) :=
  (votersKnown_new genesisSlot).stakeWeighted_iff.mpr fun hash n hn => by simp [new] at hn

theorem throughout_stakeWeighted_iff (C : Crypto) (genesisSlot : UInt64) (calls : List TowerCall) :
    Throughout (call C) StakeWeighted (fun _ _ => True) (new genesisSlot) calls ↔
      Respects (call C) keepsWeights (new genesisSlot) calls := by
  refine Throughout.iff_respects (I := VotersKnown) (fun hI hstep => hI.call hstep)
    (fun hI hQ => ?_) (votersKnown_new genesisSlot) (stakeWeighted_new genesisSlot)
  rw [← weighted_call_iff (C := C) hI (hI.stakeWeighted_iff.mp hQ)]
  refine and_congr_right fun _ => forall_congr' fun t' => forall_congr' fun hstep => ?_
  exact (hI.call hstep).stakeWeighted_iff

theorem node_weights_are_stake (C : Crypto) (genesisSlot : UInt64) (calls : List TowerCall) :
    (Throughout (call C) StakeWeighted (fun _ _ => True) (new genesisSlot) calls ↔
        Respects (call C) keepsWeights (new genesisSlot) calls) ∧
      (Respects (call C) keepsStake (new genesisSlot) calls →
        Throughout (call C) StakeWeighted (fun _ _ => True) (new genesisSlot) calls) := by
  refine ⟨throughout_stakeWeighted_iff C genesisSlot calls, fun h => ?_⟩
  rw [throughout_stakeWeighted_iff]
  exact h.imp (fun _ => id) fun t c => keepsWeights_of_keepsStake

def restaked : List TowerCall :=
  [.registerValidator (Bytes32.splat 1) 5, .processVote .byKey (ballot 1 1 1 (some 0)),
    .registerValidator (Bytes32.splat 1) 1]

theorem restaked_node_outweighs_total_stake :
    (∃ t n, run acceptingCrypto (new 0) restaked = some t ∧
        t.nodes.lookup (Bytes32.splat 1) = some n ∧ n.weight = 5 ∧ t.stakeOn n.voters = 1 ∧
        t.totalStake = 1) ∧
      ¬Throughout (call acceptingCrypto) StakeWeighted (fun _ _ => True) (new 0) restaked := by
  have hdata : ((run acceptingCrypto (new 0) restaked).bind fun t =>
      (t.nodes.lookup (Bytes32.splat 1)).map fun n =>
        (n.weight, t.stakeOn n.voters, t.totalStake)) = some (5, 1, 1) := by decide +kernel
  obtain ⟨t, hrun, hnode⟩ := Option.bind_eq_some_iff.mp hdata
  obtain ⟨n, hn, heq⟩ := Option.map_eq_some_iff.mp hnode
  simp only [Prod.mk.injEq] at heq
  obtain ⟨hweight, hstake, htotal⟩ := heq
  refine ⟨⟨t, n, hrun, hn, hweight, hstake, htotal⟩, fun h => ?_⟩
  have hbounded := (h.final hrun).bounded _ n hn
  rw [hweight, htotal] at hbounded
  exact absurd hbounded (by decide)

end Runs

end Tower

end TrustNode.Consensus
