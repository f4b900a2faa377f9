import TrustNode.Base.Sha256
import TrustNode.Consensus.Calls

namespace TrustNode.Consensus

def TowerCall.advances : TowerCall → Bool
  | .advanceRoot _ => true
  | _ => false

namespace Tower

def HistoryFrom (root : UInt64) (state : VoteState) : Prop :=
  ∀ entry ∈ state.history, root ≤ entry.slot

structure AboveRoot (t : Tower) : Prop where
  nodes : ∀ hash n, t.nodes.lookup hash = some n → t.rootSlot ≤ n.slot
  slots : ∀ slot hash, t.slotToHash.lookup slot = some hash → t.rootSlot ≤ slot
  histories : ∀ v state, t.validatorStates.lookup v = some state → HistoryFrom t.rootSlot state

def votesFromRoot (C : Crypto) (t : Tower) : TowerCall → Prop
  | .processVote order vote =>
    t.admits C vote = true → (t.vote C (order, vote)).isSome = true → t.rootSlot ≤ vote.slot
  | _ => True

section States

variable {t : Tower} {vote : Vote}

theorem historyFrom_stateOf (h : AboveRoot t) (v : ValidatorId) :
    HistoryFrom t.rootSlot (t.stateOf v) := by
  rw [stateOf]
  cases hstate : t.validatorStates.lookup v with
  | none => exact fun entry hentry => absurd hentry List.not_mem_nil
  | some state => exact h.histories v state hstate

theorem history_refreshed (t : Tower) (vote : Vote) :
    (t.refreshed vote).history = (t.stateOf vote.validator).history := by
  rw [refreshed]
  split <;> rfl

theorem historyFrom_refreshed (h : AboveRoot t) (vote : Vote) :
    HistoryFrom t.rootSlot (t.refreshed vote) := by
  rw [HistoryFrom, history_refreshed]
  exact historyFrom_stateOf h vote.validator

theorem mem_history_processVote {state : VoteState} {entry : VoteHistoryEntry}
    (h : entry ∈ (state.processVote vote).history) :
    entry ∈ state.history ∨ entry.slot = vote.slot := by
  have hmem : entry ∈ state.history ++ [⟨vote.slot, vote.blockHash, vote.timestamp⟩] := by
    rw [VoteState.processVote] at h
    dsimp only at h
    split_ifs at h
    · exact List.mem_of_mem_drop h
    · exact h
  rw [List.mem_append, List.mem_singleton] at hmem
  exact hmem.imp_right fun heq => by rw [heq]

theorem historyFrom_votedState (h : AboveRoot t) (hslot : t.rootSlot ≤ vote.slot) :
    HistoryFrom t.rootSlot (t.votedState vote) := by
  have hbase : (if t.isForkSwitch vote then (t.refreshed vote).switchFork
      else t.refreshed vote).history = (t.refreshed vote).history := by split <;> rfl
  intro entry hentry
  obtain hold | hnew := mem_history_processVote hentry
  · rw [hbase] at hold
    exact historyFrom_refreshed h vote entry hold
  · rw [hnew]
    exact hslot

end States

section Steps

variable {C : Crypto} {order : IterationOrder} {t t' : Tower} {vote : Vote}

theorem AboveRoot.putState (h : AboveRoot t) (v : ValidatorId) {state : VoteState}
    (hstate : HistoryFrom t.rootSlot state) : AboveRoot (t.putState v state) := by
  refine ⟨h.nodes, h.slots, fun w other hother => ?_⟩
  rw [Tower.putState, Table.lookup_insert] at hother
  split_ifs at hother
  · obtain rfl := Option.some.inj hother
    exact hstate
  · exact h.histories w other hother

theorem AboveRoot.register (h : AboveRoot t) (v : ValidatorId) (stake : UInt64) :
    AboveRoot (t.registerValidator v stake) := by
  have hput := h.putState v (historyFrom_stateOf h v)
  exact ⟨hput.nodes, hput.slots, hput.histories⟩

theorem AboveRoot.reject (h : AboveRoot t) (hstep : Rejects C t vote t') : AboveRoot t' := by
  rw [hstep.tower]
  split_ifs
  · exact h.putState _ (historyFrom_refreshed h vote)
  · exact h

theorem AboveRoot.slot_baseNode (h : AboveRoot t) (hslot : t.rootSlot ≤ vote.slot) :
    t.rootSlot ≤ (t.baseNode vote).slot := by
  obtain ⟨-, hfresh⟩ | hold := t.baseNode_cases vote
  · rw [hfresh]
    exact hslot
  · exact h.nodes _ _ hold

theorem AboveRoot.accept (h : AboveRoot t) (hstep : Accepts C order t vote t')
    (hslot : t.rootSlot ≤ vote.slot) : AboveRoot t' where
  nodes := by
    intro hash n hn
    rw [hstep.rootSlot]
    obtain ⟨m, rfl, ⟨-, rfl⟩ | ⟨-, hm⟩⟩ := hstep.lookup_eq_some hn
    · rw [slot_linked, slot_votedNode]
      exact h.slot_baseNode hslot
    · rw [slot_linked]
      exact h.nodes hash m hm
  slots := by
    intro slot hash hhash
    rw [hstep.rootSlot]
    rw [hstep.slotToHash, Table.lookup_insert] at hhash
    split_ifs at hhash with heq
    · rw [heq]
      exact hslot
    · exact h.slots slot hash hhash
  histories := by
    intro v state hstate
    rw [hstep.rootSlot]
    rw [hstep.validatorStates, Table.lookup_insert] at hstate
    split_ifs at hstate
    · obtain rfl := Option.some.inj hstate
      exact historyFrom_votedState h hslot
    · exact h.histories v state hstate

theorem AboveRoot.slot_of_accept (h : AboveRoot t') (hstep : Accepts C order t vote t') :
    t.rootSlot ≤ vote.slot := by
  rw [← hstep.rootSlot]
  refine h.slots vote.slot vote.blockHash ?_
  rw [hstep.slotToHash, Finmap.lookup_insert]

theorem aboveRoot_advanceRoot (t : Tower) (newRoot : UInt64) : AboveRoot (t.advanceRoot newRoot) where
  nodes := fun hash n hn => ((lookup_advanceRoot_eq_some t newRoot).mp hn).2
  slots := by
    intro slot hash hhash
    rw [advanceRoot, Table.lookup_retain, Option.filter_eq_some_iff, decide_eq_true_eq] at hhash
    exact hhash.2
  histories := by
    intro v state hstate entry hentry
    rw [advanceRoot, Table.lookup_mapValues] at hstate
    obtain ⟨old, -, rfl⟩ := Option.map_eq_some_iff.mp hstate
    have hkept : (settled newRoot old).history = (old.updateRoot newRoot).history := by
      rw [settled]
      split <;> rfl
    rw [hkept, VoteState.updateRoot, List.mem_filter, decide_eq_true_eq] at hentry
    exact hentry.2

theorem aboveRoot_call_iff (h : AboveRoot t) {c : TowerCall} :
    (True ∧ ∀ t', t.call C c = some t' → AboveRoot t') ↔ votesFromRoot C t c := by
  cases c with
  | registerValidator v stake =>
    refine iff_of_true ⟨trivial, fun t' hstep => ?_⟩ trivial
    obtain rfl := Option.some.inj hstep
    exact h.register v stake
  | processVote order vote =>
    constructor
    · rintro ⟨-, hall⟩ hadmits hreturns
      obtain ⟨t', hstep⟩ := Option.isSome_iff_exists.mp hreturns
      obtain hrejects | haccepts := vote_cases hstep
      · rw [hrejects.refused] at hadmits
        cases hadmits
      · exact (hall t' hstep).slot_of_accept haccepts
    · intro hfrom
      refine ⟨trivial, fun t' hstep => ?_⟩
      obtain hrejects | haccepts := vote_cases hstep
      · exact h.reject hrejects
      · exact h.accept haccepts (hfrom haccepts.admitted (Option.isSome_of_eq_some hstep))
  | advanceRoot newRoot =>
    refine iff_of_true ⟨trivial, fun t' hstep => ?_⟩ trivial
    obtain rfl := Option.some.inj hstep
    exact aboveRoot_advanceRoot t newRoot

theorem rootSlot_call {c : TowerCall} (hc : c.advances = false) (hstep : t.call C c = some t') :
    t'.rootSlot = t.rootSlot := by
  cases c with
  | registerValidator v stake =>
    obtain rfl := Option.some.inj hstep
    rfl
  | processVote order vote =>
    obtain hrejects | haccepts := vote_cases hstep
    · exact hrejects.rootSlot
    · exact haccepts.rootSlot
  | advanceRoot newRoot => cases hc

theorem rootSlot_run {calls : List TowerCall} (hcalls : ∀ c ∈ calls, c.advances = false)
    (hrun : run C t calls = some t') : t'.rootSlot = t.rootSlot := by
  induction calls generalizing t with
  | nil =>
    obtain rfl := Option.some.inj hrun
    rfl
  | cons c rest ih =>
    rw [List.forall_mem_cons] at hcalls
    obtain ⟨u, hstep, hrest⟩ := Option.bind_eq_some_iff.mp hrun
    rw [ih hcalls.2 hrest, rootSlot_call hcalls.1 hstep]

end Steps

theorem nothing_below_root_returns (C : Crypto) (t : Tower) (r : UInt64) (calls : List TowerCall) :
    (Throughout (call C) AboveRoot (fun _ _ => True) (t.advanceRoot r) calls ↔
        Respects (call C) (votesFromRoot C) (t.advanceRoot r) calls) ∧
      ∀ t', (∀ c ∈ calls, c.advances = false) → run C (t.advanceRoot r) calls = some t' →
        t'.rootSlot = r := by
  refine ⟨?_, fun t' hcalls hrun => rootSlot_run hcalls hrun⟩
  exact Throughout.iff_respects (I := fun _ => True) (fun _ _ => trivial)
    (fun _ hQ => aboveRoot_call_iff hQ) trivial (aboveRoot_advanceRoot t r)

def belated : List TowerCall := [.processVote .byKey (ballot 1 5 1 none)]

theorem fresh_validator_votes_below_root :
    ∃ t n state, run acceptingCrypto ((Tower.new 0).advanceRoot 10) belated = some t ∧
      t.rootSlot = 10 ∧ t.nodes.lookup (Bytes32.splat 1) = some n ∧ n.slot = 5 ∧
      t.slotToHash.lookup 5 = some (Bytes32.splat 1) ∧
      t.validatorStates.lookup (Bytes32.splat 1) = some state ∧
      state.history.map VoteHistoryEntry.slot = [5] := by
  have hdata : ((run acceptingCrypto ((Tower.new 0).advanceRoot 10) belated).bind fun t =>
      (t.nodes.lookup (Bytes32.splat 1)).bind fun n =>
        (t.validatorStates.lookup (Bytes32.splat 1)).map fun state =>
          (t.rootSlot, n.slot, t.slotToHash.lookup 5, state.history.map VoteHistoryEntry.slot)) =
      some (10, 5, some (Bytes32.splat 1), [5]) := by decide +kernel
  obtain ⟨t, hrun, hnode⟩ := Option.bind_eq_some_iff.mp hdata
  obtain ⟨n, hn, hstates⟩ := Option.bind_eq_some_iff.mp hnode
  obtain ⟨state, hstate, heq⟩ := Option.map_eq_some_iff.mp hstates
  simp only [Prod.mk.injEq] at heq
  exact ⟨t, n, state, hrun, heq.1, hn, heq.2.1, heq.2.2.1, hstate, heq.2.2.2⟩

end Tower

end TrustNode.Consensus
