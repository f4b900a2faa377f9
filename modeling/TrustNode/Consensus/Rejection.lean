import TrustNode.Base.Sha256
import TrustNode.Consensus.Calls

namespace TrustNode.Consensus

namespace Tower

structure AtRest (state : VoteState) : Prop where
  votes : state.consecutiveVotes = 0
  multiplier : state.lockoutMultiplier = 1

def Inert (C : Crypto) (t : Tower) (vote : Vote) : Prop :=
  vote.verifySignature C = true →
    vote.validator ∈ t.validatorStates.keys ∧
      (t.reroots vote = true → AtRest (t.stateOf vote.validator))

section Effect

variable {C : Crypto} {order : IterationOrder} {t t' : Tower} {vote : Vote}

theorem resetLockout_eq_self_iff {state : VoteState} : state.resetLockout = state ↔ AtRest state := by
  constructor
  · intro h
    exact ⟨(congrArg VoteState.consecutiveVotes h).symm,
      (congrArg VoteState.lockoutMultiplier h).symm⟩
  · rintro ⟨hvotes, hmultiplier⟩
    rw [VoteState.resetLockout, ← hvotes, ← hmultiplier]

theorem refreshed_eq_iff :
    t.refreshed vote = t.stateOf vote.validator ↔
      (t.reroots vote = true → AtRest (t.stateOf vote.validator)) := by
  rw [refreshed]
  split_ifs with hroot
  · simp [hroot, resetLockout_eq_self_iff]
  · simp [hroot]

theorem putState_eq_self_iff {validator : ValidatorId} {state : VoteState} :
    t.putState validator state = t ↔ t.validatorStates.lookup validator = some state := by
  constructor
  · intro h
    rw [← congrArg Tower.validatorStates h, putState, Finmap.lookup_insert]
  · intro h
    have hsame : t.validatorStates.insert validator state = t.validatorStates := by
      apply Finmap.ext_lookup
      intro other
      rw [Table.lookup_insert]
      split_ifs with heq
      · rw [heq, h]
      · rfl
    rw [putState, hsame]

theorem skip_eq_self_iff :
    t.skip vote = t ↔ vote.validator ∈ t.validatorStates.keys ∧
      (t.reroots vote = true → AtRest (t.stateOf vote.validator)) := by
  rw [skip, putState_eq_self_iff, ← refreshed_eq_iff, Table.mem_keys_iff, stateOf]
  cases t.validatorStates.lookup vote.validator with
  | none => simp
  | some state => simp [eq_comm]

theorem Rejects.eq_self_iff (h : Rejects C t vote t') : t' = t ↔ Inert C t vote := by
  rw [h.tower, Inert]
  split_ifs with hsignature
  · rw [skip_eq_self_iff]
    simp [hsignature]
  · simp [hsignature]

end Effect

theorem rejected_vote_inert (C : Crypto) (order : IterationOrder) (vote : Vote) (t t' : Tower)
    (h : t.processVote C order vote = some (false, t')) :
    t' = { t with validatorStates := t'.validatorStates } ∧
      ((t' = t ∧ t'.totalStake = t.totalStake) ↔ Inert C t vote) := by
  obtain ⟨-, hrejects⟩ | ⟨haccepted, -⟩ := processVote_eq_some h
  · refine ⟨?_, ?_⟩
    · rw [hrejects.tower]
      split_ifs <;> rfl
    · rw [← hrejects.eq_self_iff]
      exact ⟨fun h => h.1, fun h => ⟨h, by rw [h]⟩⟩
  · cases haccepted

theorem stale_vote_of_registered_validator_inert :
    ∃ t', (registered 0 [(Bytes32.splat 1, 5)]).processVote acceptingCrypto .byKey
        (ballot 1 0 1 none) = some (false, t') ∧ t' = registered 0 [(Bytes32.splat 1, 5)] := by
  have hflag : ((registered 0 [(Bytes32.splat 1, 5)]).processVote acceptingCrypto .byKey
      (ballot 1 0 1 none)).map Prod.fst = some false := by decide +kernel
  obtain ⟨⟨flag, t'⟩, hvote, rfl⟩ := Option.map_eq_some_iff.mp hflag
  have hinert : Inert acceptingCrypto (registered 0 [(Bytes32.splat 1, 5)]) (ballot 1 0 1 none) :=
    fun _ => ⟨by decide +kernel, fun hroot => absurd hroot (by decide +kernel)⟩
  have hall := rejected_vote_inert acceptingCrypto .byKey _ _ t' hvote
  exact ⟨t', hvote, (hall.2.mpr hinert).1⟩

def lockedIn : List TowerCall :=
  [.processVote .byKey (ballot 1 1 1 (some 0)), .processVote .byKey (ballot 1 2 2 (some 1))]

theorem rejected_votes_leave_traces :
    (∃ t t', run acceptingCrypto (.new 0) lockedIn = some t ∧
        t.processVote acceptingCrypto .byKey (ballot 1 1 1 (some 0)) = some (false, t') ∧
        (t.stateOf (Bytes32.splat 1)).consecutiveVotes = 2 ∧
        (t'.stateOf (Bytes32.splat 1)).consecutiveVotes = 0) ∧
      ∃ t', (Tower.new 0).processVote acceptingCrypto .byKey (ballot 2 0 1 none) = some (false, t') ∧
        (Tower.new 0).totalStake = 0 ∧ t'.totalStake = 1 := by
  have hreplay : ((run acceptingCrypto (.new 0) lockedIn).bind fun t =>
      (t.processVote acceptingCrypto .byKey (ballot 1 1 1 (some 0))).map fun r =>
        (r.1, (t.stateOf (Bytes32.splat 1)).consecutiveVotes,
          (r.2.stateOf (Bytes32.splat 1)).consecutiveVotes)) = some (false, 2, 0) := by
    decide +kernel
  have hfresh : ((Tower.new 0).processVote acceptingCrypto .byKey (ballot 2 0 1 none)).map
      (fun r => (r.1, r.2.totalStake)) = some (false, 1) := by decide +kernel
  constructor
  · obtain ⟨t, hrun, hvoted⟩ := Option.bind_eq_some_iff.mp hreplay
    obtain ⟨⟨flag, t'⟩, hvote, heq⟩ := Option.map_eq_some_iff.mp hvoted
    simp only [Prod.mk.injEq] at heq
    obtain ⟨rfl, hbefore, hafter⟩ := heq
    exact ⟨t, t', hrun, hvote, hbefore, hafter⟩
  · obtain ⟨⟨flag, t'⟩, hvote, heq⟩ := Option.map_eq_some_iff.mp hfresh
    obtain ⟨rfl, hstake⟩ := Prod.mk.inj heq
    exact ⟨t', hvote, by decide +kernel, hstake⟩

end Tower

end TrustNode.Consensus
