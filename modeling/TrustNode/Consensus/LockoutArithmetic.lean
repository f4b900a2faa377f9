import TrustNode.Base.Sha256
import TrustNode.Consensus.Calls

namespace TrustNode.Consensus

namespace Tower

structure ChecksLockout (C : Crypto) (t : Tower) (vote : Vote) : Prop where
  signed : vote.verifySignature C = true
  later : (t.refreshed vote).lastVoteSlot < vote.slot
  switches : t.isForkSwitch vote = true

def lockoutExact (C : Crypto) (t : Tower) (delivery : IterationOrder × Vote) : Prop :=
  ChecksLockout C t delivery.2 →
    (t.refreshed delivery.2).unlockSlot < 2 ^ 64 ∧
      ((t.refreshed delivery.2).canSwitchFork delivery.2.slot = true ↔
        (t.refreshed delivery.2).unlockSlot ≤ delivery.2.slot.toNat)

def unlocksInRange (C : Crypto) (t : Tower) (delivery : IterationOrder × Vote) : Prop :=
  ChecksLockout C t delivery.2 → t.reroots delivery.2 = false →
    (t.stateOf delivery.2.validator).unlockSlot < 2 ^ 64

def leavesRoom (C : Crypto) (t : Tower) (delivery : IterationOrder × Vote) : Prop :=
  t.admits C delivery.2 = true → delivery.2.slot.toNat + 2 ^ 31 < 2 ^ 64

def LastVotesLeaveRoom (t : Tower) : Prop :=
  ∀ v, (t.stateOf v).lastVoteSlot.toNat + 2 ^ 31 < 2 ^ 64

section Steps

variable {C : Crypto} {t t' : Tower} {delivery : IterationOrder × Vote}

theorem unlockSlot_refreshed_lt_iff {vote : Vote}
    (hlater : (t.refreshed vote).lastVoteSlot < vote.slot) :
    (t.refreshed vote).unlockSlot < 2 ^ 64 ↔
      (t.reroots vote = false → (t.stateOf vote.validator).unlockSlot < 2 ^ 64) := by
  have hslot := vote.slot.toNat_lt
  rw [lastVoteSlot_refreshed, UInt64.lt_iff_toNat_lt] at hlater
  cases hreroots : t.reroots vote with
  | false => simp [refreshed, hreroots]
  | true =>
    refine iff_of_true ?_ fun hkept => by cases hkept
    rw [refreshed, if_pos hreroots, VoteState.unlockSlot_resetLockout]
    omega

theorem lockoutExact_iff (C : Crypto) (t : Tower) (delivery : IterationOrder × Vote) :
    lockoutExact C t delivery ↔ unlocksInRange C t delivery := by
  refine forall_congr' fun hchecks => ?_
  rw [← unlockSlot_refreshed_lt_iff hchecks.later]
  refine and_iff_left_of_imp fun hfits => ?_
  rw [VoteState.canSwitchFork_iff hchecks.later]
  exact or_iff_left (Nat.not_le.mpr hfits)

theorem LastVotesLeaveRoom.of_unvoted (h : Unvoted t) : LastVotesLeaveRoom t := by
  intro v
  rw [h.states]
  change (0 : UInt64).toNat + 2 ^ 31 < 2 ^ 64
  decide

theorem LastVotesLeaveRoom.unlocks (h : LastVotesLeaveRoom t) : unlocksInRange C t delivery := by
  intro _ _
  have hlockout := (t.stateOf delivery.2.validator).toNat_lockoutSlots_le
  have hlast := h delivery.2.validator
  rw [VoteState.unlockSlot]
  omega

theorem LastVotesLeaveRoom.vote (h : LastVotesLeaveRoom t) (hroom : leavesRoom C t delivery)
    (hstep : t.vote C delivery = some t') : LastVotesLeaveRoom t' := by
  intro v
  obtain hrejects | haccepts := vote_cases hstep
  · rw [hrejects.lastVoteSlot]
    exact h v
  · rw [haccepts.stateOf]
    split_ifs
    · exact hroom haccepts.admitted
    · exact h v

end Steps

theorem lockout_arithmetic_safe (C : Crypto) (genesisSlot : UInt64)
    (registrations : List (ValidatorId × UInt64)) (deliveries : List (IterationOrder × Vote)) :
    (Respects (vote C) (leavesRoom C) (registered genesisSlot registrations) deliveries →
        Respects (vote C) (lockoutExact C) (registered genesisSlot registrations) deliveries) ∧
      (Respects (vote C) (lockoutExact C) (registered genesisSlot registrations) deliveries ↔
        Respects (vote C) (unlocksInRange C) (registered genesisSlot registrations) deliveries) := by
  refine ⟨fun hroom => ?_, Respects.congr (lockoutExact_iff C)⟩
  rw [Respects.congr (lockoutExact_iff C)]
  exact Respects.of_invariant (fun h hroom hstep => h.vote hroom hstep) (fun h _ => h.unlocks)
    (LastVotesLeaveRoom.of_unvoted (unvoted_registered genesisSlot registrations)) hroom

def lateVote : Vote := ballot 1 (UInt64.ofNat (2 ^ 64 - 2)) 1 none

def latestVote : Vote := ballot 1 (UInt64.ofNat (2 ^ 64 - 1)) 2 none

theorem wrapped_lockout_unlocks :
    ∃ t t', (registered 0 []).vote acceptingCrypto (.byKey, lateVote) = some t ∧
      ChecksLockout acceptingCrypto t latestVote ∧ (t.refreshed latestVote).unlockSlot = 2 ^ 64 ∧
      t.processVote acceptingCrypto .byKey latestVote = some (true, t') ∧
      ¬lockoutExact acceptingCrypto t (.byKey, latestVote) := by
  have hdata : (((registered 0 []).vote acceptingCrypto (.byKey, lateVote)).bind fun t =>
      (t.processVote acceptingCrypto .byKey latestVote).map fun r =>
        (r.1, latestVote.verifySignature acceptingCrypto, t.isForkSwitch latestVote,
          decide ((t.refreshed latestVote).lastVoteSlot < latestVote.slot),
          (t.refreshed latestVote).unlockSlot)) =
      some (true, true, true, true, 2 ^ 64) := by decide +kernel
  obtain ⟨t, hfirst, hsecond⟩ := Option.bind_eq_some_iff.mp hdata
  obtain ⟨⟨accepted, t'⟩, hstep, heq⟩ := Option.map_eq_some_iff.mp hsecond
  simp only [Prod.mk.injEq, decide_eq_true_eq] at heq
  obtain ⟨rfl, hsigned, hswitches, hlater, hunlock⟩ := heq
  have hchecks : ChecksLockout acceptingCrypto t latestVote := ⟨hsigned, hlater, hswitches⟩
  refine ⟨t, t', hfirst, hchecks, hunlock, hstep, fun hexact => ?_⟩
  exact absurd (hexact hchecks).1 (Nat.not_lt.mpr hunlock.ge)

end Tower

end TrustNode.Consensus
