import TrustNode.Base.Sha256
import TrustNode.Consensus.Step

namespace TrustNode.Consensus

def streak (accepted : List Vote) : UInt64 × ℕ :=
  accepted.foldl
    (fun acc vote => (vote.slot, if vote.parentSlot = some acc.1 then acc.2 + 1 else 1)) (0, 0)

def LockoutEnforced (accepted : List Vote) : Prop :=
  ∀ before v₁ v₂ after, accepted = before ++ v₁ :: v₂ :: after → v₂.parentSlot ≠ some v₁.slot →
    v₁.slot.toNat + 2 ^ min (streak (before ++ [v₁])).2 31 ≤ v₂.slot.toNat

theorem streak_append (accepted : List Vote) (vote : Vote) :
    streak (accepted ++ [vote]) =
      (vote.slot,
        if vote.parentSlot = some (streak accepted).1 then (streak accepted).2 + 1 else 1) := by
  rw [streak, List.foldl_append]
  rfl

theorem LockoutEnforced.append {accepted : List Vote} {vote : Vote} (h : LockoutEnforced accepted)
    (hlast : vote.parentSlot ≠ some (streak accepted).1 →
      (streak accepted).1.toNat + 2 ^ min (streak accepted).2 31 ≤ vote.slot.toNat) :
    LockoutEnforced (accepted ++ [vote]) := by
  intro before v₁ v₂ after heq hparent
  rcases List.eq_nil_or_concat after with rfl | ⟨after, last, rfl⟩
  · have hsplit : accepted ++ [vote] = (before ++ [v₁]) ++ [v₂] := by simpa using heq
    obtain ⟨rfl, hvote⟩ := List.append_inj' hsplit rfl
    obtain rfl := List.singleton_inj.mp hvote
    have hslot : (streak (before ++ [v₁])).1 = v₁.slot := by rw [streak_append]
    rw [hslot] at hlast
    exact hlast hparent
  · have hsplit : accepted ++ [vote] = (before ++ v₁ :: v₂ :: after) ++ [last] := by
      simpa using heq
    obtain ⟨rfl, -⟩ := List.append_inj' hsplit rfl
    exact h before v₁ v₂ after rfl hparent

namespace Tower

def acceptedBy (v : ValidatorId) (results : List (Vote × Bool)) : List Vote :=
  (results.filter fun r => r.2 && decide (r.1.validator = v)).map Prod.fst

theorem acceptedBy_append (v : ValidatorId) (results : List (Vote × Bool)) (vote : Vote)
    (accepted : Bool) :
    acceptedBy v (results ++ [(vote, accepted)]) =
      acceptedBy v results ++ if accepted ∧ vote.validator = v then [vote] else [] := by
  cases accepted with
  | false => simp [acceptedBy]
  | true => by_cases hv : vote.validator = v <;> simp [acceptedBy, hv]

def keepsLockout (C : Crypto) (t : Tower) (vote : Vote) : Prop :=
  vote.verifySignature C = true →
    (t.reroots vote = true → (t.stateOf vote.validator).consecutiveVotes = 0) ∧
    (t.isForkSwitch vote = true →
      (t.stateOf vote.validator).lastVoteSlot.toNat +
        2 ^ min (t.stateOf vote.validator).consecutiveVotes.toNat 31 < 2 ^ 64)

instance (C : Crypto) (t : Tower) (vote : Vote) : Decidable (keepsLockout C t vote) :=
  inferInstanceAs (Decidable (_ → _ ∧ _))

structure Tracked (results : List (Vote × Bool)) (t : Tower) : Prop where
  last : ∀ v, (t.stateOf v).lastVoteSlot = (streak (acceptedBy v results)).1
  count : ∀ v, (t.stateOf v).consecutiveVotes.toNat = (streak (acceptedBy v results)).2
  bounded : ∀ v, (t.stateOf v).consecutiveVotes ≤ (t.stateOf v).lastVoteSlot
  enforced : ∀ v, LockoutEnforced (acceptedBy v results)

namespace Tracked

variable {C : Crypto} {order : IterationOrder} {results : List (Vote × Bool)} {t t' : Tower}
  {vote : Vote}

theorem of_unvoted (h : Unvoted t) : Tracked [] t := by
  refine ⟨fun v => ?_, fun v => ?_, fun v => ?_, fun v => ?_⟩
  · rw [h.states]
    rfl
  · rw [h.states]
    rfl
  · rw [h.states]
    exact UInt64.le_refl 0
  · intro before v₁ v₂ after heq
    simp [acceptedBy] at heq

theorem consecutiveVotes_refreshed (hsig : vote.verifySignature C = true)
    (hkeeps : keepsLockout C t vote) :
    (t.refreshed vote).consecutiveVotes = (t.stateOf vote.validator).consecutiveVotes := by
  unfold refreshed
  split
  · next hreroots => exact ((hkeeps hsig).1 hreroots).symm
  · rfl

theorem consecutiveVotes_votedState (hsig : vote.verifySignature C = true)
    (hkeeps : keepsLockout C t vote) :
    (t.votedState vote).consecutiveVotes =
      if vote.parentSlot = some (t.stateOf vote.validator).lastVoteSlot then
        (t.stateOf vote.validator).consecutiveVotes + 1
      else 1 := by
  rw [← consecutiveVotes_refreshed hsig hkeeps, ← lastVoteSlot_refreshed, votedState, isForkSwitch]
  split_ifs with hswitch hparent hparent
  · exact absurd hparent (of_decide_eq_true hswitch)
  · rfl
  · rfl
  · exact absurd (decide_eq_true hparent) hswitch

theorem reject (h : Tracked results t) (hkeeps : keepsLockout C t vote)
    (hstep : Rejects C t vote t') : Tracked (results ++ [(vote, false)]) t' := by
  have hsame : ∀ v, acceptedBy v (results ++ [(vote, false)]) = acceptedBy v results := by
    intro v
    simp [acceptedBy_append]
  have hvotes : ∀ v, (t'.stateOf v).consecutiveVotes = (t.stateOf v).consecutiveVotes := by
    intro v
    rw [hstep.stateOf]
    split
    · next hv => rw [consecutiveVotes_refreshed hv.1 hkeeps, hv.2]
    · rfl
  refine ⟨fun v => ?_, fun v => ?_, fun v => ?_, fun v => ?_⟩
  · rw [hsame, hstep.lastVoteSlot, h.last]
  · rw [hsame, hvotes, h.count]
  · rw [hvotes, hstep.lastVoteSlot]
    exact h.bounded v
  · rw [hsame]
    exact h.enforced v

theorem lockout_le (hkeeps : keepsLockout C t vote) (hadmits : t.admits C vote = true)
    (hswitch : t.isForkSwitch vote = true) :
    (t.stateOf vote.validator).lastVoteSlot.toNat +
      2 ^ min (t.stateOf vote.validator).consecutiveVotes.toNat 31 ≤ vote.slot.toNat := by
  simp only [admits, Bool.and_eq_true, decide_eq_true_eq, hswitch, Bool.not_true,
    Bool.false_or] at hadmits
  obtain ⟨⟨hsig, hlater⟩, hcan⟩ := hadmits
  have hfits := (hkeeps hsig).2 hswitch
  rw [← consecutiveVotes_refreshed hsig hkeeps, ← lastVoteSlot_refreshed,
    ← VoteState.toNat_lockoutSlots] at hfits ⊢
  obtain hle | hover := (VoteState.canSwitchFork_iff hlater).mp hcan
  · exact hle
  · exact absurd hfits (Nat.not_lt.mpr hover)

-- The count is at most the last slot voted for, and a new vote is for a later one: it never wraps.
theorem votes_after (hbound : (t.stateOf vote.validator).consecutiveVotes ≤
      (t.stateOf vote.validator).lastVoteSlot)
    (hadmits : t.admits C vote = true) (hkeeps : keepsLockout C t vote) :
    (t.votedState vote).consecutiveVotes.toNat =
        (if vote.parentSlot = some (t.stateOf vote.validator).lastVoteSlot then
          (t.stateOf vote.validator).consecutiveVotes.toNat + 1
        else 1) ∧
      (t.votedState vote).consecutiveVotes ≤ vote.slot := by
  simp only [admits, Bool.and_eq_true, decide_eq_true_eq] at hadmits
  obtain ⟨⟨hsig, hlater⟩, -⟩ := hadmits
  have hslot := vote.slot.toNat_lt
  rw [lastVoteSlot_refreshed, UInt64.lt_iff_toNat_lt] at hlater
  rw [UInt64.le_iff_toNat_le] at hbound
  rw [consecutiveVotes_votedState hsig hkeeps, UInt64.le_iff_toNat_le]
  have hone : (1 : UInt64).toNat = 1 := rfl
  split_ifs
  · rw [UInt64.toNat_add, hone]
    omega
  · rw [hone]
    omega

theorem accept (h : Tracked results t) (hkeeps : keepsLockout C t vote)
    (hstep : Accepts C order t vote t') : Tracked (results ++ [(vote, true)]) t' := by
  have hcast : ∀ v, acceptedBy v (results ++ [(vote, true)]) =
      acceptedBy v results ++ if vote.validator = v then [vote] else [] := by
    intro v
    simp [acceptedBy_append]
  obtain ⟨hcount, hbound⟩ := votes_after (h.bounded vote.validator) hstep.admitted hkeeps
  refine ⟨fun v => ?_, fun v => ?_, fun v => ?_, fun v => ?_⟩
  · rw [hcast, hstep.stateOf]
    by_cases hv : v = vote.validator
    · subst hv
      simp [streak_append]
    · simp [hv, Ne.symm hv, h.last]
  · rw [hcast, hstep.stateOf]
    by_cases hv : v = vote.validator
    · subst hv
      rw [if_pos rfl, if_pos rfl, streak_append, hcount, h.last, h.count]
    · simp [hv, Ne.symm hv, h.count]
  · rw [hstep.stateOf]
    split_ifs
    · exact hbound
    · exact h.bounded v
  · rw [hcast]
    by_cases hv : vote.validator = v
    · subst hv
      rw [if_pos rfl]
      refine (h.enforced _).append fun hparent => ?_
      have hswitch : t.isForkSwitch vote = true := by
        rw [isForkSwitch, lastVoteSlot_refreshed, h.last]
        exact decide_eq_true hparent
      rw [← h.last, ← h.count]
      exact lockout_le hkeeps hstep.admitted hswitch
    · rw [if_neg hv, List.append_nil]
      exact h.enforced v

theorem run {start : Tower} (hstart : Tracked [] start)
    (hrun : Votes C (keepsLockout C) start results t) : Tracked results t :=
  hrun.invariant hstart (fun h hallowed hstep => h.reject hallowed hstep) fun h hallowed hstep =>
    h.accept hallowed hstep

end Tracked

theorem lockout_enforced (C : Crypto) (genesisSlot : UInt64)
    (registrations : List (ValidatorId × UInt64)) (results : List (Vote × Bool)) (t : Tower)
    (hrun : Votes C (keepsLockout C) (registered genesisSlot registrations) results t)
    (v : ValidatorId) : LockoutEnforced (acceptedBy v results) :=
  ((Tracked.of_unvoted (unvoted_registered genesisSlot registrations)).run hrun).enforced v

def chainOfFour : List Vote :=
  [ballot 1 1 1 (some 0), ballot 1 2 2 (some 1), ballot 1 3 3 (some 2), ballot 1 4 4 (some 3)]

theorem locked_validator_switches_after_lockout :
    ∃ results t, Votes acceptingCrypto (keepsLockout acceptingCrypto) (registered 0 []) results t ∧
      acceptedBy (Bytes32.splat 1) results = chainOfFour ++ [ballot 1 20 20 (some 1)] ∧
      LockoutEnforced (acceptedBy (Bytes32.splat 1) results) := by
  let final := play acceptingCrypto (keepsLockout acceptingCrypto) .byKey (registered 0 [])
    (chainOfFour ++ [ballot 1 5 20 (some 1), ballot 1 20 20 (some 1)])
  have haccepted : final.map (fun f => acceptedBy (Bytes32.splat 1) f.1) =
      some (chainOfFour ++ [ballot 1 20 20 (some 1)]) := by decide +kernel
  obtain ⟨⟨results, t⟩, hplay, hresults⟩ := Option.map_eq_some_iff.mp haccepted
  have hrun : Votes acceptingCrypto (keepsLockout acceptingCrypto) (registered 0 []) results t :=
    (votes_of_deliver hplay).1
  exact ⟨results, t, hrun, hresults, lockout_enforced acceptingCrypto 0 [] results t hrun _⟩

theorem replayed_vote_clears_lockout :
    ∃ results t, Votes acceptingCrypto anyVote (registered 0 []) results t ∧
      results = chainOfFour.map (·, true) ++
        [(ballot 1 1 1 (some 0), false), (ballot 1 5 5 (some 1), true)] ∧
      ¬LockoutEnforced (acceptedBy (Bytes32.splat 1) results) := by
  let final := play acceptingCrypto anyVote .byKey (registered 0 [])
    (chainOfFour ++ [ballot 1 1 1 (some 0), ballot 1 5 5 (some 1)])
  have hfinal : final.map Prod.fst = some (chainOfFour.map (·, true) ++
      [(ballot 1 1 1 (some 0), false), (ballot 1 5 5 (some 1), true)]) := by decide +kernel
  obtain ⟨⟨results, t⟩, hplay, hresults⟩ := Option.map_eq_some_iff.mp hfinal
  refine ⟨results, t, (votes_of_deliver hplay).1, hresults, fun henforced => ?_⟩
  change results = _ at hresults
  subst hresults
  have hbound := henforced (chainOfFour.take 3) (ballot 1 4 4 (some 3)) (ballot 1 5 5 (some 1)) []
    (by decide +kernel) (by decide)
  revert hbound
  decide +kernel

end Tower

end TrustNode.Consensus
