import TrustNode.Base.Crypto
import TrustNode.Base.Word

namespace TrustNode.Consensus

open Bytes
open Word

abbrev ValidatorId := Bytes32

abbrev BlockHash := Bytes32

structure Vote where
  validator : ValidatorId
  slot : UInt64
  blockHash : BlockHash
  parentSlot : Option UInt64
  timestamp : UInt64
  signature : Bytes
  stateHash : Bytes32
deriving DecidableEq

namespace Vote

def signableData (vote : Vote) : Bytes :=
  vote.validator.toList ++ u64ToLe vote.slot ++ vote.blockHash.toList ++
    (match vote.parentSlot with
      | some parent => 1 :: u64ToLe parent
      | none => [0]) ++
    u64ToLe vote.timestamp ++ vote.stateHash.toList

def verifySignature (C : Crypto) (vote : Vote) : Bool :=
  C.verify vote.validator vote.signableData vote.signature

end Vote

structure VoteHistoryEntry where
  slot : UInt64
  blockHash : BlockHash
  timestamp : UInt64
deriving DecidableEq

structure VoteState where
  validator : ValidatorId
  rootSlot : UInt64
  lastVoteSlot : UInt64
  lastVoteHash : BlockHash
  consecutiveVotes : UInt64
  lockoutMultiplier : UInt64
  totalVotes : UInt64
  history : List VoteHistoryEntry
deriving DecidableEq

namespace VoteState

def new (validator : ValidatorId) (genesisSlot : UInt64) : VoteState where
  validator := validator
  rootSlot := genesisSlot
  lastVoteSlot := 0
  lastVoteHash := Bytes32.splat 0
  consecutiveVotes := 0
  lockoutMultiplier := 1
  totalVotes := 0
  history := []

def processVote (state : VoteState) (vote : Vote) : VoteState :=
  let history := state.history ++ [⟨vote.slot, vote.blockHash, vote.timestamp⟩]
  { state with
    lastVoteSlot := vote.slot
    lastVoteHash := vote.blockHash
    consecutiveVotes := state.consecutiveVotes + 1
    totalVotes := state.totalVotes + 1
    history := if 32 < history.length then history.drop 1 else history }

def lockoutSlots (state : VoteState) : UInt64 :=
  UInt64.ofNat (2 ^ min state.consecutiveVotes.toNat 31)

def canSwitchFork (state : VoteState) (currentSlot : UInt64) : Bool :=
  decide (state.lastVoteSlot + state.lockoutSlots ≤ currentSlot)

def switchFork (state : VoteState) : VoteState :=
  { state with
    consecutiveVotes := 0
    lockoutMultiplier := saturatingMul state.lockoutMultiplier 2 }

def resetLockout (state : VoteState) : VoteState :=
  { state with consecutiveVotes := 0, lockoutMultiplier := 1 }

def updateRoot (state : VoteState) (newRoot : UInt64) : VoteState :=
  { state with
    rootSlot := newRoot
    history := state.history.filter fun entry => newRoot ≤ entry.slot }

theorem toNat_lockoutSlots (state : VoteState) :
    state.lockoutSlots.toNat = 2 ^ min state.consecutiveVotes.toNat 31 := by
  have hle : 2 ^ min state.consecutiveVotes.toNat 31 ≤ 2 ^ 31 :=
    Nat.pow_le_pow_right (by decide) (min_le_right _ _)
  rw [lockoutSlots, UInt64.toNat_ofNat', Nat.mod_eq_of_lt]
  omega

def unlockSlot (state : VoteState) : ℕ := state.lastVoteSlot.toNat + state.lockoutSlots.toNat

theorem toNat_lockoutSlots_le (state : VoteState) : state.lockoutSlots.toNat ≤ 2 ^ 31 := by
  rw [toNat_lockoutSlots]
  exact Nat.pow_le_pow_right (by decide) (min_le_right _ _)

theorem unlockSlot_resetLockout (state : VoteState) :
    state.resetLockout.unlockSlot = state.lastVoteSlot.toNat + 1 := by
  rw [unlockSlot, toNat_lockoutSlots]
  rfl

theorem canSwitchFork_iff {state : VoteState} {slot : UInt64} (hlast : state.lastVoteSlot < slot) :
    state.canSwitchFork slot = true ↔ state.unlockSlot ≤ slot.toNat ∨ 2 ^ 64 ≤ state.unlockSlot := by
  have hlockout := state.toNat_lockoutSlots_le
  have hslot := slot.toNat_lt
  rw [UInt64.lt_iff_toNat_lt] at hlast
  rw [canSwitchFork, decide_eq_true_eq, UInt64.le_iff_toNat_le, UInt64.toNat_add, unlockSlot]
  -- A sum that wraps falls below the last vote's slot, which the new slot is already above.
  omega

end VoteState

end TrustNode.Consensus
