import TrustNode.Base.Table
import TrustNode.Consensus.Vote

namespace TrustNode.Consensus

open Word

def defaultStake : UInt64 := 1

structure TowerNode where
  blockHash : BlockHash
  slot : UInt64
  parentSlot : Option UInt64
  parentHash : Option BlockHash
  weight : UInt64
  voters : List ValidatorId
  children : List BlockHash
deriving DecidableEq

structure IterationOrder where
  run : List BlockHash → List BlockHash
  perm : ∀ hashes, (run hashes).Perm hashes

def IterationOrder.byKey : IterationOrder where
  run := id
  perm := fun _ => .refl _

structure Tower where
  nodes : Table BlockHash TowerNode
  validatorStates : Table ValidatorId VoteState
  stakes : Table ValidatorId UInt64
  slotToHash : Table UInt64 BlockHash
  rootSlot : UInt64
  bestHead : Option BlockHash
  totalVotes : UInt64
  totalSwitches : UInt64

abbrev Memo := Table BlockHash UInt64

structure Candidate where
  hash : BlockHash
  weight : UInt64
  slot : UInt64
deriving DecidableEq

namespace Tower

def new (genesisSlot : UInt64) : Tower where
  nodes := ∅
  validatorStates := ∅
  stakes := ∅
  slotToHash := ∅
  rootSlot := genesisSlot
  bestHead := none
  totalVotes := 0
  totalSwitches := 0

def stateOf (t : Tower) (validator : ValidatorId) : VoteState :=
  (t.validatorStates.lookup validator).getD (.new validator t.rootSlot)

def putState (t : Tower) (validator : ValidatorId) (state : VoteState) : Tower :=
  { t with validatorStates := t.validatorStates.insert validator state }

def registerValidator (t : Tower) (validator : ValidatorId) (stake : UInt64) : Tower :=
  { t.putState validator (t.stateOf validator) with stakes := t.stakes.insert validator stake }

def stakeOf (t : Tower) (validator : ValidatorId) : UInt64 :=
  (t.stakes.lookup validator).getD defaultStake

def totalStake (t : Tower) : UInt64 :=
  let registered := (Table.sorted t.stakes.keys.val).foldl
    (fun total validator => saturatingAdd total (t.stakeOf validator)) 0
  (Table.sorted t.validatorStates.keys.val).foldl
    (fun total validator =>
      if validator ∈ t.stakes.keys then total else saturatingAdd total defaultStake) registered

def isLeaf (t : Tower) (hash : BlockHash) : Bool :=
  match t.nodes.lookup hash with
  | some node => decide (t.rootSlot ≤ node.slot) && node.children.isEmpty
  | none => false

def leaves (t : Tower) (order : IterationOrder) : List BlockHash :=
  (order.run (Table.sorted t.nodes.keys.val)).filter t.isLeaf

def chainWeight (nodes : Table BlockHash TowerNode) :
    ℕ → BlockHash → Memo → Option (UInt64 × Memo)
  | 0, _, _ => none
  | fuel + 1, hash, memo =>
    match memo.lookup hash with
    | some weight => some (weight, memo)
    | none =>
      match nodes.lookup hash with
      | none => some (0, memo)
      | some node =>
        match node.parentHash with
        | none => some (node.weight, memo.insert hash node.weight)
        | some parentHash =>
          (chainWeight nodes fuel parentHash memo).map fun (weight, memo) =>
            let total := saturatingAdd node.weight weight
            (total, memo.insert hash total)

def better (candidate : Candidate) : Option Candidate → Bool
  | none => true
  | some best =>
    decide (best.weight < candidate.weight) ||
      (decide (candidate.weight = best.weight) && decide (best.slot < candidate.slot))

def consider (t : Tower) (fuel : ℕ) (acc : Option Candidate × Memo) (leaf : BlockHash) :
    Option (Option Candidate × Memo) :=
  (chainWeight t.nodes fuel leaf acc.2).map fun (weight, memo) =>
    let candidate : Candidate :=
      { hash := leaf
        weight := weight
        slot := ((t.nodes.lookup leaf).map TowerNode.slot).getD 0 }
    (if better candidate acc.1 then some candidate else acc.1, memo)

def chainFuel (t : Tower) : ℕ := t.nodes.keys.card + 1

def updateBestHead (t : Tower) (order : IterationOrder) : Option Tower :=
  ((t.leaves order).foldlM (t.consider t.chainFuel) (none, ∅)).map fun (best, _) =>
    match best with
    | some candidate => { t with bestHead := some candidate.hash }
    | none => t

def reroots (t : Tower) (vote : Vote) : Bool :=
  decide (vote.parentSlot = some t.rootSlot) && decide (t.rootSlot < vote.slot)

def refreshed (t : Tower) (vote : Vote) : VoteState :=
  if t.reroots vote then (t.stateOf vote.validator).resetLockout else t.stateOf vote.validator

def freshNode (t : Tower) (vote : Vote) : TowerNode where
  blockHash := vote.blockHash
  slot := vote.slot
  parentSlot := vote.parentSlot
  parentHash := vote.parentSlot.bind t.slotToHash.lookup
  weight := 0
  voters := []
  children := []

def votedNode (t : Tower) (vote : Vote) : TowerNode :=
  let node := (t.nodes.lookup vote.blockHash).getD (t.freshNode vote)
  if vote.validator ∈ node.voters then node
  else
    { node with
      weight := saturatingAdd node.weight (t.stakeOf vote.validator)
      voters := node.voters ++ [vote.validator] }

def recordNode (t : Tower) (vote : Vote) : Tower :=
  { t with
    nodes := t.nodes.insert vote.blockHash (t.votedNode vote)
    slotToHash := t.slotToHash.insert vote.slot vote.blockHash }

def linkParent (t : Tower) (vote : Vote) : Tower :=
  match vote.parentSlot.bind t.slotToHash.lookup with
  | none => t
  | some parentHash =>
    match t.nodes.lookup parentHash with
    | none => t
    | some parent =>
      if vote.blockHash ∈ parent.children then t
      else
        { t with
          nodes := t.nodes.insert parentHash
            { parent with children := parent.children ++ [vote.blockHash] } }

def isForkSwitch (t : Tower) (vote : Vote) : Bool :=
  decide (vote.parentSlot ≠ some (t.refreshed vote).lastVoteSlot)

def votedState (t : Tower) (vote : Vote) : VoteState :=
  (if t.isForkSwitch vote then (t.refreshed vote).switchFork else t.refreshed vote).processVote vote

def recordVote (t : Tower) (vote : Vote) : Tower :=
  { t.putState vote.validator (t.votedState vote) with
    totalSwitches := if t.isForkSwitch vote then t.totalSwitches + 1 else t.totalSwitches }

def skip (t : Tower) (vote : Vote) : Tower := t.putState vote.validator (t.refreshed vote)

def cast (t : Tower) (vote : Vote) : Tower := ((t.recordVote vote).recordNode vote).linkParent vote

def processVote (C : Crypto) (order : IterationOrder) (vote : Vote) (t : Tower) :
    Option (Bool × Tower) :=
  if vote.verifySignature C = false then some (false, t)
  else if vote.slot ≤ (t.refreshed vote).lastVoteSlot then some (false, t.skip vote)
  else if t.isForkSwitch vote && !(t.refreshed vote).canSwitchFork vote.slot then
    some (false, t.skip vote)
  else
    ((t.cast vote).updateBestHead order).map fun updated =>
      (true, { updated with totalVotes := updated.totalVotes + 1 })

def isSlotConfirmed (t : Tower) (slot : UInt64) : Bool :=
  if t.totalStake = 0 then false
  else
    (Table.sorted t.nodes.keys.val).any fun hash =>
      match t.nodes.lookup hash with
      | some node =>
        decide (node.slot = slot) &&
          decide (saturatingMul t.totalStake 2 < saturatingMul node.weight 3)
      | none => false

def settled (newRoot : UInt64) (state : VoteState) : VoteState :=
  if (state.updateRoot newRoot).lastVoteSlot ≤ newRoot then (state.updateRoot newRoot).resetLockout
  else state.updateRoot newRoot

def advanceRoot (t : Tower) (newRoot : UInt64) : Tower :=
  { t with
    rootSlot := newRoot
    validatorStates := t.validatorStates.mapValues (settled newRoot)
    nodes := t.nodes.retain fun _ node => newRoot ≤ node.slot
    slotToHash := t.slotToHash.retain fun slot _ => newRoot ≤ slot }

end Tower

end TrustNode.Consensus
