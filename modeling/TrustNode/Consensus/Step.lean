import TrustNode.Consensus.Tower

namespace TrustNode.Consensus

open Word

namespace Tower

section Admission

variable {C : Crypto} {order : IterationOrder} {t t' : Tower} {vote : Vote} {accepted : Bool}

def admits (C : Crypto) (t : Tower) (vote : Vote) : Bool :=
  vote.verifySignature C && decide ((t.refreshed vote).lastVoteSlot < vote.slot) &&
    (!t.isForkSwitch vote || (t.refreshed vote).canSwitchFork vote.slot)

structure Rejects (C : Crypto) (t : Tower) (vote : Vote) (t' : Tower) : Prop where
  refused : t.admits C vote = false
  tower : t' = if vote.verifySignature C then t.skip vote else t

structure Accepts (C : Crypto) (order : IterationOrder) (t : Tower) (vote : Vote) (t' : Tower) :
    Prop where
  admitted : t.admits C vote = true
  updated : ∃ u, (t.cast vote).updateBestHead order = some u ∧
    t' = { u with totalVotes := u.totalVotes + 1 }

theorem processVote_eq_some (h : t.processVote C order vote = some (accepted, t')) :
    accepted = false ∧ Rejects C t vote t' ∨ accepted = true ∧ Accepts C order t vote t' := by
  unfold processVote at h
  split at h
  · next hsig =>
    obtain ⟨rfl, rfl⟩ := Prod.mk.inj (Option.some.inj h)
    exact Or.inl ⟨rfl, by simp [admits, hsig], by simp [hsig]⟩
  · next hsig =>
    rw [Bool.not_eq_false] at hsig
    split at h
    · next hlast =>
      obtain ⟨rfl, rfl⟩ := Prod.mk.inj (Option.some.inj h)
      exact Or.inl ⟨rfl, by simp [admits, UInt64.not_lt.mpr hlast], by simp [hsig]⟩
    · next hlast =>
      split at h
      · next hlocked =>
        obtain ⟨rfl, rfl⟩ := Prod.mk.inj (Option.some.inj h)
        simp only [Bool.and_eq_true, Bool.not_eq_true'] at hlocked
        exact Or.inl ⟨rfl, by simp [admits, hlocked], by simp [hsig]⟩
      · next hfree =>
        obtain ⟨u, hu, heq⟩ := Option.map_eq_some_iff.mp h
        obtain ⟨rfl, rfl⟩ := Prod.mk.inj heq
        refine Or.inr ⟨rfl, ?_, u, hu, rfl⟩
        have hlt := UInt64.not_le.mp hlast
        cases hswitch : t.isForkSwitch vote with
        | false => simp [admits, hsig, hlt, hswitch]
        | true => simpa [admits, hsig, hlt, hswitch] using hfree

end Admission

section Effect

variable (t : Tower) (vote : Vote)

theorem stateOf_putState (validator other : ValidatorId) (state : VoteState) :
    (t.putState validator state).stateOf other =
      if other = validator then state else t.stateOf other := by
  simp only [stateOf, putState, Table.lookup_insert]
  split <;> rfl

def linked (parent : Option BlockHash) (child hash : BlockHash) (node : TowerNode) : TowerNode :=
  if parent = some hash ∧ child ∉ node.children then
    { node with children := node.children ++ [child] }
  else node

theorem linked_of_ne {parent : Option BlockHash} {child hash : BlockHash} (h : parent ≠ some hash) :
    linked parent child hash = id := by
  funext node
  exact if_neg fun hc => h hc.1

section Linked

variable (parent : Option BlockHash) (child hash : BlockHash) (node : TowerNode)

@[simp] theorem blockHash_linked : (linked parent child hash node).blockHash = node.blockHash := by
  unfold linked
  split <;> rfl

@[simp] theorem slot_linked : (linked parent child hash node).slot = node.slot := by
  unfold linked
  split <;> rfl

@[simp] theorem parentSlot_linked :
    (linked parent child hash node).parentSlot = node.parentSlot := by
  unfold linked
  split <;> rfl

@[simp] theorem parentHash_linked :
    (linked parent child hash node).parentHash = node.parentHash := by
  unfold linked
  split <;> rfl

@[simp] theorem weight_linked : (linked parent child hash node).weight = node.weight := by
  unfold linked
  split <;> rfl

@[simp] theorem voters_linked : (linked parent child hash node).voters = node.voters := by
  unfold linked
  split <;> rfl

theorem mem_children_linked {c : BlockHash} :
    c ∈ (linked parent child hash node).children ↔
      c ∈ node.children ∨ parent = some hash ∧ c = child := by
  unfold linked
  split
  · next h => simp [h.1]
  · next h =>
    constructor
    · exact Or.inl
    · rintro (hc | ⟨hparent, rfl⟩)
      · exact hc
      · by_contra hc
        exact h ⟨hparent, hc⟩

end Linked

theorem lookup_linkParent (hash : BlockHash) :
    (t.linkParent vote).nodes.lookup hash =
      (t.nodes.lookup hash).map
        (linked (vote.parentSlot.bind t.slotToHash.lookup) vote.blockHash hash) := by
  unfold linkParent
  cases hparent : vote.parentSlot.bind t.slotToHash.lookup with
  | none => rw [linked_of_ne (by simp), Option.map_id_fun, id]
  | some parentHash =>
    simp only []
    cases hnode : t.nodes.lookup parentHash with
    | none =>
      by_cases hhash : hash = parentHash
      · rw [hhash, hnode, Option.map_none]
      · rw [linked_of_ne (by simpa using Ne.symm hhash), Option.map_id_fun, id]
    | some parent =>
      by_cases hhash : hash = parentHash
      · subst hhash
        by_cases hchild : vote.blockHash ∈ parent.children
        · simp [hnode, linked, hchild]
        · simp [hnode, linked, hchild]
      · rw [linked_of_ne (by simpa using Ne.symm hhash), Option.map_id_fun, id]
        by_cases hchild : vote.blockHash ∈ parent.children
        · simp [hchild]
        · simp [hchild, hhash]

theorem linkParent_eq : t.linkParent vote = { t with nodes := (t.linkParent vote).nodes } := by
  unfold linkParent
  cases vote.parentSlot.bind t.slotToHash.lookup with
  | none => rfl
  | some parentHash =>
    simp only []
    cases t.nodes.lookup parentHash with
    | none => rfl
    | some parent =>
      simp only []
      split <;> rfl

theorem updateBestHead_eq_some {order : IterationOrder} {u : Tower}
    (h : t.updateBestHead order = some u) : u = { t with bestHead := u.bestHead } := by
  obtain ⟨⟨best, memo⟩, -, rfl⟩ := Option.map_eq_some_iff.mp h
  cases best <;> rfl

def parentAfter : Option BlockHash :=
  vote.parentSlot.bind (t.slotToHash.insert vote.slot vote.blockHash).lookup

def baseNode : TowerNode := (t.nodes.lookup vote.blockHash).getD (t.freshNode vote)

theorem baseNode_cases :
    t.nodes.lookup vote.blockHash = none ∧ t.baseNode vote = t.freshNode vote ∨
      t.nodes.lookup vote.blockHash = some (t.baseNode vote) := by
  unfold baseNode
  cases t.nodes.lookup vote.blockHash with
  | none => exact Or.inl ⟨rfl, rfl⟩
  | some n => exact Or.inr rfl

theorem slotToHash_cast :
    (t.cast vote).slotToHash = t.slotToHash.insert vote.slot vote.blockHash := by
  rw [cast, linkParent_eq]
  rfl

theorem lookup_cast (hash : BlockHash) :
    (t.cast vote).nodes.lookup hash =
      (if hash = vote.blockHash then some (t.votedNode vote) else t.nodes.lookup hash).map
        (linked (t.parentAfter vote) vote.blockHash hash) := by
  rw [cast, lookup_linkParent]
  congr 1
  exact Table.lookup_insert t.nodes vote.blockHash (t.votedNode vote) hash

theorem mem_nodes_cast (hash : BlockHash) :
    hash ∈ (t.cast vote).nodes ↔ hash = vote.blockHash ∨ hash ∈ t.nodes := by
  rw [← Finmap.lookup_isSome, lookup_cast, Option.isSome_map, ← Finmap.lookup_isSome]
  split
  · next heq => simp [heq]
  · next hne => simp [hne]

theorem lookup_cast_eq_some {hash : BlockHash} {n : TowerNode}
    (hn : (t.cast vote).nodes.lookup hash = some n) :
    ∃ m, n = linked (t.parentAfter vote) vote.blockHash hash m ∧
      (hash = vote.blockHash ∧ m = t.votedNode vote ∨
        hash ≠ vote.blockHash ∧ t.nodes.lookup hash = some m) := by
  rw [lookup_cast] at hn
  obtain ⟨m, hm, rfl⟩ := Option.map_eq_some_iff.mp hn
  refine ⟨m, rfl, ?_⟩
  split at hm
  · next heq => exact Or.inl ⟨heq, (Option.some.inj hm).symm⟩
  · next hne => exact Or.inr ⟨hne, hm⟩

theorem blockHash_votedNode : (t.votedNode vote).blockHash = (t.baseNode vote).blockHash := by
  unfold votedNode baseNode
  simp only []
  split <;> rfl

theorem slot_votedNode : (t.votedNode vote).slot = (t.baseNode vote).slot := by
  unfold votedNode baseNode
  simp only []
  split <;> rfl

theorem parentSlot_votedNode : (t.votedNode vote).parentSlot = (t.baseNode vote).parentSlot := by
  unfold votedNode baseNode
  simp only []
  split <;> rfl

theorem parentHash_votedNode : (t.votedNode vote).parentHash = (t.baseNode vote).parentHash := by
  unfold votedNode baseNode
  simp only []
  split <;> rfl

theorem parentHash_cast (hash : BlockHash) :
    ((t.cast vote).nodes.lookup hash).bind TowerNode.parentHash =
      if hash = vote.blockHash then (t.baseNode vote).parentHash
      else (t.nodes.lookup hash).bind TowerNode.parentHash := by
  have hlinked : TowerNode.parentHash ∘ linked (t.parentAfter vote) vote.blockHash hash =
      TowerNode.parentHash := funext fun node => parentHash_linked _ _ _ _
  rw [lookup_cast, Option.bind_map, hlinked]
  split_ifs
  · exact parentHash_votedNode t vote
  · rfl

theorem children_votedNode : (t.votedNode vote).children = (t.baseNode vote).children := by
  unfold votedNode baseNode
  simp only []
  split <;> rfl

theorem voters_votedNode :
    (t.votedNode vote).voters =
      if vote.validator ∈ (t.baseNode vote).voters then (t.baseNode vote).voters
      else (t.baseNode vote).voters ++ [vote.validator] := by
  unfold votedNode baseNode
  simp only []
  split <;> rfl

theorem weight_votedNode :
    (t.votedNode vote).weight =
      if vote.validator ∈ (t.baseNode vote).voters then (t.baseNode vote).weight
      else saturatingAdd (t.baseNode vote).weight (t.stakeOf vote.validator) := by
  unfold votedNode baseNode
  simp only []
  split <;> rfl

theorem mem_voters_votedNode {v : ValidatorId} :
    v ∈ (t.votedNode vote).voters ↔ v = vote.validator ∨ v ∈ (t.baseNode vote).voters := by
  rw [voters_votedNode]
  split
  · next hin =>
    constructor
    · exact Or.inr
    · rintro (rfl | hv)
      · exact hin
      · exact hv
  · simp [or_comm]

@[simp] theorem lastVoteSlot_refreshed :
    (t.refreshed vote).lastVoteSlot = (t.stateOf vote.validator).lastVoteSlot := by
  unfold refreshed
  split <;> rfl

@[simp] theorem lastVoteSlot_votedState : (t.votedState vote).lastVoteSlot = vote.slot := rfl

end Effect

section Outcome

variable {C : Crypto} {order : IterationOrder} {t t' : Tower} {vote : Vote}

theorem lastVoteSlot_lt_of_admits (h : t.admits C vote = true) :
    (t.stateOf vote.validator).lastVoteSlot < vote.slot := by
  simp only [admits, Bool.and_eq_true, decide_eq_true_eq, lastVoteSlot_refreshed] at h
  exact h.1.2

namespace Accepts

variable (h : Accepts C order t vote t')
include h

theorem tower : ∃ head, t' =
    { t.recordVote vote with
      nodes := (t.cast vote).nodes
      slotToHash := t.slotToHash.insert vote.slot vote.blockHash
      bestHead := head
      totalVotes := t.totalVotes + 1 } := by
  obtain ⟨u, hu, rfl⟩ := h.updated
  rw [updateBestHead_eq_some _ hu, cast, linkParent_eq]
  exact ⟨u.bestHead, rfl⟩

theorem slotToHash : t'.slotToHash = t.slotToHash.insert vote.slot vote.blockHash := by
  obtain ⟨head, rfl⟩ := h.tower
  rfl

theorem stakes : t'.stakes = t.stakes := by
  obtain ⟨head, rfl⟩ := h.tower
  rfl

theorem rootSlot : t'.rootSlot = t.rootSlot := by
  obtain ⟨head, rfl⟩ := h.tower
  rfl

theorem validatorStates :
    t'.validatorStates = t.validatorStates.insert vote.validator (t.votedState vote) := by
  obtain ⟨head, rfl⟩ := h.tower
  rfl

theorem nodes : t'.nodes = (t.cast vote).nodes := by
  obtain ⟨head, rfl⟩ := h.tower
  rfl

theorem stateOf (v : ValidatorId) :
    t'.stateOf v = if v = vote.validator then t.votedState vote else t.stateOf v := by
  rw [← stateOf_putState]
  simp only [Tower.stateOf, putState, h.validatorStates, h.rootSlot]

theorem lastVoteSlot_le (v : ValidatorId) :
    (t.stateOf v).lastVoteSlot ≤ (t'.stateOf v).lastVoteSlot := by
  rw [h.stateOf]
  split
  · next hv =>
    subst hv
    exact UInt64.le_of_lt (lastVoteSlot_lt_of_admits h.admitted)
  · exact UInt64.le_refl _

theorem stakeOf (v : ValidatorId) : t'.stakeOf v = t.stakeOf v := by
  simp only [Tower.stakeOf, h.stakes]

theorem lookup_eq_some {hash : BlockHash} {n : TowerNode} (hn : t'.nodes.lookup hash = some n) :
    ∃ m, n = linked (t.parentAfter vote) vote.blockHash hash m ∧
      (hash = vote.blockHash ∧ m = t.votedNode vote ∨
        hash ≠ vote.blockHash ∧ t.nodes.lookup hash = some m) := by
  rw [h.nodes] at hn
  exact lookup_cast_eq_some t vote hn

theorem mem_nodes (hash : BlockHash) :
    hash ∈ t'.nodes ↔ hash = vote.blockHash ∨ hash ∈ t.nodes := by
  rw [h.nodes, mem_nodes_cast]

end Accepts

namespace Rejects

variable (h : Rejects C t vote t')
include h

theorem nodes : t'.nodes = t.nodes := by
  rw [h.tower]
  split <;> rfl

theorem slotToHash : t'.slotToHash = t.slotToHash := by
  rw [h.tower]
  split <;> rfl

theorem stakes : t'.stakes = t.stakes := by
  rw [h.tower]
  split <;> rfl

theorem rootSlot : t'.rootSlot = t.rootSlot := by
  rw [h.tower]
  split <;> rfl

theorem bestHead : t'.bestHead = t.bestHead := by
  rw [h.tower]
  split <;> rfl

theorem validatorStates :
    t'.validatorStates = t.validatorStates ∨
      t'.validatorStates = t.validatorStates.insert vote.validator (t.refreshed vote) := by
  rw [h.tower]
  split
  · exact Or.inr rfl
  · exact Or.inl rfl

theorem stakeOf (v : ValidatorId) : t'.stakeOf v = t.stakeOf v := by
  simp only [Tower.stakeOf, h.stakes]

theorem stateOf (v : ValidatorId) :
    t'.stateOf v =
      if vote.verifySignature C ∧ v = vote.validator then t.refreshed vote else t.stateOf v := by
  rw [h.tower]
  split
  · next hsig => simp [skip, stateOf_putState, hsig]
  · next hsig => simp [hsig]

theorem lastVoteSlot (v : ValidatorId) :
    (t'.stateOf v).lastVoteSlot = (t.stateOf v).lastVoteSlot := by
  rw [h.stateOf]
  split
  · next hv => rw [hv.2, lastVoteSlot_refreshed]
  · rfl

end Rejects

end Outcome

section Runs

def registered (genesisSlot : UInt64) (registrations : List (ValidatorId × UInt64)) : Tower :=
  registrations.foldl (fun t r => t.registerValidator r.1 r.2) (.new genesisSlot)

inductive Votes (C : Crypto) (allowed : Tower → Vote → Prop) (start : Tower) :
    List (Vote × Bool) → Tower → Prop
  | nil : Votes C allowed start [] start
  | snoc {results : List (Vote × Bool)} {t t' : Tower} {order : IterationOrder} {vote : Vote}
      {accepted : Bool} (hrun : Votes C allowed start results t) (hallowed : allowed t vote)
      (hstep : t.processVote C order vote = some (accepted, t')) :
      Votes C allowed start (results ++ [(vote, accepted)]) t'

def anyVote : Tower → Vote → Prop := fun _ _ => True

instance (t : Tower) (vote : Vote) : Decidable (anyVote t vote) := .isTrue trivial

theorem Votes.mono {C : Crypto} {allowed allowed' : Tower → Vote → Prop} {start t : Tower}
    {results : List (Vote × Bool)} (himp : ∀ t vote, allowed t vote → allowed' t vote)
    (hrun : Votes C allowed start results t) : Votes C allowed' start results t := by
  induction hrun with
  | nil => exact .nil
  | snoc hrun hallowed hstep ih => exact .snoc ih (himp _ _ hallowed) hstep

theorem Votes.invariant {C : Crypto} {allowed : Tower → Vote → Prop} {start t : Tower}
    {results : List (Vote × Bool)} (hrun : Votes C allowed start results t)
    {I : List (Vote × Bool) → Tower → Prop} (hstart : I [] start)
    (hreject : ∀ {results t vote t'}, I results t → allowed t vote → Rejects C t vote t' →
      I (results ++ [(vote, false)]) t')
    (haccept : ∀ {results t order vote t'}, I results t → allowed t vote →
      Accepts C order t vote t' → I (results ++ [(vote, true)]) t') : I results t := by
  induction hrun with
  | nil => exact hstart
  | snoc hrun hallowed hstep ih =>
    obtain ⟨rfl, hrejects⟩ | ⟨rfl, haccepts⟩ := processVote_eq_some hstep
    · exact hreject ih hallowed hrejects
    · exact haccept ih hallowed haccepts

section Delivery

variable (C : Crypto) (allowed : Tower → Vote → Prop) [∀ t vote, Decidable (allowed t vote)]

def deliverOne (acc : List (Vote × Bool) × Tower) (delivery : Vote × IterationOrder) :
    Option (List (Vote × Bool) × Tower) :=
  if allowed acc.2 delivery.1 then
    (acc.2.processVote C delivery.2 delivery.1).map fun (flag, t) =>
      (acc.1 ++ [(delivery.1, flag)], t)
  else none

def deliver (start : Tower) (deliveries : List (Vote × IterationOrder)) :
    Option (List (Vote × Bool) × Tower) :=
  deliveries.foldlM (deliverOne C allowed) ([], start)

def play (order : IterationOrder) (start : Tower) (votes : List Vote) :
    Option (List (Vote × Bool) × Tower) :=
  deliver C allowed start (votes.map (·, order))

theorem deliver_append (start : Tower) (deliveries : List (Vote × IterationOrder))
    (delivery : Vote × IterationOrder) :
    deliver C allowed start (deliveries ++ [delivery]) =
      (deliver C allowed start deliveries).bind (deliverOne C allowed · delivery) := by
  simp only [deliver, List.foldlM_append, List.foldlM_cons, List.foldlM_nil, bind_pure]
  rfl

variable {C allowed}

theorem deliverOne_eq_some {acc next : List (Vote × Bool) × Tower}
    {delivery : Vote × IterationOrder} (h : deliverOne C allowed acc delivery = some next) :
    allowed acc.2 delivery.1 ∧
      ∃ flag, acc.2.processVote C delivery.2 delivery.1 = some (flag, next.2) ∧
        next.1 = acc.1 ++ [(delivery.1, flag)] := by
  unfold deliverOne at h
  split at h
  · next hallowed =>
    obtain ⟨⟨flag, t⟩, hstep, rfl⟩ := Option.map_eq_some_iff.mp h
    exact ⟨hallowed, flag, hstep, rfl⟩
  · cases h

theorem votes_of_deliver {start t : Tower} {deliveries : List (Vote × IterationOrder)}
    {results : List (Vote × Bool)} (h : deliver C allowed start deliveries = some (results, t)) :
    Votes C allowed start results t ∧ results.map Prod.fst = deliveries.map Prod.fst := by
  induction deliveries using List.reverseRecOn generalizing results t with
  | nil =>
    obtain ⟨rfl, rfl⟩ := Prod.mk.inj (Option.some.inj h)
    exact ⟨.nil, rfl⟩
  | append_singleton deliveries delivery ih =>
    rw [deliver_append] at h
    obtain ⟨⟨before, u⟩, hbefore, hlast⟩ := Option.bind_eq_some_iff.mp h
    obtain ⟨hallowed, flag, hstep, rfl⟩ := deliverOne_eq_some hlast
    obtain ⟨hrun, hvotes⟩ := ih hbefore
    refine ⟨.snoc hrun hallowed hstep, ?_⟩
    simp [hvotes]

theorem deliver_of_deliver {allowed' : Tower → Vote → Prop}
    [∀ t vote, Decidable (allowed' t vote)] (himp : ∀ t vote, allowed t vote → allowed' t vote)
    {start : Tower} {deliveries : List (Vote × IterationOrder)}
    {final : List (Vote × Bool) × Tower} (h : deliver C allowed start deliveries = some final) :
    deliver C allowed' start deliveries = some final := by
  induction deliveries using List.reverseRecOn generalizing final with
  | nil => exact h
  | append_singleton deliveries delivery ih =>
    rw [deliver_append] at h ⊢
    obtain ⟨before, hbefore, hlast⟩ := Option.bind_eq_some_iff.mp h
    obtain ⟨hallowed, -⟩ := deliverOne_eq_some hlast
    rw [ih hbefore, Option.bind_some, deliverOne, if_pos (himp _ _ hallowed)]
    rwa [deliverOne, if_pos hallowed] at hlast

end Delivery

structure Unvoted (t : Tower) : Prop where
  nodes : t.nodes = ∅
  slotToHash : t.slotToHash = ∅
  bestHead : t.bestHead = none
  states : ∀ v, t.stateOf v = .new v t.rootSlot

theorem unvoted_registered (genesisSlot : UInt64) (registrations : List (ValidatorId × UInt64)) :
    Unvoted (registered genesisSlot registrations) := by
  induction registrations using List.reverseRecOn with
  | nil => exact ⟨rfl, rfl, rfl, fun v => rfl⟩
  | append_singleton rest r ih =>
    have hstep : registered genesisSlot (rest ++ [r]) =
        (registered genesisSlot rest).registerValidator r.1 r.2 := by
      simp [registered, List.foldl_append]
    rw [hstep]
    refine ⟨ih.nodes, ih.slotToHash, ih.bestHead, fun v => ?_⟩
    change ((registered genesisSlot rest).putState r.1 _).stateOf v = _
    rw [stateOf_putState]
    split
    · next hv =>
      subst hv
      exact ih.states _
    · exact ih.states v

def ballot (validator : UInt8) (slot : UInt64) (block : UInt8) (parentSlot : Option UInt64) :
    Vote where
  validator := Bytes32.splat validator
  slot := slot
  blockHash := Bytes32.splat block
  parentSlot := parentSlot
  timestamp := 0
  signature := List.replicate 64 0
  stateHash := Bytes32.splat 0

end Runs

end Tower

end TrustNode.Consensus
