import TrustNode.Base.Sha256
import TrustNode.Consensus.ForkChoice
import TrustNode.Consensus.Links

namespace TrustNode.Consensus

namespace Tower

section Streams

variable {C : Crypto} {order : IterationOrder} {t t' : Tower} {vote : Vote} {flag : Bool}

def votesOf (v : ValidatorId) (votes : List Vote) : List Vote :=
  votes.filter fun a => a.validator = v

def resultsOf (v : ValidatorId) (results : List (Vote × Bool)) : List (Vote × Bool) :=
  results.filter fun r => r.1.validator = v

theorem votesOf_append (v : ValidatorId) (votes : List Vote) (vote : Vote) :
    votesOf v (votes ++ [vote]) = votesOf v votes ++ if vote.validator = v then [vote] else [] := by
  rw [votesOf, List.filter_append]
  by_cases hv : vote.validator = v <;> simp [votesOf, hv]

theorem votesOf_ext {votes votes' : List Vote}
    (h : ∀ a ∈ votes ++ votes', votesOf a.validator votes = votesOf a.validator votes')
    (v : ValidatorId) : votesOf v votes = votesOf v votes' := by
  by_cases hv : ∃ a ∈ votes ++ votes', a.validator = v
  · obtain ⟨a, ha, rfl⟩ := hv
    exact h a ha
  · have hnil : ∀ l : List Vote, (∀ a ∈ l, a ∈ votes ++ votes') → votesOf v l = [] := by
      intro l hl
      rw [votesOf, List.filter_eq_nil_iff]
      intro a ha hc
      exact hv ⟨a, hl a ha, of_decide_eq_true hc⟩
    rw [hnil votes fun a ha => List.mem_append_left _ ha,
      hnil votes' fun a ha => List.mem_append_right _ ha]

theorem resultsOf_append (v : ValidatorId) (results : List (Vote × Bool)) (r : Vote × Bool) :
    resultsOf v (results ++ [r]) = resultsOf v results ++ if r.1.validator = v then [r] else [] := by
  rw [resultsOf, List.filter_append]
  by_cases hv : r.1.validator = v <;> simp [resultsOf, hv]

theorem mem_accepted_iff_mem_resultsOf {results : List (Vote × Bool)} :
    vote ∈ accepted results ↔ (vote, true) ∈ resultsOf vote.validator results := by
  simp [mem_accepted, resultsOf]

def alone (rootSlot : UInt64) (validator : ValidatorId) (state : VoteState) : Tower :=
  (Tower.new rootSlot).putState validator state

def judge (C : Crypto) (rootSlot : UInt64) (state : VoteState) (vote : Vote) : Bool × VoteState :=
  let t := alone rootSlot vote.validator state
  (t.admits C vote,
    if t.admits C vote then t.votedState vote
    else if vote.verifySignature C then t.refreshed vote else state)

theorem refreshed_alone (t : Tower) (vote : Vote) :
    (alone t.rootSlot vote.validator (t.stateOf vote.validator)).refreshed vote =
      t.refreshed vote := by
  unfold refreshed alone
  rw [stateOf_putState, if_pos rfl]
  rfl

theorem isForkSwitch_alone (t : Tower) (vote : Vote) :
    (alone t.rootSlot vote.validator (t.stateOf vote.validator)).isForkSwitch vote =
      t.isForkSwitch vote := by
  rw [isForkSwitch, refreshed_alone, isForkSwitch]

theorem admits_alone (C : Crypto) (t : Tower) (vote : Vote) :
    (alone t.rootSlot vote.validator (t.stateOf vote.validator)).admits C vote =
      t.admits C vote := by
  rw [admits, refreshed_alone, isForkSwitch_alone, admits]

theorem votedState_alone (t : Tower) (vote : Vote) :
    (alone t.rootSlot vote.validator (t.stateOf vote.validator)).votedState vote =
      t.votedState vote := by
  rw [votedState, refreshed_alone, isForkSwitch_alone, votedState]

theorem judge_stateOf (C : Crypto) (t : Tower) (vote : Vote) :
    judge C t.rootSlot (t.stateOf vote.validator) vote =
      (t.admits C vote,
        if t.admits C vote then t.votedState vote
        else if vote.verifySignature C then t.refreshed vote else t.stateOf vote.validator) := by
  simp only [judge, admits_alone, votedState_alone, refreshed_alone]

theorem judge_of_processVote (h : t.processVote C order vote = some (flag, t')) :
    judge C t.rootSlot (t.stateOf vote.validator) vote = (flag, t'.stateOf vote.validator) := by
  rw [judge_stateOf]
  rcases processVote_eq_some h with ⟨rfl, hreject⟩ | ⟨rfl, haccept⟩
  · rw [hreject.refused, hreject.stateOf]
    simp
  · rw [haccept.admitted, haccept.stateOf]
    simp

theorem stateOf_of_processVote (h : t.processVote C order vote = some (flag, t'))
    {v : ValidatorId} (hv : v ≠ vote.validator) : t'.stateOf v = t.stateOf v := by
  rcases processVote_eq_some h with ⟨-, hreject⟩ | ⟨-, haccept⟩
  · rw [hreject.stateOf, if_neg fun hc => hv hc.2]
  · rw [haccept.stateOf, if_neg hv]

theorem rootSlot_of_processVote (h : t.processVote C order vote = some (flag, t')) :
    t'.rootSlot = t.rootSlot := by
  rcases processVote_eq_some h with ⟨-, hreject⟩ | ⟨-, haccept⟩
  · exact hreject.rootSlot
  · exact haccept.rootSlot

theorem stakes_of_processVote (h : t.processVote C order vote = some (flag, t')) :
    t'.stakes = t.stakes := by
  rcases processVote_eq_some h with ⟨-, hreject⟩ | ⟨-, haccept⟩
  · exact hreject.stakes
  · exact haccept.stakes

def replay (C : Crypto) (rootSlot : UInt64) (start : VoteState) (votes : List Vote) :
    List (Vote × Bool) × VoteState :=
  votes.foldl
    (fun acc vote =>
      let (flag, state) := judge C rootSlot acc.2 vote
      (acc.1 ++ [(vote, flag)], state)) ([], start)

theorem replay_append (rootSlot : UInt64) (start : VoteState) (votes : List Vote) (vote : Vote) :
    replay C rootSlot start (votes ++ [vote]) =
      ((replay C rootSlot start votes).1 ++
          [(vote, (judge C rootSlot (replay C rootSlot start votes).2 vote).1)],
        (judge C rootSlot (replay C rootSlot start votes).2 vote).2) := by
  rw [replay, List.foldl_append]
  rfl

variable {allowed : Tower → Vote → Prop} {start : Tower} {results results' : List (Vote × Bool)}

theorem Votes.rootSlot (hrun : Votes C allowed start results t) : t.rootSlot = start.rootSlot := by
  induction hrun with
  | nil => rfl
  | snoc hrun hallowed hstep ih => rw [rootSlot_of_processVote hstep, ih]

theorem Votes.stakes (hrun : Votes C allowed start results t) : t.stakes = start.stakes := by
  induction hrun with
  | nil => rfl
  | snoc hrun hallowed hstep ih => rw [stakes_of_processVote hstep, ih]

theorem Votes.replay (hrun : Votes C allowed start results t) (v : ValidatorId) :
    replay C start.rootSlot (start.stateOf v) (votesOf v (results.map Prod.fst)) =
      (resultsOf v results, t.stateOf v) := by
  induction hrun with
  | nil => rfl
  | @snoc results t t' order vote flag hrun hallowed hstep ih =>
    rw [List.map_append, List.map_singleton, votesOf_append, resultsOf_append]
    by_cases hv : vote.validator = v
    · subst hv
      have hjudge := judge_of_processVote hstep
      rw [hrun.rootSlot] at hjudge
      rw [if_pos rfl, if_pos rfl, replay_append, ih, hjudge]
    · rw [if_neg hv, if_neg hv, List.append_nil, List.append_nil,
        stateOf_of_processVote hstep (Ne.symm hv)]
      exact ih

theorem Votes.resultsOf_eq (hrun : Votes C allowed start results t)
    (hrun' : Votes C allowed start results' t') {v : ValidatorId}
    (hv : votesOf v (results.map Prod.fst) = votesOf v (results'.map Prod.fst)) :
    resultsOf v results = resultsOf v results' := by
  have hfst := congrArg Prod.fst (hrun.replay v)
  rw [hv, hrun'.replay v] at hfst
  exact hfst.symm

end Streams

section Comparison

def OneBlockPerSlot (votes : List Vote) : Prop :=
  ∀ a ∈ votes, ∀ b ∈ votes, a.slot = b.slot → a.blockHash = b.blockHash

variable {C : Crypto} {votes votes' : List Vote} {t t' : Tower}

theorem Linked.oneBlockPerSlot {start : Tower} {results : List (Vote × Bool)}
    (hstart : Linked [] start) (hrun : Votes C (orderly C) start results t) :
    OneBlockPerSlot (accepted results) := by
  induction hrun with
  | nil => exact fun a ha => absurd ha List.not_mem_nil
  | @snoc results t t' order vote flag hrun hallowed hstep ih =>
    rw [accepted_append]
    rcases processVote_eq_some hstep with ⟨rfl, -⟩ | ⟨rfl, haccept⟩
    · rw [if_neg Bool.false_ne_true, List.append_nil]
      exact ih
    · have hlinked := hstart.run (hrun.mono fun _ _ h => h.1)
      have hnew : ∀ a ∈ accepted results, a.slot = vote.slot → a.blockHash = vote.blockHash := by
        intro a ha hslot
        obtain ⟨hash, hlookup⟩ := hlinked.placed a ha
        obtain ⟨b, hb, hbslot, rfl⟩ := hlinked.located _ _ hlookup
        rw [hslot] at hlookup
        rw [ih a ha b hb hbslot.symm]
        exact hallowed.2 haccept.admitted _ hlookup
      intro a ha b hb hslot
      rcases List.mem_append.mp ha with hold | hlast <;>
        rcases List.mem_append.mp hb with hbold | hblast
      · exact ih a hold b hbold hslot
      · obtain rfl := List.mem_singleton.mp hblast
        exact hnew a hold hslot
      · obtain rfl := List.mem_singleton.mp hlast
        exact (hnew b hbold hslot.symm).symm
      · rw [List.mem_singleton.mp hlast, List.mem_singleton.mp hblast]

theorem lookup_map_eq {α : Type} {f : TowerNode → α} {hash : BlockHash}
    (hmem : hash ∈ t.nodes ↔ hash ∈ t'.nodes)
    (hf : ∀ n n', t.nodes.lookup hash = some n → t'.nodes.lookup hash = some n' → f n = f n') :
    (t.nodes.lookup hash).map f = (t'.nodes.lookup hash).map f := by
  rw [← Finmap.lookup_isSome, ← Finmap.lookup_isSome] at hmem
  cases hn : t.nodes.lookup hash with
  | none =>
    cases hn' : t'.nodes.lookup hash with
    | none => rfl
    | some n' => simp [hn, hn'] at hmem
  | some n =>
    cases hn' : t'.nodes.lookup hash with
    | none => simp [hn, hn'] at hmem
    | some n' => rw [Option.map_some, Option.map_some, hf n n' hn hn']

section Same

variable (hsame : ∀ a, a ∈ votes ↔ a ∈ votes') (hstakes : t.stakes = t'.stakes)
include hsame

theorem Tallied.mem_nodes_iff (h : Tallied votes t) (h' : Tallied votes' t') (hash : BlockHash) :
    hash ∈ t.nodes ↔ hash ∈ t'.nodes := by
  simp only [h.known, h'.known, hsame]

theorem extends_congr {child parent : BlockHash} :
    Extends votes child parent ↔ Extends votes' child parent := by
  simp only [Extends, hsame]

include hstakes

theorem Tallied.weight_eq (h : Tallied votes t) (h' : Tallied votes' t') {hash : BlockHash}
    {n n' : TowerNode} (hn : t.nodes.lookup hash = some n) (hn' : t'.nodes.lookup hash = some n') :
    n.weight = n'.weight := by
  have hperm : n.voters.Perm n'.voters := by
    rw [List.perm_ext_iff_of_nodup (h.nodup hash n hn) (h'.nodup hash n' hn')]
    intro v
    simp only [h.voters hash n hn, h'.voters hash n' hn', hsame]
  have hstake : t.stakeOn n.voters = t'.stakeOn n'.voters := by
    have hstakeOf : t.stakeOf = t'.stakeOf := by
      funext v
      rw [stakeOf, stakeOf, hstakes]
    rw [stakeOn, stakeOn, hstakeOf]
    exact (hperm.map _).sum_eq
  apply UInt64.toNat_inj.mp
  rw [h.weight hash n hn, h'.weight hash n' hn', hstake]

theorem Linked.sameTree (h : Linked votes t) (h' : Linked votes' t')
    (hroot : t.rootSlot = t'.rootSlot) : SameTree t t' := by
  refine ⟨hroot, fun hash => lookup_map_eq (h.mem_nodes_iff hsame h'.toTallied hash) ?_⟩
  intro n n' hn hn'
  obtain ⟨a, ha, rfl⟩ := (h.known hash).mp (Finmap.mem_of_lookup_eq_some hn)
  have hslot : n.slot = n'.slot :=
    (h.slots a ha n hn).1.trans (h'.slots a ((hsame a).mp ha) n' hn').1.symm
  have hweight := h.weight_eq hsame hstakes h'.toTallied hn hn'
  have hparent : n.parentHash = n'.parentHash := by
    ext p
    rw [h.parents _ n hn, h'.parents _ n' hn', extends_congr hsame]
  have hchildren : n.children.isEmpty = n'.children.isEmpty := by
    rw [Bool.eq_iff_iff, List.isEmpty_iff, List.isEmpty_iff, List.eq_nil_iff_forall_not_mem,
      List.eq_nil_iff_forall_not_mem]
    simp only [h.children _ n hn, h'.children _ n' hn', extends_congr hsame]
  rw [outline, outline, hslot, hweight, hparent, hchildren]

end Same

theorem Linked.exists_leaf (h : Linked votes t) {hash : BlockHash} {n : TowerNode}
    (hn : t.nodes.lookup hash = some n) (hroot : t.rootSlot ≤ n.slot) :
    ∃ leaf, t.isLeaf leaf = true := by
  obtain ⟨a, ha, rfl⟩ := (h.known hash).mp (Finmap.mem_of_lookup_eq_some hn)
  obtain ⟨top, htop, hmax⟩ := Finset.exists_max_image votes.toFinset (fun b => b.slot.toNat)
    ⟨a, List.mem_toFinset.mpr ha⟩
  rw [List.mem_toFinset] at htop
  obtain ⟨m, hm, -, hslot, -⟩ := h.node_of_mem htop
  have hle : a.slot ≤ top.slot := UInt64.le_iff_toNat_le.mpr (hmax a (List.mem_toFinset.mpr ha))
  have hchildless : m.children = [] := by
    rw [List.eq_nil_iff_forall_not_mem]
    intro c hc
    obtain ⟨b, hb, d, hd, -, hparent, hhash⟩ := (h.children _ m hm c).mp hc
    have hlt := h.earlier b hb _ hparent
    rw [(h.block d hd top htop hhash).1] at hlt
    have hbound := hmax b (List.mem_toFinset.mpr hb)
    exact absurd hlt (UInt64.not_lt.mpr (UInt64.le_iff_toNat_le.mpr hbound))
  refine ⟨top.blockHash, ?_⟩
  rw [(h.slots a ha n hn).1] at hroot
  rw [isLeaf, hm]
  simp only [hslot, hchildless, List.isEmpty_nil, Bool.and_true, decide_eq_true_eq]
  exact UInt64.le_trans hroot hle

theorem Linked.slot_of_candidate (h : Linked votes t) {c : Candidate} (hc : IsCandidate t c) :
    ∃ a ∈ votes, a.blockHash = c.hash ∧ a.slot = c.slot := by
  obtain ⟨n, hn, -⟩ := Headed.lookup_of_isLeaf hc.leaf
  obtain ⟨a, ha, hhash⟩ := (h.known c.hash).mp (Finmap.mem_of_lookup_eq_some hn)
  refine ⟨a, ha, hhash, ?_⟩
  rw [hc.slot, slotAt, hn, Option.map_some, Option.getD_some]
  rw [← hhash] at hn
  exact (h.slots a ha n hn).1.symm

theorem Linked.candidate_unique (h : Linked votes t) (hone : OneBlockPerSlot votes)
    {c c' : Candidate} (hc : IsCandidate t c) (hc' : IsCandidate t c') (hslot : c.slot = c'.slot) :
    c.hash = c'.hash := by
  obtain ⟨a, ha, hhash, haslot⟩ := h.slot_of_candidate hc
  obtain ⟨b, hb, hhash', hbslot⟩ := h.slot_of_candidate hc'
  rw [← hhash, ← hhash']
  exact hone a ha b hb (by rw [haslot, hbslot, hslot])

end Comparison

section Outcome

def weightAt (t : Tower) (hash : BlockHash) : Option UInt64 :=
  (t.nodes.lookup hash).map TowerNode.weight

def parentAt (t : Tower) (hash : BlockHash) : Option (Option BlockHash) :=
  (t.nodes.lookup hash).map TowerNode.parentHash

def Meets (C : Crypto) (allowed : Tower → Vote → Prop) [∀ t vote, Decidable (allowed t vote)]
    (start : Tower) (deliveries : List (Vote × IterationOrder)) : Prop :=
  (deliver C allowed start deliveries).isSome = true

theorem deliver_isSome (C : Crypto) {start : Tower} (hstart : Unvoted start)
    (deliveries : List (Vote × IterationOrder)) : Meets C anyVote start deliveries := by
  unfold Meets
  induction deliveries using List.reverseRecOn with
  | nil => rfl
  | append_singleton deliveries delivery ih =>
    obtain ⟨⟨results, t⟩, hbefore⟩ := Option.isSome_iff_exists.mp ih
    obtain ⟨rank, hrank⟩ := (Grounded.of_unvoted hstart).run (votes_of_deliver hbefore).1
    have hany : anyVote t delivery.1 := trivial
    rw [deliver_append, hbefore, Option.bind_some, deliverOne, if_pos hany, Option.isSome_map]
    exact hrank.processVote_isSome delivery.2 delivery.1

theorem votes_of_meets {C : Crypto} {allowed : Tower → Vote → Prop}
    [∀ t vote, Decidable (allowed t vote)] {start t : Tower}
    {deliveries : List (Vote × IterationOrder)} {results : List (Vote × Bool)}
    (hmeets : Meets C allowed start deliveries)
    (h : deliver C anyVote start deliveries = some (results, t)) :
    Votes C allowed start results t := by
  obtain ⟨final, hfinal⟩ := Option.isSome_iff_exists.mp hmeets
  have hany : deliver C anyVote start deliveries = some final :=
    deliver_of_deliver (fun _ _ _ => trivial) hfinal
  rw [h] at hany
  rw [← Option.some.inj hany] at hfinal
  exact (votes_of_deliver hfinal).1

theorem delivery_order_independence (C : Crypto) (genesisSlot : UInt64)
    (registrations : List (ValidatorId × UInt64))
    (deliveries deliveries' : List (Vote × IterationOrder))
    (hstreams : ∀ v, votesOf v (deliveries.map Prod.fst) = votesOf v (deliveries'.map Prod.fst)) :
    ∃ results t results' t',
      deliver C anyVote (registered genesisSlot registrations) deliveries = some (results, t) ∧
      deliver C anyVote (registered genesisSlot registrations) deliveries' = some (results', t') ∧
      (∀ v, resultsOf v results = resultsOf v results') ∧
      (∀ hash, t.weightAt hash = t'.weightAt hash) ∧
      (Meets C (linkable C) (registered genesisSlot registrations) deliveries →
        Meets C (linkable C) (registered genesisSlot registrations) deliveries' →
        ∀ hash, t.parentAt hash = t'.parentAt hash) ∧
      (Meets C (orderly C) (registered genesisSlot registrations) deliveries →
        Meets C (orderly C) (registered genesisSlot registrations) deliveries' →
        t.bestHead = t'.bestHead) := by
  have hstart := unvoted_registered genesisSlot registrations
  obtain ⟨⟨results, t⟩, h⟩ := Option.isSome_iff_exists.mp (deliver_isSome C hstart deliveries)
  obtain ⟨⟨results', t'⟩, h'⟩ := Option.isSome_iff_exists.mp (deliver_isSome C hstart deliveries')
  obtain ⟨hrun, hvotes⟩ := votes_of_deliver h
  obtain ⟨hrun', hvotes'⟩ := votes_of_deliver h'
  have hresults : ∀ v, resultsOf v results = resultsOf v results' := fun v =>
    hrun.resultsOf_eq hrun' (by rw [hvotes, hvotes', hstreams v])
  have hsame : ∀ a, a ∈ accepted results ↔ a ∈ accepted results' := fun a => by
    rw [mem_accepted_iff_mem_resultsOf, mem_accepted_iff_mem_resultsOf, hresults]
  have hstakes : t.stakes = t'.stakes := hrun.stakes.trans hrun'.stakes.symm
  have hroot : t.rootSlot = t'.rootSlot := hrun.rootSlot.trans hrun'.rootSlot.symm
  have htallied := (Tallied.of_unvoted hstart).run hrun
  have htallied' := (Tallied.of_unvoted hstart).run hrun'
  refine ⟨results, t, results', t', h, h', hresults, fun hash => ?_, fun hmeets hmeets' hash => ?_,
    fun hmeets hmeets' => ?_⟩
  · exact lookup_map_eq (htallied.mem_nodes_iff hsame htallied' hash) fun n n' hn hn' =>
      htallied.weight_eq hsame hstakes htallied' hn hn'
  · have hlinked := (Linked.of_unvoted hstart).run (votes_of_meets hmeets h)
    have hlinked' := (Linked.of_unvoted hstart).run (votes_of_meets hmeets' h')
    have htree := hlinked.sameTree hsame hstakes hlinked' hroot
    exact htree.project (fun o => o.2.2.1) hash
  · have horderly := votes_of_meets hmeets h
    have hlinked := (Linked.of_unvoted hstart).run (horderly.mono fun _ _ hc => hc.1)
    have hlinked' := (Linked.of_unvoted hstart).run
      ((votes_of_meets hmeets' h').mono fun _ _ hc => hc.1)
    have hone := Linked.oneBlockPerSlot (Linked.of_unvoted hstart) horderly
    exact ((Headed.of_unvoted hstart).run hrun).bestHead_eq ((Headed.of_unvoted hstart).run hrun')
      (hlinked.sameTree hsame hstakes hlinked' hroot)
      (fun c c' hc hc' hslot => hlinked.candidate_unique hone hc hc' hslot)
      fun hash n hn hle => hlinked.exists_leaf hn hle

def inKeyOrder (votes : List Vote) : List (Vote × IterationOrder) := votes.map (·, .byKey)

def forkedChain : List Vote :=
  [ballot 1 10 10 none, ballot 2 10 10 none, ballot 1 11 11 (some 10), ballot 2 12 12 (some 10)]

def forkedChainReordered : List Vote :=
  [ballot 2 10 10 none, ballot 2 12 12 (some 10), ballot 1 10 10 none, ballot 1 11 11 (some 10)]

theorem forked_chain_in_either_order :
    ∃ results t results' t',
      deliver acceptingCrypto anyVote (registered 0 []) (inKeyOrder forkedChain) =
        some (results, t) ∧
      deliver acceptingCrypto anyVote (registered 0 []) (inKeyOrder forkedChainReordered) =
        some (results', t') ∧
      (∀ hash, t.weightAt hash = t'.weightAt hash) ∧
      (∀ hash, t.parentAt hash = t'.parentAt hash) ∧ t.bestHead = t'.bestHead ∧
      t.bestHead = some (Bytes32.splat 12) := by
  have hstreams := votesOf_ext
    (show ∀ a ∈ (inKeyOrder forkedChain).map Prod.fst ++ (inKeyOrder forkedChainReordered).map Prod.fst,
      votesOf a.validator ((inKeyOrder forkedChain).map Prod.fst) =
        votesOf a.validator ((inKeyOrder forkedChainReordered).map Prod.fst) by decide +kernel)
  obtain ⟨results, t, results', t', h, h', -, hweights, hparents, hhead⟩ :=
    delivery_order_independence acceptingCrypto 0 [] (inKeyOrder forkedChain)
      (inKeyOrder forkedChainReordered) hstreams
  have hbest : (deliver acceptingCrypto anyVote (registered 0 []) (inKeyOrder forkedChain)).map
      (fun final => final.2.bestHead) = some (some (Bytes32.splat 12)) := by decide +kernel
  rw [h] at hbest
  exact ⟨results, t, results', t', h, h', hweights,
    hparents (by unfold Meets; decide +kernel) (by unfold Meets; decide +kernel),
    hhead (by unfold Meets; decide +kernel) (by unfold Meets; decide +kernel),
    Option.some.inj hbest⟩

def lateParent : List Vote :=
  [ballot 2 11 11 (some 10), ballot 1 10 10 none, ballot 3 12 12 none]

def parentInTime : List Vote :=
  [ballot 1 10 10 none, ballot 2 11 11 (some 10), ballot 3 12 12 none]

def summary (final : List (Vote × Bool) × Tower) :
    List Bool × Option (Option BlockHash) × Option BlockHash :=
  (final.1.map Prod.snd, final.2.parentAt (Bytes32.splat 11), final.2.bestHead)

theorem late_parent_changes_best_head :
    ∃ results t results' t',
      (∀ v, votesOf v ((inKeyOrder parentInTime).map Prod.fst) =
        votesOf v ((inKeyOrder lateParent).map Prod.fst)) ∧
      deliver acceptingCrypto anyVote (registered 0 []) (inKeyOrder parentInTime) =
        some (results, t) ∧
      deliver acceptingCrypto anyVote (registered 0 []) (inKeyOrder lateParent) =
        some (results', t') ∧
      t.parentAt (Bytes32.splat 11) ≠ t'.parentAt (Bytes32.splat 11) ∧
      t.bestHead ≠ t'.bestHead := by
  have hstreams := votesOf_ext
    (show ∀ a ∈ (inKeyOrder parentInTime).map Prod.fst ++ (inKeyOrder lateParent).map Prod.fst,
      votesOf a.validator ((inKeyOrder parentInTime).map Prod.fst) =
        votesOf a.validator ((inKeyOrder lateParent).map Prod.fst) by decide +kernel)
  have hintime : (deliver acceptingCrypto anyVote (registered 0 [])
      (inKeyOrder parentInTime)).map summary =
      some ([true, true, true], some (some (Bytes32.splat 10)), some (Bytes32.splat 11)) := by
    decide +kernel
  have hlate : (deliver acceptingCrypto anyVote (registered 0 [])
      (inKeyOrder lateParent)).map summary =
      some ([true, true, true], some none, some (Bytes32.splat 12)) := by
    decide +kernel
  obtain ⟨⟨results, t⟩, h, ht⟩ := Option.map_eq_some_iff.mp hintime
  obtain ⟨⟨results', t'⟩, h', ht'⟩ := Option.map_eq_some_iff.mp hlate
  obtain ⟨-, hparent, hhead⟩ := by simpa only [summary, Prod.mk.injEq] using ht
  obtain ⟨-, hparent', hhead'⟩ := by simpa only [summary, Prod.mk.injEq] using ht'
  refine ⟨results, t, results', t', hstreams, h, h', ?_, ?_⟩
  · rw [hparent, hparent']
    decide
  · rw [hhead, hhead']
    decide +kernel

end Outcome

end Tower

end TrustNode.Consensus
