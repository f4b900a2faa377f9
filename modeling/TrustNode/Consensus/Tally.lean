import TrustNode.Consensus.Step

namespace TrustNode.Consensus

open Word

namespace Tower

def accepted (results : List (Vote × Bool)) : List Vote := (results.filter Prod.snd).map Prod.fst

theorem accepted_append (results : List (Vote × Bool)) (vote : Vote) (flag : Bool) :
    accepted (results ++ [(vote, flag)]) = accepted results ++ if flag then [vote] else [] := by
  cases flag <;> simp [accepted]

theorem Votes.invariant_accepted {C : Crypto} {allowed : Tower → Vote → Prop} {start t : Tower}
    {results : List (Vote × Bool)} (hrun : Votes C allowed start results t)
    {I : List Vote → Tower → Prop} (hstart : I [] start)
    (hreject : ∀ {votes t vote t'}, I votes t → Rejects C t vote t' → I votes t')
    (haccept : ∀ {votes t order vote t'}, I votes t → allowed t vote → Accepts C order t vote t' →
      I (votes ++ [vote]) t') : I (accepted results) t := by
  refine hrun.invariant (I := fun results t => I (accepted results) t) hstart
    (fun ih _ hstep => ?_) (fun ih hallowed hstep => ?_)
  · rw [accepted_append, if_neg Bool.false_ne_true, List.append_nil]
    exact hreject ih hstep
  · rw [accepted_append]
    exact haccept ih hallowed hstep

theorem mem_accepted {results : List (Vote × Bool)} {vote : Vote} :
    vote ∈ accepted results ↔ (vote, true) ∈ results := by
  simp [accepted]

def stakeOn (t : Tower) (voters : List ValidatorId) : ℕ :=
  (voters.map fun v => (t.stakeOf v).toNat).sum

structure Tallied (votes : List Vote) (t : Tower) : Prop where
  known : ∀ hash, hash ∈ t.nodes ↔ ∃ a ∈ votes, a.blockHash = hash
  voters : ∀ hash n, t.nodes.lookup hash = some n → ∀ v,
    v ∈ n.voters ↔ ∃ a ∈ votes, a.blockHash = hash ∧ a.validator = v
  nodup : ∀ hash n, t.nodes.lookup hash = some n → n.voters.Nodup
  weight : ∀ hash n, t.nodes.lookup hash = some n →
    n.weight.toNat = min (t.stakeOn n.voters) (2 ^ 64 - 1)

namespace Tallied

variable {C : Crypto} {order : IterationOrder} {votes : List Vote} {t t' : Tower} {vote : Vote}

theorem of_unvoted (h : Unvoted t) : Tallied [] t := by
  have hnone : ∀ hash n, t.nodes.lookup hash ≠ some n := by simp [h.nodes]
  exact ⟨fun hash => by simp [h.nodes, Finmap.notMem_empty], fun hash n hn => absurd hn (hnone hash n),
    fun hash n hn => absurd hn (hnone hash n), fun hash n hn => absurd hn (hnone hash n)⟩

theorem baseNode_spec (h : Tallied votes t) (vote : Vote) :
    (∀ v, v ∈ (t.baseNode vote).voters ↔
      ∃ a ∈ votes, a.blockHash = vote.blockHash ∧ a.validator = v) ∧
    (t.baseNode vote).voters.Nodup ∧
    (t.baseNode vote).weight.toNat = min (t.stakeOn (t.baseNode vote).voters) (2 ^ 64 - 1) := by
  rcases t.baseNode_cases vote with ⟨hnone, hfresh⟩ | hold
  · rw [hfresh]
    refine ⟨fun v => ⟨fun hv => absurd hv List.not_mem_nil, ?_⟩, List.nodup_nil, rfl⟩
    rintro ⟨a, ha, hhash, -⟩
    have hmem := (h.known vote.blockHash).mpr ⟨a, ha, hhash⟩
    rw [← Finmap.lookup_isSome, hnone] at hmem
    cases hmem
  · exact ⟨h.voters _ _ hold, h.nodup _ _ hold, h.weight _ _ hold⟩

theorem votedNode_spec (h : Tallied votes t) (vote : Vote) :
    (t.votedNode vote).voters.Nodup ∧
      (t.votedNode vote).weight.toNat =
        min (t.stakeOn (t.votedNode vote).voters) (2 ^ 64 - 1) := by
  obtain ⟨-, hnodup, hweight⟩ := h.baseNode_spec vote
  rw [voters_votedNode, weight_votedNode]
  split
  · exact ⟨hnodup, hweight⟩
  · next hnew =>
    refine ⟨hnodup.append (List.nodup_singleton _) (by simpa using hnew), ?_⟩
    rw [toNat_saturatingAdd, hweight, stakeOn, stakeOn, List.map_append, List.sum_append,
      List.map_singleton, List.sum_singleton]
    omega

theorem accept (h : Tallied votes t) (hstep : Accepts C order t vote t') :
    Tallied (votes ++ [vote]) t' := by
  have hstake : ∀ voters, t'.stakeOn voters = t.stakeOn voters := by
    intro voters
    simp only [stakeOn, hstep.stakeOf]
  refine ⟨fun hash => ?_, fun hash n hn v => ?_, fun hash n hn => ?_, fun hash n hn => ?_⟩
  · rw [hstep.mem_nodes, h.known]
    simp [or_and_right, exists_or, or_comm, eq_comm]
  · obtain ⟨m, rfl, ⟨rfl, rfl⟩ | ⟨hne, hm⟩⟩ := hstep.lookup_eq_some hn
    · rw [voters_linked, mem_voters_votedNode, (h.baseNode_spec vote).1]
      simp [or_and_right, exists_or, or_comm, eq_comm]
    · rw [voters_linked, h.voters hash m hm]
      simp [or_and_right, exists_or, Ne.symm hne]
  · obtain ⟨m, rfl, ⟨-, rfl⟩ | ⟨-, hm⟩⟩ := hstep.lookup_eq_some hn
    · rw [voters_linked]
      exact (h.votedNode_spec vote).1
    · rw [voters_linked]
      exact h.nodup hash m hm
  · obtain ⟨m, rfl, ⟨-, rfl⟩ | ⟨-, hm⟩⟩ := hstep.lookup_eq_some hn
    · rw [voters_linked, weight_linked, hstake]
      exact (h.votedNode_spec vote).2
    · rw [voters_linked, weight_linked, hstake]
      exact h.weight hash m hm

theorem reject (h : Tallied votes t) (hstep : Rejects C t vote t') : Tallied votes t' := by
  refine ⟨?_, ?_, ?_, ?_⟩ <;> rw [hstep.nodes]
  · exact h.known
  · exact h.voters
  · exact h.nodup
  · simpa only [stakeOn, hstep.stakeOf] using h.weight

theorem run {allowed : Tower → Vote → Prop} {start : Tower} {results : List (Vote × Bool)}
    (hstart : Tallied [] start) (hrun : Votes C allowed start results t) :
    Tallied (accepted results) t :=
  hrun.invariant_accepted hstart (fun h hstep => h.reject hstep) fun h _ hstep => h.accept hstep

end Tallied

end Tower

end TrustNode.Consensus
