import TrustNode.Base.Throughout
import TrustNode.Consensus.Step

namespace TrustNode.Consensus

inductive TowerCall where
  | registerValidator (validator : ValidatorId) (stake : UInt64)
  | processVote (order : IterationOrder) (vote : Vote)
  | advanceRoot (newRoot : UInt64)

namespace Tower

def vote (C : Crypto) (t : Tower) (delivery : IterationOrder × Vote) : Option Tower :=
  (t.processVote C delivery.1 delivery.2).map Prod.snd

def call (C : Crypto) (t : Tower) : TowerCall → Option Tower
  | .registerValidator validator stake => some (t.registerValidator validator stake)
  | .processVote order vote => t.vote C (order, vote)
  | .advanceRoot newRoot => some (t.advanceRoot newRoot)

def run (C : Crypto) (t : Tower) (calls : List TowerCall) : Option Tower := calls.foldlM (call C) t

section Advance

variable (t : Tower) (newRoot : UInt64)

theorem lookup_advanceRoot (hash : BlockHash) :
    (t.advanceRoot newRoot).nodes.lookup hash =
      (t.nodes.lookup hash).filter fun node => newRoot ≤ node.slot :=
  Table.lookup_retain _ _ _

theorem lookup_advanceRoot_eq_some {hash : BlockHash} {n : TowerNode} :
    (t.advanceRoot newRoot).nodes.lookup hash = some n ↔
      t.nodes.lookup hash = some n ∧ newRoot ≤ n.slot := by
  rw [lookup_advanceRoot, Option.filter_eq_some_iff, decide_eq_true_eq]

theorem mem_validatorStates_advanceRoot (v : ValidatorId) :
    v ∈ (t.advanceRoot newRoot).validatorStates.keys ↔ v ∈ t.validatorStates.keys := by
  rw [Table.mem_keys_iff, Table.mem_keys_iff, advanceRoot, Table.lookup_mapValues, Option.isSome_map]

end Advance

section Cases

variable {C : Crypto} {t t' : Tower}

theorem vote_cases {delivery : IterationOrder × Vote} (h : t.vote C delivery = some t') :
    Rejects C t delivery.2 t' ∨ Accepts C delivery.1 t delivery.2 t' := by
  obtain ⟨⟨accepted, u⟩, hu, rfl⟩ := Option.map_eq_some_iff.mp h
  obtain ⟨-, hreject⟩ | ⟨-, haccept⟩ := processVote_eq_some hu
  · exact .inl hreject
  · exact .inr haccept

theorem vote_of_refused {vote : Vote} (h : t.admits C vote = false)
    (order : IterationOrder) :
    t.vote C (order, vote) =
      some (if vote.verifySignature C then t.skip vote else t) := by
  unfold Tower.vote processVote
  cases hsignature : vote.verifySignature C with
  | false => rfl
  | true =>
    rw [if_neg (by simp), if_pos (rfl : true = true)]
    split_ifs with hlast hlocked
    · rfl
    · rfl
    · simp only [admits, hsignature, Bool.true_and, Bool.and_eq_false_iff, decide_eq_false_iff_not,
        Bool.or_eq_false_iff, Bool.not_eq_false'] at h
      simp only [Bool.and_eq_true, Bool.not_eq_true', not_and, Bool.not_eq_false] at hlocked
      obtain hlt | ⟨hswitch, hlockout⟩ := h
      · exact absurd (UInt64.not_lt.mp hlt) hlast
      · rw [hlocked hswitch] at hlockout
        cases hlockout

theorem vote_of_admitted {vote : Vote} (h : t.admits C vote = true)
    (order : IterationOrder) :
    t.vote C (order, vote) = ((t.cast vote).updateBestHead order).map fun u =>
      { u with totalVotes := u.totalVotes + 1 } := by
  simp only [admits, Bool.and_eq_true, decide_eq_true_eq, Bool.or_eq_true, Bool.not_eq_true'] at h
  obtain ⟨⟨hsignature, hlast⟩, hlockout⟩ := h
  have hfree : ¬(t.isForkSwitch vote &&
      !(t.refreshed vote).canSwitchFork vote.slot) = true := by
    obtain hstay | hswitch := hlockout
    · simp [hstay]
    · simp [hswitch]
  rw [Tower.vote, processVote, if_neg (by simp [hsignature]), if_neg (UInt64.not_le.mpr hlast),
    if_neg hfree, Option.map_map]
  rfl

end Cases

end Tower

end TrustNode.Consensus
