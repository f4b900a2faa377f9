import TrustNode.Consensus.Agreement
import TrustNode.Consensus.Calls

namespace TrustNode.Consensus

open Word

namespace Tower

def exactStake (t : Tower) : ℕ :=
  ∑ v ∈ t.stakes.keys, (t.stakeOf v).toNat + (t.validatorStates.keys \ t.stakes.keys).card

def ExactMajority (t : Tower) (node : TowerNode) : Prop := 2 * t.exactStake < 3 * node.weight.toNat

def ExactlyConfirmed (t : Tower) (slot : UInt64) : Prop :=
  ∃ hash node, t.nodes.lookup hash = some node ∧ node.slot = slot ∧ ExactMajority t node

section Stake

variable (t : Tower)

theorem exactStake_eq : t.exactStake = t.stakeSum := by
  have hcount : ∑ v ∈ t.validatorStates.keys, (if v ∈ t.stakes.keys then 0 else defaultStake.toNat) =
      (t.validatorStates.keys \ t.stakes.keys).card := by
    rw [Finset.sdiff_eq_filter, Finset.card_filter]
    refine Finset.sum_congr rfl fun v _ => ?_
    rw [ite_not]
    rfl
  rw [stakeSum_eq, hcount, exactStake]

theorem totalStake_eq_zero_iff : t.totalStake = 0 ↔ t.exactStake = 0 := by
  have hexact := t.toNat_totalStake
  rw [← UInt64.toNat_inj, UInt64.toNat_zero, exactStake_eq]
  omega

theorem saturated_majority_iff (node : TowerNode) :
    saturatingMul t.totalStake 2 < saturatingMul node.weight 3 ↔
      2 * t.exactStake < 2 ^ 64 - 1 ∧ ExactMajority t node := by
  have hexact := t.toNat_totalStake
  have htwo : (2 : UInt64).toNat = 2 := rfl
  have hthree : (3 : UInt64).toNat = 3 := rfl
  rw [UInt64.lt_iff_toNat_lt, toNat_saturatingMul, toNat_saturatingMul, htwo, hthree, ExactMajority,
    exactStake_eq]
  -- The doubled total saturates first: the test fails on every total from there on.
  omega

theorem isSlotConfirmed_iff (slot : UInt64) :
    t.isSlotConfirmed slot = true ↔
      0 < t.exactStake ∧ 2 * t.exactStake < 2 ^ 64 - 1 ∧ ExactlyConfirmed t slot := by
  rw [isSlotConfirmed]
  split_ifs with hzero
  · rw [totalStake_eq_zero_iff] at hzero
    simp [hzero]
  · have hpos : 0 < t.exactStake := Nat.pos_of_ne_zero fun h => hzero (t.totalStake_eq_zero_iff.mpr h)
    rw [List.any_eq_true]
    constructor
    · rintro ⟨hash, -, htest⟩
      cases hlookup : t.nodes.lookup hash with
      | none => simp [hlookup] at htest
      | some node =>
        simp only [hlookup, Bool.and_eq_true, decide_eq_true_eq, saturated_majority_iff] at htest
        obtain ⟨hslot, hrange, hmajority⟩ := htest
        exact ⟨hpos, hrange, hash, node, hlookup, hslot, hmajority⟩
    · rintro ⟨-, hrange, hash, node, hlookup, hslot, hmajority⟩
      refine ⟨hash, ?_, ?_⟩
      · rw [Table.mem_sorted, Finset.mem_val, Table.mem_keys_iff, hlookup]
        rfl
      · simp only [hlookup, Bool.and_eq_true, decide_eq_true_eq, saturated_majority_iff]
        exact ⟨hslot, hrange, hmajority⟩

end Stake

theorem supermajority_test_exact (t : Tower) :
    (∀ slot, t.isSlotConfirmed slot = true ↔ ExactlyConfirmed t slot) ↔
      ((∃ slot, ExactlyConfirmed t slot) → 0 < t.exactStake ∧ 2 * t.exactStake < 2 ^ 64 - 1) := by
  constructor
  · rintro hall ⟨slot, hexact⟩
    obtain ⟨hpos, hrange, -⟩ := (t.isSlotConfirmed_iff slot).mp ((hall slot).mpr hexact)
    exact ⟨hpos, hrange⟩
  · intro hrange slot
    rw [isSlotConfirmed_iff]
    constructor
    · rintro ⟨-, -, hexact⟩
      exact hexact
    · intro hexact
      obtain ⟨hpos, hbound⟩ := hrange ⟨slot, hexact⟩
      exact ⟨hpos, hbound, hexact⟩

def Overlooked (calls : List TowerCall) : Prop :=
  ∃ t, run acceptingCrypto (Tower.new 0) calls = some t ∧ t.isSlotConfirmed 1 = false ∧
    ExactlyConfirmed t 1

theorem overlooked_of_data {calls : List TowerCall} (total weight : ℕ)
    (hdata : ((run acceptingCrypto (Tower.new 0) calls).bind fun t =>
      (t.nodes.lookup (Bytes32.splat 1)).map fun n =>
        (t.isSlotConfirmed 1, t.exactStake, n.slot, n.weight.toNat)) = some (false, total, 1, weight))
    (hmajority : 2 * total < 3 * weight) : Overlooked calls := by
  obtain ⟨t, hrun, hnode⟩ := Option.bind_eq_some_iff.mp hdata
  obtain ⟨n, hn, heq⟩ := Option.map_eq_some_iff.mp hnode
  simp only [Prod.mk.injEq] at heq
  obtain ⟨hconfirmed, rfl, hslot, rfl⟩ := heq
  exact ⟨t, hrun, hconfirmed, Bytes32.splat 1, n, hn, hslot, hmajority⟩

def votedBy (stake : UInt64) : List TowerCall :=
  [.registerValidator (Bytes32.splat 1) stake, .processVote .byKey (ballot 1 1 1 none)]

theorem whole_stake_not_confirmed :
    Overlooked (votedBy (UInt64.ofNat (2 ^ 63))) ∧
      Overlooked (votedBy 5 ++ [.registerValidator (Bytes32.splat 1) 0]) :=
  ⟨overlooked_of_data (2 ^ 63) (2 ^ 63) (by decide +kernel) (by decide),
    overlooked_of_data 0 5 (by decide +kernel) (by decide)⟩

end Tower

end TrustNode.Consensus
