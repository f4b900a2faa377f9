import TrustNode.Consensus.Leader

namespace TrustNode.Consensus

namespace LeaderSchedule

open Binary64

def stakeSum (validators : List ValidatorStake) : ℕ :=
  (validators.map fun v => v.lamports.toNat).sum

theorem stakeSum_cons (v : ValidatorStake) (rest : List ValidatorStake) :
    stakeSum (v :: rest) = v.lamports.toNat + stakeSum rest :=
  List.sum_cons

theorem stakeSum_perm {validators validators' : List ValidatorStake}
    (h : validators.Perm validators') : stakeSum validators = stakeSum validators' :=
  (h.map _).sum_eq

theorem lamports_le_stakeSum {v : ValidatorStake} {validators : List ValidatorStake}
    (h : v ∈ validators) : v.lamports.toNat ≤ stakeSum validators :=
  List.single_le_sum (fun _ _ => Nat.zero_le _) _ (List.mem_map_of_mem h)

theorem toNat_totalStake {validators : List ValidatorStake} (hfit : stakeSum validators < 2 ^ 64) :
    (totalStake validators).toNat = stakeSum validators := by
  induction validators with
  | nil => rfl
  | cons v rest ih =>
    rw [stakeSum_cons] at hfit
    have hrest := ih (by omega)
    rw [totalStake] at hrest ⊢
    rw [List.map_cons, List.sum_cons, UInt64.toNat_add, hrest, stakeSum_cons,
      Nat.mod_eq_of_lt hfit]

section Share

variable {total slots : UInt64}

def share (total slots : UInt64) (v : ValidatorStake) : ℚ :=
  v.lamports.toNat / total.toNat * slots.toNat

theorem share_nonneg (v : ValidatorStake) : 0 ≤ share total slots v := by
  unfold share
  positivity

theorem share_le (slots : UInt64) {v : ValidatorStake} (hle : v.lamports.toNat ≤ total.toNat) :
    share total slots v ≤ slots.toNat := by
  have hquot : (v.lamports.toNat : ℚ) / total.toNat ≤ 1 :=
    div_le_one_of_le₀ (by exact_mod_cast hle) (by positivity)
  calc share total slots v ≤ 1 * slots.toNat :=
        mul_le_mul_of_nonneg_right hquot (by positivity)
    _ = slots.toNat := one_mul _

theorem numSlots_near_share {v : ValidatorStake} (htotal : total ≠ 0)
    (hle : v.lamports.toNat ≤ total.toNat) (hslots : slots.toNat < 2 ^ 49) :
    (numSlots total slots v : ℚ) ≤ (1 + 1 / 2 ^ 49) * share total slots v ∧
      (1 - 1 / 2 ^ 49) * share total slots v < numSlots total slots v + 1 := by
  obtain ⟨x, hx, hlow, hhigh⟩ := proportion_between v.lamports htotal slots
  change (1 - 1 / 2 ^ 49) * share total slots v ≤ x at hlow
  change x ≤ (1 + 1 / 2 ^ 49) * share total slots v at hhigh
  have hnonneg : 0 ≤ x :=
    (mul_nonneg (by norm_num) (share_nonneg v)).trans hlow
  have hsmall : x < 2 ^ 64 := by
    have hslots' : (slots.toNat : ℚ) < 2 ^ 49 := by exact_mod_cast hslots
    have := share_le slots hle
    calc x ≤ (1 + 1 / 2 ^ 49) * share total slots v := hhigh
      _ ≤ (1 + 1 / 2 ^ 49) * 2 ^ 49 := by gcongr; linarith
      _ < 2 ^ 64 := by norm_num
  have hfloor : ⌊x⌋₊ < 2 ^ 64 := (Nat.floor_lt hnonneg).mpr (by exact_mod_cast hsmall)
  have hnum : numSlots total slots v = ⌊x⌋₊ := by
    change (v.lamports.toFloat / total.toFloat * slots.toFloat).toUInt64.toNat = _
    rw [hx]
    omega
  rw [hnum]
  exact ⟨(Nat.floor_le hnonneg).trans hhigh, hlow.trans_lt (Nat.lt_floor_add_one x)⟩

theorem sum_share (validators : List ValidatorStake) :
    (validators.map (share total slots)).sum =
      (stakeSum validators : ℚ) / total.toNat * slots.toNat := by
  induction validators with
  | nil => simp [stakeSum]
  | cons v rest ih =>
    rw [List.map_cons, List.sum_cons, ih, stakeSum_cons, share]
    push_cast
    ring

theorem sum_numSlots_bounds {validators : List ValidatorStake} (htotal : total ≠ 0)
    (hle : ∀ v ∈ validators, v.lamports.toNat ≤ total.toNat) (hslots : slots.toNat < 2 ^ 49) :
    ((validators.map (numSlots total slots)).sum : ℚ) ≤
        (1 + 1 / 2 ^ 49) * (validators.map (share total slots)).sum ∧
      (1 - 1 / 2 ^ 49) * (validators.map (share total slots)).sum ≤
        (validators.map (numSlots total slots)).sum + validators.length := by
  induction validators with
  | nil => simp
  | cons v rest ih =>
    obtain ⟨hv, hrest⟩ := List.forall_mem_cons.mp hle
    obtain ⟨hhigh, hlow⟩ := numSlots_near_share htotal hv hslots
    obtain ⟨ihhigh, ihlow⟩ := ih hrest
    simp only [List.map_cons, List.sum_cons, List.length_cons, Nat.cast_add, Nat.cast_one, mul_add]
    constructor <;> linarith

end Share

section Totals

variable {validators : List ValidatorStake} {slots : UInt64}

theorem totalStake_ne_zero (hfit : stakeSum validators < 2 ^ 64)
    (hstaked : 0 < stakeSum validators) : totalStake validators ≠ 0 := by
  intro h
  have := toNat_totalStake hfit
  rw [h, UInt64.toNat_zero] at this
  omega

theorem lamports_le_totalStake (hfit : stakeSum validators < 2 ^ 64) :
    ∀ v ∈ validators, v.lamports.toNat ≤ (totalStake validators).toNat := by
  intro v hv
  rw [toNat_totalStake hfit]
  exact lamports_le_stakeSum hv

theorem sum_share_totalStake (hfit : stakeSum validators < 2 ^ 64)
    (hstaked : 0 < stakeSum validators) :
    (validators.map (share (totalStake validators) slots)).sum = slots.toNat := by
  have hne : (stakeSum validators : ℚ) ≠ 0 := by
    exact_mod_cast hstaked.ne'
  rw [sum_share, toNat_totalStake hfit, div_self hne, one_mul]

theorem numSlots_unstaked (hfit : stakeSum validators < 2 ^ 64)
    (hunstaked : stakeSum validators = 0) {v : ValidatorStake} (hv : v ∈ validators) :
    numSlots (totalStake validators) slots v = 0 := by
  have hlamports : v.lamports = 0 := by
    apply UInt64.toNat_inj.mp
    have := lamports_le_stakeSum hv
    rw [UInt64.toNat_zero]
    omega
  have htotal : totalStake validators = 0 := by
    apply UInt64.toNat_inj.mp
    rw [toNat_totalStake hfit, hunstaked, UInt64.toNat_zero]
  rw [numSlots, hlamports, htotal, zero_div_zero_mul, UInt64.toNat_zero]

theorem sum_numSlots_le (hfit : stakeSum validators < 2 ^ 64) (hslots : slots.toNat < 2 ^ 49) :
    (validators.map (numSlots (totalStake validators) slots)).sum ≤ slots.toNat := by
  rcases Nat.eq_zero_or_pos (stakeSum validators) with hunstaked | hstaked
  · rw [List.sum_eq_zero]
    · exact Nat.zero_le _
    · intro k hk
      obtain ⟨v, hv, rfl⟩ := List.mem_map.mp hk
      exact numSlots_unstaked hfit hunstaked hv
  · obtain ⟨hhigh, -⟩ := sum_numSlots_bounds (totalStake_ne_zero hfit hstaked)
      (lamports_le_totalStake hfit) hslots
    rw [sum_share_totalStake hfit hstaked] at hhigh
    have hslots' : (slots.toNat : ℚ) < 2 ^ 49 := by exact_mod_cast hslots
    have hlt : ((validators.map (numSlots (totalStake validators) slots)).sum : ℚ) <
        slots.toNat + 1 := by linarith
    exact Nat.lt_succ_iff.mp (by exact_mod_cast hlt)

theorem slots_le_sum_numSlots_add (hfit : stakeSum validators < 2 ^ 64)
    (hstaked : 0 < stakeSum validators) (hslots : slots.toNat < 2 ^ 49) :
    slots.toNat ≤ (validators.map (numSlots (totalStake validators) slots)).sum +
      validators.length := by
  obtain ⟨-, hlow⟩ := sum_numSlots_bounds (totalStake_ne_zero hfit hstaked)
    (lamports_le_totalStake hfit) hslots
  rw [sum_share_totalStake hfit hstaked] at hlow
  have hslots' : (slots.toNat : ℚ) < 2 ^ 49 := by exact_mod_cast hslots
  have hlt : (slots.toNat : ℚ) <
      (validators.map (numSlots (totalStake validators) slots)).sum + validators.length + 1 := by
    linarith
  exact Nat.lt_succ_iff.mp (by exact_mod_cast hlt)

end Totals

section Schedule

variable {s : LeaderSchedule}

theorem schedule_computeSchedule (s : LeaderSchedule) :
    s.computeSchedule.schedule =
      assigned (totalStake s.validators) s.epochLength s.validators.zipIdx ++
        (List.range' 0 (s.epochLength.toNat -
          (s.validators.map (numSlots (totalStake s.validators) s.epochLength)).sum)).map
            (· % s.validators.length) := by
  rw [← length_assigned (totalStake s.validators) s.epochLength s.validators 0]
  exact fillRemaining_eq _ _ _ _

theorem valid_computeSchedule (hne : s.validators ≠ []) (hfit : stakeSum s.validators < 2 ^ 64)
    (hslots : s.epochLength.toNat < 2 ^ 49) : s.computeSchedule.Valid where
  length_eq := by
    have hsum := sum_numSlots_le hfit hslots
    rw [schedule_computeSchedule, List.length_append, length_assigned, List.length_map,
      List.length_range']
    exact Nat.add_sub_cancel' hsum
  index_lt := by
    intro idx hidx
    rw [schedule_computeSchedule] at hidx
    rcases List.mem_append.mp hidx with hassigned | hfilled
    · exact lt_of_mem_assigned _ _ hassigned
    · obtain ⟨k, -, rfl⟩ := List.mem_map.mp hfilled
      exact Nat.mod_lt _ (List.length_pos_iff.mpr hne)

theorem count_filled_le_one {r n : ℕ} (hr : r ≤ n) (i : ℕ) :
    ((List.range' 0 r).map (· % n)).count i ≤ 1 := by
  have hid : (List.range' 0 r).map (· % n) = List.range' 0 r := by
    conv_rhs => rw [← List.map_id (List.range' 0 r)]
    refine List.map_congr_left fun k hk => ?_
    have := (List.mem_range'_1.mp hk).2
    exact Nat.mod_eq_of_lt (by omega)
  rw [hid]
  exact List.nodup_iff_count_le_one.mp List.nodup_range' i

theorem count_computeSchedule (hfit : stakeSum s.validators < 2 ^ 64)
    (hstaked : 0 < stakeSum s.validators) (hslots : s.epochLength.toNat < 2 ^ 49) {i : ℕ}
    {v : ValidatorStake} (hv : s.validators[i]? = some v) :
    numSlots (totalStake s.validators) s.epochLength v ≤ s.computeSchedule.schedule.count i ∧
      s.computeSchedule.schedule.count i ≤
        numSlots (totalStake s.validators) s.epochLength v + 1 := by
  have hcount := count_assigned (totalStake s.validators) s.epochLength s.validators 0 i
  rw [Nat.zero_add, hv, Option.map_some, Option.getD_some] at hcount
  rw [schedule_computeSchedule, List.count_append, hcount]
  have hfew := slots_le_sum_numSlots_add hfit hstaked hslots
  have hone := count_filled_le_one (n := s.validators.length)
    (r := s.epochLength.toNat -
      (s.validators.map (numSlots (totalStake s.validators) s.epochLength)).sum) (by omega) i
  omega

end Schedule

section New

variable {validators : List ValidatorStake} {slotsPerLeader epochLength : UInt64}
  {s : LeaderSchedule}

def unscheduled (validators : List ValidatorStake) (slotsPerLeader epochLength epoch : UInt64) :
    LeaderSchedule where
  validators := validators.insertionSort heavier
  slotsPerLeader := slotsPerLeader
  epochLength := epochLength
  currentEpoch := epoch
  schedule := []

theorem new_eq_some (h : new validators slotsPerLeader epochLength = some s) :
    validators ≠ [] ∧ s = (unscheduled validators slotsPerLeader epochLength 0).computeSchedule := by
  unfold new at h
  split_ifs at h with hne
  exact ⟨hne, (Option.some.inj h).symm⟩

theorem sorted_perm (validators : List ValidatorStake) :
    (validators.insertionSort heavier).Perm validators :=
  List.perm_insertionSort heavier validators

theorem valid_unscheduled (slotsPerLeader : UInt64) (hne : validators ≠ []) (hfit : stakeSum validators < 2 ^ 64)
    (hslots : epochLength.toNat < 2 ^ 49) (epoch : UInt64) :
    (unscheduled validators slotsPerLeader epochLength epoch).computeSchedule.Valid := by
  refine valid_computeSchedule ?_ ?_ hslots
  · intro h
    exact hne (List.nil_perm.mp (h ▸ sorted_perm validators))
  · exact (stakeSum_perm (sorted_perm validators)).trans_lt hfit

theorem iterate_advanceEpoch (validators : List ValidatorStake)
    (slotsPerLeader epochLength epoch : UInt64) (k : ℕ) :
    ∃ epoch', advanceEpoch^[k]
        (unscheduled validators slotsPerLeader epochLength epoch).computeSchedule =
      (unscheduled validators slotsPerLeader epochLength epoch').computeSchedule := by
  induction k with
  | zero => exact ⟨epoch, rfl⟩
  | succ k ih =>
    obtain ⟨epoch', hk⟩ := ih
    refine ⟨epoch' + 1, ?_⟩
    rw [Function.iterate_succ_apply', hk]
    rfl

theorem leader_of_every_slot (hnew : new validators slotsPerLeader epochLength = some s)
    (hfit : stakeSum validators < 2 ^ 64) (hpos : 0 < epochLength.toNat)
    (hslots : epochLength.toNat < 2 ^ 49) (slot : UInt64) :
    ∃ leader ∈ validators, ∀ k,
      (advanceEpoch^[k] s).leaderForSlot slot = some leader ∧
      (advanceEpoch^[k] s).leaderForSlot (slot % epochLength) = some leader := by
  obtain ⟨hne, rfl⟩ := new_eq_some hnew
  have hvalid := valid_unscheduled slotsPerLeader hne hfit hslots 0
  obtain ⟨idx, leader, hidx, hleader, hslot⟩ := hvalid.leaderForSlot_eq slot hpos
  refine ⟨leader, (sorted_perm validators).mem_iff.mp (List.mem_of_getElem? hleader), fun k => ?_⟩
  obtain ⟨epoch, hk⟩ := iterate_advanceEpoch validators slotsPerLeader epochLength 0 k
  rw [hk]
  exact ⟨hslot, (hvalid.leaderForSlot_mod slot).trans hslot⟩

def threeToOne : List ValidatorStake := [⟨.splat 1, 1, "light"⟩, ⟨.splat 2, 3, "heavy"⟩]

theorem new_threeToOne :
    new threeToOne 4 10 = some (unscheduled threeToOne 4 10 0).computeSchedule :=
  if_neg (List.cons_ne_nil _ _)

theorem threeToOne_leader_of_every_slot :
    ∃ s, new threeToOne 4 10 = some s ∧ ∀ slot, ∃ leader ∈ threeToOne, ∀ k,
      (advanceEpoch^[k] s).leaderForSlot slot = some leader ∧
      (advanceEpoch^[k] s).leaderForSlot (slot % 10) = some leader :=
  ⟨_, new_threeToOne,
    leader_of_every_slot new_threeToOne (by decide) (by decide) (by decide)⟩

theorem slotsForLeader_near_share (hnew : new validators slotsPerLeader epochLength = some s)
    (hfit : stakeSum validators < 2 ^ 64) (hstaked : 0 < stakeSum validators)
    (hids : (validators.map ValidatorStake.validator).Nodup) (hpos : 0 < epochLength.toNat)
    (hslots : epochLength.toNat < 2 ^ 49) {v : ValidatorStake} (hv : v ∈ validators) :
    ∃ slots, s.slotsForLeader v.validator = some slots ∧ slots.Nodup ∧
      (∀ slot, slot ∈ slots ↔ slot < epochLength ∧ s.isLeader v.validator slot = some true) ∧
      |(slots.length : ℚ) - v.lamports.toNat * epochLength.toNat / stakeSum validators| ≤
        1 + epochLength.toNat / 2 ^ 49 := by
  obtain ⟨hne, rfl⟩ := new_eq_some hnew
  have hvalid := valid_unscheduled slotsPerLeader hne hfit hslots 0
  obtain ⟨slots, heq, hmem⟩ := hvalid.mem_slotsForLeader v.validator hpos
  refine ⟨slots, heq, hvalid.nodup_slotsForLeader heq, hmem, ?_⟩
  set base := unscheduled validators slotsPerLeader epochLength 0
  have hperm : base.validators.Perm validators := sorted_perm validators
  have hsum : stakeSum base.validators = stakeSum validators := stakeSum_perm hperm
  obtain ⟨i, hi⟩ := List.mem_iff_getElem?.mp (hperm.mem_iff.mpr hv)
  have hlength : slots.length = base.computeSchedule.schedule.count i := by
    rw [hvalid.slotsForLeader_eq] at heq
    rw [← Option.some.inj heq, List.length_map,
      length_filter_zipIdx (p := base.computeSchedule.ledBy v.validator), List.count]
    refine List.countP_congr fun idx _ => ?_
    rw [decide_eq_true_iff, beq_iff_eq]
    exact ledBy_iff_of_nodup ((hperm.map _).nodup_iff.mpr hids) hi
  have hfit' : stakeSum base.validators < 2 ^ 64 := hsum.trans_lt hfit
  have hstaked' : 0 < stakeSum base.validators := hsum.symm ▸ hstaked
  obtain ⟨hlow, hhigh⟩ := count_computeSchedule hfit' hstaked' hslots hi
  have hle := lamports_le_totalStake hfit' v (hperm.mem_iff.mpr hv)
  obtain ⟨hnear₁, hnear₂⟩ :=
    numSlots_near_share (totalStake_ne_zero hfit' hstaked') hle hslots
  have hshare : share (totalStake base.validators) epochLength v =
      v.lamports.toNat * epochLength.toNat / stakeSum validators := by
    rw [share, toNat_totalStake hfit', hsum]
    ring
  have hbound := share_le epochLength hle
  rw [hshare] at hnear₁ hnear₂ hbound
  have hlow' : (numSlots (totalStake base.validators) epochLength v : ℚ) ≤ slots.length := by
    rw [hlength]
    exact_mod_cast hlow
  have hhigh' : (slots.length : ℚ) ≤ numSlots (totalStake base.validators) epochLength v + 1 := by
    rw [hlength]
    exact_mod_cast hhigh
  rw [abs_le]
  constructor <;> linarith

theorem threeToOne_near_share :
    ∃ s, new threeToOne 4 10 = some s ∧ ∃ slots, s.slotsForLeader (.splat 2) = some slots ∧
      slots.Nodup ∧
      (∀ slot, slot ∈ slots ↔ slot < 10 ∧ s.isLeader (.splat 2) slot = some true) ∧
      |(slots.length : ℚ) - (3 : UInt64).toNat * (10 : UInt64).toNat / stakeSum threeToOne| ≤
        1 + (10 : UInt64).toNat / 2 ^ 49 :=
  ⟨_, new_threeToOne,
    slotsForLeader_near_share new_threeToOne (by decide) (by decide) (by decide) (by decide)
      (by decide) (v := ⟨.splat 2, 3, "heavy"⟩) (by decide)⟩

theorem heavier_pairwise (validators : List ValidatorStake) :
    (validators.insertionSort heavier).Pairwise heavier := by
  have : Std.Total heavier := ⟨fun a b => by
    simp only [heavier, UInt64.le_iff_toNat_le]
    omega⟩
  have : IsTrans ValidatorStake heavier := ⟨fun a b c hab hbc => UInt64.le_trans hbc hab⟩
  exact List.pairwise_insertionSort heavier validators

theorem new_perm {validators' : List ValidatorStake} (hperm : validators.Perm validators')
    (hdistinct : (validators.map ValidatorStake.lamports).Nodup) :
    new validators slotsPerLeader epochLength = new validators' slotsPerLeader epochLength := by
  have hsorted : validators.insertionSort heavier = validators'.insertionSort heavier := by
    refine List.Perm.eq_of_pairwise ?_ (heavier_pairwise _) (heavier_pairwise _)
      ((sorted_perm validators).trans (hperm.trans (sorted_perm validators').symm))
    intro a b ha hb hab hba
    have ha' := (sorted_perm validators).mem_iff.mp ha
    have hb' := hperm.mem_iff.mpr ((sorted_perm validators').mem_iff.mp hb)
    exact List.inj_on_of_nodup_map hdistinct ha' hb' (UInt64.le_antisymm hba hab)
  have hempty : validators = [] ↔ validators' = [] := by
    rw [← List.length_eq_zero_iff, hperm.length_eq, List.length_eq_zero_iff]
  simp only [new, hempty, hsorted]

theorem threeToOne_new_perm : new threeToOne 4 10 = new threeToOne.reverse 4 10 :=
  new_perm (List.reverse_perm threeToOne).symm (by decide)

end New

end LeaderSchedule

end TrustNode.Consensus
