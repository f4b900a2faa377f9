import TrustNode.Base.Binary64
import TrustNode.Consensus.Vote

namespace TrustNode.Consensus

structure ValidatorStake where
  validator : ValidatorId
  lamports : UInt64
  name : String
deriving DecidableEq

structure LeaderSchedule where
  validators : List ValidatorStake
  slotsPerLeader : UInt64
  epochLength : UInt64
  currentEpoch : UInt64
  schedule : List ℕ
deriving DecidableEq

namespace LeaderSchedule

def heavier (a b : ValidatorStake) : Prop := b.lamports ≤ a.lamports

instance : DecidableRel heavier := fun a b => inferInstanceAs (Decidable (b.lamports ≤ a.lamports))

def totalStake (validators : List ValidatorStake) : UInt64 :=
  (validators.map ValidatorStake.lamports).sum

def numSlots (totalStake totalSlots : UInt64) (validator : ValidatorStake) : ℕ :=
  (validator.lamports.toFloat / totalStake.toFloat * totalSlots.toFloat).toUInt64.toNat

def assigned (totalStake totalSlots : UInt64) (validators : List (ValidatorStake × ℕ)) : List ℕ :=
  validators.flatMap fun p => List.replicate (numSlots totalStake totalSlots p.1) p.2

def fillRemaining (validators totalSlots idx : ℕ) (schedule : List ℕ) : List ℕ :=
  if schedule.length < totalSlots then
    fillRemaining validators totalSlots (idx + 1) (schedule ++ [idx % validators])
  else schedule
termination_by totalSlots - schedule.length
decreasing_by
  rw [List.length_append, List.length_singleton]
  omega

def computeSchedule (s : LeaderSchedule) : LeaderSchedule :=
  { s with
    schedule := fillRemaining s.validators.length s.epochLength.toNat 0
      (assigned (totalStake s.validators) s.epochLength s.validators.zipIdx) }

def new (validators : List ValidatorStake) (slotsPerLeader epochLength : UInt64) :
    Option LeaderSchedule :=
  if validators = [] then none
  else some (computeSchedule
    { validators := validators.insertionSort heavier
      slotsPerLeader := slotsPerLeader
      epochLength := epochLength
      currentEpoch := 0
      schedule := [] })

def leaderIndexForSlot (s : LeaderSchedule) (slot : UInt64) : Option ℕ :=
  s.schedule[slot.toNat % s.schedule.length]?

def leaderForSlot (s : LeaderSchedule) (slot : UInt64) : Option ValidatorStake :=
  (s.leaderIndexForSlot slot).bind fun idx => s.validators[idx]?

def isLeader (s : LeaderSchedule) (validator : ValidatorId) (slot : UInt64) : Option Bool :=
  (s.leaderForSlot slot).map fun leader => decide (leader.validator = validator)

def slotsLed (s : LeaderSchedule) (validator : ValidatorId) : List (ℕ × ℕ) → Option (List UInt64)
  | [] => some []
  | (idx, slot) :: rest => do
    let leader ← s.validators[idx]?
    let slots ← slotsLed s validator rest
    pure (if leader.validator = validator then UInt64.ofNat slot :: slots else slots)

def slotsForLeader (s : LeaderSchedule) (validator : ValidatorId) : Option (List UInt64) :=
  s.slotsLed validator s.schedule.zipIdx

def advanceEpoch (s : LeaderSchedule) : LeaderSchedule :=
  computeSchedule { s with currentEpoch := s.currentEpoch + 1 }

theorem leader_unique (s : LeaderSchedule) {slot : UInt64} {validator validator' : ValidatorId}
    (h : s.isLeader validator slot = some true) (h' : s.isLeader validator' slot = some true) :
    validator = validator' := by
  obtain ⟨leader, hleader, heq⟩ := Option.map_eq_some_iff.mp h
  obtain ⟨leader', hleader', heq'⟩ := Option.map_eq_some_iff.mp h'
  obtain rfl := Option.some.inj (hleader.symm.trans hleader')
  exact (of_decide_eq_true heq).symm.trans (of_decide_eq_true heq')

section Assignment

variable (total slots : UInt64)

theorem assigned_cons (p : ValidatorStake × ℕ) (rest : List (ValidatorStake × ℕ)) :
    assigned total slots (p :: rest) =
      List.replicate (numSlots total slots p.1) p.2 ++ assigned total slots rest :=
  List.flatMap_cons

theorem length_assigned (validators : List ValidatorStake) (k : ℕ) :
    (assigned total slots (validators.zipIdx k)).length =
      (validators.map (numSlots total slots)).sum := by
  induction validators generalizing k with
  | nil => rfl
  | cons v rest ih =>
    rw [List.zipIdx_cons, assigned_cons, List.length_append, List.length_replicate, List.map_cons,
      List.sum_cons, ih]

theorem count_assigned (validators : List ValidatorStake) (k i : ℕ) :
    (assigned total slots (validators.zipIdx k)).count (k + i) =
      ((validators[i]?).map (numSlots total slots)).getD 0 := by
  induction validators generalizing k i with
  | nil => rfl
  | cons v rest ih =>
    rw [List.zipIdx_cons, assigned_cons, List.count_append, List.count_replicate]
    cases i with
    | zero =>
      have hrest : (assigned total slots (rest.zipIdx (k + 1))).count k = 0 := by
        rw [List.count_eq_zero, assigned, List.mem_flatMap]
        rintro ⟨p, hp, hmem⟩
        have := List.le_snd_of_mem_zipIdx hp
        have := List.eq_of_mem_replicate hmem
        omega
      simpa using hrest
    | succ i =>
      have hne : (k == k + (i + 1)) = false := by simp
      rw [hne, List.getElem?_cons_succ, ← ih (k + 1) i]
      simp only [Bool.false_eq_true, if_false, Nat.zero_add]
      congr 1
      omega

theorem lt_of_mem_assigned {validators : List ValidatorStake} {idx : ℕ}
    (h : idx ∈ assigned total slots validators.zipIdx) : idx < validators.length := by
  rw [assigned, List.mem_flatMap] at h
  obtain ⟨p, hp, hmem⟩ := h
  rw [List.eq_of_mem_replicate hmem]
  simpa using List.snd_lt_add_of_mem_zipIdx hp

end Assignment

theorem fillRemaining_eq (validators totalSlots idx : ℕ) (schedule : List ℕ) :
    fillRemaining validators totalSlots idx schedule =
      schedule ++ (List.range' idx (totalSlots - schedule.length)).map (· % validators) := by
  fun_induction fillRemaining validators totalSlots idx schedule with
  | case1 idx schedule hlt ih =>
    rw [ih, List.length_append, List.length_singleton, List.append_assoc]
    obtain ⟨k, hk⟩ : ∃ k, totalSlots - schedule.length = k + 1 :=
      ⟨totalSlots - schedule.length - 1, by omega⟩
    rw [hk, show totalSlots - (schedule.length + 1) = k by omega, List.range'_succ]
    rfl
  | case2 idx schedule hge =>
    rw [Nat.sub_eq_zero_of_le (by omega), List.range'_zero, List.map_nil, List.append_nil]

structure Valid (s : LeaderSchedule) : Prop where
  length_eq : s.schedule.length = s.epochLength.toNat
  index_lt : ∀ idx ∈ s.schedule, idx < s.validators.length

section Lookup

variable {s : LeaderSchedule} {validator : ValidatorId}

theorem Valid.leaderForSlot_eq (h : s.Valid) (slot : UInt64) (hpos : 0 < s.epochLength.toNat) :
    ∃ idx leader, s.schedule[slot.toNat % s.epochLength.toNat]? = some idx ∧
      s.validators[idx]? = some leader ∧ s.leaderForSlot slot = some leader := by
  have hlt : slot.toNat % s.epochLength.toNat < s.schedule.length := by
    rw [h.length_eq]
    exact Nat.mod_lt _ hpos
  have hidx := List.getElem?_eq_getElem hlt
  have hleader := List.getElem?_eq_getElem (h.index_lt _ (List.getElem_mem hlt))
  refine ⟨_, _, hidx, hleader, ?_⟩
  rw [leaderForSlot, leaderIndexForSlot, h.length_eq, hidx, Option.bind_some, hleader]

theorem Valid.leaderForSlot_mod (h : s.Valid) (slot : UInt64) :
    s.leaderForSlot (slot % s.epochLength) = s.leaderForSlot slot := by
  simp only [leaderForSlot, leaderIndexForSlot, h.length_eq, UInt64.toNat_mod, Nat.mod_mod]

def ledBy (s : LeaderSchedule) (validator : ValidatorId) (idx : ℕ) : Prop :=
  (s.validators[idx]?).map ValidatorStake.validator = some validator

instance (s : LeaderSchedule) (validator : ValidatorId) (idx : ℕ) :
    Decidable (s.ledBy validator idx) :=
  inferInstanceAs (Decidable (_ = _))

theorem slotsLed_eq (s : LeaderSchedule) (validator : ValidatorId) {entries : List (ℕ × ℕ)}
    (h : ∀ p ∈ entries, p.1 < s.validators.length) :
    s.slotsLed validator entries =
      some ((entries.filter fun p => s.ledBy validator p.1).map fun p => UInt64.ofNat p.2) := by
  induction entries with
  | nil => rfl
  | cons p rest ih =>
    obtain ⟨idx, slot⟩ := p
    obtain ⟨hidx, hrest⟩ := List.forall_mem_cons.mp h
    have hget := List.getElem?_eq_getElem hidx
    rw [slotsLed, hget, ih hrest]
    by_cases hled : (s.validators[idx]).validator = validator
    · have : s.ledBy validator idx := by
        rw [ledBy, hget, Option.map_some, hled]
      simp [hled, this]
    · have : ¬ s.ledBy validator idx := by
        rw [ledBy, hget, Option.map_some, Option.some.injEq]
        exact hled
      simp [hled, this]

theorem Valid.slotsForLeader_eq (h : s.Valid) (validator : ValidatorId) :
    s.slotsForLeader validator =
      some ((s.schedule.zipIdx.filter fun p => s.ledBy validator p.1).map
        fun p => UInt64.ofNat p.2) :=
  slotsLed_eq s validator fun p hp => h.index_lt p.1 (List.fst_mem_of_mem_zipIdx hp)

theorem Valid.isLeader_iff (h : s.Valid) (hpos : 0 < s.epochLength.toNat) (slot : UInt64) :
    s.isLeader validator slot = some true ↔
      ∃ idx, s.schedule[slot.toNat % s.epochLength.toNat]? = some idx ∧
        s.ledBy validator idx := by
  obtain ⟨idx, leader, hidx, hleader, hslot⟩ := h.leaderForSlot_eq slot hpos
  rw [isLeader, hslot, Option.map_some, Option.some.injEq, decide_eq_true_iff, hidx]
  simp only [Option.some.injEq, ledBy, exists_eq_left', hleader, Option.map_some]

theorem Valid.mem_slotsForLeader (h : s.Valid) (validator : ValidatorId) (hpos : 0 < s.epochLength.toNat) :
    ∃ slots, s.slotsForLeader validator = some slots ∧
      ∀ slot, slot ∈ slots ↔
        slot < s.epochLength ∧ s.isLeader validator slot = some true := by
  refine ⟨_, h.slotsForLeader_eq validator, fun slot => ?_⟩
  rw [h.isLeader_iff hpos, List.mem_map]
  constructor
  · rintro ⟨⟨idx, k⟩, hmem, rfl⟩
    obtain ⟨hzip, hled⟩ := List.mem_filter.mp hmem
    have hget := List.mk_mem_zipIdx_iff_getElem?.mp hzip
    have hk : k < s.epochLength.toNat := by
      rw [← h.length_eq]
      exact (List.getElem?_eq_some_iff.mp hget).1
    have hto : (UInt64.ofNat k).toNat = k :=
      UInt64.toNat_ofNat_of_lt (hk.trans s.epochLength.toNat_lt)
    refine ⟨by rw [UInt64.lt_iff_toNat_lt, hto]; exact hk, idx, ?_, of_decide_eq_true hled⟩
    rw [hto, Nat.mod_eq_of_lt hk]
    exact hget
  · rintro ⟨hlt, idx, hget, hled⟩
    rw [Nat.mod_eq_of_lt (UInt64.lt_iff_toNat_lt.mp hlt)] at hget
    exact ⟨(idx, slot.toNat), List.mem_filter.mpr
      ⟨List.mk_mem_zipIdx_iff_getElem?.mpr hget, decide_eq_true hled⟩, UInt64.ofNat_toNat⟩

theorem Valid.nodup_slotsForLeader (h : s.Valid) {slots : List UInt64}
    (hslots : s.slotsForLeader validator = some slots) : slots.Nodup := by
  obtain rfl := Option.some.inj ((h.slotsForLeader_eq validator).symm.trans hslots)
  have hsnd : (s.schedule.zipIdx.map Prod.snd).Nodup := by
    rw [List.zipIdx_map_snd]
    exact List.nodup_range'
  change (List.map (UInt64.ofNat ∘ Prod.snd) _).Nodup
  rw [← List.map_map]
  refine List.Nodup.map_on ?_ (hsnd.sublist (List.filter_sublist.map _))
  intro i hi j hj hij
  have hlt {k : ℕ} (hk : k ∈ (s.schedule.zipIdx.filter
      fun p => s.ledBy validator p.1).map Prod.snd) : k < 2 ^ 64 := by
    obtain ⟨p, hp, rfl⟩ := List.mem_map.mp hk
    have := List.snd_lt_of_mem_zipIdx (List.mem_filter.mp hp).1
    rw [h.length_eq] at this
    exact this.trans s.epochLength.toNat_lt
  have := congrArg UInt64.toNat hij
  rwa [UInt64.toNat_ofNat', UInt64.toNat_ofNat', Nat.mod_eq_of_lt (hlt hi),
    Nat.mod_eq_of_lt (hlt hj)] at this

theorem length_filter_zipIdx {p : ℕ → Prop} [DecidablePred p] (l : List ℕ) (k : ℕ) :
    ((l.zipIdx k).filter fun q => p q.1).length = l.countP p := by
  induction l generalizing k with
  | nil => rfl
  | cons a rest ih =>
    rw [List.zipIdx_cons, List.filter_cons, List.countP_cons, ← ih (k + 1)]
    by_cases ha : p a <;> simp [ha]

theorem ledBy_iff_of_nodup (hids : (s.validators.map ValidatorStake.validator).Nodup) {i idx : ℕ}
    {v : ValidatorStake} (hv : s.validators[i]? = some v) :
    s.ledBy v.validator idx ↔ idx = i := by
  have hi : (s.validators.map ValidatorStake.validator)[i]? = some v.validator := by
    rw [List.getElem?_map, hv, Option.map_some]
  have hlt : i < (s.validators.map ValidatorStake.validator).length :=
    (List.getElem?_eq_some_iff.mp hi).1
  rw [ledBy, ← List.getElem?_map, ← hi, eq_comm, List.getElem?_inj hlt hids, eq_comm]

end Lookup

end LeaderSchedule

end TrustNode.Consensus
