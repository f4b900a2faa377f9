import TrustNode.Consensus.LeaderShare
import TrustNode.Validator.Numbering

namespace TrustNode.Validator

open TrustNode.Blockstore
open TrustNode.Consensus

section Records

variable {C : Crypto} {S : Serde BlockRecord} {n : Node}

theorem InOrder.recovers_crash_append (h : InOrder C S n) {order : ThreadOrder} {now : UInt64}
    (hbefore : n.state.Acts → TailRecorded n.state ∧ Storable S (n.state.nextRecord C order now))
    (writes bytes : ℕ) :
    ∃ tail, (n.crash C S order now writes bytes).Recovers C S (n.state.ledger.records ++ tail) := by
  obtain ⟨tail, hrecovers, -⟩ := h.recovers
  apply Node.crash_preserves
    (P := fun d => ∃ tail, d.Recovers C S (n.state.ledger.records ++ tail)) ⟨tail, hrecovers⟩
  intro hacts
  obtain ⟨htail, hr⟩ := hbefore hacts
  obtain ⟨cut, -, hcrash⟩ := Node.crash_of_acts hacts hr.isSome writes bytes
  obtain ⟨tail, hcut, -⟩ := h.recovers_cut hacts htail hr
    (n.disk.accountsLog ++ ((n.state.blockWrites C order).take writes).map .update) cut
  rw [hcrash]
  exact ⟨tail, hcut⟩

theorem InOrder.records_step (h : InOrder C S n) {e : NodeEvent} (he : Orderly C S n e) :
    ∃ tail, (n.step C S e).state.ledger.records = n.state.ledger.records ++ tail := by
  cases e with
  | send now tx => exact ⟨[], (List.append_nil _).symm⟩
  | tick =>
    obtain ⟨poh, tickHeight, currentSlot, htick⟩ := n.state.processTick_keeps C
    refine ⟨[], ?_⟩
    rw [Node.step, htick, List.append_nil]
  | produce order now w =>
    apply Node.produce_preserves
      (P := fun n' => ∃ tail, n'.state.ledger.records = n.state.ledger.records ++ tail)
      ⟨[], (List.append_nil _).symm⟩
    intro hacts
    refine ⟨appendedBy w (n.state.nextRecord C order now), ?_⟩
    rw [Node.produce_of_acts hacts (he hacts).2.isSome]
    rfl
  | restart genesis =>
    obtain ⟨tail, hrecovers, -⟩ := h.recovers
    exact ⟨tail, hrecovers.records_restart genesis⟩
  | crash order now writes bytes genesis =>
    obtain ⟨tail, hrecovers⟩ := h.recovers_crash_append he.1 writes bytes
    exact ⟨tail, hrecovers.records_restart genesis⟩

end Records

section Schedule

def slotsPerLeader : UInt64 := 4

def epochLength : UInt64 := 432000

def selfStake (identity : ValidatorId) : ValidatorStake where
  validator := identity
  lamports := 10000000
  name := "self"

def leaderSchedule (identity : ValidatorId) (validators : List ValidatorStake) :
    Option LeaderSchedule :=
  LeaderSchedule.new (if validators = [] then [selfStake identity] else validators)
    slotsPerLeader epochLength

theorem leaderSchedule_nil (identity : ValidatorId) :
    leaderSchedule identity [] =
      some (LeaderSchedule.unscheduled [selfStake identity] slotsPerLeader epochLength
        0).computeSchedule := rfl

theorem leads_every_slot_alone (identity : ValidatorId) :
    ∃ schedule, leaderSchedule identity [] = some schedule ∧
      ∀ slot, schedule.isLeader identity slot = some true := by
  have hfit : LeaderSchedule.stakeSum [selfStake identity] < 2 ^ 64 := by
    change 10000000 + 0 < 2 ^ 64
    decide
  have hvalid := LeaderSchedule.valid_unscheduled slotsPerLeader (List.cons_ne_nil _ _) hfit
    (by decide : epochLength.toNat < 2 ^ 49) 0
  refine ⟨_, leaderSchedule_nil identity, fun slot => ?_⟩
  obtain ⟨idx, leader, -, hleader, hslot⟩ := hvalid.leaderForSlot_eq slot (by decide : 0 < epochLength.toNat)
  have hself : leader = selfStake identity :=
    List.mem_singleton.mp (List.mem_of_getElem? hleader)
  rw [LeaderSchedule.isLeader, hslot, hself, Option.map_some]
  simp [selfStake]

end Schedule

structure Sent where
  decided : UInt64
  slot : UInt64
  block : Bytes

structure Miner where
  identity : ValidatorId
  schedule : LeaderSchedule
  node : Node
  elected : Option UInt64
  sent : List Sent

inductive MinerEvent where
  | check
  | node (e : NodeEvent)

def Node.produced (C : Crypto) (S : Serde BlockRecord) (order : ThreadOrder) (now : UInt64)
    (w : WriteResult) (n : Node) : Option (UInt64 × Bytes) :=
  if n.state.Acts then
    ((n.state.blockCall C order now).run C S w ⟨n.disk.ledgerFile, n.state.ledger⟩).1.toOption.bind
      fun record => (S.toVec record).map fun block => (record.slot, block)
  else none

theorem Node.produced_eq_some {C : Crypto} {S : Serde BlockRecord} {order : ThreadOrder}
    {now : UInt64} {w : WriteResult} {n : Node}
    (hr : n.state.Acts → Storable S (n.state.nextRecord C order now)) {p : UInt64 × Bytes}
    (h : n.produced C S order now w = some p) :
    n.state.Acts ∧ w = .ok ∧ p.1 = n.state.currentSlot ∧
      S.toVec (n.state.nextRecord C order now) = some p.2 := by
  unfold Node.produced at h
  split_ifs at h with hacts
  rw [ValidatorState.blockCall, run_append rfl (hr hacts).isSome] at h
  cases w with
  | ok =>
    obtain ⟨block, hblock, rfl⟩ := Option.map_eq_some_iff.mp h
    exact ⟨hacts, rfl, rfl, hblock⟩
  | failed written => cases h

namespace Miner

variable (C : Crypto) (S : Serde BlockRecord)

def isLeader (m : Miner) : Bool :=
  m.schedule.isLeader m.identity m.node.state.currentSlot = some true

def check (m : Miner) : Miner :=
  match m.elected with
  | some _ => m
  | none => { m with elected := if m.isLeader then some m.node.state.currentSlot else none }

def produce (order : ThreadOrder) (now : UInt64) (w : WriteResult) (m : Miner) : Miner :=
  match m.elected with
  | none => m
  | some decided =>
    { m with
      node := m.node.produce C S order now w
      elected := none
      sent := m.sent ++ (m.node.produced C S order now w).toList.map fun p => ⟨decided, p.1, p.2⟩ }

def step (m : Miner) : MinerEvent → Miner
  | .check => m.check
  | .node (.produce order now w) => m.produce C S order now w
  | .node (.send now tx) => { m with node := m.node.step C S (.send now tx) }
  | .node .tick => { m with node := m.node.step C S .tick }
  | .node (.restart genesis) =>
    { m with node := m.node.step C S (.restart genesis), elected := none }
  | .node (.crash order now writes bytes genesis) =>
    { m with node := m.node.step C S (.crash order now writes bytes genesis), elected := none }

def boot (schedule : LeaderSchedule) (identity : ValidatorId) (genesis : List GenesisAccount) :
    Miner where
  identity := identity
  schedule := schedule
  node := .boot C S genesis
  elected := none
  sent := []

theorem schedule_step (m : Miner) (e : MinerEvent) : (m.step C S e).schedule = m.schedule := by
  unfold step check produce
  split
  · split <;> rfl
  · split <;> rfl
  all_goals rfl

theorem identity_step (m : Miner) (e : MinerEvent) : (m.step C S e).identity = m.identity := by
  unfold step check produce
  split
  · split <;> rfl
  · split <;> rfl
  all_goals rfl

def Orderly (m : Miner) : MinerEvent → Prop
  | .check => True
  | .node e => Validator.Orderly C S m.node e

structure Mined (m : Miner) : Prop where
  inOrder : InOrder C S m.node
  elected : ∀ d ∈ m.elected, m.schedule.isLeader m.identity d = some true ∧
    d.toNat ≤ m.node.state.currentSlot.toNat
  led : ∀ b ∈ m.sent, m.schedule.isLeader m.identity b.decided = some true ∧
    b.decided.toNat ≤ b.slot.toNat
  recorded : ∀ b ∈ m.sent, ∃ r ∈ m.node.state.ledger.records,
    r.slot = b.slot ∧ S.toVec r = some b.block
  ordered : m.sent.Pairwise fun b c => b.slot < c.slot

variable {C S}

namespace Mined

variable {m : Miner}

theorem check (h : Mined C S m) : Mined C S m.check := by
  unfold Miner.check
  split
  next => exact h
  next =>
    refine ⟨h.inOrder, fun d hd => ?_, h.led, h.recorded, h.ordered⟩
    split_ifs at hd with hleader
    · obtain rfl := Option.some.inj hd
      exact ⟨of_decide_eq_true hleader, le_rfl⟩
    · cases hd

theorem recorded_step (h : Mined C S m) {e : NodeEvent} (he : Validator.Orderly C S m.node e) :
    ∀ b ∈ m.sent, ∃ r ∈ (m.node.step C S e).state.ledger.records,
      r.slot = b.slot ∧ S.toVec r = some b.block := by
  obtain ⟨tail, hrecords⟩ := h.inOrder.records_step he
  intro b hb
  obtain ⟨r, hr, hslot, hblock⟩ := h.recorded b hb
  exact ⟨r, hrecords ▸ List.mem_append_left tail hr, hslot, hblock⟩

theorem produce (h : Mined C S m) {order : ThreadOrder} {now : UInt64} {w : WriteResult}
    (he : Validator.Orderly C S m.node (.produce order now w)) :
    Mined C S (m.produce C S order now w) := by
  unfold Miner.produce
  split
  next => exact h
  next decided hdecided =>
    obtain ⟨hleader, hle⟩ := h.elected decided hdecided
    have hkept := h.recorded_step he
    cases hproduced : m.node.produced C S order now w with
    | none =>
      rw [Option.toList_none, List.map_nil, List.append_nil]
      exact ⟨h.inOrder.step he, (fun d hd => by cases hd), h.led, hkept, h.ordered⟩
    | some p =>
      obtain ⟨hacts, rfl, hslot, hblock⟩ :=
        Node.produced_eq_some (fun hacts => (he hacts).2) hproduced
      rw [Option.toList_some, List.map_singleton]
      refine ⟨h.inOrder.step he, (fun d hd => by cases hd), ?_, ?_, ?_⟩
      · rw [List.forall_mem_append, List.forall_mem_singleton]
        exact ⟨h.led, hleader, hslot ▸ hle⟩
      · rw [List.forall_mem_append, List.forall_mem_singleton]
        refine ⟨hkept, m.node.state.nextRecord C order now, ?_, hslot.symm, hblock⟩
        rw [Node.records_produce hacts (he hacts).2.isSome]
        exact List.mem_append_right _ (List.mem_singleton_self _)
      · rw [List.pairwise_append]
        refine ⟨h.ordered, List.pairwise_singleton _ _, fun b hb c hc => ?_⟩
        obtain ⟨r, hr, hrslot, -⟩ := h.recorded b hb
        rw [List.mem_singleton.mp hc, ← hrslot, UInt64.lt_iff_toNat_lt]
        exact hslot ▸ h.inOrder.fresh hacts r hr

theorem step (h : Mined C S m) {e : MinerEvent} (he : m.Orderly C S e) :
    Mined C S (m.step C S e) := by
  cases e with
  | check => exact h.check
  | node e =>
    change Validator.Orderly C S m.node e at he
    cases e with
    | produce order now w => exact h.produce he
    | send now tx =>
      exact ⟨h.inOrder.step he, h.elected, h.led, h.recorded_step he, h.ordered⟩
    | tick =>
      refine ⟨h.inOrder.step he, fun d hd => ?_, h.led, h.recorded_step he, h.ordered⟩
      obtain ⟨hleader, hle⟩ := h.elected d hd
      refine ⟨hleader, ?_⟩
      have hslot : m.node.state.currentSlot.toNat + 1 < 2 ^ 64 := he
      change d.toNat ≤ (m.node.state.processTick C).currentSlot.toNat
      rw [ValidatorState.processTick_eq C _ h.inOrder.tickHeight, Word.toNat_add_one hslot]
      omega
    | restart genesis =>
      exact ⟨h.inOrder.step he, (fun d hd => by cases hd), h.led, h.recorded_step he, h.ordered⟩
    | crash order now writes bytes genesis =>
      exact ⟨h.inOrder.step he, (fun d hd => by cases hd), h.led, h.recorded_step he, h.ordered⟩

theorem sent_inj (h : Mined C S m) {b b' : Sent} (hb : b ∈ m.sent) (hb' : b' ∈ m.sent)
    (hslot : b.slot = b'.slot) : b = b' := by
  have hnodup : (m.sent.map Sent.slot).Nodup :=
    List.pairwise_map.mpr (h.ordered.imp UInt64.ne_of_lt)
  exact List.inj_on_of_nodup_map hnodup hb hb' hslot

theorem boot (C : Crypto) (S : Serde BlockRecord) (schedule : LeaderSchedule)
    (identity : ValidatorId) (genesis : List GenesisAccount) :
    Mined C S (Miner.boot C S schedule identity genesis) where
  inOrder := .boot C S genesis
  elected := fun d hd => by cases hd
  led := fun b hb => by cases hb
  recorded := fun b hb => by cases hb
  ordered := .nil

end Mined

end Miner

abbrev Cluster (ι : Type) := ι → Miner

namespace Cluster

variable {ι : Type} [DecidableEq ι] (C : Crypto) (S : Serde BlockRecord)

def boot (schedule : LeaderSchedule) (identities : ι → ValidatorId)
    (genesis : List GenesisAccount) : Cluster ι :=
  fun i => .boot C S schedule (identities i) genesis

def step (c : Cluster ι) (p : ι × MinerEvent) : Cluster ι :=
  Function.update c p.1 ((c p.1).step C S p.2)

def run (c : Cluster ι) (events : List (ι × MinerEvent)) : Cluster ι := events.foldl (step C S) c

def Orderly (c : Cluster ι) (p : ι × MinerEvent) : Prop := (c p.1).Orderly C S p.2

structure Mines (schedule : LeaderSchedule) (identities : ι → ValidatorId) (c : Cluster ι) :
    Prop where
  mined : ∀ i, (c i).Mined C S
  schedule_eq : ∀ i, (c i).schedule = schedule
  identity_eq : ∀ i, (c i).identity = identities i

variable {C S} {schedule : LeaderSchedule} {identities : ι → ValidatorId} {c : Cluster ι}

theorem Mines.step (h : Mines C S schedule identities c) {p : ι × MinerEvent}
    (hp : Orderly C S c p) : Mines C S schedule identities (Cluster.step C S c p) := by
  obtain ⟨i, e⟩ := p
  have hself : ∀ j, Cluster.step C S c (i, e) j = if j = i then (c i).step C S e else c j :=
    Function.update_apply c i ((c i).step C S e)
  constructor
  all_goals
    intro j
    rw [hself]
    split_ifs with hj
  · exact (h.mined i).step hp
  · exact h.mined j
  · rw [Miner.schedule_step, h.schedule_eq]
  · exact h.schedule_eq j
  · rw [Miner.identity_step, h.identity_eq, hj]
  · exact h.identity_eq j

theorem mines_run (schedule : LeaderSchedule) (identities : ι → ValidatorId)
    (genesis : List GenesisAccount) {events : List (ι × MinerEvent)}
    (hrun : Along (step C S) (Orderly C S) (boot C S schedule identities genesis) events) :
    Mines C S schedule identities (run C S (boot C S schedule identities genesis) events) :=
  hrun.invariant (fun h hp => h.step hp)
    ⟨fun i => .boot C S schedule (identities i) genesis, fun _ => rfl, fun _ => rfl⟩

theorem same_slot_only_by_race (hids : Function.Injective identities)
    (genesis : List GenesisAccount) (events : List (ι × MinerEvent))
    (hrun : Along (step C S) (Orderly C S) (boot C S schedule identities genesis) events)
    {i j : ι} {b b' : Sent}
    (hb : b ∈ (run C S (boot C S schedule identities genesis) events i).sent)
    (hb' : b' ∈ (run C S (boot C S schedule identities genesis) events j).sent)
    (hslot : b.slot = b'.slot) :
    schedule.isLeader (identities i) b.decided = some true ∧ b.decided.toNat ≤ b.slot.toNat ∧
      (i = j ∧ b = b' ∨ b.decided.toNat < b.slot.toNat ∨ b'.decided.toNat < b'.slot.toNat) := by
  have hmines := mines_run schedule identities genesis hrun
  have hled {k : ι} {x : Sent}
      (hx : x ∈ (run C S (boot C S schedule identities genesis) events k).sent) :
      schedule.isLeader (identities k) x.decided = some true ∧ x.decided.toNat ≤ x.slot.toNat := by
    rw [← hmines.schedule_eq k, ← hmines.identity_eq k]
    exact (hmines.mined k).led x hx
  obtain ⟨hleader, hle⟩ := hled hb
  obtain ⟨hleader', hle'⟩ := hled hb'
  refine ⟨hleader, hle, ?_⟩
  by_cases hraced : b.decided.toNat < b.slot.toNat ∨ b'.decided.toNat < b'.slot.toNat
  · exact .inr hraced
  · refine .inl ?_
    obtain ⟨hnow, hnow'⟩ := not_or.mp hraced
    have hdecided : b.decided = b'.decided := by
      apply UInt64.toNat_inj.mp
      rw [← UInt64.toNat_inj] at hslot
      omega
    rw [← hdecided] at hleader'
    obtain rfl := hids (schedule.leader_unique hleader hleader')
    exact ⟨rfl, (hmines.mined i).sent_inj hb hb' hslot⟩

def alternating : LeaderSchedule where
  validators := [⟨.splat 1, 1, "first"⟩, ⟨.splat 2, 1, "second"⟩]
  slotsPerLeader := 4
  epochLength := 2
  currentEpoch := 0
  schedule := [0, 1]

def pair (i : Bool) : ValidatorId := if i then .splat 2 else .splat 1

def lateProduction : List (Bool × MinerEvent) :=
  [(false, .check), (false, .node .tick), (false, .node (.produce .spawnOrder 0 .ok)),
    (true, .node .tick), (true, .check), (true, .node (.produce .spawnOrder 0 .ok))]

def late : Cluster Bool :=
  run .successor BlockRecord.codec.serde
    (boot .successor BlockRecord.codec.serde alternating pair []) lateProduction

theorem late_production_shares_a_slot :
    ∃ b ∈ (late false).sent, ∃ b' ∈ (late true).sent, b.slot = b'.slot ∧
      alternating.isLeader (pair false) b.decided = some true ∧ b.decided.toNat ≤ b.slot.toNat ∧
      (false = true ∧ b = b' ∨ b.decided.toNat < b.slot.toNat ∨
        b'.decided.toNat < b'.slot.toNat) := by
  have hsent (i : Bool) : 1 ∈ (late i).sent.map Sent.slot := by
    cases i <;> decide +kernel
  obtain ⟨b, hb, hslot⟩ := List.mem_map.mp (hsent false)
  obtain ⟨b', hb', hslot'⟩ := List.mem_map.mp (hsent true)
  refine ⟨b, hb, b', hb', hslot.trans hslot'.symm,
    same_slot_only_by_race (by decide) [] lateProduction
      ⟨trivial, ?_, fun _ => ⟨by decide +kernel, storable_emptyRecord (by decide +kernel)⟩,
        ?_, trivial, fun _ => ⟨by decide +kernel, storable_emptyRecord (by decide +kernel)⟩,
        trivial⟩ hb hb' (hslot.trans hslot'.symm)⟩
  all_goals
    change _ < _
    decide +kernel

end Cluster

end TrustNode.Validator
