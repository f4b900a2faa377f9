import TrustNode.Validator.Node

namespace TrustNode.Validator

open TrustNode.Blockstore
open TrustNode.Poh

section Clock

variable {C : Crypto} {S : Serde BlockRecord}

def ClockContinues (C : Crypto) (r r' : BlockRecord) : Prop :=
  r'.pohHash =
    PohHasher.hashChain C r.pohHash (hashesPerTick * (r'.slot.toNat - r.slot.toNat))

def Successful (C : Crypto) (S : Serde BlockRecord) (n : Node) : NodeEvent → Prop
  | .send _ _ => True
  | .tick => n.state.currentSlot.toNat + 1 < 2 ^ 64
  | .produce order now w => n.state.Acts → w = .ok ∧ Storable S (n.state.nextRecord C order now)
  | .restart _ => SlotsLeft (n.disk.records C S)
  | .crash _ _ _ _ _ => False

def Unbroken (C : Crypto) (n : Node) : NodeEvent → Prop
  | .produce _ _ _ =>
    n.state.Acts → n.state.ledger.records = [] ∨ n.state.lastProducedSlot ≠ none ∨
      PohHasher.hashChain C n.state.poh.currentHash hashesPerTick = n.state.poh.currentHash
  | _ => True

def skipped (s : ValidatorState) : ℕ := if s.lastProducedSlot = none then 1 else 0

structure OnClock (C : Crypto) (S : Serde BlockRecord) (n : Node) : Prop where
  tickHeight : n.state.tickHeight = 0
  holds : n.disk.Holds C S n.state.ledger.records
  elapsed : ∀ last ∈ n.state.ledger.records.getLast?,
    ∃ slots, n.state.currentSlot.toNat = last.slot.toNat + skipped n.state + slots ∧
      n.state.poh.currentHash = PohHasher.hashChain C last.pohHash (hashesPerTick * slots)

namespace OnClock

variable {n : Node}

theorem restart {d : Disk} {records : List BlockRecord} (genesis : List GenesisAccount)
    (hd : d.Recovers C S records) (hslots : SlotsLeft records) :
    OnClock C S (d.restart C S genesis) := by
  have hholds := hd.holds_restart genesis
  cases hlast : records.getLast? with
  | none =>
    obtain rfl := List.getLast?_eq_none_iff.mp hlast
    constructor
    all_goals rw [hd.state_restart, ValidatorState.new_of_nil]
    · exact hholds
    · exact fun _ hlast => by cases hlast
  | some last =>
    constructor
    all_goals rw [hd.state_restart, ValidatorState.new_of_last _ _ _ hlast]
    · exact hholds
    · intro last' hlast'
      obtain rfl : last = last' := Option.some.inj (hlast.symm.trans hlast')
      exact ⟨0, Word.toNat_add_one (hslots last hlast), rfl⟩

theorem tick (h : OnClock C S n) (hslot : n.state.currentSlot.toNat + 1 < 2 ^ 64) :
    OnClock C S (n.step C S .tick) := by
  have hnext := Word.toNat_add_one hslot
  have helapsed : ∀ last ∈ n.state.ledger.records.getLast?, ∃ slots,
      (n.state.currentSlot + 1).toNat = last.slot.toNat + skipped n.state + slots ∧
        (n.state.poh.hashN C hashesPerTick).currentHash =
          PohHasher.hashChain C last.pohHash (hashesPerTick * slots) := by
    intro last hlast
    obtain ⟨slots, hcurrent, hhash⟩ := h.elapsed last hlast
    refine ⟨slots + 1, by omega, ?_⟩
    rw [PohHasher.currentHash_hashN, hhash, ← PohHasher.hashChain_add, Nat.mul_succ]
  rw [Node.step, ValidatorState.processTick_eq C _ h.tickHeight]
  generalize n.state.poh.hashN C hashesPerTick = poh at helapsed ⊢
  exact ⟨rfl, h.holds, helapsed⟩

theorem produce (h : OnClock C S n) {order : ThreadOrder} {now : UInt64} (hacts : n.state.Acts)
    (hr : Storable S (n.state.nextRecord C order now)) :
    OnClock C S (n.produce C S order now .ok) := by
  have hholds := h.holds.snoc hr rfl (n.state.nextRecord_verifies C order now)
    (n.disk.accountsLog ++ (n.state.blockWrites C order).map .update)
  rw [Node.produce_of_acts hacts hr.isSome]
  refine ⟨h.tickHeight, hholds, fun last hlast => ⟨0, ?_⟩⟩
  obtain rfl : n.state.nextRecord C order now = last :=
    Option.some.inj (List.getLast?_concat.symm.trans hlast)
  exact ⟨rfl, rfl⟩

theorem step (h : OnClock C S n) {e : NodeEvent} (he : Successful C S n e) :
    OnClock C S (n.step C S e) := by
  cases e with
  | send now tx => exact ⟨h.tickHeight, h.holds, h.elapsed⟩
  | tick => exact h.tick he
  | produce order now w =>
    apply Node.produce_preserves h
    intro hacts
    obtain ⟨rfl, hr⟩ := he hacts
    exact h.produce hacts hr
  | restart genesis =>
    exact restart genesis h.holds.recovers (h.holds.recovers.records_eq ▸ he)
  | crash order now writes bytes genesis => exact he.elim

theorem continues_iff (h : OnClock C S n) (order : ThreadOrder) (now : UInt64)
    {last : BlockRecord} (hlast : n.state.ledger.records.getLast? = some last) :
    ClockContinues C last (n.state.nextRecord C order now) ↔
      n.state.lastProducedSlot ≠ none ∨
        PohHasher.hashChain C n.state.poh.currentHash hashesPerTick =
          n.state.poh.currentHash := by
  obtain ⟨slots, hcurrent, hhash⟩ := h.elapsed last hlast
  have hgap : n.state.currentSlot.toNat - last.slot.toNat = skipped n.state + slots := by omega
  change n.state.poh.currentHash = PohHasher.hashChain C last.pohHash
    (hashesPerTick * (n.state.currentSlot.toNat - last.slot.toNat)) ↔ _
  rw [hgap, skipped]
  split_ifs with hnone
  · rw [Nat.add_comm, Nat.mul_succ, PohHasher.hashChain_add, ← hhash]
    simp only [hnone, ne_eq, not_true_eq_false, false_or]
    exact eq_comm
  · rw [Nat.zero_add, hhash]
    simp [hnone]

theorem unbroken_iff (h : OnClock C S n) (hacts : n.state.Acts) (order : ThreadOrder)
    (now : UInt64) (w : WriteResult) :
    (∀ last ∈ n.state.ledger.records.getLast?,
        ClockContinues C last (n.state.nextRecord C order now)) ↔
      Unbroken C n (.produce order now w) := by
  rw [Unbroken, forall_prop_of_true hacts]
  cases hlast : n.state.ledger.records.getLast? with
  | none =>
    rw [List.getLast?_eq_none_iff] at hlast
    simp [hlast]
  | some last =>
    have hne : n.state.ledger.records ≠ [] := by
      intro hnil
      rw [hnil] at hlast
      cases hlast
    simp only [Option.mem_some_iff, forall_eq', hne, false_or]
    exact h.continues_iff order now hlast

theorem chain_step (h : OnClock C S n) {e : NodeEvent} (he : Successful C S n e) :
    (n.step C S e).state.ledger.records.IsChain (ClockContinues C) ↔
      n.state.ledger.records.IsChain (ClockContinues C) ∧ Unbroken C n e := by
  cases e with
  | send now tx => exact (and_iff_left trivial).symm
  | tick =>
    obtain ⟨poh, tickHeight, currentSlot, htick⟩ := n.state.processTick_keeps C
    rw [Node.step, htick]
    exact (and_iff_left trivial).symm
  | produce order now w =>
    by_cases hacts : n.state.Acts
    · obtain ⟨rfl, hr⟩ := he hacts
      rw [Node.step, Node.records_produce hacts hr.isSome, List.isChain_append,
        ← h.unbroken_iff hacts]
      simp
    · rw [Node.step, Node.produce_of_not_acts hacts]
      exact (and_iff_left fun h => absurd h hacts).symm
  | restart genesis =>
    rw [Node.step, h.holds.recovers.records_restart]
    exact (and_iff_left trivial).symm
  | crash order now writes bytes genesis => exact he.elim

theorem boot (C : Crypto) (S : Serde BlockRecord) (genesis : List GenesisAccount) :
    OnClock C S (Node.boot C S genesis) :=
  restart genesis Disk.recovers_empty fun _ hlast => by cases hlast

end OnClock

theorem clock_continuous_iff (genesis : List GenesisAccount) (events : List NodeEvent)
    (hrun : Along (Node.step C S) (Successful C S) (Node.boot C S genesis) events) :
    ((Node.boot C S genesis).run C S events).state.ledger.records.IsChain (ClockContinues C) ↔
      Along (Node.step C S) (Unbroken C) (Node.boot C S genesis) events := by
  rw [Node.run, hrun.iff_of_step (Q := fun n => n.state.ledger.records.IsChain (ClockContinues C))
    (fun h he => h.step he) (fun h he => h.chain_step he) (OnClock.boot C S genesis)]
  exact and_iff_right .nil

end Clock

def tickedBlocks : List NodeEvent :=
  [.produce .spawnOrder 0 .ok, .tick, .produce .spawnOrder 0 .ok]

theorem ticked_blocks_keep_the_clock :
    ((Node.boot .successor BlockRecord.codec.serde []).run .successor BlockRecord.codec.serde
      tickedBlocks).state.ledger.records.IsChain (ClockContinues .successor) := by
  refine (clock_continuous_iff [] tickedBlocks ⟨fun _ => ⟨rfl, storable_emptyRecord rfl⟩, ?_,
    fun _ => ⟨rfl, storable_emptyRecord (by decide +kernel)⟩, trivial⟩).mpr
    ⟨fun _ => .inl rfl, trivial, fun _ => .inr (.inl (by decide +kernel)), trivial⟩
  rw [Successful]
  decide +kernel

theorem hashChain_successor (b : UInt8) (steps : ℕ) :
    PohHasher.hashChain .successor (Bytes32.splat b) steps =
      Bytes32.splat (b + UInt8.ofNat steps) := by
  induction steps generalizing b with
  | zero => simp [PohHasher.hashChain, PohHasher.hashN, PohHasher.new]
  | succ steps ih =>
    rw [PohHasher.hashChain_succ, PohHasher.currentHash_hashN]
    change PohHasher.hashChain .successor (Bytes32.splat (b + 1)) steps = _
    rw [ih, UInt8.ofNat_add, UInt8.add_assoc, UInt8.add_comm 1]
    rfl

def restartedClock : Node :=
  (Node.boot .successor BlockRecord.codec.serde []).run .successor BlockRecord.codec.serde
    [.produce .spawnOrder 0 .ok, .restart []]

theorem onClock_restartedClock : OnClock .successor BlockRecord.codec.serde restartedClock := by
  have hblock : OnClock .successor BlockRecord.codec.serde _ :=
    (OnClock.boot .successor BlockRecord.codec.serde []).step
      (e := .produce .spawnOrder 0 .ok) fun _ => ⟨rfl, storable_emptyRecord rfl⟩
  refine hblock.step (e := .restart []) ?_
  rw [Successful]
  decide +kernel

theorem restart_skips_a_slot_of_hashes :
    ¬(restartedClock.step .successor BlockRecord.codec.serde
      (.produce .spawnOrder 0 .ok)).state.ledger.records.IsChain (ClockContinues .successor) := by
  have hrestarted : restartedClock.state.Acts ∧ restartedClock.state.ledger.records ≠ [] ∧
      restartedClock.state.lastProducedSlot = none ∧
      restartedClock.state.poh.currentHash = Bytes32.splat 104 := by decide +kernel
  obtain ⟨hacts, hrecords, hnone, hhash⟩ := hrestarted
  intro hchain
  have hsuccess : Successful .successor BlockRecord.codec.serde restartedClock
      (.produce .spawnOrder 0 .ok) :=
    fun _ => ⟨rfl, storable_emptyRecord (by decide +kernel)⟩
  have hunbroken := ((onClock_restartedClock.chain_step hsuccess).mp hchain).2
  rw [Unbroken, hhash, hashChain_successor] at hunbroken
  obtain hnil | hsome | hcycle := hunbroken hacts
  · exact hrecords hnil
  · exact hsome hnone
  · revert hcycle
    decide

end TrustNode.Validator
