import TrustNode.Validator.Node

namespace TrustNode.Validator

open TrustNode.Blockstore

section Numbering

variable {C : Crypto} {S : Serde BlockRecord}

structure Numbered (records : List BlockRecord) : Prop where
  heights : ∀ i r, records[i]? = some r → r.height = UInt64.ofNat i
  slots : records.Pairwise fun r r' => r.slot < r'.slot

theorem numbered_nil : Numbered [] where
  heights := fun i r h => by cases h
  slots := .nil

theorem Numbered.snoc {records : List BlockRecord} {r : BlockRecord} (h : Numbered records)
    (hheight : r.height = UInt64.ofNat records.length) (hslot : ∀ q ∈ records, q.slot < r.slot) :
    Numbered (records ++ [r]) where
  heights := by
    intro i q hq
    obtain hlt | hle := lt_or_ge i records.length
    · rw [List.getElem?_append_left hlt] at hq
      exact h.heights i q hq
    · rw [List.getElem?_append_right hle, List.getElem?_singleton] at hq
      split_ifs at hq with hi
      obtain rfl := Option.some.inj hq
      rw [hheight]
      congr 1
      omega
  slots := by
    rw [List.pairwise_append]
    refine ⟨h.slots, List.pairwise_singleton _ _, fun q hq r' hr' => ?_⟩
    rw [List.mem_singleton.mp hr']
    exact hslot q hq

theorem Numbered.height_last {records : List BlockRecord} (h : Numbered records)
    {last : BlockRecord} (hlast : records.getLast? = some last) :
    last.height + 1 = UInt64.ofNat records.length := by
  obtain ⟨rs, rfl⟩ := List.getLast?_eq_some_iff.mp hlast
  have hheight := h.heights rs.length last (by simp)
  rw [hheight, List.length_append, List.length_singleton, UInt64.ofNat_add]
  rfl

theorem Numbered.slot_le_last {records : List BlockRecord} (h : Numbered records)
    {last : BlockRecord} (hlast : records.getLast? = some last) {r : BlockRecord}
    (hr : r ∈ records) : r.slot.toNat ≤ last.slot.toNat := by
  obtain ⟨rs, rfl⟩ := List.getLast?_eq_some_iff.mp hlast
  rcases List.mem_append.mp hr with hr | hr
  · exact ((List.pairwise_append.mp h.slots).2.2 r hr last (List.mem_singleton_self last)).le
  · rw [List.mem_singleton.mp hr]

def TailRecorded (s : ValidatorState) : Prop :=
  s.lastProducedSlot = none ∨ s.lastProducedSlot = s.ledger.records.getLast?.map BlockRecord.slot

instance (s : ValidatorState) : Decidable (TailRecorded s) :=
  inferInstanceAs (Decidable (_ ∨ _))

def Orderly (C : Crypto) (S : Serde BlockRecord) (n : Node) : NodeEvent → Prop
  | .send _ _ => True
  | .tick => n.state.currentSlot.toNat + 1 < 2 ^ 64
  | .produce order now _ =>
    n.state.Acts → TailRecorded n.state ∧ Storable S (n.state.nextRecord C order now)
  | .restart _ => SlotsLeft (n.disk.records C S)
  | .crash order now writes bytes _ =>
    (n.state.Acts → TailRecorded n.state ∧ Storable S (n.state.nextRecord C order now)) ∧
    SlotsLeft ((n.crash C S order now writes bytes).records C S)

structure InOrder (C : Crypto) (S : Serde BlockRecord) (n : Node) : Prop where
  tickHeight : n.state.tickHeight = 0
  numbered : Numbered n.state.ledger.records
  height : TailRecorded n.state → n.state.blockHeight = UInt64.ofNat n.state.ledger.records.length
  holds : TailRecorded n.state → n.disk.Holds C S n.state.ledger.records
  recovers : ∃ tail, n.disk.Recovers C S (n.state.ledger.records ++ tail) ∧
    Numbered (n.state.ledger.records ++ tail)
  past : ∀ r ∈ n.state.ledger.records, r.slot.toNat ≤ n.state.currentSlot.toNat
  fresh : n.state.Acts → ∀ r ∈ n.state.ledger.records, r.slot.toNat < n.state.currentSlot.toNat

namespace InOrder

variable {n : Node}

theorem restart {d : Disk} {records : List BlockRecord} (genesis : List GenesisAccount)
    (hd : d.Recovers C S records) (hnumbered : Numbered records) (hslots : SlotsLeft records) :
    InOrder C S (d.restart C S genesis) := by
  have hholds := hd.holds_restart genesis
  have hrecovers : ∃ tail, (d.restart C S genesis).disk.Recovers C S (records ++ tail) ∧
      Numbered (records ++ tail) :=
    ⟨[], by rw [List.append_nil]; exact ⟨hholds.recovers, hnumbered⟩⟩
  cases hlast : records.getLast? with
  | none =>
    obtain rfl := List.getLast?_eq_none_iff.mp hlast
    constructor
    all_goals rw [hd.state_restart, ValidatorState.new_of_nil]
    · exact hnumbered
    · exact fun _ => rfl
    · exact fun _ => hholds
    · exact hrecovers
    · exact fun r hr => by cases hr
    · exact fun _ r hr => by cases hr
  | some last =>
    have hslot := Word.toNat_add_one (hslots last hlast)
    have hbelow : ∀ r ∈ records, r.slot.toNat < (last.slot + 1).toNat := by
      intro r hr
      have hle := hnumbered.slot_le_last hlast hr
      omega
    constructor
    all_goals rw [hd.state_restart, ValidatorState.new_of_last _ _ _ hlast]
    · exact hnumbered
    · exact fun _ => hnumbered.height_last hlast
    · exact fun _ => hholds
    · exact hrecovers
    · exact fun r hr => (hbelow r hr).le
    · exact fun _ => hbelow

theorem numbered_snoc (h : InOrder C S n) (hacts : n.state.Acts) (htail : TailRecorded n.state)
    (order : ThreadOrder) (now : UInt64) :
    Numbered (n.state.ledger.records ++ [n.state.nextRecord C order now]) := by
  apply h.numbered.snoc
  · exact h.height htail
  · intro r hr
    exact UInt64.lt_iff_toNat_lt.mpr (h.fresh hacts r hr)

theorem recovers_cut (h : InOrder C S n) {order : ThreadOrder} {now : UInt64}
    (hacts : n.state.Acts) (htail : TailRecorded n.state)
    (hr : Storable S (n.state.nextRecord C order now)) (log : List Accounts.Op) (cut : ℕ) :
    ∃ tail, Disk.Recovers C S ⟨n.disk.ledgerFile ++
        (frame C (S.encoded (n.state.nextRecord C order now))).take cut, log⟩
          (n.state.ledger.records ++ tail) ∧
      Numbered (n.state.ledger.records ++ tail) := by
  obtain ⟨tail, hkept, hrecovers⟩ := (h.holds htail).recovers_cut hr rfl
    (n.state.nextRecord_verifies C order now) log cut
  refine ⟨tail, hrecovers, ?_⟩
  obtain rfl | ⟨rfl, -⟩ := hkept
  · rw [List.append_nil]
    exact h.numbered
  · exact h.numbered_snoc hacts htail order now

theorem append (h : InOrder C S n) {order : ThreadOrder} {now : UInt64} (hacts : n.state.Acts)
    (htail : TailRecorded n.state) (hr : Storable S (n.state.nextRecord C order now)) :
    InOrder C S (n.produce C S order now .ok) := by
  have hnumbered := h.numbered_snoc hacts htail order now
  have hholds := (h.holds htail).snoc hr rfl (n.state.nextRecord_verifies C order now)
    (n.disk.accountsLog ++ (n.state.blockWrites C order).map .update)
  have hpast : ∀ r ∈ n.state.ledger.records ++ [n.state.nextRecord C order now],
      r.slot.toNat ≤ n.state.currentSlot.toNat := by
    rw [List.forall_mem_append, List.forall_mem_singleton]
    exact ⟨h.past, le_rfl⟩
  rw [Node.produce_of_acts hacts hr.isSome]
  refine ⟨h.tickHeight, hnumbered, fun _ => ?_, fun _ => hholds, ⟨[], ?_⟩, hpast, fun hagain => ?_⟩
  · exact hnumbered.height_last List.getLast?_concat
  · rw [List.append_nil]
    exact ⟨hholds.recovers, hnumbered⟩
  · exact absurd rfl hagain

theorem lost (h : InOrder C S n) (hacts : n.state.Acts) :
    some n.state.currentSlot ≠ n.state.ledger.records.getLast?.map BlockRecord.slot := by
  intro hslot
  obtain ⟨last, hlast, hcurrent⟩ := Option.map_eq_some_iff.mp hslot.symm
  have hlt := h.fresh hacts last (List.mem_of_getLast? hlast)
  rw [hcurrent] at hlt
  exact lt_irrefl _ hlt

theorem fail (h : InOrder C S n) {order : ThreadOrder} {now : UInt64} (hacts : n.state.Acts)
    (htail : TailRecorded n.state) (hr : Storable S (n.state.nextRecord C order now))
    (written : ℕ) : InOrder C S (n.produce C S order now (.failed written)) := by
  have hlost : ¬(some n.state.currentSlot = none ∨
      some n.state.currentSlot = n.state.ledger.records.getLast?.map BlockRecord.slot) := by
    rintro (hnone | hslot)
    · cases hnone
    · exact h.lost hacts hslot
  have hrecovers := h.recovers_cut hacts htail hr
    (n.disk.accountsLog ++ (n.state.blockWrites C order).map .update) written
  rw [Node.produce_of_acts hacts hr.isSome, appendedBy, ValidatorState.afterBlock, List.append_nil]
  exact ⟨h.tickHeight, h.numbered, fun ht => absurd ht hlost, fun ht => absurd ht hlost, hrecovers,
    h.past, fun hagain => absurd rfl hagain⟩

theorem tick (h : InOrder C S n) (hslot : n.state.currentSlot.toNat + 1 < 2 ^ 64) :
    InOrder C S (n.step C S .tick) := by
  have hnext := Word.toNat_add_one hslot
  have hbelow : ∀ r ∈ n.state.ledger.records, r.slot.toNat < (n.state.currentSlot + 1).toNat := by
    intro r hr
    have hle := h.past r hr
    omega
  rw [Node.step, ValidatorState.processTick_eq C _ h.tickHeight]
  generalize (n.state.poh.hashN C hashesPerTick).newSlot (n.state.currentSlot + 1) = poh
  exact ⟨rfl, h.numbered, h.height, h.holds, h.recovers, fun r hr => (hbelow r hr).le,
    fun _ => hbelow⟩

theorem recovers_crash (h : InOrder C S n) {order : ThreadOrder} {now : UInt64}
    (hbefore : n.state.Acts → TailRecorded n.state ∧ Storable S (n.state.nextRecord C order now))
    (writes bytes : ℕ) :
    ∃ records, (n.crash C S order now writes bytes).Recovers C S records ∧ Numbered records := by
  obtain ⟨tail, hrecovers, hnumbered⟩ := h.recovers
  apply Node.crash_preserves (P := fun d => ∃ records, d.Recovers C S records ∧ Numbered records)
    ⟨_, hrecovers, hnumbered⟩
  intro hacts
  obtain ⟨htail, hr⟩ := hbefore hacts
  obtain ⟨cut, -, hcrash⟩ := Node.crash_of_acts hacts hr.isSome writes bytes
  obtain ⟨tail, hcut, hnumbered⟩ := h.recovers_cut hacts htail hr
    (n.disk.accountsLog ++ ((n.state.blockWrites C order).take writes).map .update) cut
  rw [hcrash]
  exact ⟨_, hcut, hnumbered⟩

theorem step (h : InOrder C S n) {e : NodeEvent} (he : Orderly C S n e) :
    InOrder C S (n.step C S e) := by
  cases e with
  | send now tx =>
    exact ⟨h.tickHeight, h.numbered, h.height, h.holds, h.recovers, h.past, h.fresh⟩
  | tick => exact h.tick he
  | produce order now w =>
    apply Node.produce_preserves h
    intro hacts
    obtain ⟨htail, hr⟩ := he hacts
    cases w with
    | ok => exact h.append hacts htail hr
    | failed written => exact h.fail hacts htail hr written
  | restart genesis =>
    obtain ⟨tail, hrecovers, hnumbered⟩ := h.recovers
    exact restart genesis hrecovers hnumbered (hrecovers.records_eq ▸ he)
  | crash order now writes bytes genesis =>
    obtain ⟨records, hrecovers, hnumbered⟩ := h.recovers_crash he.1 writes bytes
    exact restart genesis hrecovers hnumbered (hrecovers.records_eq ▸ he.2)

theorem boot (C : Crypto) (S : Serde BlockRecord) (genesis : List GenesisAccount) :
    InOrder C S (Node.boot C S genesis) :=
  restart genesis Disk.recovers_empty numbered_nil fun _ hlast => by cases hlast

end InOrder

theorem ledger_is_numbered (genesis : List GenesisAccount) (events : List NodeEvent)
    (hrun : Along (Node.step C S) (Orderly C S) (Node.boot C S genesis) events) :
    Numbered ((Node.boot C S genesis).run C S events).state.ledger.records :=
  (hrun.invariant (fun h he => h.step he) (InOrder.boot C S genesis)).numbered

end Numbering

def failedThenRestarted : List NodeEvent :=
  [.produce .spawnOrder 0 (.failed 3), .tick, .restart [], .produce .spawnOrder 0 .ok, .restart [],
    .produce .spawnOrder 0 .ok]

theorem failed_then_restarted_is_numbered :
    ((Node.boot .successor BlockRecord.codec.serde []).run .successor BlockRecord.codec.serde
        failedThenRestarted).state.ledger.records.length = 2 ∧
      Numbered ((Node.boot .successor BlockRecord.codec.serde []).run .successor
        BlockRecord.codec.serde failedThenRestarted).state.ledger.records := by
  refine ⟨by decide +kernel, ledger_is_numbered [] failedThenRestarted
    ⟨fun _ => ⟨by decide +kernel, storable_emptyRecord rfl⟩, ?_, ?_,
      fun _ => ⟨by decide +kernel, storable_emptyRecord (by decide +kernel)⟩, ?_,
      fun _ => ⟨by decide +kernel, storable_emptyRecord (by decide +kernel)⟩, trivial⟩⟩
  all_goals
    rw [Orderly]
    decide +kernel

def failedAppend : Node :=
  (Node.boot acceptingCrypto BlockRecord.codec.serde []).run acceptingCrypto
    BlockRecord.codec.serde [.produce .spawnOrder 0 (.failed 0), .tick]

theorem failed_append_skips_a_height :
    ¬Numbered (failedAppend.produce acceptingCrypto BlockRecord.codec.serde .spawnOrder 0
      .ok).state.ledger.records := by
  have hfailed : failedAppend.state.Acts ∧ failedAppend.state.ledger.records = [] ∧
      failedAppend.state.blockHeight = 1 := by decide +kernel
  intro h
  rw [Node.records_produce hfailed.1 rfl, hfailed.2.1] at h
  have hheight := h.heights 0 _ rfl
  rw [ValidatorState.height_nextRecord, hfailed.2.2] at hheight
  exact absurd hheight (by decide)

end TrustNode.Validator
