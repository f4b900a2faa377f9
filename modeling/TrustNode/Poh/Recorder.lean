import TrustNode.Poh.Verifier

namespace TrustNode.Poh

structure PohConfig where
  hashesPerTick : UInt64
deriving DecidableEq

def PohConfig.default : PohConfig := ⟨6000⟩

structure RecordedEntry where
  entry : PohEntry
  tickHeight : UInt64
deriving DecidableEq

structure PohRecorder where
  config : PohConfig
  slot : UInt64
  tickHeight : UInt64
  hashCount : UInt64
  currentEntries : List PohEntry
  entryIndex : UInt64
  entrySender : List RecordedEntry
  pendingTransactions : List TransactionEntry
  prevHash : Bytes32
deriving DecidableEq

namespace PohRecorder

def new (config : PohConfig) (genesisHash : Bytes32) : PohRecorder where
  config := config
  slot := 0
  tickHeight := 0
  hashCount := 0
  currentEntries := []
  entryIndex := 0
  entrySender := []
  pendingTransactions := []
  prevHash := genesisHash

def record (r : PohRecorder) (entry : PohEntry) : PohRecorder :=
  { r with
    hashCount := r.hashCount + entry.numHashes
    prevHash := entry.hash
    entryIndex := r.entryIndex + 1
    currentEntries := r.currentEntries ++ [entry]
    entrySender := r.entrySender ++ [⟨entry, r.tickHeight⟩] }

def recordTransaction (C : Crypto) (transaction signature : Bytes) (r : PohRecorder) :
    PohRecorder :=
  r.record (.transaction C r.prevHash 1 r.slot r.entryIndex transaction signature)

def recordTick (C : Crypto) (r : PohRecorder) : PohRecorder :=
  let r := { r with tickHeight := r.tickHeight + 1 }
  r.record (.tick C r.prevHash r.config.hashesPerTick r.slot r.entryIndex)

def flushTransactions (C : Crypto) (r : PohRecorder) : PohRecorder :=
  if r.pendingTransactions.isEmpty then r
  else
    let txs := r.pendingTransactions
    let r := { r with pendingTransactions := [] }
    r.record (.sealed C r.prevHash (UInt64.ofNat txs.length) r.slot r.entryIndex
      (.transactions txs))

def newSlot (slot : UInt64) (r : PohRecorder) : List PohEntry × PohRecorder :=
  (r.currentEntries, { r with currentEntries := [], slot := slot, entryIndex := 0 })

end PohRecorder

inductive RecorderCall where
  | recordTransaction (transaction signature : Bytes)
  | recordTick
  | flushTransactions
  | newSlot (slot : UInt64)

structure Recording where
  recorder : PohRecorder
  returned : List (List PohEntry)

namespace Recording

def step (C : Crypto) (s : Recording) : RecorderCall → Recording
  | .recordTransaction transaction signature =>
    { s with recorder := s.recorder.recordTransaction C transaction signature }
  | .recordTick => { s with recorder := s.recorder.recordTick C }
  | .flushTransactions => { s with recorder := s.recorder.flushTransactions C }
  | .newSlot slot =>
    { recorder := (s.recorder.newSlot slot).2
      returned := s.returned ++ [(s.recorder.newSlot slot).1] }

def run (C : Crypto) (config : PohConfig) (genesisHash : Bytes32) (calls : List RecorderCall) :
    Recording :=
  calls.foldl (step C) ⟨.new config genesisHash, []⟩

def slotLists (s : Recording) : List (List PohEntry) := s.returned ++ [s.recorder.currentEntries]

def emitted (s : Recording) : List PohEntry := s.recorder.entrySender.map RecordedEntry.entry

def totalHashes (s : Recording) : ℕ := (s.emitted.map fun e => e.numHashes.toNat).sum

def counted (n : ℕ) : List UInt64 := (List.range n).map UInt64.ofNat

theorem counted_succ (n : ℕ) : counted (n + 1) = counted n ++ [UInt64.ofNat n] := by
  rw [counted, counted, List.range_succ, List.map_append]
  rfl

structure Trail (C : Crypto) (genesisHash : Bytes32) (l : List PohEntry) (tip : Bytes32) :
    Prop where
  verified : ∀ e ∈ l, e.verify C = true
  first : ∀ e ∈ l.head?, e.prevHash = genesisHash
  chained : l.IsChain PohEntry.Follows
  tip_eq : tip = (l.getLast?.map PohEntry.hash).getD genesisHash

theorem Trail.nil (C : Crypto) (genesisHash : Bytes32) : Trail C genesisHash [] genesisHash where
  verified := fun _ he => absurd he List.not_mem_nil
  first := fun _ he => absurd he (Option.not_mem_none _)
  chained := .nil
  tip_eq := rfl

theorem Trail.snoc {C : Crypto} {genesisHash tip : Bytes32} {l : List PohEntry} {entry : PohEntry}
    (h : Trail C genesisHash l tip) (hverify : entry.verify C = true)
    (hprev : entry.prevHash = tip) : Trail C genesisHash (l ++ [entry]) entry.hash := by
  constructor
  · exact List.forall_mem_append.mpr ⟨h.verified, List.forall_mem_singleton.mpr hverify⟩
  · cases l with
    | nil =>
      rintro e ⟨⟩
      rw [hprev, h.tip_eq]
      rfl
    | cons head rest => exact h.first
  · refine h.chained.append (.singleton entry) ?_
    rintro x hx y ⟨⟩
    rw [PohEntry.Follows, hprev, h.tip_eq, hx]
    rfl
  · rw [List.getLast?_append, List.getLast?_singleton]
    rfl

structure Consistent (C : Crypto) (genesisHash : Bytes32) (s : Recording) : Prop where
  complete : s.slotLists.flatten = s.emitted
  trail : Trail C genesisHash s.emitted s.recorder.prevHash
  indexed : ∀ l ∈ s.slotLists, l.map PohEntry.index = counted l.length
  nextIndex : s.recorder.entryIndex = UInt64.ofNat s.recorder.currentEntries.length
  hashes : s.recorder.hashCount = UInt64.ofNat s.totalHashes

theorem Consistent.new (C : Crypto) (config : PohConfig) (genesisHash : Bytes32) :
    Consistent C genesisHash ⟨.new config genesisHash, []⟩ where
  complete := rfl
  trail := .nil C genesisHash
  indexed := List.forall_mem_singleton.mpr rfl
  nextIndex := rfl
  hashes := rfl

theorem Consistent.record {C : Crypto} {genesisHash : Bytes32} {s : Recording}
    (h : Consistent C genesisHash s) {entry : PohEntry} (hverify : entry.verify C = true)
    (hprev : entry.prevHash = s.recorder.prevHash)
    (hindex : entry.index = s.recorder.entryIndex) :
    Consistent C genesisHash { s with recorder := s.recorder.record entry } := by
  have hemitted : emitted { s with recorder := s.recorder.record entry } = s.emitted ++ [entry] := by
    simp [emitted, PohRecorder.record]
  have hlists : slotLists { s with recorder := s.recorder.record entry } =
      s.returned ++ [s.recorder.currentEntries ++ [entry]] := rfl
  constructor
  · rw [hemitted, ← h.complete, hlists]
    simp [slotLists]
  · rw [hemitted]
    exact h.trail.snoc hverify hprev
  · rw [hlists]
    obtain ⟨hreturned, hcurrent⟩ := List.forall_mem_append.mp h.indexed
    refine List.forall_mem_append.mpr ⟨hreturned, List.forall_mem_singleton.mpr ?_⟩
    rw [List.map_append, List.forall_mem_singleton.mp hcurrent, List.length_append,
      List.length_singleton, counted_succ, ← h.nextIndex, ← hindex]
    rfl
  · simp only [PohRecorder.record, h.nextIndex, List.length_append, List.length_singleton,
      UInt64.ofNat_add]
    rfl
  · have htotal : totalHashes { s with recorder := s.recorder.record entry } =
        s.totalHashes + entry.numHashes.toNat := by
      rw [totalHashes, hemitted, List.map_append, List.sum_append]
      rfl
    rw [htotal, UInt64.ofNat_add, UInt64.ofNat_toNat, ← h.hashes]
    rfl

theorem Consistent.newSlot {C : Crypto} {genesisHash : Bytes32} {s : Recording}
    (h : Consistent C genesisHash s) (slot : UInt64) :
    Consistent C genesisHash (s.step C (.newSlot slot)) := by
  have hlists : slotLists (s.step C (.newSlot slot)) = s.slotLists ++ [[]] := rfl
  constructor
  · rw [hlists, List.flatten_append, h.complete]
    exact List.append_nil _
  · exact h.trail
  · rw [hlists]
    exact List.forall_mem_append.mpr ⟨h.indexed, List.forall_mem_singleton.mpr rfl⟩
  · rfl
  · exact h.hashes

theorem Consistent.step {C : Crypto} {genesisHash : Bytes32} {s : Recording}
    (h : Consistent C genesisHash s) (call : RecorderCall) :
    Consistent C genesisHash (s.step C call) := by
  cases call with
  | recordTransaction transaction signature =>
    exact h.record (PohEntry.verify_sealed C _ _ _ _ _) rfl rfl
  | recordTick =>
    have hticked : Consistent C genesisHash
        { s with recorder := { s.recorder with tickHeight := s.recorder.tickHeight + 1 } } :=
      ⟨h.complete, h.trail, h.indexed, h.nextIndex, h.hashes⟩
    exact hticked.record (PohEntry.verify_sealed C _ _ _ _ _) rfl rfl
  | flushTransactions =>
    have htaken : Consistent C genesisHash
        { s with recorder := { s.recorder with pendingTransactions := [] } } :=
      ⟨h.complete, h.trail, h.indexed, h.nextIndex, h.hashes⟩
    simp only [Recording.step, PohRecorder.flushTransactions]
    split
    · exact h
    · exact htaken.record (PohEntry.verify_sealed C _ _ _ _ _) rfl rfl
  | newSlot slot => exact h.newSlot slot

theorem consistent_run (C : Crypto) (config : PohConfig) (genesisHash : Bytes32)
    (calls : List RecorderCall) : Consistent C genesisHash (run C config genesisHash calls) := by
  have hsteps : ∀ s, Consistent C genesisHash s →
      Consistent C genesisHash (calls.foldl (Recording.step C) s) := by
    induction calls with
    | nil => exact fun s hs => hs
    | cons call rest ih => exact fun s hs => ih (s.step C call) (hs.step call)
  exact hsteps _ (.new C config genesisHash)

theorem Consistent.slot_valid {C : Crypto} {genesisHash : Bytes32} {s : Recording}
    (h : Consistent C genesisHash s) {l : List PohEntry} (hl : l ∈ s.slotLists) (hne : l ≠ []) :
    (PohVerifier.verifySlotEntries C l).valid = true := by
  have hslice : l <:+: s.emitted := h.complete ▸ List.infix_of_mem_flatten hl
  exact PohVerifier.verifySlotEntries_valid.mpr
    ⟨hne, fun e he => h.trail.verified e (hslice.mem he), h.trail.chained.infix hslice⟩

theorem recorder_emits_one_chain (C : Crypto) (config : PohConfig) (genesisHash : Bytes32)
    (calls : List RecorderCall)
    (hfits : (run C config genesisHash calls).totalHashes < 2 ^ 64) :
    let s := run C config genesisHash calls
    s.returned.flatten ++ s.recorder.currentEntries = s.emitted ∧
      (∀ e ∈ s.emitted, e.verify C = true) ∧
      (∀ e ∈ s.emitted.head?, e.prevHash = genesisHash) ∧
      s.emitted.IsChain (fun a b => b.prevHash = a.hash) ∧
      (∀ l ∈ s.slotLists, l.map PohEntry.index = (List.range l.length).map UInt64.ofNat) ∧
      s.recorder.hashCount.toNat = s.totalHashes ∧
      ∀ l ∈ s.slotLists, l ≠ [] → (PohVerifier.verifySlotEntries C l).valid = true := by
  intro s
  have h : Consistent C genesisHash s := consistent_run C config genesisHash calls
  refine ⟨?_, h.trail.verified, h.trail.first, h.trail.chained, h.indexed, ?_,
    fun l hl hne => h.slot_valid hl hne⟩
  · have hcomplete := h.complete
    simpa [slotLists] using hcomplete
  · rw [h.hashes]
    exact UInt64.toNat_ofNat_of_lt hfits

theorem recorder_emits_one_chain_two_slots :
    let s := run acceptingCrypto PohConfig.default (Bytes32.splat 0)
      [.recordTransaction [1] [2], .recordTick, .newSlot 1, .flushTransactions, .recordTick]
    s.emitted.map PohEntry.index = [0, 1, 0] ∧ s.recorder.hashCount.toNat = s.totalHashes ∧
      s.emitted.IsChain fun a b => b.prevHash = a.hash := by
  intro s
  have h := recorder_emits_one_chain acceptingCrypto PohConfig.default (Bytes32.splat 0)
    [.recordTransaction [1] [2], .recordTick, .newSlot 1, .flushTransactions, .recordTick]
    (by decide +kernel)
  exact ⟨by decide +kernel, h.2.2.2.2.2.1, h.2.2.2.1⟩

end Recording

end TrustNode.Poh
