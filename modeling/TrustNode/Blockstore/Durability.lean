import Mathlib.Data.List.TakeWhile
import TrustNode.Blockstore.Recovery

namespace TrustNode.Blockstore

open Bytes

section FailedWrites

variable {C : Crypto} {S : Serde BlockRecord} {b : Blockstore}

theorem records_open (C : Crypto) (S : Serde BlockRecord) (file : Bytes) :
    (Blockstore.open C S file).ledger.records = (replay C S file).1 := by
  rw [Blockstore.open]
  dsimp only
  split_ifs <;> rfl

theorem reads_of_replay (h : replay C S b.file = (b.ledger.records, b.file.length)) :
    Scan.Reads (replayStep C S) ([], 0) b.file (b.ledger.records, b.file.length) := by
  obtain ⟨consumed, hfile, hreads⟩ :=
    (reader_replayStep (C := C) (S := S)).scanAll_split ([], 0) b.file
  replace hreads := hreads .nil
  rw [replay] at h
  rw [h, List.nil_append] at hreads
  have hlen : b.file.length = consumed.length := reads_length hreads
  have hall : consumed = b.file := by
    have htotal := congrArg List.length hfile
    rw [List.length_append] at htotal
    have hrest : (Scan.scanAll (replayStep C S) ([], 0) b.file).2 = [] :=
      List.eq_nil_of_length_eq_zero (by omega)
    rw [hrest, List.append_nil] at hfile
    exact hfile.symm
  rwa [hall] at hreads

def writesIntact (C : Crypto) (S : Serde BlockRecord) (b : Blockstore) (call : Call)
    (w : WriteResult) : Prop :=
  w = .ok →
    replay C S b.file = (b.ledger.records, b.file.length) ∧ Storable S (call.record C b)

structure Recoverable (C : Crypto) (S : Serde BlockRecord) (records : List BlockRecord)
    (b : Blockstore) : Prop where
  records_eq : b.ledger.records = records
  readable : ∃ good debris, b.file = good ++ debris ∧
    Scan.Reads (replayStep C S) ([], 0) good (b.ledger.records, good.length)

theorem Recoverable.survives {records : List BlockRecord} (h : Recoverable C S records b) :
    records <+: (Blockstore.open C S b.file).ledger.records := by
  obtain ⟨good, debris, hfile, hreads⟩ := h.readable
  rw [records_open, replay, hfile, reader_replayStep.scanAll_of_reads hreads, ← h.records_eq]
  exact replay_extends C S (b.ledger.records, good.length) debris

theorem recoverable_of_attempts {data : Bytes} {acked : List BlockRecord}
    (h : Attempts C S (writesIntact C S) (Blockstore.open C S data) acked b) :
    Recoverable C S ((Blockstore.open C S data).ledger.records ++ acked) b := by
  induction h with
  | nil =>
    refine ⟨(List.append_nil _).symm, _, [], (List.append_nil _).symm, reads_open C S data⟩
  | @acknowledged acked b b' call w r h hcall hok ih =>
    obtain ⟨hrecord, happend⟩ := run_ok hok
    obtain ⟨hw, hparent, hverify, -, rfl⟩ := appendRecord_ok happend
    obtain ⟨hintact, hstorable⟩ := hcall hw
    rw [← hrecord] at hstorable
    refine ⟨?_, _, [], (List.append_nil _).symm, ?_⟩
    · rw [ih.records_eq, List.append_assoc]
    · exact reads_snoc (reads_of_replay hintact) (hstorable.accepts hparent hverify)
  | @failed acked b b' call w e h hcall herror ih =>
    obtain ⟨debris', rfl, -⟩ := appendRecord_error (run_error herror)
    obtain ⟨good, debris, hfile, hreads⟩ := ih.readable
    refine ⟨ih.records_eq, good, debris ++ debris', ?_, hreads⟩
    rw [← List.append_assoc, ← hfile]

theorem acknowledged_records_survive {data : Bytes} {acked : List BlockRecord}
    (h : Attempts C S (writesIntact C S) (Blockstore.open C S data) acked b) :
    ((Blockstore.open C S data).ledger.records ++ acked) <+:
      (Blockstore.open C S b.file).ledger.records :=
  (recoverable_of_attempts h).survives

end FailedWrites

theorem record_before_failed_write_survives :
    ∃ b, Attempts acceptingCrypto BlockRecord.codec.serde
        (writesIntact acceptingCrypto BlockRecord.codec.serde)
        (.open acceptingCrypto BlockRecord.codec.serde [])
        [dataRecord acceptingCrypto genesisParent []] b ∧
      [dataRecord acceptingCrypto genesisParent []] <+:
        (Blockstore.open acceptingCrypto BlockRecord.codec.serde b.file).ledger.records := by
  have hintact : writesIntact acceptingCrypto BlockRecord.codec.serde
      (.open acceptingCrypto BlockRecord.codec.serde []) (dataCall []) .ok :=
    fun _ => ⟨rfl, storable_dataRecord acceptingCrypto genesisParent (by decide)⟩
  have hfirst := Attempts.acknowledged .nil hintact (run_dataCall acceptingCrypto .ok _ [])
  have hsecond := hfirst.failed (fun hw => by cases hw)
    (run_dataCall acceptingCrypto (.failed 5) _ [1])
  exact ⟨_, hsecond, acknowledged_records_survive hsecond⟩

theorem replay_torn_magic (C : Crypto) (S : Serde BlockRecord) (rest : Bytes) :
    replay C S (magic ++ (magic ++ rest)) = ([], 0) := by
  have hheader : magic = u32ToLe 1279413844 := by decide
  have hnone := readFrame_header C S (Ledger.tip ⟨[]⟩) (n := 1279413844) (by decide) rest
    (.inr (by decide))
  have hstuck : replayStep C S ([], 0) (magic ++ (magic ++ rest)) = none := by
    nth_rewrite 2 [hheader]
    rw [replayStep, hnone, Option.map_none]
  rw [replay, Scan.Reader.scanAll_of_none hstuck]

theorem record_after_torn_write_is_lost :
    ∃ acked b, Attempts acceptingCrypto BlockRecord.codec.serde (fun _ _ _ => True)
        (.open acceptingCrypto BlockRecord.codec.serde []) acked b ∧
      acked = [dataRecord acceptingCrypto genesisParent []] ∧
      (Blockstore.open acceptingCrypto BlockRecord.codec.serde b.file).ledger.records = [] := by
  have htorn : Attempts acceptingCrypto BlockRecord.codec.serde (fun _ _ _ => True)
      (.open acceptingCrypto BlockRecord.codec.serde []) _ _ :=
    .failed .nil trivial (run_dataCall acceptingCrypto (.failed 4) _ [])
  refine ⟨_, _, htorn.acknowledged trivial (run_dataCall acceptingCrypto .ok _ []), rfl, ?_⟩
  rw [records_open]
  exact congrArg Prod.fst (replay_torn_magic acceptingCrypto BlockRecord.codec.serde _)

section TornWrites

variable {C : Crypto} {S : Serde BlockRecord} {records : List BlockRecord}

theorem readFrame_torn {payload : Bytes} {r : BlockRecord}
    (h : Accepts C S (Ledger.tip ⟨records⟩) payload r) {k : ℕ}
    (hk : k < (frame C payload).length) :
    readFrame C S (Ledger.tip ⟨records⟩) ((frame C payload).take k) = none := by
  have hwhole := replayStep_frame h 0 []
  rw [List.append_nil] at hwhole
  exact Option.map_eq_none_iff.mp (reader_replayStep.read_take hwhole hk)

theorem open_cut (hchain : Chained C records) (hrecords : ∀ r ∈ records, Storable S r)
    {r : BlockRecord} (hr : Storable S r) (hparent : r.parentHash = Ledger.tip ⟨records⟩)
    (hverify : r.verifyHash C = true) (k : ℕ) :
    Blockstore.open C S (frames C S records ++ (frame C (S.encoded r)).take k) =
      if (frame C (S.encoded r)).length ≤ k then
        ⟨frames C S (records ++ [r]), ⟨records ++ [r]⟩⟩
      else ⟨frames C S records, ⟨records⟩⟩ := by
  split_ifs with hk
  · rw [List.take_of_length_le hk, ← frames_snoc]
    refine open_frames (hchain.snoc hparent hverify) ?_
    rw [List.forall_mem_append, List.forall_mem_singleton]
    exact ⟨hrecords, hr⟩
  · exact open_of_reads (reads_frames hchain hrecords)
      (readFrame_torn (hr.accepts hparent hverify) (not_le.mp hk))

end TornWrites

def fits (S : Serde BlockRecord) (r : BlockRecord) : Bool :=
  (S.encoded r).length ≠ 0 ∧ (S.encoded r).length ≤ maxFramePayload

section CompleteWrites

variable {C : Crypto} {S : Serde BlockRecord} {records : List BlockRecord}

theorem storable_of_fits {r : BlockRecord} (htrip : S.RoundTrips r) (h : fits S r = true) :
    Storable S r := by
  obtain ⟨hne, hle⟩ := of_decide_eq_true h
  exact ⟨htrip, hne, hle⟩

theorem readFrame_of_not_fits {r : BlockRecord} (hlen : (S.encoded r).length < 2 ^ 32)
    (h : fits S r = false) (parent : Bytes32) (more : Bytes) :
    readFrame C S parent (frame C (S.encoded r) ++ more) = none := by
  have hbad : (S.encoded r).length = 0 ∨ maxFramePayload < (S.encoded r).length := by
    have hnot := of_decide_eq_false h
    omega
  have hnone := readFrame_header C S parent hlen
    (S.encoded r ++ ((C.sha256 (S.encoded r)).toList ++ more)) hbad
  simpa only [frame, List.append_assoc] using hnone

theorem replay_cut (hchain : Chained C records) (htrip : ∀ r ∈ records, S.RoundTrips r)
    (hlen : ∀ r ∈ records, (S.encoded r).length < 2 ^ 32) :
    (∀ r ∈ records, fits S r = true) ∨ (∃ r ∈ records, fits S r = false) ∧
      ∀ more, (replay C S (frames C S records ++ more)).1 = records.takeWhile (fits S) := by
  induction hchain with
  | nil => exact .inl (by simp)
  | @snoc rs r hchain hparent hverify ih =>
    simp only [List.forall_mem_append, List.forall_mem_singleton] at htrip hlen
    obtain hall | ⟨⟨x, hx, hxfits⟩, hcut⟩ := ih htrip.1 hlen.1
    · cases hr : fits S r with
      | true =>
        left
        simp only [List.forall_mem_append, List.forall_mem_singleton]
        exact ⟨hall, hr⟩
      | false =>
        have hreads := reads_frames hchain fun x hx => storable_of_fits (htrip.1 x hx) (hall x hx)
        refine .inr ⟨⟨r, by simp, hr⟩, fun more => ?_⟩
        have hstuck : replayStep C S (rs, (frames C S rs).length)
            (frame C (S.encoded r) ++ more) = none := by
          rw [replayStep, readFrame_of_not_fits hlen.2 hr, Option.map_none]
        rw [frames_snoc, List.append_assoc, replay, reader_replayStep.scanAll_of_reads hreads,
          Scan.Reader.scanAll_of_none hstuck, List.takeWhile_append_of_pos hall,
          List.takeWhile_cons_of_neg (by simp [hr]), List.append_nil]
    · refine .inr ⟨⟨x, List.mem_append_left _ hx, hxfits⟩, fun more => ?_⟩
      have hshort : (rs.takeWhile (fits S)).length ≠ rs.length := by
        intro hfull
        have hself := (List.takeWhile_prefix (fits S)).eq_of_length hfull
        have htrue := List.takeWhile_eq_self_iff.mp hself x hx
        rw [hxfits] at htrue
        cases htrue
      rw [frames_snoc, List.append_assoc, hcut, List.takeWhile_append, if_neg hshort]

theorem records_of_all_fit (hchain : Chained C records) (htrip : ∀ r ∈ records, S.RoundTrips r)
    (hall : ∀ r ∈ records, fits S r = true) :
    (Blockstore.open C S (frames C S records)).ledger.records = records := by
  rw [open_frames hchain fun r hr => storable_of_fits (htrip r hr) (hall r hr)]

theorem records_reopen (hchain : Chained C records) (htrip : ∀ r ∈ records, S.RoundTrips r)
    (hlen : ∀ r ∈ records, (S.encoded r).length < 2 ^ 32) :
    (Blockstore.open C S (frames C S records)).ledger.records = records.takeWhile (fits S) := by
  obtain hall | ⟨-, hcut⟩ := replay_cut hchain htrip hlen
  · rw [records_of_all_fit hchain htrip hall, List.takeWhile_eq_self_iff.mpr hall]
  · have hreplay := hcut []
    rw [List.append_nil] at hreplay
    rw [records_open, hreplay]

theorem reopen_returns_acknowledged {b : Blockstore}
    (h : Attempts C S completeWrites (Blockstore.open C S []) records b)
    (htrip : ∀ r ∈ records, S.RoundTrips r) :
    ((∀ r ∈ records, fits S r = true) →
        (Blockstore.open C S b.file).ledger.records = records) ∧
      ((∀ r ∈ records, (S.encoded r).length < 2 ^ 32) →
        (Blockstore.open C S b.file).ledger.records = records →
          ∀ r ∈ records, fits S r = true) := by
  have hb := consistent_of_attempts h
  rw [hb.file_eq]
  constructor
  · exact records_of_all_fit hb.chained htrip
  · intro hlen heq
    rw [records_reopen hb.chained htrip hlen] at heq
    exact List.takeWhile_eq_self_iff.mp heq

end CompleteWrites

theorem attempts_dataCall (C : Crypto) (data : Bytes) :
    ∃ b, Attempts C BlockRecord.codec.serde completeWrites
      (.open C BlockRecord.codec.serde []) [dataRecord C genesisParent data] b :=
  ⟨_, .acknowledged .nil rfl (run_dataCall C .ok _ data)⟩

theorem small_record_is_returned :
    ∃ b, Attempts acceptingCrypto BlockRecord.codec.serde completeWrites
        (.open acceptingCrypto BlockRecord.codec.serde [])
        [dataRecord acceptingCrypto genesisParent []] b ∧
      (Blockstore.open acceptingCrypto BlockRecord.codec.serde b.file).ledger.records =
        [dataRecord acceptingCrypto genesisParent []] := by
  obtain ⟨b, hb⟩ := attempts_dataCall acceptingCrypto []
  refine ⟨b, hb, (reopen_returns_acknowledged hb ?_).1 ?_⟩
  · rw [List.forall_mem_singleton]
    exact roundTrips_dataRecord _ _ (by decide)
  · rw [List.forall_mem_singleton, fits, length_dataRecord]
    decide

theorem oversized_record_is_lost :
    ∃ records b, Attempts acceptingCrypto BlockRecord.codec.serde completeWrites
        (.open acceptingCrypto BlockRecord.codec.serde []) records b ∧
      (∀ r ∈ records, BlockRecord.codec.serde.RoundTrips r) ∧ records ≠ [] ∧
      (Blockstore.open acceptingCrypto BlockRecord.codec.serde b.file).ledger.records = [] := by
  obtain ⟨data, hdata⟩ : ∃ data : Bytes, data.length = maxFramePayload :=
    ⟨List.replicate maxFramePayload 0, List.length_replicate⟩
  obtain ⟨b, hb⟩ := attempts_dataCall acceptingCrypto data
  have hlen := length_dataRecord acceptingCrypto genesisParent data
  have htrip : ∀ r ∈ [dataRecord acceptingCrypto genesisParent data],
      BlockRecord.codec.serde.RoundTrips r := by
    rw [List.forall_mem_singleton]
    exact roundTrips_dataRecord _ _ (by rw [hdata]; decide)
  have hconsistent := consistent_of_attempts hb
  refine ⟨_, b, hb, htrip, List.cons_ne_nil _ _, ?_⟩
  rw [hconsistent.file_eq, records_reopen hconsistent.chained htrip]
  · rw [List.takeWhile_cons_of_neg]
    rw [fits, hlen, hdata]
    decide
  · rw [List.forall_mem_singleton, hlen, hdata]
    decide

end TrustNode.Blockstore
