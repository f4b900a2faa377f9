import TrustNode.Base.Sha256
import TrustNode.Blockstore.Encoding
import TrustNode.Blockstore.Store

namespace TrustNode.Blockstore

open Bytes
open TrustNode.TxProcessor

section Frames

variable {C : Crypto} {S : Serde BlockRecord}

theorem fill_eq_ok_iff {n : ℕ} {file buf rest : Bytes} :
    fill n file = .ok buf rest ↔ buf.length = n ∧ file = buf ++ rest := by
  constructor
  · intro h
    rw [fill] at h
    split_ifs at h with hlen
    cases h
    refine ⟨?_, (List.take_append_drop n file).symm⟩
    rw [List.length_take]
    omega
  · rintro ⟨rfl, rfl⟩
    rw [fill, if_pos (by rw [List.length_append]; omega), List.take_left, List.drop_left]

theorem length_frame (C : Crypto) (payload : Bytes) :
    (frame C payload).length = headerLen + payload.length + hashLen := by
  simp only [frame, List.length_append, length_u32ToLe, (C.sha256 payload).length_eq, magic,
    List.length_cons, List.length_nil, headerLen, hashLen]
  omega

theorem frame_ne_nil (C : Crypto) (payload : Bytes) : frame C payload ≠ [] := List.cons_ne_nil _ _

structure Accepts (C : Crypto) (S : Serde BlockRecord) (parent : Bytes32) (payload : Bytes)
    (r : BlockRecord) : Prop where
  nonempty : payload.length ≠ 0
  bounded : payload.length ≤ maxFramePayload
  decodes : S.fromSlice payload = some r
  chained : r.parentHash = parent
  verifies : r.verifyHash C = true

theorem readFrame_header (C : Crypto) (S : Serde BlockRecord) (parent : Bytes32) {n : ℕ}
    (hn : n < 2 ^ 32) (rest : Bytes) (h : n = 0 ∨ maxFramePayload < n) :
    readFrame C S parent (magic ++ (u32ToLe n ++ rest)) = none := by
  have hmagic : fill 4 (magic ++ (u32ToLe n ++ rest)) = .ok magic (u32ToLe n ++ rest) :=
    fill_eq_ok_iff.mpr ⟨rfl, rfl⟩
  have hlen : fill 4 (u32ToLe n ++ rest) = .ok (u32ToLe n) rest :=
    fill_eq_ok_iff.mpr ⟨length_u32ToLe n, rfl⟩
  simp only [readFrame, hmagic, hlen, leNat_u32ToLe hn, if_pos h]
  rfl

theorem readFrame_frame {parent : Bytes32} {payload : Bytes} {r : BlockRecord}
    (h : Accepts C S parent payload r) (rest : Bytes) :
    readFrame C S parent (frame C payload ++ rest) = some (r, (frame C payload).length, rest) := by
  have hsmall : payload.length < 2 ^ 32 := lt_of_le_of_lt h.bounded (by decide)
  have hmagic : fill 4 (frame C payload ++ rest) =
      .ok magic (u32ToLe payload.length ++ (payload ++ ((C.sha256 payload).toList ++ rest))) :=
    fill_eq_ok_iff.mpr ⟨rfl, by simp only [frame, List.append_assoc]⟩
  have hlen : fill 4 (u32ToLe payload.length ++ (payload ++ ((C.sha256 payload).toList ++ rest))) =
      .ok (u32ToLe payload.length) (payload ++ ((C.sha256 payload).toList ++ rest)) :=
    fill_eq_ok_iff.mpr ⟨length_u32ToLe _, rfl⟩
  have hpayload : fill payload.length (payload ++ ((C.sha256 payload).toList ++ rest)) =
      .ok payload ((C.sha256 payload).toList ++ rest) := fill_eq_ok_iff.mpr ⟨rfl, rfl⟩
  have hsum : fill hashLen ((C.sha256 payload).toList ++ rest) =
      .ok (C.sha256 payload).toList rest := fill_eq_ok_iff.mpr ⟨(C.sha256 payload).length_eq, rfl⟩
  have hbounds : ¬(payload.length = 0 ∨ maxFramePayload < payload.length) := by
    rw [not_or]
    exact ⟨h.nonempty, h.bounded.not_gt⟩
  simp only [readFrame, hmagic, hlen, leNat_u32ToLe hsmall, if_neg hbounds, hpayload, hsum,
    h.decodes, h.chained, h.verifies, length_frame, ne_eq, not_true_eq_false, Bool.true_eq_false,
    or_false, if_false]

theorem accepts_of_readFrame {parent : Bytes32} {file rest : Bytes} {r : BlockRecord} {n : ℕ}
    (h : readFrame C S parent file = some (r, n, rest)) :
    ∃ payload, Accepts C S parent payload r ∧ n = (frame C payload).length ∧
      file = frame C payload ++ rest := by
  rw [readFrame] at h
  split at h
  · next tag rest₁ hmagic =>
    obtain ⟨-, rfl⟩ := fill_eq_ok_iff.mp hmagic
    split_ifs at h with htag
    rw [not_not] at htag
    split at h
    · next lenBuf rest₂ hlen =>
      obtain ⟨hfour, rfl⟩ := fill_eq_ok_iff.mp hlen
      dsimp only at h
      split_ifs at h with hbounds
      rw [not_or, not_lt] at hbounds
      split at h
      · next payload rest₃ hpayload =>
        obtain ⟨hsize, rfl⟩ := fill_eq_ok_iff.mp hpayload
        split at h
        · next expectedSum rest₄ hsum =>
          obtain ⟨-, rfl⟩ := fill_eq_ok_iff.mp hsum
          split_ifs at h with hcheck
          rw [not_not] at hcheck
          split at h
          · next record hdecodes =>
            split_ifs at h with hchain
            rw [not_or, not_not, Bool.not_eq_false] at hchain
            obtain ⟨rfl, hn, rfl⟩ : record = r ∧ _ = n ∧ rest₄ = rest := by simpa using h
            rw [← hsize] at hbounds
            refine ⟨payload, ⟨hbounds.1, hbounds.2, hdecodes, hchain.1, hchain.2⟩, ?_, ?_⟩
            · rw [length_frame, ← hn]
            · rw [frame, htag, ← hcheck, hsize, u32ToLe_leNat hfour]
              simp only [List.append_assoc]
          · cases h
        · cases h
      · cases h
    · cases h
  · cases h

theorem tip_snoc (records : List BlockRecord) (r : BlockRecord) :
    Ledger.tip ⟨records ++ [r]⟩ = r.blockHash := by
  simp [Ledger.tip]

theorem replayStep_frame {records : List BlockRecord} {payload : Bytes} {r : BlockRecord}
    (h : Accepts C S (Ledger.tip ⟨records⟩) payload r) (n : ℕ) (rest : Bytes) :
    replayStep C S (records, n) (frame C payload ++ rest) =
      some ((records ++ [r], n + (frame C payload).length), rest) := by
  rw [replayStep, readFrame_frame h, Option.map_some]

theorem replayStep_eq_some {state state' : List BlockRecord × ℕ} {file rest : Bytes}
    (h : replayStep C S state file = some (state', rest)) :
    ∃ payload r, Accepts C S (Ledger.tip ⟨state.1⟩) payload r ∧ file = frame C payload ++ rest ∧
      state' = (state.1 ++ [r], state.2 + (frame C payload).length) := by
  obtain ⟨⟨r, n, rest'⟩, hread, hnext⟩ := Option.map_eq_some_iff.mp h
  obtain ⟨rfl, rfl⟩ := Prod.mk.inj hnext
  obtain ⟨payload, haccepts, rfl, hfile⟩ := accepts_of_readFrame hread
  exact ⟨payload, r, haccepts, hfile, rfl⟩

theorem reader_replayStep : Scan.Reader (replayStep C S) := by
  rintro ⟨records, n⟩ file state' rest h
  obtain ⟨payload, r, haccepts, hfile, rfl⟩ := replayStep_eq_some h
  exact ⟨frame C payload, frame_ne_nil C payload, hfile, replayStep_frame haccepts n⟩

end Frames

inductive Chained (C : Crypto) : List BlockRecord → Prop
  | nil : Chained C []
  | snoc {rs : List BlockRecord} {r : BlockRecord} (hchain : Chained C rs)
      (hparent : r.parentHash = Ledger.tip ⟨rs⟩) (hverify : r.verifyHash C = true) :
      Chained C (rs ++ [r])

structure Storable (S : Serde BlockRecord) (r : BlockRecord) : Prop where
  roundTrips : S.RoundTrips r
  nonempty : (S.encoded r).length ≠ 0
  bounded : (S.encoded r).length ≤ maxFramePayload

theorem Storable.isSome {S : Serde BlockRecord} {r : BlockRecord} (h : Storable S r) :
    (S.toVec r).isSome := by
  obtain ⟨bytes, hbytes, -⟩ := h.roundTrips
  rw [hbytes]
  rfl

def frames (C : Crypto) (S : Serde BlockRecord) (records : List BlockRecord) : Bytes :=
  records.flatMap fun r => frame C (S.encoded r)

section Replay

variable {C : Crypto} {S : Serde BlockRecord} {records : List BlockRecord} {good : Bytes}

theorem frames_snoc (records : List BlockRecord) (r : BlockRecord) :
    frames C S (records ++ [r]) = frames C S records ++ frame C (S.encoded r) := by
  simp [frames]

theorem Storable.accepts {r : BlockRecord} (h : Storable S r) {parent : Bytes32}
    (hparent : r.parentHash = parent) (hverify : r.verifyHash C = true) :
    Accepts C S parent (S.encoded r) r :=
  ⟨h.nonempty, h.bounded, h.roundTrips.fromSlice_encoded, hparent, hverify⟩

theorem reads_snoc {r : BlockRecord} {payload : Bytes}
    (hreads : Scan.Reads (replayStep C S) ([], 0) good (records, good.length))
    (haccepts : Accepts C S (Ledger.tip ⟨records⟩) payload r) :
    Scan.Reads (replayStep C S) ([], 0) (good ++ frame C payload)
      (records ++ [r], (good ++ frame C payload).length) := by
  have hstep := replayStep_frame haccepts good.length []
  rw [List.append_nil] at hstep
  rw [List.length_append]
  exact hreads.snoc hstep

theorem reads_frames (hchain : Chained C records) (hrecords : ∀ r ∈ records, Storable S r) :
    Scan.Reads (replayStep C S) ([], 0) (frames C S records)
      (records, (frames C S records).length) := by
  induction hchain with
  | nil => exact .nil
  | @snoc rs r hchain hparent hverify ih =>
    rw [List.forall_mem_append, List.forall_mem_singleton] at hrecords
    rw [frames_snoc]
    exact reads_snoc (ih hrecords.1) (hrecords.2.accepts hparent hverify)

theorem reads_length {state : List BlockRecord × ℕ}
    (hreads : Scan.Reads (replayStep C S) ([], 0) good state) : state.2 = good.length := by
  induction hreads with
  | nil => rfl
  | @snoc s s' data file hdata hframe ih =>
    obtain ⟨payload, r, -, hfile, rfl⟩ := replayStep_eq_some hframe
    rw [List.append_nil] at hfile
    rw [List.length_append, hfile, ih]

theorem reads_chained {state : List BlockRecord × ℕ}
    (hreads : Scan.Reads (replayStep C S) ([], 0) good state) : Chained C state.1 := by
  induction hreads with
  | nil => exact .nil
  | @snoc s s' data file hdata hframe ih =>
    obtain ⟨payload, r, haccepts, -, rfl⟩ := replayStep_eq_some hframe
    exact ih.snoc haccepts.chained haccepts.verifies

theorem open_of_reads (hreads : Scan.Reads (replayStep C S) ([], 0) good (records, good.length))
    {t : Bytes} (ht : readFrame C S (Ledger.tip ⟨records⟩) t = none) :
    Blockstore.open C S (good ++ t) = ⟨good, ⟨records⟩⟩ := by
  have hstuck : replayStep C S (records, good.length) t = none := by
    rw [replayStep, ht, Option.map_none]
  have hreplay : replay C S (good ++ t) = (records, good.length) := by
    rw [replay, reader_replayStep.scanAll_of_reads hreads, Scan.Reader.scanAll_of_none hstuck]
  rw [Blockstore.open, hreplay]
  dsimp only
  split_ifs with hlen
  · rw [List.take_left]
  · rw [List.length_append] at hlen
    obtain rfl : t = [] := List.eq_nil_of_length_eq_zero (by omega)
    rw [List.append_nil]

theorem open_frames (hchain : Chained C records) (hrecords : ∀ r ∈ records, Storable S r) :
    Blockstore.open C S (frames C S records) = ⟨frames C S records, ⟨records⟩⟩ := by
  have hopen := open_of_reads (reads_frames hchain hrecords) (t := []) rfl
  rwa [List.append_nil] at hopen

theorem reads_open (C : Crypto) (S : Serde BlockRecord) (data : Bytes) :
    Scan.Reads (replayStep C S) ([], 0) (Blockstore.open C S data).file
      ((Blockstore.open C S data).ledger.records, (Blockstore.open C S data).file.length) := by
  obtain ⟨consumed, hdata, hreads⟩ :=
    (reader_replayStep (C := C) (S := S)).scanAll_split ([], 0) data
  have hstuck := (reader_replayStep (C := C) (S := S)).scanAll_stuck ([], 0) data
  replace hreads := hreads .nil
  have hlen := reads_length hreads
  cases hstate : Scan.scanAll (replayStep C S) ([], 0) data with
  | mk state rest =>
    obtain ⟨records, n⟩ := state
    rw [hstate] at hdata hreads hstuck hlen
    obtain rfl : n = consumed.length := hlen
    have hopen : Blockstore.open C S data = ⟨consumed, ⟨records⟩⟩ := by
      rw [hdata]
      exact open_of_reads hreads (Option.map_eq_none_iff.mp hstuck)
    rw [hopen]
    exact hreads

theorem replay_extends (C : Crypto) (S : Serde BlockRecord) (state : List BlockRecord × ℕ)
    (data : Bytes) :
    state.1 <+: (Scan.scanAll (replayStep C S) state data).1.1 := by
  obtain ⟨consumed, -, hreads⟩ := reader_replayStep.scanAll_split state data
  refine (hreads .nil).invariant (P := fun s => state.1 <+: s.1) List.prefix_rfl ?_
  intro s s' file hs hread
  obtain ⟨payload, r, -, -, rfl⟩ := replayStep_eq_some hread
  exact hs.trans (List.prefix_append _ _)

end Replay

inductive Attempts (C : Crypto) (S : Serde BlockRecord)
    (P : Blockstore → Call → WriteResult → Prop) (start : Blockstore) :
    List BlockRecord → Blockstore → Prop
  | nil : Attempts C S P start [] start
  | acknowledged {acked : List BlockRecord} {b b' : Blockstore} {call : Call} {w : WriteResult}
      {r : BlockRecord} (h : Attempts C S P start acked b) (hcall : P b call w)
      (hok : call.run C S w b = (.ok r, b')) : Attempts C S P start (acked ++ [r]) b'
  | failed {acked : List BlockRecord} {b b' : Blockstore} {call : Call} {w : WriteResult}
      {e : AppendError} (h : Attempts C S P start acked b) (hcall : P b call w)
      (herror : call.run C S w b = (.error e, b')) : Attempts C S P start acked b'

def completeWrites (_ : Blockstore) (_ : Call) (w : WriteResult) : Prop := w = .ok

structure Consistent (C : Crypto) (S : Serde BlockRecord) (records : List BlockRecord)
    (b : Blockstore) : Prop where
  file_eq : b.file = frames C S records
  records_eq : b.ledger.records = records
  chained : Chained C records

theorem consistent_of_attempts {C : Crypto} {S : Serde BlockRecord} {records : List BlockRecord}
    {b : Blockstore} (h : Attempts C S completeWrites (Blockstore.open C S []) records b) :
    Consistent C S records b := by
  induction h with
  | nil => exact ⟨rfl, rfl, .nil⟩
  | @acknowledged acked b b' call w r h hcall hok ih =>
    obtain ⟨-, happend⟩ := run_ok hok
    obtain ⟨-, hparent, hverify, -, rfl⟩ := appendRecord_ok happend
    refine ⟨?_, ?_, ih.chained.snoc ?_ hverify⟩
    · rw [frames_snoc, ← ih.file_eq]
    · rw [ih.records_eq]
    · rw [hparent, ← ih.records_eq]
  | @failed acked b b' call w e h hcall herror ih =>
    obtain ⟨debris, rfl, hdebris⟩ := appendRecord_error (run_error herror)
    rw [hdebris hcall, List.append_nil]
    exact ih

theorem recovery_is_exact {C : Crypto} {S : Serde BlockRecord} {records : List BlockRecord}
    {b : Blockstore} (h : Attempts C S completeWrites (Blockstore.open C S []) records b)
    (hrecords : ∀ r ∈ records, Storable S r) {t : Bytes}
    (ht : ¬∃ payload r rest, Accepts C S (Ledger.tip ⟨records⟩) payload r ∧
      t = frame C payload ++ rest) :
    b.file = frames C S records ∧
      Blockstore.open C S (b.file ++ t) = ⟨frames C S records, ⟨records⟩⟩ ∧
      Blockstore.open C S (Blockstore.open C S (b.file ++ t)).file =
        Blockstore.open C S (b.file ++ t) := by
  have hb := consistent_of_attempts h
  have hreads := reads_frames hb.chained hrecords
  have hnone : readFrame C S (Ledger.tip ⟨records⟩) t = none := by
    cases hread : readFrame C S (Ledger.tip ⟨records⟩) t with
    | none => rfl
    | some next =>
      obtain ⟨r, n, rest⟩ := next
      obtain ⟨payload, haccepts, -, hfile⟩ := accepts_of_readFrame hread
      exact absurd ⟨payload, r, rest, haccepts, hfile⟩ ht
  have hopen := open_of_reads hreads hnone
  rw [hb.file_eq, hopen]
  exact ⟨rfl, rfl, open_frames hb.chained hrecords⟩

def dataRecord (C : Crypto) (parent : Bytes32) (data : Bytes) : BlockRecord :=
  BlockRecord.new C 0 parent 1 1 (Bytes32.splat 5) 4 (Bytes32.splat 6)
    [Transaction.new (Bytes32.splat 7) [⟨Bytes32.splat 1, [], data⟩] (Bytes32.splat 0)]

def dataCall (data : Bytes) : Call :=
  .append 0 1 1 4 (Bytes32.splat 5) (Bytes32.splat 6)
    [Transaction.new (Bytes32.splat 7) [⟨Bytes32.splat 1, [], data⟩] (Bytes32.splat 0)]

theorem length_dataRecord (C : Crypto) (parent : Bytes32) (data : Bytes) :
    (BlockRecord.codec.serde.encoded (dataRecord C parent data)).length = data.length + 336 := by
  change (BlockRecord.codec.write (dataRecord C parent data)).length = _
  simp [BlockRecord.codec, dataRecord, BlockRecord.new, BlockRecord.header, BlockRecord.headerCodec,
    Transaction.codec, Transaction.new, Transaction.header, Transaction.headerCodec,
    Instruction.codec]
  omega

theorem roundTrips_dataRecord (C : Crypto) (parent : Bytes32) {data : Bytes}
    (h : data.length < 2 ^ 32) :
    BlockRecord.codec.serde.RoundTrips (dataRecord C parent data) := by
  have hix : (⟨Bytes32.splat 1, [], data⟩ : Instruction).ListsFit := ⟨show 0 < 2 ^ 32 by decide, h⟩
  apply Codec.serde_roundTrips
  refine BlockRecord.codec_valid ?_ fun tx htx => ?_
  · exact show 1 < 2 ^ 32 by decide
  obtain rfl := List.mem_singleton.mp htx
  refine Transaction.ListsFit.codec_valid ⟨show 1 < 2 ^ 32 by decide, ?_⟩ (show 0 < 2 ^ 32 by decide)
    (show 1 < 2 ^ 32 by decide)
  intro ix hmem
  obtain rfl := List.mem_singleton.mp hmem
  exact hix

theorem storable_dataRecord (C : Crypto) (parent : Bytes32) {data : Bytes}
    (h : data.length + 336 ≤ maxFramePayload) :
    Storable BlockRecord.codec.serde (dataRecord C parent data) where
  roundTrips := roundTrips_dataRecord C parent (by rw [maxFramePayload] at h; omega)
  nonempty := by
    rw [length_dataRecord]
    omega
  bounded := by rwa [length_dataRecord]

theorem length_emptyRecord {r : BlockRecord} (h : r.transactions = []) :
    (BlockRecord.codec.serde.encoded r).length = 172 := by
  change (BlockRecord.codec.write r).length = _
  simp [BlockRecord.codec, BlockRecord.header, BlockRecord.headerCodec, h]

theorem storable_emptyRecord {r : BlockRecord} (h : r.transactions = []) :
    Storable BlockRecord.codec.serde r where
  roundTrips := by
    apply Codec.serde_roundTrips
    apply BlockRecord.codec_valid
    · rw [h]
      decide
    · rw [h]
      exact fun _ htx => by cases htx
  nonempty := by
    rw [length_emptyRecord h]
    decide
  bounded := by
    rw [length_emptyRecord h]
    decide

theorem run_dataCall (C : Crypto) (w : WriteResult) (b : Blockstore) (data : Bytes) :
    (dataCall data).run C BlockRecord.codec.serde w b =
      match w with
      | .ok =>
          (.ok (dataRecord C b.ledger.tip data),
            ⟨b.file ++ frame C (BlockRecord.codec.serde.encoded (dataRecord C b.ledger.tip data)),
              ⟨b.ledger.records ++ [dataRecord C b.ledger.tip data]⟩⟩)
      | .failed written =>
          (.error .write,
            { b with
              file := b.file ++ (frame C (BlockRecord.codec.serde.encoded
                (dataRecord C b.ledger.tip data))).take written }) :=
  run_append rfl rfl

theorem torn_magic_is_truncated :
    Blockstore.open acceptingCrypto BlockRecord.codec.serde
        (((dataCall []).run acceptingCrypto BlockRecord.codec.serde .ok
          (.open acceptingCrypto BlockRecord.codec.serde [])).2.file ++ [84, 78]) =
      ⟨frames acceptingCrypto BlockRecord.codec.serde
          [dataRecord acceptingCrypto genesisParent []],
        ⟨[dataRecord acceptingCrypto genesisParent []]⟩⟩ := by
  have hrun : Attempts acceptingCrypto BlockRecord.codec.serde completeWrites
      (.open acceptingCrypto BlockRecord.codec.serde []) _ _ :=
    .acknowledged .nil rfl (run_dataCall acceptingCrypto .ok _ [])
  rw [run_dataCall]
  refine (recovery_is_exact hrun ?_ ?_).2.1
  · intro r hr
    obtain rfl := List.mem_singleton.mp hr
    exact storable_dataRecord _ _ (by decide)
  · rintro ⟨payload, r, rest, -, ht⟩
    have hlen := congrArg List.length ht
    rw [List.length_append, length_frame, headerLen] at hlen
    simp only [List.length_cons, List.length_nil] at hlen
    omega

end TrustNode.Blockstore
