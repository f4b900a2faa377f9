import TrustNode.Base.Sha256
import TrustNode.Blockstore.Encoding
import TrustNode.Blockstore.Recovery

namespace TrustNode.Blockstore

open TrustNode.TxProcessor

inductive Reached (C : Crypto) (S : Serde BlockRecord) : Blockstore → Prop
  | opened (data : Bytes) : Reached C S (Blockstore.open C S data)
  | called {b : Blockstore} (call : Call) (w : WriteResult) (h : Reached C S b) :
      Reached C S (call.run C S w b).2

theorem chained_of_reached {C : Crypto} {S : Serde BlockRecord} {b : Blockstore}
    (h : Reached C S b) : Chained C b.ledger.records := by
  induction h with
  | opened data => exact reads_chained (reads_open C S data)
  | @called b call w h ih =>
    cases hrun : call.run C S w b with
    | mk res b' =>
      cases res with
      | error e =>
        obtain ⟨debris, rfl, -⟩ := appendRecord_error (run_error hrun)
        exact ih
      | ok r =>
        obtain ⟨-, hparent, hverify, -, rfl⟩ := appendRecord_ok (run_ok hrun).2
        exact ih.snoc hparent hverify

def hashInputs (C : Crypto) (records : List BlockRecord) : List Bytes :=
  records.flatMap fun r => r.preimage C :: r.transactions.map Transaction.message

structure Covers (C : Crypto) (s : Set Bytes) (records : List BlockRecord) : Prop where
  preimage : ∀ r ∈ records, r.preimage C ∈ s
  message : ∀ r ∈ records, ∀ tx ∈ r.transactions, tx.message ∈ s
  listsFit : ∀ r ∈ records, ∀ tx ∈ r.transactions, tx.ListsFit

section Commitment

variable {C : Crypto} {s : Set Bytes} {records records' : List BlockRecord} {r r' : BlockRecord}

theorem Covers.init (h : Covers C s (records ++ [r])) : Covers C s records where
  preimage x hx := h.preimage x (List.mem_append_left _ hx)
  message x hx := h.message x (List.mem_append_left _ hx)
  listsFit x hx := h.listsFit x (List.mem_append_left _ hx)

theorem Covers.last (h : Covers C s (records ++ [r])) : Covers C s [r] where
  preimage x hx := h.preimage x (List.mem_append_right _ hx)
  message x hx := h.message x (List.mem_append_right _ hx)
  listsFit x hx := h.listsFit x (List.mem_append_right _ hx)

theorem covers_of_hashInputs (hmem : ∀ x ∈ hashInputs C records, x ∈ s)
    (hfit : ∀ r ∈ records, ∀ tx ∈ r.transactions, tx.ListsFit) : Covers C s records where
  preimage r hr := hmem _ (List.mem_flatMap.mpr ⟨r, hr, List.mem_cons_self⟩)
  message r hr _ htx := hmem _ (List.mem_flatMap.mpr
    ⟨r, hr, List.mem_cons_of_mem _ (List.mem_map_of_mem htx)⟩)
  listsFit := hfit

theorem unsigned_eq_of_hash_eq (hinj : s.InjOn C.sha256) {txs txs' : List Transaction}
    (hmem : ∀ tx ∈ txs, tx.message ∈ s ∧ tx.ListsFit)
    (hmem' : ∀ tx ∈ txs', tx.message ∈ s ∧ tx.ListsFit)
    (h : txs.map (Transaction.hash C) = txs'.map (Transaction.hash C)) :
    txs.map Transaction.unsigned = txs'.map Transaction.unsigned := by
  induction txs generalizing txs' with
  | nil =>
    obtain rfl : txs' = [] := List.map_eq_nil_iff.mp h.symm
    rfl
  | cons tx txs ih =>
    cases txs' with
    | nil => cases h
    | cons tx' txs' =>
      rw [List.forall_mem_cons] at hmem hmem'
      rw [List.map_cons, List.map_cons, List.cons.injEq] at h
      have hmessage : tx.message = tx'.message := hinj hmem.1.1 hmem'.1.1 h.1
      rw [List.map_cons, List.map_cons, Transaction.message_inj hmem.1.2 hmem'.1.2 hmessage,
        ih hmem.2 hmem'.2 h.2]

theorem contents_eq_of_blockHash_eq (hinj : s.InjOn C.sha256) (hr : Covers C s [r])
    (hr' : Covers C s [r']) (hverify : r.verifyHash C = true) (hverify' : r'.verifyHash C = true)
    (h : r.blockHash = r'.blockHash) : r.contents = r'.contents := by
  have hsha : C.sha256 (r.preimage C) = C.sha256 (r'.preimage C) := by
    rw [← BlockRecord.verifyHash_iff.mp hverify, ← BlockRecord.verifyHash_iff.mp hverify', h]
  have hpreimage := hinj (hr.preimage r (List.mem_singleton_self r))
    (hr'.preimage r' (List.mem_singleton_self r')) hsha
  obtain ⟨hheader, hhashes⟩ := BlockRecord.preimage_inj hpreimage
  have htransactions := unsigned_eq_of_hash_eq hinj
    (fun tx htx => ⟨hr.message r (List.mem_singleton_self r) tx htx,
      hr.listsFit r (List.mem_singleton_self r) tx htx⟩)
    (fun tx htx => ⟨hr'.message r' (List.mem_singleton_self r') tx htx,
      hr'.listsFit r' (List.mem_singleton_self r') tx htx⟩) hhashes
  simp only [BlockRecord.header, Prod.mk.injEq] at hheader
  obtain ⟨hparent, hslot, hheight, hpoh, hentries, hcount, hroot⟩ := hheader
  rw [BlockRecord.contents, BlockRecord.contents, hparent, hslot, hheight, hpoh, hentries, hcount,
    hroot, htransactions, h]

theorem tip_ne_genesis (hnonzero : ∀ x ∈ s, C.sha256 x ≠ genesisParent)
    (hr : Covers C s [r]) (hverify : r.verifyHash C = true) :
    Ledger.tip ⟨records ++ [r]⟩ ≠ genesisParent := by
  rw [tip_snoc, BlockRecord.verifyHash_iff.mp hverify]
  exact hnonzero _ (hr.preimage r (List.mem_singleton_self r))

theorem contents_eq_of_tip_eq (hinj : s.InjOn C.sha256)
    (hnonzero : ∀ x ∈ s, C.sha256 x ≠ genesisParent) (hchain : Chained C records)
    (hchain' : Chained C records') (hs : Covers C s records) (hs' : Covers C s records')
    (htip : Ledger.tip ⟨records⟩ = Ledger.tip ⟨records'⟩) :
    records.map BlockRecord.contents = records'.map BlockRecord.contents := by
  induction hchain generalizing records' with
  | nil =>
    cases hchain' with
    | nil => rfl
    | snoc hchain' hparent' hverify' =>
      exact absurd htip.symm (tip_ne_genesis hnonzero hs'.last hverify')
  | @snoc rs r hchain hparent hverify ih =>
    cases hchain' with
    | nil => exact absurd htip (tip_ne_genesis hnonzero hs.last hverify)
    | @snoc rs' r' hchain' hparent' hverify' =>
      rw [tip_snoc, tip_snoc] at htip
      have hcontents := contents_eq_of_blockHash_eq hinj hs.last hs'.last hverify hverify' htip
      have hparents : r.contents.parentHash = r'.contents.parentHash := by rw [hcontents]
      have hinit := ih hchain' hs.init hs'.init 
        (hparent.symm.trans (Eq.trans hparents hparent'))
      rw [List.map_append, List.map_append, hinit, List.map_singleton, List.map_singleton, hcontents]

end Commitment

theorem tip_commits_to_ledger {C : Crypto} {S S' : Serde BlockRecord} {b b' : Blockstore}
    (hb : Reached C S b) (hb' : Reached C S' b')
    (hinj : Set.InjOn C.sha256
      {x | x ∈ hashInputs C b.ledger.records ++ hashInputs C b'.ledger.records})
    (hnonzero : ∀ x ∈ hashInputs C b.ledger.records ++ hashInputs C b'.ledger.records,
      C.sha256 x ≠ genesisParent)
    (hfit : ∀ r ∈ b.ledger.records ++ b'.ledger.records, ∀ tx ∈ r.transactions, tx.ListsFit)
    (htip : b.ledger.tip = b'.ledger.tip) :
    b.ledger.records.map BlockRecord.contents = b'.ledger.records.map BlockRecord.contents := by
  refine contents_eq_of_tip_eq hinj hnonzero (chained_of_reached hb) (chained_of_reached hb')
    (covers_of_hashInputs ?_ ?_) (covers_of_hashInputs ?_ ?_) htip
  · exact fun x hx => List.mem_append_left _ hx
  · exact fun r hr => hfit r (List.mem_append_left _ hr)
  · exact fun x hx => List.mem_append_right _ hx
  · exact fun r hr => hfit r (List.mem_append_right _ hr)

def transferTx (signature : Bytes) : Transaction :=
  { Transaction.new (Bytes32.splat 7) [⟨Bytes32.splat 1, [⟨0, true, true⟩], [2, 3]⟩]
      (Bytes32.splat 0) with signature := signature }

def transferRecord (now : UInt64) (signature : Bytes) : BlockRecord :=
  BlockRecord.new acceptingCrypto now genesisParent 1 1 (Bytes32.splat 5) 4 (Bytes32.splat 6)
    [transferTx signature]

def oneBlock (now : UInt64) (signature : Bytes) : Blockstore :=
  ((Call.append now 1 1 4 (Bytes32.splat 5) (Bytes32.splat 6) [transferTx signature]).run
    acceptingCrypto BlockRecord.codec.serde .ok
      (.open acceptingCrypto BlockRecord.codec.serde [])).2

theorem reached_oneBlock (now : UInt64) (signature : Bytes) :
    Reached acceptingCrypto BlockRecord.codec.serde (oneBlock now signature) :=
  .called _ _ (.opened [])

theorem records_oneBlock (now : UInt64) (signature : Bytes) :
    (oneBlock now signature).ledger.records = [transferRecord now signature] := by
  have hrun := run_append (C := acceptingCrypto) (S := BlockRecord.codec.serde) (w := .ok)
    (b := .open acceptingCrypto BlockRecord.codec.serde []) (r := transferRecord now signature) rfl rfl
  rw [oneBlock, hrun]
  rfl

theorem listsFit_transferTx (signature : Bytes) : (transferTx signature).ListsFit where
  accountKeys := show 1 < 2 ^ 32 by decide
  instructions ix hix := by
    obtain rfl := List.mem_singleton.mp hix
    exact ⟨by decide, by decide⟩

theorem hashInputs_transferRecord (now : UInt64) (signature : Bytes) :
    hashInputs acceptingCrypto [transferRecord now signature] =
      [(transferRecord 0 []).preimage acceptingCrypto, (transferTx []).message] := rfl

theorem injOn_twice {f : Bytes → Bytes32} {p m : Bytes} (h : f p ≠ f m) :
    Set.InjOn f {x | x ∈ [p, m] ++ [p, m]} := by
  intro x hx y hy hxy
  have hmem : ∀ z ∈ [p, m] ++ [p, m], z = p ∨ z = m := by simp
  obtain rfl | rfl := hmem x hx
  · obtain rfl | rfl := hmem y hy
    · rfl
    · exact absurd hxy h
  · obtain rfl | rfl := hmem y hy
    · exact absurd hxy.symm h
    · rfl

theorem transferRecord_at_two_clocks :
    (oneBlock 1 [1]).ledger.records = [transferRecord 1 [1]] ∧
      (oneBlock 2 [2]).ledger.records = [transferRecord 2 [2]] ∧
      [(transferRecord 1 [1]).contents] = [(transferRecord 2 [2]).contents] := by
  have hne : acceptingCrypto.sha256 ((transferRecord 0 []).preimage acceptingCrypto) ≠
      acceptingCrypto.sha256 (transferTx []).message := by decide +kernel
  have hzero : ∀ x ∈ [(transferRecord 0 []).preimage acceptingCrypto, (transferTx []).message],
      acceptingCrypto.sha256 x ≠ genesisParent := by decide +kernel
  have hcommits := tip_commits_to_ledger (reached_oneBlock 1 [1]) (reached_oneBlock 2 [2])
  rw [Ledger.tip, Ledger.tip, records_oneBlock, records_oneBlock, hashInputs_transferRecord,
    hashInputs_transferRecord] at hcommits
  refine ⟨records_oneBlock 1 [1], records_oneBlock 2 [2], hcommits (injOn_twice hne) ?_ ?_ rfl⟩
  · intro x hx
    exact hzero x ((List.mem_append.mp hx).elim id id)
  · intro r hr tx htx
    obtain rfl | rfl := (List.mem_append.mp hr).imp List.mem_singleton.mp List.mem_singleton.mp
    · obtain rfl := List.mem_singleton.mp htx
      exact listsFit_transferTx [1]
    · obtain rfl := List.mem_singleton.mp htx
      exact listsFit_transferTx [2]

end TrustNode.Blockstore
