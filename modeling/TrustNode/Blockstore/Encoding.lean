import TrustNode.Blockstore.Record
import TrustNode.TxProcessor.Message

namespace TrustNode.Blockstore.BlockRecord

open Bytes
open TrustNode.TxProcessor

def header (r : BlockRecord) :
    Bytes32 × UInt64 × UInt64 × Bytes32 × UInt64 × UInt64 × Bytes32 :=
  (r.parentHash, r.slot, r.height, r.pohHash, r.entryCount, r.txCount, r.stateRoot)

def headerCodec : Codec (Bytes32 × UInt64 × UInt64 × Bytes32 × UInt64 × UInt64 × Bytes32) :=
  Codec.bytes32.pair (Codec.u64.pair (Codec.u64.pair (Codec.bytes32.pair (Codec.u64.pair
    (Codec.u64.pair Codec.bytes32)))))

def codec : Codec BlockRecord :=
  (headerCodec.pair (Codec.bytes32.pair (Transaction.codec.counted.pair Codec.u64))).imap
    (fun p => ⟨p.1.2.1, p.1.2.2.1, p.1.1, p.2.1, p.1.2.2.2.1, p.1.2.2.2.2.2.2, p.1.2.2.2.2.1,
      p.1.2.2.2.2.2.1, p.2.2.1, p.2.2.2⟩)
    (fun r => (r.header, r.blockHash, r.transactions, r.timestampMs)) fun _ => rfl

theorem headerCodec_valid (x : Bytes32 × UInt64 × UInt64 × Bytes32 × UInt64 × UInt64 × Bytes32) :
    headerCodec.valid x :=
  ⟨trivial, trivial, trivial, trivial, trivial, trivial, trivial⟩

theorem codec_valid {r : BlockRecord} (hlen : r.transactions.length < 2 ^ 32)
    (h : ∀ tx ∈ r.transactions, Transaction.codec.valid tx) : codec.valid r :=
  ⟨headerCodec_valid _, trivial, ⟨hlen, h⟩, trivial⟩

def preimage (C : Crypto) (r : BlockRecord) : Bytes :=
  headerCodec.write r.header ++ (r.transactions.map (Transaction.hash C)).flatMap Codec.bytes32.write

def contents (r : BlockRecord) : BlockRecord :=
  { r with transactions := r.transactions.map Transaction.unsigned, timestampMs := 0 }

theorem verifyHash_iff {C : Crypto} {r : BlockRecord} :
    r.verifyHash C = true ↔ r.blockHash = C.sha256 (r.preimage C) := by
  have hpreimage : r.preimage C = r.parentHash.toList ++ u64ToLe r.slot ++ u64ToLe r.height ++
      r.pohHash.toList ++ u64ToLe r.entryCount ++ u64ToLe r.txCount ++ r.stateRoot.toList ++
        r.transactions.flatMap fun tx => (tx.hash C).toList := by
    rw [preimage, List.flatMap_map]
    simp only [headerCodec, header, Codec.pair, Codec.bytes32, Codec.u64, List.append_assoc]
  rw [verifyHash, beq_iff_eq, computeHash, hpreimage]

theorem preimage_inj {C : Crypto} {r r' : BlockRecord} (h : r.preimage C = r'.preimage C) :
    r.header = r'.header ∧
      r.transactions.map (Transaction.hash C) = r'.transactions.map (Transaction.hash C) := by
  have hne : ∀ hash : Bytes32, Codec.bytes32.write hash ≠ [] := by
    intro hash h
    have hlen := hash.length_eq
    rw [show hash.toList = [] from h] at hlen
    cases hlen
  obtain ⟨hheader, hrest⟩ := 
    headerCodec.write_append_inj (headerCodec_valid _) (headerCodec_valid _) h
  exact ⟨hheader, Codec.bytes32.flatMap_write_inj hne (fun _ _ => trivial) (fun _ _ => trivial) hrest⟩

end TrustNode.Blockstore.BlockRecord
