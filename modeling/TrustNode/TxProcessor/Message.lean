import TrustNode.Base.Codec
import TrustNode.TxProcessor.Transaction

namespace TrustNode.TxProcessor

open TrustNode.Accounts

def AccountMeta.codec : Codec AccountMeta :=
  (Codec.byte.pair (Codec.flag.pair Codec.flag)).imap (fun p => ⟨p.1, p.2.1, p.2.2⟩)
    (fun m => (m.index, m.isSigner, m.isWritable)) fun _ => rfl

namespace Instruction

def codec : Codec Instruction :=
  (Codec.bytes32.pair (AccountMeta.codec.counted.pair Codec.blob)).imap
    (fun p => ⟨p.1, p.2.1, p.2.2⟩) (fun ix => (ix.programId, ix.accounts, ix.data)) fun _ => rfl

theorem codec_write : codec.write = message := by
  funext ix
  simp only [codec, Codec.imap, Codec.pair, Codec.counted, Codec.blob, Codec.bytes32, message,
    List.append_assoc]
  rfl

theorem codec_write_ne_nil (ix : Instruction) : codec.write ix ≠ [] := by
  intro h
  have hlen := congrArg List.length h
  simp only [codec, Codec.length_write_imap, Codec.length_write_pair, Codec.length_write_bytes32,
    List.length_nil] at hlen
  omega

structure ListsFit (ix : Instruction) : Prop where
  accounts : ix.accounts.length < 2 ^ 32
  data : ix.data.length < 2 ^ 32

theorem ListsFit.codec_valid {ix : Instruction} (h : ix.ListsFit) : codec.valid ix :=
  ⟨trivial, ⟨h.accounts, fun _ _ => ⟨trivial, trivial, trivial⟩⟩, h.data⟩

end Instruction

namespace Transaction

def header (tx : Transaction) : Pubkey × Bytes32 × UInt64 × UInt64 × List Pubkey :=
  (tx.signer, tx.recentBlockhash, tx.fee, tx.computeBudget, tx.accountKeys)

def headerCodec : Codec (Pubkey × Bytes32 × UInt64 × UInt64 × List Pubkey) :=
  Codec.bytes32.pair (Codec.bytes32.pair (Codec.u64.pair (Codec.u64.pair Codec.bytes32.counted)))

def codec : Codec Transaction :=
  (Codec.blob.pair (headerCodec.pair Instruction.codec.counted)).imap
    (fun p => ⟨p.1, p.2.1.1, p.2.1.2.2.2.2, p.2.2, p.2.1.2.1, p.2.1.2.2.2.1, p.2.1.2.2.1⟩)
    (fun tx => (tx.signature, tx.header, tx.instructions)) fun _ => rfl

def unsigned (tx : Transaction) : Transaction := { tx with signature := [] }

structure ListsFit (tx : Transaction) : Prop where
  accountKeys : tx.accountKeys.length < 2 ^ 32
  instructions : ∀ ix ∈ tx.instructions, ix.ListsFit

theorem ListsFit.header_valid {tx : Transaction} (h : tx.ListsFit) : headerCodec.valid tx.header :=
  ⟨trivial, trivial, trivial, trivial, h.accountKeys, fun _ _ => trivial⟩

theorem ListsFit.codec_valid {tx : Transaction} (h : tx.ListsFit)
    (hsignature : tx.signature.length < 2 ^ 32) (hinstructions : tx.instructions.length < 2 ^ 32) :
    codec.valid tx :=
  ⟨hsignature, h.header_valid, hinstructions, fun ix hix => (h.instructions ix hix).codec_valid⟩

theorem message_eq (tx : Transaction) :
    tx.message = headerCodec.write tx.header ++ tx.instructions.flatMap Instruction.codec.write := by
  rw [Instruction.codec_write]
  simp only [message, headerCodec, header, Codec.pair, Codec.counted, Codec.bytes32, Codec.u64,
    List.append_assoc]

theorem message_inj {tx tx' : Transaction} (htx : tx.ListsFit) (htx' : tx'.ListsFit)
    (h : tx.message = tx'.message) : tx.unsigned = tx'.unsigned := by
  rw [message_eq, message_eq] at h
  obtain ⟨hheader, hrest⟩ := headerCodec.write_append_inj htx.header_valid htx'.header_valid h
  have hinstructions := Instruction.codec.flatMap_write_inj Instruction.codec_write_ne_nil
    (fun ix hix => (htx.instructions ix hix).codec_valid)
    (fun ix hix => (htx'.instructions ix hix).codec_valid) hrest
  simp only [header, Prod.mk.injEq] at hheader
  obtain ⟨hsigner, hblockhash, hfee, hbudget, hkeys⟩ := hheader
  rw [unsigned, unsigned, hsigner, hblockhash, hfee, hbudget, hkeys, hinstructions]

theorem message_eq_iff {tx tx' : Transaction} (htx : tx.ListsFit) (htx' : tx'.ListsFit) :
    tx.message = tx'.message ↔ tx.unsigned = tx'.unsigned := by
  refine ⟨message_inj htx htx', fun h => ?_⟩
  change tx.unsigned.message = tx'.unsigned.message
  rw [h]

theorem signed_preimage_injective (C : Crypto) (tx tx' : Transaction) (htx : tx.ListsFit)
    (htx' : tx'.ListsFit) :
    (tx.message = tx'.message ↔ tx.unsigned = tx'.unsigned) ∧
      (Set.InjOn C.sha256 {tx.message, tx'.message} →
        (tx.hash C = tx'.hash C ↔ tx.unsigned = tx'.unsigned)) := by
  have hiff := message_eq_iff htx htx'
  refine ⟨hiff, fun hinj => ?_⟩
  rw [← hiff]
  exact hinj.eq_iff (.inl rfl) (.inr rfl)

def carrying (instructions : List Bytes) : Transaction :=
  .new (Bytes32.splat 1) (instructions.map fun data => ⟨Bytes32.splat 9, [⟨0, true, true⟩], data⟩)
    (Bytes32.splat 2)

theorem carrying_listsFit {instructions : List Bytes}
    (h : ∀ data ∈ instructions, data.length < 2 ^ 32) : (carrying instructions).ListsFit where
  accountKeys := by simp [carrying, new]
  instructions := by
    intro ix hix
    obtain ⟨data, hdata, rfl⟩ := List.mem_map.mp hix
    exact ⟨by simp, h data hdata⟩

theorem split_data_changes_message :
    (carrying [[1, 2]]).message ≠ (carrying [[1], [2]]).message := by
  have hiff := (signed_preimage_injective .successor (carrying [[1, 2]]) (carrying [[1], [2]])
    (carrying_listsFit (by decide)) (carrying_listsFit (by decide))).1
  exact fun heq => absurd (hiff.mp heq) (by decide)

end Transaction

end TrustNode.TxProcessor
