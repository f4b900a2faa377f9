import TrustNode.Base.Sha256
import TrustNode.Poh.Entry

namespace TrustNode.Poh

open Bytes

namespace EntryData

def shape : EntryData → Option (List (ℕ × ℕ))
  | tick => none
  | transactions txs => some (txs.map fun tx => (tx.transaction.length, tx.signature.length))

theorem transactions_eq {txs txs' : List TransactionEntry}
    (hbytes : (transactions txs).bytes = (transactions txs').bytes)
    (hshape : (transactions txs).shape = (transactions txs').shape) : txs = txs' := by
  simp only [shape, Option.some.injEq] at hshape
  induction txs generalizing txs' with
  | nil => exact (List.map_eq_nil_iff.mp hshape.symm).symm
  | cons tx rest ih =>
    cases txs' with
    | nil => cases hshape
    | cons tx' rest' =>
      obtain ⟨hlengths, hrest⟩ := List.cons.inj hshape
      obtain ⟨htransaction, hsignature⟩ := Prod.mk.inj hlengths
      simp only [bytes, List.flatMap_cons, List.append_assoc] at hbytes
      obtain ⟨ht, htail⟩ := List.append_inj hbytes htransaction
      obtain ⟨hs, hothers⟩ := List.append_inj htail hsignature
      obtain ⟨transaction, signature⟩ := tx
      obtain ⟨transaction', signature'⟩ := tx'
      obtain rfl : transaction = transaction' := ht
      obtain rfl : signature = signature' := hs
      rw [ih hothers hrest]

theorem eq_iff (data data' : EntryData) :
    data.bytes = data'.bytes ∧ data.shape = data'.shape ↔ data = data' := by
  constructor
  · rintro ⟨hbytes, hshape⟩
    cases data with
    | tick =>
      cases data' with
      | tick => rfl
      | transactions txs' => cases hshape
    | transactions txs =>
      cases data' with
      | tick => cases hshape
      | transactions txs' => rw [transactions_eq hbytes hshape]
  · rintro rfl
    exact ⟨rfl, rfl⟩

end EntryData

namespace PohEntry

def preimage (C : Crypto) (e : PohEntry) : Bytes :=
  (PohHasher.hashChain C e.prevHash e.numHashes.toNat).toList ++ u64ToLe e.slot ++
    u64ToLe e.index ++ e.data.bytes

structure SamePosition (e e' : PohEntry) : Prop where
  prevHash : e.prevHash = e'.prevHash
  numHashes : e.numHashes = e'.numHashes
  slot : e.slot = e'.slot
  index : e.index = e'.index

theorem SamePosition.preimage_eq_iff {C : Crypto} {e e' : PohEntry} (h : SamePosition e e') :
    e.preimage C = e'.preimage C ↔ e.data.bytes = e'.data.bytes := by
  rw [preimage, preimage, h.prevHash, h.numHashes, h.slot, h.index]
  exact List.append_right_inj _

theorem SamePosition.hash_eq_iff {C : Crypto} {e e' : PohEntry} (h : SamePosition e e')
    (hverify : e.verify C = true) (hverify' : e'.verify C = true)
    (hinj : Set.InjOn C.sha256 {e.preimage C, e'.preimage C}) :
    e.hash = e'.hash ↔ e.data.bytes = e'.data.bytes := by
  have hhash : e.hash = C.sha256 (e.preimage C) := beq_iff_eq.mp hverify
  have hhash' : e'.hash = C.sha256 (e'.preimage C) := beq_iff_eq.mp hverify'
  rw [hhash, hhash', hinj.eq_iff (.inl rfl) (.inr rfl), h.preimage_eq_iff]

theorem hash_commits_to_payload (C : Crypto) (e e' : PohEntry) (hposition : SamePosition e e')
    (hverify : e.verify C = true) (hverify' : e'.verify C = true)
    (hinj : Set.InjOn C.sha256 {e.preimage C, e'.preimage C}) :
    (e.hash = e'.hash → e.data = e'.data) ↔
      (e.data.bytes = e'.data.bytes → e.data.shape = e'.data.shape) := by
  rw [hposition.hash_eq_iff hverify hverify' hinj, ← EntryData.eq_iff]
  exact forall_congr' fun hbytes => and_iff_right hbytes

def recorded (data : EntryData) : PohEntry := sealed acceptingCrypto (Bytes32.splat 1) 2 3 4 data

theorem recorded_samePosition (data data' : EntryData) :
    SamePosition (recorded data) (recorded data') := ⟨rfl, rfl, rfl, rfl⟩

theorem swapped_signature_changes_hash :
    (recorded (.transactions [⟨[1, 2], [3]⟩])).hash ≠
      (recorded (.transactions [⟨[1, 2], [4]⟩])).hash := by
  have hinj : Set.InjOn acceptingCrypto.sha256
      {(recorded (.transactions [⟨[1, 2], [3]⟩])).preimage acceptingCrypto,
        (recorded (.transactions [⟨[1, 2], [4]⟩])).preimage acceptingCrypto} := by
    have hne : acceptingCrypto.sha256
          ((recorded (.transactions [⟨[1, 2], [3]⟩])).preimage acceptingCrypto) ≠
        acceptingCrypto.sha256
          ((recorded (.transactions [⟨[1, 2], [4]⟩])).preimage acceptingCrypto) := by
      decide +kernel
    rintro x (rfl | rfl) y (rfl | rfl) heq
    · rfl
    · exact absurd heq hne
    · exact absurd heq.symm hne
    · rfl
  have hcommits := (hash_commits_to_payload acceptingCrypto _ _ (recorded_samePosition _ _)
    (verify_sealed _ _ _ _ _ _) (verify_sealed _ _ _ _ _ _) hinj).mpr fun _ => rfl
  exact fun hhash => absurd (hcommits hhash) (by decide)

def SharesHash (C : Crypto) (data data' : EntryData) : Prop :=
  ∃ e e' : PohEntry, SamePosition e e' ∧ e.verify C = true ∧ e'.verify C = true ∧
    Set.InjOn C.sha256 {e.preimage C, e'.preimage C} ∧ e.hash = e'.hash ∧ e.data = data ∧
    e'.data = data'

theorem sharesHash_of_bytes_eq {data data' : EntryData} (h : data.bytes = data'.bytes) :
    SharesHash acceptingCrypto data data' := by
  have hposition := recorded_samePosition data data'
  have hpreimage := (hposition.preimage_eq_iff (C := acceptingCrypto)).mpr h
  have hinj : Set.InjOn acceptingCrypto.sha256
      {(recorded data).preimage acceptingCrypto, (recorded data').preimage acceptingCrypto} := by
    rw [hpreimage, Set.pair_eq_singleton]
    exact Set.injOn_singleton _ _
  have hverify := verify_sealed acceptingCrypto (Bytes32.splat 1) 2 3 4 data
  have hverify' := verify_sealed acceptingCrypto (Bytes32.splat 1) 2 3 4 data'
  exact ⟨recorded data, recorded data', hposition, hverify, hverify', hinj,
    (hposition.hash_eq_iff hverify hverify' hinj).mpr h, rfl, rfl⟩

theorem moved_boundary_keeps_hash :
    SharesHash acceptingCrypto (.transactions [⟨[1, 2], [3]⟩]) (.transactions [⟨[1], [2, 3]⟩]) ∧
      SharesHash acceptingCrypto .tick (.transactions [⟨[116, 105, 99, 107], []⟩]) ∧
      SharesHash acceptingCrypto (.transactions []) (.transactions [⟨[], []⟩]) :=
  ⟨sharesHash_of_bytes_eq rfl, sharesHash_of_bytes_eq rfl, sharesHash_of_bytes_eq rfl⟩

end PohEntry

end TrustNode.Poh
