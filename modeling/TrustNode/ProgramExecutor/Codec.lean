import TrustNode.Base.Decoding
import TrustNode.ProgramExecutor.Instruction

namespace TrustNode.ProgramExecutor

open Bytes
open TrustNode.Accounts

def invalidData {α : Type} (msg : String) : Option (Except InstructionError α) :=
  some (.error (.invalidInstructionData msg))

section Payloads

variable {α : Type} {e : InstructionError} {tag : UInt8} {body : Bytes} {a : α}

theorem amount_eq_ok {build : UInt64 → α} :
    (if (tag :: body).length < 9 then Except.error e
      else .ok (build (u64FromLe (((tag :: body).drop 1).take 8)))) = .ok a ↔
      ∃ amount, build amount = a ∧ u64ToLe amount <+: body := by
  simp only [u64ToLe_isPrefix, List.length_cons, Nat.succ_lt_succ_iff, List.drop_one, List.tail_cons]
  split_ifs with hshort
  · simp only [false_iff, not_exists, not_and]
    intro amount _ hlen
    omega
  · simp only [Except.ok.injEq]
    constructor
    · intro h
      exact ⟨_, h, Nat.not_lt.mp hshort, rfl⟩
    · rintro ⟨amount, h, -, rfl⟩
      exact h

theorem key_eq_ok {build : Pubkey → α} :
    (if h : (tag :: body).length < 33 then Except.error e
      else .ok (build (Bytes32.slice (tag :: body) 1 (by omega)))) = .ok a ↔
      ∃ key, build key = a ∧ key.toList <+: body := by
  simp only [bytes32_isPrefix]
  split_ifs with hshort
  · simp only [false_iff, not_exists, not_and]
    intro key _ hlen
    rw [List.length_cons] at hshort
    omega
  · simp only [Except.ok.injEq]
    constructor
    · intro h
      exact ⟨_, h, Nat.not_lt.mp fun hlt => hshort (Nat.succ_lt_succ hlt), rfl⟩
    · rintro ⟨key, rfl, -, hkey⟩
      exact congrArg build (Bytes32.toList_injective hkey)

theorem amountChecked_eq (data : Bytes) (msg : String) (build : UInt64 → α) :
    (if data.length < 9 then invalidData msg
      else ((sliceChecked data 1 9).bind u64Checked).map fun amount => .ok (build amount)) =
      some (if data.length < 9 then .error (.invalidInstructionData msg)
        else .ok (build (u64FromLe ((data.drop 1).take 8)))) := by
  split_ifs with hshort
  · rfl
  · rw [sliceChecked_u64 data 1 (by omega)]
    rfl

theorem keyChecked_eq (data : Bytes) (msg : String) (build : Pubkey → α) :
    (if data.length < 33 then invalidData msg
      else ((sliceChecked data 1 33).bind bytes32Checked).map fun key => .ok (build key)) =
      some (if h : data.length < 33 then .error (.invalidInstructionData msg)
        else .ok (build (Bytes32.slice data 1 (Nat.not_lt.mp h)))) := by
  split_ifs with hshort
  · rfl
  · rw [sliceChecked_bytes32 data 1 (by omega)]
    rfl

end Payloads

namespace SystemInstruction

def fromDataIndexed (data : Bytes) : Option (Except InstructionError SystemInstruction) :=
  if data.isEmpty then invalidData "Empty instruction data"
  else
    data[0]?.bind fun tag =>
      match tag.toNat with
      | 2 =>
        if data.length < 9 then invalidData "Transfer requires 8 bytes"
        else ((sliceChecked data 1 9).bind u64Checked).map fun lamports => .ok (.transfer lamports)
      | 0 =>
        if data.length < 49 then invalidData "CreateAccount requires 49 bytes"
        else
          ((sliceChecked data 1 9).bind u64Checked).bind fun lamports =>
            ((sliceChecked data 9 17).bind u64Checked).bind fun space =>
              ((sliceChecked data 17 49).bind bytes32Checked).map fun owner =>
                .ok (.createAccount lamports space owner)
      | 1 =>
        if data.length < 33 then invalidData "Assign requires 32 bytes"
        else ((sliceChecked data 1 33).bind bytes32Checked).map fun owner => .ok (.assign owner)
      | 7 => some (.ok .nonceInitialize)
      | other => invalidData s!"Unknown system instruction: {other}"

theorem fromDataIndexed_eq (data : Bytes) : fromDataIndexed data = some (fromData data) := by
  cases data with
  | nil => rfl
  | cons tag body =>
    rw [fromDataIndexed, if_neg (by simp), List.getElem?_cons_zero, Option.bind_some]
    unfold fromData
    dsimp only
    generalize tag.toNat = n
    split
    · exact amountChecked_eq _ _ _
    · by_cases hshort : (tag :: body).length < 49
      · rw [if_pos hshort, dif_pos hshort]
        rfl
      · rw [if_neg hshort, dif_neg hshort, sliceChecked_u64 _ 1 (by omega), Option.bind_some,
          sliceChecked_u64 _ 9 (by omega), Option.bind_some, sliceChecked_bytes32 _ 17 (by omega)]
        rfl
    · exact keyChecked_eq _ _ _
    · rfl
    · simp only [invalidData]

theorem createAccount_eq_ok {e : InstructionError} {tag : UInt8} {body : Bytes}
    {ix : SystemInstruction} :
    (if h : (tag :: body).length < 49 then Except.error e
      else .ok (.createAccount (u64FromLe (((tag :: body).drop 1).take 8))
        (u64FromLe (((tag :: body).drop 9).take 8))
        (Bytes32.slice (tag :: body) 17 (by omega)))) = .ok ix ↔
      ∃ lamports space owner, .createAccount lamports space owner = ix ∧
        u64ToLe lamports ++ u64ToLe space ++ owner.toList <+: body := by
  have hsplit : ∀ lamports space (owner : Pubkey),
      u64ToLe lamports ++ u64ToLe space ++ owner.toList <+: body ↔
        (u64ToLe lamports <+: body ∧ u64ToLe space <+: body.drop 8) ∧
          owner.toList <+: body.drop 16 := by
    intro lamports space owner
    rw [append_isPrefix (n := 16) (by simp), append_isPrefix (n := 8) (by simp)]
  simp only [hsplit, u64ToLe_isPrefix, bytes32_isPrefix, List.length_drop]
  split_ifs with hshort
  · simp only [false_iff, not_exists, not_and]
    intro lamports space owner _ _ hlen
    rw [List.length_cons] at hshort
    omega
  · rw [List.length_cons] at hshort
    simp only [Except.ok.injEq]
    constructor
    · intro h
      exact ⟨_, _, _, h, ⟨⟨by omega, rfl⟩, by omega, rfl⟩, by omega, rfl⟩
    · rintro ⟨lamports, space, owner, rfl, ⟨⟨-, rfl⟩, -, rfl⟩, -, howner⟩
      exact congrArg _ (Bytes32.toList_injective howner)

theorem tag_of_isPrefix {ix : SystemInstruction} {tag : UInt8} {body : Bytes}
    (h : ix.toData <+: tag :: body) :
    tag.toNat = 2 ∨ tag.toNat = 0 ∨ tag.toNat = 1 ∨ tag.toNat = 7 := by
  cases ix <;> obtain ⟨rfl, -⟩ := List.cons_prefix_cons.mp h <;> decide

theorem fromData_eq_ok (data : Bytes) (ix : SystemInstruction) :
    fromData data = .ok ix ↔ ix.toData <+: data := by
  cases data with
  | nil => cases ix <;> simp [fromData, toData]
  | cons tag body =>
    unfold fromData
    dsimp only
    split
    · next htag =>
      obtain rfl : tag = 2 := UInt8.toNat_inj.mp htag
      rw [amount_eq_ok]
      cases ix <;> simp [toData, List.cons_prefix_cons]
    · next htag =>
      obtain rfl : tag = 0 := UInt8.toNat_inj.mp htag
      rw [createAccount_eq_ok]
      cases ix <;> simp [toData, List.cons_prefix_cons]
    · next htag =>
      obtain rfl : tag = 1 := UInt8.toNat_inj.mp htag
      rw [key_eq_ok]
      cases ix <;> simp [toData, List.cons_prefix_cons]
    · next htag =>
      obtain rfl : tag = 7 := UInt8.toNat_inj.mp htag
      cases ix <;> simp [toData, List.cons_prefix_cons]
    · next h2 h0 h1 h7 =>
      refine iff_of_false (by simp) fun h => ?_
      obtain htag | htag | htag | htag := tag_of_isPrefix h
      · exact h2 htag
      · exact h0 htag
      · exact h1 htag
      · exact h7 htag

theorem prefixDecodes : PrefixDecodes toData fromData := ⟨fromData_eq_ok⟩

end SystemInstruction

namespace TokenInstruction

def amountIndexed (name : String) (data : Bytes) (build : UInt64 → TokenInstruction) :
    Option (Except InstructionError TokenInstruction) :=
  if data.length < 9 then invalidData (name ++ " requires 8 bytes")
  else ((sliceChecked data 1 9).bind u64Checked).map fun amount => .ok (build amount)

def fromDataIndexed (data : Bytes) : Option (Except InstructionError TokenInstruction) :=
  if data.isEmpty then invalidData "Empty token instruction"
  else
    data[0]?.bind fun tag =>
      match tag.toNat with
      | 0 =>
        if data.length < 33 then invalidData "InitializeAccount requires 32-byte mint"
        else
          ((sliceChecked data 1 33).bind bytes32Checked).map fun mint => .ok (.initializeAccount mint)
      | 1 => some (.ok .initializeMint)
      | 3 => amountIndexed "Transfer" data .transfer
      | 7 => amountIndexed "MintTo" data .mintTo
      | 8 => amountIndexed "Burn" data .burn
      | other => invalidData s!"Unknown token instruction: {other}"

theorem amountIndexed_eq (name : String) (data : Bytes) (build : UInt64 → TokenInstruction) :
    amountIndexed name data build = some (amountData name data build) :=
  amountChecked_eq data _ build

theorem fromDataIndexed_eq (data : Bytes) : fromDataIndexed data = some (fromData data) := by
  cases data with
  | nil => rfl
  | cons tag body =>
    rw [fromDataIndexed, if_neg (by simp), List.getElem?_cons_zero, Option.bind_some]
    unfold fromData
    dsimp only
    generalize tag.toNat = n
    split
    · exact keyChecked_eq _ _ _
    · rfl
    · exact amountIndexed_eq _ _ _
    · exact amountIndexed_eq _ _ _
    · exact amountIndexed_eq _ _ _
    · simp only [invalidData]

theorem tag_of_isPrefix {ix : TokenInstruction} {tag : UInt8} {body : Bytes}
    (h : ix.toData <+: tag :: body) :
    tag.toNat = 0 ∨ tag.toNat = 1 ∨ tag.toNat = 3 ∨ tag.toNat = 7 ∨ tag.toNat = 8 := by
  cases ix <;> obtain ⟨rfl, -⟩ := List.cons_prefix_cons.mp h <;> decide

theorem fromData_eq_ok (data : Bytes) (ix : TokenInstruction) :
    fromData data = .ok ix ↔ ix.toData <+: data := by
  cases data with
  | nil => cases ix <;> simp [fromData, toData]
  | cons tag body =>
    unfold fromData amountData
    dsimp only
    split
    · next htag =>
      obtain rfl : tag = 0 := UInt8.toNat_inj.mp htag
      rw [key_eq_ok]
      cases ix <;> simp [toData, List.cons_prefix_cons]
    · next htag =>
      obtain rfl : tag = 1 := UInt8.toNat_inj.mp htag
      cases ix <;> simp [toData, List.cons_prefix_cons]
    · next htag =>
      obtain rfl : tag = 3 := UInt8.toNat_inj.mp htag
      rw [amount_eq_ok]
      cases ix <;> simp [toData, List.cons_prefix_cons]
    · next htag =>
      obtain rfl : tag = 7 := UInt8.toNat_inj.mp htag
      rw [amount_eq_ok]
      cases ix <;> simp [toData, List.cons_prefix_cons]
    · next htag =>
      obtain rfl : tag = 8 := UInt8.toNat_inj.mp htag
      rw [amount_eq_ok]
      cases ix <;> simp [toData, List.cons_prefix_cons]
    · next h0 h1 h3 h7 h8 =>
      refine iff_of_false (by simp) fun h => ?_
      obtain htag | htag | htag | htag | htag := tag_of_isPrefix h
      · exact h0 htag
      · exact h1 htag
      · exact h3 htag
      · exact h7 htag
      · exact h8 htag

theorem prefixDecodes : PrefixDecodes toData fromData := ⟨fromData_eq_ok⟩

end TokenInstruction

structure ExactCodec {α : Type} (toData : α → Bytes) (fromData : Bytes → Except InstructionError α)
    (fromDataIndexed : Bytes → Option (Except InstructionError α)) : Prop where
  never_panics : ∀ data, fromDataIndexed data = some (fromData data)
  ok_iff : ∀ data ix, fromData data = .ok ix ↔ toData ix <+: data
  prefix_free : ∀ ix ix', toData ix <+: toData ix' → ix = ix'
  round_trip : ∀ ix, fromData (toData ix) = .ok ix

theorem ExactCodec.of_prefixDecodes {α : Type} {toData : α → Bytes}
    {fromData : Bytes → Except InstructionError α}
    {fromDataIndexed : Bytes → Option (Except InstructionError α)}
    (hindexed : ∀ data, fromDataIndexed data = some (fromData data))
    (h : PrefixDecodes toData fromData) : ExactCodec toData fromData fromDataIndexed where
  never_panics := hindexed
  ok_iff := h.ok_iff
  prefix_free := fun _ _ => h.eq_of_isPrefix
  round_trip := h.round_trip

theorem instruction_codecs_exact :
    ExactCodec SystemInstruction.toData SystemInstruction.fromData SystemInstruction.fromDataIndexed ∧
      ExactCodec TokenInstruction.toData TokenInstruction.fromData TokenInstruction.fromDataIndexed :=
  ⟨.of_prefixDecodes SystemInstruction.fromDataIndexed_eq SystemInstruction.prefixDecodes,
    .of_prefixDecodes TokenInstruction.fromDataIndexed_eq TokenInstruction.prefixDecodes⟩

end TrustNode.ProgramExecutor
