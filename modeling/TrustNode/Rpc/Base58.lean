import TrustNode.Base.Bytes
import TrustNode.Base.Positional

namespace TrustNode.Rpc

open Positional

def alphabet : List Char :=
  "123456789ABCDEFGHJKLMNPQRSTUVWXYZabcdefghijkmnopqrstuvwxyz".toList

def carryInto (carry : ℕ) : List UInt8 → List UInt8 × ℕ
  | [] => ([], carry)
  | digit :: rest =>
    let carry := carry + 256 * digit.toNat
    let (rest, out) := carryInto (carry / 58) rest
    (UInt8.ofNat (carry % 58) :: rest, out)

def pushCarry : ℕ → ℕ → List UInt8
  | 0, _ => []
  | fuel + 1, carry =>
    if 0 < carry then UInt8.ofNat (carry % 58) :: pushCarry fuel (carry / 58) else []

def addByte (digits : List UInt8) (byte : UInt8) : List UInt8 :=
  let (digits, carry) := carryInto byte.toNat digits
  digits ++ pushCarry carry carry

def zeros (bytes : Bytes) : ℕ := (bytes.takeWhile (· = 0)).length

def base58Digits (bytes : Bytes) : List UInt8 := (bytes.drop (zeros bytes)).foldl addByte []

def bs58Encode (bytes : Bytes) : Option String :=
  if bytes = [] then some ""
  else
    ((base58Digits bytes).reverse.mapM fun digit => alphabet[digit.toNat]?).map fun chars =>
      String.ofList (List.replicate (zeros bytes) '1' ++ chars)

section Loop

theorem toNat_ofNat_mod (x : ℕ) : (UInt8.ofNat (x % 58)).toNat = x % 58 := by
  rw [UInt8.toNat_ofNat']
  omega

theorem carryInto_eq (carry : ℕ) (digits : List UInt8) :
    (carryInto carry digits).1.map UInt8.toNat = (carryLoop 58 256 carry (digits.map UInt8.toNat)).1 ∧
      (carryInto carry digits).2 = (carryLoop 58 256 carry (digits.map UInt8.toNat)).2 := by
  induction digits generalizing carry with
  | nil => exact ⟨rfl, rfl⟩
  | cons digit rest ih =>
    obtain ⟨hdigits, hcarry⟩ := ih ((carry + 256 * digit.toNat) / 58)
    refine ⟨?_, hcarry⟩
    rw [carryInto, List.map_cons, List.map_cons, toNat_ofNat_mod, hdigits]
    rfl

theorem pushCarry_eq {fuel carry : ℕ} (h : carry ≤ fuel) :
    (pushCarry fuel carry).map UInt8.toNat = Nat.digits 58 carry := by
  induction fuel generalizing carry with
  | zero =>
    obtain rfl := Nat.le_zero.mp h
    rfl
  | succ fuel ih =>
    rw [pushCarry]
    split_ifs with hpos
    · have hless := Nat.div_lt_self hpos (show 1 < 58 by decide)
      rw [List.map_cons, toNat_ofNat_mod, ih (by omega), Nat.digits_def' (by decide) hpos]
    · obtain rfl := Nat.eq_zero_of_not_pos hpos
      rfl

theorem addByte_digits {digits : List UInt8} {v : ℕ}
    (h : digits.map UInt8.toNat = Nat.digits 58 v) (byte : UInt8) :
    (addByte digits byte).map UInt8.toNat = Nat.digits 58 (byte.toNat + 256 * v) := by
  obtain ⟨hdigits, hcarry⟩ := carryInto_eq byte.toNat digits
  rw [addByte, List.map_append, pushCarry_eq le_rfl, hdigits, hcarry, h]
  exact carryLoop_digits (by decide) (by decide) byte.toNat v

theorem foldl_addByte {digits : List UInt8} {v : ℕ} (h : digits.map UInt8.toNat = Nat.digits 58 v)
    (bytes : Bytes) :
    (bytes.foldl addByte digits).map UInt8.toNat =
      Nat.digits 58 ((bytes.map UInt8.toNat).foldl (fun v d => d + 256 * v) v) := by
  induction bytes generalizing digits v with
  | nil => exact h
  | cons byte rest ih => exact ih (addByte_digits h byte)

def integer (bytes : Bytes) : ℕ := bigEndian 256 (bytes.map UInt8.toNat)

theorem split_zeros (bytes : Bytes) :
    bytes = List.replicate (zeros bytes) 0 ++ bytes.drop (zeros bytes) ∧
      (bytes.drop (zeros bytes)).head? ≠ some 0 := eq_replicate_append_drop 0 bytes

theorem integer_eq (bytes : Bytes) : integer bytes = integer (bytes.drop (zeros bytes)) := by
  conv_lhs => rw [(split_zeros bytes).1, integer, List.map_append, List.map_replicate]
  exact bigEndian_replicate_zero_append _ _

theorem base58Digits_eq (bytes : Bytes) :
    (base58Digits bytes).map UInt8.toNat = Nat.digits 58 (integer bytes) := by
  rw [integer_eq, integer, bigEndian_eq_foldl]
  have hempty : ([] : List UInt8).map UInt8.toNat = Nat.digits 58 0 := (Nat.digits_zero 58).symm
  exact foldl_addByte hempty _

end Loop

section Symbols

theorem alphabet_nodup : alphabet.Nodup := by decide

theorem length_alphabet : alphabet.length = 58 := by decide

def symbol (d : ℕ) : Char := alphabet.getD d '1'

theorem getElem?_alphabet {d : ℕ} (h : d < 58) : alphabet[d]? = some (symbol d) := by
  have hd : d < alphabet.length := length_alphabet.symm ▸ h
  rw [symbol, List.getD_eq_getElem?_getD, List.getElem?_eq_getElem hd, Option.getD_some]

theorem eq_idxOf_alphabet {d : ℕ} {c : Char} (h : alphabet[d]? = some c) : d = alphabet.idxOf c := by
  obtain ⟨hd, rfl⟩ := List.getElem?_eq_some_iff.mp h
  exact (alphabet_nodup.idxOf_getElem d hd).symm

theorem mapM_of_forall {α β : Type} {f : α → Option β} {g : α → β} {l : List α}
    (h : ∀ a ∈ l, f a = some (g a)) : l.mapM f = some (l.map g) := by
  induction l with
  | nil => rfl
  | cons a l ih =>
    obtain ⟨ha, hl⟩ := List.forall_mem_cons.mp h
    rw [List.mapM_cons, ha, ih hl]
    rfl

end Symbols

structure IsBase58 (bytes : Bytes) (text : String) (digits : List ℕ) (chars : List Char) :
    Prop where
  digit : ∀ d ∈ digits, d < 58
  head : digits.head? ≠ some 0
  value : bigEndian 58 digits = integer bytes
  symbols : digits.map (fun d => alphabet[d]?) = chars.map some
  spelling : text = String.ofList (List.replicate (zeros bytes) '1' ++ chars)

section Correctness

theorem head?_digits_reverse (n : ℕ) : (Nat.digits 58 n).reverse.head? ≠ some 0 := by
  rcases eq_or_ne n 0 with rfl | hn
  · rw [Nat.digits_zero]
    exact Option.some_ne_none 0 |>.symm
  · rw [List.head?_reverse, List.getLast?_eq_some_getLast (Nat.digits_ne_nil_iff_ne_zero.mpr hn)]
    exact fun h => Nat.getLast_digit_ne_zero 58 hn (Option.some.inj h)

theorem isBase58_digits (bytes : Bytes) :
    IsBase58 bytes
      (String.ofList (List.replicate (zeros bytes) '1' ++
        (Nat.digits 58 (integer bytes)).reverse.map symbol))
      (Nat.digits 58 (integer bytes)).reverse
      ((Nat.digits 58 (integer bytes)).reverse.map symbol) := by
  have hdigit : ∀ d ∈ (Nat.digits 58 (integer bytes)).reverse, d < 58 := fun d hd =>
    Nat.digits_lt_base (by decide) (List.mem_reverse.mp hd)
  refine ⟨hdigit, head?_digits_reverse _, ?_, ?_, rfl⟩
  · rw [bigEndian, List.reverse_reverse, Nat.ofDigits_digits]
  · rw [List.map_map]
    exact List.map_congr_left fun d hd => getElem?_alphabet (hdigit d hd)

theorem bs58Encode_eq (bytes : Bytes) :
    bs58Encode bytes = some (String.ofList (List.replicate (zeros bytes) '1' ++
      (Nat.digits 58 (integer bytes)).reverse.map symbol)) := by
  have hdigits := base58Digits_eq bytes
  have hchars : (base58Digits bytes).reverse.mapM (fun digit => alphabet[digit.toNat]?) =
      some ((base58Digits bytes).reverse.map fun digit => symbol digit.toNat) := by
    refine mapM_of_forall fun digit hdigit => getElem?_alphabet ?_
    refine Nat.digits_lt_base (show 1 < 58 by decide) (m := integer bytes) ?_
    rw [← hdigits]
    exact List.mem_map_of_mem (List.mem_reverse.mp hdigit)
  rw [bs58Encode]
  split_ifs with hempty
  · subst hempty
    rw [integer, List.map_nil, bigEndian, List.reverse_nil, Nat.ofDigits_nil, Nat.digits_zero]
    rfl
  · rw [hchars, Option.map_some, ← hdigits, ← List.map_reverse, List.map_map]
    rfl

theorem digits_eq_map_idxOf {digits : List ℕ} {chars : List Char}
    (h : digits.map (fun d => alphabet[d]?) = chars.map some) :
    digits = chars.map alphabet.idxOf := by
  induction digits generalizing chars with
  | nil => rw [List.map_eq_nil_iff.mp h.symm, List.map_nil]
  | cons d digits ih =>
    cases chars with
    | nil => cases h
    | cons c chars =>
      rw [List.map_cons, List.map_cons, List.cons.injEq] at h
      rw [List.map_cons, eq_idxOf_alphabet h.1, ih h.2]

variable {bytes bytes' : Bytes} {text : String} {digits digits' : List ℕ} {chars chars' : List Char}

theorem IsBase58.head?_ne_one (h : IsBase58 bytes text digits chars) : chars.head? ≠ some '1' := by
  intro hone
  refine h.head ?_
  rw [digits_eq_map_idxOf h.symbols, List.head?_map, hone]
  rfl

theorem eq_of_integer_eq (hhead : bytes.head? ≠ some 0) (hhead' : bytes'.head? ≠ some 0)
    (h : integer bytes = integer bytes') : bytes = bytes' := by
  have hbyte : ∀ l : Bytes, ∀ d ∈ l.map UInt8.toNat, d < 256 := by
    intro l d hd
    obtain ⟨b, -, rfl⟩ := List.mem_map.mp hd
    exact b.toNat_lt
  have hnonzero : ∀ l : Bytes, l.head? ≠ some 0 → (l.map UInt8.toNat).head? ≠ some 0 := by
    intro l hl hzero
    rw [List.head?_map] at hzero
    obtain ⟨b, hb, hb0⟩ := Option.map_eq_some_iff.mp hzero
    exact hl (hb.trans (congrArg some (UInt8.toNat_inj.mp hb0)))
  have hnats := bigEndian_injective (by decide) (hbyte bytes) (hnonzero _ hhead) (hbyte bytes')
    (hnonzero _ hhead') h
  exact List.map_injective_iff.mpr (fun _ _ => UInt8.toNat_inj.mp) hnats

theorem eq_of_zeros_eq (hzeros : zeros bytes = zeros bytes') (h : integer bytes = integer bytes') :
    bytes = bytes' := by
  obtain ⟨hsplit, hhead⟩ := split_zeros bytes
  obtain ⟨hsplit', hhead'⟩ := split_zeros bytes'
  rw [integer_eq, integer_eq bytes'] at h
  calc bytes = List.replicate (zeros bytes) 0 ++ bytes.drop (zeros bytes) := hsplit
    _ = List.replicate (zeros bytes') 0 ++ bytes'.drop (zeros bytes') := by
      rw [eq_of_integer_eq hhead hhead' h, hzeros]
    _ = bytes' := hsplit'.symm

theorem IsBase58.injective (h : IsBase58 bytes text digits chars)
    (h' : IsBase58 bytes' text digits' chars') : bytes = bytes' := by
  have hspelling := String.ofList_injective (h.spelling.symm.trans h'.spelling)
  obtain ⟨hzeros, rfl⟩ := replicate_append_inj h.head?_ne_one h'.head?_ne_one hspelling
  have hdigits : digits = digits' := by
    rw [digits_eq_map_idxOf h.symbols, digits_eq_map_idxOf h'.symbols]
  refine eq_of_zeros_eq hzeros ?_
  rw [← h.value, ← h'.value, hdigits]

end Correctness

theorem bs58Encode_correct_and_injective (bytes : Bytes) :
    (∃ text digits chars, bs58Encode bytes = some text ∧ IsBase58 bytes text digits chars) ∧
      ∀ other, other ≠ bytes → bs58Encode other ≠ bs58Encode bytes := by
  refine ⟨⟨_, _, _, bs58Encode_eq bytes, isBase58_digits bytes⟩, fun other hne hsame => hne ?_⟩
  rw [bs58Encode_eq, bs58Encode_eq, Option.some.injEq] at hsame
  exact (hsame ▸ isBase58_digits other).injective (isBase58_digits bytes)

example : bs58Encode [0, 0] = some "11" := by decide +kernel

example : bs58Encode [104, 101, 108, 108, 111, 32, 119, 111, 114, 108, 100] =
    some "StV1DL6CwTryKyV" := by decide +kernel

end TrustNode.Rpc
