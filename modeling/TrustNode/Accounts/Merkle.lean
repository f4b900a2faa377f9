import TrustNode.Base.Crypto
import TrustNode.Base.PairTree

namespace TrustNode.Accounts

structure MerkleProof where
  leaf : Bytes32
  siblings : List (Bytes32 × Bool)
  index : ℕ
deriving DecidableEq

namespace StateRoot

def hashPair (C : Crypto) (a b : Bytes32) : Bytes32 := C.sha256 (a.toList ++ b.toList)

def nextLevel (C : Crypto) : List Bytes32 → List Bytes32
  | a :: b :: rest => hashPair C a b :: nextLevel C rest
  | [a] => [a]
  | [] => []

def levels (C : Crypto) : ℕ → List Bytes32 → List Bytes32
  | 0, level => level
  | fuel + 1, level => if 1 < level.length then levels C fuel (nextLevel C level) else level

def compute (C : Crypto) (hashes : List Bytes32) : Bytes32 :=
  (levels C hashes.length hashes).headD (Bytes32.splat 0)

def proveLevel (C : Crypto) (currentIndex : ℕ) :
    ℕ → List Bytes32 → List Bytes32 × List (Bytes32 × Bool)
  | i, a :: b :: rest =>
    let (nextLevel, siblings) := proveLevel C currentIndex (i + 1) rest
    (hashPair C a b :: nextLevel,
      if i = currentIndex / 2 then
        (if currentIndex % 2 = 0 then (b, false) else (a, true)) :: siblings
      else siblings)
  | _, [a] => ([a], [])
  | _, [] => ([], [])

def proveSiblings (C : Crypto) : ℕ → List Bytes32 → ℕ → List (Bytes32 × Bool)
  | 0, _, _ => []
  | fuel + 1, currentLevel, currentIndex =>
    if 1 < currentLevel.length then
      let (nextLevel, siblings) := proveLevel C currentIndex 0 currentLevel
      siblings ++ proveSiblings C fuel nextLevel (currentIndex / 2)
    else []

def prove (C : Crypto) (hashes : List Bytes32) (index : ℕ) : MerkleProof :=
  if h : index < hashes.length then
    { leaf := hashes[index]
      siblings := proveSiblings C hashes.length hashes index
      index := index }
  else { leaf := Bytes32.splat 0, siblings := [], index := index }

theorem nextLevel_eq_pairUp (C : Crypto) (level : List Bytes32) :
    nextLevel C level = PairTree.pairUp (hashPair C) level := by
  induction level using nextLevel.induct with
  | case1 a b rest ih => rw [nextLevel, ih, PairTree.pairUp]
  | case2 a => rfl
  | case3 => rfl

theorem levels_eq_reduce (C : Crypto) (fuel : ℕ) (level : List Bytes32) :
    levels C fuel level = PairTree.reduce (hashPair C) fuel level := by
  induction fuel generalizing level with
  | zero => rfl
  | succ fuel ih => rw [levels, ih, nextLevel_eq_pairUp, PairTree.reduce]

theorem proveLevel_eq (C : Crypto) (index i : ℕ) (level : List Bytes32) :
    proveLevel C index i level = (nextLevel C level,
      if i ≤ index / 2 then (PairTree.sibling level (index - 2 * i)).toList else []) := by
  induction level using nextLevel.induct generalizing i with
  | case1 a b rest ih =>
    rw [proveLevel, ih, nextLevel]
    simp only []
    obtain hlt | rfl | hgt := lt_trichotomy i (index / 2)
    · have hoffset : index - 2 * i = index - 2 * (i + 1) + 2 := by omega
      rw [if_pos (Nat.succ_le_of_lt hlt), if_neg hlt.ne, if_pos hlt.le, hoffset, PairTree.sibling]
    · rw [if_neg (Nat.not_succ_le_self _), if_pos rfl, if_pos le_rfl]
      obtain heven | hodd := Nat.mod_two_eq_zero_or_one index
      · have hoffset : index - 2 * (index / 2) = 0 := by omega
        rw [if_pos heven, hoffset]
        rfl
      · have hoffset : index - 2 * (index / 2) = 1 := by omega
        rw [if_neg (by omega), hoffset]
        rfl
    · rw [if_neg hgt.ne', if_neg (Nat.lt_succ_of_lt hgt).not_ge, if_neg hgt.not_ge]
  | case2 a => simp [proveLevel, nextLevel, PairTree.sibling]
  | case3 => simp [proveLevel, nextLevel, PairTree.sibling]

theorem proveSiblings_eq_path (C : Crypto) (fuel : ℕ) (level : List Bytes32) (index : ℕ) :
    proveSiblings C fuel level index = PairTree.path (hashPair C) fuel level index := by
  induction fuel generalizing level index with
  | zero => rfl
  | succ fuel ih =>
    rw [proveSiblings, proveLevel_eq, if_pos (Nat.zero_le _), PairTree.path]
    simp only [ih, nextLevel_eq_pairUp, Nat.mul_zero, Nat.sub_zero]

end StateRoot

namespace MerkleProof

def verifyStep (C : Crypto) (current : Bytes32) (sibling : Bytes32 × Bool) : Bytes32 :=
  if sibling.2 then StateRoot.hashPair C sibling.1 current
  else StateRoot.hashPair C current sibling.1

def verify (C : Crypto) (proof : MerkleProof) (root : Bytes32) : Bool :=
  proof.siblings.foldl (verifyStep C) proof.leaf == root

theorem verifyStep_eq_join (C : Crypto) :
    verifyStep C = PairTree.join (StateRoot.hashPair C) := by
  funext current sibling
  unfold verifyStep PairTree.join PairTree.ordered
  split <;> rfl

theorem verify_iff (C : Crypto) (proof : MerkleProof) (root : Bytes32) :
    proof.verify C root = true ↔
      PairTree.climb (StateRoot.hashPair C) proof.leaf proof.siblings = root := by
  rw [verify, beq_iff_eq, verifyStep_eq_join, PairTree.climb]

end MerkleProof

end TrustNode.Accounts
