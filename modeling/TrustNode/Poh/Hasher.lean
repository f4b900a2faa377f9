import TrustNode.Base.Crypto

namespace TrustNode.Poh

structure PohHasher where
  currentHash : Bytes32
  hashCount : UInt64
  slot : UInt64
deriving DecidableEq

namespace PohHasher

def new (seed : Bytes32) (slot : UInt64) : PohHasher where
  currentHash := seed
  hashCount := 0
  slot := slot

def hash (C : Crypto) (h : PohHasher) : PohHasher :=
  { h with currentHash := C.sha256 h.currentHash.toList, hashCount := h.hashCount + 1 }

def hashN (C : Crypto) : ℕ → PohHasher → PohHasher
  | 0, h => h
  | n + 1, h => hashN C n (h.hash C)

def newSlot (h : PohHasher) (slot : UInt64) : PohHasher :=
  { h with slot := slot, hashCount := 0 }

def hashChain (C : Crypto) (start : Bytes32) (steps : ℕ) : Bytes32 :=
  ((new start 0).hashN C steps).currentHash

theorem hashChain_succ (C : Crypto) (start : Bytes32) (steps : ℕ) :
    hashChain C start (steps + 1) = ((new start 0).hash C |>.hashN C steps).currentHash := rfl

theorem currentHash_hashN (C : Crypto) (steps : ℕ) (h : PohHasher) :
    (h.hashN C steps).currentHash = hashChain C h.currentHash steps := by
  induction steps generalizing h with
  | zero => rfl
  | succ steps ih =>
    rw [hashN, ih, hashChain_succ, ih]
    rfl

theorem hashChain_add (C : Crypto) (start : Bytes32) (m n : ℕ) :
    hashChain C start (m + n) = hashChain C (hashChain C start m) n := by
  induction m generalizing start with
  | zero =>
    rw [Nat.zero_add]
    rfl
  | succ m ih =>
    rw [Nat.succ_add, hashChain_succ, currentHash_hashN, ih, hashChain_succ, currentHash_hashN]

end PohHasher

end TrustNode.Poh
