import TrustNode.Base.Crypto

namespace Sha256

def rotr (n x : ℕ) : ℕ := (x >>> n ||| x <<< (32 - n)) % 2 ^ 32

def roundConstants : List ℕ :=
  [0x428a2f98, 0x71374491, 0xb5c0fbcf, 0xe9b5dba5, 0x3956c25b, 0x59f111f1, 0x923f82a4, 0xab1c5ed5,
    0xd807aa98, 0x12835b01, 0x243185be, 0x550c7dc3, 0x72be5d74, 0x80deb1fe, 0x9bdc06a7, 0xc19bf174,
    0xe49b69c1, 0xefbe4786, 0x0fc19dc6, 0x240ca1cc, 0x2de92c6f, 0x4a7484aa, 0x5cb0a9dc, 0x76f988da,
    0x983e5152, 0xa831c66d, 0xb00327c8, 0xbf597fc7, 0xc6e00bf3, 0xd5a79147, 0x06ca6351, 0x14292967,
    0x27b70a85, 0x2e1b2138, 0x4d2c6dfc, 0x53380d13, 0x650a7354, 0x766a0abb, 0x81c2c92e, 0x92722c85,
    0xa2bfe8a1, 0xa81a664b, 0xc24b8b70, 0xc76c51a3, 0xd192e819, 0xd6990624, 0xf40e3585, 0x106aa070,
    0x19a4c116, 0x1e376c08, 0x2748774c, 0x34b0bcb5, 0x391c0cb3, 0x4ed8aa4a, 0x5b9cca4f, 0x682e6ff3,
    0x748f82ee, 0x78a5636f, 0x84c87814, 0x8cc70208, 0x90befffa, 0xa4506ceb, 0xbef9a3f7, 0xc67178f2]

structure Chain where
  (a b c d e f g h : ℕ)

def Chain.initial : Chain :=
  ⟨0x6a09e667, 0xbb67ae85, 0x3c6ef372, 0xa54ff53a, 0x510e527f, 0x9b05688c, 0x1f83d9ab, 0x5be0cd19⟩

def schedule : ℕ → List ℕ → List ℕ
  | 0, _ => []
  | n + 1, w =>
    let early := w.getD 1 0
    let late := w.getD 14 0
    let s0 := rotr 7 early ^^^ rotr 18 early ^^^ early >>> 3
    let s1 := rotr 17 late ^^^ rotr 19 late ^^^ late >>> 10
    let next := (w.getD 0 0 + s0 + w.getD 9 0 + s1) % 2 ^ 32
    w.getD 0 0 :: schedule n (w.drop 1 ++ [next])

def round (s : Chain) (kw : ℕ × ℕ) : Chain :=
  let s1 := rotr 6 s.e ^^^ rotr 11 s.e ^^^ rotr 25 s.e
  let ch := (s.e &&& s.f) ^^^ ((2 ^ 32 - 1 - s.e) &&& s.g)
  let t1 := s.h + s1 + ch + kw.1 + kw.2
  let s0 := rotr 2 s.a ^^^ rotr 13 s.a ^^^ rotr 22 s.a
  let maj := (s.a &&& s.b) ^^^ (s.a &&& s.c) ^^^ (s.b &&& s.c)
  ⟨(t1 + s0 + maj) % 2 ^ 32, s.a, s.b, s.c, (s.d + t1) % 2 ^ 32, s.e, s.f, s.g⟩

def compress (s : Chain) (block : List ℕ) : Chain :=
  let t := (roundConstants.zip (schedule 64 block)).foldl round s
  ⟨(s.a + t.a) % 2 ^ 32, (s.b + t.b) % 2 ^ 32, (s.c + t.c) % 2 ^ 32, (s.d + t.d) % 2 ^ 32,
    (s.e + t.e) % 2 ^ 32, (s.f + t.f) % 2 ^ 32, (s.g + t.g) % 2 ^ 32, (s.h + t.h) % 2 ^ 32⟩

def fromBe (bytes : Bytes) : ℕ := Bytes.leNat bytes.reverse

def toBe (n x : ℕ) : Bytes := (Bytes.ofNat n x).reverse

def pad (msg : Bytes) : Bytes :=
  msg ++ [0x80] ++ List.replicate ((119 - msg.length % 64) % 64) 0 ++ toBe 8 (8 * msg.length)

def digest (msg : Bytes) : Bytes32 :=
  let words := (pad msg).toChunks 4 |>.map fromBe
  let s := (words.toChunks 16).foldl compress .initial
  ⟨toBe 4 s.a ++ toBe 4 s.b ++ toBe 4 s.c ++ toBe 4 s.d ++ toBe 4 s.e ++ toBe 4 s.f ++ toBe 4 s.g ++
    toBe 4 s.h, by simp [toBe]⟩

example : fromBe ((digest [97, 98, 99]).toList.take 4) = 0xba7816bf := by decide +kernel

end Sha256

def acceptingCrypto : Crypto where
  sha256 := Sha256.digest
  validKey := fun _ => true
  verifyStrict := fun _ _ _ => true
