import TrustNode.Base.Bytes

structure Crypto where
  sha256 : Bytes → Bytes32
  validKey : Bytes32 → Bool
  verifyStrict : Bytes32 → Bytes → Bytes → Bool

structure SigningKey where
  verifyingKey : Bytes32
  sign : Bytes → Bytes

namespace Crypto

def verify (C : Crypto) (key : Bytes32) (msg sig : Bytes) : Bool :=
  C.validKey key && decide (sig.length = 64) && C.verifyStrict key msg sig

def successor : Crypto where
  sha256 := fun bytes => Bytes32.splat (bytes.headD 0 + 1)
  validKey := fun _ => true
  verifyStrict := fun _ _ _ => true

end Crypto
