import TrustNode.Base.Bytes
import TrustNode.Base.Crypto

namespace TrustNode.Accounts

open Bytes

abbrev Pubkey := Bytes32

def minimumRentExemptBalance : UInt64 := 890880

inductive AccountData where
  | system
  | program (code : Bytes)
  | token (mint authority : Pubkey) (amount : UInt64)
  | mint (authority : Pubkey) (supply : UInt64)
  | data (bytes : Bytes)
deriving DecidableEq

structure Account where
  lamports : UInt64
  owner : Pubkey
  executable : Bool
  rentEpoch : UInt64
  data : AccountData
deriving DecidableEq

def systemProgramId : Pubkey := Bytes32.splat 1

def tokenProgramId : Pubkey := Bytes32.splat 2

namespace Account

def newSystemAccount (_pubkey : Pubkey) (lamports : UInt64) : Account where
  lamports := lamports
  owner := systemProgramId
  executable := false
  rentEpoch := 0
  data := .system

def newTokenAccount (_pubkey mint authority : Pubkey) (amount : UInt64) : Account where
  lamports := 0
  owner := tokenProgramId
  executable := false
  rentEpoch := 0
  data := .token mint authority amount

def newMint (_pubkey authority : Pubkey) : Account where
  lamports := minimumRentExemptBalance
  owner := tokenProgramId
  executable := false
  rentEpoch := 0
  data := .mint authority 0

def dataPreimage : AccountData → Bytes
  | .system => [115, 121, 115, 116, 101, 109]
  | .program code => [112, 114, 111, 103, 114, 97, 109] ++ code
  | .token mint authority amount =>
      [116, 111, 107, 101, 110] ++ mint.toList ++ authority.toList ++ u64ToLe amount
  | .mint authority supply => [109, 105, 110, 116] ++ authority.toList ++ u64ToLe supply
  | .data bytes => [100, 97, 116, 97] ++ bytes

def preimage (a : Account) : Bytes :=
  u64ToLe a.lamports ++ a.owner.toList ++ [if a.executable then 1 else 0] ++
    u64ToLe a.rentEpoch ++ dataPreimage a.data

def hash (C : Crypto) (a : Account) : Bytes32 := C.sha256 a.preimage

end Account

end TrustNode.Accounts
