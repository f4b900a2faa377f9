import TrustNode.Base.Ascending
import TrustNode.Base.GaussJordan
import TrustNode.Turbine.Gf
import TrustNode.Turbine.Shred
import Mathlib.LinearAlgebra.Vandermonde

namespace TrustNode.Turbine

open Bytes
open GaussJordan

structure ErasureConfig where
  dataShards : ℕ
  parityShards : ℕ
deriving DecidableEq

namespace ErasureConfig

def defaultSolana : ErasureConfig where
  dataShards := 16
  parityShards := 4

abbrev totalShards (config : ErasureConfig) : ℕ := config.dataShards + config.parityShards

end ErasureConfig

inductive Panic where
  | divideByZero
  | indexOutOfRange
  | sliceOutOfRange
  | unreachable (msg : String)
deriving DecidableEq

def matInv {n : ℕ} (m : Rows Gf256 n n) : Option (Rows Gf256 n n) := invert m

def vandermonde (k m : ℕ) : Rows Gf256 (k + m) k :=
  Vector.ofFn fun r => Vector.ofFn fun c => ⟨Gf.pow (UInt8.ofNat r) c⟩

def top {k m : ℕ} (v : Rows Gf256 (k + m) k) : Rows Gf256 k k :=
  Vector.ofFn fun r => v[Fin.castAdd m r]

def generator (k m : ℕ) : Option (Rows Gf256 (k + m) k) :=
  (matInv (top (vandermonde k m))).map (product (vandermonde k m))

def rowBytes {w : ℕ} (row : Vector Gf256 w) : Bytes := row.toList.map Gf256.byte

def shardRows (k shardSize : ℕ) (buf : Bytes) : Rows Gf256 k shardSize :=
  Vector.ofFn fun i => Vector.ofFn fun j => ⟨buf.getD (i * shardSize + j) 0⟩

def flatten {k w : ℕ} (rows : Rows Gf256 k w) : Bytes := rows.toList.flatMap rowBytes

def parity {k w : ℕ} (row : Vector Gf256 k) (shards : Rows Gf256 k w) : Vector Gf256 w :=
  (List.finRange k).foldl
    (fun acc c =>
      if row.get c = 0 then acc
      else Vector.zipWith (fun byte b => byte + row.get c * b) acc (shards.get c))
    (Vector.replicate w 0)

namespace ErasureCoder

variable (config : ErasureConfig)

def shardSize (data : Bytes) : ℕ :=
  max ((8 + data.length + config.dataShards - 1) / config.dataShards) 1

def prefixed (data : Bytes) : Bytes :=
  u64ToLe (UInt64.ofNat data.length) ++ data

def padded (data : Bytes) : Bytes :=
  (prefixed data).rightpad (shardSize config data * config.dataShards) 0

def shards (C : Crypto) (data : Bytes) (slot : UInt64)
    (g : Rows Gf256 config.totalShards config.dataShards) : List Shred :=
  let size := shardSize config data
  let buf := padded config data
  (List.finRange config.dataShards).map (fun (i : Fin config.dataShards) =>
      Shred.newData C slot (UInt64.ofNat i) ((buf.drop (i * size)).take size)) ++
    (List.finRange config.parityShards).map fun (p : Fin config.parityShards) =>
      Shred.newCoding C slot (UInt64.ofNat (config.dataShards + p))
        (rowBytes (parity g[Fin.natAdd config.dataShards p]
          (shardRows config.dataShards size buf)))

def encode (C : Crypto) (data : Bytes) (slot : UInt64) : Except Panic (List Shred) :=
  if config.dataShards = 0 then .error .divideByZero
  else
    match generator config.dataShards config.parityShards with
    | none => .error (.unreachable "Vandermonde generator with k+m <= 256 is never singular")
    | some g => .ok (shards config C data slot g)

def keep (kept : List (Fin config.totalShards × Shred)) (s : Shred) :
    List (Fin config.totalShards × Shred) :=
  if h : s.index.toNat < config.totalShards then Ascending.orInsert ⟨s.index.toNat, h⟩ s kept
  else kept

def byIndex (shreds : List Shred) : List (Fin config.totalShards × Shred) :=
  shreds.foldl (keep config) []

def select (kept : List (Fin config.totalShards × Shred)) :
    Option (Vector (Fin config.totalShards × Shred) config.dataShards) :=
  if h : config.dataShards ≤ kept.length then
    some ⟨(kept.take config.dataShards).toArray, by simpa using h⟩
  else none

def recover (selected : Vector (Fin config.totalShards × Shred) config.dataShards) (size : ℕ) :
    Option Bytes := do
  let g ← generator config.dataShards config.parityShards
  let sub : Rows Gf256 config.dataShards config.dataShards :=
    Vector.ofFn fun r => g[selected[r].1]
  let subInv ← matInv sub
  let received : Rows Gf256 config.dataShards size :=
    Vector.ofFn fun r => Vector.ofFn fun j => ⟨selected[r].2.payload.getD j 0⟩
  some (flatten (product subInv received))

def stripLength (buf : Bytes) : Except Panic (Option Bytes) :=
  if buf.length < 8 then .error .sliceOutOfRange
  else
    let originalLen := (u64FromLe (buf.take 8)).toNat
    if buf.length - 8 < originalLen then .ok none
    else .ok (some ((buf.drop 8).take originalLen))

def decode (shreds : List Shred) : Except Panic (Option Bytes) :=
  match select config (byIndex config shreds) with
  | none => .ok none
  | some selected =>
    match selected.toList.head? with
    | none => .error .indexOutOfRange
    | some first =>
      let size := first.2.payload.length
      if size = 0 ∨ selected.any (fun s => s.2.payload.length ≠ size) = true then .ok none
      else
        match recover config selected size with
        | none => .ok none
        | some buf => stripLength buf

end ErasureCoder

end TrustNode.Turbine
