import TrustNode.Accounts.Account
import TrustNode.Base.Serde

namespace TrustNode.Accounts

open Bytes

namespace Account

def parseData (data : Bytes) : Option AccountData :=
  match data with
  | [] => none
  | tag :: rest =>
    if tag = 115 then some .system
    else if tag = 112 then some (.program (rest.drop 6))
    else if tag = 116 then do
      let (mint, rest) ← readBytes32 (rest.drop 4)
      let (authority, rest) ← readBytes32 rest
      let (amount, _) ← readU64 rest
      some (.token mint authority amount)
    else if tag = 109 then do
      let (authority, rest) ← readBytes32 (rest.drop 3)
      let (supply, _) ← readU64 rest
      some (.mint authority supply)
    else if tag = 100 then some (.data (rest.drop 3))
    else none

def parse (bytes : Bytes) : Option Account := do
  let (lamports, rest) ← readU64 bytes
  let (owner, rest) ← readBytes32 rest
  let flag ← rest.head?
  let (rentEpoch, rest) ← readU64 rest.tail
  let data ← parseData rest
  some ⟨lamports, owner, flag = 1, rentEpoch, data⟩

theorem parseData_dataPreimage (data : AccountData) :
    parseData (dataPreimage data) = some data := by
  cases data with
  | system => rfl
  | program code => rfl
  | token mint authority amount =>
    have hamount := readU64_append amount []
    rw [List.append_nil] at hamount
    simp [dataPreimage, parseData, readBytes32_append, hamount]
  | mint authority supply =>
    have hsupply := readU64_append supply []
    rw [List.append_nil] at hsupply
    simp [dataPreimage, parseData, readBytes32_append, hsupply]
  | data bytes => rfl

theorem parse_preimage (a : Account) : parse a.preimage = some a := by
  obtain ⟨lamports, owner, executable, rentEpoch, data⟩ := a
  cases executable <;>
    simp [preimage, parse, readU64_append, readBytes32_append, parseData_dataPreimage]

theorem preimage_injective : Function.Injective preimage := by
  intro a b h
  have hparse := parse_preimage a
  rw [h, parse_preimage b] at hparse
  exact (Option.some.inj hparse).symm

def codec : Serde Account :=
  ⟨fun a => some a.preimage, fun bytes => (parse bytes).filter fun a => a.preimage = bytes⟩

theorem codec_roundTrips (a : Account) : codec.RoundTrips a :=
  ⟨a.preimage, rfl, by simp [codec, parse_preimage]⟩

end Account

end TrustNode.Accounts
