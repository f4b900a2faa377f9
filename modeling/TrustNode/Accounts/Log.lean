import TrustNode.Accounts.Store
import TrustNode.Base.Scan
import TrustNode.Base.Serde

namespace TrustNode.Accounts

open Bytes

def recordPut : UInt8 := 1

def recordDelete : UInt8 := 2

structure AccountLocation where
  offset : ℕ
  length : ℕ
  writeVersion : ℕ
deriving DecidableEq

structure AppendOnlyDB where
  storage : Bytes
  index : Table Pubkey AccountLocation
  writeVersion : ℕ
  accountCount : ℕ
  totalBytes : ℕ
  persist : Option Bytes

inductive Record where
  | put (pubkey : Pubkey) (account : Option Account)
  | delete (pubkey : Pubkey)
deriving DecidableEq

section Encoding

variable (S : Serde Account)

def encodePut (pubkey : Pubkey) (account : Account) : Bytes :=
  recordPut :: (pubkey.toList ++ (u32ToLe (S.encoded account).length ++ S.encoded account))

def encodeDelete (pubkey : Pubkey) : Bytes := recordDelete :: pubkey.toList

theorem key_fits_put {data : Bytes} (h : ¬data.length < 37) : 1 + 32 ≤ data.length := by
  omega

theorem key_fits_delete {data : Bytes} (h : ¬data.length < 33) : 1 + 32 ≤ data.length := by
  omega

def readRecord (data : Bytes) : Option (Record × Bytes) :=
  match data with
  | [] => none
  | tag :: _ =>
    if tag = recordPut then
      if h : data.length < 37 then none
      else
        let length := leNat ((data.drop 33).take 4)
        if data.length < 37 + length then none
        else
          some (.put (Bytes32.slice data 1 (key_fits_put h))
            (S.fromSlice ((data.drop 37).take length)), data.drop (37 + length))
    else if tag = recordDelete then
      if h : data.length < 33 then none
      else some (.delete (Bytes32.slice data 1 (key_fits_delete h)), data.drop 33)
    else none

end Encoding

namespace AppendOnlyDB

variable (S : Serde Account)

def new : AppendOnlyDB where
  storage := []
  index := ∅
  writeVersion := 0
  accountCount := 0
  totalBytes := 0
  persist := none

def store (pubkey : Pubkey) (account : Account) (db : AppendOnlyDB) : AppendOnlyDB where
  storage := db.storage ++ S.encoded account
  index := db.index.insert pubkey
    ⟨db.storage.length, (S.encoded account).length, db.writeVersion + 1⟩
  writeVersion := db.writeVersion + 1
  accountCount := if pubkey ∈ db.index then db.accountCount else db.accountCount + 1
  totalBytes := db.totalBytes + (S.encoded account).length
  persist := db.persist.map (· ++ encodePut S pubkey account)

def load (db : AppendOnlyDB) (pubkey : Pubkey) : Option Account :=
  (db.index.lookup pubkey).bind fun location =>
    if db.storage.length < location.offset + location.length then none
    else S.fromSlice ((db.storage.drop location.offset).take location.length)

def «exists» (db : AppendOnlyDB) (pubkey : Pubkey) : Bool := (db.index.lookup pubkey).isSome

def remove (pubkey : Pubkey) (db : AppendOnlyDB) : Bool × AppendOnlyDB :=
  if pubkey ∈ db.index then
    (true,
      { db with
        index := db.index.erase pubkey
        accountCount := if 0 < db.accountCount then db.accountCount - 1 else db.accountCount
        persist := db.persist.map (· ++ encodeDelete pubkey) })
  else (false, db)

def applyBatch (updates : List (Pubkey × Account)) (db : AppendOnlyDB) : AppendOnlyDB :=
  updates.foldl (fun db u => db.store S u.1 u.2) db

def hashes (C : Crypto) (keys : List Pubkey) (db : AppendOnlyDB) : List Bytes32 :=
  keys.filterMap fun key => (db.load S key).map fun account => account.hash C

def computeStateRoot (C : Crypto) (keys : List Pubkey) (db : AppendOnlyDB) : Bytes32 :=
  StateRoot.compute C (Table.sorted (db.hashes S C keys))

def applyRecord (db : AppendOnlyDB) : Record → AppendOnlyDB
  | .put pubkey (some account) => db.store S pubkey account
  | .put _ none => db
  | .delete pubkey => (db.remove pubkey).2

def readStep (db : AppendOnlyDB) (data : Bytes) : Option (AppendOnlyDB × Bytes) :=
  (readRecord S data).map fun (record, rest) => (db.applyRecord S record, rest)

def replay (data : Bytes) (db : AppendOnlyDB) : AppendOnlyDB := (Scan.scanAll (readStep S) db data).1

def unread (data : Bytes) : Bytes := (Scan.scanAll (readStep S) new data).2

def «open» (log : Option Bytes) : AppendOnlyDB :=
  match log with
  | some data => { replay S data new with persist := some data }
  | none => { new with persist := some [] }

def snapshot (keys : List Pubkey) (db : AppendOnlyDB) : AppendOnlyDB :=
  { db with
    persist := db.persist.map fun _ =>
      keys.flatMap fun key => ((db.load S key).map (encodePut S key)).getD [] }

def log (db : AppendOnlyDB) : Bytes := db.persist.getD []

def Iterates (db : AppendOnlyDB) (keys : List Pubkey) : Prop :=
  (keys : Multiset Pubkey) = db.index.keys.val

instance (db : AppendOnlyDB) (keys : List Pubkey) : Decidable (db.Iterates keys) :=
  inferInstanceAs (Decidable ((keys : Multiset Pubkey) = db.index.keys.val))

end AppendOnlyDB

section Reading

variable (S : Serde Account)

theorem drop_put (key : Pubkey) {lengthBytes : Bytes} (hfour : lengthBytes.length = 4)
    (payload rest : Bytes) :
    (recordPut :: (key.toList ++ (lengthBytes ++ (payload ++ rest)))).drop 33 =
        lengthBytes ++ (payload ++ rest) ∧
      (recordPut :: (key.toList ++ (lengthBytes ++ (payload ++ rest)))).drop 37 =
        payload ++ rest := by
  have hkey : (key.toList ++ (lengthBytes ++ (payload ++ rest))).drop 32 =
      lengthBytes ++ (payload ++ rest) := List.drop_left' key.length_eq
  refine ⟨hkey, ?_⟩
  change (key.toList ++ (lengthBytes ++ (payload ++ rest))).drop (32 + 4) = _
  rw [← List.drop_drop, hkey, List.drop_left' hfour]

theorem readRecord_put (key : Pubkey) {lengthBytes payload : Bytes}
    (hfour : lengthBytes.length = 4) (hlen : payload.length = leNat lengthBytes) (rest : Bytes) :
    readRecord S (recordPut :: (key.toList ++ (lengthBytes ++ (payload ++ rest)))) =
      some (.put key (S.fromSlice payload), rest) := by
  obtain ⟨hdrop, hpayload⟩ := drop_put key hfour payload rest
  have hkey := key.length_eq
  have htotal : (recordPut :: (key.toList ++ (lengthBytes ++ (payload ++ rest)))).length =
      37 + payload.length + rest.length := by
    simp only [List.length_cons, List.length_append]
    omega
  have hslice : ∀ h, Bytes32.slice
      (recordPut :: (key.toList ++ (lengthBytes ++ (payload ++ rest)))) 1 h = key :=
    fun h => Bytes32.slice_append key (show [recordPut].length = 1 from rfl) h
  rw [readRecord, if_pos rfl, dif_neg (by omega)]
  simp only [hdrop, hpayload, hslice, List.take_left' hfour, ← hlen, List.take_left]
  rw [if_neg (by omega), ← List.drop_drop, hpayload, List.drop_left]

theorem readRecord_delete (key : Pubkey) (rest : Bytes) :
    readRecord S (encodeDelete key ++ rest) = some (.delete key, rest) := by
  have hkey := key.length_eq
  have htotal : (recordDelete :: (key.toList ++ rest)).length = 33 + rest.length := by
    simp only [List.length_cons, List.length_append]
    omega
  have hslice : ∀ h, Bytes32.slice (recordDelete :: (key.toList ++ rest)) 1 h = key :=
    fun h => Bytes32.slice_append key (show [recordDelete].length = 1 from rfl) h
  have hdrop : (recordDelete :: (key.toList ++ rest)).drop 33 = rest := List.drop_left' hkey
  change readRecord S (recordDelete :: (key.toList ++ rest)) = _
  rw [readRecord, if_neg (by decide), if_pos rfl, dif_neg (by omega), hslice, hdrop]

theorem readRecord_encodePut (key : Pubkey) (account : Account)
    (hlen : (S.encoded account).length < 2 ^ 32) (rest : Bytes) :
    readRecord S (encodePut S key account ++ rest) =
      some (.put key (S.fromSlice (S.encoded account)), rest) := by
  have hread := readRecord_put S key (length_u32ToLe (S.encoded account).length)
    (leNat_u32ToLe hlen).symm rest
  simpa only [encodePut, List.cons_append, List.append_assoc] using hread

theorem split_put (tail : Bytes) (n : ℕ) (h : 36 + n ≤ tail.length) :
    ∃ (key : Pubkey) (lengthBytes payload : Bytes), lengthBytes.length = 4 ∧ payload.length = n ∧
      tail = key.toList ++ (lengthBytes ++ (payload ++ tail.drop (36 + n))) := by
  refine ⟨⟨tail.take 32, ?_⟩, (tail.drop 32).take 4, (tail.drop 36).take n, ?_, ?_, ?_⟩
  · rw [List.length_take]
    omega
  · rw [List.length_take, List.length_drop]
    omega
  · rw [List.length_take, List.length_drop]
    omega
  · calc tail
        = tail.take 32 ++ tail.drop 32 := (List.take_append_drop 32 tail).symm
      _ = tail.take 32 ++ ((tail.drop 32).take 4 ++ (tail.drop 32).drop 4) := by
          rw [List.take_append_drop 4]
      _ = tail.take 32 ++ ((tail.drop 32).take 4 ++
            ((tail.drop 36).take n ++ (tail.drop 36).drop n)) := by
          rw [List.take_append_drop n, List.drop_drop]
      _ = _ := by rw [List.drop_drop]

theorem readRecord_frame {data rest : Bytes} {record : Record}
    (h : readRecord S data = some (record, rest)) :
    ∃ frame, frame ≠ [] ∧ data = frame ++ rest ∧
      ∀ more, readRecord S (frame ++ more) = some (record, more) := by
  cases data with
  | nil => cases h
  | cons tag tail =>
    have hread := h
    rw [readRecord] at h
    split_ifs at h with hput hshort hdelete hlong
    · dsimp only at h
      split_ifs at h with hlong
      subst hput
      obtain ⟨key, lengthBytes, payload, hfour, hlen, htail⟩ :=
        split_put tail (leNat ((tail.drop 32).take 4))
          (by simp only [List.length_cons, List.drop_succ_cons] at hlong; omega)
      have hbytes : (tail.drop 32).take 4 = lengthBytes := by
        rw [htail, List.drop_left' key.length_eq, List.take_left' hfour]
      rw [hbytes] at hlen htail
      rw [htail, readRecord_put S key hfour hlen] at hread
      obtain ⟨rfl, rfl⟩ := Prod.mk.inj (Option.some.inj hread)
      refine ⟨recordPut :: (key.toList ++ (lengthBytes ++ payload)), List.cons_ne_nil _ _, ?_,
        fun more => ?_⟩
      · rw [List.cons_append, List.append_assoc, List.append_assoc]
        exact congrArg _ htail
      · rw [List.cons_append, List.append_assoc, List.append_assoc]
        exact readRecord_put S key hfour hlen more
    · subst hdelete
      simp only [List.length_cons, not_lt] at hlong
      have hkey : (tail.take 32).length = 32 := by
        rw [List.length_take]
        omega
      have hdata : recordDelete :: tail = encodeDelete ⟨tail.take 32, hkey⟩ ++ tail.drop 32 := by
        rw [encodeDelete, List.cons_append, List.take_append_drop]
      rw [hdata, readRecord_delete] at hread
      obtain ⟨rfl, rfl⟩ := Prod.mk.inj (Option.some.inj hread)
      exact ⟨_, List.cons_ne_nil _ _, hdata, readRecord_delete S _⟩

theorem reader_readStep : Scan.Reader (AppendOnlyDB.readStep S) := by
  intro db data db' rest h
  obtain ⟨⟨record, left⟩, hread, hnext⟩ := Option.map_eq_some_iff.mp h
  obtain ⟨rfl, rfl⟩ := Prod.mk.inj hnext
  obtain ⟨frame, hne, hdata, hframe⟩ := readRecord_frame S hread
  refine ⟨frame, hne, hdata, fun more => ?_⟩
  rw [AppendOnlyDB.readStep, hframe, Option.map_some]

end Reading

end TrustNode.Accounts
