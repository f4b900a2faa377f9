import TrustNode.Accounts.Refinement

namespace TrustNode.Accounts

namespace AppendOnlyDB

variable {S : Serde Account}

def runAll (S : Serde Account) (db : AppendOnlyDB) (updates : List Update) : AppendOnlyDB :=
  updates.foldl (Update.run S) db

def detached (db : AppendOnlyDB) : AppendOnlyDB := { db with persist := none }

theorem detached_run (S : Serde Account) (db : AppendOnlyDB) (u : Update) :
    (u.run S db).detached = u.run S db.detached := by
  cases u with
  | store k a => rfl
  | remove k =>
    by_cases hk : k ∈ db.index
    · have hdetached : k ∈ db.detached.index := hk
      rw [Update.run, Update.run, remove_of_mem hk, remove_of_mem hdetached]
      rfl
    · have hdetached : k ∉ db.detached.index := hk
      rw [Update.run, Update.run, remove_of_notMem hk, remove_of_notMem hdetached]

theorem persist_applyRecord {db : AppendOnlyDB} (h : db.persist = none) (record : Record) :
    (db.applyRecord S record).persist = none := by
  cases record with
  | put k account =>
    cases account with
    | none => exact h
    | some a => rw [applyRecord, AppendOnlyDB.store, h, Option.map_none]
  | delete k =>
    by_cases hk : k ∈ db.index
    · rw [applyRecord, remove_of_mem hk, h, Option.map_none]
    · rwa [applyRecord, remove_of_notMem hk]

theorem persist_replay (S : Serde Account) (data : Bytes) : (replay S data new).persist = none := by
  obtain ⟨consumed, -, hreads⟩ := (reader_readStep S).scanAll_split new data
  refine (hreads .nil).invariant (P := fun db => db.persist = none) rfl ?_
  intro db db' frame hdb hread
  obtain ⟨⟨record, rest⟩, -, hnext⟩ := Option.map_eq_some_iff.mp hread
  rw [← (Prod.mk.inj hnext).1]
  exact persist_applyRecord hdb record

theorem detached_open (S : Serde Account) (data : Bytes) :
    (AppendOnlyDB.open S (some data)).detached = replay S data new := by
  have hnone := persist_replay S data
  rw [AppendOnlyDB.open, detached]
  cases hdb : replay S data new with
  | mk storage index writeVersion accountCount totalBytes persist =>
    rw [hdb] at hnone
    cases hnone
    rfl

def Continues (S : Serde Account) (data : Bytes) (db : AppendOnlyDB) : Prop :=
  ∃ written, db.persist = some (data ++ written) ∧
    Scan.Reads (readStep S) (replay S data new) written db.detached

namespace Continues

variable {data : Bytes} {db : AppendOnlyDB}

theorem recovered (S : Serde Account) (data : Bytes) :
    Continues S data (AppendOnlyDB.open S (some data)) := by
  refine ⟨[], ?_, ?_⟩
  · rw [List.append_nil]
    rfl
  · rw [detached_open]
    exact .nil

theorem update (h : Continues S data db) {u : Update} (hu : u.Encodable S) :
    Continues S data (u.run S db) := by
  obtain ⟨written, hpersist, hreads⟩ := h
  refine ⟨written ++ u.record S db, ?_, ?_⟩
  · rw [persist_run, hpersist, Option.map_some, List.append_assoc]
  · rw [detached_run]
    exact reads_update hreads hu

theorem runAll (h : Continues S data db) {updates : List Update}
    (hu : ∀ u ∈ updates, u.Encodable S) : Continues S data (db.runAll S updates) := by
  induction updates generalizing db with
  | nil => exact h
  | cons u us ih =>
    exact ih (h.update (hu u List.mem_cons_self)) fun v hv => hu v (List.mem_cons_of_mem u hv)

theorem reopen (h : Continues S data db) (hdata : unread S data = []) :
    AppendOnlyDB.open S (some db.log) = db := by
  obtain ⟨written, hpersist, hreads⟩ := h
  have hscan : replay S (data ++ written) new = db.detached := by
    rw [replay, (reader_readStep S).scanAll_append hdata]
    exact congrArg Prod.fst ((reader_readStep S).scanAll_reads hreads)
  rw [log, hpersist, Option.getD_some, AppendOnlyDB.open, hscan, ← hpersist]
  rfl

end Continues

end AppendOnlyDB

theorem reopen_after_recovery {S : Serde Account} (before : AppendOnlyDB) (cut : ℕ)
    {later : List Update} (hcut : AppendOnlyDB.unread S (before.log.take cut) = [])
    (hlater : ∀ u ∈ later, u.Encodable S) :
    AppendOnlyDB.open S
        (some ((AppendOnlyDB.open S (some (before.log.take cut))).runAll S later).log) =
      (AppendOnlyDB.open S (some (before.log.take cut))).runAll S later := by
  have hrecovered := AppendOnlyDB.Continues.recovered S (before.log.take cut)
  exact (hrecovered.runAll hlater).reopen hcut

def savedOnce : AppendOnlyDB :=
  Op.run Account.codec (.open Account.codec none) (.update (.store (Bytes32.splat 3) (savings 7)))

theorem runs_savedOnce :
    Runs Account.codec [.update (.store (Bytes32.splat 3) (savings 7))] savedOnce :=
  Runs.nil.snoc _ trivial

theorem store_after_whole_record_survives :
    AppendOnlyDB.unread Account.codec (savedOnce.log.take 92) = [] ∧
      (AppendOnlyDB.open Account.codec (some ((AppendOnlyDB.open Account.codec
        (some (savedOnce.log.take 92))).runAll Account.codec
          [.store (Bytes32.splat 5) (savings 9)]).log)).load Account.codec (Bytes32.splat 5) =
        some (savings 9) := by
  have hcut : AppendOnlyDB.unread Account.codec (savedOnce.log.take 92) = [] := by decide +kernel
  refine ⟨hcut, ?_⟩
  rw [reopen_after_recovery savedOnce 92 hcut]
  · decide +kernel
  · rintro u hu
    obtain rfl := List.mem_singleton.mp hu
    exact encodable_savings 9

theorem store_after_torn_record_is_lost :
    ∃ ops before cut later, Runs Account.codec ops before ∧
      (∀ op ∈ ops, op.Encodable Account.codec) ∧ (∀ u ∈ later, u.Encodable Account.codec) ∧
      ((AppendOnlyDB.open Account.codec (some (before.log.take cut))).runAll Account.codec
        later).load Account.codec (Bytes32.splat 5) = some (savings 9) ∧
      (AppendOnlyDB.open Account.codec (some ((AppendOnlyDB.open Account.codec
        (some (before.log.take cut))).runAll Account.codec later).log)).load Account.codec
          (Bytes32.splat 5) = none := by
  refine ⟨_, savedOnce, 91, [.store (Bytes32.splat 5) (savings 9)], runs_savedOnce, ?_, ?_, ?_, ?_⟩
  · intro op hop
    obtain rfl := List.mem_singleton.mp hop
    exact encodable_savings 7
  · intro u hu
    obtain rfl := List.mem_singleton.mp hu
    exact encodable_savings 9
  · decide +kernel
  · decide +kernel

end TrustNode.Accounts
