import TrustNode.Accounts.Restart

namespace TrustNode.Accounts

namespace AppendOnlyDB

variable {S : Serde Account}

def written (S : Serde Account) : AppendOnlyDB → List Update → List Bytes
  | _, [] => []
  | db, u :: us => u.record S db :: written S (u.run S db) us

theorem written_detached (S : Serde Account) (db : AppendOnlyDB) (updates : List Update) :
    written S db.detached updates = written S db updates := by
  induction updates generalizing db with
  | nil => rfl
  | cons u us ih =>
    rw [written, written, ← detached_run, ih]
    exact congrArg (· :: _) (record_congr S rfl u)

theorem detached_runAll (S : Serde Account) (db : AppendOnlyDB) (updates : List Update) :
    (db.runAll S updates).detached = db.detached.runAll S updates := by
  induction updates generalizing db with
  | nil => rfl
  | cons u us ih =>
    change ((u.run S db).runAll S us).detached = (u.run S db.detached).runAll S us
    rw [ih, detached_run]

theorem persist_runAll {db : AppendOnlyDB} {data : Bytes} (h : db.persist = some data)
    (updates : List Update) :
    (db.runAll S updates).persist = some (data ++ (written S db updates).flatten) := by
  induction updates generalizing db data with
  | nil => rw [written, List.flatten_nil, List.append_nil, ← h]; rfl
  | cons u us ih =>
    have hnext : (u.run S db).persist = some (data ++ u.record S db) := by
      rw [persist_run, h, Option.map_some]
    change ((u.run S db).runAll S us).persist = _
    rw [ih hnext, written, List.flatten_cons, List.append_assoc]

theorem log_runAll (S : Serde Account) (updates : List Update) :
    ((AppendOnlyDB.open S none).runAll S updates).log =
      (written S (.open S none) updates).flatten := by
  have hfresh : (AppendOnlyDB.open S none).persist = some [] := rfl
  rw [log, persist_runAll hfresh, Option.getD_some, List.nil_append]

theorem readStep_record (db : AppendOnlyDB) {u : Update} (hu : u.Encodable S) :
    readStep S db (u.record S db) = some (u.run S db, []) ∨
      u.record S db = [] ∧ u.run S db = db := by
  cases u with
  | store k a => exact .inl (readStep_encodePut db k hu)
  | remove k =>
    by_cases hk : k ∈ db.index
    · rw [Update.record, if_pos hk]
      exact .inl (readStep_encodeDelete S db k)
    · rw [Update.record, if_neg hk, Update.run, remove_of_notMem hk]
      exact .inr ⟨rfl, rfl⟩

theorem scanAll_cut_record (db : AppendOnlyDB) {u : Update} (hu : u.Encodable S) (more : Bytes)
    (n : ℕ) :
    Scan.scanAll (readStep S) db ((u.record S db ++ more).take n) =
      if (u.record S db).length ≤ n then
        Scan.scanAll (readStep S) (u.run S db) (more.take (n - (u.record S db).length))
      else (db, (u.record S db).take n) := by
  obtain hread | ⟨hnil, hsame⟩ := readStep_record db hu
  · exact (reader_readStep S).scanAll_take_frame hread more n
  · rw [hnil, hsame, List.nil_append, List.length_nil, if_pos (Nat.zero_le n), Nat.sub_zero]

theorem scanAll_cut (db : AppendOnlyDB) {updates : List Update} (hu : ∀ u ∈ updates, u.Encodable S)
    (n : ℕ) :
    ∃ count, Scan.CutAfter (written S db updates) n count ∧
      (Scan.scanAll (readStep S) db ((written S db updates).flatten.take n)).1 =
        db.runAll S (updates.take count) := by
  induction updates generalizing db n with
  | nil =>
    refine ⟨0, .nil n, ?_⟩
    rw [written, List.flatten_nil, List.take_nil]
    exact congrArg Prod.fst (Scan.Reader.scanAll_of_none ((reader_readStep S).read_nil db))
  | cons u us ih =>
    obtain ⟨hhead, htail⟩ := List.forall_mem_cons.mp hu
    rw [written, List.flatten_cons, scanAll_cut_record db hhead]
    split_ifs with hwhole
    · obtain ⟨count, hcount, hscan⟩ := ih (u.run S db) htail (n - (u.record S db).length)
      exact ⟨count + 1, hcount.cons hwhole, hscan⟩
    · exact ⟨0, .torn (not_le.mp hwhole) _, rfl⟩

theorem represents_runAll {db : AppendOnlyDB} {m : AccountsDB} (h : Represents S db m)
    {updates : List Update} (hu : ∀ u ∈ updates, u.Encodable S) :
    Represents S (db.runAll S updates) (applyUpdates m updates) := by
  induction updates generalizing db m with
  | nil => exact h
  | cons u us ih =>
    obtain ⟨hhead, htail⟩ := List.forall_mem_cons.mp hu
    exact ih (h.update hhead) htail

theorem torn_log_recovers_prefix (updates : List Update) (hu : ∀ u ∈ updates, u.Encodable S)
    (n : ℕ) :
    ((AppendOnlyDB.open S none).runAll S updates).log =
        (written S (.open S none) updates).flatten ∧
      ∃ count, Scan.CutAfter (written S (.open S none) updates) n count ∧
        replay S (((AppendOnlyDB.open S none).runAll S updates).log.take n) new =
          ((AppendOnlyDB.open S none).runAll S (updates.take count)).detached ∧
        (∀ k, (replay S (((AppendOnlyDB.open S none).runAll S updates).log.take n) new).load S k =
          (applyUpdates .new (updates.take count)).load k) ∧
        readRecord S (unread S (((AppendOnlyDB.open S none).runAll S updates).log.take n)) =
          none := by
  have hfresh : (AppendOnlyDB.open S none).detached = new := rfl
  obtain ⟨count, hcount, hscan⟩ := scanAll_cut (new : AppendOnlyDB) hu n
  rw [← hfresh, written_detached] at hcount hscan
  rw [hfresh] at hscan
  have hprefix : ∀ u ∈ updates.take count, u.Encodable S := fun u hmem =>
    hu u (List.mem_of_mem_take hmem)
  have hstuck := (reader_readStep S).scanAll_stuck new
    ((written S (.open S none) updates).flatten.take n)
  rw [log_runAll]
  refine ⟨rfl, count, hcount, ?_, fun k => ?_, Option.map_eq_none_iff.mp hstuck⟩
  · rw [detached_runAll, hfresh]
    exact hscan
  · rw [replay, hscan]
    exact (represents_runAll .new hprefix).load_eq k

end AppendOnlyDB

def savingsUpdates : List Update :=
  [.store (Bytes32.splat 3) (savings 7), .remove (Bytes32.splat 4), .remove (Bytes32.splat 3),
    .store (Bytes32.splat 5) (savings 9)]

theorem encodable_savingsUpdates : ∀ u ∈ savingsUpdates, u.Encodable Account.codec := by
  intro u hu
  fin_cases hu
  · exact encodable_savings 7
  · trivial
  · trivial
  · exact encodable_savings 9

theorem savings_log_cut_in_tombstone :
    (AppendOnlyDB.replay Account.codec (((AppendOnlyDB.open Account.codec none).runAll
      Account.codec savingsUpdates).log.take 100) .new).load Account.codec (Bytes32.splat 3) =
        some (savings 7) := by
  obtain ⟨-, count, hcount, -, hload, -⟩ :=
    AppendOnlyDB.torn_log_recovers_prefix savingsUpdates encodable_savingsUpdates 100
  obtain rfl : count = 2 := by
    have htwo := (hcount.complete 2 (by decide)).mp (by decide +kernel)
    have hthree := (hcount.complete 3 (by decide)).not.mp (by decide +kernel)
    omega
  rw [hload]
  decide +kernel

end TrustNode.Accounts
