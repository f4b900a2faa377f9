import TrustNode.Accounts.Log
import TrustNode.Accounts.Preimage
import TrustNode.Base.Sha256

namespace TrustNode.Accounts

structure Encodable (S : Serde Account) (account : Account) : Prop where
  roundTrips : S.RoundTrips account
  length_lt : (S.encoded account).length < 2 ^ 32

inductive Update where
  | store (pubkey : Pubkey) (account : Account)
  | remove (pubkey : Pubkey)

namespace Update

def apply (m : AccountsDB) : Update → AccountsDB
  | store pubkey account => m.store pubkey account
  | remove pubkey => m.remove pubkey

def run (S : Serde Account) (db : AppendOnlyDB) : Update → AppendOnlyDB
  | store pubkey account => db.store S pubkey account
  | remove pubkey => (db.remove pubkey).2

def record (S : Serde Account) (db : AppendOnlyDB) : Update → Bytes
  | store pubkey account => encodePut S pubkey account
  | remove pubkey => if pubkey ∈ db.index then encodeDelete pubkey else []

def Encodable (S : Serde Account) : Update → Prop
  | store _ account => Accounts.Encodable S account
  | remove _ => True

end Update

inductive Op where
  | update (u : Update)
  | applyBatch (updates : List (Pubkey × Account))
  | snapshot (order : List Pubkey)
  | reopen

namespace Op

def apply (m : AccountsDB) : Op → AccountsDB
  | update u => u.apply m
  | applyBatch updates => m.applyBatch updates
  | snapshot _ => m
  | reopen => m

def run (S : Serde Account) (db : AppendOnlyDB) : Op → AppendOnlyDB
  | update u => u.run S db
  | applyBatch updates => db.applyBatch S updates
  | snapshot order => db.snapshot S order
  | reopen => .open S (some db.log)

def Allowed (db : AppendOnlyDB) : Op → Prop
  | snapshot order => db.Iterates order
  | _ => True

def Encodable (S : Serde Account) : Op → Prop
  | update u => u.Encodable S
  | applyBatch updates => ∀ u ∈ updates, Accounts.Encodable S u.2
  | _ => True

end Op

inductive Runs (S : Serde Account) : List Op → AppendOnlyDB → Prop
  | nil : Runs S [] (.open S none)
  | snoc {ops : List Op} {db : AppendOnlyDB} (op : Op) (hrun : Runs S ops db)
      (hop : op.Allowed db) : Runs S (ops ++ [op]) (op.run S db)

def applyAll (ops : List Op) : AccountsDB := ops.foldl Op.apply .new

def applyUpdates (db : AccountsDB) (updates : List Update) : AccountsDB :=
  updates.foldl Update.apply db

theorem applyUpdates_append (db : AccountsDB) (updates more : List Update) :
    applyUpdates db (updates ++ more) = applyUpdates (applyUpdates db updates) more :=
  List.foldl_append

theorem applyAll_updates (ops : List Op) (updates : List Update) :
    applyAll (ops ++ updates.map .update) = applyUpdates (applyAll ops) updates := by
  rw [applyAll, List.foldl_append, List.foldl_map]
  rfl

namespace AppendOnlyDB

variable {S : Serde Account}

structure WellFormed (db : AppendOnlyDB) : Prop where
  in_bounds : ∀ {k location}, db.index.lookup k = some location →
    location.offset + location.length ≤ db.storage.length
  count_eq : db.accountCount = db.index.keys.card

theorem WellFormed.store {db : AppendOnlyDB} (h : db.WellFormed) (k : Pubkey) (a : Account) :
    (db.store S k a).WellFormed where
  in_bounds := by
    intro j location hj
    rw [AppendOnlyDB.store] at hj ⊢
    rw [List.length_append]
    rw [Table.lookup_insert] at hj
    split_ifs at hj with hjk
    · cases hj
      exact le_rfl
    · have hlocation := h.in_bounds hj
      omega
  count_eq := by
    simp only [AppendOnlyDB.store, Table.keys_insert, h.count_eq]
    split_ifs with hk
    · rw [Finset.insert_eq_of_mem (Finmap.mem_keys.mpr hk)]
    · rw [Finset.card_insert_of_notMem (fun hmem => hk (Finmap.mem_keys.mp hmem))]

theorem remove_of_mem {db : AppendOnlyDB} {k : Pubkey} (h : k ∈ db.index) :
    db.remove k = (true,
      { db with
        index := db.index.erase k
        accountCount := if 0 < db.accountCount then db.accountCount - 1 else db.accountCount
        persist := db.persist.map (· ++ encodeDelete k) }) := if_pos h

theorem remove_of_notMem {db : AppendOnlyDB} {k : Pubkey} (h : k ∉ db.index) :
    db.remove k = (false, db) := if_neg h

theorem WellFormed.remove {db : AppendOnlyDB} (h : db.WellFormed) (k : Pubkey) :
    (db.remove k).2.WellFormed := by
  by_cases hk : k ∈ db.index
  · rw [remove_of_mem hk]
    constructor
    · intro j location hj
      rw [Table.lookup_erase] at hj
      split_ifs at hj
      exact h.in_bounds hj
    · have hpos : 0 < db.index.keys.card := Finset.card_pos.mpr ⟨k, Finmap.mem_keys.mpr hk⟩
      rw [Finmap.keys_erase, Finset.card_erase_of_mem (Finmap.mem_keys.mpr hk), h.count_eq,
        if_pos hpos]
  · rwa [remove_of_notMem hk]

theorem load_store_self {a : Account} (ha : S.RoundTrips a) (db : AppendOnlyDB) (k : Pubkey) :
    (db.store S k a).load S k = some a := by
  simp only [load, AppendOnlyDB.store, Table.lookup_insert, if_pos, Option.bind_some,
    List.length_append, lt_irrefl, if_false, List.drop_left, List.take_length]
  exact ha.fromSlice_encoded

theorem load_store_of_ne {db : AppendOnlyDB} (h : db.WellFormed) {k j : Pubkey} (a : Account)
    (hj : j ≠ k) : (db.store S k a).load S j = db.load S j := by
  rw [load, load, AppendOnlyDB.store, Table.lookup_insert, if_neg hj]
  cases hlookup : db.index.lookup j with
  | none => rfl
  | some location =>
    have hbound := h.in_bounds hlookup
    have hlonger : location.offset + location.length ≤
        (db.storage ++ S.encoded a).length := by
      rw [List.length_append]
      omega
    rw [Option.bind_some, Option.bind_some, if_neg hlonger.not_gt, if_neg hbound.not_gt,
      List.drop_append_of_le_length (by omega),
      List.take_append_of_le_length (by rw [List.length_drop]; omega)]

theorem load_store {db : AppendOnlyDB} (h : db.WellFormed) {a : Account} (ha : S.RoundTrips a)
    (k j : Pubkey) : (db.store S k a).load S j = if j = k then some a else db.load S j := by
  split_ifs with hj
  · subst hj
    exact load_store_self ha db j
  · exact load_store_of_ne h a hj

theorem load_remove (db : AppendOnlyDB) (k j : Pubkey) :
    (db.remove k).2.load S j = if j = k then none else db.load S j := by
  by_cases hk : k ∈ db.index
  · rw [remove_of_mem hk]
    simp only [load, Table.lookup_erase]
    split_ifs <;> rfl
  · rw [remove_of_notMem hk]
    split_ifs with hj
    · subst hj
      rw [load, Finmap.lookup_eq_none.mpr hk, Option.bind_none]
    · rfl

structure Represents (S : Serde Account) (db : AppendOnlyDB) (m : AccountsDB) : Prop where
  wellFormed : db.WellFormed
  keys_eq : db.index.keys = m.index.keys
  load_eq : ∀ k, db.load S k = m.load k

namespace Represents

variable {db : AppendOnlyDB} {m : AccountsDB}

theorem new : Represents S new .new where
  wellFormed := ⟨fun h => (Option.some_ne_none _ h.symm).elim, rfl⟩
  keys_eq := rfl
  load_eq _ := rfl

theorem persist (h : Represents S db m) (log : Option Bytes) :
    Represents S { db with persist := log } m :=
  ⟨⟨h.wellFormed.in_bounds, h.wellFormed.count_eq⟩, h.keys_eq, h.load_eq⟩

theorem store (h : Represents S db m) (k : Pubkey) {a : Account} (ha : S.RoundTrips a) :
    Represents S (db.store S k a) (m.store k a) where
  wellFormed := h.wellFormed.store k a
  keys_eq := by
    rw [AppendOnlyDB.store, AccountsDB.store, Table.keys_insert, Table.keys_insert, h.keys_eq]
  load_eq j := by rw [load_store h.wellFormed ha, AccountsDB.load_store, h.load_eq]

theorem remove (h : Represents S db m) (k : Pubkey) :
    Represents S (db.remove k).2 (m.remove k) where
  wellFormed := h.wellFormed.remove k
  keys_eq := by
    rw [AccountsDB.remove, Finmap.keys_erase, ← h.keys_eq]
    by_cases hk : k ∈ db.index
    · rw [remove_of_mem hk, Finmap.keys_erase]
    · rw [remove_of_notMem hk, Finset.erase_eq_of_notMem (fun hmem => hk (Finmap.mem_keys.mp hmem))]
  load_eq j := by rw [load_remove, AccountsDB.load_remove, h.load_eq]

theorem update (h : Represents S db m) {u : Update} (hu : u.Encodable S) :
    Represents S (u.run S db) (u.apply m) := by
  cases u with
  | store k a => exact h.store k hu.roundTrips
  | remove k => exact h.remove k

theorem applyBatch (h : Represents S db m) {updates : List (Pubkey × Account)}
    (hu : ∀ u ∈ updates, Encodable S u.2) :
    Represents S (db.applyBatch S updates) (m.applyBatch updates) := by
  induction updates generalizing db m with
  | nil => exact h
  | cons u us ih =>
    have hhead := h.store u.1 (hu u List.mem_cons_self).roundTrips
    exact ih hhead fun v hv => hu v (List.mem_cons_of_mem u hv)

theorem exists_eq (h : Represents S db m) (k : Pubkey) : db.exists k = m.exists k := by
  rw [AppendOnlyDB.exists, AccountsDB.exists, Bool.eq_iff_iff, Finmap.lookup_isSome,
    Finmap.lookup_isSome, ← Finmap.mem_keys, ← Finmap.mem_keys, h.keys_eq]

theorem hashes (h : Represents S db m) (C : Crypto) {order : List Pubkey}
    (horder : db.Iterates order) :
    (db.hashes S C order : Multiset Bytes32) = m.index.entries.map fun e => e.2.hash C := by
  have hload : (fun k => (db.load S k).map fun a => a.hash C) =
      fun k => (m.index.lookup k).map fun a => a.hash C := by
    funext k
    rw [h.load_eq, AccountsDB.load]
  rw [AppendOnlyDB.hashes, ← Multiset.filterMap_coe, horder, h.keys_eq, hload,
    Table.filterMap_keys]

theorem computeStateRoot (h : Represents S db m) (C : Crypto) {order : List Pubkey}
    (horder : db.Iterates order) : db.computeStateRoot S C order = m.computeStateRoot C := by
  rw [AppendOnlyDB.computeStateRoot, h.hashes C horder]
  rfl

end Represents

section Logging

variable {start replica : AppendOnlyDB} {data : Bytes}

theorem readStep_encodePut (db : AppendOnlyDB) (k : Pubkey) {a : Account} (ha : Encodable S a) :
    readStep S db (encodePut S k a) = some (db.store S k a, []) := by
  have hread := readRecord_encodePut S k a ha.length_lt []
  rw [List.append_nil, ha.roundTrips.fromSlice_encoded] at hread
  rw [readStep, hread, Option.map_some]
  rfl

theorem readStep_encodeDelete (S : Serde Account) (db : AppendOnlyDB) (k : Pubkey) :
    readStep S db (encodeDelete k) = some ((db.remove k).2, []) := by
  have hread := readRecord_delete S k []
  rw [List.append_nil] at hread
  rw [readStep, hread, Option.map_some]
  rfl

theorem persist_run (S : Serde Account) (db : AppendOnlyDB) (u : Update) :
    (u.run S db).persist = db.persist.map (· ++ u.record S db) := by
  cases u with
  | store k a => rfl
  | remove k =>
    by_cases hk : k ∈ db.index
    · rw [Update.run, remove_of_mem hk, Update.record, if_pos hk]
    · rw [Update.run, remove_of_notMem hk, Update.record, if_neg hk]
      simp

theorem record_congr (S : Serde Account) {db db' : AppendOnlyDB}
    (h : db.index.keys = db'.index.keys) (u : Update) : u.record S db = u.record S db' := by
  cases u with
  | store k a => rfl
  | remove k =>
    have hmem : k ∈ db.index ↔ k ∈ db'.index := by
      rw [← Finmap.mem_keys, h, Finmap.mem_keys]
    rw [Update.record, Update.record]
    exact if_congr hmem rfl rfl

theorem reads_update (hreads : Scan.Reads (readStep S) start data replica) {u : Update}
    (hu : u.Encodable S) :
    Scan.Reads (readStep S) start (data ++ u.record S replica) (u.run S replica) := by
  cases u with
  | store k a => exact hreads.snoc (readStep_encodePut replica k hu)
  | remove k =>
    by_cases hk : k ∈ replica.index
    · rw [Update.record, if_pos hk]
      exact hreads.snoc (readStep_encodeDelete S replica k)
    · rw [Update.record, if_neg hk, Update.run, remove_of_notMem hk, List.append_nil]
      exact hreads

theorem reads_applyBatch (hreads : Scan.Reads (readStep S) start data replica)
    {updates : List (Pubkey × Account)} (hu : ∀ u ∈ updates, Encodable S u.2) :
    Scan.Reads (readStep S) start (data ++ updates.flatMap fun u => encodePut S u.1 u.2)
      (replica.applyBatch S updates) := by
  induction updates generalizing data replica with
  | nil => rwa [List.flatMap_nil, List.append_nil]
  | cons u us ih =>
    have hhead := hreads.snoc (readStep_encodePut replica u.1 (hu u List.mem_cons_self))
    rw [List.flatMap_cons, ← List.append_assoc]
    exact ih hhead fun v hv => hu v (List.mem_cons_of_mem u hv)

theorem open_of_reads (hreads : Scan.Reads (readStep S) new data replica) :
    .open S (some data) = { replica with persist := some data } := by
  rw [AppendOnlyDB.open, replay, (reader_readStep S).scanAll_reads hreads]

end Logging

structure Refines (S : Serde Account) (db : AppendOnlyDB) (m : AccountsDB) : Prop where
  live : Represents S db m
  logged : ∃ data replica, db.persist = some data ∧
    Scan.Reads (readStep S) new data replica ∧ Represents S replica m
  encodable : ∀ {k a}, m.load k = some a → Encodable S a

namespace Refines

variable {db : AppendOnlyDB} {m : AccountsDB}

theorem empty : Refines S (.open S none) .new where
  live := Represents.new.persist (some [])
  logged := ⟨[], .new, rfl, .nil, .new⟩
  encodable h := (Option.some_ne_none _ h.symm).elim

theorem update (h : Refines S db m) {u : Update} (hu : u.Encodable S) :
    Refines S (u.run S db) (u.apply m) := by
  obtain ⟨data, replica, hpersist, hreads, hreplica⟩ := h.logged
  refine ⟨h.live.update hu, ⟨data ++ u.record S db, u.run S replica, ?_, ?_, hreplica.update hu⟩, ?_⟩
  · rw [persist_run, hpersist, Option.map_some]
  · rw [record_congr S (h.live.keys_eq.trans hreplica.keys_eq.symm)]
    exact reads_update hreads hu
  · intro k a hk
    cases u with
    | store j b =>
      rw [Update.apply, AccountsDB.load_store] at hk
      split_ifs at hk with hj
      · cases hk
        exact hu
      · exact h.encodable hk
    | remove j =>
      rw [Update.apply, AccountsDB.load_remove] at hk
      split_ifs at hk
      exact h.encodable hk

theorem applyBatch (h : Refines S db m) {updates : List (Pubkey × Account)}
    (hu : ∀ u ∈ updates, Encodable S u.2) :
    Refines S (db.applyBatch S updates) (m.applyBatch updates) := by
  induction updates generalizing db m with
  | nil => exact h
  | cons u us ih =>
    have hhead : Refines S (db.store S u.1 u.2) (m.store u.1 u.2) :=
      h.update (u := .store u.1 u.2) (hu u List.mem_cons_self)
    exact ih hhead fun v hv => hu v (List.mem_cons_of_mem u hv)

theorem reopen (h : Refines S db m) : Refines S (.open S (some db.log)) m := by
  obtain ⟨data, replica, hpersist, hreads, hreplica⟩ := h.logged
  rw [log, hpersist, Option.getD_some, open_of_reads hreads]
  exact ⟨hreplica.persist _, ⟨data, replica, rfl, hreads, hreplica⟩, h.encodable⟩

end Refines

def liveAccounts (S : Serde Account) (order : List Pubkey) (db : AppendOnlyDB) :
    List (Pubkey × Account) :=
  order.filterMap fun k => (db.load S k).map (Prod.mk k)

theorem flatMap_liveAccounts (S : Serde Account) (order : List Pubkey) (db : AppendOnlyDB) :
    (order.flatMap fun k => ((db.load S k).map (encodePut S k)).getD []) =
      (db.liveAccounts S order).flatMap fun u => encodePut S u.1 u.2 := by
  induction order with
  | nil => rfl
  | cons k order ih =>
    rw [List.flatMap_cons, ih, liveAccounts, liveAccounts, List.filterMap_cons]
    cases db.load S k with
    | none => rfl
    | some a => rfl

theorem mem_liveAccounts {db : AppendOnlyDB} {order : List Pubkey} {k : Pubkey} {a : Account} :
    (k, a) ∈ db.liveAccounts S order ↔ k ∈ order ∧ db.load S k = some a := by
  simp only [liveAccounts, List.mem_filterMap, Option.map_eq_some_iff, Prod.mk.injEq]
  constructor
  · rintro ⟨j, hj, b, hb, rfl, rfl⟩
    exact ⟨hj, hb⟩
  · rintro ⟨hk, ha⟩
    exact ⟨k, hk, a, ha, rfl, rfl⟩

theorem Represents.applyBatch_liveAccounts {db : AppendOnlyDB} {m : AccountsDB}
    (h : Represents S db m) {order : List Pubkey} (horder : db.Iterates order) :
    AccountsDB.new.applyBatch (db.liveAccounts S order) = m := by
  have hmem : ∀ {k a}, (k, a) ∈ db.liveAccounts S order → m.load k = some a := by
    intro k a hk
    rw [← h.load_eq]
    exact (mem_liveAccounts.mp hk).2
  apply AccountsDB.ext_load
  intro k
  cases hk : m.load k with
  | none =>
    rw [AccountsDB.load_applyBatch_of_notMem, AccountsDB.load_new]
    intro hkey
    obtain ⟨⟨j, a⟩, hj, rfl⟩ := List.mem_map.mp hkey
    rw [hmem hj] at hk
    cases hk
  | some a =>
    have horderk : k ∈ order := by
      have hkeys : k ∈ db.index.keys.val := by
        rw [h.keys_eq]
        exact (Table.mem_keys_iff _ _).mpr (Option.isSome_of_eq_some hk)
      rwa [← horder, Multiset.mem_coe] at hkeys
    have hlive : (k, a) ∈ db.liveAccounts S order :=
      mem_liveAccounts.mpr ⟨horderk, by rw [h.load_eq, hk]⟩
    obtain ⟨b, hb⟩ := AccountsDB.load_applyBatch_of_mem .new (db.liveAccounts S order)
      (List.mem_map_of_mem hlive)
    obtain hnew | hbmem := AccountsDB.mem_of_load_applyBatch hb
    · cases hnew
    · rw [hb, ← hmem hbmem, hk]

theorem Refines.snapshot {db : AppendOnlyDB} {m : AccountsDB} (h : Refines S db m)
    {order : List Pubkey} (horder : db.Iterates order) : Refines S (db.snapshot S order) m := by
  obtain ⟨data, replica, hpersist, hreads, hreplica⟩ := h.logged
  have hencodable : ∀ u ∈ db.liveAccounts S order, Encodable S u.2 := by
    rintro ⟨k, a⟩ hu
    rw [mem_liveAccounts, h.live.load_eq] at hu
    exact h.encodable hu.2
  have hcompacted := reads_applyBatch (.nil : Scan.Reads (readStep S) new [] new) hencodable
  refine ⟨h.live.persist _, ⟨_, _, ?_, hcompacted, ?_⟩, h.encodable⟩
  · rw [AppendOnlyDB.snapshot, hpersist, Option.map_some, flatMap_liveAccounts, List.nil_append]
  · have hbatch := Represents.new.applyBatch hencodable
    rwa [h.live.applyBatch_liveAccounts horder] at hbatch

theorem Refines.op {db : AppendOnlyDB} {m : AccountsDB} (h : Refines S db m) {op : Op}
    (hallowed : op.Allowed db) (hop : op.Encodable S) : Refines S (op.run S db) (op.apply m) := by
  cases op with
  | update u => exact h.update hop
  | applyBatch updates => exact h.applyBatch hop
  | snapshot order => exact h.snapshot hallowed
  | reopen => exact h.reopen

end AppendOnlyDB

theorem refines_of_runs {S : Serde Account} {ops : List Op} {db : AppendOnlyDB}
    (hrun : Runs S ops db) (hops : ∀ op ∈ ops, op.Encodable S) :
    AppendOnlyDB.Refines S db (applyAll ops) := by
  induction hrun with
  | nil => exact .empty
  | snoc op hrun hallowed ih =>
    have hprev := ih fun o ho => hops o (List.mem_append_left _ ho)
    rw [applyAll, List.foldl_append]
    exact hprev.op hallowed (hops op (List.mem_append_right _ (List.mem_singleton_self op)))

theorem append_only_db_refines_map {S : Serde Account} (C : Crypto) {ops : List Op}
    {db : AppendOnlyDB} (hrun : Runs S ops db) (hops : ∀ op ∈ ops, op.Encodable S) :
    (∀ k, db.load S k = (applyAll ops).load k) ∧
      (∀ k, db.exists k = (applyAll ops).exists k) ∧
      db.accountCount = (applyAll ops).accountCount ∧
      ∀ order, db.Iterates order →
        (order : Multiset Pubkey) = (applyAll ops).index.keys.val ∧
          db.computeStateRoot S C order = (applyAll ops).computeStateRoot C := by
  have hlive := (refines_of_runs hrun hops).live
  refine ⟨hlive.load_eq, hlive.exists_eq, ?_, fun order horder => ⟨?_, ?_⟩⟩
  · rw [hlive.wellFormed.count_eq, hlive.keys_eq, AccountsDB.accountCount]
  · rw [horder, hlive.keys_eq]
  · exact hlive.computeStateRoot C horder

def savings (lamports : UInt64) : Account := .newSystemAccount (Bytes32.splat 3) lamports

theorem encodable_savings (lamports : UInt64) : Encodable Account.codec (savings lamports) :=
  ⟨Account.codec_roundTrips _, by
    simp [Serde.encoded, Account.codec, savings, Account.newSystemAccount, Account.preimage,
      Account.dataPreimage, Bytes32.length_eq]⟩

def compactedOps : List Op :=
  [.update (.store (Bytes32.splat 3) (savings 7)),
    .applyBatch [(Bytes32.splat 4, savings 8), (Bytes32.splat 3, savings 5)],
    .update (.remove (Bytes32.splat 4)),
    .snapshot [Bytes32.splat 3],
    .reopen,
    .update (.store (Bytes32.splat 4) (savings 2)),
    .reopen]

theorem encodable_compactedOps : ∀ op ∈ compactedOps, op.Encodable Account.codec := by
  have hbatch : ∀ u ∈ [(Bytes32.splat 4, savings 8), (Bytes32.splat 3, savings 5)],
      Encodable Account.codec u.2 := by
    intro u hu
    fin_cases hu <;> exact encodable_savings _
  intro op hop
  fin_cases hop
  · exact encodable_savings 7
  · exact hbatch
  · trivial
  · trivial
  · trivial
  · exact encodable_savings 2
  · trivial

theorem compactedOps_refine :
    ∃ db, Runs Account.codec compactedOps db ∧
      db.load Account.codec (Bytes32.splat 3) = some (savings 5) ∧
      db.exists (Bytes32.splat 4) = true ∧ db.accountCount = 2 ∧
      db.computeStateRoot Account.codec acceptingCrypto [Bytes32.splat 4, Bytes32.splat 3] =
        (applyAll compactedOps).computeStateRoot acceptingCrypto := by
  have hrun : Runs Account.codec compactedOps _ :=
    ((((((Runs.nil.snoc (.update _) trivial).snoc (.applyBatch _) trivial).snoc (.update _)
      trivial).snoc (.snapshot _) (show AppendOnlyDB.Iterates _ _ by decide +kernel)).snoc .reopen
        trivial).snoc (.update _) trivial).snoc .reopen trivial
  obtain ⟨hload, hexists, hcount, horder⟩ :=
    append_only_db_refines_map acceptingCrypto hrun encodable_compactedOps
  refine ⟨_, hrun, ?_, ?_, ?_, ?_⟩
  · rw [hload]
    decide +kernel
  · rw [hexists]
    decide +kernel
  · rw [hcount]
    decide +kernel
  · exact (horder _ (by decide +kernel)).2

end TrustNode.Accounts
