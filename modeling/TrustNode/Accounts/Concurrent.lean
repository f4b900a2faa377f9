import TrustNode.Accounts.Refinement
import TrustNode.Base.Linearize

namespace TrustNode.Accounts

open Linearize

inductive Call where
  | load (pubkey : Pubkey)
  | «exists» (pubkey : Pubkey)
  | update (u : Update)

inductive Reply where
  | loaded (account : Option Account)
  | found (present : Bool)
  | stored
  | removed (present : Bool)
deriving DecidableEq

namespace Call

def apply (m : AccountsDB) : Call → AccountsDB
  | load _ | «exists» _ => m
  | update u => u.apply m

def reply (m : AccountsDB) : Call → Reply
  | load k => .loaded (m.load k)
  | «exists» k => .found (m.exists k)
  | update (.store _ _) => .stored
  | update (.remove k) => .removed (m.exists k)

def run (S : Serde Account) (db : AppendOnlyDB) : Call → AppendOnlyDB
  | load _ | «exists» _ => db
  | update u => u.run S db

def answer (S : Serde Account) (db : AppendOnlyDB) : Call → Reply
  | load k => .loaded (db.load S k)
  | «exists» k => .found (db.exists k)
  | update (.store _ _) => .stored
  | update (.remove k) => .removed (db.remove k).1

def updates : Call → Option Pubkey
  | load _ | «exists» _ => none
  | update (.store k _) => some k
  | update (.remove k) => some k

def Encodable (S : Serde Account) : Call → Prop
  | load _ | «exists» _ => True
  | update u => u.Encodable S

end Call

def accountsObject : SeqObject AccountsDB Call Reply where
  apply := Call.apply
  reply := Call.reply

namespace AppendOnlyDB

def read (S : Serde Account) (db : AppendOnlyDB) (location : AccountLocation) : Option Account :=
  if db.storage.length < location.offset + location.length then none
  else S.fromSlice ((db.storage.drop location.offset).take location.length)

theorem load_eq_read (S : Serde Account) (db : AppendOnlyDB) (k : Pubkey) :
    db.load S k = (db.index.lookup k).bind (db.read S) := rfl

end AppendOnlyDB

inductive Phase where
  | loading (k : Pubkey)
  | located (k : Pubkey) (location : AccountLocation)
  | probing (k : Pubkey)
  | storing (k : Pubkey) (a : Account)
  | numbered (k : Pubkey) (a : Account) (writeVersion : ℕ)
  | appended (k : Pubkey) (a : Account) (location : AccountLocation)
  | checked (k : Pubkey) (a : Account) (location : AccountLocation) (isNew : Bool)
  | indexed (k : Pubkey) (a : Account) (isNew : Bool)
  | counted (k : Pubkey) (a : Account)
  | totalled (k : Pubkey) (a : Account)
  | removing (k : Pubkey)
  | unindexed (k : Pubkey)
  | uncounted (k : Pubkey)

namespace Phase

def enter : Call → Phase
  | .load k => loading k
  | .exists k => probing k
  | .update (.store k a) => storing k a
  | .update (.remove k) => removing k

def call : Phase → Call
  | loading k | located k _ => .load k
  | probing k => .exists k
  | storing k a | numbered k a _ | appended k a _ | checked k a _ _ | indexed k a _ | counted k a
  | totalled k a => .update (.store k a)
  | removing k | unindexed k | uncounted k => .update (.remove k)

def decided : Phase → Option Reply
  | indexed _ _ _ | counted _ _ | totalled _ _ => some .stored
  | unindexed _ | uncounted _ => some (.removed true)
  | _ => none

-- Each step is one acquisition of a lock of the store: the version counter, the buffer, a shard of
-- the index, the two totals, the log. `remove` keeps the lock of the account count while it writes
-- its record; leaving that out only allows more schedules.
def advance (S : Serde Account) (db : AppendOnlyDB) : Phase → AppendOnlyDB × (Phase ⊕ Reply)
  | loading k =>
    match db.index.lookup k with
    | none => (db, .inr (.loaded none))
    | some location => (db, .inl (located k location))
  | located _ location => (db, .inr (.loaded (db.read S location)))
  | probing k => (db, .inr (.found (k ∈ db.index)))
  | storing k a =>
    ({ db with writeVersion := db.writeVersion + 1 }, .inl (numbered k a (db.writeVersion + 1)))
  | numbered k a writeVersion =>
    ({ db with storage := db.storage ++ S.encoded a },
      .inl (appended k a ⟨db.storage.length, (S.encoded a).length, writeVersion⟩))
  | appended k a location => (db, .inl (checked k a location (k ∉ db.index)))
  | checked k a location isNew =>
    ({ db with index := db.index.insert k location }, .inl (indexed k a isNew))
  | indexed k a isNew =>
    ({ db with accountCount := if isNew then db.accountCount + 1 else db.accountCount },
      .inl (counted k a))
  | counted k a =>
    ({ db with totalBytes := db.totalBytes + (S.encoded a).length }, .inl (totalled k a))
  | totalled k a => ({ db with persist := db.persist.map (· ++ encodePut S k a) }, .inr .stored)
  | removing k =>
    if k ∈ db.index then ({ db with index := db.index.erase k }, .inl (unindexed k))
    else (db, .inr (.removed false))
  | unindexed k =>
    ({ db with accountCount := if 0 < db.accountCount then db.accountCount - 1 else db.accountCount },
      .inl (uncounted k))
  | uncounted k =>
    ({ db with persist := db.persist.map (· ++ encodeDelete k) }, .inr (.removed true))

def left : Phase → ℕ
  | storing _ _ => 7
  | numbered _ _ _ => 6
  | appended _ _ _ => 5
  | checked _ _ _ _ => 4
  | indexed _ _ _ | removing _ => 3
  | counted _ _ | unindexed _ | loading _ => 2
  | totalled _ _ | uncounted _ | located _ _ | probing _ => 1

def touches : Phase → Option Pubkey
  | checked k _ _ _ | removing k => some k
  | _ => none

def guards : Phase → Option Pubkey
  | located k _ => some k
  | _ => none

def pins : Phase → Option Pubkey
  | located k _ | checked k _ _ _ | indexed k _ _ | counted k _ | totalled k _ | unindexed k
  | uncounted k => some k
  | _ => none

def unlogged : Phase → Option Pubkey
  | indexed k _ _ | counted k _ | totalled k _ | unindexed k | uncounted k => some k
  | _ => none

def arriving : Phase → ℕ
  | indexed _ _ true => 1
  | _ => 0

def leaving : Phase → ℕ
  | unindexed _ => 1
  | _ => 0

theorem call_enter (x : Call) : (enter x).call = x := by
  rcases x with k | k | (⟨k, a⟩ | k) <;> rfl

theorem touches_updates {p : Phase} {k : Pubkey} (h : p.touches = some k) :
    p.call.updates = some k := by
  cases p <;> first | exact h | cases h

theorem pins_cases {p : Phase} {k : Pubkey} (h : p.pins = some k) :
    p.guards = some k ∨ p.call.updates = some k := by
  cases p with
  | located k location => exact .inl h
  | loading k => cases h
  | probing k => cases h
  | storing k a => cases h
  | numbered k a writeVersion => cases h
  | appended k a location => cases h
  | removing k => cases h
  | _ => exact .inr h

theorem located_of_advance {S : Serde Account} {db : AppendOnlyDB} {k : Pubkey} {q : Phase}
    (h : ((loading k).advance S db).2 = .inl q) : ∃ location, q = located k location := by
  rw [advance] at h
  cases hlookup : db.index.lookup k with
  | none =>
    rw [hlookup] at h
    cases h
  | some location =>
    rw [hlookup] at h
    exact ⟨location, (Sum.inl.inj h).symm⟩

theorem unindexed_of_advance {S : Serde Account} {db : AppendOnlyDB} {k : Pubkey} {q : Phase}
    (h : ((removing k).advance S db).2 = .inl q) : q = unindexed k := by
  rw [advance] at h
  split_ifs at h
  exact (Sum.inl.inj h).symm

theorem call_advance (S : Serde Account) (db : AppendOnlyDB) (p q : Phase)
    (h : (p.advance S db).2 = .inl q) : q.call = p.call := by
  cases p with
  | loading k =>
    obtain ⟨location, rfl⟩ := located_of_advance h
    rfl
  | removing k =>
    obtain rfl := unindexed_of_advance h
    rfl
  | located k location => cases h
  | probing k => cases h
  | totalled k a => cases h
  | uncounted k => cases h
  | storing k a => cases h; rfl
  | numbered k a writeVersion => cases h; rfl
  | appended k a location => cases h; rfl
  | checked k a location isNew => cases h; rfl
  | indexed k a isNew => cases h; rfl
  | counted k a => cases h; rfl
  | unindexed k => cases h; rfl

theorem decided_advance (S : Serde Account) (db : AppendOnlyDB) (p q : Phase) (r : Reply)
    (h : (p.advance S db).2 = .inl q) (hr : p.decided = some r) : q.decided = some r := by
  cases p with
  | indexed k a isNew => cases h; exact hr
  | counted k a => cases h; exact hr
  | unindexed k => cases h; exact hr
  | totalled k a => cases h
  | uncounted k => cases h
  | _ => cases hr

theorem decided_return (S : Serde Account) (db : AppendOnlyDB) (p : Phase) (r r' : Reply)
    (h : (p.advance S db).2 = .inr r') (hr : p.decided = some r) : r' = r := by
  cases p with
  | totalled k a => cases h; cases hr; rfl
  | uncounted k => cases h; cases hr; rfl
  | indexed k a isNew => cases h
  | counted k a => cases h
  | unindexed k => cases h
  | _ => cases hr

end Phase

def storeMachine (S : Serde Account) : Machine AppendOnlyDB Phase Call Reply where
  enter := Phase.enter
  call := Phase.call
  decided := Phase.decided
  advance := fun db p => p.advance S db
  call_enter := Phase.call_enter
  decided_enter := by
    rintro (k | k | (⟨k, a⟩ | k)) <;> rfl
  call_advance := Phase.call_advance S
  decided_advance := Phase.decided_advance S
  decided_return := Phase.decided_return S

section Policy

variable {ι : Type}

def allowed (threads : ι → Option Phase) (p : Phase) : Prop :=
  ∀ j q k, threads j = some q → p.touches = some k → q.guards ≠ some k

def Alone (threads : ι → Option Phase) (x : Call) : Prop :=
  ∀ j q k, threads j = some q → x.updates = some k → q.call.updates ≠ some k

def Exclusive (threads : ι → Option Phase) : Prop :=
  ∀ i j p q k, threads i = some p → threads j = some q → p.call.updates = some k →
    q.call.updates = some k → i = j

variable [DecidableEq ι] {threads : ι → Option Phase} {i : ι}

theorem update_cases {o : Option Phase} {j : ι} {q : Phase}
    (h : Function.update threads i o j = some q) : j = i ∧ o = some q ∨ j ≠ i ∧ threads j = some q := by
  rw [Function.update_apply] at h
  split_ifs at h with hj
  · exact .inl ⟨hj, h⟩
  · exact .inr ⟨hj, h⟩

theorem Exclusive.enter (h : Exclusive threads) {x : Call} (hx : Alone threads x) :
    Exclusive (Function.update threads i (some (.enter x))) := by
  have hcall : ∀ q, some (Phase.enter x) = some q → q.call = x := by
    rintro q ⟨⟩
    exact Phase.call_enter x
  intro a b p q k ha hb hp hq
  rcases update_cases ha with ⟨rfl, hpa⟩ | ⟨-, hpa⟩ <;>
    rcases update_cases hb with ⟨rfl, hqb⟩ | ⟨-, hqb⟩
  · rfl
  · exact absurd hq (hx b q k hqb (hcall p hpa ▸ hp))
  · exact absurd hp (hx a p k hpa (hcall q hqb ▸ hq))
  · exact h a b p q k hpa hqb hp hq

theorem Exclusive.advance (h : Exclusive threads) {p : Phase} (hi : threads i = some p)
    {o : Option Phase} (ho : ∀ q, o = some q → q.call = p.call) :
    Exclusive (Function.update threads i o) := by
  intro a b p' q k ha hb hp hq
  rcases update_cases ha with ⟨rfl, hpa⟩ | ⟨-, hpa⟩ <;>
    rcases update_cases hb with ⟨rfl, hqb⟩ | ⟨-, hqb⟩
  · rfl
  · exact h a b p q k hi hqb (ho p' hpa ▸ hp) hq
  · exact h a b p' p k hpa hi hp (ho q hqb ▸ hq)
  · exact h a b p' q k hpa hqb hp hq

end Policy

namespace AppendOnlyDB

variable {S : Serde Account} {db : AppendOnlyDB} {m : AccountsDB}

structure Mirrors (S : Serde Account) (db : AppendOnlyDB) (m : AccountsDB) : Prop where
  in_bounds : ∀ {k location}, db.index.lookup k = some location →
    location.offset + location.length ≤ db.storage.length
  keys_eq : db.index.keys = m.index.keys
  load_eq : ∀ k, db.load S k = m.load k

structure Written (S : Serde Account) (db : AppendOnlyDB) (location : AccountLocation)
    (a : Account) : Prop where
  in_bounds : location.offset + location.length ≤ db.storage.length
  read_eq : db.read S location = some a

theorem read_append {location : AccountLocation} {tail : Bytes} {db' : AppendOnlyDB}
    (h : location.offset + location.length ≤ db.storage.length)
    (hgrows : db'.storage = db.storage ++ tail) : db'.read S location = db.read S location := by
  have hlonger : location.offset + location.length ≤ (db.storage ++ tail).length := by
    rw [List.length_append]
    omega
  rw [read, read, hgrows, if_neg hlonger.not_gt, if_neg h.not_gt,
    List.drop_append_of_le_length (by omega),
    List.take_append_of_le_length (by rw [List.length_drop]; omega)]

theorem written_appended {a : Account} (ha : S.RoundTrips a) (writeVersion : ℕ)
    {db' : AppendOnlyDB} (hgrows : db'.storage = db.storage ++ S.encoded a) :
    Written S db' ⟨db.storage.length, (S.encoded a).length, writeVersion⟩ a := by
  have hlength : db.storage.length + (S.encoded a).length = db'.storage.length := by
    rw [hgrows, List.length_append]
  refine ⟨hlength.le, ?_⟩
  rw [read, if_neg hlength.le.not_gt, hgrows, List.drop_left, List.take_length]
  exact ha.fromSlice_encoded

theorem Written.append {location : AccountLocation} {a : Account} (h : Written S db location a)
    {db' : AppendOnlyDB} {tail : Bytes} (hgrows : db'.storage = db.storage ++ tail) :
    Written S db' location a where
  in_bounds := by
    rw [hgrows, List.length_append]
    exact h.in_bounds.trans (Nat.le_add_right _ _)
  read_eq := (read_append h.in_bounds hgrows).trans h.read_eq

theorem Mirrors.append (h : Mirrors S db m) {db' : AppendOnlyDB} {tail : Bytes}
    (hindex : db'.index = db.index) (hgrows : db'.storage = db.storage ++ tail) :
    Mirrors S db' m where
  in_bounds := by
    intro k location hk
    rw [hindex] at hk
    rw [hgrows, List.length_append]
    exact (h.in_bounds hk).trans (Nat.le_add_right _ _)
  keys_eq := hindex ▸ h.keys_eq
  load_eq := by
    intro k
    rw [← h.load_eq, load_eq_read, load_eq_read, hindex]
    exact Option.bind_congr fun location hk => read_append (h.in_bounds hk) hgrows

theorem Mirrors.insert (h : Mirrors S db m) {location : AccountLocation} {a : Account}
    (hw : Written S db location a) (k : Pubkey) :
    Mirrors S { db with index := db.index.insert k location } (m.store k a) where
  in_bounds := by
    intro j location' hj
    rw [Table.lookup_insert] at hj
    split_ifs at hj with hjk
    · cases hj
      exact hw.in_bounds
    · exact h.in_bounds hj
  keys_eq := by rw [AccountsDB.store, Table.keys_insert, Table.keys_insert, h.keys_eq]
  load_eq := by
    intro j
    rw [load_eq_read, AccountsDB.load_store, Table.lookup_insert]
    split_ifs with hjk
    · exact hw.read_eq
    · exact h.load_eq j

theorem Mirrors.erase (h : Mirrors S db m) (k : Pubkey) :
    Mirrors S { db with index := db.index.erase k } (m.remove k) where
  in_bounds := by
    intro j location hj
    rw [Table.lookup_erase] at hj
    split_ifs at hj
    exact h.in_bounds hj
  keys_eq := by rw [AccountsDB.remove, Finmap.keys_erase, Finmap.keys_erase, h.keys_eq]
  load_eq := by
    intro j
    rw [load_eq_read, AccountsDB.load_remove, Table.lookup_erase]
    split_ifs with hjk
    · rfl
    · exact h.load_eq j

theorem Mirrors.mem_iff (h : Mirrors S db m) (k : Pubkey) : k ∈ db.index ↔ m.exists k = true := by
  rw [AccountsDB.exists, Finmap.lookup_isSome, ← Finmap.mem_keys, ← Finmap.mem_keys, h.keys_eq]

theorem Represents.mirrors (h : Represents S db m) : Mirrors S db m :=
  ⟨h.wellFormed.in_bounds, h.keys_eq, h.load_eq⟩

end AppendOnlyDB

end TrustNode.Accounts
