import TrustNode.Base.Table
import TrustNode.Accounts.Account
import TrustNode.Accounts.Merkle

namespace TrustNode.Accounts

@[ext] structure AccountsDB where
  index : Table Pubkey Account

namespace AccountsDB

def new : AccountsDB := ⟨∅⟩

def load (db : AccountsDB) (pubkey : Pubkey) : Option Account := db.index.lookup pubkey

def «exists» (db : AccountsDB) (pubkey : Pubkey) : Bool := (db.index.lookup pubkey).isSome

def store (db : AccountsDB) (pubkey : Pubkey) (account : Account) : AccountsDB :=
  ⟨db.index.insert pubkey account⟩

def remove (db : AccountsDB) (pubkey : Pubkey) : AccountsDB := ⟨db.index.erase pubkey⟩

def applyBatch (db : AccountsDB) (updates : List (Pubkey × Account)) : AccountsDB :=
  updates.foldl (fun db u => db.store u.1 u.2) db

def accountCount (db : AccountsDB) : ℕ := db.index.keys.card

def supply (db : AccountsDB) : ℕ := Table.total (fun _ a => a.lamports.toNat) db.index

def hashes (C : Crypto) (db : AccountsDB) : List Bytes32 :=
  Table.sorted (db.index.entries.map fun e => e.2.hash C)

def computeStateRoot (C : Crypto) (db : AccountsDB) : Bytes32 := StateRoot.compute C (db.hashes C)

theorem ext_load {db db' : AccountsDB} (h : ∀ k, db.load k = db'.load k) : db = db' := by
  apply AccountsDB.ext
  exact Finmap.ext_lookup h

@[simp] theorem load_new (k : Pubkey) : new.load k = none := rfl

theorem load_store (db : AccountsDB) (k : Pubkey) (a : Account) (j : Pubkey) :
    (db.store k a).load j = if j = k then some a else db.load j :=
  Table.lookup_insert db.index k a j

@[simp] theorem load_store_self (db : AccountsDB) (k : Pubkey) (a : Account) :
    (db.store k a).load k = some a := by rw [load_store, if_pos rfl]

theorem load_store_of_ne (db : AccountsDB) {k j : Pubkey} (a : Account) (h : j ≠ k) :
    (db.store k a).load j = db.load j := by rw [load_store, if_neg h]

theorem exists_load_store {db : AccountsDB} {k j : Pubkey} {a y : Account} {P : Account → Prop}
    (ha : db.load k = some a) (hj : k = j → P y) (hk : k ≠ j → P a) :
    ∃ a', (db.store j y).load k = some a' ∧ P a' := by
  rw [load_store]
  split_ifs with h
  · exact ⟨y, rfl, hj h⟩
  · exact ⟨a, ha, hk h⟩

theorem exists_load_store_store {db : AccountsDB} {k i j : Pubkey} {a x y : Account}
    {P : Account → Prop} (ha : db.load k = some a) (hj : k = j → P y)
    (hi : k ≠ j → k = i → P x) (hk : k ≠ j → k ≠ i → P a) :
    ∃ a', ((db.store i x).store j y).load k = some a' ∧ P a' := by
  obtain ⟨b, hb, hP⟩ := exists_load_store (P := fun b => k ≠ j → P b) ha
    (fun he hne => hi hne he) fun hne hj => hk hj hne
  exact exists_load_store hb hj hP

theorem load_remove (db : AccountsDB) (k j : Pubkey) :
    (db.remove k).load j = if j = k then none else db.load j :=
  Table.lookup_erase db.index k j

theorem store_store (db : AccountsDB) (k : Pubkey) (a b : Account) :
    (db.store k a).store k b = db.store k b := by
  apply ext_load
  intro j
  by_cases h : j = k <;> simp [load_store, h]

theorem load_applyBatch_of_notMem (db : AccountsDB) (updates : List (Pubkey × Account))
    {j : Pubkey} (h : j ∉ updates.map Prod.fst) : (db.applyBatch updates).load j = db.load j := by
  induction updates generalizing db with
  | nil => rfl
  | cons u us ih =>
    simp only [List.map_cons, List.mem_cons, not_or] at h
    have hrest := ih (db.store u.1 u.2) h.2
    rwa [load_store_of_ne db u.2 h.1] at hrest

theorem load_applyBatch_of_mem (db : AccountsDB) (updates : List (Pubkey × Account))
    {j : Pubkey} (h : j ∈ updates.map Prod.fst) : ∃ a, (db.applyBatch updates).load j = some a := by
  induction updates generalizing db with
  | nil => simp at h
  | cons u us ih =>
    by_cases hj : j ∈ us.map Prod.fst
    · exact ih (db.store u.1 u.2) hj
    · have hrest := load_applyBatch_of_notMem (db.store u.1 u.2) us hj
      rw [List.map_cons, List.mem_cons, or_iff_left hj] at h
      subst h
      rw [load_store_self] at hrest
      exact ⟨u.2, hrest⟩

theorem mem_of_load_applyBatch {db : AccountsDB} {updates : List (Pubkey × Account)} {j : Pubkey}
    {a : Account} (h : (db.applyBatch updates).load j = some a) :
    db.load j = some a ∨ (j, a) ∈ updates := by
  induction updates generalizing db with
  | nil => exact .inl h
  | cons u us ih =>
    obtain hload | hmem := ih h
    · rw [load_store] at hload
      split_ifs at hload with hj
      · cases hload
        subst hj
        exact .inr List.mem_cons_self
      · exact .inl hload
    · exact .inr (List.mem_cons_of_mem u hmem)

theorem ne_of_load {db : AccountsDB} {k j : Pubkey} {a : Account} (hk : db.load k = none)
    (hj : db.load j = some a) : k ≠ j := by
  rintro rfl
  rw [hk] at hj
  cases hj

theorem exists_eq (db : AccountsDB) (k : Pubkey) : db.exists k = (db.load k).isSome := rfl

theorem load_of_not_exists {db : AccountsDB} {k : Pubkey} (h : ¬db.exists k = true) :
    db.load k = none := Option.not_isSome_iff_eq_none.mp h

end AccountsDB

end TrustNode.Accounts
