import TrustNode.Accounts.Concurrent

namespace TrustNode.Accounts

open AppendOnlyDB
open Linearize

def Phase.Sound (S : Serde Account) (db : AppendOnlyDB) (m : AccountsDB) : Phase → Prop
  | .loading _ | .probing _ | .removing _ => True
  | .located k location => db.index.lookup k = some location
  | .storing _ a | .numbered _ a _ => Encodable S a
  | .appended _ a location => Encodable S a ∧ Written S db location a
  | .checked k a location isNew =>
    Encodable S a ∧ Written S db location a ∧ (isNew = true ↔ k ∉ db.index)
  | .indexed k a _ | .counted k a | .totalled k a => Encodable S a ∧ m.load k = some a
  | .unindexed k | .uncounted k => m.load k = none

section Threads

variable {S : Serde Account} {db db' : AppendOnlyDB} {m m' : AccountsDB} {tail : Bytes}

theorem Phase.Sound.frame {q : Phase} (h : q.Sound S db m)
    (hgrows : db'.storage = db.storage ++ tail)
    (hpins : ∀ k, q.pins = some k →
      db'.index.lookup k = db.index.lookup k ∧ m'.load k = m.load k) : q.Sound S db' m' := by
  cases q with
  | loading k => trivial
  | probing k => trivial
  | removing k => trivial
  | located k location => exact (hpins k rfl).1.trans h
  | storing k a => exact h
  | numbered k a writeVersion => exact h
  | appended k a location => exact ⟨h.1, h.2.append hgrows⟩
  | checked k a location isNew =>
    refine ⟨h.1, h.2.1.append hgrows, h.2.2.trans ?_⟩
    rw [← Finmap.lookup_eq_none, ← Finmap.lookup_eq_none, (hpins k rfl).1]
  | indexed k a isNew => exact ⟨h.1, (hpins k rfl).2.trans h.2⟩
  | counted k a => exact ⟨h.1, (hpins k rfl).2.trans h.2⟩
  | totalled k a => exact ⟨h.1, (hpins k rfl).2.trans h.2⟩
  | unindexed k => exact (hpins k rfl).2.trans h
  | uncounted k => exact (hpins k rfl).2.trans h

variable {ι : Type} {threads : ι → Option Phase} {i : ι} {o : Option Phase}

def Logged (S : Serde Account) (db : AppendOnlyDB) (threads : ι → Option Phase) (m : AccountsDB) :
    Prop :=
  ∃ data replica m', db.persist = some data ∧ Scan.Reads (readStep S) new data replica ∧
    Represents S replica m' ∧
    ∀ k, (∀ i, (threads i).bind Phase.unlogged ≠ some k) → m'.load k = m.load k

theorem Logged.put [DecidableEq ι] (h : Logged S db threads m) (hpersist : db'.persist = db.persist)
    (hsame : ∀ k, o.bind Phase.unlogged ≠ some k →
      (threads i).bind Phase.unlogged ≠ some k ∧ m'.load k = m.load k) :
    Logged S db' (Function.update threads i o) m' := by
  obtain ⟨data, replica, n, hdata, hreads, hreplica, hn⟩ := h
  refine ⟨data, replica, n, hpersist.trans hdata, hreads, hreplica, fun k hk => ?_⟩
  have hi := hk i
  rw [Function.update_self] at hi
  refine (hn k fun j => ?_).trans (hsame k hi).2.symm
  rcases eq_or_ne j i with rfl | hne
  · exact (hsame k hi).1
  · have hj := hk j
    rwa [Function.update_of_ne hne] at hj

theorem Logged.log [DecidableEq ι] (h : Logged S db threads m) {k : Pubkey} {u : Update}
    {frame : Bytes} (hu : u.Encodable S)
    (hframe : ∀ replica, readStep S replica frame = some (u.run S replica, []))
    (hother : ∀ n j, j ≠ k → (u.apply n).load j = n.load j)
    (hself : ∀ n, (u.apply n).load k = m.load k)
    (hi : (threads i).bind Phase.unlogged = some k)
    (hpersist : db'.persist = db.persist.map (· ++ frame)) :
    Logged S db' (Function.update threads i none) m := by
  obtain ⟨data, replica, n, hdata, hreads, hreplica, hn⟩ := h
  refine ⟨data ++ frame, u.run S replica, u.apply n, ?_, hreads.snoc (hframe replica),
    hreplica.update hu, fun j hj => ?_⟩
  · rw [hpersist, hdata, Option.map_some]
  · rcases eq_or_ne j k with rfl | hne
    · exact hself n
    · refine (hother n j hne).trans (hn j fun x => ?_)
      rcases eq_or_ne x i with rfl | hx
      · rw [hi]
        exact fun he => hne (Option.some.inj he).symm
      · have hx' := hj x
        rwa [Function.update_of_ne hx] at hx'

variable [Fintype ι]

theorem arriving_le_one (p : Phase) : p.arriving ≤ 1 := by
  unfold Phase.arriving
  split <;> omega

theorem exists_of_arriving {p : Phase} (h : p.arriving = 1) : ∃ k a, p = .indexed k a true := by
  unfold Phase.arriving at h
  split at h
  · exact ⟨_, _, rfl⟩
  · cases h

-- The stores that have entered the index but not yet the count have distinct keys, all in the index.
theorem tally_arriving_le (hexclusive : Exclusive threads) (hmirrors : Mirrors S db m)
    (hsound : ∀ i p, threads i = some p → p.Sound S db m) :
    tally Phase.arriving threads ≤ db.index.keys.card := by
  classical
  have hboole : ∀ i, (threads i).elim 0 Phase.arriving =
      if ∃ p, threads i = some p ∧ p.arriving = 1 then 1 else 0 := by
    intro i
    cases hi : threads i with
    | none => simp
    | some p =>
      have hle := arriving_le_one p
      simp only [Option.elim_some, Option.some.injEq, exists_eq_left']
      split_ifs <;> omega
  rw [tally, Finset.sum_congr rfl fun i _ => hboole i, ← Finset.card_filter,
    ← Finset.card_image_of_injective db.index.keys (Option.some_injective _)]
  have hkey : ∀ i, (∃ p, threads i = some p ∧ p.arriving = 1) →
      ∃ k p, threads i = some p ∧ p.call.updates = some k ∧ p.unlogged = some k ∧
        k ∈ db.index.keys := by
    rintro i ⟨p, hi, hp⟩
    obtain ⟨k, a, rfl⟩ := exists_of_arriving hp
    refine ⟨k, _, hi, rfl, rfl, ?_⟩
    rw [hmirrors.keys_eq]
    exact (Table.mem_keys_iff _ _).mpr (Option.isSome_of_eq_some (hsound i _ hi).2)
  refine Finset.card_le_card_of_injOn (fun i => (threads i).bind Phase.unlogged) ?_ ?_
  · intro i hi
    obtain ⟨k, p, hp, -, hlog, hk⟩ := hkey i (Finset.mem_filter.mp hi).2
    simp only [hp, Option.bind_some, hlog]
    exact Finset.mem_coe.mpr (Finset.mem_image_of_mem some hk)
  · intro i hi j hj heq
    obtain ⟨k, p, hp, hpk, hlogp, -⟩ := hkey i (Finset.mem_filter.mp hi).2
    obtain ⟨l, q, hq, hqk, hlogq, -⟩ := hkey j (Finset.mem_filter.mp hj).2
    simp only [hp, hq, Option.bind_some, hlogp, hlogq, Option.some.injEq] at heq
    subst heq
    exact hexclusive i j p q k hp hq hpk hqk

end Threads

section Invariant

variable {ι : Type} [Fintype ι] {S : Serde Account} {db db' : AppendOnlyDB} {m m' : AccountsDB}
  {threads : ι → Option Phase} {i : ι} {o : Option Phase} {tail : Bytes}

structure Consistent (S : Serde Account) (db : AppendOnlyDB) (threads : ι → Option Phase)
    (m : AccountsDB) : Prop where
  mirrors : Mirrors S db m
  sound : ∀ i p, threads i = some p → p.Sound S db m
  exclusive : Exclusive threads
  count : db.accountCount + tally Phase.arriving threads =
    db.index.keys.card + tally Phase.leaving threads
  logged : Logged S db threads m
  encodable : ∀ {k a}, m.load k = some a → Encodable S a

namespace Consistent

theorem start (h : Refines S db m) : Consistent S db (fun _ : ι => none) m where
  mirrors := h.live.mirrors
  sound := fun _ _ hi => by cases hi
  exclusive := fun _ _ _ _ _ hi => by cases hi
  count := by
    rw [h.live.wellFormed.count_eq]
    simp [tally]
  logged := by
    obtain ⟨data, replica, hdata, hreads, hreplica⟩ := h.logged
    exact ⟨data, replica, m, hdata, hreads, hreplica, fun _ _ => rfl⟩
  encodable := h.encodable

variable [DecidableEq ι]

theorem put (h : Consistent S db threads m) (hmirrors : Mirrors S db' m')
    (hgrows : db'.storage = db.storage ++ tail)
    (hframe : ∀ j q k, j ≠ i → threads j = some q → q.pins = some k →
      db'.index.lookup k = db.index.lookup k ∧ m'.load k = m.load k)
    (hsound : ∀ q, o = some q → q.Sound S db' m')
    (hexclusive : Exclusive (Function.update threads i o))
    (hcount : db'.accountCount + o.elim 0 Phase.arriving +
        (db.index.keys.card + (threads i).elim 0 Phase.leaving) =
      db.accountCount + (threads i).elim 0 Phase.arriving +
        (db'.index.keys.card + o.elim 0 Phase.leaving))
    (hlogged : Logged S db' (Function.update threads i o) m')
    (hencodable : ∀ {k a}, m'.load k = some a → Encodable S a) :
    Consistent S db' (Function.update threads i o) m' where
  mirrors := hmirrors
  sound := by
    intro j q hj
    rcases update_cases hj with ⟨-, hq⟩ | ⟨hne, hq⟩
    · exact hsound q hq
    · exact (h.sound j q hq).frame hgrows fun k hk => hframe j q k hne hq hk
  exclusive := hexclusive
  count := by
    have harriving := tally_update Phase.arriving threads i o
    have hleaving := tally_update Phase.leaving threads i o
    have hbefore := h.count
    omega
  logged := hlogged
  encodable := hencodable

theorem enter (h : Consistent S db threads m) (hi : threads i = none) {x : Call}
    (hx : Alone threads x) (hencodable : x.Encodable S) :
    Consistent S db (Function.update threads i (some (.enter x))) m := by
  refine h.put h.mirrors (List.append_nil _).symm (fun _ _ _ _ _ _ => ⟨rfl, rfl⟩) ?_
    (h.exclusive.enter hx) ?_ (h.logged.put rfl fun k hk => ?_) h.encodable
  · rintro q ⟨⟩
    rcases x with k | k | (⟨k, a⟩ | k)
    · trivial
    · trivial
    · exact hencodable
    · trivial
  · rw [hi]
    rcases x with k | k | (⟨k, a⟩ | k) <;> rfl
  · rw [hi]
    exact ⟨(Option.some_ne_none k).symm, rfl⟩

theorem quiet (h : Consistent S db threads m) {p : Phase} (hi : threads i = some p)
    (hindex : db'.index = db.index) (hgrows : db'.storage = db.storage ++ tail)
    (hcall : ∀ q, o = some q → q.call = p.call) (hsound : ∀ q, o = some q → q.Sound S db' m)
    (hcount : db'.accountCount + o.elim 0 Phase.arriving + p.leaving =
      db.accountCount + p.arriving + o.elim 0 Phase.leaving)
    (hlogged : Logged S db' (Function.update threads i o) m) :
    Consistent S db' (Function.update threads i o) m := by
  refine h.put (h.mirrors.append hindex hgrows) hgrows (fun _ _ _ _ _ _ => ⟨?_, rfl⟩) hsound
    (h.exclusive.advance hi hcall) ?_ hlogged h.encodable
  · rw [hindex]
  · rw [hi, hindex, Option.elim_some, Option.elim_some]
    omega

section Phases

variable {k : Pubkey} {a : Account} {location : AccountLocation} {isNew : Bool}

theorem returns (h : Consistent S db threads m) {p : Phase} (hi : threads i = some p)
    (hidle : p.arriving = 0 ∧ p.leaving = 0 ∧ p.unlogged = none) :
    Consistent S db (Function.update threads i none) m := by
  refine h.quiet hi rfl (List.append_nil _).symm (fun _ hq => by cases hq)
    (fun _ hq => by cases hq) ?_ (h.logged.put rfl fun j _ => ⟨?_, rfl⟩)
  · rw [hidle.1, hidle.2.1]
    rfl
  · rw [hi, Option.bind_some, hidle.2.2]
    exact (Option.some_ne_none j).symm

theorem moves (h : Consistent S db threads m) {p q : Phase} (hi : threads i = some p)
    (hindex : db'.index = db.index) (hgrows : db'.storage = db.storage ++ tail)
    (hpersist : db'.persist = db.persist) (hcall : q.call = p.call) (hsound : q.Sound S db' m)
    (hcount : db'.accountCount + q.arriving + p.leaving =
      db.accountCount + p.arriving + q.leaving)
    (hlog : p.unlogged = none ∨ q.unlogged = p.unlogged) :
    Consistent S db' (Function.update threads i (some q)) m := by
  refine h.quiet hi hindex hgrows ?_ ?_ hcount (h.logged.put hpersist fun j hj => ⟨?_, rfl⟩)
  · rintro q' ⟨⟩
    exact hcall
  · rintro q' ⟨⟩
    exact hsound
  · rw [hi, Option.bind_some]
    rcases hlog with hnone | hkept
    · rw [hnone]
      exact (Option.some_ne_none j).symm
    · rwa [← hkept]

theorem locate (h : Consistent S db threads m) (hi : threads i = some (.loading k))
    (hk : db.index.lookup k = some location) :
    Consistent S db (Function.update threads i (some (.located k location))) m :=
  h.moves hi rfl (List.append_nil _).symm rfl rfl hk rfl (.inl rfl)

theorem number (h : Consistent S db threads m) (hi : threads i = some (.storing k a)) :
    Consistent S { db with writeVersion := db.writeVersion + 1 }
      (Function.update threads i (some (.numbered k a (db.writeVersion + 1)))) m := by
  have ha : Encodable S a := h.sound i _ hi
  exact h.moves hi rfl (List.append_nil _).symm rfl rfl ha rfl (.inl rfl)

theorem append (h : Consistent S db threads m) {writeVersion : ℕ}
    (hi : threads i = some (.numbered k a writeVersion)) :
    Consistent S { db with storage := db.storage ++ S.encoded a }
      (Function.update threads i
        (some (.appended k a ⟨db.storage.length, (S.encoded a).length, writeVersion⟩))) m := by
  have ha : Encodable S a := h.sound i _ hi
  exact h.moves hi rfl rfl rfl rfl ⟨ha, written_appended ha.roundTrips writeVersion rfl⟩ rfl
    (.inl rfl)

theorem check (h : Consistent S db threads m) (hi : threads i = some (.appended k a location)) :
    Consistent S db (Function.update threads i (some (.checked k a location (k ∉ db.index)))) m := by
  obtain ⟨ha, hwritten⟩ := h.sound i _ hi
  exact h.moves hi rfl (List.append_nil _).symm rfl rfl ⟨ha, hwritten, decide_eq_true_iff⟩ rfl
    (.inl rfl)

omit [DecidableEq ι] in
theorem pins_ne (h : Consistent S db threads m) {p : Phase} (hi : threads i = some p)
    (hp : allowed threads p) (hk : p.touches = some k) {j : ι} {q : Phase} {l : Pubkey} (hne : j ≠ i)
    (hj : threads j = some q) (hl : q.pins = some l) : l ≠ k := by
  rintro rfl
  rcases Phase.pins_cases hl with hguard | hupdates
  · exact hp j q l hj hk hguard
  · exact hne (h.exclusive j i q p l hj hi hupdates (Phase.touches_updates hk))

theorem insert (h : Consistent S db threads m) (hi : threads i = some (.checked k a location isNew))
    (hp : allowed threads (.checked k a location isNew)) :
    Consistent S { db with index := db.index.insert k location }
      (Function.update threads i (some (.indexed k a isNew))) (m.store k a) := by
  obtain ⟨ha, hwritten, hnew⟩ := h.sound i _ hi
  refine h.put (h.mirrors.insert hwritten k) (List.append_nil _).symm ?_ ?_ ?_ ?_
    (h.logged.put rfl fun j hj => ?_) ?_
  · intro j q l hne hj hl
    have hlk := h.pins_ne hi hp rfl hne hj hl
    rw [Table.lookup_insert, if_neg hlk, AccountsDB.load_store_of_ne m a hlk]
    exact ⟨rfl, rfl⟩
  · rintro q ⟨⟩
    exact ⟨ha, m.load_store_self k a⟩
  · refine h.exclusive.advance hi ?_
    rintro q ⟨⟩
    rfl
  · rw [hi, Table.keys_insert]
    cases isNew with
    | true =>
      have hk : k ∉ db.index := hnew.mp rfl
      rw [Finset.card_insert_of_notMem (fun hmem => hk (Finmap.mem_keys.mp hmem))]
      simp only [Option.elim_some, Phase.arriving, Phase.leaving]
      omega
    | false =>
      have hk : k ∈ db.index := not_not.mp fun hk => Bool.false_ne_true (hnew.mpr hk)
      rw [Finset.insert_eq_of_mem (Finmap.mem_keys.mpr hk)]
      rfl
  · rw [hi]
    refine ⟨(Option.some_ne_none j).symm, m.load_store_of_ne a fun hjk => hj ?_⟩
    rw [hjk]
    rfl
  · intro j b hb
    rw [AccountsDB.load_store] at hb
    split_ifs at hb
    · cases hb
      exact ha
    · exact h.encodable hb

theorem countIn (h : Consistent S db threads m) (hi : threads i = some (.indexed k a isNew)) :
    Consistent S
      { db with accountCount := if isNew then db.accountCount + 1 else db.accountCount }
      (Function.update threads i (some (.counted k a))) m := by
  refine h.moves hi rfl (List.append_nil _).symm rfl rfl (h.sound i _ hi) ?_ (.inr rfl)
  cases isNew <;> rfl

theorem totalIn (h : Consistent S db threads m) (hi : threads i = some (.counted k a)) :
    Consistent S { db with totalBytes := db.totalBytes + (S.encoded a).length }
      (Function.update threads i (some (.totalled k a))) m :=
  h.moves hi rfl (List.append_nil _).symm rfl rfl (h.sound i _ hi) rfl (.inr rfl)

theorem logPut (h : Consistent S db threads m) (hi : threads i = some (.totalled k a)) :
    Consistent S { db with persist := db.persist.map (· ++ encodePut S k a) }
      (Function.update threads i none) m := by
  obtain ⟨ha, hload⟩ := h.sound i _ hi
  refine h.quiet hi rfl (List.append_nil _).symm (fun _ hq => by cases hq)
    (fun _ hq => by cases hq) rfl ?_
  refine h.logged.log (u := .store k a) ha (fun replica => readStep_encodePut replica k ha)
    (fun n j hne => n.load_store_of_ne a hne) (fun n => ?_) (by rw [hi]; rfl) rfl
  rw [hload]
  exact n.load_store_self k a

theorem erase (h : Consistent S db threads m) (hi : threads i = some (.removing k))
    (hp : allowed threads (.removing k)) (hk : k ∈ db.index) :
    Consistent S { db with index := db.index.erase k }
      (Function.update threads i (some (.unindexed k))) (m.remove k) := by
  refine h.put (h.mirrors.erase k) (List.append_nil _).symm ?_ ?_ ?_ ?_
    (h.logged.put rfl fun j hj => ?_) ?_
  · intro j q l hne hj hl
    have hlk := h.pins_ne hi hp rfl hne hj hl
    rw [Table.lookup_erase, if_neg hlk, AccountsDB.load_remove, if_neg hlk]
    exact ⟨rfl, rfl⟩
  · rintro q ⟨⟩
    exact (m.load_remove k k).trans (if_pos rfl)
  · refine h.exclusive.advance hi ?_
    rintro q ⟨⟩
    rfl
  · have hpos : 0 < db.index.keys.card := Finset.card_pos.mpr ⟨k, Finmap.mem_keys.mpr hk⟩
    rw [hi, Finmap.keys_erase, Finset.card_erase_of_mem (Finmap.mem_keys.mpr hk)]
    simp only [Option.elim_some, Phase.arriving, Phase.leaving]
    omega
  · rw [hi]
    refine ⟨(Option.some_ne_none j).symm, ?_⟩
    rw [AccountsDB.load_remove, if_neg fun hjk => hj ?_]
    rw [hjk]
    rfl
  · intro j b hb
    rw [AccountsDB.load_remove] at hb
    split_ifs at hb
    exact h.encodable hb

theorem countOut (h : Consistent S db threads m) (hi : threads i = some (.unindexed k)) :
    Consistent S
      { db with
        accountCount := if 0 < db.accountCount then db.accountCount - 1 else db.accountCount }
      (Function.update threads i (some (.uncounted k))) m := by
  have hpos : 0 < db.accountCount := by
    have hcount := h.count
    have harriving := tally_arriving_le h.exclusive h.mirrors h.sound
    have hleaving := tally_update Phase.leaving threads i none
    rw [hi] at hleaving
    simp only [Option.elim_some, Option.elim_none, Phase.leaving] at hleaving
    omega
  refine h.moves hi rfl (List.append_nil _).symm rfl rfl (h.sound i _ hi) ?_ (.inr rfl)
  simp only [if_pos hpos, Phase.arriving, Phase.leaving]
  omega

theorem logDelete (h : Consistent S db threads m) (hi : threads i = some (.uncounted k)) :
    Consistent S { db with persist := db.persist.map (· ++ encodeDelete k) }
      (Function.update threads i none) m := by
  have hload : m.load k = none := h.sound i _ hi
  refine h.quiet hi rfl (List.append_nil _).symm (fun _ hq => by cases hq)
    (fun _ hq => by cases hq) rfl ?_
  refine h.logged.log (u := .remove k) trivial (fun replica => readStep_encodeDelete S replica k)
    (fun n j hne => (n.load_remove k j).trans (if_neg hne)) (fun n => ?_) (by rw [hi]; rfl) rfl
  rw [hload]
  exact (n.load_remove k k).trans (if_pos rfl)

end Phases

end Consistent

def lockedCall (S : Serde Account) (threads : ι → Option Phase) (x : Call) : Prop :=
  Alone threads x ∧ x.Encodable S

theorem advance_missing {k : Pubkey} (h : db.index.lookup k = none) :
    (Phase.loading k).advance S db = (db, .inr (.loaded none)) := by
  simp only [Phase.advance, h]

theorem advance_found {k : Pubkey} {location : AccountLocation}
    (h : db.index.lookup k = some location) :
    (Phase.loading k).advance S db = (db, .inl (.located k location)) := by
  simp only [Phase.advance, h]

theorem advance_present {k : Pubkey} (h : k ∈ db.index) : (Phase.removing k).advance S db =
    ({ db with index := db.index.erase k }, .inl (.unindexed k)) := if_pos h

theorem advance_absent {k : Pubkey} (h : k ∉ db.index) :
    (Phase.removing k).advance S db = (db, .inr (.removed false)) := if_neg h

theorem remove_of_not_exists {k : Pubkey} (h : ¬m.exists k = true) : m.remove k = m := by
  refine AccountsDB.ext_load fun j => ?_
  rw [AccountsDB.load_remove]
  split_ifs with hj
  · rw [hj]
    exact (AccountsDB.load_of_not_exists h).symm
  · rfl

variable [DecidableEq ι]

theorem Consistent.silent (h : Consistent S db threads m) {p : Phase} (hi : threads i = some p)
    (hdecision : (storeMachine S).decision p (p.advance S db).2 = none) :
    Consistent S (p.advance S db).1 (Function.update threads i (p.advance S db).2.getLeft?) m := by
  cases p with
  | loading k =>
    cases hk : db.index.lookup k with
    | none =>
      rw [advance_missing hk] at hdecision
      cases hdecision
    | some location =>
      rw [advance_found hk]
      exact h.locate hi hk
  | located k location => cases hdecision
  | probing k => cases hdecision
  | storing k a => exact h.number hi
  | numbered k a writeVersion => exact h.append hi
  | appended k a location => exact h.check hi
  | checked k a location isNew => cases hdecision
  | indexed k a isNew => exact h.countIn hi
  | counted k a => exact h.totalIn hi
  | totalled k a => exact h.logPut hi
  | removing k =>
    by_cases hk : k ∈ db.index
    · rw [advance_present hk] at hdecision
      cases hdecision
    · rw [advance_absent hk] at hdecision
      cases hdecision
  | unindexed k => exact h.countOut hi
  | uncounted k => exact h.logDelete hi

theorem Consistent.decides (h : Consistent S db threads m) {p : Phase} (hi : threads i = some p)
    (hp : allowed threads p) {r : Reply}
    (hdecision : (storeMachine S).decision p (p.advance S db).2 = some r) :
    r = p.call.reply m ∧ Consistent S (p.advance S db).1
      (Function.update threads i (p.advance S db).2.getLeft?) (p.call.apply m) := by
  cases p with
  | loading k =>
    cases hk : db.index.lookup k with
    | none =>
      rw [advance_missing hk] at hdecision ⊢
      cases hdecision
      refine ⟨?_, h.returns hi ⟨rfl, rfl, rfl⟩⟩
      rw [Phase.call, Call.reply, ← h.mirrors.load_eq, load_eq_read, hk]
      rfl
    | some location =>
      rw [advance_found hk] at hdecision
      cases hdecision
  | located k location =>
    cases hdecision
    have hk : db.index.lookup k = some location := h.sound i _ hi
    refine ⟨?_, h.returns hi ⟨rfl, rfl, rfl⟩⟩
    rw [Phase.call, Call.reply, ← h.mirrors.load_eq, load_eq_read, hk]
    rfl
  | probing k =>
    cases hdecision
    refine ⟨?_, h.returns hi ⟨rfl, rfl, rfl⟩⟩
    rw [Phase.call, Call.reply, Reply.found.injEq, Bool.eq_iff_iff, decide_eq_true_iff,
      h.mirrors.mem_iff]
  | storing k a => cases hdecision
  | numbered k a writeVersion => cases hdecision
  | appended k a location => cases hdecision
  | checked k a location isNew =>
    cases hdecision
    exact ⟨rfl, h.insert hi hp⟩
  | indexed k a isNew => cases hdecision
  | counted k a => cases hdecision
  | totalled k a => cases hdecision
  | removing k =>
    by_cases hk : k ∈ db.index
    · rw [advance_present hk] at hdecision ⊢
      cases hdecision
      refine ⟨?_, h.erase hi hp hk⟩
      rw [Phase.call, Call.reply, (h.mirrors.mem_iff k).mp hk]
    · rw [advance_absent hk] at hdecision ⊢
      cases hdecision
      have hmissing : ¬m.exists k = true := mt (h.mirrors.mem_iff k).mpr hk
      refine ⟨?_, ?_⟩
      · rw [Phase.call, Call.reply, Bool.eq_false_iff.mpr hmissing]
      · rw [Phase.call, Call.apply, Update.apply, remove_of_not_exists hmissing]
        exact h.returns hi ⟨rfl, rfl, rfl⟩
  | unindexed k => cases hdecision
  | uncounted k => cases hdecision

theorem simulates (S : Serde Account) :
    Simulation (storeMachine S) accountsObject (lockedCall (ι := ι) S) allowed (Consistent S) where
  enter := fun h hi hx => h.enter hi hx.1 hx.2
  silent := fun h hi _ hdecision => h.silent hi hdecision
  decides := fun h hi hp hdecision => h.decides hi hp hdecision

end Invariant

end TrustNode.Accounts
