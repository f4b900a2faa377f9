import TrustNode.Gossip.Crds

namespace TrustNode.Gossip.Crds

section Removing

theorem lookup_foldl_removeOld (ids : List Bytes32) (s : Crds) (id : Bytes32) :
    (ids.foldl removeOld s).entries.lookup id =
      if id ∈ ids then none else s.entries.lookup id := by
  induction ids generalizing s with
  | nil => rfl
  | cons first rest ih =>
    rw [List.foldl_cons, ih, removeOld, Table.lookup_erase]
    simp only [List.mem_cons]
    split_ifs <;> tauto

theorem keys_foldl_removeOld (ids : List Bytes32) (s : Crds) :
    (ids.foldl removeOld s).entries.keys = s.entries.keys \ ids.toFinset := by
  ext id
  rw [Table.mem_keys_iff, lookup_foldl_removeOld, Finset.mem_sdiff, List.mem_toFinset,
    Table.mem_keys_iff]
  split_ifs with hid
  · exact iff_of_false (by decide) fun h => h.2 hid
  · exact (and_iff_left hid).symm

theorem totals_foldl_removeOld (ids : List Bytes32) (s : Crds) :
    (ids.foldl removeOld s).maxEntries = s.maxEntries ∧
      (ids.foldl removeOld s).totalInserted = s.totalInserted ∧
      (ids.foldl removeOld s).totalPruned = s.totalPruned + UInt64.ofNat ids.length := by
  induction ids generalizing s with
  | nil => exact ⟨rfl, rfl, (UInt64.add_zero _).symm⟩
  | cons first rest ih =>
    obtain ⟨hmax, hinserted, hpruned⟩ := ih (s.removeOld first)
    refine ⟨hmax, hinserted, hpruned.trans ?_⟩
    rw [removeOld, List.length_cons, UInt64.ofNat_add, UInt64.add_assoc]
    exact congrArg _ (UInt64.add_comm _ _)

end Removing

section Pruning

variable (order : Arrangement (Bytes32 × UInt64)) (s : Crds)

def byAge : List (Bytes32 × UInt64) :=
  (order.run (s.entries.listing.map fun p => (p.1, p.2.insertedAt))).insertionSort
    fun a b => a.2 ≤ b.2

def oldest : List Bytes32 :=
  ((s.byAge order).take ((s.byAge order).length - s.maxEntries * 9 / 10)).map Prod.fst

theorem pruneOld_eq : s.pruneOld order = (s.oldest order).foldl removeOld s := rfl

theorem byAge_perm :
    (s.byAge order).Perm (s.entries.listing.map fun p => (p.1, p.2.insertedAt)) :=
  (List.perm_insertionSort _ _).trans (order.perm _)

theorem length_byAge : (s.byAge order).length = s.entries.keys.card := by
  rw [(s.byAge_perm order).length_eq, List.length_map, Table.length_listing]

theorem nodup_byAge : ((s.byAge order).map Prod.fst).Nodup := by
  rw [((s.byAge_perm order).map Prod.fst).nodup_iff, List.map_map]
  exact (Table.map_fst_listing s.entries).symm ▸ Table.nodup_sorted s.entries.keys

theorem mem_byAge {id : Bytes32} {at' : UInt64} :
    (id, at') ∈ s.byAge order ↔ ∃ e, s.entries.lookup id = some e ∧ e.insertedAt = at' := by
  rw [(s.byAge_perm order).mem_iff, List.mem_map]
  constructor
  · rintro ⟨⟨k, e⟩, hmem, heq⟩
    obtain ⟨rfl, rfl⟩ := Prod.mk.inj heq
    exact ⟨e, Table.mem_listing.mp hmem, rfl⟩
  · rintro ⟨e, hlookup, rfl⟩
    exact ⟨(id, e), Table.mem_listing.mpr hlookup, rfl⟩

theorem pairwise_byAge : (s.byAge order).Pairwise fun a b => a.2 ≤ b.2 := by
  have : Std.Total fun a b : Bytes32 × UInt64 => a.2 ≤ b.2 := ⟨fun a b => UInt64.le_total a.2 b.2⟩
  have : IsTrans (Bytes32 × UInt64) fun a b => a.2 ≤ b.2 := ⟨fun _ _ _ => UInt64.le_trans⟩
  exact List.pairwise_insertionSort _ _

theorem length_oldest :
    (s.oldest order).length = s.entries.keys.card - s.maxEntries * 9 / 10 := by
  rw [oldest, List.length_map, List.length_take, length_byAge]
  omega

theorem oldest_nodup : (s.oldest order).Nodup := by
  rw [oldest, List.map_take]
  exact (s.nodup_byAge order).sublist (List.take_sublist _ _)

theorem oldest_subset : (s.oldest order).toFinset ⊆ s.entries.keys := by
  intro id hid
  obtain ⟨⟨k, at'⟩, hmem, rfl⟩ := List.mem_map.mp (List.mem_toFinset.mp hid)
  obtain ⟨e, he, -⟩ := (s.mem_byAge order).mp (List.mem_of_mem_take hmem)
  rw [Table.mem_keys_iff, he]
  rfl

theorem card_pruneOld :
    (s.pruneOld order).entries.keys.card + (s.oldest order).length = s.entries.keys.card := by
  rw [pruneOld_eq, keys_foldl_removeOld, ← List.toFinset_card_of_nodup (s.oldest_nodup order)]
  exact Finset.card_sdiff_add_card_eq_card (s.oldest_subset order)

variable {s order}

theorem insertedAt_le_of_pruned {id id' : Bytes32} {e e' : CrdsEntry}
    (he : s.entries.lookup id = some e) (hgone : (s.pruneOld order).entries.lookup id = none)
    (hkept : (s.pruneOld order).entries.lookup id' = some e') : e.insertedAt ≤ e'.insertedAt := by
  rw [pruneOld_eq, lookup_foldl_removeOld] at hgone hkept
  split_ifs at hkept with hkept'
  have hid : id ∈ s.oldest order := by
    by_contra hid
    rw [if_neg hid, he] at hgone
    cases hgone
  obtain ⟨⟨k, at'⟩, hmem, rfl⟩ := List.mem_map.mp hid
  obtain ⟨found, hfound, rfl⟩ := (s.mem_byAge order).mp (List.mem_of_mem_take hmem)
  obtain rfl := Option.some.inj (he.symm.trans hfound)
  have hsplit := (s.pairwise_byAge order)
  rw [← List.take_append_drop ((s.byAge order).length - s.maxEntries * 9 / 10) (s.byAge order),
    List.pairwise_append] at hsplit
  have hin : (id', e'.insertedAt) ∈ s.byAge order := (s.mem_byAge order).mpr ⟨e', hkept, rfl⟩
  rw [← List.take_append_drop ((s.byAge order).length - s.maxEntries * 9 / 10) (s.byAge order),
    List.mem_append] at hin
  rcases hin with htaken | hleft
  · exact absurd (List.mem_map_of_mem htaken) hkept'
  · exact hsplit.2.2 _ hmem _ hleft

end Pruning

structure Push where
  now : UInt64
  order : Arrangement (Bytes32 × UInt64)
  msg : GossipMessage

def push (s : Crds) (p : Push) : Crds := (s.insertPush p.now p.order p.msg).2

def held (s : Crds) (p : Push) : Crds :=
  match p.msg.pushData with
  | none => s
  | some data =>
    if data.id ∈ s.entries then s
    else { s with
      entries := s.entries.insert data.id ⟨data, p.now, p.msg.sender, 0⟩
      totalInserted := s.totalInserted + 1 }

section Cases

variable {s : Crds} {p : Push} {data : PushData}

theorem held_of_known (hdata : p.msg.pushData = some data) (hknown : data.id ∈ s.entries) :
    s.held p = s := by
  rw [held, hdata]
  exact if_pos hknown

theorem push_of_known (hdata : p.msg.pushData = some data) (hknown : data.id ∈ s.entries) :
    s.push p = s := by
  rw [push, insertPush, hdata]
  exact congrArg Prod.snd (if_pos hknown)

theorem held_of_new (hdata : p.msg.pushData = some data) (hnew : data.id ∉ s.entries) :
    s.held p = { s with
      entries := s.entries.insert data.id ⟨data, p.now, p.msg.sender, 0⟩
      totalInserted := s.totalInserted + 1 } := by
  rw [held, hdata]
  exact if_neg hnew

theorem push_of_new (hdata : p.msg.pushData = some data) (hnew : data.id ∉ s.entries) :
    s.push p =
      if (s.held p).maxEntries < (s.held p).entries.keys.card then (s.held p).pruneOld p.order
      else s.held p := by
  rw [held_of_new hdata hnew, push, insertPush, hdata]
  exact congrArg Prod.snd (if_neg hnew)

theorem held_cases (s : Crds) (p : Push) :
    (s.held p = s ∧ s.push p = s) ∨
      (s.held p).maxEntries = s.maxEntries ∧
        (s.held p).entries.keys.card = s.entries.keys.card + 1 ∧
        (s.held p).totalInserted = s.totalInserted + 1 ∧
        (s.held p).totalPruned = s.totalPruned ∧
        s.push p =
          if (s.held p).maxEntries < (s.held p).entries.keys.card then (s.held p).pruneOld p.order
          else s.held p := by
  cases hdata : p.msg.pushData with
  | none =>
    rw [held, push, insertPush, hdata]
    exact .inl ⟨rfl, rfl⟩
  | some data =>
    by_cases hknown : data.id ∈ s.entries
    · exact .inl ⟨held_of_known hdata hknown, push_of_known hdata hknown⟩
    · refine .inr ⟨?_, ?_, ?_, ?_, push_of_new hdata hknown⟩
      · rw [held_of_new hdata hknown]
      · rw [held_of_new hdata hknown, Table.keys_insert,
          Finset.card_insert_of_notMem (mt Finmap.mem_keys.mp hknown)]
      · rw [held_of_new hdata hknown]
      · rw [held_of_new hdata hknown]

end Cases

structure Accounted (maxEntries calls : ℕ) (s : Crds) : Prop where
  capacity : s.maxEntries = maxEntries
  bounded : s.entries.keys.card ≤ maxEntries
  counted : ∃ inserted pruned : ℕ, inserted ≤ calls ∧ s.totalInserted = UInt64.ofNat inserted ∧
    s.totalPruned = UInt64.ofNat pruned ∧ inserted = pruned + s.entries.keys.card

theorem accounted_new (maxEntries : ℕ) : Accounted maxEntries 0 (new maxEntries) :=
  ⟨rfl, Nat.zero_le _, 0, 0, le_rfl, rfl, rfl, rfl⟩

theorem Accounted.push {maxEntries calls : ℕ} {s : Crds} (h : Accounted maxEntries calls s)
    (p : Push) : Accounted maxEntries (calls + 1) (s.push p) := by
  obtain ⟨hcapacity, hbounded, inserted, pruned, hcalls, hinserted, hpruned, hcount⟩ := h
  obtain ⟨-, hsame⟩ | ⟨hmax, hcard, hone, hnone, hpush⟩ := s.held_cases p
  · rw [hsame]
    exact ⟨hcapacity, hbounded, inserted, pruned, hcalls.trans (Nat.le_succ _), hinserted, hpruned,
      hcount⟩
  · have hnext : s.totalInserted + 1 = UInt64.ofNat (inserted + 1) := by
      rw [hinserted, UInt64.ofNat_add]
      rfl
    rw [hpush]
    split_ifs with hfull
    · have hleft := (s.held p).card_pruneOld p.order
      have hlength := (s.held p).length_oldest p.order
      obtain ⟨hmax', hinserted', hpruned'⟩ :=
        totals_foldl_removeOld ((s.held p).oldest p.order) (s.held p)
      rw [← pruneOld_eq] at hmax' hinserted' hpruned'
      refine ⟨by rw [hmax', hmax, hcapacity], by omega, inserted + 1,
        pruned + ((s.held p).oldest p.order).length, by omega, by rw [hinserted', hone, hnext], ?_,
        by omega⟩
      rw [hpruned', hnone, hpruned, UInt64.ofNat_add]
    · exact ⟨hmax.trans hcapacity, by omega, inserted + 1, pruned, by omega, hone.trans hnext,
        hnone.trans hpruned, by omega⟩

def pushAll (s : Crds) (pushes : List Push) : Crds := pushes.foldl push s

theorem accounted_pushAll (maxEntries : ℕ) (pushes : List Push) :
    Accounted maxEntries pushes.length ((new maxEntries).pushAll pushes) := by
  induction pushes using List.reverseRecOn with
  | nil => exact accounted_new maxEntries
  | append_singleton pushes p ih =>
    rw [pushAll, List.foldl_append, List.length_append]
    exact ih.push p

theorem insertedAt_le_of_push {s : Crds} {p : Push} {id id' : Bytes32} {e e' : CrdsEntry}
    (he : (s.held p).entries.lookup id = some e) (hgone : (s.push p).entries.lookup id = none)
    (hkept : (s.push p).entries.lookup id' = some e') : e.insertedAt ≤ e'.insertedAt := by
  obtain ⟨hheld, hsame⟩ | ⟨-, -, -, -, hpush⟩ := s.held_cases p
  · rw [hheld, ← hsame, hgone] at he
    cases he
  · rw [hpush] at hgone hkept
    split_ifs at hgone hkept
    · exact insertedAt_le_of_pruned he hgone hkept
    · cases he.symm.trans hgone

theorem crds_bounded_and_accounted (maxEntries : ℕ) (pushes : List Push) :
    ((new maxEntries).pushAll pushes).entries.keys.card ≤ maxEntries ∧
      ((new maxEntries).pushAll pushes).totalInserted -
          ((new maxEntries).pushAll pushes).totalPruned =
        UInt64.ofNat ((new maxEntries).pushAll pushes).entries.keys.card ∧
      (pushes.length < 2 ^ 64 →
        ((new maxEntries).pushAll pushes).totalInserted.toNat =
          ((new maxEntries).pushAll pushes).totalPruned.toNat +
            ((new maxEntries).pushAll pushes).entries.keys.card) ∧
      ∀ (p : Push) (id id' : Bytes32) (e e' : CrdsEntry),
        (((new maxEntries).pushAll pushes).held p).entries.lookup id = some e →
        (((new maxEntries).pushAll pushes).push p).entries.lookup id = none →
        (((new maxEntries).pushAll pushes).push p).entries.lookup id' = some e' →
          ¬e'.insertedAt < e.insertedAt := by
  obtain ⟨-, hbounded, inserted, pruned, hcalls, hinserted, hpruned, hcount⟩ :=
    accounted_pushAll maxEntries pushes
  refine ⟨hbounded, ?_, fun hfew => ?_, fun p id id' e e' he hgone hkept => ?_⟩
  · rw [hinserted, hpruned, hcount, UInt64.ofNat_add, UInt64.add_comm, UInt64.add_sub_cancel]
  · rw [hinserted, hpruned, UInt64.toNat_ofNat', UInt64.toNat_ofNat']
    omega
  · exact UInt64.not_lt.mpr (insertedAt_le_of_push he hgone hkept)

end TrustNode.Gossip.Crds
