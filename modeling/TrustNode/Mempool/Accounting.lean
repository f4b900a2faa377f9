import TrustNode.Mempool.Invariant

namespace TrustNode.Mempool

open TrustNode.TxProcessor

abbrev Slot := ℕ × MempoolEntry

inductive Route where
  | drained
  | removed
  | evicted
  | expired
deriving DecidableEq

structure Exit where
  route : Route
  slot : Slot
deriving DecidableEq

def Exit.handedOver (x : Exit) : Bool := x.route = .drained || x.route = .removed

namespace Inner

def taken (inner : Inner) : List ℕ → List Slot
  | [] => []
  | seq :: rest =>
    match inner.removeSeq seq with
    | none => inner.taken rest
    | some (entry, inner') => (seq, entry) :: inner'.taken rest

def exits (route : Route) (inner : Inner) (seqs : List ℕ) : List Exit :=
  (inner.taken seqs).map (Exit.mk route)

end Inner

namespace Pool

def victims (tx : Transaction) (pool : Pool) : List ℕ :=
  if pool.config.maxSize ≤ pool.inner.bySeq.length then
    ((cheapest pool.inner.bySeq).toList.filter fun p => p.2.fee < tx.fee).map Prod.fst
  else []

end Pool

inductive Call where
  | insert (now : UInt64) (tx : Transaction)
  | drain (limit : ℕ)
  | remove (hash : TxHash)
  | expire (now : UInt64)

namespace Call

variable (C : Crypto) (pool : Pool)

def run : Call → Pool
  | .insert now tx => (pool.insert C now tx).2
  | .drain limit => (pool.drain limit).2
  | .remove hash => (pool.remove hash).2
  | .expire now => (pool.expire now).2

def returned : Call → List Transaction
  | .insert _ _ => []
  | .drain limit => (pool.drain limit).1
  | .remove hash => (pool.remove hash).1.toList
  | .expire _ => []

def entered : Call → List Slot
  | .insert now tx =>
    match (pool.insert C now tx).1 with
    | .ok hash => [(pool.inner.nextSeq, ⟨hash, tx, tx.fee, now⟩)]
    | .error _ => []
  | _ => []

def left : Call → List Exit
  | .insert now tx =>
    if pool.screened C tx then
      pool.inner.exits .expired (pool.stale now) ++
        (pool.expireLocked now).2.inner.exits .evicted ((pool.expireLocked now).2.victims tx)
    else []
  | .drain limit => pool.inner.exits .drained ((pool.ordered.take limit).map Prod.snd)
  | .remove hash => pool.inner.exits .removed (pool.inner.byHash.lookup hash).toList
  | .expire now => pool.inner.exits .expired (pool.stale now)

end Call

structure Moves (pool pool' : Pool) (entered : List Slot) (left : List Exit) : Prop where
  balance : (pool.inner.bySeq ++ entered).Perm (pool'.inner.bySeq ++ left.map Exit.slot)
  seqs : entered.map Prod.fst = List.range' pool.inner.nextSeq entered.length
  nextSeq : pool'.inner.nextSeq = pool.inner.nextSeq + entered.length
  accepted : pool'.totalAccepted = pool.totalAccepted + UInt64.ofNat entered.length
  evicted : pool'.totalEvicted =
    pool.totalEvicted + UInt64.ofNat (left.countP fun x => x.route = .evicted)
  expired : pool'.totalExpired =
    pool.totalExpired + UInt64.ofNat (left.countP fun x => x.route = .expired)

namespace Moves

variable {pool pool' pool'' : Pool} {entered entered' : List Slot} {left left' : List Exit}

theorem of_same (hinner : pool'.inner = pool.inner)
    (haccepted : pool'.totalAccepted = pool.totalAccepted)
    (hevicted : pool'.totalEvicted = pool.totalEvicted)
    (hexpired : pool'.totalExpired = pool.totalExpired) : Moves pool pool' [] [] where
  balance := by rw [hinner]; rfl
  seqs := rfl
  nextSeq := by rw [hinner]; rfl
  accepted := haccepted.trans (UInt64.add_zero _).symm
  evicted := hevicted.trans (UInt64.add_zero _).symm
  expired := hexpired.trans (UInt64.add_zero _).symm

theorem trans (h : Moves pool pool' entered left) (h' : Moves pool' pool'' entered' left') :
    Moves pool pool'' (entered ++ entered') (left ++ left') where
  balance := by
    have hfirst := h.balance.append_right entered'
    have hsecond := h'.balance.append_right (left.map Exit.slot)
    rw [List.map_append, ← List.append_assoc]
    refine hfirst.trans (.trans ?_ (hsecond.trans ?_))
    · simp only [List.append_assoc]
      exact List.perm_append_comm.append_left _
    · simp only [List.append_assoc]
      exact List.perm_append_comm.append_left _
  seqs := by
    rw [List.map_append, h.seqs, h'.seqs, h.nextSeq, List.length_append, List.range'_append_1]
  nextSeq := by rw [h'.nextSeq, h.nextSeq, List.length_append, Nat.add_assoc]
  accepted := by
    rw [h'.accepted, h.accepted, List.length_append, UInt64.ofNat_add, UInt64.add_assoc]
  evicted := by rw [h'.evicted, h.evicted, List.countP_append, UInt64.ofNat_add, UInt64.add_assoc]
  expired := by rw [h'.expired, h.expired, List.countP_append, UInt64.ofNat_add, UInt64.add_assoc]

end Moves

namespace Inner

variable {C : Crypto} {inner inner' : Inner} {entry : MempoolEntry} {seq : ℕ}

theorem filter_ne_perm {l : List Slot} (hnodup : (l.map Prod.fst).Nodup)
    (hmem : (seq, entry) ∈ l) : l.Perm ((seq, entry) :: l.filter fun p => p.1 ≠ seq) := by
  obtain ⟨before, after, rfl⟩ := List.append_of_mem hmem
  rw [List.map_append, List.map_cons, List.nodup_middle, List.nodup_cons, ← List.map_append] at hnodup
  have hothers : (before ++ after).filter (fun p => p.1 ≠ seq) = before ++ after := by
    refine List.filter_eq_self.mpr fun p hp => decide_eq_true fun heq => hnodup.1 ?_
    exact List.mem_map.mpr ⟨p, hp, heq⟩
  have hself : (before ++ (seq, entry) :: after).filter (fun p => p.1 ≠ seq) =
      (before ++ after).filter fun p => p.1 ≠ seq := by
    simp [List.filter_append]
  rw [hself, hothers]
  exact List.perm_middle

theorem removeSeq_perm (hwf : inner.WellFormed C)
    (h : inner.removeSeq seq = some (entry, inner')) :
    inner.bySeq.Perm ((seq, entry) :: inner'.bySeq) := by
  obtain ⟨hmem, rfl⟩ := removeSeq_eq_some h
  exact filter_ne_perm hwf.seqs hmem

theorem removeSeq_of_mem (h : seq ∈ inner.bySeq.map Prod.fst) :
    ∃ entry inner', inner.removeSeq seq = some (entry, inner') := by
  cases hl : inner.bySeq.lookup seq with
  | some entry => exact ⟨entry, _, by rw [removeSeq, hl]⟩
  | none =>
    obtain ⟨p, hp, rfl⟩ := List.mem_map.mp h
    have hne := List.lookup_eq_none_iff.mp hl p hp
    simp at hne

theorem mem_seqs_removeSeq (h : inner.removeSeq seq = some (entry, inner')) {other : ℕ} :
    other ∈ inner'.bySeq.map Prod.fst ↔ other ∈ inner.bySeq.map Prod.fst ∧ other ≠ seq := by
  obtain ⟨-, rfl⟩ := removeSeq_eq_some h
  simp only [List.mem_map, List.mem_filter, decide_eq_true_eq]
  constructor
  · rintro ⟨p, ⟨hp, hne⟩, rfl⟩
    exact ⟨⟨p, hp, rfl⟩, hne⟩
  · rintro ⟨⟨p, hp, rfl⟩, hne⟩
    exact ⟨p, ⟨hp, hne⟩, rfl⟩

theorem dropSeq_of_removeSeq (h : inner.removeSeq seq = some (entry, inner')) :
    inner.dropSeq seq = inner' := by
  rw [dropSeq, h]
  rfl

theorem dropSeq_of_absent (h : inner.removeSeq seq = none) : inner.dropSeq seq = inner := by
  rw [dropSeq, h]
  rfl

theorem taken_perm (hwf : inner.WellFormed C) (seqs : List ℕ) :
    inner.bySeq.Perm ((seqs.foldl dropSeq inner).bySeq ++ inner.taken seqs) := by
  induction seqs generalizing inner with
  | nil => simp [taken]
  | cons seq rest ih =>
    rw [List.foldl_cons, taken]
    cases h : inner.removeSeq seq with
    | none =>
      rw [dropSeq_of_absent h]
      exact ih hwf
    | some r =>
      obtain ⟨entry, inner'⟩ := r
      rw [dropSeq_of_removeSeq h]
      exact (removeSeq_perm hwf h).trans
        (((ih (hwf.removeSeq h)).cons _).trans List.perm_middle.symm)

theorem length_taken {seqs : List ℕ} (hnodup : seqs.Nodup)
    (hsub : seqs ⊆ inner.bySeq.map Prod.fst) : (inner.taken seqs).length = seqs.length := by
  induction seqs generalizing inner with
  | nil => rfl
  | cons seq rest ih =>
    obtain ⟨hseq, hrest⟩ := List.nodup_cons.mp hnodup
    obtain ⟨entry, inner', h⟩ := removeSeq_of_mem (hsub List.mem_cons_self)
    rw [taken, h, List.length_cons, List.length_cons, ih hrest fun other hother => ?_]
    refine (mem_seqs_removeSeq h).mpr ⟨hsub (List.mem_cons_of_mem _ hother), ?_⟩
    rintro rfl
    exact hseq hother

theorem foldl_takeSeqs (seqs : List ℕ) (out : List Transaction) (inner : Inner) :
    seqs.foldl Pool.takeSeqs (out, inner) =
      (out ++ (inner.taken seqs).map fun slot => slot.2.tx, seqs.foldl dropSeq inner) := by
  induction seqs generalizing out inner with
  | nil => simp [taken]
  | cons seq rest ih =>
    rw [List.foldl_cons, List.foldl_cons, Pool.takeSeqs, taken]
    cases h : inner.removeSeq seq with
    | none => rw [dropSeq_of_absent h, ih]
    | some r =>
      obtain ⟨entry, inner'⟩ := r
      rw [dropSeq_of_removeSeq h, ih]
      simp

theorem nextSeq_dropSeq (inner : Inner) (seq : ℕ) : (inner.dropSeq seq).nextSeq = inner.nextSeq := by
  cases h : inner.removeSeq seq with
  | none => rw [dropSeq_of_absent h]
  | some r =>
    obtain ⟨entry, inner'⟩ := r
    rw [dropSeq_of_removeSeq h, (removeSeq_eq_some h).2]

theorem nextSeq_foldl_dropSeq (seqs : List ℕ) (inner : Inner) :
    (seqs.foldl dropSeq inner).nextSeq = inner.nextSeq := by
  induction seqs generalizing inner with
  | nil => rfl
  | cons seq rest ih => rw [List.foldl_cons, ih, nextSeq_dropSeq]

@[simp]
theorem map_slot_exits (route : Route) (inner : Inner) (seqs : List ℕ) :
    (inner.exits route seqs).map Exit.slot = inner.taken seqs := by
  rw [exits, List.map_map]
  exact List.map_id _

theorem countP_route_exits (route route' : Route) (inner : Inner) (seqs : List ℕ) :
    (inner.exits route seqs).countP (fun x => x.route = route') =
      if route = route' then (inner.taken seqs).length else 0 := by
  rw [exits, List.countP_map]
  split_ifs with h
  · exact List.countP_eq_length.mpr fun slot _ => decide_eq_true h
  · exact List.countP_eq_zero.mpr fun slot _ => by simpa using h

end Inner

namespace Pool

variable {C : Crypto} {pool pool' : Pool}

theorem moves_drop {route : Route} {seqs : List ℕ} (hwf : pool.inner.WellFormed C)
    (hinner : pool'.inner = seqs.foldl Inner.dropSeq pool.inner)
    (haccepted : pool'.totalAccepted = pool.totalAccepted)
    (hevicted : pool'.totalEvicted = pool.totalEvicted +
      UInt64.ofNat (if route = .evicted then (pool.inner.taken seqs).length else 0))
    (hexpired : pool'.totalExpired = pool.totalExpired +
      UInt64.ofNat (if route = .expired then (pool.inner.taken seqs).length else 0)) :
    Moves pool pool' [] (pool.inner.exits route seqs) where
  balance := by
    rw [List.append_nil, Inner.map_slot_exits, hinner]
    exact Inner.taken_perm hwf seqs
  seqs := rfl
  nextSeq := by
    rw [hinner, Inner.nextSeq_foldl_dropSeq]
    rfl
  accepted := haccepted.trans (UInt64.add_zero _).symm
  evicted := by rw [hevicted, Inner.countP_route_exits]
  expired := by rw [hexpired, Inner.countP_route_exits]

theorem length_taken_stale (hwf : pool.inner.WellFormed C) (now : UInt64) :
    (pool.inner.taken (pool.stale now)).length = (pool.stale now).length := by
  have hsub : (pool.stale now).Sublist (pool.inner.bySeq.map Prod.fst) :=
    List.filter_sublist.map _
  exact Inner.length_taken (hwf.seqs.sublist hsub) hsub.subset

theorem moves_expireLocked (hwf : pool.inner.WellFormed C) (now : UInt64) :
    Moves pool (pool.expireLocked now).2 [] (pool.inner.exits .expired (pool.stale now)) := by
  refine moves_drop hwf rfl rfl (UInt64.add_zero _).symm ?_
  rw [if_pos rfl, length_taken_stale hwf]
  rfl

theorem moves_drain (hwf : pool.inner.WellFormed C) (limit : ℕ) :
    Moves pool (pool.drain limit).2 []
      (pool.inner.exits .drained ((pool.ordered.take limit).map Prod.snd)) := by
  refine moves_drop hwf ?_ rfl (UInt64.add_zero _).symm (UInt64.add_zero _).symm
  rw [drain, Inner.foldl_takeSeqs]

theorem remove_eq (pool : Pool) (hash : TxHash) :
    (pool.remove hash).1.toList =
        (pool.inner.taken (pool.inner.byHash.lookup hash).toList).map (fun slot => slot.2.tx) ∧
      (pool.remove hash).2 =
        { pool with
          inner := (pool.inner.byHash.lookup hash).toList.foldl Inner.dropSeq pool.inner } := by
  unfold remove
  cases pool.inner.byHash.lookup hash with
  | none => exact ⟨rfl, rfl⟩
  | some seq =>
    dsimp only [Option.toList_some, List.foldl_cons, List.foldl_nil, Inner.taken]
    cases h : pool.inner.removeSeq seq with
    | none =>
      rw [Inner.dropSeq_of_absent h]
      exact ⟨rfl, rfl⟩
    | some r =>
      rw [Inner.dropSeq_of_removeSeq h]
      exact ⟨rfl, rfl⟩

theorem moves_remove (hwf : pool.inner.WellFormed C) (hash : TxHash) :
    Moves pool (pool.remove hash).2 []
      (pool.inner.exits .removed (pool.inner.byHash.lookup hash).toList) := by
  rw [(pool.remove_eq hash).2]
  exact moves_drop hwf rfl rfl (UInt64.add_zero _).symm (UInt64.add_zero _).symm

theorem wellFormed_remove (hwf : pool.inner.WellFormed C) (hash : TxHash) :
    (pool.remove hash).2.inner.WellFormed C := by
  rw [(pool.remove_eq hash).2]
  exact hwf.foldl_dropSeq _

theorem cheapest_mem {l : List Slot} {p : Slot} (h : cheapest l = some p) : p ∈ l := by
  induction l generalizing p with
  | nil => cases h
  | cons q rest ih =>
    rw [cheapest] at h
    cases hrest : cheapest rest with
    | none =>
      rw [hrest] at h
      obtain rfl := Option.some.inj h
      exact List.mem_cons_self
    | some r =>
      rw [hrest] at h
      dsimp only at h
      split_ifs at h
      · obtain rfl := Option.some.inj h
        exact List.mem_cons_of_mem _ (ih hrest)
      · obtain rfl := Option.some.inj h
        exact List.mem_cons_self

theorem victims_of_makeRoom_none {tx : Transaction} (h : pool.makeRoom tx = none) :
    pool.victims tx = [] := by
  rw [makeRoom] at h
  rw [victims]
  split_ifs at h ⊢
  cases hc : cheapest pool.inner.bySeq with
  | none => rfl
  | some p =>
    rw [hc] at h
    dsimp only at h
    split_ifs at h with hfee
    simp [hfee]

theorem moves_makeRoom (hwf : pool.inner.WellFormed C) {tx : Transaction} {roomy : Pool}
    (h : pool.makeRoom tx = some roomy) :
    Moves pool roomy [] (pool.inner.exits .evicted (pool.victims tx)) := by
  obtain ⟨hroom, rfl⟩ | ⟨p, hc, hfee, hfull, rfl⟩ := makeRoom_eq_some h
  · rw [victims, if_neg (Nat.not_le.mpr hroom)]
    exact moves_drop hwf rfl rfl (UInt64.add_zero _).symm (UInt64.add_zero _).symm
  · have hmem : p.1 ∈ pool.inner.bySeq.map Prod.fst := List.mem_map_of_mem (cheapest_mem hc)
    have hlength : (pool.inner.taken [p.1]).length = 1 :=
      Inner.length_taken (List.nodup_singleton _) (by simpa using hmem)
    have hvictims : pool.victims tx = [p.1] := by
      rw [victims, if_pos hfull, hc]
      simp [hfee]
    rw [hvictims]
    refine moves_drop hwf rfl rfl ?_ (UInt64.add_zero _).symm
    rw [if_pos rfl, hlength]
    rfl

theorem moves_accept (pool : Pool) (entry : MempoolEntry) :
    Moves pool (pool.accept entry) [(pool.inner.nextSeq, entry)] [] :=
  ⟨by simp [accept, Inner.park], rfl, rfl, rfl, (UInt64.add_zero _).symm, (UInt64.add_zero _).symm⟩

end Pool

namespace Call

variable {C : Crypto} {pool : Pool}

theorem moves_insert (hwf : pool.inner.WellFormed C) (now : UInt64) (tx : Transaction) :
    Moves pool (run C pool (.insert now tx)) (entered C pool (.insert now tx))
      (left C pool (.insert now tx)) := by
  rw [run, entered, left]
  obtain ⟨hscreened, e, he⟩ | ⟨hscreened, ⟨hroom, hfull⟩ | ⟨roomy, hroom, hroomy⟩⟩ :=
    Pool.insert_outcome C pool now tx
  · rw [he, if_neg (by simp [hscreened])]
    exact .of_same rfl rfl rfl rfl
  · have hexpired := Pool.moves_expireLocked hwf now
    rw [hfull, if_pos hscreened, Pool.victims_of_makeRoom_none hroom]
    exact hexpired.trans (.of_same rfl rfl rfl rfl)
  · have hexpired := Pool.moves_expireLocked hwf now
    have hmade := Pool.moves_makeRoom (Pool.wellFormed_expireLocked hwf now) hroom
    have hseq : roomy.inner.nextSeq = pool.inner.nextSeq := by
      rw [hmade.nextSeq, hexpired.nextSeq]
      rfl
    have haccepted := Pool.moves_accept roomy ⟨tx.hash C, tx, tx.fee, now⟩
    have hall := (hexpired.trans hmade).trans haccepted
    simp only [hseq, List.append_nil, List.nil_append] at hall
    rw [hroomy, if_pos hscreened]
    exact hall

theorem moves (hwf : pool.inner.WellFormed C) (call : Call) :
    Moves pool (call.run C pool) (call.entered C pool) (call.left C pool) := by
  cases call with
  | insert now tx => exact moves_insert hwf now tx
  | drain limit => exact Pool.moves_drain hwf limit
  | remove hash => exact Pool.moves_remove hwf hash
  | expire now => exact Pool.moves_expireLocked hwf now

theorem wellFormed_run (hwf : pool.inner.WellFormed C) (call : Call) :
    (call.run C pool).inner.WellFormed C := by
  cases call with
  | insert now tx => exact (Pool.insert_spec hwf now tx).1
  | drain limit => exact (Pool.drain_spec hwf limit).wellFormed
  | remove hash => exact Pool.wellFormed_remove hwf hash
  | expire now => exact Pool.wellFormed_expireLocked hwf now

theorem handedOver_exits (route : Route) (inner : Inner) (seqs : List ℕ) :
    ((inner.exits route seqs).filter Exit.handedOver).map (fun x => x.slot.2.tx) =
      if route = .drained ∨ route = .removed then (inner.taken seqs).map (fun slot => slot.2.tx)
      else [] := by
  rw [Inner.exits, List.filter_map, List.map_map]
  cases route <;> simp [Exit.handedOver, Function.comp_def]

theorem returned_eq (call : Call) :
    call.returned pool =
      ((call.left C pool).filter Exit.handedOver).map fun x => x.slot.2.tx := by
  cases call with
  | insert now tx =>
    rw [left, returned]
    split_ifs
    · simp [List.filter_append, handedOver_exits]
    · rfl
  | drain limit =>
    rw [left, handedOver_exits, if_pos (.inl rfl), returned, Pool.drain, Inner.foldl_takeSeqs]
    rfl
  | remove hash =>
    rw [left, handedOver_exits, if_pos (.inr rfl), returned, (pool.remove_eq hash).1]
  | expire now => rw [left, handedOver_exits, if_neg (by simp), returned]

end Call

structure History where
  pool : Pool
  entered : List Slot
  left : List Exit
  returned : List Transaction

namespace History

def start (config : MempoolConfig) : History where
  pool := .new config
  entered := []
  left := []
  returned := []

def record (C : Crypto) (h : History) (call : Call) : History where
  pool := call.run C h.pool
  entered := h.entered ++ call.entered C h.pool
  left := h.left ++ call.left C h.pool
  returned := h.returned ++ call.returned h.pool

def of (C : Crypto) (config : MempoolConfig) (calls : List Call) : History :=
  calls.foldl (record C) (start config)

structure Balanced (C : Crypto) (config : MempoolConfig) (h : History) : Prop where
  wellFormed : h.pool.inner.WellFormed C
  moves : Moves (.new config) h.pool h.entered h.left
  returned : h.returned = (h.left.filter Exit.handedOver).map fun x => x.slot.2.tx

structure Accounted (h : History) : Prop where
  entered : (h.entered.map Prod.fst).Nodup
  leftOnce : (h.left.map Exit.slot).Nodup
  placed : ∀ slot, slot ∈ h.entered ↔ slot ∈ h.pool.inner.bySeq ∨ slot ∈ h.left.map Exit.slot
  apart : ∀ slot ∈ h.pool.inner.bySeq, slot ∉ h.left.map Exit.slot
  returned : h.returned = (h.left.filter Exit.handedOver).map fun x => x.slot.2.tx
  numbered : h.pool.inner.nextSeq = h.entered.length
  accepted : h.pool.totalAccepted = UInt64.ofNat h.entered.length
  evicted : h.pool.totalEvicted = UInt64.ofNat (h.left.countP fun x => x.route = .evicted)
  expired : h.pool.totalExpired = UInt64.ofNat (h.left.countP fun x => x.route = .expired)
  total : h.pool.totalAccepted = UInt64.ofNat h.pool.inner.bySeq.length + h.pool.totalEvicted +
    h.pool.totalExpired + UInt64.ofNat h.returned.length
  exact : h.entered.length < 2 ^ 64 →
    h.pool.totalAccepted.toNat = h.pool.inner.bySeq.length + h.pool.totalEvicted.toNat +
      h.pool.totalExpired.toNat + h.returned.length

variable {C : Crypto} {config : MempoolConfig} {h : History}

theorem of_snoc (calls : List Call) (call : Call) :
    of C config (calls ++ [call]) = (of C config calls).record C call := by
  simp [of, List.foldl_append]

theorem Balanced.record (hb : Balanced C config h) (call : Call) :
    Balanced C config (h.record C call) where
  wellFormed := Call.wellFormed_run hb.wellFormed call
  moves := hb.moves.trans (Call.moves hb.wellFormed call)
  returned := by
    rw [History.record, hb.returned, Call.returned_eq (C := C), List.filter_append, List.map_append]

theorem balanced (C : Crypto) (config : MempoolConfig) (calls : List Call) :
    Balanced C config (of C config calls) := by
  induction calls using List.reverseRecOn with
  | nil => exact ⟨.new C, .of_same rfl rfl rfl rfl, rfl⟩
  | append_singleton calls call ih =>
    rw [of_snoc]
    exact ih.record call

theorem of_append (calls later : List Call) :
    (of C config calls).entered <+: (of C config (calls ++ later)).entered ∧
      (of C config calls).left <+: (of C config (calls ++ later)).left := by
  induction later using List.reverseRecOn with
  | nil => simp
  | append_singleton later call ih =>
    rw [← List.append_assoc, of_snoc]
    exact ⟨ih.1.trans (List.prefix_append _ _), ih.2.trans (List.prefix_append _ _)⟩

theorem countP_routes (left : List Exit) :
    left.length = (left.countP fun x => x.route = .evicted) +
      (left.countP fun x => x.route = .expired) + (left.filter Exit.handedOver).length := by
  induction left with
  | nil => rfl
  | cons x rest ih =>
    obtain ⟨route, slot⟩ := x
    cases route <;> simp [Exit.handedOver] <;> omega

namespace Balanced

theorem perm (hb : Balanced C config h) :
    h.entered.Perm (h.pool.inner.bySeq ++ h.left.map Exit.slot) := hb.moves.balance

theorem nodup_entered (hb : Balanced C config h) : (h.entered.map Prod.fst).Nodup := by
  rw [hb.moves.seqs]
  exact List.nodup_range'

theorem nodup_slots (hb : Balanced C config h) :
    (h.pool.inner.bySeq ++ h.left.map Exit.slot).Nodup :=
  hb.perm.nodup_iff.mp hb.nodup_entered.of_map

theorem length_entered (hb : Balanced C config h) :
    h.entered.length = h.pool.inner.bySeq.length + (h.left.countP fun x => x.route = .evicted) +
      (h.left.countP fun x => x.route = .expired) + h.returned.length := by
  have hlength := hb.perm.length_eq
  have hroutes := countP_routes h.left
  rw [List.length_append, List.length_map] at hlength
  rw [hb.returned, List.length_map]
  omega

theorem totalAccepted_eq (hb : Balanced C config h) :
    h.pool.totalAccepted = UInt64.ofNat h.entered.length :=
  hb.moves.accepted.trans (UInt64.zero_add _)

theorem totalEvicted_eq (hb : Balanced C config h) :
    h.pool.totalEvicted = UInt64.ofNat (h.left.countP fun x => x.route = .evicted) :=
  hb.moves.evicted.trans (UInt64.zero_add _)

theorem totalExpired_eq (hb : Balanced C config h) :
    h.pool.totalExpired = UInt64.ofNat (h.left.countP fun x => x.route = .expired) :=
  hb.moves.expired.trans (UInt64.zero_add _)

end Balanced

theorem Balanced.accounted (hb : Balanced C config h) : Accounted h where
  entered := hb.nodup_entered
  leftOnce := (List.nodup_append.mp hb.nodup_slots).2.1
  placed slot := by rw [hb.perm.mem_iff, List.mem_append]
  apart slot hpool hleft := (List.nodup_append.mp hb.nodup_slots).2.2 slot hpool slot hleft rfl
  returned := hb.returned
  numbered := hb.moves.nextSeq.trans (Nat.zero_add _)
  accepted := hb.totalAccepted_eq
  evicted := hb.totalEvicted_eq
  expired := hb.totalExpired_eq
  total := by
    rw [hb.totalAccepted_eq, hb.totalEvicted_eq, hb.totalExpired_eq, ← UInt64.ofNat_add,
      ← UInt64.ofNat_add, ← UInt64.ofNat_add, hb.length_entered]
  exact hsmall := by
    have hlength := hb.length_entered
    rw [hb.totalAccepted_eq, hb.totalEvicted_eq, hb.totalExpired_eq]
    simp only [UInt64.toNat_ofNat']
    omega

theorem no_transaction_lost (C : Crypto) (config : MempoolConfig) (calls : List Call) :
    Accounted (of C config calls) ∧
      ∀ later, (of C config calls).entered <+: (of C config (calls ++ later)).entered ∧
        (of C config calls).left <+: (of C config (calls ++ later)).left :=
  ⟨(balanced C config calls).accounted, of_append calls⟩

end History

end TrustNode.Mempool
