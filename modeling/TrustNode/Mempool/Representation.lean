import TrustNode.Mempool.Accounting

namespace TrustNode.Mempool

open TrustNode.TxProcessor

structure Admissible (C : Crypto) (config : MempoolConfig) (entry : MempoolEntry) : Prop where
  hash : entry.hash = entry.tx.hash C
  fee : entry.fee = entry.tx.fee
  minFee : config.minFee ≤ entry.fee
  signature : entry.tx.verifySignature C = true

structure Represents (C : Crypto) (config : MempoolConfig) (pool : Pool) : Prop where
  inverse : ∀ h seq, pool.inner.byHash.lookup h = some seq ↔
    ∃ entry, pool.inner.bySeq.lookup seq = some entry ∧ entry.hash = h
  seqs : (pool.inner.bySeq.map Prod.fst).Nodup
  below : ∀ p ∈ pool.inner.bySeq, p.1 < pool.inner.nextSeq
  capacity : pool.inner.bySeq.length ≤ config.maxSize
  entries : ∀ p ∈ pool.inner.bySeq, Admissible C config p.2

namespace Inner

variable {C : Crypto} {inner : Inner} {seq : ℕ} {entry : MempoolEntry}

theorem WellFormed.lookup_eq_some (hwf : inner.WellFormed C) :
    inner.bySeq.lookup seq = some entry ↔ (seq, entry) ∈ inner.bySeq := by
  refine ⟨mem_of_lookup, fun hmem => ?_⟩
  cases hlookup : inner.bySeq.lookup seq with
  | none =>
    have habsent := List.lookup_eq_none_iff.mp hlookup _ hmem
    simp at habsent
  | some other => rw [hwf.entry_unique (mem_of_lookup hlookup) hmem]

theorem length_dropSeq_lt (h : (seq, entry) ∈ inner.bySeq) :
    (inner.dropSeq seq).bySeq.length < inner.bySeq.length := by
  obtain ⟨found, inner', hremoved⟩ := removeSeq_of_mem (List.mem_map_of_mem h)
  obtain ⟨-, hinner⟩ := removeSeq_eq_some hremoved
  rw [dropSeq_of_removeSeq hremoved, hinner]
  exact List.length_filter_lt_length_iff_exists.mpr ⟨_, h, by simp⟩

end Inner

namespace Pool

variable {C : Crypto} {pool roomy : Pool} {tx : Transaction}

theorem config_makeRoom (h : pool.makeRoom tx = some roomy) : roomy.config = pool.config := by
  obtain ⟨-, rfl⟩ | ⟨p, -, -, -, rfl⟩ := makeRoom_eq_some h
  · rfl
  · rfl

theorem length_makeRoom_lt (hcapacity : pool.inner.bySeq.length ≤ pool.config.maxSize)
    (h : pool.makeRoom tx = some roomy) : roomy.inner.bySeq.length < pool.config.maxSize := by
  obtain ⟨hroom, rfl⟩ | ⟨p, hc, -, -, rfl⟩ := makeRoom_eq_some h
  · exact hroom
  · exact (Inner.length_dropSeq_lt (cheapest_mem hc)).trans_le hcapacity

end Pool

namespace Moves

variable {pool pool' : Pool} {entered : List Slot} {left : List Exit}

theorem mem_of_mem (h : Moves pool pool' entered left) {p : Slot} (hp : p ∈ pool'.inner.bySeq) :
    p ∈ pool.inner.bySeq ∨ p ∈ entered :=
  List.mem_append.mp (h.balance.mem_iff.mpr (List.mem_append_left _ hp))

theorem length_le (h : Moves pool pool' [] left) :
    pool'.inner.bySeq.length ≤ pool.inner.bySeq.length := by
  have hlength := h.balance.length_eq
  rw [List.append_nil, List.length_append] at hlength
  omega

end Moves

namespace Call

variable {C : Crypto} {pool : Pool}

theorem config_run (call : Call) : (call.run C pool).config = pool.config := by
  cases call with
  | insert now tx =>
    rw [run]
    obtain ⟨-, e, he⟩ | ⟨-, ⟨-, hfull⟩ | ⟨roomy, hroom, hroomy⟩⟩ := pool.insert_outcome C now tx
    · rw [he]
      rfl
    · rw [hfull]
      rfl
    · rw [hroomy]
      exact (Pool.config_makeRoom hroom).trans rfl
  | drain limit => rfl
  | remove hash => rw [run, (pool.remove_eq hash).2]
  | expire now => rfl

theorem admissible_entered {call : Call} {slot : Slot} (h : slot ∈ call.entered C pool) :
    Admissible C pool.config slot.2 := by
  cases call with
  | insert now tx =>
    rw [entered] at h
    obtain ⟨-, e, he⟩ | ⟨hscreened, ⟨-, hfull⟩ | ⟨roomy, -, hroomy⟩⟩ :=
      pool.insert_outcome C now tx
    · rw [he] at h
      cases h
    · rw [hfull] at h
      cases h
    · rw [hroomy] at h
      rw [List.mem_singleton.mp h]
      simp only [Pool.screened, Bool.and_eq_true, decide_eq_true_eq] at hscreened
      exact ⟨rfl, rfl, hscreened.1.2, hscreened.1.1⟩
  | drain limit => cases h
  | remove hash => cases h
  | expire now => cases h

theorem length_insert_le (hwf : pool.inner.WellFormed C)
    (hcapacity : pool.inner.bySeq.length ≤ pool.config.maxSize) (now : UInt64) (tx : Transaction) :
    (run C pool (.insert now tx)).inner.bySeq.length ≤ pool.config.maxSize := by
  have hexpired := ((Pool.moves_expireLocked hwf now).length_le).trans hcapacity
  rw [run]
  obtain ⟨-, e, he⟩ | ⟨-, ⟨-, hfull⟩ | ⟨roomy, hroom, hroomy⟩⟩ := pool.insert_outcome C now tx
  · rw [he]
    exact hcapacity
  · rw [hfull]
    exact hexpired
  · have hlt := Pool.length_makeRoom_lt hexpired hroom
    rw [hroomy]
    simp only [Pool.accept, Inner.park, List.length_append, List.length_singleton]
    exact hlt

theorem length_run_le (hwf : pool.inner.WellFormed C)
    (hcapacity : pool.inner.bySeq.length ≤ pool.config.maxSize) (call : Call) :
    (call.run C pool).inner.bySeq.length ≤ pool.config.maxSize := by
  cases call with
  | insert now tx => exact length_insert_le hwf hcapacity now tx
  | drain limit => exact (moves hwf (.drain limit)).length_le.trans hcapacity
  | remove hash => exact (moves hwf (.remove hash)).length_le.trans hcapacity
  | expire now => exact (moves hwf (.expire now)).length_le.trans hcapacity

end Call

namespace Pool

variable {C : Crypto} {config : MempoolConfig} {pool : Pool}

def after (C : Crypto) (config : MempoolConfig) (calls : List Call) : Pool :=
  calls.foldl (fun pool call => call.run C pool) (.new config)

structure Kept (C : Crypto) (config : MempoolConfig) (pool : Pool) : Prop where
  same : pool.config = config
  wellFormed : pool.inner.WellFormed C
  capacity : pool.inner.bySeq.length ≤ config.maxSize
  entries : ∀ p ∈ pool.inner.bySeq, Admissible C config p.2

theorem Kept.run (h : Kept C config pool) (call : Call) : Kept C config (call.run C pool) := by
  obtain ⟨rfl, hwf, hcapacity, hentries⟩ := h
  refine ⟨call.config_run, Call.wellFormed_run hwf call, call.length_run_le hwf hcapacity, ?_⟩
  intro p hp
  obtain hold | hnew := (Call.moves hwf call).mem_of_mem hp
  · exact hentries p hold
  · exact Call.admissible_entered hnew

theorem kept_after (C : Crypto) (config : MempoolConfig) (calls : List Call) :
    Kept C config (after C config calls) := by
  induction calls using List.reverseRecOn with
  | nil => exact ⟨rfl, .new C, Nat.zero_le _, fun p hp => absurd hp List.not_mem_nil⟩
  | append_singleton calls call ih =>
    rw [after, List.foldl_append]
    exact ih.run call

theorem Kept.represents (h : Kept C config pool) : Represents C config pool where
  inverse := by
    intro hash seq
    rw [h.wellFormed.linked]
    exact exists_congr fun entry => and_congr_left fun _ => h.wellFormed.lookup_eq_some.symm
  seqs := h.wellFormed.seqs
  below := h.wellFormed.below
  capacity := h.capacity
  entries := h.entries

theorem representation_invariant (C : Crypto) (config : MempoolConfig) (calls : List Call) :
    Represents C config (after C config calls) :=
  (kept_after C config calls).represents

end Pool

end TrustNode.Mempool
