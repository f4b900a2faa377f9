import TrustNode.Base.Reorder
import TrustNode.ProgramExecutor.Footprint
import TrustNode.TxProcessor.Atomicity

namespace TrustNode.TxProcessor.Executor

open Exec
open TrustNode.Accounts
open TrustNode.ProgramExecutor (AgreeOn Covers keyAt)

def accessed (tx : Transaction) : List Pubkey := tx.signer :: tx.metaKeys fun _ => true

def written (tx : Transaction) : List Pubkey := tx.signer :: tx.instructions.flatMap (targets tx)

def Independent (tx other : Transaction) : Prop :=
  (∀ k ∈ written tx, k ∉ accessed other) ∧ ∀ k ∈ written other, k ∉ accessed tx

instance (tx other : Transaction) : Decidable (Independent tx other) :=
  inferInstanceAs (Decidable (_ ∧ _))

theorem Independent.symm {tx other : Transaction} (h : Independent tx other) :
    Independent other tx := ⟨h.2, h.1⟩

section Keys

variable {tx : Transaction} {ix : Instruction} {k : Pubkey}

theorem mem_accessed_of_resolve (hix : ix ∈ tx.instructions) {m : AccountMeta}
    (hm : m ∈ ix.accounts) (hk : tx.resolve m.index = some k) : k ∈ accessed tx :=
  List.mem_cons_of_mem _ (Transaction.mem_metaKeys.mpr ⟨ix, hix, m, hm, rfl, hk⟩)

theorem covers_accessed (hix : ix ∈ tx.instructions) :
    Covers {k | k ∈ accessed tx} (programInstruction ix).accountMetas tx.accountKeys := by
  intro m hm k hk
  obtain ⟨m', hm', rfl⟩ := List.mem_map.mp hm
  exact mem_accessed_of_resolve hix hm' hk

theorem mem_accessed_of_keyAt (hix : ix ∈ tx.instructions) {i : ℕ}
    (hk : keyAt (programInstruction ix) tx.accountKeys i = some k) : k ∈ accessed tx := by
  obtain ⟨m, hm, hkey⟩ := Option.bind_eq_some_iff.mp hk
  exact covers_accessed hix m (List.mem_of_getElem? hm) k hkey

theorem targets_subset_accessed (hix : ix ∈ tx.instructions) (hk : k ∈ targets tx ix) :
    k ∈ accessed tx := by
  rcases ProgramExecutor.mem_targets hk with rfl | ⟨i, hi⟩
  · exact List.mem_cons_self
  · exact mem_accessed_of_keyAt hix hi

theorem written_subset_accessed (hk : k ∈ written tx) : k ∈ accessed tx := by
  rcases List.mem_cons.mp hk with rfl | hk
  · exact List.mem_cons_self
  · obtain ⟨ix, hix, hk⟩ := List.mem_flatMap.mp hk
    exact targets_subset_accessed hix hk

end Keys

section Congruence

structure SameRun (K : Set Pubkey) (r r' : Except TransactionError Unit × ExecutorState) : Prop where
  ok : r.1 = .ok () ↔ r'.1 = .ok ()
  accounts : AgreeOn K r.2.db r'.2.db
  ctx : r.1 = .ok () → r.2.ctx = r'.2.ctx

variable {tx : Transaction}

theorem executeInstruction_of_match {ix : Instruction} (hm : signersMatch tx ix = true)
    (s : ExecutorState) :
    let result := processed tx ix s.db
    let units := s.ctx.computeUnits + result.1.computeUnitsConsumed
    ((executeInstruction tx ix s).1 = .ok () ↔
        ¬s.ctx.maxComputeUnits < units ∧ result.1.success = true) ∧
      (executeInstruction tx ix s).2 = ⟨result.2, { s.ctx with computeUnits := units }⟩ := by
  rw [executeInstruction, if_pos hm]
  change (((Exec.bind (Exec.modifyGet _) fun r => Exec.bind (consumeCompute _) fun _ => _) s).1 =
    .ok () ↔ _) ∧ ((Exec.bind (Exec.modifyGet _) fun r => Exec.bind (consumeCompute _) fun _ => _)
      s).2 = _
  by_cases hover : s.ctx.maxComputeUnits <
      s.ctx.computeUnits + (processed tx ix s.db).1.computeUnitsConsumed
  · simp [Exec.bind, Exec.modifyGet, consumeCompute, hover]
  · cases hok : (processed tx ix s.db).1.success with
    | true => simp [Exec.bind, Exec.modifyGet, consumeCompute, hover, hok, pure]
    | false => simp [Exec.bind, Exec.modifyGet, consumeCompute, hover, hok, fail]

theorem executeInstruction_same {ix : Instruction} (hix : ix ∈ tx.instructions)
    {s t : ExecutorState} (hdb : AgreeOn {k | k ∈ accessed tx} s.db t.db) (hctx : s.ctx = t.ctx) :
    SameRun {k | k ∈ accessed tx} (executeInstruction tx ix s) (executeInstruction tx ix t) := by
  by_cases hm : signersMatch tx ix = true
  · have hsame : ProgramExecutor.InstructionProcessor.SameResult _ (processed tx ix s.db)
        (processed tx ix t.db) :=
      ProgramExecutor.InstructionProcessor.processInstruction_same (covers_accessed hix) hdb
    obtain ⟨hoks, hs⟩ := executeInstruction_of_match hm s
    obtain ⟨hokt, ht⟩ := executeInstruction_of_match hm t
    refine ⟨?_, ?_, ?_⟩
    · rw [hoks, hokt, ← hsame.success, ← hctx]
      refine and_congr_left fun hsuccess => ?_
      rw [hsame.units hsuccess]
    · rw [hs, ht]
      exact hsame.accounts
    · intro hok
      rw [hs, ht, hsame.units (hoks.mp hok).2, hctx]
  · simp only [executeInstruction, if_neg hm, fail]
    exact ⟨Iff.rfl, hdb, fun h => by cases h⟩

theorem executeInstructions_same {ixs : List Instruction} (hixs : ixs ⊆ tx.instructions)
    {s t : ExecutorState} (hdb : AgreeOn {k | k ∈ accessed tx} s.db t.db) (hctx : s.ctx = t.ctx) :
    SameRun {k | k ∈ accessed tx} (executeInstructions tx ixs s) (executeInstructions tx ixs t) := by
  induction ixs generalizing s t with
  | nil => exact ⟨Iff.rfl, hdb, fun _ => hctx⟩
  | cons ix rest ih =>
    obtain ⟨hix, hrest⟩ := List.cons_subset.mp hixs
    have hstep := executeInstruction_same hix hdb hctx
    change SameRun _ (Exec.bind (executeInstruction tx ix) (fun _ => executeInstructions tx rest) s)
      (Exec.bind (executeInstruction tx ix) (fun _ => executeInstructions tx rest) t)
    rcases hs : executeInstruction tx ix s with ⟨e | u, s'⟩ <;>
      rcases ht : executeInstruction tx ix t with ⟨e' | u', t'⟩ <;> rw [hs, ht] at hstep
    · simp only [Exec.bind, hs, ht]
      exact ⟨by simp, hstep.accounts, fun h => by cases h⟩
    · exact absurd (hstep.ok.mpr rfl) (by simp)
    · exact absurd (hstep.ok.mp rfl) (by simp)
    · simp only [Exec.bind, hs, ht]
      exact ih hrest hstep.accounts (hstep.ctx rfl)

variable {C : Crypto} {db db' : AccountsDB}

theorem feePhasePassed_congr (h : AgreeOn {k | k ∈ accessed tx} db db') :
    FeePhasePassed C db tx ↔ FeePhasePassed C db' tx := by
  have hsigner : db.load tx.signer = db'.load tx.signer := h tx.signer List.mem_cons_self
  simp only [FeePhasePassed, CanPay, hsigner]

theorem charged_congr (h : AgreeOn {k | k ∈ accessed tx} db db') :
    AgreeOn {k | k ∈ accessed tx} (charged db tx) (charged db' tx) := by
  have hsigner : db.load tx.signer = db'.load tx.signer := h tx.signer List.mem_cons_self
  simp only [charged, ← hsigner]
  cases db.load tx.signer with
  | none => exact h
  | some a => exact h.store tx.signer _

theorem loop_same (h : AgreeOn {k | k ∈ accessed tx} db db') :
    SameRun {k | k ∈ accessed tx} (loop db tx) (loop db' tx) :=
  executeInstructions_same (List.Subset.refl _) (charged_congr h) rfl

theorem executeTransaction_congr (h : AgreeOn {k | k ∈ accessed tx} db db') :
    (executeTransaction C db tx).1.success = (executeTransaction C db' tx).1.success ∧
      AgreeOn {k | k ∈ accessed tx} (executeTransaction C db tx).2
        (executeTransaction C db' tx).2 := by
  have hloop := loop_same h
  by_cases hpaid : FeePhasePassed C db tx
  · have hpaid' := (feePhasePassed_congr h).mp hpaid
    by_cases hc : Completes db tx
    · obtain ⟨hs, hd⟩ := executeTransaction_of_completes hpaid hc
      obtain ⟨hs', hd'⟩ := executeTransaction_of_completes hpaid' (hloop.ok.mp hc)
      rw [hs, hs', hd, hd']
      exact ⟨rfl, hloop.accounts⟩
    · obtain ⟨hs, hd⟩ := executeTransaction_of_fails hpaid hc
      obtain ⟨hs', hd'⟩ := executeTransaction_of_fails hpaid' (fun hc' => hc (hloop.ok.mpr hc'))
      rw [hs, hs', hd, hd']
      refine ⟨rfl, fun k hk => ?_⟩
      rw [load_rollback, load_rollback, charged_congr h k hk, hloop.accounts k hk]
  · have hpaid' : ¬FeePhasePassed C db' tx := fun hp => hpaid ((feePhasePassed_congr h).mpr hp)
    obtain ⟨hs, hd⟩ := executeTransaction_of_not_paid hpaid
    obtain ⟨hs', hd'⟩ := executeTransaction_of_not_paid hpaid'
    rw [hs, hs', hd, hd']
    exact ⟨rfl, h⟩

end Congruence

section Commutation

variable {C : Crypto} {db : AccountsDB} {tx other : Transaction} {k : Pubkey}

theorem applied_subset (ixs : List Instruction) (s : ExecutorState) : applied tx ixs s ⊆ ixs := by
  induction ixs generalizing s with
  | nil => exact List.Subset.refl _
  | cons ix rest ih =>
    simp only [applied]
    split
    · refine List.cons_subset_cons ix ?_
      split
      · exact ih _
      · exact List.nil_subset _
    · exact List.nil_subset _

theorem load_loop_of_not_written (h : FeePhasePassed C db tx) (hk : k ∉ written tx) :
    (loop db tx).2.db.load k = db.load k := by
  obtain ⟨hsigner, htargets⟩ := not_or.mp (fun hc => hk (List.mem_cons.mpr hc))
  rw [← load_charged_of_ne h hsigner]
  refine (loop_steps db tx).load_of_not_target fun ix hix htarget => htargets ?_
  exact List.mem_flatMap.mpr ⟨ix, applied_subset _ _ hix, htarget⟩

theorem load_executeTransaction_of_not_written (C : Crypto) (db : AccountsDB)
    (hk : k ∉ written tx) : (executeTransaction C db tx).2.load k = db.load k := by
  have hsigner : k ≠ tx.signer := fun he => hk (he ▸ List.mem_cons_self)
  by_cases h : FeePhasePassed C db tx
  · by_cases hc : Completes db tx
    · rw [(executeTransaction_of_completes h hc).2, load_loop_of_not_written h hk]
    · rw [(executeTransaction_of_fails h hc).2, load_rollback, load_charged_of_ne h hsigner,
        load_loop_of_not_written h hk, ite_self]
  · rw [(executeTransaction_of_not_paid h).2]

theorem load_after_independent (h : Independent tx other) (hk : k ∈ accessed tx) :
    (executeTransaction C (executeTransaction C db other).2 tx).2.load k =
      (executeTransaction C db tx).2.load k := by
  refine (executeTransaction_congr fun j hj => ?_).2 k hk
  exact load_executeTransaction_of_not_written C db fun hw => h.2 j hw hj

theorem executeTransaction_commute (C : Crypto) (h : Independent tx other) :
    Reorder.Commute (fun db tx => (executeTransaction C db tx).2) tx other := by
  intro db
  apply AccountsDB.ext_load
  intro k
  by_cases hw : k ∈ written tx
  · have hother : k ∉ written other := fun hc => h.1 k hw (written_subset_accessed hc)
    rw [load_executeTransaction_of_not_written C _ hother,
      load_after_independent h (written_subset_accessed hw)]
  · rw [load_executeTransaction_of_not_written C (executeTransaction C db other).2 hw]
    by_cases ho : k ∈ written other
    · exact load_after_independent h.symm (written_subset_accessed ho)
    · rw [load_executeTransaction_of_not_written C _ ho,
        load_executeTransaction_of_not_written C _ hw,
        load_executeTransaction_of_not_written C _ ho]

theorem executeAll_eq_of_inversions {txs txs' : List Transaction} (hperm : txs.Perm txs')
    (h : ∀ a b, [a, b].Sublist txs → [b, a].Sublist txs' → a ≠ b → Independent a b)
    (C : Crypto) (db : AccountsDB) : executeAll C db txs = executeAll C db txs' :=
  Reorder.foldl_eq_of_inversions hperm
    (fun a b hne hab hba => executeTransaction_commute C (h a b hab hba hne)) db

end Commutation

end TrustNode.TxProcessor.Executor
