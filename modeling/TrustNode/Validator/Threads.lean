import TrustNode.TxProcessor.Serializable
import TrustNode.Validator.State

namespace TrustNode.Validator

open TrustNode.Accounts
open TrustNode.TxProcessor
open TrustNode.TxProcessor.Executor

inductive RunsBatches (C : Crypto) : AccountsDB → List ExecutionBatch → AccountsDB → Prop
  | nil (db : AccountsDB) : RunsBatches C db [] db
  | cons {db db' : AccountsDB} {b : ExecutionBatch} {rest : List ExecutionBatch}
      (h : ∀ tx ∈ b.transactions, Declared tx) {s : BatchState b.transactions}
      (hrun : Interleaved C h db s) (hrest : RunsBatches C s.mem rest db') :
      RunsBatches C db (b :: rest) db'

namespace ThreadOrder

def override (order : ThreadOrder) {txs txs' : List Transaction} (h : txs'.Perm txs) :
    ThreadOrder where
  run := fun l => if l = txs then txs' else order.run l
  perm := by
    intro l
    split_ifs with hl
    · exact hl ▸ h
    · exact order.perm l

theorem run_nil (order : ThreadOrder) : order.run [] = [] := (order.perm []).eq_nil

variable {order : ThreadOrder} {txs txs' : List Transaction} {h : txs'.Perm txs}

theorem run_override_self : (order.override h).run txs = txs' := if_pos rfl

theorem run_override_of_disjoint {l : List Transaction} (hl : txs.Disjoint l) :
    (order.override h).run l = order.run l := by
  by_cases heq : l = txs
  · subst heq
    obtain rfl : l = [] := by
      cases l with
      | nil => rfl
      | cons tx rest => exact absurd List.mem_cons_self (hl List.mem_cons_self)
    rw [run_nil, run_nil]
  · exact if_neg heq

end ThreadOrder

theorem foldl_executeBatch_override (C : Crypto) {order : ThreadOrder} {txs txs' : List Transaction}
    {h : txs'.Perm txs} {bs : List ExecutionBatch}
    (hbs : txs.Disjoint (bs.flatMap ExecutionBatch.transactions)) (db : AccountsDB) :
    bs.foldl (ValidatorState.executeBatch C (order.override h)) db =
      bs.foldl (ValidatorState.executeBatch C order) db := by
  induction bs generalizing db with
  | nil => rfl
  | cons b rest ih =>
    rw [List.flatMap_cons, List.disjoint_append_right] at hbs
    rw [List.foldl_cons, List.foldl_cons, ih hbs.2, ValidatorState.executeBatch,
      ValidatorState.executeBatch, ThreadOrder.run_override_of_disjoint hbs.1]

theorem RunsBatches.exists_order {C : Crypto} {db db' : AccountsDB} {bs : List ExecutionBatch}
    (hruns : RunsBatches C db bs db')
    (hnodup : (bs.flatMap ExecutionBatch.transactions).Nodup) :
    ∃ order : ThreadOrder, db' = bs.foldl (ValidatorState.executeBatch C order) db := by
  induction hruns with
  | nil db => exact ⟨.spawnOrder, rfl⟩
  | @cons db db' b rest h s hrun hrest ih =>
    rw [List.flatMap_cons, List.nodup_append'] at hnodup
    obtain ⟨-, hrestNodup, hdisjoint⟩ := hnodup
    obtain ⟨order, rfl⟩ := ih hrestNodup
    obtain ⟨hfinished, hall, hmem, -⟩ := hrun.1.serializable (covered_batchCode h) hrun.2
    have hperm := map_get_perm (perm_finRange hfinished hall)
    refine ⟨order.override hperm, ?_⟩
    rw [List.foldl_cons, foldl_executeBatch_override C hdisjoint, ValidatorState.executeBatch,
      ThreadOrder.run_override_self, hmem, serial_batchCode]

theorem RunsBatches.of_order {C : Crypto} (order : ThreadOrder) {bs : List ExecutionBatch}
    (h : ∀ tx ∈ bs.flatMap ExecutionBatch.transactions, Declared tx) (db : AccountsDB) :
    RunsBatches C db bs (bs.foldl (ValidatorState.executeBatch C order) db) := by
  induction bs generalizing db with
  | nil => exact .nil db
  | cons b rest ih =>
    rw [List.flatMap_cons, List.forall_mem_append] at h
    obtain ⟨s, hrun, hmem⟩ := exists_interleaved_perm (C := C) h.1 db (order.perm b.transactions)
    refine .cons h.1 hrun ?_
    rw [hmem]
    exact ih h.2 _

theorem flatMap_batches_perm (s : ValidatorState) :
    ((ValidatorState.batches s.packed).flatMap ExecutionBatch.transactions).Perm s.packed :=
  (ValidatorState.flatMap_run_perm .spawnOrder (ValidatorState.batches s.packed)).symm.trans
    (ValidatorState.executionOrder_perm .spawnOrder s)

theorem concurrent_execution_iff (C : Crypto) {s : ValidatorState}
    (hdeclared : ∀ tx ∈ s.packed, Declared tx) (hnodup : s.packed.Nodup) (db : AccountsDB) :
    RunsBatches C s.accounts (ValidatorState.batches s.packed) db ↔
      ∃ order : ThreadOrder, db = ValidatorState.executedAccounts C order s := by
  have hperm := flatMap_batches_perm s
  constructor
  · intro hruns
    exact hruns.exists_order (hperm.nodup_iff.mpr hnodup)
  · rintro ⟨order, rfl⟩
    exact .of_order order (fun tx htx => hdeclared tx (hperm.mem_iff.mp htx)) s.accounts

def submitted : ValidatorState :=
  run acceptingCrypto (.new acceptingCrypto fundedPayer .defaultPool ⟨[]⟩)
    (transfers.map (Event.send 0))

theorem concurrent_transfers_iff :
    submitted.packed.length = 2 ∧ ∀ db,
      RunsBatches acceptingCrypto submitted.accounts (ValidatorState.batches submitted.packed) db ↔
        ∃ order : ThreadOrder, db = ValidatorState.executedAccounts acceptingCrypto order submitted := by
  have hpacked : submitted.packed.length = 2 ∧ (∀ tx ∈ submitted.packed, Declared tx) ∧
      submitted.packed.Nodup := by
    decide +kernel
  exact ⟨hpacked.1, concurrent_execution_iff acceptingCrypto hpacked.2.1 hpacked.2.2⟩

end TrustNode.Validator
