import TrustNode.ProgramExecutor.Trace
import TrustNode.TxProcessor.Footprint
import TrustNode.TxProcessor.Locks

namespace TrustNode.TxProcessor

open Exec
open TrustNode.Accounts
open TrustNode.ProgramExecutor (accountsMemory Permits)

def ExecutorState.parts : ExecutorState ≃ ExecutionContext × AccountsDB where
  toFun := fun s => (s.ctx, s.db)
  invFun := fun p => ⟨p.2, p.1⟩
  left_inv := fun _ => rfl
  right_inv := fun _ => rfl

abbrev ExecutionTrace (held : Pubkey → Bool → Prop) {α : Type} (p : Execution α) : Type :=
  Traced accountsMemory held ExecutorState.parts p

namespace Executor

section Traces

variable {held : Pubkey → Bool → Prop} {tx : Transaction}

def traceConsumeCompute (units : UInt64) : ExecutionTrace held (consumeCompute units) :=
  .ofLocal
    (fun ctx =>
      let total := ctx.computeUnits + units
      if ctx.maxComputeUnits < total then
        (.error .computeBudgetExceeded, { ctx with computeUnits := total })
      else (.ok (), { ctx with computeUnits := total }))
    fun ctx db => by
      by_cases h : ctx.maxComputeUnits < ctx.computeUnits + units <;>
        simp [consumeCompute, ExecutorState.parts, h]

def traceFeePayment (hs : held tx.signer true) : ExecutionTrace held (executeFeePayment tx) :=
  .bind (traceConsumeCompute 150) fun _ =>
    .bind (.ofTrace (.load ⟨true, hs⟩) fun _ _ => rfl) fun _ => .okOrBind fun _ _ =>
      .ite (fun _ => .fail _) fun _ => .ofTrace (.write hs (some _)) fun _ _ => rfl

def traceExecuteInstruction {ix : Instruction}
    (h : Permits held (programInstruction ix) tx.signer tx.accountKeys) :
    ExecutionTrace held (executeInstruction tx ix) :=
  .ite
    (fun _ =>
      .bind
        (.ofTrace (ProgramExecutor.InstructionProcessor.traceInstruction h) fun _ _ => rfl)
        fun _ => .bind (traceConsumeCompute _) fun _ => .ite (fun _ => .pure _) fun _ => .fail _)
    fun _ => .fail _

def traceExecuteInstructions : ∀ {ixs : List Instruction},
    (∀ ix ∈ ixs, Permits held (programInstruction ix) tx.signer tx.accountKeys) →
      ExecutionTrace held (executeInstructions tx ixs)
  | [], _ => .pure _
  | _ :: _, h =>
    .bind (traceExecuteInstruction (h _ List.mem_cons_self)) fun _ =>
      traceExecuteInstructions fun _ hix => h _ (List.mem_cons_of_mem _ hix)

def traceLoads : ∀ {keys : List Pubkey}, (∀ k ∈ keys, ∃ b, held k b) →
    Trace accountsMemory held fun db => (keys.map db.load, db)
  | [], _ => .done []
  | key :: _, h =>
    ((Trace.load (h key List.mem_cons_self)).bind fun account =>
      (traceLoads fun k hk => h k (List.mem_cons_of_mem key hk)).bind fun rest =>
        .done (account :: rest)).congr fun _ => rfl

def traceRollback : ∀ {snapshot : List (Pubkey × Option Account)},
    (∀ p ∈ snapshot, held p.1 true) →
      Trace accountsMemory held fun db => ((), rollbackTransaction snapshot db)
  | [], _ => .done ()
  | (_, account) :: _, h =>
    ((Trace.write (h _ List.mem_cons_self) account).bind fun _ =>
      traceRollback fun p hp => h p (List.mem_cons_of_mem _ hp)).congr fun _ => by
        cases account <;> rfl

def settle (tx : Transaction) (snapshot : List (Pubkey × Option Account)) :
    Except TransactionError Unit × ExecutionContext → AccountsDB → TransactionResult × AccountsDB
  | (.error e, ctx), db => (.failure e ctx.computeUnits, rollbackTransaction snapshot db)
  | (.ok (), ctx), db => (.ofSuccess (ctx.computeUnits + 150) tx.fee, db)

def perform (tx : Transaction) :
    Except TransactionError Unit × ExecutionContext → AccountsDB → TransactionResult × AccountsDB
  | (.error e, ctx), db => (.failure e ctx.computeUnits, db)
  | (.ok (), ctx), db =>
    let out := split ExecutorState.parts (executeInstructions tx tx.instructions) ctx db
    settle tx (snapshotTransaction db tx) out.1 out.2

theorem perform_eq {C : Crypto} (hvalid : tx.validate = .ok ())
    (hverified : tx.verifySignature C = true) (db : AccountsDB) :
    perform tx (split ExecutorState.parts (executeFeePayment tx) (.new tx.computeBudget) db).1
        (split ExecutorState.parts (executeFeePayment tx) (.new tx.computeBudget) db).2 =
      executeTransaction C db tx := by
  unfold executeTransaction split
  simp only [hvalid, hverified, if_true]
  rw [show ExecutorState.parts.symm (ExecutionContext.new tx.computeBudget, db) =
    ⟨db, .new tx.computeBudget⟩ from rfl]
  generalize executeFeePayment tx ⟨db, .new tx.computeBudget⟩ = fee
  obtain ⟨e | u, s⟩ := fee
  · rfl
  · dsimp only [perform, split]
    rw [show ExecutorState.parts.symm ((ExecutorState.parts s).1, (ExecutorState.parts s).2) = s
      from rfl]
    generalize executeInstructions tx tx.instructions s = out
    obtain ⟨e | u, t⟩ := out
    · rfl
    · simp only [settle, consumeCompute]
      split <;> rfl

def traceSettle {snapshot : List (Pubkey × Option Account)} (h : ∀ p ∈ snapshot, held p.1 true) :
    ∀ r, Trace accountsMemory held (settle tx snapshot r)
  | (.error e, ctx) =>
    (traceRollback h).bind fun _ => .done (TransactionResult.failure e ctx.computeUnits)
  | (.ok (), ctx) => .done (TransactionResult.ofSuccess (ctx.computeUnits + 150) tx.fee)

end Traces

def DeclaresPrograms (tx : Transaction) : Prop :=
  ∀ ix ∈ tx.instructions, ix.programId = systemProgramId ∨ ix.programId = tokenProgramId ∨
    ix.programId ∈ accessed tx

instance (tx : Transaction) : Decidable (DeclaresPrograms tx) :=
  inferInstanceAs (Decidable (∀ ix ∈ tx.instructions, _ ∨ _ ∨ _))

structure Declared (tx : Transaction) : Prop where
  writes : ∀ k ∈ written tx, k ∈ tx.writeAccounts ∨ k = tx.signer
  programs : DeclaresPrograms tx

theorem declared_iff {tx : Transaction} :
    (∀ k ∈ written tx, k ∈ tx.writeAccounts ∨ k = tx.signer) ∧ DeclaresPrograms tx ↔
      Declared tx :=
  ⟨fun h => ⟨h.1, h.2⟩, fun h => ⟨h.writes, h.programs⟩⟩

instance (tx : Transaction) : Decidable (Declared tx) := decidable_of_iff _ declared_iff

def locked (tx : Transaction) (k : Pubkey) (b : Bool) : Prop := (k, b) ∈ lockAccounts tx

section Locked

variable {tx : Transaction}

theorem locked_signer (tx : Transaction) : locked tx tx.signer true :=
  write_mem_lockAccounts.mpr (.inr rfl)

theorem locked_accessed {k : Pubkey} (hk : k ∈ accessed tx) : ∃ b, locked tx k b := by
  refine exists_mem_lockAccounts.mpr ?_
  rcases List.mem_cons.mp hk with rfl | hk
  · exact .inr (.inr rfl)
  · obtain ⟨ix, hix, m, hm, -, hresolve⟩ := Transaction.mem_metaKeys.mp hk
    cases hw : m.isWritable with
    | true => exact .inl (Transaction.mem_metaKeys.mpr ⟨ix, hix, m, hm, hw, hresolve⟩)
    | false =>
      refine .inr (.inl (Transaction.mem_metaKeys.mpr ⟨ix, hix, m, hm, ?_, hresolve⟩))
      rw [hw]
      rfl

theorem locked_mutable {k : Pubkey} (hk : k ∈ mutableAccounts tx) : locked tx k true :=
  write_mem_lockAccounts.mpr (mem_mutableAccounts.mp hk).symm

theorem Declared.permits (h : Declared tx) {ix : Instruction} (hix : ix ∈ tx.instructions) :
    Permits (locked tx) (programInstruction ix) tx.signer tx.accountKeys where
  payer := locked_signer tx
  reads := fun m hm k hk => locked_accessed (covers_accessed hix m hm k hk)
  program := (h.programs ix hix).imp_right (.imp_right locked_accessed)
  targets := fun k hk => write_mem_lockAccounts.mpr (h.writes k
    (List.mem_cons_of_mem _ (List.mem_flatMap.mpr ⟨ix, hix, hk⟩)))

end Locked

section Transactions

variable {tx : Transaction}

def resumeWith (tx : Transaction) (ctx : ExecutionContext) (saved : List (Option Account))
    (db : AccountsDB) : TransactionResult × AccountsDB :=
  let out := split ExecutorState.parts (executeInstructions tx tx.instructions) ctx db
  settle tx ((mutableAccounts tx).zip saved) out.1 out.2

def traceResumeWith (h : Declared tx) (ctx : ExecutionContext) (saved : List (Option Account)) :
    Trace accountsMemory (locked tx) (resumeWith tx ctx saved) :=
  (traceExecuteInstructions (fun _ => h.permits) ctx).bind
    (traceSettle fun _ hp => locked_mutable (List.of_mem_zip hp).1)

theorem resumeWith_saved (ctx : ExecutionContext) (db : AccountsDB) :
    resumeWith tx ctx ((mutableAccounts tx).map db.load) db = perform tx (.ok (), ctx) db := by
  rw [resumeWith, perform, snapshotTransaction, List.map_prod_left_eq_zip]

def tracePerform (h : Declared tx) : ∀ r, Trace accountsMemory (locked tx) (perform tx r)
  | (.error e, ctx) => .done (TransactionResult.failure e ctx.computeUnits)
  | (.ok (), ctx) =>
    ((traceLoads fun _ hk => ⟨true, locked_mutable hk⟩).bind (traceResumeWith h ctx)).congr
      (resumeWith_saved ctx)

def tracePaid (h : Declared tx) {C : Crypto} (hvalid : tx.validate = .ok ())
    (hverified : tx.verifySignature C = true) :
    Trace accountsMemory (locked tx) fun db => executeTransaction C db tx :=
  ((traceFeePayment (locked_signer tx) (.new tx.computeBudget)).bind (tracePerform h)).congr
    (perform_eq hvalid hverified)

theorem executeTransaction_invalid (C : Crypto) {e : TransactionError} (h : tx.validate = .error e)
    (db : AccountsDB) : (TransactionResult.failure e 0, db) = executeTransaction C db tx := by
  simp only [executeTransaction, h]

theorem executeTransaction_forged {C : Crypto} (hvalid : tx.validate = .ok ())
    (h : ¬tx.verifySignature C = true) (db : AccountsDB) :
    (TransactionResult.failure .invalidSignature 0, db) = executeTransaction C db tx := by
  simp only [executeTransaction, hvalid, if_neg h]
  rfl

theorem mem_lockPlan {C : Crypto} (hvalid : tx.validate = .ok ())
    (hverified : tx.verifySignature C = true) (k : Pubkey) (b : Bool) (h : locked tx k b) :
    (k, b) ∈ lockPlan C tx := by
  simp only [lockPlan, hvalid, if_pos hverified]
  exact h

def traceTransaction (C : Crypto) (h : Declared tx) :
    Trace accountsMemory (fun k b => (k, b) ∈ lockPlan C tx) fun db => executeTransaction C db tx :=
  match hvalid : tx.validate with
  | .error e => (Trace.done (TransactionResult.failure e 0)).congr (executeTransaction_invalid C hvalid)
  | .ok () =>
    if hverified : tx.verifySignature C = true then
      (tracePaid h hvalid hverified).weaken (mem_lockPlan hvalid hverified)
    else
      (Trace.done (TransactionResult.failure .invalidSignature 0)).congr
        (executeTransaction_forged hvalid hverified)

end Transactions

section Batch

variable {C : Crypto} {txs : List Transaction}

def batchPlan (C : Crypto) (txs : List Transaction) (i : Fin txs.length) : List (Pubkey × Bool) :=
  lockPlan C (txs.get i)

def batchCode (C : Crypto) (txs : List Transaction) (h : ∀ tx ∈ txs, Declared tx)
    (i : Fin txs.length) : Code Pubkey Account TransactionResult :=
  (traceTransaction C (h (txs.get i) (List.get_mem txs i))).code

abbrev BatchState (txs : List Transaction) :=
  TwoPhase.State AccountsDB Pubkey Account TransactionResult (Fin txs.length)

def Interleaved (C : Crypto) (h : ∀ tx ∈ txs, Declared tx) (db : AccountsDB)
    (s : BatchState txs) : Prop :=
  TwoPhase.Reachable accountsMemory (batchPlan C txs) (batchCode C txs h) db s ∧
    ∀ i, ∃ held r, s.workers i = .releasing held r

theorem run_batchCode (h : ∀ tx ∈ txs, Declared tx) (i : Fin txs.length) (db : AccountsDB) :
    (batchCode C txs h i).run accountsMemory db = executeTransaction C db (txs.get i) :=
  (traceTransaction C (h (txs.get i) (List.get_mem txs i))).run_eq db

theorem serial_batchCode (h : ∀ tx ∈ txs, Declared tx) (db : AccountsDB)
    (order : List (Fin txs.length)) :
    TwoPhase.serial accountsMemory (batchCode C txs h) db order =
      executeAll C db (order.map txs.get) := by
  rw [TwoPhase.serial, executeAll, List.foldl_map]
  simp only [run_batchCode]

theorem covered_batchCode (h : ∀ tx ∈ txs, Declared tx) (i : Fin txs.length) :
    (batchCode C txs h i).Covered fun k b => (k, b) ∈ batchPlan C txs i :=
  (traceTransaction C (h (txs.get i) (List.get_mem txs i))).covered

theorem perm_finRange {order : List (Fin txs.length)} (hnodup : order.Nodup)
    (hall : ∀ i, i ∈ order) : order.Perm (List.finRange txs.length) :=
  (List.perm_ext_iff_of_nodup hnodup (List.nodup_finRange _)).mpr fun i =>
    ⟨fun _ => List.mem_finRange i, fun _ => hall i⟩

theorem map_get_perm {order : List (Fin txs.length)} (h : order.Perm (List.finRange txs.length)) :
    (order.map txs.get).Perm txs := by
  have hmap := h.map txs.get
  rwa [← List.ofFn_eq_map, List.ofFn_get] at hmap

theorem distinct_batchPlan (C : Crypto) (txs : List Transaction) (i : Fin txs.length) :
    (batchPlan C txs i).Pairwise fun a b => a.1 ≠ b.1 :=
  List.pairwise_map.mp (ordered_lockPlan C (txs.get i)).nodup

theorem exists_interleaved (h : ∀ tx ∈ txs, Declared tx) (db : AccountsDB)
    {order : List (Fin txs.length)} (hperm : order.Perm (List.finRange txs.length)) :
    ∃ s, Interleaved C h db s ∧ s.mem = executeAll C db (order.map txs.get) := by
  obtain ⟨s, hreach, hmem, -, -, hdone⟩ :=
    TwoPhase.serial_reachable accountsMemory (batchCode C txs h)
      (distinct_batchPlan C txs) db (hperm.nodup_iff.mpr (List.nodup_finRange _))
  refine ⟨s, ⟨hreach, fun i => ⟨[], hdone i (hperm.mem_iff.mpr (List.mem_finRange i))⟩⟩, ?_⟩
  rw [hmem, serial_batchCode]

theorem exists_interleaved_perm (h : ∀ tx ∈ txs, Declared tx) (db : AccountsDB)
    {order : List Transaction} (hperm : order.Perm txs) :
    ∃ s, Interleaved C h db s ∧ s.mem = executeAll C db order := by
  have hindices : order.Perm ((List.finRange txs.length).map txs.get) := by
    rwa [← List.ofFn_eq_map, List.ofFn_get]
  obtain ⟨indices, rfl, hall⟩ :=
    (congrFun (congrFun (List.eq_map_comp_perm txs.get) order) _).mpr hindices
  exact exists_interleaved h db hall

theorem execute_batch_serializable (h : ∀ tx ∈ txs, Declared tx) {db : AccountsDB}
    {s : BatchState txs} (hrun : Interleaved C h db s) :
    ∃ order : List (Fin txs.length), (order.map txs.get).Perm txs ∧
      s.mem = executeAll C db (order.map txs.get) ∧
      ∀ i held r, s.workers i = .releasing held r → ∃ before after,
        order = before ++ i :: after ∧
        r = (executeTransaction C (executeAll C db (before.map txs.get)) (txs.get i)).1 := by
  obtain ⟨hnodup, hall, hmem, hresults⟩ := hrun.1.serializable (covered_batchCode h) hrun.2
  refine ⟨s.finished, map_get_perm (perm_finRange hnodup hall), ?_, fun i held r hi => ?_⟩
  · rw [hmem, serial_batchCode]
  · obtain ⟨before, after, hsplit, hr⟩ := hresults i held r hi
    rw [run_batchCode, serial_batchCode] at hr
    exact ⟨before, after, hsplit, hr⟩

def transfers : List Transaction :=
  [transferTransaction [systemTransfer 1000 1 true], transferTransaction [systemTransfer 2000 1 true]]

theorem declared_transfers : ∀ tx ∈ transfers, Declared tx := by
  decide +kernel

theorem transfers_serializable :
    ∃ s, Interleaved acceptingCrypto declared_transfers fundedPayer s ∧
      ∃ order : List (Fin transfers.length), (order.map transfers.get).Perm transfers ∧
        s.mem = executeAll acceptingCrypto fundedPayer (order.map transfers.get) ∧
        ∀ i held r, s.workers i = .releasing held r → ∃ before after,
          order = before ++ i :: after ∧
          r = (executeTransaction acceptingCrypto
            (executeAll acceptingCrypto fundedPayer (before.map transfers.get))
            (transfers.get i)).1 := by
  obtain ⟨s, hrun, -⟩ := exists_interleaved (C := acceptingCrypto) declared_transfers fundedPayer
    (List.Perm.refl (List.finRange transfers.length))
  exact ⟨s, hrun, execute_batch_serializable declared_transfers hrun⟩

end Batch

end Executor

end TrustNode.TxProcessor
