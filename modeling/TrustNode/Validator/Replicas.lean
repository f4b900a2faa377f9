import TrustNode.Mempool.Accounting
import TrustNode.TxProcessor.Batches
import TrustNode.Validator.Replay
import TrustNode.Validator.Threads

namespace TrustNode.Validator

open TrustNode.Accounts
open TrustNode.Blockstore
open TrustNode.Mempool
open TrustNode.TxProcessor
open TrustNode.TxProcessor.Executor

structure Explicit (tx : Transaction) : Prop where
  writes : DeclaresWrites tx
  programs : DeclaresPrograms tx

theorem explicit_iff {tx : Transaction} : DeclaresWrites tx ∧ DeclaresPrograms tx ↔ Explicit tx :=
  ⟨fun h => ⟨h.1, h.2⟩, fun h => ⟨h.writes, h.programs⟩⟩

instance (tx : Transaction) : Decidable (Explicit tx) := decidable_of_iff _ explicit_iff

theorem Explicit.declared {tx : Transaction} (h : Explicit tx) : Declared tx :=
  ⟨fun k hk => .inl (h.writes k hk), h.programs⟩

theorem executeAll_perm {txs order : List Transaction} (h : txs.Pairwise Independent)
    (hperm : order.Perm txs) (C : Crypto) (db : AccountsDB) :
    executeAll C db order = executeAll C db txs := by
  refine (executeAll_eq_of_inversions hperm.symm (fun a b hab _ _ => ?_) C db).symm
  exact List.pairwise_iff_forall_sublist.mp h hab

theorem RunsBatches.eq_spawnOrder {C : Crypto} {db db' : AccountsDB} {bs : List ExecutionBatch}
    (hruns : RunsBatches C db bs db') (h : ∀ b ∈ bs, b.transactions.Pairwise Independent) :
    db' = bs.foldl (ValidatorState.executeBatch C .spawnOrder) db := by
  induction hruns with
  | nil db => rfl
  | @cons db db' b rest hdeclared s hrun hrest ih =>
    obtain ⟨hb, hbs⟩ := List.forall_mem_cons.mp h
    obtain ⟨hnodup, hall, hmem, -⟩ := hrun.1.serializable (covered_batchCode hdeclared) hrun.2
    have hperm := map_get_perm (perm_finRange hnodup hall)
    have hbatch : s.mem = ValidatorState.executeBatch C .spawnOrder db b := by
      rw [hmem, serial_batchCode, executeAll_perm hb hperm]
      rfl
    rw [ih hbs, List.foldl_cons, hbatch]

theorem batches_independent {txs : List Transaction} (h : ∀ tx ∈ txs, Explicit tx) :
    ∀ b ∈ ValidatorState.batches txs, b.transactions.Pairwise Independent := by
  intro b hb
  have hemitted : b ∈ (Scheduler.defaultSolana.enqueueBatch txs).emitted := hb
  obtain ⟨hsub, hfree⟩ := Scheduler.emitted_spec hemitted
  refine hfree.imp_of_mem fun hx hy hconflict => ?_
  exact independent_of_declares (h _ (hsub.subset hx)).writes (h _ (hsub.subset hy)).writes hconflict

section Parked

variable {C : Crypto} {pool : Pool} {P : Transaction → Prop}

def AllParked (P : Transaction → Prop) (pool : Pool) : Prop := ∀ slot ∈ pool.inner.bySeq, P slot.2.tx

theorem AllParked.insert (h : AllParked P pool) (hwf : pool.inner.WellFormed C) (now : UInt64)
    {tx : Transaction} (htx : P tx) : AllParked P (pool.insert C now tx).2 := by
  intro slot hslot
  have hbalance := (Call.moves_insert hwf now tx).balance
  have hmem := hbalance.symm.subset (List.mem_append_left _ hslot)
  rcases List.mem_append.mp hmem with hold | hnew
  · exact h slot hold
  · rw [Call.entered] at hnew
    split at hnew
    · rw [List.mem_singleton.mp hnew]
      exact htx
    · cases hnew

theorem AllParked.drain (h : AllParked P pool) (hwf : pool.inner.WellFormed C) (limit : ℕ) :
    (∀ tx ∈ (pool.drain limit).1, P tx) ∧ AllParked P (pool.drain limit).2 := by
  have hbalance := (Pool.moves_drain hwf limit).balance
  rw [List.append_nil, Inner.map_slot_exits] at hbalance
  refine ⟨fun tx htx => ?_, fun slot hslot => h slot ?_⟩
  · rw [Pool.drain, Inner.foldl_takeSeqs, List.nil_append] at htx
    obtain ⟨slot, hslot, rfl⟩ := List.mem_map.mp htx
    exact h slot (hbalance.symm.subset (List.mem_append_right _ hslot))
  · exact hbalance.symm.subset (List.mem_append_left _ hslot)

end Parked

namespace ValidatorState

def commit (C : Crypto) (now : UInt64) (written : Bool) (accounts : AccountsDB)
    (s : ValidatorState) : ValidatorState :=
  { s with
    accounts := accounts
    mempool := (s.mempool.drain maxTxsPerBlock).2
    blockHeight := s.blockHeight + 1
    lastProducedSlot := some s.currentSlot
    ledger := (s.ledger.append C now written s.currentSlot s.blockHeight
      (UInt64.ofNat (batches s.packed).length) s.poh.currentHash (accounts.computeStateRoot C)
      s.packed).2 }

theorem Acts.produceBlock_commit {s : ValidatorState} (h : s.Acts) (C : Crypto)
    (order : ThreadOrder) (now : UInt64) (written : Bool) :
    (s.produceBlock C order now written).2 = s.commit C now written (s.executedAccounts C order) := by
  rw [produceBlock, if_neg h]
  rfl

def untimed (s : ValidatorState) : ValidatorState :=
  { s with ledger := ⟨s.ledger.records.map fun r => { r with timestampMs := 0 }⟩ }

theorem tip_untimed (s : ValidatorState) : s.untimed.ledger.tip = s.ledger.tip := by
  simp only [untimed, Ledger.tip, List.getLast?_map, Option.map_map]
  rfl

theorem blockHashes_untimed (s : ValidatorState) :
    s.untimed.ledger.records.map BlockRecord.blockHash =
      s.ledger.records.map BlockRecord.blockHash := by
  simp only [untimed, List.map_map]
  rfl

theorem untimed_commit (C : Crypto) (now : UInt64) (written : Bool) (accounts : AccountsDB)
    (s : ValidatorState) :
    (s.commit C now written accounts).untimed = s.untimed.commit C 0 written accounts := by
  have htip := s.tip_untimed
  simp only [commit, Ledger.append_eq, htip]
  cases written with
  | true =>
    simp only [untimed, if_true, List.map_append, List.map_cons, List.map_nil]
    rfl
  | false => rfl

theorem untimed_processTick (C : Crypto) (s : ValidatorState) :
    (s.processTick C).untimed = s.untimed.processTick C := by
  unfold processTick
  generalize hashesPerTick = n
  dsimp only [untimed]
  split_ifs <;> rfl

end ValidatorState

inductive Input where
  | send (now : UInt64) (tx : Transaction)
  | produce (written : Bool)
  | tick

def Input.event (order : ThreadOrder) (clock : UInt64) : Input → Event
  | .send now tx => .send now tx
  | .produce written => .produce order clock written
  | .tick => .tick

inductive Steps (C : Crypto) : ValidatorState → Input → ValidatorState → Prop
  | send (s : ValidatorState) (now : UInt64) (tx : Transaction) :
      Steps C s (.send now tx) (s.sendTransaction C now tx).2
  | again {s : ValidatorState} (h : ¬s.Acts) (written : Bool) : Steps C s (.produce written) s
  | produce {s : ValidatorState} {accounts : AccountsDB} (h : s.Acts)
      (hruns : RunsBatches C s.accounts (ValidatorState.batches s.packed) accounts) (now : UInt64)
      (written : Bool) : Steps C s (.produce written) (s.commit C now written accounts)
  | tick (s : ValidatorState) : Steps C s .tick (s.processTick C)

inductive Runs (C : Crypto) : ValidatorState → List Input → ValidatorState → Prop
  | nil (s : ValidatorState) : Runs C s [] s
  | cons {s t u : ValidatorState} {input : Input} {rest : List Input} (hstep : Steps C s input t)
      (hrest : Runs C t rest u) : Runs C s (input :: rest) u

structure Ready (C : Crypto) (s : ValidatorState) : Prop where
  wellFormed : s.mempool.inner.WellFormed C
  explicit : AllParked Explicit s.mempool

theorem Ready.new (C : Crypto) (accounts : AccountsDB) (ledger : Ledger) :
    Ready C (.new C accounts .defaultPool ledger) where
  wellFormed := .new C
  explicit := fun _ h => absurd h List.not_mem_nil

theorem Ready.step {C : Crypto} {s t : ValidatorState} (h : Ready C s) {input : Input}
    (hstep : Steps C s input t) (hsent : ∀ now tx, input = .send now tx → Explicit tx) :
    Ready C t := by
  cases hstep with
  | send now tx =>
    exact ⟨(Pool.insert_spec h.wellFormed now tx).1,
      h.explicit.insert h.wellFormed now (hsent now tx rfl)⟩
  | again _ written => exact h
  | produce _ hruns now written =>
    exact ⟨(Pool.drain_spec h.wellFormed maxTxsPerBlock).wellFormed,
      (h.explicit.drain h.wellFormed maxTxsPerBlock).2⟩
  | tick =>
    obtain ⟨poh, tickHeight, currentSlot, htick⟩ := s.processTick_keeps C
    rw [htick]
    exact ⟨h.wellFormed, h.explicit⟩

theorem Ready.packed_explicit {C : Crypto} {s : ValidatorState} (h : Ready C s) :
    ∀ tx ∈ s.packed, Explicit tx :=
  (h.explicit.drain h.wellFormed maxTxsPerBlock).1

theorem Ready.steps_event {C : Crypto} {s : ValidatorState} (h : Ready C s) (order : ThreadOrder)
    (clock : UInt64) (input : Input) :
    Steps C s input (Validator.step C s (input.event order clock)) := by
  cases input with
  | send now tx => exact .send s now tx
  | tick => exact .tick s
  | produce written =>
    rw [Input.event, Validator.step]
    by_cases hacts : s.Acts
    · have hdeclared : ∀ tx ∈ (ValidatorState.batches s.packed).flatMap ExecutionBatch.transactions,
          Declared tx :=
        fun tx htx => (h.packed_explicit tx ((flatMap_batches_perm s).mem_iff.mp htx)).declared
      rw [hacts.produceBlock_commit]
      exact .produce hacts (.of_order order hdeclared s.accounts) clock written
    · rw [ValidatorState.produceBlock_of_not_acts C order clock hacts]
      exact .again hacts written

theorem runs_event {C : Crypto} {s : ValidatorState} (h : Ready C s) (order : ThreadOrder)
    (clock : UInt64) {inputs : List Input}
    (hsent : ∀ now tx, .send now tx ∈ inputs → Explicit tx) :
    Runs C s inputs (run C s (inputs.map (Input.event order clock))) := by
  induction inputs generalizing s with
  | nil => exact .nil s
  | cons input rest ih =>
    have hstep := h.steps_event order clock input
    refine .cons hstep (ih (h.step hstep fun now tx heq => ?_) fun now tx hmem => ?_)
    · exact hsent now tx (heq ▸ List.mem_cons_self)
    · exact hsent now tx (List.mem_cons_of_mem _ hmem)

theorem Ready.untimed_step {C : Crypto} {s t : ValidatorState} (h : Ready C s) {input : Input}
    (hstep : Steps C s input t) : t.untimed = Validator.step C s.untimed (input.event .spawnOrder 0) := by
  cases hstep with
  | send now tx => rfl
  | again hacts written =>
    exact (congrArg Prod.snd (ValidatorState.produceBlock_of_not_acts C .spawnOrder 0
      (s := s.untimed) hacts written)).symm
  | produce hacts hruns now written =>
    have haccounts := hruns.eq_spawnOrder (batches_independent h.packed_explicit)
    have hsequential : s.untimed.Acts := hacts
    rw [ValidatorState.untimed_commit, haccounts]
    exact (hsequential.produceBlock_commit C .spawnOrder 0 written).symm
  | tick => exact s.untimed_processTick C

theorem untimed_run {C : Crypto} {s t : ValidatorState} {inputs : List Input}
    (hruns : Runs C s inputs t) (h : Ready C s)
    (hsent : ∀ now tx, .send now tx ∈ inputs → Explicit tx) :
    t.untimed = run C s.untimed (inputs.map (Input.event .spawnOrder 0)) := by
  induction hruns with
  | nil s => rfl
  | @cons s t u input rest hstep hrest ih =>
    have ht : Ready C t := h.step hstep fun now tx heq => hsent now tx (heq ▸ List.mem_cons_self)
    rw [ih ht fun now tx hmem => hsent now tx (List.mem_cons_of_mem _ hmem), h.untimed_step hstep]
    rfl

theorem replicas_agree (C : Crypto) (accounts : AccountsDB) (ledger : Ledger) {inputs : List Input}
    {s t : ValidatorState} (hsent : ∀ now tx, .send now tx ∈ inputs → Explicit tx)
    (hs : Runs C (.new C accounts .defaultPool ledger) inputs s)
    (ht : Runs C (.new C accounts .defaultPool ledger) inputs t) :
    s.accounts = t.accounts ∧ s.untimed = t.untimed ∧
      s.ledger.records.map BlockRecord.blockHash = t.ledger.records.map BlockRecord.blockHash := by
  have hready := Ready.new C accounts ledger
  have hsame : s.untimed = t.untimed := by
    rw [untimed_run hs hready hsent, untimed_run ht hready hsent]
  have haccounts : s.untimed.accounts = t.untimed.accounts := by rw [hsame]
  refine ⟨haccounts, hsame, ?_⟩
  rw [← s.blockHashes_untimed, ← t.blockHashes_untimed, hsame]

def ThreadOrder.reversed : ThreadOrder where
  run := List.reverse
  perm := List.reverse_perm

def paidBlock : List Input := disjointTransfers.map (.send 0) ++ [.produce true]

theorem explicit_paidBlock : ∀ now tx, .send now tx ∈ paidBlock → Explicit tx := by
  have hall : ∀ tx ∈ disjointTransfers, Explicit tx := by decide +kernel
  intro now tx hmem
  have hsent : tx ∈ disjointTransfers ∧ 0 = now := by simpa [paidBlock] using hmem
  exact hall tx hsent.1

def replica (order : ThreadOrder) (clock : UInt64) : ValidatorState :=
  run acceptingCrypto (.new acceptingCrypto fundedPair .defaultPool ⟨[]⟩)
    (paidBlock.map (Input.event order clock))

theorem ledger_sends (C : Crypto) (txs : List Transaction) (s : ValidatorState) :
    (run C s (txs.map (.send 0))).ledger = s.ledger := by
  induction txs generalizing s with
  | nil => rfl
  | cons tx rest ih => exact ih (step C s (.send 0 tx))

theorem replica_timestamps (order : ThreadOrder) (clock : UInt64) :
    (replica order clock).ledger.records.map BlockRecord.timestampMs = [clock] := by
  set sent := run acceptingCrypto (.new acceptingCrypto fundedPair .defaultPool ⟨[]⟩)
    (disjointTransfers.map (.send 0))
  have hledger : sent.ledger = ⟨[]⟩ := ledger_sends _ _ _
  have hacts : sent.Acts := by
    rw [ValidatorState.Acts, (run_sends acceptingCrypto 0 disjointTransfers _).2]
    exact (Option.some_ne_none _).symm
  have hreplica : replica order clock = (sent.produceBlock acceptingCrypto order clock true).2 := by
    rw [replica, paidBlock, List.map_append, List.map_map, run, List.foldl_append]
    rfl
  rw [hreplica, hacts.produceBlock_eq, if_pos rfl, ValidatorState.afterBlock, hledger]
  rfl

theorem replicas_agree_reversed :
    (replica .spawnOrder 1).ledger ≠ (replica .reversed 2).ledger ∧
      (replica .spawnOrder 1).accounts = (replica .reversed 2).accounts ∧
      (replica .spawnOrder 1).untimed = (replica .reversed 2).untimed ∧
      (replica .spawnOrder 1).ledger.records.map BlockRecord.blockHash =
        (replica .reversed 2).ledger.records.map BlockRecord.blockHash := by
  have hready := Ready.new acceptingCrypto fundedPair ⟨[]⟩
  refine ⟨fun hsame => ?_, replicas_agree acceptingCrypto fundedPair ⟨[]⟩ explicit_paidBlock
    (runs_event hready .spawnOrder 1 explicit_paidBlock)
    (runs_event hready .reversed 2 explicit_paidBlock)⟩
  have htimes := replica_timestamps .spawnOrder 1
  rw [hsame, replica_timestamps] at htimes
  exact absurd htimes (by decide)

end TrustNode.Validator
