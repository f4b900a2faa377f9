import TrustNode.TxProcessor.Footprint
import TrustNode.TxProcessor.Supply
import TrustNode.Validator.State

namespace TrustNode.Validator

open TrustNode.Accounts
open TrustNode.Blockstore
open TrustNode.ProgramExecutor
open TrustNode.TxProcessor
open TrustNode.TxProcessor.Executor

def MayRunBefore : List ExecutionBatch → Transaction → Transaction → Prop
  | [], _, _ => False
  | batch :: rest, b, a =>
    b ∈ batch.transactions ∧
        (a ∈ batch.transactions ∨ a ∈ rest.flatMap ExecutionBatch.transactions) ∨
      MayRunBefore rest b a

instance decidableMayRunBefore :
    (bs : List ExecutionBatch) → (b a : Transaction) → Decidable (MayRunBefore bs b a)
  | [], _, _ => .isFalse id
  | _ :: rest, b, a =>
    have := decidableMayRunBefore rest b a
    inferInstanceAs (Decidable (_ ∨ _))

def OvertakesOnlyIndependent (txs : List Transaction) : Prop :=
  txs.Pairwise fun a b => MayRunBefore (ValidatorState.batches txs) b a → a ≠ b → Independent a b

instance (txs : List Transaction) : Decidable (OvertakesOnlyIndependent txs) :=
  inferInstanceAs (Decidable (List.Pairwise _ _))

def Replays (C : Crypto) (order : ThreadOrder) (now : UInt64) (written : Bool)
    (s : ValidatorState) : Prop :=
  ∀ block ∈ (s.produceBlock C order now written).1,
    (executeAll C s.accounts block.2.transactions).computeStateRoot C = block.2.stateRoot

theorem mayRunBefore_of_sublist (order : ThreadOrder) {bs : List ExecutionBatch}
    {a b : Transaction}
    (h : [b, a].Sublist (bs.flatMap fun batch => order.run batch.transactions)) :
    MayRunBefore bs b a := by
  induction bs with
  | nil => cases h
  | cons batch rest ih =>
    rw [List.flatMap_cons] at h
    have hthreads := order.perm batch.transactions
    rcases Reorder.sublist_pair_append h with ⟨hb, ha⟩ | hrest
    · refine Or.inl ⟨hthreads.mem_iff.mp hb, ?_⟩
      rcases ha with ha | ha
      · exact Or.inl (hthreads.mem_iff.mp ha)
      · exact Or.inr ((ValidatorState.flatMap_run_perm order rest).mem_iff.mp ha)
    · exact Or.inr (ih hrest)

theorem executedAccounts_eq_recorded {s : ValidatorState} (h : OvertakesOnlyIndependent s.packed)
    (C : Crypto) (order : ThreadOrder) :
    s.executedAccounts C order = executeAll C s.accounts s.packed := by
  rw [ValidatorState.executedAccounts_eq]
  symm
  refine executeAll_eq_of_inversions (s.executionOrder_perm order).symm ?_ C s.accounts
  intro a b hab hba hne
  exact List.pairwise_iff_forall_sublist.mp h hab (mayRunBefore_of_sublist order hba) hne

theorem produceBlock_record {C : Crypto} {order : ThreadOrder} {now : UInt64} {written : Bool}
    {s : ValidatorState} {block : UInt64 × BlockRecord}
    (h : block ∈ (s.produceBlock C order now written).1) :
    block.2.transactions = s.packed ∧
      block.2.stateRoot = (s.executedAccounts C order).computeStateRoot C := by
  by_cases hacts : s.Acts
  · rw [hacts.produceBlock_eq] at h
    cases written with
    | false => cases h
    | true =>
      obtain rfl := Option.mem_some.mp h
      simp only [ValidatorState.nextRecord, BlockRecord.new, and_self]
  · rw [ValidatorState.produceBlock_of_not_acts _ _ _ hacts] at h
    cases h

theorem produceBlock_appends {s : ValidatorState} (h : s.lastProducedSlot = none) (C : Crypto)
    (order : ThreadOrder) (now : UInt64) : ∃ block, block ∈ (s.produceBlock C order now true).1 := by
  have hacts : s.Acts := by
    rw [ValidatorState.Acts, h]
    exact Option.some_ne_none _ |>.symm
  rw [hacts.produceBlock_eq]
  exact ⟨_, rfl⟩

theorem produced_block_replays (C : Crypto) (order : ThreadOrder) (now : UInt64) (written : Bool)
    (s : ValidatorState) (h : OvertakesOnlyIndependent s.packed) :
    Replays C order now written s := by
  intro block hproduced
  obtain ⟨htxs, hroot⟩ := produceBlock_record hproduced
  rw [htxs, hroot, executedAccounts_eq_recorded h]

def transferBetween (sender receiver shared : UInt8) (lamports fee : UInt64) : Transaction where
  signature := List.replicate 64 0
  signer := Bytes32.splat sender
  accountKeys := [Bytes32.splat sender, Bytes32.splat receiver, Bytes32.splat shared]
  instructions :=
    [{ programId := systemProgramId
       accounts := [⟨0, true, true⟩, ⟨1, false, true⟩, ⟨2, false, true⟩]
       data := SystemInstruction.toData (.transfer lamports) }]
  recentBlockhash := Bytes32.splat 0
  computeBudget := 200000
  fee := fee

def fundedPair : AccountsDB :=
  fundedPayer.store (Bytes32.splat 43) (Account.newSystemAccount (Bytes32.splat 43) 1000000)

def holding (txs : List Transaction) : ValidatorState :=
  run acceptingCrypto (.new acceptingCrypto fundedPair .defaultPool ⟨[]⟩) (txs.map (.send 0))

theorem run_sends (C : Crypto) (now : UInt64) (txs : List Transaction) (s : ValidatorState) :
    (run C s (txs.map (.send now))).accounts = s.accounts ∧
      (run C s (txs.map (.send now))).lastProducedSlot = s.lastProducedSlot := by
  induction txs generalizing s with
  | nil => exact ⟨rfl, rfl⟩
  | cons tx rest ih => exact ih (step C s (.send now tx))

theorem holding_appends (txs : List Transaction) :
    ∃ block, block ∈ ((holding txs).produceBlock acceptingCrypto .spawnOrder 0 true).1 :=
  produceBlock_appends (run_sends _ _ txs _).2 _ _ _

def disjointTransfers : List Transaction :=
  [transferBetween 42 50 1 1000 9000, transferBetween 43 51 2 1000 8000]

theorem packed_disjointTransfers : (holding disjointTransfers).packed = disjointTransfers := by
  decide +kernel

theorem disjoint_transfers_replay :
    (∃ block, block ∈
        ((holding disjointTransfers).produceBlock acceptingCrypto .spawnOrder 0 true).1) ∧
      Replays acceptingCrypto .spawnOrder 0 true (holding disjointTransfers) := by
  refine ⟨holding_appends _, produced_block_replays _ _ _ _ _ ?_⟩
  rw [packed_disjointTransfers]
  decide +kernel

def overtakingTransfers : List Transaction :=
  [transferBetween 42 50 1 1000 9000, transferBetween 43 51 1 100000 8000,
    transferBetween 51 52 2 1000 7000]

theorem packed_overtakingTransfers : (holding overtakingTransfers).packed = overtakingTransfers := by
  decide +kernel

theorem overtaken_transfer_does_not_replay :
    ¬Replays acceptingCrypto .spawnOrder 0 true (holding overtakingTransfers) := by
  intro h
  obtain ⟨block, hblock⟩ := holding_appends overtakingTransfers
  obtain ⟨htxs, hroot⟩ := produceBlock_record hblock
  have hreplay := h block hblock
  rw [htxs, hroot, ValidatorState.executedAccounts, packed_overtakingTransfers,
    show (holding overtakingTransfers).accounts = fundedPair from (run_sends _ _ _ _).1] at hreplay
  revert hreplay
  decide +kernel

end TrustNode.Validator
