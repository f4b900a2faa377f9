import TrustNode.Blockstore.Record
import TrustNode.Mempool.Pool
import TrustNode.Poh.Hasher
import TrustNode.TxProcessor.Executor
import TrustNode.TxProcessor.Scheduler

namespace TrustNode.Validator

open TrustNode.Accounts
open TrustNode.Blockstore
open TrustNode.Mempool
open TrustNode.Poh
open TrustNode.TxProcessor

def hashesPerTick : ℕ := 6000

def ticksPerSlot : UInt64 := 1

def maxTxsPerBlock : ℕ := 128

structure ThreadOrder where
  run : List Transaction → List Transaction
  perm : ∀ txs, (run txs).Perm txs

def ThreadOrder.spawnOrder : ThreadOrder where
  run := id
  perm := fun _ => .refl _

structure ValidatorState where
  poh : PohHasher
  accounts : AccountsDB
  mempool : Pool
  currentSlot : UInt64
  tickHeight : UInt64
  blockHeight : UInt64
  lastProducedSlot : Option UInt64
  ledger : Ledger

namespace ValidatorState

def new (C : Crypto) (accounts : AccountsDB) (mempool : Pool) (ledger : Ledger) : ValidatorState :=
  let (slot, height, seed) := match ledger.records.getLast? with
    | some last => (last.slot + 1, last.height + 1, last.pohHash)
    | none => (0, 0, C.sha256 [103, 101, 110, 101, 115, 105, 115])
  { poh := .new seed slot
    accounts := accounts
    mempool := mempool
    currentSlot := slot
    tickHeight := 0
    blockHeight := height
    lastProducedSlot := none
    ledger := ledger }

def advanceSlot (s : ValidatorState) : ValidatorState :=
  { s with currentSlot := s.currentSlot + 1, poh := s.poh.newSlot (s.currentSlot + 1) }

def processTick (C : Crypto) (s : ValidatorState) : ValidatorState :=
  let t := { s with poh := s.poh.hashN C hashesPerTick, tickHeight := s.tickHeight + 1 }
  if ticksPerSlot ≤ t.tickHeight then advanceSlot { t with tickHeight := 0 } else t

def sendTransaction (C : Crypto) (now : UInt64) (tx : Transaction) (s : ValidatorState) :
    Except MempoolError TxHash × ValidatorState :=
  let (result, pool) := s.mempool.insert C now tx
  (result, { s with mempool := pool })

def executeBatch (C : Crypto) (order : ThreadOrder) (db : AccountsDB) (batch : ExecutionBatch) :
    AccountsDB :=
  Executor.executeAll C db (order.run batch.transactions)

def packed (s : ValidatorState) : List Transaction := (s.mempool.drain maxTxsPerBlock).1

def batches (txs : List Transaction) : List ExecutionBatch :=
  (Scheduler.defaultSolana.enqueueBatch txs).schedule.batches

def executedAccounts (C : Crypto) (order : ThreadOrder) (s : ValidatorState) : AccountsDB :=
  (batches s.packed).foldl (executeBatch C order) s.accounts

def produceBlock (C : Crypto) (order : ThreadOrder) (now : UInt64) (written : Bool)
    (s : ValidatorState) : Option (UInt64 × BlockRecord) × ValidatorState :=
  if s.lastProducedSlot = some s.currentSlot then (none, s)
  else
    let accounts := executedAccounts C order s
    let (appended, ledger) := s.ledger.append C now written s.currentSlot s.blockHeight
      (UInt64.ofNat (batches s.packed).length) s.poh.currentHash (accounts.computeStateRoot C)
      s.packed
    (appended.toOption.map fun record => (record.slot, record),
      { s with
        accounts := accounts
        mempool := (s.mempool.drain maxTxsPerBlock).2
        blockHeight := s.blockHeight + 1
        lastProducedSlot := some s.currentSlot
        ledger := ledger })

def executionOrder (order : ThreadOrder) (s : ValidatorState) : List Transaction :=
  (batches s.packed).flatMap fun b => order.run b.transactions

theorem foldl_executeBatch (C : Crypto) (order : ThreadOrder) (bs : List ExecutionBatch)
    (db : AccountsDB) :
    bs.foldl (executeBatch C order) db =
      Executor.executeAll C db (bs.flatMap fun b => order.run b.transactions) := by
  induction bs generalizing db with
  | nil => rfl
  | cons b rest ih =>
    rw [List.foldl_cons, ih, List.flatMap_cons, Executor.executeAll, Executor.executeAll, List.foldl_append]
    rfl

theorem executedAccounts_eq (C : Crypto) (order : ThreadOrder) (s : ValidatorState) :
    executedAccounts C order s = Executor.executeAll C s.accounts (executionOrder order s) :=
  foldl_executeBatch C order (batches s.packed) s.accounts

theorem flatMap_run_perm (order : ThreadOrder) (bs : List ExecutionBatch) :
    (bs.flatMap fun b => order.run b.transactions).Perm
      (bs.flatMap ExecutionBatch.transactions) := by
  induction bs with
  | nil => exact .nil
  | cons b rest ih => exact (order.perm b.transactions).append ih

theorem executionOrder_perm (order : ThreadOrder) (s : ValidatorState) :
    (executionOrder order s).Perm s.packed := by
  have hsize : 1 ≤ (Scheduler.defaultSolana.enqueueBatch s.packed).maxBatchSize := by
    change 1 ≤ 128
    omega
  have hschedule := Scheduler.schedule_perm hsize rfl
  exact (flatMap_run_perm order (batches s.packed)).trans hschedule

section Specifications

variable (C : Crypto) (order : ThreadOrder) (now : UInt64) (s : ValidatorState)

theorem processTick_keeps :
    ∃ poh tickHeight currentSlot, s.processTick C =
      { s with poh := poh, tickHeight := tickHeight, currentSlot := currentSlot } := by
  unfold processTick
  dsimp only
  split_ifs
  · exact ⟨_, _, _, rfl⟩
  · exact ⟨_, _, s.currentSlot, rfl⟩

theorem processTick_eq (h : s.tickHeight = 0) :
    s.processTick C =
      { s with
        poh := (s.poh.hashN C hashesPerTick).newSlot (s.currentSlot + 1)
        tickHeight := 0
        currentSlot := s.currentSlot + 1 } := by
  have hfull : ticksPerSlot ≤ s.tickHeight + 1 := by
    rw [h]
    decide
  unfold processTick
  dsimp only
  rw [if_pos hfull, advanceSlot]

def nextRecord : BlockRecord :=
  .new C now s.ledger.tip s.currentSlot s.blockHeight s.poh.currentHash
    (UInt64.ofNat (batches s.packed).length) ((executedAccounts C order s).computeStateRoot C)
    s.packed

def afterBlock (appended : List BlockRecord) : ValidatorState :=
  { s with
    accounts := executedAccounts C order s
    mempool := (s.mempool.drain maxTxsPerBlock).2
    blockHeight := s.blockHeight + 1
    lastProducedSlot := some s.currentSlot
    ledger := ⟨s.ledger.records ++ appended⟩ }

def Acts : Prop := s.lastProducedSlot ≠ some s.currentSlot

instance : Decidable s.Acts := inferInstanceAs (Decidable (¬_))

variable {s}

theorem produceBlock_of_not_acts (h : ¬s.Acts) (written : Bool) :
    s.produceBlock C order now written = (none, s) := if_pos (not_not.mp h)

theorem Acts.produceBlock_eq (h : s.Acts) (written : Bool) :
    s.produceBlock C order now written =
      if written then
        (some (s.currentSlot, s.nextRecord C order now),
          s.afterBlock C order [s.nextRecord C order now])
      else (none, s.afterBlock C order []) := by
  rw [ValidatorState.produceBlock, if_neg h]
  dsimp only
  rw [Ledger.append_eq]
  cases written with
  | true => rfl
  | false => simp [afterBlock, Except.toOption]

end Specifications

end ValidatorState

inductive Event where
  | send (now : UInt64) (tx : Transaction)
  | produce (order : ThreadOrder) (now : UInt64) (written : Bool)
  | tick

def step (C : Crypto) (s : ValidatorState) : Event → ValidatorState
  | .send now tx => (s.sendTransaction C now tx).2
  | .produce order now written => (s.produceBlock C order now written).2
  | .tick => s.processTick C

def run (C : Crypto) (s : ValidatorState) (events : List Event) : ValidatorState :=
  events.foldl (step C) s

end TrustNode.Validator
