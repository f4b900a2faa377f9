import TrustNode.Base.Along
import TrustNode.Blockstore.Durability
import TrustNode.TxProcessor.Writes
import TrustNode.Validator.State

namespace TrustNode.Validator

open TrustNode.Accounts
open TrustNode.Blockstore
open TrustNode.Mempool
open TrustNode.TxProcessor

structure GenesisAccount where
  pubkey : Pubkey
  lamports : UInt64

def createAccount (db : AccountsDB) (account : GenesisAccount) : AccountsDB :=
  if db.exists account.pubkey then db
  else db.store account.pubkey (Account.newSystemAccount account.pubkey account.lamports)

def applyGenesis (genesis : List GenesisAccount) (db : AccountsDB) : AccountsDB :=
  genesis.foldl createAccount db

def genesisWrites : List GenesisAccount → AccountsDB → List Update
  | [], _ => []
  | account :: rest, db =>
    if db.exists account.pubkey then genesisWrites rest db
    else
      .store account.pubkey (Account.newSystemAccount account.pubkey account.lamports) ::
        genesisWrites rest (createAccount db account)

def Installed (genesis : List GenesisAccount) (db : AccountsDB) : Prop :=
  ∀ account ∈ genesis, db.exists account.pubkey = true

instance (genesis : List GenesisAccount) (db : AccountsDB) : Decidable (Installed genesis db) :=
  inferInstanceAs (Decidable (∀ account ∈ genesis, _))

theorem applyUpdates_genesisWrites (genesis : List GenesisAccount) (db : AccountsDB) :
    applyUpdates db (genesisWrites genesis db) = applyGenesis genesis db := by
  induction genesis generalizing db with
  | nil => rfl
  | cons account rest ih =>
    rw [genesisWrites, applyGenesis, List.foldl_cons, ← applyGenesis]
    split_ifs with hexists
    · rw [createAccount, if_pos hexists, ih]
    · rw [← ih, createAccount, if_neg hexists]
      rfl

theorem Installed.applyGenesis {genesis : List GenesisAccount} {db : AccountsDB}
    (h : Installed genesis db) : applyGenesis genesis db = db := by
  induction genesis with
  | nil => rfl
  | cons account rest ih =>
    rw [Installed, List.forall_mem_cons] at h
    rw [Validator.applyGenesis, List.foldl_cons, createAccount, if_pos h.1]
    exact ih h.2

namespace ValidatorState

variable (C : Crypto) (order : ThreadOrder) (now : UInt64) (s : ValidatorState)

def blockWrites : List Update := Executor.executionWrites C s.accounts (executionOrder order s)

theorem applyUpdates_blockWrites :
    applyUpdates s.accounts (blockWrites C order s) = executedAccounts C order s := by
  rw [blockWrites, Executor.applyUpdates_executionWrites, executedAccounts_eq]

def blockCall : Blockstore.Call :=
  .append now s.currentSlot s.blockHeight (UInt64.ofNat (batches s.packed).length)
    s.poh.currentHash ((executedAccounts C order s).computeStateRoot C) s.packed

theorem height_nextRecord : (s.nextRecord C order now).height = s.blockHeight := rfl

theorem nextRecord_verifies : (s.nextRecord C order now).verifyHash C = true := by
  rw [BlockRecord.verifyHash, beq_iff_eq]
  rfl

theorem new_of_nil (accounts : AccountsDB) (mempool : Pool) :
    new C accounts mempool ⟨[]⟩ =
      { poh := .new (C.sha256 [103, 101, 110, 101, 115, 105, 115]) 0
        accounts := accounts
        mempool := mempool
        currentSlot := 0
        tickHeight := 0
        blockHeight := 0
        lastProducedSlot := none
        ledger := ⟨[]⟩ } := rfl

theorem new_of_last (accounts : AccountsDB) (mempool : Pool) {records : List BlockRecord}
    {last : BlockRecord} (h : records.getLast? = some last) :
    new C accounts mempool ⟨records⟩ =
      { poh := .new last.pohHash (last.slot + 1)
        accounts := accounts
        mempool := mempool
        currentSlot := last.slot + 1
        tickHeight := 0
        blockHeight := last.height + 1
        lastProducedSlot := none
        ledger := ⟨records⟩ } := by
  rw [new, h]

end ValidatorState

def SlotsLeft (records : List BlockRecord) : Prop :=
  ∀ last ∈ records.getLast?, last.slot.toNat + 1 < 2 ^ 64

instance (records : List BlockRecord) : Decidable (SlotsLeft records) :=
  inferInstanceAs (Decidable (∀ last ∈ records.getLast?, _))

def appendedBy (w : WriteResult) (r : BlockRecord) : List BlockRecord :=
  match w with
  | .ok => [r]
  | .failed _ => []

def persistedBy (w : WriteResult) (bytes : Bytes) : Bytes :=
  match w with
  | .ok => bytes
  | .failed written => bytes.take written

structure Disk where
  ledgerFile : Bytes
  accountsLog : List Accounts.Op

structure Node where
  state : ValidatorState
  disk : Disk

namespace Disk

variable (C : Crypto) (S : Serde BlockRecord)

def accounts (d : Disk) : AccountsDB := applyAll d.accountsLog

def accountsDB (SA : Serde Account) (d : Disk) : AppendOnlyDB :=
  d.accountsLog.foldl (Op.run SA) (.open SA none)

def records (d : Disk) : List BlockRecord := (Blockstore.open C S d.ledgerFile).ledger.records

def restart (genesis : List GenesisAccount) (d : Disk) : Node :=
  let store := Blockstore.open C S d.ledgerFile
  { state := .new C (applyGenesis genesis d.accounts) .defaultPool store.ledger
    disk :=
      { ledgerFile := store.file
        accountsLog :=
          d.accountsLog ++ .reopen :: (genesisWrites genesis d.accounts).map .update } }

end Disk

namespace Disk

variable {C : Crypto} {S : Serde BlockRecord} {d : Disk} {records : List BlockRecord}

structure Holds (C : Crypto) (S : Serde BlockRecord) (d : Disk) (records : List BlockRecord) :
    Prop where
  file_eq : d.ledgerFile = frames C S records
  chained : Chained C records
  storable : ∀ r ∈ records, Storable S r

structure Recovers (C : Crypto) (S : Serde BlockRecord) (d : Disk) (records : List BlockRecord) :
    Prop where
  open_eq : Blockstore.open C S d.ledgerFile = ⟨frames C S records, ⟨records⟩⟩
  chained : Chained C records
  storable : ∀ r ∈ records, Storable S r

theorem recovers_empty : Recovers C S ⟨[], []⟩ [] where
  open_eq := rfl
  chained := .nil
  storable := fun _ hr => by cases hr

theorem Holds.recovers (h : d.Holds C S records) : d.Recovers C S records where
  open_eq := by rw [h.file_eq, open_frames h.chained h.storable]
  chained := h.chained
  storable := h.storable

theorem Holds.snoc (h : d.Holds C S records) {r : BlockRecord} (hr : Storable S r)
    (hparent : r.parentHash = Ledger.tip ⟨records⟩) (hverify : r.verifyHash C = true)
    (log : List Accounts.Op) :
    Holds C S ⟨d.ledgerFile ++ frame C (S.encoded r), log⟩ (records ++ [r]) where
  file_eq := by rw [frames_snoc, h.file_eq]
  chained := h.chained.snoc hparent hverify
  storable := by
    rw [List.forall_mem_append, List.forall_mem_singleton]
    exact ⟨h.storable, hr⟩

theorem Holds.recovers_cut (h : d.Holds C S records) {r : BlockRecord} (hr : Storable S r)
    (hparent : r.parentHash = Ledger.tip ⟨records⟩) (hverify : r.verifyHash C = true)
    (log : List Accounts.Op) (cut : ℕ) :
    ∃ tail, (tail = [] ∨ tail = [r] ∧ cut ≠ 0) ∧
      Recovers C S ⟨d.ledgerFile ++ (frame C (S.encoded r)).take cut, log⟩ (records ++ tail) := by
  have hopen := open_cut h.chained h.storable hr hparent hverify cut
  split_ifs at hopen with hcut
  · have hpos := List.length_pos_iff.mpr (frame_ne_nil C (S.encoded r))
    have hall := h.snoc hr hparent hverify log
    refine ⟨[r], .inr ⟨rfl, by omega⟩, ?_, hall.chained, hall.storable⟩
    rw [h.file_eq, hopen]
  · refine ⟨[], .inl rfl, ?_⟩
    rw [List.append_nil]
    refine ⟨?_, h.chained, h.storable⟩
    rw [h.file_eq, hopen]

theorem Recovers.records_eq (h : d.Recovers C S records) : d.records C S = records := by
  rw [Disk.records, h.open_eq]

theorem Recovers.state_restart (h : d.Recovers C S records) (genesis : List GenesisAccount) :
    (d.restart C S genesis).state =
      .new C (applyGenesis genesis d.accounts) .defaultPool ⟨records⟩ := by
  rw [restart, h.open_eq]

theorem Recovers.records_restart (h : d.Recovers C S records) (genesis : List GenesisAccount) :
    (d.restart C S genesis).state.ledger.records = records := by
  rw [h.state_restart]
  rfl

theorem Recovers.holds_restart (h : d.Recovers C S records) (genesis : List GenesisAccount) :
    (d.restart C S genesis).disk.Holds C S records where
  file_eq := by rw [restart, h.open_eq]
  chained := h.chained
  storable := h.storable

def Journaled (d : Disk) : Prop := ∀ op ∈ d.accountsLog, ∀ db, op.Allowed db

theorem Journaled.updates (h : d.Journaled) (file : Bytes) (updates : List Update) :
    Journaled ⟨file, d.accountsLog ++ updates.map .update⟩ := by
  rw [Journaled, List.forall_mem_append, List.forall_mem_map]
  exact ⟨h, fun _ _ _ => trivial⟩

theorem Journaled.restart (h : d.Journaled) (genesis : List GenesisAccount) :
    (d.restart C S genesis).disk.Journaled := by
  rw [Journaled, Disk.restart, List.forall_mem_append, List.forall_mem_cons, List.forall_mem_map]
  exact ⟨h, fun _ => trivial, fun _ _ _ => trivial⟩

theorem Journaled.runs (SA : Serde Account) {d : Disk} (h : d.Journaled) :
    Runs SA d.accountsLog (d.accountsDB SA) := by
  obtain ⟨file, log⟩ := d
  induction log using List.reverseRecOn with
  | nil => exact .nil
  | append_singleton log op ih =>
    rw [Journaled, List.forall_mem_append, List.forall_mem_singleton] at h
    rw [accountsDB, List.foldl_append]
    exact (ih h.1).snoc op (h.2 _)

theorem accounts_restart (genesis : List GenesisAccount) (d : Disk) :
    (d.restart C S genesis).disk.accounts = applyGenesis genesis d.accounts := by
  rw [← applyUpdates_genesisWrites]
  change applyAll (d.accountsLog ++ ([Op.reopen] ++ _)) = _
  rw [← List.append_assoc, applyAll_updates, applyAll, List.foldl_append]
  rfl

end Disk

inductive NodeEvent where
  | send (now : UInt64) (tx : Transaction)
  | tick
  | produce (order : ThreadOrder) (now : UInt64) (w : WriteResult)
  | restart (genesis : List GenesisAccount)
  | crash (order : ThreadOrder) (now : UInt64) (writes bytes : ℕ) (genesis : List GenesisAccount)

namespace Node

variable (C : Crypto) (S : Serde BlockRecord)

def produce (order : ThreadOrder) (now : UInt64) (w : WriteResult) (n : Node) : Node :=
  if n.state.Acts then
    let (appended, store) :=
      (n.state.blockCall C order now).run C S w ⟨n.disk.ledgerFile, n.state.ledger⟩
    { state := (n.state.produceBlock C order now appended.toOption.isSome).2
      disk :=
        { ledgerFile := store.file
          accountsLog := n.disk.accountsLog ++ (n.state.blockWrites C order).map .update } }
  else n

def crash (order : ThreadOrder) (now : UInt64) (writes bytes : ℕ) (n : Node) : Disk :=
  if n.state.Acts then
    let updates := n.state.blockWrites C order
    { ledgerFile := n.disk.ledgerFile ++
        if updates.length ≤ writes then
          ((S.toVec (n.state.nextRecord C order now)).elim [] (frame C)).take bytes
        else []
      accountsLog := n.disk.accountsLog ++ (updates.take writes).map .update }
  else n.disk

def step (n : Node) : NodeEvent → Node
  | .send now tx => { n with state := (n.state.sendTransaction C now tx).2 }
  | .tick => { n with state := n.state.processTick C }
  | .produce order now w => n.produce C S order now w
  | .restart genesis => n.disk.restart C S genesis
  | .crash order now writes bytes genesis =>
    (n.crash C S order now writes bytes).restart C S genesis

def run (n : Node) (events : List NodeEvent) : Node := events.foldl (step C S) n

def boot (genesis : List GenesisAccount) : Node := Disk.restart C S genesis ⟨[], []⟩

section Outcomes

variable {C S} {n : Node} {order : ThreadOrder} {now : UInt64} {w : WriteResult}

theorem produce_of_not_acts (h : ¬n.state.Acts) : n.produce C S order now w = n := if_neg h

theorem produce_preserves {P : Node → Prop} (h : P n)
    (hacts : n.state.Acts → P (n.produce C S order now w)) : P (n.produce C S order now w) := by
  by_cases hactive : n.state.Acts
  · exact hacts hactive
  · rwa [produce_of_not_acts hactive]

theorem produce_of_acts (h : n.state.Acts)
    (hr : (S.toVec (n.state.nextRecord C order now)).isSome) :
    n.produce C S order now w =
      { state := n.state.afterBlock C order (appendedBy w (n.state.nextRecord C order now))
        disk :=
          { ledgerFile := n.disk.ledgerFile ++
              persistedBy w (frame C (S.encoded (n.state.nextRecord C order now)))
            accountsLog := n.disk.accountsLog ++ (n.state.blockWrites C order).map .update } } := by
  rw [produce, if_pos h, ValidatorState.blockCall, run_append rfl hr]
  cases w with
  | ok =>
    dsimp only
    rw [h.produceBlock_eq]
    rfl
  | failed written =>
    dsimp only
    rw [h.produceBlock_eq]
    rfl

theorem records_produce (h : n.state.Acts)
    (hr : (S.toVec (n.state.nextRecord C order now)).isSome) :
    (n.produce C S order now .ok).state.ledger.records =
      n.state.ledger.records ++ [n.state.nextRecord C order now] := by
  rw [produce_of_acts h hr]
  rfl

theorem crash_of_not_acts (h : ¬n.state.Acts) (writes bytes : ℕ) :
    n.crash C S order now writes bytes = n.disk := if_neg h

theorem crash_preserves {P : Disk → Prop} (h : P n.disk) {writes bytes : ℕ}
    (hacts : n.state.Acts → P (n.crash C S order now writes bytes)) :
    P (n.crash C S order now writes bytes) := by
  by_cases hactive : n.state.Acts
  · exact hacts hactive
  · rwa [crash_of_not_acts hactive]

theorem crash_of_acts (h : n.state.Acts)
    (hr : (S.toVec (n.state.nextRecord C order now)).isSome) (writes bytes : ℕ) :
    ∃ cut, (cut = 0 ∨ (n.state.blockWrites C order).length ≤ writes) ∧
      n.crash C S order now writes bytes =
        { ledgerFile := n.disk.ledgerFile ++
            (frame C (S.encoded (n.state.nextRecord C order now))).take cut
          accountsLog := n.disk.accountsLog ++
            ((n.state.blockWrites C order).take writes).map .update } := by
  obtain ⟨payload, hpayload⟩ := Option.isSome_iff_exists.mp hr
  rw [crash, if_pos h]
  dsimp only
  split_ifs with hall
  · refine ⟨bytes, .inr hall, ?_⟩
    rw [hpayload, Serde.encoded, hpayload]
    rfl
  · exact ⟨0, .inl rfl, rfl⟩

theorem journaled_step (h : n.disk.Journaled) (e : NodeEvent) : (n.step C S e).disk.Journaled := by
  cases e with
  | send now tx => exact h
  | tick => exact h
  | produce order now w =>
    rw [step, produce]
    split_ifs
    · exact h.updates _ _
    · exact h
  | restart genesis => exact h.restart genesis
  | crash order now writes bytes genesis =>
    rw [step, crash]
    split_ifs
    · exact (h.updates _ _).restart genesis
    · exact h.restart genesis

theorem journaled_run (h : n.disk.Journaled) (events : List NodeEvent) :
    (n.run C S events).disk.Journaled := by
  induction events generalizing n with
  | nil => exact h
  | cons e rest ih => exact ih (journaled_step h e)

theorem journaled_boot (genesis : List GenesisAccount) : (boot C S genesis).disk.Journaled :=
  Disk.Journaled.restart (d := ⟨[], []⟩) (fun _ hop => by cases hop) genesis

end Outcomes

end Node

end TrustNode.Validator
