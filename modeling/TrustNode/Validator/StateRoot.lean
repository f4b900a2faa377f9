import TrustNode.TxProcessor.Supply
import TrustNode.Validator.Node

namespace TrustNode.Validator

open TrustNode.Accounts
open TrustNode.Blockstore
open TrustNode.TxProcessor
open TrustNode.TxProcessor.Executor (systemTransfer transferTransaction)

section Agreement

variable {C : Crypto} {S : Serde BlockRecord}

def InstalledOn (C : Crypto) (S : Serde BlockRecord) (genesis : List GenesisAccount) (d : Disk) :
    Prop :=
  d.records C S ≠ [] → Installed genesis d.accounts

def Careful (C : Crypto) (S : Serde BlockRecord) (n : Node) : NodeEvent → Prop
  | .send _ _ => True
  | .tick => True
  | .produce order now w => n.state.Acts → w = .ok ∧ Storable S (n.state.nextRecord C order now)
  | .restart genesis => InstalledOn C S genesis n.disk
  | .crash order now writes bytes genesis =>
    (n.state.Acts → (n.state.blockWrites C order).take writes = [] ∧
      Storable S (n.state.nextRecord C order now)) ∧
    InstalledOn C S genesis (n.crash C S order now writes bytes)

def RootRecorded (C : Crypto) (accounts : AccountsDB) (records : List BlockRecord) : Prop :=
  ∀ last ∈ records.getLast?, accounts.computeStateRoot C = last.stateRoot

theorem rootRecorded_snoc (C : Crypto) (order : ThreadOrder) (now : UInt64) (s : ValidatorState) :
    RootRecorded C (s.executedAccounts C order)
      (s.ledger.records ++ [s.nextRecord C order now]) := by
  intro last hlast
  rw [List.getLast?_concat, Option.mem_some_iff] at hlast
  rw [← hlast, ValidatorState.nextRecord, BlockRecord.new]

def Agreeing (C : Crypto) (S : Serde BlockRecord) (d : Disk) : Prop :=
  ∃ records, d.Recovers C S records ∧ RootRecorded C d.accounts records

structure Synced (C : Crypto) (S : Serde BlockRecord) (n : Node) : Prop where
  holds : n.disk.Holds C S n.state.ledger.records
  accounts_eq : n.state.accounts = n.disk.accounts
  root : RootRecorded C n.state.accounts n.state.ledger.records

namespace Synced

variable {n : Node}

theorem agreeing (h : Synced C S n) : Agreeing C S n.disk :=
  ⟨_, h.holds.recovers, h.accounts_eq ▸ h.root⟩

theorem restart {d : Disk} {genesis : List GenesisAccount} (hd : Agreeing C S d)
    (hgenesis : InstalledOn C S genesis d) : Synced C S (d.restart C S genesis) := by
  obtain ⟨records, hrecovers, hroot⟩ := hd
  have hledger := hrecovers.records_restart genesis
  refine ⟨?_, (Disk.accounts_restart genesis d).symm, ?_⟩
  · rw [hledger]
    exact hrecovers.holds_restart genesis
  · rw [hledger]
    intro last hlast
    have hne : d.records C S ≠ [] := by
      rw [hrecovers.records_eq]
      exact List.ne_nil_of_mem (List.mem_of_getLast? hlast)
    have hsame : (d.restart C S genesis).state.accounts = d.accounts :=
      (hgenesis hne).applyGenesis
    rw [hsame]
    exact hroot last hlast

theorem accounts_produce (h : Synced C S n) (order : ThreadOrder) :
    applyAll (n.disk.accountsLog ++ (n.state.blockWrites C order).map .update) =
      n.state.executedAccounts C order := by
  rw [applyAll_updates, ← Disk.accounts, ← h.accounts_eq, ValidatorState.applyUpdates_blockWrites]

theorem produce (h : Synced C S n) {order : ThreadOrder} {now : UInt64} (hacts : n.state.Acts)
    (hr : Storable S (n.state.nextRecord C order now)) :
    Synced C S (n.produce C S order now .ok) := by
  rw [Node.produce_of_acts hacts hr.isSome]
  refine ⟨?_, (h.accounts_produce order).symm, rootRecorded_snoc C order now n.state⟩
  exact h.holds.snoc hr rfl (n.state.nextRecord_verifies C order now) _

theorem crash (h : Synced C S n) {order : ThreadOrder} {now : UInt64} (hacts : n.state.Acts)
    (hr : Storable S (n.state.nextRecord C order now)) {writes : ℕ}
    (hnone : (n.state.blockWrites C order).take writes = []) (bytes : ℕ) :
    Agreeing C S (n.crash C S order now writes bytes) := by
  obtain ⟨cut, hcut, hcrash⟩ := Node.crash_of_acts hacts hr.isSome writes bytes
  rw [hcrash, hnone, List.map_nil, List.append_nil]
  obtain ⟨tail, htail, hrecovers⟩ := h.holds.recovers_cut hr rfl
    (n.state.nextRecord_verifies C order now) n.disk.accountsLog cut
  refine ⟨_, hrecovers, ?_⟩
  change RootRecorded C n.disk.accounts _
  rw [← h.accounts_eq]
  obtain rfl | ⟨rfl, hpos⟩ := htail
  · rw [List.append_nil]
    exact h.root
  · have hall := hcut.resolve_left hpos
    have hsame : n.state.executedAccounts C order = n.state.accounts := by
      rw [List.take_of_length_le hall] at hnone
      rw [← ValidatorState.applyUpdates_blockWrites, hnone]
      rfl
    rw [← hsame]
    exact rootRecorded_snoc C order now n.state

theorem step (h : Synced C S n) {e : NodeEvent} (he : Careful C S n e) :
    Synced C S (n.step C S e) := by
  cases e with
  | send now tx => exact ⟨h.holds, h.accounts_eq, h.root⟩
  | tick =>
    obtain ⟨poh, tickHeight, currentSlot, htick⟩ := n.state.processTick_keeps C
    rw [Node.step, htick]
    exact ⟨h.holds, h.accounts_eq, h.root⟩
  | produce order now w =>
    apply Node.produce_preserves h
    intro hacts
    obtain ⟨rfl, hr⟩ := he hacts
    exact h.produce hacts hr
  | restart genesis => exact restart h.agreeing he
  | crash order now writes bytes genesis =>
    refine restart (Node.crash_preserves h.agreeing fun hacts => ?_) he.2
    obtain ⟨hnone, hr⟩ := he.1 hacts
    exact h.crash hacts hr hnone bytes

theorem boot (C : Crypto) (S : Serde BlockRecord) (genesis : List GenesisAccount) :
    Synced C S (Node.boot C S genesis) :=
  restart ⟨[], Disk.recovers_empty, fun _ hlast => by cases hlast⟩ fun hne => absurd rfl hne

end Synced

def AccountsMatchLedger (C : Crypto) (SA : Serde Account) (n : Node) : Prop :=
  ∀ keys, (n.disk.accountsDB SA).Iterates keys → ∀ last ∈ n.state.ledger.records.getLast?,
    (n.disk.accountsDB SA).computeStateRoot SA C keys = last.stateRoot

theorem careful_runs_keep_roots (SA : Serde Account) (genesis : List GenesisAccount)
    (events : List NodeEvent)
    (hrun : Along (Node.step C S) (Careful C S) (Node.boot C S genesis) events)
    (haccounts : ∀ op ∈ ((Node.boot C S genesis).run C S events).disk.accountsLog,
      op.Encodable SA) :
    AccountsMatchLedger C SA ((Node.boot C S genesis).run C S events) := by
  intro keys hkeys last hlast
  have hsynced := hrun.invariant (fun h he => h.step he) (Synced.boot C S genesis)
  have hjournaled : ((Node.boot C S genesis).run C S events).disk.Journaled :=
    Node.journaled_run (Node.journaled_boot genesis) events
  rw [(refines_of_runs (hjournaled.runs SA) haccounts).live.computeStateRoot C hkeys]
  have hroot := hsynced.root last hlast
  rwa [hsynced.accounts_eq] at hroot

end Agreement

def shortOp : Op → Bool
  | .update (.store _ account) => (Account.codec.encoded account).length < 2 ^ 32
  | .update (.remove _) => true
  | .reopen => true
  | _ => false

theorem encodable_of_shortOp {op : Op} (h : shortOp op = true) : op.Encodable Account.codec := by
  cases op with
  | update u =>
    cases u with
    | store k a => exact ⟨Account.codec_roundTrips a, of_decide_eq_true h⟩
    | remove k => trivial
  | applyBatch updates => cases h
  | snapshot order => trivial
  | reopen => trivial

def payerGenesis : List GenesisAccount := [⟨Bytes32.splat 42, 1000000⟩]

def recordedTransfer : List NodeEvent :=
  [.send 0 (transferTransaction [systemTransfer 1000 1 true]), .produce .spawnOrder 0 .ok,
    .restart payerGenesis, .crash .spawnOrder 0 0 5 payerGenesis]

theorem recorded_transfer_keeps_roots :
    ((Node.boot .successor BlockRecord.codec.serde payerGenesis).run .successor
        BlockRecord.codec.serde recordedTransfer).state.ledger.records.length = 1 ∧
      AccountsMatchLedger .successor Account.codec
        ((Node.boot .successor BlockRecord.codec.serde payerGenesis).run .successor
          BlockRecord.codec.serde recordedTransfer) := by
  refine ⟨by decide +kernel, careful_runs_keep_roots Account.codec payerGenesis recordedTransfer
    ⟨trivial, fun _ => ⟨rfl, ?_⟩, fun _ => ?_, ⟨fun _ => ⟨rfl, ?_⟩, fun _ => ?_⟩, trivial⟩ ?_⟩
  · exact storable_of_fits ⟨_, rfl, by decide +kernel⟩ (by decide +kernel)
  · decide +kernel
  · exact storable_of_fits ⟨_, rfl, by decide +kernel⟩ (by decide +kernel)
  · decide +kernel
  · have hshort : ∀ op ∈ ((Node.boot .successor BlockRecord.codec.serde payerGenesis).run .successor
        BlockRecord.codec.serde recordedTransfer).disk.accountsLog, shortOp op = true := by
      decide +kernel
    exact fun op hop => encodable_of_shortOp (hshort op hop)

def pendingTransfer : Node :=
  (Node.boot acceptingCrypto BlockRecord.codec.serde payerGenesis).run acceptingCrypto
    BlockRecord.codec.serde
    [.produce .spawnOrder 0 .ok, .restart payerGenesis,
      .send 0 (transferTransaction [systemTransfer 1000 1 true])]

def afterFeeWrite : Disk :=
  pendingTransfer.crash acceptingCrypto BlockRecord.codec.serde .spawnOrder 0 1 0

def restartedAfterFee : Node :=
  afterFeeWrite.restart acceptingCrypto BlockRecord.codec.serde payerGenesis

theorem crash_after_fee_write_splits_roots :
    Installed payerGenesis afterFeeWrite.accounts ∧
      ¬AccountsMatchLedger acceptingCrypto Account.codec restartedAfterFee := by
  have hcut : Installed payerGenesis afterFeeWrite.accounts ∧
      (restartedAfterFee.disk.accountsDB Account.codec).Iterates [Bytes32.splat 42] ∧
      ¬∀ last ∈ restartedAfterFee.state.ledger.records.getLast?,
        (restartedAfterFee.disk.accountsDB Account.codec).computeStateRoot Account.codec
          acceptingCrypto [Bytes32.splat 42] = last.stateRoot := by decide +kernel
  exact ⟨hcut.1, fun h => hcut.2.2 (h _ hcut.2.1)⟩

end TrustNode.Validator
