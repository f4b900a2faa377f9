import TrustNode.Mempool.Invariant
import TrustNode.TxProcessor.Supply
import TrustNode.Validator.State

namespace TrustNode.Validator

open TrustNode.Accounts
open TrustNode.Blockstore
open TrustNode.Mempool
open TrustNode.TxProcessor
open TrustNode.TxProcessor.Executor

section Charges

variable (C : Crypto)

def chargedIn : AccountsDB → List Transaction → List TxHash
  | _, [] => []
  | db, tx :: rest =>
    (if FeePhasePassed C db tx then [tx.hash C] else []) ++
      chargedIn (executeTransaction C db tx).2 rest

def charges (s : ValidatorState) : Event → List TxHash
  | .produce order _ _ =>
    if s.lastProducedSlot = some s.currentSlot then []
    else chargedIn C s.accounts (s.executionOrder order)
  | _ => []

def chargesAlong : ValidatorState → List Event → List TxHash
  | _, [] => []
  | s, e :: rest => charges C s e ++ chargesAlong (step C s e) rest

def AtMostOnce (s : ValidatorState) (events : List Event) : Prop := (chargesAlong C s events).Nodup

def Fresh (charged : List TxHash) (s : ValidatorState) : Event → Prop
  | .send now tx => (s.sendTransaction C now tx).1 = .ok (tx.hash C) → tx.hash C ∉ charged
  | _ => True

def FreshAlong : List TxHash → ValidatorState → List Event → Prop
  | _, _, [] => True
  | charged, s, e :: rest =>
    Fresh C charged s e ∧ FreshAlong (charged ++ charges C s e) (step C s e) rest

end Charges

variable {C : Crypto}

theorem chargedIn_sublist (db : AccountsDB) (txs : List Transaction) :
    (chargedIn C db txs).Sublist (txs.map (Transaction.hash C)) := by
  induction txs generalizing db with
  | nil => exact .slnil
  | cons tx rest ih =>
    simp only [chargedIn, List.map_cons]
    split
    · exact (ih _).cons_cons _
    · exact (ih _).cons _

structure ChargeInvariant (C : Crypto) (charged : List TxHash) (s : ValidatorState) : Prop where
  wellFormed : s.mempool.inner.WellFormed C
  nodup : charged.Nodup
  apart : ∀ h ∈ charged, h ∉ s.mempool.inner.parked

namespace ChargeInvariant

variable {charged : List TxHash} {s : ValidatorState}

theorem send (h : ChargeInvariant C charged s) (now : UInt64) (tx : Transaction)
    (hfresh : Fresh C charged s (.send now tx)) :
    ChargeInvariant C charged (step C s (.send now tx)) := by
  obtain ⟨hwf, hparked⟩ := Pool.insert_spec h.wellFormed now tx
  refine ⟨hwf, h.nodup, fun x hx hin => ?_⟩
  rcases hparked x hin with hold | ⟨rfl, hok⟩
  · exact h.apart x hx hold
  · exact hfresh hok hx

theorem produce (h : ChargeInvariant C charged s) (order : ThreadOrder) (now : UInt64)
    (written : Bool) :
    ChargeInvariant C (charged ++ charges C s (.produce order now written))
      (step C s (.produce order now written)) := by
  by_cases hslot : s.lastProducedSlot = some s.currentSlot
  · have hidle : ¬s.Acts := not_not.mpr hslot
    simpa [charges, step, ValidatorState.produceBlock_of_not_acts, hidle, hslot] using h
  · have hdrain := Pool.drain_spec h.wellFormed maxTxsPerBlock
    have hsub := chargedIn_sublist (C := C) s.accounts (s.executionOrder order)
    have hperm := (s.executionOrder_perm order).map (Transaction.hash C)
    have hmem : ∀ x ∈ chargedIn C s.accounts (s.executionOrder order),
        x ∈ s.mempool.inner.parked ∧ x ∉ (s.mempool.drain maxTxsPerBlock).2.inner.parked := by
      intro x hx
      obtain ⟨tx, htx, rfl⟩ := List.mem_map.mp (hperm.subset (hsub.subset hx))
      exact hdrain.gone tx htx
    have hstate : (step C s (.produce order now written)).mempool =
        (s.mempool.drain maxTxsPerBlock).2 := by
      have hacts : s.Acts := hslot
      rw [step, hacts.produceBlock_eq]
      cases written <;> rfl
    simp only [charges, hslot, if_false]
    refine ⟨?_, ?_, ?_⟩
    · rw [hstate]
      exact hdrain.wellFormed
    · refine h.nodup.append ((hperm.nodup_iff.mpr hdrain.nodup).sublist hsub) ?_
      intro x hx hnew
      exact h.apart x hx (hmem x hnew).1
    · intro x hx
      rw [hstate]
      rcases List.mem_append.mp hx with hx | hx
      · exact fun hin => h.apart x hx (hdrain.subset hin)
      · exact (hmem x hx).2

theorem tick (h : ChargeInvariant C charged s) : ChargeInvariant C charged (step C s .tick) := by
  obtain ⟨poh, tickHeight, currentSlot, htick⟩ := s.processTick_keeps C
  rw [Validator.step, htick]
  exact ⟨h.wellFormed, h.nodup, h.apart⟩

theorem step (h : ChargeInvariant C charged s) (e : Event) (hfresh : Fresh C charged s e) :
    ChargeInvariant C (charged ++ charges C s e) (step C s e) := by
  cases e with
  | send now tx => simpa [charges] using h.send now tx hfresh
  | produce order now written => exact h.produce order now written
  | tick => simpa [charges] using h.tick

theorem run (h : ChargeInvariant C charged s) (events : List Event)
    (hfresh : FreshAlong C charged s events) : (charged ++ chargesAlong C s events).Nodup := by
  induction events generalizing charged s with
  | nil => simpa [chargesAlong] using h.nodup
  | cons e rest ih =>
    obtain ⟨hstep, hrest⟩ := hfresh
    have hnext := ih (h.step e hstep) hrest
    rwa [List.append_assoc] at hnext

end ChargeInvariant

theorem charged_at_most_once (C : Crypto) (accounts : AccountsDB) (config : MempoolConfig)
    (ledger : Ledger) (events : List Event)
    (h : FreshAlong C [] (.new C accounts (.new config) ledger) events) :
    AtMostOnce C (.new C accounts (.new config) ledger) events := by
  have hstart : ChargeInvariant C [] (.new C accounts (.new config) ledger) :=
    ⟨.new C, List.nodup_nil, by simp⟩
  exact hstart.run events h

def freshValidator : ValidatorState := .new acceptingCrypto fundedPayer .defaultPool ⟨[]⟩

def submitAndProduce (lamports : UInt64) : List Event :=
  [.send 0 (transferTransaction [systemTransfer lamports 1 true]), .produce .spawnOrder 0 true,
    .tick]

theorem distinct_transfers_charged_once :
    (chargesAlong acceptingCrypto freshValidator
        (submitAndProduce 1000 ++ submitAndProduce 2000)).length = 2 ∧
      AtMostOnce acceptingCrypto freshValidator
        (submitAndProduce 1000 ++ submitAndProduce 2000) := by
  refine ⟨by decide +kernel, charged_at_most_once acceptingCrypto fundedPayer .default ⟨[]⟩ _ ?_⟩
  refine ⟨fun _ => List.not_mem_nil, trivial, trivial, fun _ => ?_, trivial, trivial, trivial⟩
  decide +kernel

theorem resubmitted_transfer_charged_twice :
    ¬AtMostOnce acceptingCrypto freshValidator (submitAndProduce 1000 ++ submitAndProduce 1000) := by
  unfold AtMostOnce
  decide +kernel

end TrustNode.Validator
