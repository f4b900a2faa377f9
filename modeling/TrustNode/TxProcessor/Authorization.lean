import TrustNode.TxProcessor.Atomicity

namespace TrustNode.TxProcessor.Executor

open TrustNode.Accounts
open TrustNode.ProgramExecutor (Moved)

structure Authorized (signer k : Pubkey) (a a' : Account) : Prop where
  lamports : a'.lamports < a.lamports → k = signer
  token : ∀ mint authority n n', a.data = .token mint authority n →
    a'.data = .token mint authority n' → n' < n → authority = signer
  mint : ∀ authority n n', a.data = .mint authority n → a'.data = .mint authority n' →
    n < n' → authority = signer
  owner : a'.owner ≠ a.owner → k = signer
  shape : a'.data.shape = a.data.shape

namespace Authorized

variable {signer k : Pubkey} {a a' : Account}

theorem of_moved {credit : ℕ} {delta : ℤ} (h : Moved signer k credit delta a a') :
    Authorized signer k a a' where
  lamports := by
    intro hlt
    by_contra hk
    have hlamports := h.lamports hk
    rw [UInt64.lt_iff_toNat_lt] at hlt
    omega
  token := by
    intro mint authority n n' hd hd' hlt
    refine h.spend mint authority n hd ?_
    rw [hd, hd']
    exact UInt64.lt_iff_toNat_lt.mp hlt
  mint := by
    intro authority n n' hd hd' hlt
    refine h.issue authority n hd ?_
    rw [hd, hd']
    exact UInt64.lt_iff_toNat_lt.mp hlt
  owner := fun hne => (h.owner hne).1
  shape := h.shape

end Authorized

variable {C : Crypto} {db : AccountsDB} {tx : Transaction} {k : Pubkey} {a : Account}

theorem moved_charged (h : FeePhasePassed C db tx) (ha : db.load k = some a) :
    ∃ b, (charged db tx).load k = some b ∧ Moved tx.signer k 0 0 a b := by
  obtain ⟨payer, hpayer, _⟩ := h.2.2.2
  rw [load_charged hpayer]
  by_cases hk : k = tx.signer
  · subst hk
    obtain rfl := Option.some.inj (ha.symm.trans hpayer)
    exact ⟨_, if_pos rfl, .of_lamports a _ fun hne => absurd rfl hne⟩
  · exact ⟨a, (if_neg hk).trans ha, .refl tx.signer k a⟩

theorem moved_loop (h : FeePhasePassed C db tx) (ha : db.load k = some a) :
    ∃ b credit delta, (loop db tx).2.db.load k = some b ∧ Moved tx.signer k credit delta a b := by
  obtain ⟨b, hb, hfee⟩ := moved_charged h ha
  obtain ⟨c, hc, hloop⟩ := (loop_steps db tx).moved hb
  exact ⟨c, _, _, hc, hfee.trans hloop⟩

theorem moved_executeTransaction (ha : db.load k = some a) :
    ∃ b credit delta, (executeTransaction C db tx).2.load k = some b ∧
      Moved tx.signer k credit delta a b := by
  by_cases h : FeePhasePassed C db tx
  · by_cases hc : Completes db tx
    · rw [(executeTransaction_of_completes h hc).2]
      exact moved_loop h ha
    · rw [(executeTransaction_of_fails h hc).2, load_rollback]
      by_cases hk : k ∈ mutableAccounts tx
      · obtain ⟨b, hb, hfee⟩ := moved_charged h ha
        exact ⟨b, 0, 0, (if_pos hk).trans hb, hfee⟩
      · obtain ⟨b, credit, delta, hb, hloop⟩ := moved_loop h ha
        exact ⟨b, credit, delta, (if_neg hk).trans hb, hloop⟩
  · rw [(executeTransaction_of_not_paid h).2]
    exact ⟨a, 0, 0, ha, .refl tx.signer k a⟩

theorem executeTransaction_authorized (C : Crypto) (db : AccountsDB) (tx : Transaction) :
    ∀ k a, db.load k = some a → ∃ a', (executeTransaction C db tx).2.load k = some a' ∧
      Authorized tx.signer k a a' := by
  intro k a ha
  obtain ⟨a', credit, delta, ha', hmoved⟩ := moved_executeTransaction ha
  exact ⟨a', ha', .of_moved hmoved⟩

theorem payer_authorized :
    ∃ a', (executeTransaction acceptingCrypto fundedPayer
        (transferTransaction [systemTransfer 1000 1 true])).2.load (Bytes32.splat 42) = some a' ∧
      Authorized (Bytes32.splat 42) (Bytes32.splat 42)
        (Account.newSystemAccount (Bytes32.splat 42) 1000000) a' :=
  executeTransaction_authorized acceptingCrypto fundedPayer
    (transferTransaction [systemTransfer 1000 1 true]) _ _ (by decide +kernel)

end TrustNode.TxProcessor.Executor
