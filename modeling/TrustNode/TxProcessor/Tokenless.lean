import TrustNode.TxProcessor.Supply

namespace TrustNode.TxProcessor.Executor

open TrustNode.Accounts
open TrustNode.ProgramExecutor (Applies SystemApplies SystemInstruction TokenInstruction)

def holdsTokens : AccountData → Bool
  | .mint _ _ => true
  | .token _ _ _ => true
  | _ => false

def Tokenless (db : AccountsDB) : Prop := ∀ k a, db.load k = some a → holdsTokens a.data = false

namespace Tokenless

variable {C : Crypto} {db db' : AccountsDB} {tx : Transaction}

theorem of_system (h : ∀ k a, db.load k = some a → a.data = .system) : Tokenless db := by
  intro k a ha
  rw [h k a ha]
  rfl

theorem store (h : Tokenless db) {k : Pubkey} {a : Account} (ha : holdsTokens a.data = false) :
    Tokenless (db.store k a) := by
  intro j b hb
  rw [AccountsDB.load_store] at hb
  split_ifs at hb
  · obtain rfl := Option.some.inj hb
    exact ha
  · exact h j b hb

theorem absurd_mint (h : Tokenless db) {k authority : Pubkey} {supply : UInt64} {a : Account}
    (ha : db.load k = some a) (hdata : a.data = .mint authority supply) : False := by
  have hplain := h k a ha
  rw [hdata] at hplain
  cases hplain

theorem absurd_token (h : Tokenless db) {k mint authority : Pubkey} {amount : UInt64} {a : Account}
    (ha : db.load k = some a) (hdata : a.data = .token mint authority amount) : False := by
  have hplain := h k a ha
  rw [hdata] at hplain
  cases hplain

theorem system {metas : List ProgramExecutor.AccountMeta} {signer : Pubkey} {keys : List Pubkey}
    {op : SystemInstruction} (h : Tokenless db) (hop : SystemApplies metas signer keys db op db') :
    Tokenless db' := by
  cases hop with
  | @transfer _ _ _ _ _ dest src dst _ _ _ hsrc _ hdst _ =>
    have hdest : holdsTokens dst.data = false := by
      subst hdst
      cases hd : db.load dest with
      | none => rfl
      | some a => exact h dest a hd
    refine store (store h ?_) ?_
    · exact h signer src hsrc
    · exact hdest
  | @createAccount _ _ _ _ _ _ _ _ payer _ _ _ _ hload _ _ =>
    refine store (store h ?_) ?_
    · exact h signer payer hload
    · rfl
  | @assign _ _ _ account _ _ hload _ =>
    refine store h ?_
    exact h signer account hload

theorem applies {ix : ProgramExecutor.Instruction} {signer : Pubkey} {keys : List Pubkey}
    {payer : Account} (h : Tokenless db) (hpayer : db.load signer = some payer)
    (hstep : Applies ix signer keys db db') : Tokenless db' := by
  cases hstep with
  | system _ _ hop => exact h.system hop
  | token _ _ hop =>
    cases hop with
    | initializeMint _ _ hfresh =>
      rw [hpayer] at hfresh
      cases hfresh
    | initializeAccount _ _ _ _ hload _ hdata _ => exact (h.absurd_mint hload hdata).elim
    | transfer _ _ _ _ hsrc _ hsd _ _ _ => exact (h.absurd_token hsrc hsd).elim
    | mintTo _ _ _ hload _ hmd _ _ _ => exact (h.absurd_mint hload hmd).elim
    | burn _ _ _ hload _ hmd _ _ _ => exact (h.absurd_mint hload hmd).elim

theorem steps {ixs : List Instruction} {payer : Account} (h : Tokenless db)
    (hpayer : db.load tx.signer = some payer) (hsteps : Steps tx db ixs db') : Tokenless db' := by
  induction hsteps generalizing payer with
  | nil db => exact h
  | cons hstep hrest ih =>
    obtain ⟨next, hnext, -⟩ := hstep.moved hpayer
    exact ih (h.applies hpayer hstep) hnext

theorem charged (h : Tokenless db) (hpaid : FeePhasePassed C db tx) :
    Tokenless (charged db tx) := by
  obtain ⟨-, -, -, a, ha, -⟩ := hpaid
  rw [Executor.charged, ha]
  exact h.store (h _ a ha)

theorem rollback {before : AccountsDB} (hbefore : Tokenless before) (h : Tokenless db) :
    Tokenless (rollbackTransaction (snapshotTransaction before tx) db) := by
  intro k a ha
  rw [load_rollback] at ha
  split_ifs at ha
  · exact hbefore k a ha
  · exact h k a ha

theorem executeTransaction (h : Tokenless db) : Tokenless (executeTransaction C db tx).2 := by
  by_cases hpaid : FeePhasePassed C db tx
  · obtain ⟨payer, hpayer⟩ := load_charged_signer hpaid
    have hcharged := h.charged hpaid
    have hloop := hcharged.steps hpayer (loop_steps db tx)
    by_cases hc : Completes db tx
    · rw [(executeTransaction_of_completes hpaid hc).2]
      exact hloop
    · rw [(executeTransaction_of_fails hpaid hc).2]
      exact hcharged.rollback hloop
  · rwa [(executeTransaction_of_not_paid hpaid).2]

theorem executeAll {txs : List Transaction} (h : Tokenless db) : Tokenless (executeAll C db txs) := by
  induction txs generalizing db with
  | nil => exact h
  | cons tx rest ih => exact ih h.executeTransaction

end Tokenless

theorem token_program_unreachable (C : Crypto) (db : AccountsDB)
    (hgenesis : ∀ k a, db.load k = some a → a.data = .system) (txs : List Transaction) :
    Tokenless (executeAll C db txs) :=
  (Tokenless.of_system hgenesis).executeAll

def tokenInstruction (op : TokenInstruction) : Instruction where
  programId := tokenProgramId
  accounts := [⟨0, true, true⟩, ⟨1, false, true⟩]
  data := op.toData

def mintAttempts : List Transaction :=
  [transferTransaction [tokenInstruction .initializeMint],
    transferTransaction [systemTransfer 1000 1 true, tokenInstruction .initializeMint]]

theorem mint_attempts_leave_no_mint :
    (executeAll acceptingCrypto fundedPayer mintAttempts).load (Bytes32.splat 42) =
        some (Account.newSystemAccount (Bytes32.splat 42) 990000) ∧
      Tokenless (executeAll acceptingCrypto fundedPayer mintAttempts) := by
  refine ⟨by decide +kernel, token_program_unreachable acceptingCrypto fundedPayer ?_ mintAttempts⟩
  intro k a ha
  rw [fundedPayer, AccountsDB.load_store] at ha
  split_ifs at ha
  · obtain rfl := Option.some.inj ha
    rfl
  · cases ha

end TrustNode.TxProcessor.Executor
