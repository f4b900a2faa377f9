import TrustNode.Base.Lockstep
import TrustNode.ProgramExecutor.Movement

namespace TrustNode.ProgramExecutor

open Exec
open TrustNode.Accounts

def AgreeOn (K : Set Pubkey) (db db' : AccountsDB) : Prop := ∀ k ∈ K, db.load k = db'.load k

namespace AgreeOn

variable {K : Set Pubkey} {db db' : AccountsDB}

theorem store (h : AgreeOn K db db') (key : Pubkey) (account : Account) :
    AgreeOn K (db.store key account) (db'.store key account) := by
  intro k hk
  rw [AccountsDB.load_store, AccountsDB.load_store, h k hk]

theorem exists_eq (h : AgreeOn K db db') {k : Pubkey} (hk : k ∈ K) : db.exists k = db'.exists k := by
  rw [AccountsDB.exists_eq, AccountsDB.exists_eq, h k hk]

end AgreeOn

structure Twin (K : Set Pubkey) (s t : ProgramState) : Prop where
  accounts : AgreeOn K s.accounts t.accounts
  budget : s.budget = t.budget
  logs : s.logs = t.logs

section Primitives

variable {K : Set Pubkey}

theorem consume_lockstep (units : UInt64) : Lockstep (Twin K) (consume units) := by
  rintro ⟨db, budget, logs⟩ ⟨db', budget', logs'⟩ ⟨hdb, hbudget, hlogs⟩
  simp only at hdb hbudget hlogs
  subst hbudget hlogs
  simp only [consume]
  split
  · exact ⟨rfl, hdb, rfl, rfl⟩
  · exact ⟨rfl, hdb, rfl, rfl⟩

theorem load_lockstep {key : Pubkey} (h : key ∈ K) : Lockstep (Twin K) (load key) :=
  .read fun _ _ hst => hst.accounts key h

theorem accountExists_lockstep {key : Pubkey} (h : key ∈ K) :
    Lockstep (Twin K) (accountExists key) :=
  .read fun _ _ hst => hst.accounts.exists_eq h

theorem store_lockstep (key : Pubkey) (account : Account) :
    Lockstep (Twin K) (store key account) :=
  .update fun _ _ hst => ⟨hst.accounts.store key account, hst.budget, hst.logs⟩

theorem log_lockstep (msg : String) : Lockstep (Twin K) (log msg) :=
  .update fun _ _ hst => ⟨hst.accounts, hst.budget, congrArg (· ++ [msg]) hst.logs⟩

end Primitives

def Covers (K : Set Pubkey) (metas : List AccountMeta) (keys : List Pubkey) : Prop :=
  ∀ m ∈ metas, ∀ k, keys[m.index]? = some k → k ∈ K

section Handlers

variable {K : Set Pubkey} {metas : List AccountMeta} {signer : Pubkey} {keys : List Pubkey}

theorem Covers.resolve (h : Covers K metas keys) {m : AccountMeta} (hm : m ∈ metas) {k : Pubkey}
    (hk : resolveAccountKey m.index keys = .ok k) : k ∈ K :=
  h m hm k (resolveAccountKey_eq_ok.mp hk)

theorem Covers.authority (h : Covers K metas keys) {m : AccountMeta} (hm : m ∈ metas) {k : Pubkey}
    (hk : requireSigner m signer keys = .ok k) : k ∈ K := by
  obtain ⟨hkey, rfl⟩ := requireSigner_eq_ok.mp hk
  exact h m hm k hkey

namespace SystemProgram

theorem processTransfer_lockstep (h : Covers K metas keys) (lamports : UInt64) :
    Lockstep (Twin K) (processTransfer lamports metas signer keys) := by
  refine .bind (consume_lockstep 150) fun _ => ?_
  rcases metas with _ | ⟨fromMeta, _ | ⟨toMeta, rest⟩⟩
  · exact .fail _
  · exact .fail _
  · refine .ofExcept_bind fun fromKey hfrom => ?_
    refine .bind (load_lockstep (h.authority (by simp) hfrom)) fun _ => .okOr_bind fun _ _ => ?_
    refine .ite (.fail _) (.ofExcept_bind fun toKey hto => ?_)
    refine .bind (load_lockstep (h.resolve (by simp) hto)) fun _ => .okOr_bind fun _ _ => ?_
    exact .bind (store_lockstep _ _) fun _ => .bind (store_lockstep _ _) fun _ => log_lockstep _

theorem processCreateAccount_lockstep (h : Covers K metas keys) (lamports space : UInt64)
    (owner : Pubkey) :
    Lockstep (Twin K) (processCreateAccount lamports space owner metas signer keys) := by
  refine .bind (consume_lockstep 200) fun _ => ?_
  rcases metas with _ | ⟨payerMeta, _ | ⟨newMeta, rest⟩⟩
  · exact .fail _
  · exact .fail _
  · refine .ofExcept_bind fun payer hpayer => .ofExcept_bind fun key hkey => .ite (.fail _) ?_
    refine .bind (accountExists_lockstep (h.resolve (by simp) hkey)) fun _ => .ite (.fail _) ?_
    refine .bind (load_lockstep (h.authority (by simp) hpayer)) fun _ => .okOr_bind fun _ _ => ?_
    refine .okOr_bind fun _ _ => .ite (.fail _) ?_
    exact .bind (store_lockstep _ _) fun _ => .bind (store_lockstep _ _) fun _ => log_lockstep _

theorem processAssign_lockstep (h : Covers K metas keys) (owner : Pubkey) :
    Lockstep (Twin K) (processAssign owner metas signer keys) := by
  refine .bind (consume_lockstep 100) fun _ => ?_
  rcases metas with _ | ⟨acct, rest⟩
  · exact .fail _
  · refine .ofExcept_bind fun key hkey => ?_
    refine .bind (load_lockstep (h.authority (by simp) hkey)) fun _ => .okOr_bind fun _ _ => ?_
    exact .ite (.fail _) (.bind (store_lockstep _ _) fun _ => log_lockstep _)

theorem processInstruction_lockstep (h : Covers K metas keys) (data : Bytes) :
    Lockstep (Twin K) (processInstruction data metas signer keys) := by
  refine .ofExcept_bind fun op _ => ?_
  cases op with
  | transfer lamports => exact processTransfer_lockstep h lamports
  | createAccount lamports space owner => exact processCreateAccount_lockstep h lamports space owner
  | assign owner => exact processAssign_lockstep h owner
  | nonceInitialize => exact .bind (log_lockstep _) fun _ => .fail _

end SystemProgram

namespace TokenProgram

theorem loadOwned_lockstep {key : Pubkey} (h : key ∈ K) : Lockstep (Twin K) (loadOwned key) :=
  .bind (load_lockstep h) fun _ => .okOr_bind fun _ _ => .ite (.fail _) (.pure _)

theorem processInitializeMint_lockstep (h : Covers K metas keys) :
    Lockstep (Twin K) (processInitializeMint metas signer keys) := by
  refine .bind (consume_lockstep 300) fun _ => .okOr_bind fun acct hacct => ?_
  have hmem := List.mem_of_head? hacct
  refine .ofExcept_bind fun key hkey => .ite (.fail _) ?_
  refine .bind (accountExists_lockstep (h.resolve hmem hkey)) fun _ => .ite (.fail _) ?_
  exact .bind (store_lockstep _ _) fun _ => log_lockstep _

theorem processInitializeAccount_lockstep (h : Covers K metas keys) (mint : Pubkey) :
    Lockstep (Twin K) (processInitializeAccount mint metas signer keys) := by
  refine .bind (consume_lockstep 300) fun _ => ?_
  rcases metas with _ | ⟨mintMeta, _ | ⟨newMeta, _ | ⟨ownerMeta, rest⟩⟩⟩
  · exact .fail _
  · exact .fail _
  · exact .fail _
  · refine .ofExcept_bind fun mintKey hmint => .ofExcept_bind fun key hkey => ?_
    refine .ofExcept_bind fun owner _ => .ite (.fail _) (.ite (.fail _) ?_)
    refine .bind (loadOwned_lockstep (h.resolve (by simp) hmint)) fun _ => .ite (.fail _) ?_
    refine .bind (accountExists_lockstep (h.resolve (by simp) hkey)) fun _ => .ite (.fail _) ?_
    exact .bind (store_lockstep _ _) fun _ => log_lockstep _

theorem processTokenTransfer_lockstep (h : Covers K metas keys) (amount : UInt64) :
    Lockstep (Twin K) (processTokenTransfer amount metas signer keys) := by
  refine .bind (consume_lockstep 200) fun _ => ?_
  rcases metas with _ | ⟨fromMeta, _ | ⟨toMeta, rest⟩⟩
  · exact .fail _
  · exact .fail _
  · refine .ofExcept_bind fun fromKey hfrom => .ofExcept_bind fun toKey hto => .ite (.fail _) ?_
    refine .bind (loadOwned_lockstep (h.resolve (by simp) hfrom)) fun _ => ?_
    refine .bind (loadOwned_lockstep (h.resolve (by simp) hto)) fun _ => ?_
    refine .okOr_bind fun _ _ => .ite (.fail _) (.okOr_bind fun _ _ => .ite (.fail _) ?_)
    refine .ite (.fail _) (.okOr_bind fun _ _ => .okOr_bind fun _ _ => ?_)
    exact .bind (store_lockstep _ _) fun _ => .bind (store_lockstep _ _) fun _ => log_lockstep _

theorem processMintTo_lockstep (h : Covers K metas keys) (amount : UInt64) :
    Lockstep (Twin K) (processMintTo amount metas signer keys) := by
  refine .bind (consume_lockstep 200) fun _ => ?_
  rcases metas with _ | ⟨mintMeta, _ | ⟨destMeta, rest⟩⟩
  · exact .fail _
  · exact .fail _
  · refine .ofExcept_bind fun mintKey hmint => .ofExcept_bind fun key hkey => ?_
    refine .bind (loadOwned_lockstep (h.resolve (by simp) hmint)) fun _ => ?_
    refine .okOr_bind fun _ _ => .ite (.fail _) ?_
    refine .bind (loadOwned_lockstep (h.resolve (by simp) hkey)) fun _ => ?_
    refine .okOr_bind fun _ _ => .ite (.fail _) (.okOr_bind fun _ _ => .okOr_bind fun _ _ => ?_)
    exact .bind (store_lockstep _ _) fun _ => .bind (store_lockstep _ _) fun _ => log_lockstep _

theorem processBurn_lockstep (h : Covers K metas keys) (amount : UInt64) :
    Lockstep (Twin K) (processBurn amount metas signer keys) := by
  refine .bind (consume_lockstep 200) fun _ => ?_
  rcases metas with _ | ⟨mintMeta, _ | ⟨tokenMeta, rest⟩⟩
  · exact .fail _
  · exact .fail _
  · refine .ofExcept_bind fun mintKey hmint => .ofExcept_bind fun key hkey => ?_
    refine .bind (loadOwned_lockstep (h.resolve (by simp) hmint)) fun _ => .okOr_bind fun _ _ => ?_
    refine .bind (loadOwned_lockstep (h.resolve (by simp) hkey)) fun _ => .okOr_bind fun _ _ => ?_
    refine .ite (.fail _) (.ite (.fail _) (.ite (.fail _) (.ite (.fail _) ?_)))
    exact .bind (store_lockstep _ _) fun _ => .bind (store_lockstep _ _) fun _ => log_lockstep _

theorem processInstruction_lockstep (h : Covers K metas keys) (data : Bytes) :
    Lockstep (Twin K) (processInstruction data metas signer keys) := by
  refine .ofExcept_bind fun op _ => ?_
  cases op with
  | initializeMint => exact processInitializeMint_lockstep h
  | initializeAccount mint => exact processInitializeAccount_lockstep h mint
  | transfer amount => exact processTokenTransfer_lockstep h amount
  | mintTo amount => exact processMintTo_lockstep h amount
  | burn amount => exact processBurn_lockstep h amount

end TokenProgram

end Handlers

namespace InstructionProcessor

structure SameResult (K : Set Pubkey) (r r' : InstructionResult × AccountsDB) : Prop where
  success : r.1.success = r'.1.success
  units : r.1.success = true → r.1.computeUnitsConsumed = r'.1.computeUnitsConsumed
  accounts : AgreeOn K r.2 r'.2

variable {K : Set Pubkey}

theorem finish_same {x x' : Except InstructionError Unit × ProgramState} (hval : x.1 = x'.1)
    (hst : Twin K x.2 x'.2) : SameResult K (finish x) (finish x') := by
  obtain ⟨r, s⟩ := x
  obtain ⟨r', t⟩ := x'
  simp only at hval hst
  subst hval
  cases r with
  | ok u => exact ⟨rfl, fun _ => congrArg ComputeBudget.consumed hst.budget, hst.accounts⟩
  | error e => exact ⟨rfl, fun h => absurd h (by simp [finish, InstructionResult.withLogs]), hst.accounts⟩

theorem dispatch_same {units : UInt64} {body : Program Unit} (hbody : Lockstep (Twin K) body)
    {s t : ProgramState} (h : Twin K s t) :
    SameResult K (dispatch units body s) (dispatch units body t) := by
  obtain ⟨hval, hst⟩ := consume_lockstep units s t h
  rcases hs : consume units s with ⟨e | u, s'⟩ <;> rcases ht : consume units t with ⟨e' | u', t'⟩ <;>
    rw [hs, ht] at hval hst
  · simp only [dispatch, hs, ht]
    exact ⟨rfl, fun h => absurd h (by simp [InstructionResult.withLogs]), hst.accounts⟩
  · cases hval
  · cases hval
  · simp only [dispatch, hs, ht]
    obtain ⟨hval', hst'⟩ := hbody s' t' hst
    exact finish_same hval' hst'

theorem processInstruction_same {ix : Instruction} {signer : Pubkey} {keys : List Pubkey}
    (hcover : Covers K ix.accountMetas keys) {db db' : AccountsDB} (h : AgreeOn K db db') :
    SameResult K (processInstruction db ix signer keys) (processInstruction db' ix signer keys) := by
  have hstart : Twin K (start db ix) (start db' ix) := ⟨h, rfl, rfl⟩
  by_cases hs : ix.programId = Bytes32.splat 1
  · simp only [processInstruction, if_pos hs]
    exact dispatch_same (SystemProgram.processInstruction_lockstep hcover ix.data) hstart
  · by_cases ht : ix.programId = Bytes32.splat 2
    · simp only [processInstruction, if_neg hs, if_pos ht]
      exact dispatch_same (TokenProgram.processInstruction_lockstep hcover ix.data) hstart
    · have hfails := fun d => processInstruction_foreign d signer keys hs ht
      obtain ⟨hf, hd⟩ := hfails db
      obtain ⟨hf', hd'⟩ := hfails db'
      refine ⟨hf.trans hf'.symm, fun hok => ?_, ?_⟩
      · rw [hf] at hok
        cases hok
      · rw [hd, hd']
        exact h

end InstructionProcessor

end TrustNode.ProgramExecutor
