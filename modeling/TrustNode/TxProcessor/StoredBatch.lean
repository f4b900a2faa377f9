import TrustNode.TxProcessor.Storage

namespace TrustNode.TxProcessor.Storage

open Linearize
open Relation (ReflTransGen)
open TrustNode.Accounts
open TrustNode.Accounts.AppendOnlyDB
open TrustNode.ProgramExecutor (accountsMemory)
open TrustNode.TxProcessor.Executor

variable {ρ ι o : Type}

section Alone

variable [DecidableEq ι] [DecidableEq o] {S : Serde Account} {body : ι → Code Pubkey Account ρ}
  {s : Fine ρ ι o} {i : ι} {held : List (Pubkey × Bool)} {code rest : Code Pubkey Account ρ}

variable {plan : ι → List (Pubkey × Bool)} {db : AppendOnlyDB} {m : AccountsDB}

end Alone

section Batch

variable [DecidableEq o] [Fintype o] {C : Crypto} {txs : List Transaction} {S : Serde Account}
  {db : AppendOnlyDB} {m : AccountsDB}

end Batch

end TrustNode.TxProcessor.Storage
