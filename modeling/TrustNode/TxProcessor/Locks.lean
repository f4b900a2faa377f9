import TrustNode.Base.RwLocks
import TrustNode.TxProcessor.Supply

namespace TrustNode.TxProcessor.Executor

open RwLocks
open TrustNode.Accounts

def lockRequests (tx : Transaction) : List (Pubkey × Bool) :=
  tx.writeAccounts.map (·, true) ++ [(tx.signer, true)] ++ tx.readAccounts.map (·, false)

def lockAccounts (tx : Transaction) : List (Pubkey × Bool) := Ascending.firsts (lockRequests tx)

def lockPlan (C : Crypto) (tx : Transaction) : List (Pubkey × Bool) :=
  match tx.validate with
  | .error _ => []
  | .ok () => if tx.verifySignature C then lockAccounts tx else []

theorem ordered_lockPlan (C : Crypto) (tx : Transaction) : Ascending.Ordered (lockPlan C tx) := by
  unfold lockPlan
  split
  · exact List.Pairwise.nil
  · split
    · exact Ascending.ordered_firsts _
    · exact List.Pairwise.nil

theorem exists_mem_lockAccounts {tx : Transaction} {k : Pubkey} :
    (∃ b, (k, b) ∈ lockAccounts tx) ↔
      k ∈ tx.writeAccounts ∨ k ∈ tx.readAccounts ∨ k = tx.signer := by
  rw [lockAccounts, Ascending.exists_mem_firsts]
  simp only [lockRequests, Ascending.keys, List.map_append, List.map_map, Function.comp_def,
    List.map_id', List.map_cons, List.map_nil, List.mem_append, List.mem_singleton]
  tauto

theorem write_mem_lockAccounts {tx : Transaction} {k : Pubkey} :
    (k, true) ∈ lockAccounts tx ↔ k ∈ tx.writeAccounts ∨ k = tx.signer := by
  constructor
  · intro hk
    simpa [lockRequests] using Ascending.mem_of_mem_firsts hk
  · intro hk
    have hkey : k ∈ Ascending.keys (tx.writeAccounts.map (·, true) ++ [(tx.signer, true)]) := by
      simpa [Ascending.keys] using hk
    obtain ⟨b, hb⟩ := Ascending.exists_mem_firsts.mpr hkey
    obtain rfl : b = true := by
      have hmem := Ascending.mem_of_mem_firsts hb
      simp only [List.mem_append, List.mem_map, List.mem_singleton, Prod.mk.injEq] at hmem
      rcases hmem with ⟨j, -, -, hj⟩ | ⟨-, hj⟩
      · exact hj.symm
      · exact hj
    exact Ascending.mem_firsts_append _ hb

theorem execute_batch_locks (C : Crypto) (txs : List Transaction)
    (yieldsTo : Threads (Fin txs.length) Pubkey → Fin txs.length → Fin txs.length → Prop) :
    (∀ s, Reachable yieldsTo (fun i => lockPlan C txs[i]) s → (∃ i, s i ≠ .finished) →
        ∃ t, Step yieldsTo s t) ∧
      ∀ tx, Ascending.Ordered (lockAccounts tx) ∧
        (∀ k, (∃ b, (k, b) ∈ lockAccounts tx) ↔
          k ∈ tx.writeAccounts ∨ k ∈ tx.readAccounts ∨ k = tx.signer) ∧
        ∀ k, (k, true) ∈ lockAccounts tx ↔ k ∈ tx.writeAccounts ∨ k = tx.signer := by
  constructor
  · rintro s hs ⟨i, hi⟩
    exact hs.exists_step (fun j => ordered_lockPlan C txs[j]) hi
  · intro tx
    exact ⟨Ascending.ordered_firsts _, fun k => exists_mem_lockAccounts,
      fun k => write_mem_lockAccounts⟩

def contended : List Transaction :=
  [transferTransaction [systemTransfer 1000 1 true], transferTransaction [systemTransfer 2000 1 false]]

def contendedPlans : Fin contended.length → List (Pubkey × Bool) :=
  fun i => lockPlan acceptingCrypto contended[i]

def firstLocked : Threads (Fin contended.length) Pubkey :=
  Function.update (start contendedPlans) ⟨0, Nat.zero_lt_two⟩
    (.running [(Bytes32.splat 7, true)] [(Bytes32.splat 42, true)])

theorem execute_batch_locks_contended :
    Reachable (fun _ _ _ => True) contendedPlans firstLocked ∧
      (firstLocked ⟨1, Nat.one_lt_two⟩).next = some (Bytes32.splat 7, false) ∧
      ∃ t, Step (fun _ _ _ => True) firstLocked t := by
  have hplan : start contendedPlans ⟨0, Nat.zero_lt_two⟩ =
      .running [] [(Bytes32.splat 7, true), (Bytes32.splat 42, true)] := by
    refine congrArg (Thread.running []) ?_
    decide +kernel
  have hgrant : Grantable (fun _ _ _ => True) (start contendedPlans) ⟨0, Nat.zero_lt_two⟩
      (Bytes32.splat 7, true) :=
    fun j b => List.not_mem_nil
  have hreach : Reachable (fun _ _ _ => True) contendedPlans firstLocked :=
    Relation.ReflTransGen.single (Step.acquire hplan hgrant)
  refine ⟨hreach, by decide +kernel, ?_⟩
  exact (execute_batch_locks acceptingCrypto contended fun _ _ _ => True).1 firstLocked hreach
    ⟨⟨0, Nat.zero_lt_two⟩, by simp [firstLocked]⟩

end TrustNode.TxProcessor.Executor
