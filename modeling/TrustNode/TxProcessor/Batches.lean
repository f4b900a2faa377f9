import TrustNode.TxProcessor.Footprint
import TrustNode.TxProcessor.Passes

namespace TrustNode.TxProcessor

open TrustNode.Accounts

namespace Executor

def outcomes (C : Crypto) : AccountsDB → List Item → List (Item × Bool)
  | _, [] => []
  | db, item :: rest =>
    (item, (executeTransaction C db item.1).1.success) ::
      outcomes C (executeTransaction C db item.1).2 rest

def OrderIndependent (C : Crypto) (db : AccountsDB) (txs : List Transaction) : Prop :=
  ∀ order order', order.Perm txs.zipIdx → order'.Perm txs.zipIdx →
    executeAll C db (order.map Prod.fst) = executeAll C db (order'.map Prod.fst) ∧
      ∀ outcome, outcome ∈ outcomes C db order ↔ outcome ∈ outcomes C db order'

def DeclaresWrites (tx : Transaction) : Prop := ∀ k ∈ written tx, k ∈ tx.writeAccounts

instance (tx : Transaction) : Decidable (DeclaresWrites tx) :=
  inferInstanceAs (Decidable (∀ k ∈ written tx, k ∈ tx.writeAccounts))

def ConflictsCoverAccess (txs : List Transaction) : Prop :=
  ∀ a b, [a, b].Sublist txs → a.conflictsWith b = false → Independent a b

def Live (C : Crypto) (tx : Transaction) : Prop :=
  tx.validate = .ok () ∧ tx.verifySignature C = true ∧ 150 ≤ tx.computeBudget

instance (C : Crypto) (tx : Transaction) : Decidable (Live C tx) :=
  inferInstanceAs (Decidable (_ ∧ _ ∧ _))

def Separate (C : Crypto) (tx other : Transaction) : Prop :=
  Live C tx → Live C other → Independent tx other

instance (C : Crypto) (tx other : Transaction) : Decidable (Separate C tx other) :=
  inferInstanceAs (Decidable (_ → _ → _))

section Declared

variable {tx other : Transaction}

theorem accessed_of_declares (h : DeclaresWrites tx) {k : Pubkey} (hk : k ∈ accessed tx) :
    k ∈ tx.writeAccounts ∨ k ∈ tx.readAccounts := by
  obtain rfl | hk := List.mem_cons.mp hk
  · exact .inl (h tx.signer List.mem_cons_self)
  · obtain ⟨ix, hix, m, hm, -, hkey⟩ := Transaction.mem_metaKeys.mp hk
    cases hw : m.isWritable with
    | true => exact .inl (Transaction.mem_metaKeys.mpr ⟨ix, hix, m, hm, hw, hkey⟩)
    | false => exact .inr (Transaction.mem_metaKeys.mpr ⟨ix, hix, m, hm, by simp [hw], hkey⟩)

theorem independent_of_declares (htx : DeclaresWrites tx) (hother : DeclaresWrites other)
    (h : tx.conflictsWith other = false) : Independent tx other := by
  have hfree := Transaction.conflictsWith_iff.not.mp (Bool.eq_false_iff.mp h)
  constructor
  · intro k hk hacc
    exact hfree (.inl ⟨k, htx k hk, accessed_of_declares hother hacc⟩)
  · intro k hk hacc
    exact hfree (.inr ⟨k, hother k hk, accessed_of_declares htx hacc⟩)

theorem conflictsCoverAccess_of_declares {txs : List Transaction}
    (h : ∀ tx ∈ txs, DeclaresWrites tx) : ConflictsCoverAccess txs := by
  intro a b hsub hconflict
  exact independent_of_declares (h a (hsub.subset (by simp))) (h b (hsub.subset (by simp))) hconflict

end Declared

section Outcomes

variable {C : Crypto} {db : AccountsDB} {tx other : Transaction} {order order' : List Item}
  {txs : List Transaction}

theorem FeePhasePassed.live (h : FeePhasePassed C db tx) : Live C tx := ⟨h.1, h.2.1, h.2.2.1⟩

theorem executeTransaction_of_not_live (h : ¬Live C tx) :
    (executeTransaction C db tx).1.success = false ∧ (executeTransaction C db tx).2 = db :=
  executeTransaction_of_not_paid fun hpaid => h hpaid.live

theorem Separate.symm (h : Separate C tx other) : Separate C other tx := fun hother htx =>
  (h htx hother).symm

theorem success_after_separate (h : Separate C tx other) :
    (executeTransaction C (executeTransaction C db other).2 tx).1.success =
      (executeTransaction C db tx).1.success := by
  by_cases htx : Live C tx
  · by_cases hother : Live C other
    · refine (executeTransaction_congr fun k hk => ?_).1
      exact load_executeTransaction_of_not_written C db fun hw => (h htx hother).2 k hw hk
    · rw [(executeTransaction_of_not_live hother).2]
  · rw [(executeTransaction_of_not_live htx).1, (executeTransaction_of_not_live htx).1]

theorem commute_of_separate (h : Separate C tx other) :
    Reorder.Commute (fun db tx => (executeTransaction C db tx).2) tx other := by
  by_cases htx : Live C tx
  · by_cases hother : Live C other
    · exact executeTransaction_commute C (h htx hother)
    · intro db
      simp only [(executeTransaction_of_not_live hother).2]
  · intro db
    simp only [(executeTransaction_of_not_live htx).2]

theorem outcomes_of_separate (h : order.Pairwise fun a b => Separate C a.1 b.1) :
    outcomes C db order =
      order.map fun item => (item, (executeTransaction C db item.1).1.success) := by
  induction h generalizing db with
  | nil => rfl
  | @cons item rest hitem _ ih =>
    rw [outcomes, ih, List.map_cons]
    congr 1
    refine List.map_congr_left fun later hlater => ?_
    rw [success_after_separate (hitem later hlater).symm]

theorem executeAll_of_separate (h : order.Pairwise fun a b => Separate C a.1 b.1)
    (hperm : order.Perm order') :
    executeAll C db (order.map Prod.fst) = executeAll C db (order'.map Prod.fst) := by
  refine Reorder.foldl_eq_of_inversions (hperm.map Prod.fst) (fun a b _ hab _ => ?_) db
  exact commute_of_separate (List.pairwise_iff_forall_sublist.mp (List.pairwise_map.mpr h) hab)

theorem orderIndependent_of_separate (h : txs.Pairwise (Separate C)) :
    OrderIndependent C db txs := by
  intro order order' horder horder'
  have hitems : txs.zipIdx.Pairwise fun a b => Separate C a.1 b.1 := by
    rw [← List.pairwise_map (f := Prod.fst), List.zipIdx_map_fst]
    exact h
  have hpairs := (horder.pairwise_iff Separate.symm).mpr hitems
  have hpairs' := (horder'.pairwise_iff Separate.symm).mpr hitems
  have hperm := horder.trans horder'.symm
  refine ⟨executeAll_of_separate hpairs hperm, fun outcome => ?_⟩
  rw [outcomes_of_separate hpairs, outcomes_of_separate hpairs']
  exact (hperm.map _).mem_iff

end Outcomes

theorem batches_order_independent (C : Crypto) (s : Scheduler) :
    ((∀ batch ∈ s.emitted, batch.transactions.Pairwise (Separate C)) →
        ∀ db, ∀ batch ∈ s.emitted, OrderIndependent C db batch.transactions) ∧
      (ConflictsCoverAccess s.pending →
        ∀ batch ∈ s.emitted, batch.transactions.Pairwise (Separate C)) := by
  refine ⟨fun h db batch hbatch => orderIndependent_of_separate (h batch hbatch),
    fun h batch hbatch => List.pairwise_iff_forall_sublist.mpr fun hab _ _ => ?_⟩
  obtain ⟨hsub, hfree⟩ := Scheduler.emitted_spec hbatch
  exact h _ _ (hab.trans hsub) (List.pairwise_iff_forall_sublist.mp hfree hab)

def declaredPayments : Scheduler :=
  Scheduler.defaultSolana.enqueueBatch
    [Scheduler.payment 42 50 true 1000, Scheduler.payment 43 51 true 1000]

theorem declared_payments_order_independent :
    ∃ batch ∈ declaredPayments.emitted,
      batch.transactions = declaredPayments.pending ∧
        OrderIndependent acceptingCrypto fundedPayer batch.transactions := by
  have hdeclares : ∀ tx ∈ declaredPayments.pending, DeclaresWrites tx := by decide +kernel
  have hemitted : (⟨0, declaredPayments.pending, 400000⟩ : ExecutionBatch) ∈
      declaredPayments.emitted := by decide +kernel
  have hcover := conflictsCoverAccess_of_declares hdeclares
  obtain ⟨hindependent, hseparate⟩ := batches_order_independent acceptingCrypto declaredPayments
  exact ⟨_, hemitted, rfl, hindependent (hseparate hcover) fundedPayer _ hemitted⟩

def sharedPayer : List Transaction :=
  [Scheduler.payment 42 50 false 990000, Scheduler.payment 42 51 false 990000]

theorem shared_payer_depends_on_order :
    (∃ batch ∈ (Scheduler.defaultSolana.enqueueBatch sharedPayer).emitted,
        batch.transactions = sharedPayer) ∧
      ¬OrderIndependent acceptingCrypto fundedPayer sharedPayer := by
  refine ⟨by decide +kernel, fun h => ?_⟩
  have hswapped := h sharedPayer.zipIdx sharedPayer.zipIdx.reverse (.refl _)
    (List.reverse_perm _)
  have hflag := (hswapped.2 ((Scheduler.payment 42 50 false 990000, 0), true)).mp (by decide +kernel)
  revert hflag
  decide +kernel

end Executor

end TrustNode.TxProcessor
