import TrustNode.Accounts.Preimage
import TrustNode.Accounts.Store
import TrustNode.Base.Sha256

namespace TrustNode.Accounts

namespace StateRoot

variable {C : Crypto}

def pairInputs : List Bytes32 → List Bytes
  | a :: b :: rest => (a.toList ++ b.toList) :: pairInputs rest
  | _ => []

def levelInputs (C : Crypto) : ℕ → List Bytes32 → List Bytes
  | 0, _ => []
  | fuel + 1, level =>
    if 1 < level.length then pairInputs level ++ levelInputs C fuel (nextLevel C level) else []

def inputs (C : Crypto) (hashes : List Bytes32) : List Bytes := levelInputs C hashes.length hashes

def pairBytes (p : Bytes32 × Bytes32) : Bytes := p.1.toList ++ p.2.toList

theorem pairBytes_injective : Function.Injective pairBytes := by
  rintro ⟨a, b⟩ ⟨a', b'⟩ h
  obtain ⟨ha, hb⟩ := List.append_inj h (a.length_eq.trans a'.length_eq.symm)
  exact Prod.ext (Bytes32.toList_injective ha) (Bytes32.toList_injective hb)

theorem hashPair_injOn {s : Set Bytes} (hinj : s.InjOn C.sha256) :
    (Set.preimage pairBytes s).InjOn (Function.uncurry (hashPair C)) :=
  fun _ hp _ hq h => pairBytes_injective (hinj hp hq h)

theorem pairInputs_eq (level : List Bytes32) :
    pairInputs level = (PairTree.pairs level).map pairBytes := by
  induction level using pairInputs.induct with
  | case1 a b rest ih => rw [pairInputs, ih, PairTree.pairs, List.map_cons, pairBytes]
  | case2 level hshort =>
    obtain _ | ⟨a, _ | ⟨b, rest⟩⟩ := level
    · rfl
    · rfl
    · exact absurd rfl (hshort a b rest)

theorem levelInputs_eq (fuel : ℕ) (level : List Bytes32) :
    levelInputs C fuel level = (PairTree.treePairs (hashPair C) fuel level).map pairBytes := by
  induction fuel generalizing level with
  | zero => rfl
  | succ fuel ih =>
    rw [levelInputs, PairTree.treePairs, ih, pairInputs_eq, nextLevel_eq_pairUp, apply_ite (List.map _),
      List.map_append, List.map_nil]

theorem inputs_subset {hashes : List Bytes32} {s : Set Bytes} :
    (∀ x ∈ inputs C hashes, x ∈ s) ↔
      ∀ p ∈ PairTree.treePairs (hashPair C) hashes.length hashes, p ∈ Set.preimage pairBytes s := by
  rw [inputs, levelInputs_eq, List.forall_mem_map]
  rfl

theorem levels_eq_singleton (C : Crypto) {hashes : List Bytes32} (h : hashes ≠ []) :
    levels C hashes.length hashes = [compute C hashes] := by
  obtain ⟨first, rest, rfl⟩ := List.exists_cons_of_ne_nil h
  have hclimb := PairTree.climb_path (f := hashPair C) (i := 0) (Nat.le_succ (first :: rest).length)
    (List.getElem?_cons_zero)
  rw [← levels_eq_reduce] at hclimb
  rw [compute, hclimb]
  rfl

theorem compute_inj {s : Set Bytes} (hinj : s.InjOn C.sha256) {hashes hashes' : List Bytes32}
    (hmem : ∀ x ∈ inputs C hashes, x ∈ s) (hmem' : ∀ x ∈ inputs C hashes', x ∈ s)
    (hlen : hashes.length = hashes'.length) (h : compute C hashes = compute C hashes') :
    hashes = hashes' := by
  obtain rfl | hne := eq_or_ne hashes []
  · exact (List.eq_nil_of_length_eq_zero hlen.symm).symm
  · have hne' : hashes' ≠ [] := by
      rintro rfl
      exact hne (List.eq_nil_of_length_eq_zero hlen)
    have hlevels : levels C hashes.length hashes = levels C hashes.length hashes' := by
      rw [levels_eq_singleton C hne, h, hlen, levels_eq_singleton C hne']
    rw [levels_eq_reduce, levels_eq_reduce] at hlevels
    rw [inputs_subset] at hmem hmem'
    rw [← hlen] at hmem'
    exact PairTree.reduce_inj (hashPair_injOn hinj) hmem hmem' hlen hlevels

end StateRoot

theorem map_injOn {α β : Type} {f : α → β} {s t : Multiset α}
    (hinj : Set.InjOn f {a | a ∈ s + t}) (h : s.map f = t.map f) : s = t := by
  obtain rfl | ⟨a, -⟩ := s.empty_or_exists_mem
  · exact (Multiset.map_eq_zero.mp h.symm).symm
  · have : Nonempty α := ⟨a⟩
    have hleft := hinj.leftInvOn_invFunOn
    have hback : ∀ {u : Multiset α}, (∀ x ∈ u, x ∈ s + t) →
        (u.map f).map (Function.invFunOn f {a | a ∈ s + t}) = u := by
      intro u hu
      rw [Multiset.map_map]
      conv_rhs => rw [← Multiset.map_id u]
      exact Multiset.map_congr rfl fun x hx => hleft (hu x hx)
    rw [← hback fun x hx => Multiset.mem_add.mpr (.inl hx), h,
      hback fun x hx => Multiset.mem_add.mpr (.inr hx)]

namespace AccountsDB

variable {C : Crypto} {db db' : AccountsDB}

def accounts (db : AccountsDB) : Multiset Account := db.index.entries.map Sigma.snd

def rootInputs (C : Crypto) (db : AccountsDB) : Multiset Bytes :=
  db.accounts.map Account.preimage + StateRoot.inputs C (db.hashes C)

theorem hashes_eq_sorted (C : Crypto) (db : AccountsDB) :
    db.hashes C = Table.sorted (db.accounts.map (Account.hash C)) := by
  rw [hashes, accounts, Multiset.map_map]
  rfl

theorem coe_hashes (C : Crypto) (db : AccountsDB) :
    (db.hashes C : Multiset Bytes32) = db.accounts.map (Account.hash C) := by
  rw [hashes_eq_sorted, Table.coe_sorted]

theorem card_accounts (db : AccountsDB) : db.accounts.card = db.accountCount := by
  rw [accounts, accountCount, Multiset.card_map]
  exact (Multiset.card_map Sigma.fst db.index.entries).symm

theorem length_hashes (C : Crypto) (db : AccountsDB) : (db.hashes C).length = db.accountCount := by
  rw [← card_accounts, ← Multiset.coe_card, coe_hashes, Multiset.card_map]

theorem preimage_mem {a : Account} (h : a ∈ db.accounts + db'.accounts) :
    a.preimage ∈ db.rootInputs C + db'.rootInputs C := by
  obtain h | h := Multiset.mem_add.mp h
  · exact Multiset.mem_add.mpr (.inl (Multiset.mem_add.mpr (.inl (Multiset.mem_map_of_mem _ h))))
  · exact Multiset.mem_add.mpr (.inr (Multiset.mem_add.mpr (.inl (Multiset.mem_map_of_mem _ h))))

theorem root_eq_iff (hinj : Set.InjOn C.sha256 {x | x ∈ db.rootInputs C + db'.rootInputs C}) :
    db.computeStateRoot C = db'.computeStateRoot C ∧ db.accountCount = db'.accountCount ↔
      db.accounts = db'.accounts := by
  constructor
  · rintro ⟨hroot, hcount⟩
    have hhashes : db.hashes C = db'.hashes C := by
      refine StateRoot.compute_inj hinj ?_ ?_ ?_ hroot
      · intro x hx
        exact Multiset.mem_add.mpr (.inl (Multiset.mem_add.mpr (.inr hx)))
      · intro x hx
        exact Multiset.mem_add.mpr (.inr (Multiset.mem_add.mpr (.inr hx)))
      · rw [length_hashes, length_hashes, hcount]
    have hmap : db.accounts.map (Account.hash C) = db'.accounts.map (Account.hash C) := by
      rw [← coe_hashes, ← coe_hashes, hhashes]
    refine map_injOn (fun a ha b hb hab => ?_) hmap
    exact Account.preimage_injective (hinj (preimage_mem ha) (preimage_mem hb) hab)
  · intro h
    constructor
    · have hhashes : db.hashes C = db'.hashes C := by
        rw [hashes_eq_sorted, hashes_eq_sorted, h]
      rw [computeStateRoot, computeStateRoot, hhashes]
    · rw [← card_accounts, ← card_accounts, h]

end AccountsDB

theorem state_root_binds_map {C : Crypto} {db db' : AccountsDB}
    (hinj : Set.InjOn C.sha256 {x | x ∈ db.rootInputs C + db'.rootInputs C}) :
    (db.computeStateRoot C = db'.computeStateRoot C → db.accountCount = db'.accountCount →
      db = db') ↔ (db.accounts = db'.accounts → db = db') := by
  rw [← AccountsDB.root_eq_iff hinj]
  exact and_imp.symm

def vaultAt (key : UInt8) (lamports : UInt64) : AccountsDB :=
  AccountsDB.new.store (Bytes32.splat key) (.newSystemAccount (Bytes32.splat key) lamports)

theorem injOn_vaults (key key' : UInt8) (lamports lamports' : UInt64)
    (h : ∀ x ∈ (vaultAt key lamports).rootInputs acceptingCrypto +
        (vaultAt key' lamports').rootInputs acceptingCrypto,
      ∀ y ∈ (vaultAt key lamports).rootInputs acceptingCrypto +
        (vaultAt key' lamports').rootInputs acceptingCrypto,
      acceptingCrypto.sha256 x = acceptingCrypto.sha256 y → x = y) :
    Set.InjOn acceptingCrypto.sha256 {x | x ∈ (vaultAt key lamports).rootInputs acceptingCrypto +
      (vaultAt key' lamports').rootInputs acceptingCrypto} :=
  fun x hx y hy => h x hx y hy

theorem state_root_tells_balances :
    (vaultAt 3 7).computeStateRoot acceptingCrypto ≠
      (vaultAt 3 8).computeStateRoot acceptingCrypto := by
  have hbinds := (state_root_binds_map (injOn_vaults 3 3 7 8 (by decide +kernel))).mpr
    (fun h => absurd h (by decide +kernel))
  intro hroot
  have heq := congrArg (fun db => db.load (Bytes32.splat 3)) (hbinds hroot (by decide +kernel))
  revert heq
  decide +kernel

theorem moved_vault_same_root :
    ∃ db db' : AccountsDB, Set.InjOn acceptingCrypto.sha256
        {x | x ∈ db.rootInputs acceptingCrypto + db'.rootInputs acceptingCrypto} ∧
      db.computeStateRoot acceptingCrypto = db'.computeStateRoot acceptingCrypto ∧
      db.accountCount = db'.accountCount ∧ db ≠ db' := by
  refine ⟨vaultAt 3 7, vaultAt 4 7, injOn_vaults 3 4 7 7 (by decide +kernel), ?_, ?_, ?_⟩
  · decide +kernel
  · decide +kernel
  · intro heq
    have hload := congrArg (fun db => db.load (Bytes32.splat 3)) heq
    revert hload
    decide +kernel

end TrustNode.Accounts
