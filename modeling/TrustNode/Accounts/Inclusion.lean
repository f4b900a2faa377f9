import TrustNode.Accounts.Binding

namespace TrustNode.Accounts

namespace MerkleProof

def inputs (C : Crypto) (proof : MerkleProof) : List Bytes :=
  (PairTree.climbPairs (StateRoot.hashPair C) proof.leaf proof.siblings).map StateRoot.pairBytes

def sides (proof : MerkleProof) : List Bool := proof.siblings.map Prod.snd

def path (proof : MerkleProof) : List Bool := proof.sides.reverse

end MerkleProof

namespace StateRoot

variable {C : Crypto} {hashes : List Bytes32} {index : ℕ} {leaf : Bytes32}

def sides (count index : ℕ) : List Bool := PairTree.sides count count index

def nodeAt (C : Crypto) (hashes : List Bytes32) (path : List Bool) : Option Bytes32 :=
  ((PairTree.treeOf hashes).bind fun t => t.descend path).map (PairTree.Tree.value (hashPair C))

theorem prove_eq (h : hashes[index]? = some leaf) :
    prove C hashes index =
      { leaf := leaf
        siblings := PairTree.path (hashPair C) hashes.length hashes index
        index := index } := by
  obtain ⟨hlt, rfl⟩ := List.getElem?_eq_some_iff.mp h
  rw [prove, dif_pos hlt, proveSiblings_eq_path]

theorem levels_eq_climb (h : hashes[index]? = some leaf) :
    levels C hashes.length hashes =
      [PairTree.climb (hashPair C) leaf
        (PairTree.path (hashPair C) hashes.length hashes index)] := by
  rw [levels_eq_reduce]
  exact PairTree.climb_path (Nat.le_succ _) h

theorem ne_nil_of_getElem? (h : hashes[index]? = some leaf) : hashes ≠ [] := by
  rintro rfl
  cases h

theorem compute_eq_climb (h : hashes[index]? = some leaf) :
    compute C hashes =
      PairTree.climb (hashPair C) leaf (prove C hashes index).siblings := by
  have hlevels := levels_eq_climb (C := C) h
  rw [levels_eq_singleton C (ne_nil_of_getElem? h)] at hlevels
  rw [List.singleton_inj.mp hlevels, prove_eq h]

theorem verify_prove (h : hashes[index]? = some leaf) :
    (prove C hashes index).verify C (compute C hashes) = true := by
  rw [MerkleProof.verify_iff, compute_eq_climb h, prove_eq h]

theorem sides_prove (h : hashes[index]? = some leaf) :
    (prove C hashes index).sides = sides hashes.length index := by
  rw [MerkleProof.sides, prove_eq h]
  exact PairTree.map_path (List.getElem?_eq_some_iff.mp h).1

theorem merkle_proofs_complete (C : Crypto) (hashes : List Bytes32) (index : ℕ)
    (h : index < hashes.length) :
    hashes[index]? = some (prove C hashes index).leaf ∧
      (prove C hashes index).verify C (compute C hashes) = true := by
  have hleaf : hashes[index]? = some hashes[index] := List.getElem?_eq_getElem h
  constructor
  · rw [prove_eq hleaf]
    exact hleaf
  · exact verify_prove hleaf

def threeLeaves : List Bytes32 := [Bytes32.splat 1, Bytes32.splat 2, Bytes32.splat 3]

theorem promoted_leaf_proved :
    (prove acceptingCrypto threeLeaves 2).leaf = Bytes32.splat 3 ∧
      (prove acceptingCrypto threeLeaves 2).siblings.length = 1 ∧
      (prove acceptingCrypto threeLeaves 2).verify acceptingCrypto
        (compute acceptingCrypto threeLeaves) = true := by
  obtain ⟨hleaf, hverify⟩ := merkle_proofs_complete acceptingCrypto threeLeaves 2 (by decide)
  exact ⟨(Option.some.inj hleaf).symm, rfl, hverify⟩

theorem verify_unique {proof : MerkleProof} {s : Set Bytes} (hinj : s.InjOn C.sha256)
    (hhashes : ∀ x ∈ inputs C hashes, x ∈ s) (hproof : ∀ x ∈ proof.inputs C, x ∈ s)
    (hleaf : hashes[proof.index]? = some leaf)
    (hsides : proof.sides = sides hashes.length proof.index)
    (h : proof.verify C (compute C hashes) = true) :
    proof.leaf = leaf ∧ proof.siblings = (prove C hashes proof.index).siblings := by
  rw [MerkleProof.verify_iff] at h
  have hroot := levels_eq_singleton C (ne_nil_of_getElem? hleaf)
  rw [← h, levels_eq_reduce] at hroot
  rw [prove_eq hleaf]
  rw [inputs_subset] at hhashes
  rw [MerkleProof.inputs, List.forall_mem_map] at hproof
  exact PairTree.path_unique (hashPair_injOn hinj) hhashes hproof hleaf (Nat.le_succ _) hsides hroot

theorem verify_names {proof : MerkleProof} {s : Set Bytes} (hinj : s.InjOn C.sha256)
    (hhashes : ∀ x ∈ inputs C hashes, x ∈ s) (hproof : ∀ x ∈ proof.inputs C, x ∈ s)
    (hne : hashes ≠ []) (h : proof.verify C (compute C hashes) = true) :
    (∀ node, nodeAt C hashes proof.path = some node → node = proof.leaf) ∧
      (nodeAt C hashes proof.path = none → ∃ x ∈ proof.inputs C, C.sha256 x ∈ hashes) := by
  obtain ⟨t, htree, hbuilds⟩ := PairTree.treeOf_builds (hashPair C) hne
  rw [MerkleProof.verify_iff] at h
  have hroot := levels_eq_singleton C hne
  rw [← h, levels_eq_reduce, hbuilds.root] at hroot
  rw [inputs_subset] at hhashes
  rw [MerkleProof.inputs, List.forall_mem_map] at hproof
  obtain ⟨hsome, hnone⟩ := PairTree.descend_spec (hashPair_injOn hinj)
    (fun p hp => hhashes p (hbuilds.nodes p hp)) hproof (List.singleton_inj.mp hroot).symm
  simp only [nodeAt, htree, Option.bind_some]
  constructor
  · intro node hnode
    obtain ⟨u, hu, rfl⟩ := Option.map_eq_some_iff.mp hnode
    exact hsome u hu
  · intro hpast
    obtain ⟨p, hp, hleaf⟩ := hnone (Option.map_eq_none_iff.mp hpast)
    exact ⟨pairBytes p, List.mem_map_of_mem hp, hbuilds.leaves _ hleaf⟩

theorem merkle_proofs_sound (C : Crypto) (hashes : List Bytes32) (proof : MerkleProof)
    (hinj : Set.InjOn C.sha256 {x | x ∈ inputs C hashes ∨ x ∈ proof.inputs C}) :
    (proof.verify C (compute C hashes) = true →
      (proof.index < hashes.length ∧ hashes[proof.index]? = some proof.leaf ↔
        proof.index < hashes.length ∧
          (nodeAt C hashes proof.path = hashes[proof.index]? ∨
            nodeAt C hashes proof.path = none ∧ hashes[proof.index]? = some proof.leaf)) ∧
      (nodeAt C hashes proof.path = none →
        hashes = [] ∨ ∃ x ∈ proof.inputs C, C.sha256 x ∈ hashes)) ∧
    (proof.verify C (compute C hashes) = true ∧ proof.index < hashes.length ∧
        proof.sides = sides hashes.length proof.index ↔
      hashes[proof.index]? = some proof.leaf ∧
        proof.siblings = (prove C hashes proof.index).siblings) := by
  refine ⟨fun hverify => ?_, ?_, ?_⟩
  · obtain rfl | hne := eq_or_ne hashes []
    · exact ⟨iff_of_false (fun h => absurd h.1 (Nat.not_lt_zero _))
        (fun h => absurd h.1 (Nat.not_lt_zero _)), fun _ => .inl rfl⟩
    obtain ⟨hsome, hpast⟩ := verify_names hinj (fun x hx => .inl hx) (fun x hx => .inr hx) hne hverify
    refine ⟨and_congr_right fun hlt => ⟨fun hleaf => ?_, ?_⟩, fun hnone => .inr (hpast hnone)⟩
    · cases hnode : nodeAt C hashes proof.path with
      | none => exact .inr ⟨rfl, hleaf⟩
      | some node =>
        rw [hsome node hnode]
        exact .inl hleaf.symm
    · rintro (hnode | ⟨-, hleaf⟩)
      · rw [List.getElem?_eq_getElem hlt] at hnode ⊢
        rw [hsome _ hnode]
      · exact hleaf
  · rintro ⟨hverify, hlt, hsides⟩
    have hleaf : hashes[proof.index]? = some hashes[proof.index] := List.getElem?_eq_getElem hlt
    obtain ⟨heq, hsiblings⟩ := verify_unique hinj (fun x hx => .inl hx) (fun x hx => .inr hx) hleaf
      hsides hverify
    rw [heq]
    exact ⟨hleaf, hsiblings⟩
  · rintro ⟨hleaf, hsiblings⟩
    refine ⟨?_, (List.getElem?_eq_some_iff.mp hleaf).1, ?_⟩
    · rw [MerkleProof.verify_iff, hsiblings, compute_eq_climb hleaf]
    · rw [← sides_prove hleaf, MerkleProof.sides, hsiblings, MerkleProof.sides]

def twoLeaves : List Bytes32 := [Bytes32.splat 1, Bytes32.splat 2]

theorem injOn_twoLeaves {proof : MerkleProof} (h : ∀ x ∈ proof.inputs C, x ∈ inputs C twoLeaves) :
    Set.InjOn C.sha256 {x | x ∈ inputs C twoLeaves ∨ x ∈ proof.inputs C} := by
  have hone : ∀ x ∈ inputs C twoLeaves, x = pairBytes (Bytes32.splat 1, Bytes32.splat 2) :=
    fun x hx => List.mem_singleton.mp hx
  have hsub : {x | x ∈ inputs C twoLeaves ∨ x ∈ proof.inputs C} ⊆
      {pairBytes (Bytes32.splat 1, Bytes32.splat 2)} := by
    rintro x (hx | hx)
    · exact hone x hx
    · exact hone x (h x hx)
  exact (Set.subsingleton_of_subset_singleton hsub).injOn _

theorem first_leaf_accepted :
    ∃ proof : MerkleProof, proof.verify acceptingCrypto (compute acceptingCrypto twoLeaves) = true ∧
      proof.sides = [false] ∧ twoLeaves[proof.index]? = some proof.leaf := by
  let proof : MerkleProof := ⟨Bytes32.splat 1, [(Bytes32.splat 2, false)], 0⟩
  have hinj : Set.InjOn acceptingCrypto.sha256
      {x | x ∈ inputs acceptingCrypto twoLeaves ∨ x ∈ proof.inputs acceptingCrypto} :=
    injOn_twoLeaves fun x hx => hx
  have hverify : proof.verify acceptingCrypto (compute acceptingCrypto twoLeaves) = true :=
    (MerkleProof.verify_iff _ _ _).mpr rfl
  have hnode : nodeAt acceptingCrypto twoLeaves proof.path = twoLeaves[proof.index]? := rfl
  have hsound := ((merkle_proofs_sound acceptingCrypto twoLeaves proof hinj).1 hverify).1.mpr
    ⟨by decide, .inl hnode⟩
  exact ⟨proof, hverify, rfl, hsound.2⟩

theorem proofs_of_no_leaf_accepted :
    (∃ proof : MerkleProof, Set.InjOn acceptingCrypto.sha256
        {x | x ∈ inputs acceptingCrypto twoLeaves ∨ x ∈ proof.inputs acceptingCrypto} ∧
      proof.verify acceptingCrypto (compute acceptingCrypto twoLeaves) = true ∧
      proof.index < twoLeaves.length ∧ twoLeaves[proof.index]? ≠ some proof.leaf) ∧
    (∃ proof : MerkleProof, Set.InjOn acceptingCrypto.sha256
        {x | x ∈ inputs acceptingCrypto twoLeaves ∨ x ∈ proof.inputs acceptingCrypto} ∧
      proof.verify acceptingCrypto (compute acceptingCrypto twoLeaves) = true ∧
      proof.leaf ∉ twoLeaves) ∧
    ∃ proof : MerkleProof, proof.inputs acceptingCrypto = [] ∧
      proof.verify acceptingCrypto (compute acceptingCrypto []) = true := by
  refine ⟨⟨⟨Bytes32.splat 1, [(Bytes32.splat 2, false)], 1⟩, ?_, ?_, ?_, ?_⟩,
    ⟨⟨compute acceptingCrypto twoLeaves, [], 0⟩, ?_, ?_, ?_⟩, ⟨Bytes32.splat 0, [], 0⟩, rfl, ?_⟩
  · exact injOn_twoLeaves fun x hx => hx
  · exact (MerkleProof.verify_iff _ _ _).mpr rfl
  · decide
  · decide
  · exact injOn_twoLeaves fun x hx => absurd hx List.not_mem_nil
  · exact (MerkleProof.verify_iff _ _ _).mpr rfl
  · decide +kernel
  · exact (MerkleProof.verify_iff _ _ _).mpr rfl

theorem merkle_root_determines_leaves (C : Crypto) (hashes hashes' : List Bytes32)
    (hlen : hashes.length = hashes'.length)
    (hinj : Set.InjOn C.sha256 {x | x ∈ inputs C hashes ∨ x ∈ inputs C hashes'}) :
    compute C hashes = compute C hashes' ↔ hashes = hashes' := by
  constructor
  · exact compute_inj hinj (fun x hx => .inl hx) (fun x hx => .inr hx) hlen
  · rintro rfl
    rfl

theorem swapped_leaves_change_root :
    compute acceptingCrypto twoLeaves ≠ compute acceptingCrypto twoLeaves.reverse := by
  have hinj : Set.InjOn acceptingCrypto.sha256
      {x | x ∈ inputs acceptingCrypto twoLeaves ∨
        x ∈ inputs acceptingCrypto twoLeaves.reverse} := by
    have hall : ∀ x ∈ inputs acceptingCrypto twoLeaves ++ inputs acceptingCrypto twoLeaves.reverse,
        ∀ y ∈ inputs acceptingCrypto twoLeaves ++ inputs acceptingCrypto twoLeaves.reverse,
        acceptingCrypto.sha256 x = acceptingCrypto.sha256 y → x = y := by decide +kernel
    exact fun x hx y hy => hall x (List.mem_append.mpr hx) y (List.mem_append.mpr hy)
  have hiff := merkle_root_determines_leaves acceptingCrypto twoLeaves twoLeaves.reverse rfl hinj
  exact fun hroot => absurd (hiff.mp hroot) (by decide)

end StateRoot

end TrustNode.Accounts
