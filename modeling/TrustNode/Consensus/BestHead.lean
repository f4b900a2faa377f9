import TrustNode.Consensus.Ancestry

namespace TrustNode.Consensus

theorem frontPerm (hash : BlockHash) (hashes : List BlockHash) :
    (if hash ∈ hashes then hash :: hashes.erase hash else hashes).Perm hashes := by
  split_ifs with h
  · exact (List.perm_cons_erase h).symm
  · exact .refl _

def IterationOrder.front (hash : BlockHash) : IterationOrder where
  run := fun hashes => if hash ∈ hashes then hash :: hashes.erase hash else hashes
  perm := frontPerm hash

namespace Tower

def HeadValid (t : Tower) : Prop := ∀ hash, t.bestHead = some hash → IsBest t hash

def orderFree (C : Crypto) (t : Tower) : TowerCall → Prop
  | .processVote order vote => ∀ order' u u', t.vote C (order, vote) = some u →
    t.vote C (order', vote) = some u' → u.bestHead = u'.bestHead
  | _ => True

def decidesHead (t : Tower) : Prop :=
  (∃! leaf, IsBest t leaf) ∨ t.bestHead = none ∧ ∀ leaf, t.isLeaf leaf = false

def settlesHead (C : Crypto) (t : Tower) : TowerCall → Prop
  | .registerValidator _ _ => True
  | .processVote order vote =>
    t.admits C vote = true → (t.vote C (order, vote)).isSome = true → decidesHead (t.cast vote)
  | .advanceRoot newRoot => ∀ hash, t.bestHead = some hash → IsBest (t.advanceRoot newRoot) hash

def keepsTips (C : Crypto) (t : Tower) : TowerCall → Prop
  | .advanceRoot newRoot => t.rootSlot ≤ newRoot ∧ keepsBlocks t (.advanceRoot newRoot)
  | c => settlesHead C t c

section Choice

variable {t u : Tower} {order : IterationOrder} {hash : BlockHash}

theorem IsBest.isLeaf (h : IsBest t hash) : t.isLeaf hash = true := by
  obtain ⟨c, hc, rfl, -⟩ := h
  exact hc.leaf

theorem leaves_front (h : t.isLeaf hash = true) :
    ∃ rest, t.leaves (.front hash) = hash :: rest := by
  have hmem : hash ∈ Table.sorted t.nodes.keys.val :=
    Table.mem_sorted.mpr (Finmap.mem_keys.mpr (mem_nodes_of_isLeaf h))
  have hrun : (IterationOrder.front hash).run (Table.sorted t.nodes.keys.val) =
      hash :: (Table.sorted t.nodes.keys.val).erase hash := if_pos hmem
  rw [leaves, hrun, List.filter_cons_of_pos h]
  exact ⟨_, rfl⟩

theorem argmax_cons_of_forall_le {c : Candidate} {rest : List Candidate}
    (h : ∀ d ∈ rest, key d ≤ key c) : (c :: rest).argmax key = some c := by
  rw [List.argmax_cons]
  cases hmax : rest.argmax key with
  | none => rfl
  | some d => exact if_neg (not_lt.mpr (h d (List.argmax_mem hmax)))

theorem bestHead_front (h : IsBest t hash) (hu : t.updateBestHead (.front hash) = some u) :
    u.bestHead = some hash := by
  obtain ⟨candidates, hhashes, hall, hhead⟩ := updateBestHead_eq_argmax hu
  obtain ⟨rest, hrest⟩ := leaves_front h.isLeaf
  obtain ⟨best, hbest, hhash, hmax⟩ := h
  rw [hrest] at hhashes
  obtain ⟨c, others, rfl, hc, -⟩ := List.map_eq_cons_iff.mp hhashes
  obtain rfl : best = c := hbest.unique (hall c List.mem_cons_self) (hhash.trans hc.symm)
  rw [hhead, argmax_cons_of_forall_le fun d hd => hmax d (hall d (List.mem_cons_of_mem _ hd)),
    Option.map_some, hc]
  rfl

theorem updateBestHead_returns (h : t.updateBestHead order = some u) (order' : IterationOrder) :
    ∃ u', t.updateBestHead order' = some u' := by
  have hsome : (t.updateBestHead order).isSome = true := by rw [h]; rfl
  rw [← Option.isSome_iff_exists, updateBestHead_isSome_iff]
  exact updateBestHead_isSome_iff.mp hsome

theorem not_isBest (hnone : ∀ leaf, t.isLeaf leaf = false) (hash : BlockHash) :
    ¬IsBest t hash := by
  intro h
  have hleaf := h.isLeaf
  rw [hnone] at hleaf
  cases hleaf

theorem bestHead_of_unique (hbest : IsBest t hash) (honly : ∀ other, IsBest t other → other = hash)
    (hu : t.updateBestHead order = some u) : u.bestHead = some hash := by
  obtain ⟨other, hother, hisBest⟩ | ⟨-, hnone⟩ := bestHead_updateBestHead hu
  · rw [hother, honly other hisBest]
  · exact absurd hbest (not_isBest hnone hash)

theorem bestHead_of_no_leaf (hnone : ∀ leaf, t.isLeaf leaf = false)
    (hu : t.updateBestHead order = some u) : u.bestHead = t.bestHead := by
  obtain ⟨other, -, hisBest⟩ | ⟨hkept, -⟩ := bestHead_updateBestHead hu
  · exact absurd hisBest (not_isBest hnone other)
  · exact hkept

theorem decidesHead_iff (hu : t.updateBestHead order = some u) :
    ((∀ order' u', t.updateBestHead order' = some u' → u.bestHead = u'.bestHead) ∧
        ∀ hash, u.bestHead = some hash → IsBest t hash) ↔ decidesHead t := by
  constructor
  · rintro ⟨hfree, hvalid⟩
    obtain ⟨best, hbest, hisBest⟩ | ⟨hkept, hnone⟩ := bestHead_updateBestHead hu
    · refine .inl ⟨best, hisBest, fun other hother => ?_⟩
      -- the iteration that meets the other leaf first picks it, so the two leaves are one
      obtain ⟨u', hu'⟩ := updateBestHead_returns hu (.front other)
      have hsame := hfree _ u' hu'
      rw [hbest, bestHead_front hother hu'] at hsame
      exact (Option.some.inj hsame).symm
    · refine .inr ⟨?_, hnone⟩
      rw [← hkept]
      cases hhead : u.bestHead with
      | none => rfl
      | some hash => exact absurd (hvalid hash hhead) (not_isBest hnone hash)
  · rintro (⟨best, hbest, honly⟩ | ⟨hempty, hnone⟩)
    · have hhead := bestHead_of_unique hbest honly hu
      refine ⟨fun order' u' hu' => hhead.trans (bestHead_of_unique hbest honly hu').symm, ?_⟩
      intro hash hhash
      rw [hhead] at hhash
      exact Option.some.inj hhash ▸ hbest
    · have hhead := bestHead_of_no_leaf hnone hu
      refine ⟨fun order' u' hu' => hhead.trans (bestHead_of_no_leaf hnone hu').symm, ?_⟩
      intro hash hhash
      rw [hhead, hempty] at hhash
      cases hhash

end Choice

section Steps

variable {C : Crypto} {t t' : Tower} {order : IterationOrder} {vote : Vote}

theorem HeadValid.congr (h : HeadValid t) (hnodes : t'.nodes = t.nodes)
    (hroot : t'.rootSlot = t.rootSlot) (hhead : t'.bestHead = t.bestHead) : HeadValid t' := by
  intro hash hhash
  rw [hhead] at hhash
  exact (SameTree.of_nodes hroot.symm hnodes.symm).isBest (h hash hhash)

theorem headValid_admitted {u : Tower} (hu : (t.cast vote).updateBestHead order = some u) :
    HeadValid { u with totalVotes := u.totalVotes + 1 } ↔
      ∀ hash, u.bestHead = some hash → IsBest (t.cast vote) hash := by
  have hsame : SameTree (t.cast vote) { u with totalVotes := u.totalVotes + 1 } := by
    rw [updateBestHead_eq_some _ hu]
    exact .of_nodes rfl rfl
  exact forall_congr' fun hash => imp_congr_right fun _ => ⟨hsame.symm.isBest, hsame.isBest⟩

theorem settlesHead_admitted (hadmits : t.admits C vote = true) {u : Tower}
    (hu : (t.cast vote).updateBestHead order = some u) :
    (orderFree C t (.processVote order vote) ∧
        ∀ t', t.vote C (order, vote) = some t' → HeadValid t') ↔ decidesHead (t.cast vote) := by
  have hvote : ∀ order', t.vote C (order', vote) =
      ((t.cast vote).updateBestHead order').map fun u =>
        { u with totalVotes := u.totalVotes + 1 } := fun order' =>
    vote_of_admitted hadmits order'
  rw [← decidesHead_iff hu]
  refine and_congr ?_ ?_
  · simp only [orderFree, hvote, hu, Option.map_some, Option.some.injEq, Option.map_eq_some_iff]
    constructor
    · intro hfree order' u' hu'
      exact hfree order' { u with totalVotes := u.totalVotes + 1 }
        { u' with totalVotes := u'.totalVotes + 1 } rfl ⟨u', hu', rfl⟩
    · rintro hfree order' v v' rfl ⟨u', hu', rfl⟩
      exact hfree order' u' hu'
  · rw [← headValid_admitted hu, hvote, hu, Option.map_some]
    exact ⟨fun hall => hall _ rfl, fun hvalid t' ht' => Option.some.inj ht' ▸ hvalid⟩

theorem settlesHead_diverging (hadmits : t.admits C vote = true)
    (hnone : (t.cast vote).updateBestHead order = none) :
    orderFree C t (.processVote order vote) ∧
      ∀ t', t.vote C (order, vote) = some t' → HeadValid t' := by
  have hvote : t.vote C (order, vote) = none := by
    rw [vote_of_admitted hadmits order, hnone]
    rfl
  refine ⟨fun order' u u' hu => ?_, fun t' ht' => ?_⟩
  · rw [hvote] at hu
    cases hu
  · rw [hvote] at ht'
    cases ht'

theorem settlesHead_refused (hvalid : HeadValid t) (hadmits : t.admits C vote = false) :
    orderFree C t (.processVote order vote) ∧
      ∀ t', t.vote C (order, vote) = some t' → HeadValid t' := by
  refine ⟨fun order' u u' hu hu' => ?_, fun t' ht' => ?_⟩
  · rw [vote_of_refused hadmits order] at hu
    rw [vote_of_refused hadmits order'] at hu'
    rw [← Option.some.inj hu, ← Option.some.inj hu']
  · rw [vote_of_refused hadmits order] at ht'
    obtain rfl := Option.some.inj ht'
    split_ifs
    · exact hvalid.congr rfl rfl rfl
    · exact hvalid

theorem settlesHead_iff (hvalid : HeadValid t) {c : TowerCall} :
    (orderFree C t c ∧ ∀ t', t.call C c = some t' → HeadValid t') ↔ settlesHead C t c := by
  cases c with
  | registerValidator v stake =>
    refine iff_of_true ⟨trivial, fun t' hstep => ?_⟩ trivial
    obtain rfl := Option.some.inj hstep
    exact hvalid.congr rfl rfl rfl
  | processVote order vote =>
    rw [settlesHead, call]
    cases hadmits : t.admits C vote with
    | false => exact iff_of_true (settlesHead_refused hvalid hadmits) (by simp)
    | true =>
      cases hu : (t.cast vote).updateBestHead order with
      | none =>
        refine iff_of_true (settlesHead_diverging hadmits hu) fun _ hsome => ?_
        rw [vote_of_admitted hadmits order, hu] at hsome
        cases hsome
      | some u =>
        rw [settlesHead_admitted hadmits hu, vote_of_admitted hadmits order, hu]
        simp
  | advanceRoot newRoot =>
    constructor
    · rintro ⟨-, hnext⟩
      exact hnext _ rfl
    · intro hhead
      refine ⟨trivial, fun t' hstep => ?_⟩
      obtain rfl := Option.some.inj hstep
      exact hhead

theorem isLeaf_advanceRoot {newRoot : UInt64} (hroot : t.rootSlot ≤ newRoot)
    (hkeeps : keepsBlocks t (.advanceRoot newRoot)) (hash : BlockHash) :
    (t.advanceRoot newRoot).isLeaf hash = t.isLeaf hash := by
  rw [isLeaf, isLeaf, nodes_advanceRoot hkeeps]
  cases hnode : t.nodes.lookup hash with
  | none => rfl
  | some n =>
    have hnew := hkeeps hash n hnode
    have hold := UInt64.le_trans hroot hnew
    have hslot : (t.advanceRoot newRoot).rootSlot ≤ n.slot := hnew
    simp [hold, hslot]

theorem isCandidate_advanceRoot {newRoot : UInt64} (hroot : t.rootSlot ≤ newRoot)
    (hkeeps : keepsBlocks t (.advanceRoot newRoot)) {c : Candidate} :
    IsCandidate (t.advanceRoot newRoot) c ↔ IsCandidate t c := by
  have hnodes := nodes_advanceRoot hkeeps
  have hleaf := isLeaf_advanceRoot hroot hkeeps c.hash
  constructor
  · rintro ⟨hl, hw, hs⟩
    rw [hnodes] at hw
    rw [slotAt, hnodes] at hs
    exact ⟨hleaf ▸ hl, hw, hs⟩
  · rintro ⟨hl, hw, hs⟩
    refine ⟨hleaf.trans hl, ?_, ?_⟩
    · rw [hnodes]
      exact hw
    · rw [slotAt, hnodes]
      exact hs

theorem settlesHead_of_keepsTips (hvalid : HeadValid t) {c : TowerCall} (h : keepsTips C t c) :
    settlesHead C t c := by
  cases c with
  | registerValidator v stake => trivial
  | processVote order vote => exact h
  | advanceRoot newRoot =>
    intro hash hhead
    obtain ⟨c, hc, hhash, hmax⟩ := hvalid hash hhead
    refine ⟨c, (isCandidate_advanceRoot h.1 h.2).mpr hc, hhash, fun c' hc' => ?_⟩
    exact hmax c' ((isCandidate_advanceRoot h.1 h.2).mp hc')

end Steps

section Runs

theorem headValid_new (genesisSlot : UInt64) : HeadValid (new genesisSlot) := by
  intro hash hhead
  cases hhead

theorem throughout_headValid_iff (C : Crypto) (genesisSlot : UInt64) (calls : List TowerCall) :
    Throughout (call C) HeadValid (orderFree C) (new genesisSlot) calls ↔
      Respects (call C) (settlesHead C) (new genesisSlot) calls := by
  exact Throughout.iff_respects (I := fun _ => True) (fun _ _ => trivial)
    (fun _ hvalid => settlesHead_iff hvalid) trivial (headValid_new genesisSlot)

theorem best_head_valid (C : Crypto) (genesisSlot : UInt64) (calls : List TowerCall) :
    (Respects (call C) (keepsTips C) (new genesisSlot) calls →
        Throughout (call C) HeadValid (orderFree C) (new genesisSlot) calls) ∧
      (Throughout (call C) HeadValid (orderFree C) (new genesisSlot) calls ↔
        Respects (call C) (settlesHead C) (new genesisSlot) calls) := by
  refine ⟨fun h => ?_, throughout_headValid_iff C genesisSlot calls⟩
  rw [throughout_headValid_iff]
  refine h.of_invariant (I := HeadValid) (fun hvalid hkeeps hstep => ?_)
    (fun hvalid hkeeps => settlesHead_of_keepsTips hvalid hkeeps) (headValid_new genesisSlot)
  exact ((settlesHead_iff hvalid).mpr (settlesHead_of_keepsTips hvalid hkeeps)).2 _ hstep

def prunedHead : List TowerCall :=
  [.processVote .byKey (ballot 1 1 1 (some 0)), .advanceRoot 2]

theorem stale_or_tied_head :
    (∃ t, run acceptingCrypto (new 0) prunedHead = some t ∧ t.bestHead = some (Bytes32.splat 1) ∧
        t.nodes.lookup (Bytes32.splat 1) = none) ∧
      ∃ t u u', run acceptingCrypto (new 0) [.processVote .byKey (ballot 1 1 1 (some 0))] = some t ∧
        t.vote acceptingCrypto (.byKey, ballot 2 1 2 (some 0)) = some u ∧
        t.vote acceptingCrypto (.front (Bytes32.splat 2), ballot 2 1 2 (some 0)) = some u' ∧
        u.bestHead = some (Bytes32.splat 1) ∧ u'.bestHead = some (Bytes32.splat 2) := by
  have hpruned : (run acceptingCrypto (new 0) prunedHead).map
      (fun t => (t.bestHead, t.nodes.lookup (Bytes32.splat 1))) =
      some (some (Bytes32.splat 1), none) := by decide +kernel
  have htied : ((run acceptingCrypto (new 0) [.processVote .byKey (ballot 1 1 1 (some 0))]).bind
      fun t => (t.vote acceptingCrypto (.byKey, ballot 2 1 2 (some 0))).bind fun u =>
        (t.vote acceptingCrypto (.front (Bytes32.splat 2), ballot 2 1 2 (some 0))).map fun u' =>
          (u.bestHead, u'.bestHead)) =
      some (some (Bytes32.splat 1), some (Bytes32.splat 2)) := by decide +kernel
  constructor
  · obtain ⟨t, hrun, heq⟩ := Option.map_eq_some_iff.mp hpruned
    obtain ⟨hhead, hnode⟩ := Prod.mk.inj heq
    exact ⟨t, hrun, hhead, hnode⟩
  · obtain ⟨t, hrun, hrest⟩ := Option.bind_eq_some_iff.mp htied
    obtain ⟨u, hu, hrest⟩ := Option.bind_eq_some_iff.mp hrest
    obtain ⟨u', hu', heq⟩ := Option.map_eq_some_iff.mp hrest
    obtain ⟨hfirst, hsecond⟩ := Prod.mk.inj heq
    exact ⟨t, u, u', hrun, hu, hu', hfirst, hsecond⟩

end Runs

end Tower

end TrustNode.Consensus
