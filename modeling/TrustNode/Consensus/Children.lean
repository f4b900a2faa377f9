import TrustNode.Base.Sha256
import TrustNode.Consensus.Calls
import TrustNode.Consensus.ForkChoice

namespace TrustNode.Consensus

namespace Tower

structure LinksAgree (t : Tower) : Prop where
  links : ∀ hc c hp p, t.nodes.lookup hc = some c → t.nodes.lookup hp = some p →
    (c.blockHash ∈ p.children ↔ c.parentHash = some p.blockHash)
  nodup : ∀ hash p, t.nodes.lookup hash = some p → p.children.Nodup

def agreesWithParent (C : Crypto) (t : Tower) (delivery : IterationOrder × Vote) : Prop :=
  t.admits C delivery.2 = true → ∀ parent, t.parentAfter delivery.2 = some parent →
    (t.baseNode delivery.2).parentHash = some parent

def childrenOf (t : Tower) (hash : BlockHash) : List BlockHash :=
  ((t.nodes.lookup hash).map TowerNode.children).getD []

def parentOf (t : Tower) (hash : BlockHash) : Option BlockHash :=
  (t.nodes.lookup hash).bind TowerNode.parentHash

structure Rooted (t : Tower) : Prop where
  hashes : ∀ hash n, t.nodes.lookup hash = some n → n.blockHash = hash
  nodup : ∀ hash, (t.childrenOf hash).Nodup
  children : ∀ hash, ∀ child ∈ t.childrenOf hash, child ∈ t.nodes
  parents : ∀ hash parent, t.parentOf hash = some parent → parent ∈ t.nodes
  slots : ∀ slot hash, t.slotToHash.lookup slot = some hash → hash ∈ t.nodes

def Agrees (t : Tower) : Prop :=
  ∀ child parent, child ∈ t.childrenOf parent ↔ t.parentOf child = some parent

section Readings

variable {t : Tower} {hash child parent : BlockHash}

theorem childrenOf_of_lookup {n : TowerNode} (h : t.nodes.lookup hash = some n) :
    t.childrenOf hash = n.children := by
  rw [childrenOf, h]
  rfl

theorem parentOf_of_lookup {n : TowerNode} (h : t.nodes.lookup hash = some n) :
    t.parentOf hash = n.parentHash := by
  rw [parentOf, h]
  rfl

theorem mem_nodes_of_mem_childrenOf (h : child ∈ t.childrenOf parent) : parent ∈ t.nodes := by
  rw [← Finmap.lookup_isSome]
  cases hnode : t.nodes.lookup parent with
  | none =>
    rw [childrenOf, hnode] at h
    cases h
  | some n => rfl

theorem mem_nodes_of_parentOf (h : t.parentOf child = some parent) : child ∈ t.nodes := by
  obtain ⟨n, hn, -⟩ := Option.bind_eq_some_iff.mp h
  exact Finmap.mem_of_lookup_eq_some hn

theorem Rooted.linksAgree_iff (h : Rooted t) : LinksAgree t ↔ Agrees t := by
  constructor
  · intro hagree child parent
    -- both sides only hold of blocks in the table, where the stored hashes are the keys
    have hnodes : child ∈ t.nodes ∧ parent ∈ t.nodes →
        (child ∈ t.childrenOf parent ↔ t.parentOf child = some parent) := by
      rintro ⟨hc, hp⟩
      obtain ⟨c, hc⟩ := Option.isSome_iff_exists.mp (Finmap.lookup_isSome.mpr hc)
      obtain ⟨p, hp⟩ := Option.isSome_iff_exists.mp (Finmap.lookup_isSome.mpr hp)
      have hlink := hagree.links child c parent p hc hp
      rw [h.hashes child c hc, h.hashes parent p hp] at hlink
      rw [childrenOf_of_lookup hp, parentOf_of_lookup hc]
      exact hlink
    constructor
    · intro hmem
      exact (hnodes ⟨h.children parent child hmem, mem_nodes_of_mem_childrenOf hmem⟩).mp hmem
    · intro hparent
      exact (hnodes ⟨mem_nodes_of_parentOf hparent, h.parents child parent hparent⟩).mpr hparent
  · intro hagree
    refine ⟨fun hc c hp p hlc hlp => ?_, fun hash p hp => ?_⟩
    · rw [h.hashes hc c hlc, h.hashes hp p hlp, ← childrenOf_of_lookup hlp,
        ← parentOf_of_lookup hlc]
      exact hagree hc hp
    · rw [← childrenOf_of_lookup hp]
      exact h.nodup hash

end Readings

section Votes

variable {C : Crypto} {order : IterationOrder} {t t' : Tower} {vote : Vote}

theorem Rooted.congr (h : Rooted t) (hnodes : t'.nodes = t.nodes)
    (hslots : t'.slotToHash = t.slotToHash) : Rooted t' := by
  refine ⟨?_, ?_, ?_, ?_, ?_⟩ <;> simp only [childrenOf, parentOf, hnodes, hslots]
  · exact h.hashes
  · exact h.nodup
  · exact h.children
  · exact h.parents
  · exact h.slots

theorem Agrees.congr (h : Agrees t) (hnodes : t'.nodes = t.nodes) : Agrees t' := by
  simp only [Agrees, childrenOf, parentOf, hnodes]
  exact h

theorem children_baseNode (t : Tower) (vote : Vote) :
    (t.baseNode vote).children = t.childrenOf vote.blockHash := by
  rw [baseNode, childrenOf]
  cases t.nodes.lookup vote.blockHash <;> rfl

theorem children_linked (parent : Option BlockHash) (child hash : BlockHash) (node : TowerNode) :
    (linked parent child hash node).children =
      if parent = some hash ∧ child ∉ node.children then node.children ++ [child]
      else node.children := by
  rw [linked]
  split <;> rfl

theorem Rooted.parentAfter (h : Rooted t) {parent : BlockHash}
    (hparent : t.parentAfter vote = some parent) : parent = vote.blockHash ∨ parent ∈ t.nodes := by
  obtain ⟨slot, -, hslot⟩ := Option.bind_eq_some_iff.mp hparent
  rw [Table.lookup_insert] at hslot
  split_ifs at hslot
  · exact .inl (Option.some.inj hslot).symm
  · exact .inr (h.slots slot parent hslot)

theorem childrenOf_cast (h : Rooted t) (hash : BlockHash) :
    (t.cast vote).childrenOf hash =
      if t.parentAfter vote = some hash ∧ vote.blockHash ∉ t.childrenOf hash then
        t.childrenOf hash ++ [vote.blockHash]
      else t.childrenOf hash := by
  by_cases hvoted : hash = vote.blockHash
  · subst hvoted
    have hnode := lookup_cast t vote vote.blockHash
    rw [if_pos rfl, Option.map_some] at hnode
    rw [childrenOf_of_lookup hnode, children_linked, children_votedNode, children_baseNode]
  · have hnode := lookup_cast t vote hash
    rw [if_neg hvoted] at hnode
    cases hold : t.nodes.lookup hash with
    | none =>
      rw [hold, Option.map_none] at hnode
      have hother : t.parentAfter vote ≠ some hash := fun hparent => by
        have hmem := (h.parentAfter hparent).resolve_left hvoted
        rw [← Finmap.lookup_isSome, hold] at hmem
        cases hmem
      rw [if_neg fun hc => hother hc.1, childrenOf, childrenOf, hnode, hold]
    | some n =>
      rw [hold, Option.map_some] at hnode
      rw [childrenOf_of_lookup hnode, childrenOf_of_lookup hold, children_linked]

theorem mem_childrenOf_cast (h : Rooted t) {child parent : BlockHash} :
    child ∈ (t.cast vote).childrenOf parent ↔
      child ∈ t.childrenOf parent ∨ child = vote.blockHash ∧ t.parentAfter vote = some parent := by
  rw [childrenOf_cast h]
  split_ifs with hlink
  · simp [hlink.1]
  · refine ⟨.inl, ?_⟩
    rintro (hmem | ⟨rfl, hparent⟩)
    · exact hmem
    · by_contra hmem
      exact hlink ⟨hparent, hmem⟩

theorem parentOf_cast (hash : BlockHash) :
    (t.cast vote).parentOf hash =
      if hash = vote.blockHash then (t.baseNode vote).parentHash else t.parentOf hash :=
  parentHash_cast t vote hash

theorem parentHash_baseNode_of_mem (h : vote.blockHash ∈ t.nodes) :
    (t.baseNode vote).parentHash = t.parentOf vote.blockHash := by
  obtain ⟨n, hn⟩ := Option.isSome_iff_exists.mp (Finmap.lookup_isSome.mpr h)
  rw [parentOf_of_lookup hn, baseNode, hn]
  rfl

theorem parentHash_baseNode_of_notMem (h : vote.blockHash ∉ t.nodes) :
    (t.baseNode vote).parentHash = vote.parentSlot.bind t.slotToHash.lookup := by
  rw [baseNode, Finmap.lookup_eq_none.mpr h]
  rfl

theorem Rooted.cast (h : Rooted t) (vote : Vote) : Rooted (t.cast vote) where
  hashes hash n hn := by
    obtain ⟨m, rfl, ⟨rfl, rfl⟩ | ⟨-, hm⟩⟩ := lookup_cast_eq_some t vote hn
    · rw [blockHash_linked, blockHash_votedNode]
      obtain ⟨-, hfresh⟩ | hold := t.baseNode_cases vote
      · rw [hfresh]
        rfl
      · exact h.hashes _ _ hold
    · rw [blockHash_linked]
      exact h.hashes hash m hm
  nodup hash := by
    rw [childrenOf_cast h]
    split_ifs with hlink
    · exact (h.nodup hash).append (List.nodup_singleton _) (by simpa using hlink.2)
    · exact h.nodup hash
  children hash child hchild := by
    rw [mem_nodes_cast]
    obtain hold | ⟨rfl, -⟩ := (mem_childrenOf_cast h).mp hchild
    · exact .inr (h.children hash child hold)
    · exact .inl rfl
  parents hash parent hparent := by
    rw [mem_nodes_cast]
    rw [parentOf_cast] at hparent
    split_ifs at hparent with hvoted
    · by_cases hmem : vote.blockHash ∈ t.nodes
      · rw [parentHash_baseNode_of_mem hmem] at hparent
        exact .inr (h.parents _ parent hparent)
      · rw [parentHash_baseNode_of_notMem hmem] at hparent
        obtain ⟨slot, -, hslot⟩ := Option.bind_eq_some_iff.mp hparent
        exact .inr (h.slots slot parent hslot)
    · exact .inr (h.parents hash parent hparent)
  slots slot hash hslot := by
    rw [mem_nodes_cast]
    rw [slotToHash_cast, Table.lookup_insert] at hslot
    split_ifs at hslot
    · exact .inl (Option.some.inj hslot).symm
    · exact .inr (h.slots slot hash hslot)

theorem parentAfter_of_slot {parent : BlockHash}
    (h : vote.parentSlot.bind t.slotToHash.lookup = some parent) :
    t.parentAfter vote = some parent ∨ t.parentAfter vote = some vote.blockHash := by
  obtain ⟨slot, hslot, hlookup⟩ := Option.bind_eq_some_iff.mp h
  rw [parentAfter, hslot, Option.bind_some, Table.lookup_insert]
  split_ifs
  · exact .inr rfl
  · exact .inl hlookup

theorem voted_block_agrees_iff (h : Rooted t) (hagree : Agrees t) :
    (∀ parent, vote.blockHash ∈ t.childrenOf parent ∨ t.parentAfter vote = some parent ↔
        (t.baseNode vote).parentHash = some parent) ↔
      ∀ parent, t.parentAfter vote = some parent →
        (t.baseNode vote).parentHash = some parent := by
  refine ⟨fun hall parent hparent => (hall parent).mp (.inr hparent), fun hparent parent => ?_⟩
  by_cases hmem : vote.blockHash ∈ t.nodes
  · rw [hagree, ← parentHash_baseNode_of_mem hmem]
    exact or_iff_left_of_imp (hparent parent)
  · have hnot : vote.blockHash ∉ t.childrenOf parent := fun hc => hmem (h.children parent _ hc)
    rw [or_iff_right hnot]
    refine ⟨hparent parent, fun hbase => ?_⟩
    have hresolved := parentHash_baseNode_of_notMem hmem
    obtain hsame | hself := parentAfter_of_slot (hresolved.symm.trans hbase)
    · exact hsame
    · rw [hself, ← hbase, hparent _ hself]

theorem agrees_cast_iff (h : Rooted t) (hagree : Agrees t) :
    Agrees (t.cast vote) ↔
      ∀ parent, t.parentAfter vote = some parent →
        (t.baseNode vote).parentHash = some parent := by
  rw [← voted_block_agrees_iff h hagree]
  constructor
  · intro hcast parent
    have hlink := hcast vote.blockHash parent
    rw [mem_childrenOf_cast h, parentOf_cast, if_pos rfl] at hlink
    simpa using hlink
  · intro hvoted child parent
    rw [mem_childrenOf_cast h, parentOf_cast]
    split_ifs with heq
    · subst heq
      simpa using hvoted parent
    · simpa [heq] using hagree child parent

theorem Rooted.delivery (h : Rooted t) {delivery : IterationOrder × Vote}
    (hstep : t.vote C delivery = some t') : Rooted t' := by
  obtain hreject | haccept := vote_cases hstep
  · exact h.congr hreject.nodes hreject.slotToHash
  · refine (h.cast delivery.2).congr haccept.nodes ?_
    rw [haccept.slotToHash, slotToHash_cast]

theorem Grounded.delivery {rank : BlockHash → ℕ} (h : Grounded t rank)
    {delivery : IterationOrder × Vote} (hstep : t.vote C delivery = some t') :
    ∃ rank', Grounded t' rank' := by
  obtain hreject | haccept := vote_cases hstep
  · exact ⟨rank, h.reject hreject⟩
  · exact h.accept haccept

theorem Grounded.delivery_returns {rank : BlockHash → ℕ} (h : Grounded t rank) (C : Crypto)
    (delivery : IterationOrder × Vote) : ∃ t', t.vote C delivery = some t' := by
  rw [← Option.isSome_iff_exists, Tower.vote, Option.isSome_map]
  exact h.processVote_isSome delivery.1 delivery.2

theorem agrees_vote_iff (h : Rooted t) (hagree : Agrees t) {delivery : IterationOrder × Vote}
    (hreturns : ∃ t', t.vote C delivery = some t') :
    (True ∧ ∀ t', t.vote C delivery = some t' → Agrees t') ↔ agreesWithParent C t delivery := by
  obtain ⟨t', ht'⟩ := hreturns
  have hone : (True ∧ ∀ u, t.vote C delivery = some u → Agrees u) ↔ Agrees t' := by
    rw [true_and, ht']
    exact ⟨fun hall => hall t' rfl, fun ha u hu => Option.some.inj hu ▸ ha⟩
  rw [hone, agreesWithParent]
  obtain hreject | haccept := vote_cases ht'
  · refine iff_of_true (hagree.congr hreject.nodes) fun hadmits => ?_
    rw [hreject.refused] at hadmits
    cases hadmits
  · rw [← agrees_cast_iff h hagree]
    refine ⟨fun ha _ => ha.congr haccept.nodes.symm, fun hcast => ?_⟩
    exact (hcast haccept.admitted).congr haccept.nodes

end Votes

section Runs

theorem rooted_of_unvoted {t : Tower} (h : Unvoted t) : Rooted t := by
  refine ⟨?_, ?_, ?_, ?_, ?_⟩ <;> simp [childrenOf, parentOf, h.nodes, h.slotToHash]

theorem agrees_of_unvoted {t : Tower} (h : Unvoted t) : Agrees t := by
  simp [Agrees, childrenOf, parentOf, h.nodes]

theorem links_agree (C : Crypto) (genesisSlot : UInt64)
    (registrations : List (ValidatorId × UInt64)) (deliveries : List (IterationOrder × Vote)) :
    Throughout (vote C) LinksAgree (fun _ _ => True) (registered genesisSlot registrations)
        deliveries ↔
      Respects (vote C) (agreesWithParent C) (registered genesisSlot registrations) deliveries := by
  have hunvoted := unvoted_registered genesisSlot registrations
  refine Throughout.iff_respects (I := fun t => Rooted t ∧ ∃ rank, Grounded t rank) ?_ ?_
    ⟨rooted_of_unvoted hunvoted, _, .of_unvoted hunvoted⟩
    ((rooted_of_unvoted hunvoted).linksAgree_iff.mpr (agrees_of_unvoted hunvoted))
  · rintro t delivery t' ⟨hrooted, rank, hgrounded⟩ hstep
    exact ⟨hrooted.delivery hstep, hgrounded.delivery hstep⟩
  · rintro t delivery ⟨hrooted, rank, hgrounded⟩ hlinks
    rw [← agrees_vote_iff hrooted (hrooted.linksAgree_iff.mp hlinks)
      (hgrounded.delivery_returns C delivery)]
    refine and_congr_right fun _ => forall_congr' fun t' => forall_congr' fun hstep => ?_
    exact (hrooted.delivery hstep).linksAgree_iff

def reparented : List (IterationOrder × Vote) :=
  [(.byKey, ballot 1 1 1 none), (.byKey, ballot 1 2 2 (some 1)), (.byKey, ballot 2 3 3 none),
    (.byKey, ballot 3 4 2 (some 3))]

theorem reparented_block_has_two_parents :
    (∃ t c p, reparented.foldlM (vote acceptingCrypto) (registered 0 []) = some t ∧
        t.nodes.lookup (Bytes32.splat 2) = some c ∧ t.nodes.lookup (Bytes32.splat 3) = some p ∧
        c.blockHash ∈ p.children ∧ c.parentHash = some (Bytes32.splat 1)) ∧
      ¬Throughout (vote acceptingCrypto) LinksAgree (fun _ _ => True) (registered 0 [])
        reparented := by
  have hdata : ((reparented.foldlM (vote acceptingCrypto) (registered 0 [])).bind fun t =>
      (t.nodes.lookup (Bytes32.splat 2)).bind fun c =>
        (t.nodes.lookup (Bytes32.splat 3)).map fun p =>
          (decide (c.blockHash ∈ p.children), c.parentHash, p.blockHash)) =
      some (true, some (Bytes32.splat 1), Bytes32.splat 3) := by decide +kernel
  obtain ⟨t, hrun, hnodes⟩ := Option.bind_eq_some_iff.mp hdata
  obtain ⟨c, hc, hnode⟩ := Option.bind_eq_some_iff.mp hnodes
  obtain ⟨p, hp, heq⟩ := Option.map_eq_some_iff.mp hnode
  simp only [Prod.mk.injEq, decide_eq_true_eq] at heq
  obtain ⟨hchild, hparent, hhash⟩ := heq
  refine ⟨⟨t, c, p, hrun, hc, hp, hchild, hparent⟩, fun h => ?_⟩
  have hlink := ((h.final hrun).links _ c _ p hc hp).mp hchild
  rw [hparent, hhash] at hlink
  exact absurd hlink (by decide +kernel)

end Runs

end Tower

end TrustNode.Consensus
