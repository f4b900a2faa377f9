import TrustNode.Consensus.Tally

namespace TrustNode.Consensus

namespace Tower

section Conditions

def matchesNode (t : Tower) (vote : Vote) : Prop :=
  ∀ n ∈ t.nodes.lookup vote.blockHash, n.slot = vote.slot ∧ n.parentSlot = vote.parentSlot

def buildsOnOneBlock (t : Tower) (vote : Vote) : Prop :=
  ∀ p ∈ vote.parentSlot, p < vote.slot ∧
    ∀ hash ∈ t.nodes.keys, ∀ n ∈ t.nodes.lookup hash, n.slot = p →
      t.slotToHash.lookup p = some hash

def notAwaited (t : Tower) (vote : Vote) : Prop :=
  ∀ hash ∈ t.nodes.keys, ∀ n ∈ t.nodes.lookup hash, n.parentSlot = some vote.slot →
    n.parentHash = some vote.blockHash

def soleBlockInSlot (t : Tower) (vote : Vote) : Prop :=
  ∀ hash ∈ t.slotToHash.lookup vote.slot, hash = vote.blockHash

def linkable (C : Crypto) (t : Tower) (vote : Vote) : Prop :=
  t.admits C vote = true → matchesNode t vote ∧ buildsOnOneBlock t vote ∧ notAwaited t vote

def orderly (C : Crypto) (t : Tower) (vote : Vote) : Prop :=
  linkable C t vote ∧ (t.admits C vote = true → soleBlockInSlot t vote)

def decidableForallNode (t : Tower) (P : BlockHash → TowerNode → Prop)
    [∀ hash n, Decidable (P hash n)] :
    Decidable (∀ hash ∈ t.nodes.keys, ∀ n ∈ t.nodes.lookup hash, P hash n) :=
  @Finset.decidableDforallFinset _ _ _ fun hash _ =>
    Option.decidableForallMem (t.nodes.lookup hash)

instance (t : Tower) (vote : Vote) : Decidable (matchesNode t vote) :=
  Option.decidableForallMem (t.nodes.lookup vote.blockHash)

instance (t : Tower) (vote : Vote) : Decidable (buildsOnOneBlock t vote) :=
  @Option.decidableForallMem _ _
    (fun p => @instDecidableAnd _ _ _
      (t.decidableForallNode fun hash n => n.slot = p → t.slotToHash.lookup p = some hash))
    vote.parentSlot

instance (t : Tower) (vote : Vote) : Decidable (notAwaited t vote) :=
  t.decidableForallNode fun _ n =>
    n.parentSlot = some vote.slot → n.parentHash = some vote.blockHash

instance (t : Tower) (vote : Vote) : Decidable (soleBlockInSlot t vote) :=
  Option.decidableForallMem (t.slotToHash.lookup vote.slot)

instance (C : Crypto) (t : Tower) (vote : Vote) : Decidable (linkable C t vote) :=
  inferInstanceAs (Decidable (_ → _ ∧ _ ∧ _))

instance (C : Crypto) (t : Tower) (vote : Vote) : Decidable (orderly C t vote) :=
  inferInstanceAs (Decidable (_ ∧ (_ → _)))

end Conditions

section Links

def Extends (votes : List Vote) (child parent : BlockHash) : Prop :=
  ∃ a ∈ votes, ∃ b ∈ votes, a.blockHash = child ∧ a.parentSlot = some b.slot ∧ b.blockHash = parent

structure Unambiguous (votes : List Vote) : Prop where
  block : ∀ a ∈ votes, ∀ b ∈ votes, a.blockHash = b.blockHash →
    a.slot = b.slot ∧ a.parentSlot = b.parentSlot
  parent : ∀ a ∈ votes, ∀ b ∈ votes, ∀ c ∈ votes, a.parentSlot = some b.slot → b.slot = c.slot →
    b.blockHash = c.blockHash
  earlier : ∀ a ∈ votes, ∀ p ∈ a.parentSlot, p < a.slot

structure Linked (votes : List Vote) (t : Tower) : Prop extends Tallied votes t,
    Unambiguous votes where
  located : ∀ slot hash, t.slotToHash.lookup slot = some hash →
    ∃ a ∈ votes, a.slot = slot ∧ a.blockHash = hash
  placed : ∀ a ∈ votes, ∃ hash, t.slotToHash.lookup a.slot = some hash
  slots : ∀ a ∈ votes, ∀ n, t.nodes.lookup a.blockHash = some n →
    n.slot = a.slot ∧ n.parentSlot = a.parentSlot
  parents : ∀ hash n, t.nodes.lookup hash = some n → ∀ p,
    n.parentHash = some p ↔ Extends votes hash p
  children : ∀ hash n, t.nodes.lookup hash = some n → ∀ c,
    c ∈ n.children ↔ Extends votes c hash

namespace Linked

variable {C : Crypto} {order : IterationOrder} {votes : List Vote} {t t' : Tower} {vote : Vote}

theorem of_unvoted (h : Unvoted t) : Linked [] t := by
  have hnone : ∀ hash n, t.nodes.lookup hash ≠ some n := by simp [h.nodes]
  have hempty : ∀ a, a ∉ ([] : List Vote) := fun a => List.not_mem_nil
  exact ⟨.of_unvoted h, ⟨fun a ha => absurd ha (hempty a), fun a ha => absurd ha (hempty a),
      fun a ha => absurd ha (hempty a)⟩,
    fun slot hash hslot => by simp [h.slotToHash] at hslot, fun a ha => absurd ha (hempty a),
    fun a ha => absurd ha (hempty a), fun hash n hn => absurd hn (hnone hash n),
    fun hash n hn => absurd hn (hnone hash n)⟩

theorem node_of_mem (h : Linked votes t) {a : Vote} (ha : a ∈ votes) :
    ∃ n, t.nodes.lookup a.blockHash = some n ∧ a.blockHash ∈ t.nodes.keys ∧ n.slot = a.slot ∧
      n.parentSlot = a.parentSlot := by
  have hmem := (h.known a.blockHash).mpr ⟨a, ha, rfl⟩
  obtain ⟨n, hn⟩ := Finmap.mem_iff.mp hmem
  exact ⟨n, hn, Finmap.mem_keys.mpr hmem, h.slots a ha n hn⟩

theorem awaited (h : Linked votes t) (hlate : notAwaited t vote) {a : Vote} (ha : a ∈ votes)
    (hparent : a.parentSlot = some vote.slot) :
    ∃ b ∈ votes, b.slot = vote.slot ∧ b.blockHash = vote.blockHash := by
  obtain ⟨n, hn, hkey, -, hn'⟩ := h.node_of_mem ha
  have hlinked := hlate a.blockHash hkey n hn (hn'.trans hparent)
  obtain ⟨a', ha', b, hb, hhash, hslot, hblock⟩ := (h.parents _ n hn _).mp hlinked
  have hsame := (h.block a' ha' a ha hhash).2
  rw [hslot, hparent] at hsame
  exact ⟨b, hb, Option.some.inj hsame, hblock⟩

theorem same_block (h : Linked votes t) (hmatch : matchesNode t vote) {a : Vote} (ha : a ∈ votes)
    (hhash : a.blockHash = vote.blockHash) :
    a.slot = vote.slot ∧ a.parentSlot = vote.parentSlot := by
  obtain ⟨n, hn, -, hslot, hparent⟩ := h.node_of_mem ha
  rw [hhash] at hn
  rw [← hslot, ← hparent]
  exact hmatch n hn

theorem blockHash_of_awaited (h : Linked votes t) (hlate : notAwaited t vote) {a b : Vote}
    (ha : a ∈ votes) (hb : b ∈ votes) (hparent : a.parentSlot = some vote.slot)
    (hslot : b.slot = vote.slot) : b.blockHash = vote.blockHash := by
  obtain ⟨c, hc, hcslot, hchash⟩ := h.awaited hlate ha hparent
  rw [← hchash]
  exact h.parent a ha b hb c hc (by rw [hparent, hslot]) (hslot.trans hcslot.symm)

theorem parent_located (h : Linked votes t) (hbuild : buildsOnOneBlock t vote) {b : Vote}
    (hb : b ∈ votes ++ [vote]) (hparent : vote.parentSlot = some b.slot) :
    t.slotToHash.lookup b.slot = some b.blockHash := by
  obtain ⟨hlt, hone⟩ := hbuild b.slot hparent
  rcases List.mem_append.mp hb with hold | hlast
  · obtain ⟨n, hn, hkey, hslot, -⟩ := h.node_of_mem hold
    exact hone b.blockHash hkey n hn hslot
  · rw [List.mem_singleton.mp hlast] at hlt
    exact absurd hlt (UInt64.lt_irrefl _)

theorem unambiguous_append (h : Linked votes t) (hmatch : matchesNode t vote)
    (hbuild : buildsOnOneBlock t vote) (hlate : notAwaited t vote) :
    Unambiguous (votes ++ [vote]) := by
  refine ⟨fun a ha b hb hhash => ?_, fun a ha b hb c hc hparent hslot => ?_, fun a ha p hp => ?_⟩
  · rcases List.mem_append.mp ha with hold | hlast <;>
      rcases List.mem_append.mp hb with hbold | hblast
    · exact h.block a hold b hbold hhash
    · obtain rfl := List.mem_singleton.mp hblast
      exact h.same_block hmatch hold hhash
    · obtain rfl := List.mem_singleton.mp hlast
      obtain ⟨hslot, hparent⟩ := h.same_block hmatch hbold hhash.symm
      exact ⟨hslot.symm, hparent.symm⟩
    · obtain rfl := List.mem_singleton.mp hlast
      obtain rfl := List.mem_singleton.mp hblast
      exact ⟨rfl, rfl⟩
  · rcases List.mem_append.mp ha with hold | hlast
    · rcases List.mem_append.mp hb with hbold | hblast <;>
        rcases List.mem_append.mp hc with hcold | hclast
      · exact h.parent a hold b hbold c hcold hparent hslot
      · obtain rfl := List.mem_singleton.mp hclast
        exact h.blockHash_of_awaited hlate hold hbold (by rw [hparent, hslot]) hslot
      · obtain rfl := List.mem_singleton.mp hblast
        exact (h.blockHash_of_awaited hlate hold hcold hparent hslot.symm).symm
      · rw [List.mem_singleton.mp hblast, List.mem_singleton.mp hclast]
    · obtain rfl := List.mem_singleton.mp hlast
      have hb' := h.parent_located hbuild hb hparent
      have hc' := h.parent_located hbuild hc (by rw [hparent, hslot])
      rw [hslot, hc'] at hb'
      exact (Option.some.inj hb').symm
  · rcases List.mem_append.mp ha with hold | hlast
    · exact h.earlier a hold p hp
    · rw [List.mem_singleton.mp hlast] at hp ⊢
      exact (hbuild p hp).1

theorem extends_append (h : Linked votes t) (hfit : Unambiguous (votes ++ [vote]))
    (hlate : notAwaited t vote) {child parent : BlockHash} :
    Extends (votes ++ [vote]) child parent ↔
      Extends votes child parent ∨
        child = vote.blockHash ∧ ∃ b ∈ votes, vote.parentSlot = some b.slot ∧
          b.blockHash = parent := by
  have hvote : vote ∈ votes ++ [vote] := List.mem_append_right _ (List.mem_singleton_self vote)
  constructor
  · rintro ⟨a, ha, b, hb, rfl, hparent, rfl⟩
    rcases List.mem_append.mp ha with hold | hnew
    · left
      rcases List.mem_append.mp hb with hbold | hbnew
      · exact ⟨a, hold, b, hbold, rfl, hparent, rfl⟩
      · obtain rfl := List.mem_singleton.mp hbnew
        obtain ⟨c, hc, hslot, hhash⟩ := h.awaited hlate hold hparent
        exact ⟨a, hold, c, hc, rfl, by rw [hparent, hslot], hhash⟩
    · right
      obtain rfl := List.mem_singleton.mp hnew
      rcases List.mem_append.mp hb with hbold | hbnew
      · exact ⟨rfl, b, hbold, hparent, rfl⟩
      · obtain rfl := List.mem_singleton.mp hbnew
        exact absurd (hfit.earlier _ ha _ hparent) (UInt64.lt_irrefl _)
  · rintro (⟨a, ha, b, hb, hrest⟩ | ⟨rfl, b, hb, hparent, rfl⟩)
    · exact ⟨a, List.mem_append_left _ ha, b, List.mem_append_left _ hb, hrest⟩
    · exact ⟨vote, hvote, b, List.mem_append_left _ hb, rfl, hparent, rfl⟩

theorem parentAfter_eq (hfit : Unambiguous (votes ++ [vote])) :
    t.parentAfter vote = (t.freshNode vote).parentHash := by
  unfold parentAfter freshNode
  cases hp : vote.parentSlot with
  | none => rfl
  | some p =>
    have hne : p ≠ vote.slot := by
      rintro rfl
      exact UInt64.lt_irrefl _
        (hfit.earlier vote (List.mem_append_right _ (List.mem_singleton_self vote)) _ hp)
    rw [Option.bind_some, Option.bind_some, Table.lookup_insert, if_neg hne]

theorem parentAfter_eq_some (h : Linked votes t) (hfit : Unambiguous (votes ++ [vote]))
    {p : BlockHash} :
    t.parentAfter vote = some p ↔
      ∃ b ∈ votes, vote.parentSlot = some b.slot ∧ b.blockHash = p := by
  rw [parentAfter_eq hfit, freshNode, Option.bind_eq_some_iff]
  constructor
  · rintro ⟨slot, hslot, hlookup⟩
    obtain ⟨b, hb, rfl, rfl⟩ := h.located slot p hlookup
    exact ⟨b, hb, hslot, rfl⟩
  · rintro ⟨b, hb, hslot, rfl⟩
    obtain ⟨hash, hlookup⟩ := h.placed b hb
    obtain ⟨a, ha, hsame, rfl⟩ := h.located _ _ hlookup
    have hhash := hfit.parent vote (List.mem_append_right _ (List.mem_singleton_self vote))
      b (List.mem_append_left _ hb) a (List.mem_append_left _ ha) hslot hsame.symm
    exact ⟨b.slot, hslot, by rw [hlookup, hhash]⟩

theorem extends_accept (h : Linked votes t) (hfit : Unambiguous (votes ++ [vote]))
    (hlate : notAwaited t vote) {child parent : BlockHash} :
    Extends (votes ++ [vote]) child parent ↔
      Extends votes child parent ∨
        t.parentAfter vote = some parent ∧ child = vote.blockHash := by
  rw [h.extends_append hfit hlate, h.parentAfter_eq_some hfit, and_comm (a := child = _)]

theorem baseNode_spec (h : Linked votes t) (hfit : Unambiguous (votes ++ [vote])) :
    (t.baseNode vote).slot = vote.slot ∧ (t.baseNode vote).parentSlot = vote.parentSlot ∧
      (∀ p, (t.baseNode vote).parentHash = some p ↔
        Extends votes vote.blockHash p ∨ t.parentAfter vote = some p) ∧
      ∀ c, c ∈ (t.baseNode vote).children ↔ Extends votes c vote.blockHash := by
  have hvote : vote ∈ votes ++ [vote] := List.mem_append_right _ (List.mem_singleton_self vote)
  rcases t.baseNode_cases vote with ⟨hnone, hfresh⟩ | hold
  · have hunknown : ∀ a ∈ votes, a.blockHash ≠ vote.blockHash := by
      intro a ha hhash
      obtain ⟨n, hn, -⟩ := h.node_of_mem ha
      rw [hhash, hnone] at hn
      cases hn
    rw [hfresh]
    refine ⟨rfl, rfl, fun p => ?_, fun c => ?_⟩
    · rw [← parentAfter_eq hfit]
      refine (or_iff_right ?_).symm
      rintro ⟨a, ha, b, hb, hhash, -⟩
      exact hunknown a ha hhash
    · refine iff_of_false List.not_mem_nil ?_
      rintro ⟨a, ha, b, hb, -, -, hhash⟩
      exact hunknown b hb hhash
  · obtain ⟨a, ha, hhash⟩ := (h.known vote.blockHash).mp (Finmap.mem_of_lookup_eq_some hold)
    obtain ⟨hslot, hparent⟩ := hfit.block a (List.mem_append_left _ ha) vote hvote hhash
    obtain ⟨hslot', hparent'⟩ := h.slots a ha _ (hhash ▸ hold)
    refine ⟨hslot'.trans hslot, hparent'.trans hparent, fun p => ?_, h.children _ _ hold⟩
    rw [h.parents _ _ hold]
    refine (or_iff_left_of_imp fun hafter => ?_).symm
    obtain ⟨b, hb, hbuilt, hblock⟩ := (h.parentAfter_eq_some hfit).mp hafter
    exact ⟨a, ha, b, hb, hhash, hparent.trans hbuilt, hblock⟩

theorem accept (h : Linked votes t) (hlinkable : linkable C t vote)
    (hstep : Accepts C order t vote t') : Linked (votes ++ [vote]) t' := by
  obtain ⟨hmatch, hbuild, hlate⟩ := hlinkable hstep.admitted
  have hfit := h.unambiguous_append hmatch hbuild hlate
  have hvote : vote ∈ votes ++ [vote] := List.mem_append_right _ (List.mem_singleton_self vote)
  obtain ⟨hslot, hparentSlot, hparents, hchildren⟩ := h.baseNode_spec hfit
  refine ⟨h.toTallied.accept hstep, hfit, fun slot hash hlookup => ?_, fun a ha => ?_,
    fun a ha n hn => ?_, fun hash n hn p => ?_, fun hash n hn c => ?_⟩
  · rw [hstep.slotToHash, Table.lookup_insert] at hlookup
    split at hlookup
    · next heq => exact ⟨vote, hvote, heq.symm, Option.some.inj hlookup⟩
    · obtain ⟨a, ha, hrest⟩ := h.located slot hash hlookup
      exact ⟨a, List.mem_append_left _ ha, hrest⟩
  · rw [hstep.slotToHash, Table.lookup_insert]
    split
    · exact ⟨vote.blockHash, rfl⟩
    · next hne =>
      rcases List.mem_append.mp ha with hold | hnew
      · exact h.placed a hold
      · rw [List.mem_singleton.mp hnew] at hne
        exact absurd rfl hne
  · obtain ⟨m, rfl, ⟨hhash, rfl⟩ | ⟨hne, hm⟩⟩ := hstep.lookup_eq_some hn
    · rw [slot_linked, parentSlot_linked, slot_votedNode, parentSlot_votedNode, hslot, hparentSlot]
      exact hfit.block vote hvote a ha hhash.symm
    · rw [slot_linked, parentSlot_linked]
      rcases List.mem_append.mp ha with hold | hnew
      · exact h.slots a hold m hm
      · rw [List.mem_singleton.mp hnew] at hne
        exact absurd rfl hne
  · rw [h.extends_accept hfit hlate]
    obtain ⟨m, rfl, ⟨rfl, rfl⟩ | ⟨hne, hm⟩⟩ := hstep.lookup_eq_some hn
    · rw [parentHash_linked, parentHash_votedNode, hparents, and_iff_left rfl]
    · rw [parentHash_linked, h.parents hash m hm, or_iff_left fun hc => hne hc.2]
  · rw [h.extends_accept hfit hlate]
    obtain ⟨m, rfl, ⟨rfl, rfl⟩ | ⟨hne, hm⟩⟩ := hstep.lookup_eq_some hn
    · rw [mem_children_linked, children_votedNode, hchildren]
    · rw [mem_children_linked, h.children hash m hm]

theorem reject (h : Linked votes t) (hstep : Rejects C t vote t') : Linked votes t' := by
  refine ⟨h.toTallied.reject hstep, h.toUnambiguous, ?_, ?_, ?_, ?_, ?_⟩
  · rw [hstep.slotToHash]
    exact h.located
  · rw [hstep.slotToHash]
    exact h.placed
  · rw [hstep.nodes]
    exact h.slots
  · rw [hstep.nodes]
    exact h.parents
  · rw [hstep.nodes]
    exact h.children

theorem run {start : Tower} {results : List (Vote × Bool)} (hstart : Linked [] start)
    (hrun : Votes C (linkable C) start results t) : Linked (accepted results) t :=
  hrun.invariant_accepted hstart (fun h hstep => h.reject hstep) fun h hallowed hstep =>
    h.accept hallowed hstep

end Linked

end Links

end Tower

end TrustNode.Consensus
