import TrustNode.Base.Table
import TrustNode.Consensus.Vote

namespace TrustNode.Consensus

structure ForkBlock where
  hash : BlockHash
  slot : UInt64
  parentHash : Option BlockHash
  timestamp : UInt64
  height : UInt64
  votingPower : UInt64
deriving DecidableEq

def ForkBlock.Outranks (block best : ForkBlock) : Prop :=
  best.votingPower < block.votingPower ∨
    block.votingPower = best.votingPower ∧ best.timestamp < block.timestamp

instance (block best : ForkBlock) : Decidable (block.Outranks best) :=
  inferInstanceAs (Decidable (_ ∨ _))

structure ForkChoice where
  blocks : Table BlockHash ForkBlock
  root : Option ForkBlock
  bestHead : Option ForkBlock
  slotBlocks : Table UInt64 (List BlockHash)

namespace ForkChoice

def new (genesis : ForkBlock) : ForkChoice where
  blocks := (∅ : Table BlockHash ForkBlock).insert genesis.hash genesis
  root := some genesis
  bestHead := some genesis
  slotBlocks := (∅ : Table UInt64 (List BlockHash)).insert genesis.slot [genesis.hash]

def addBlock (block : ForkBlock) (fc : ForkChoice) : ForkChoice where
  blocks := fc.blocks.insert block.hash block
  root := fc.root
  bestHead := fc.bestHead.map fun best => if block.Outranks best then block else best
  slotBlocks := fc.slotBlocks.insert block.slot
    ((fc.slotBlocks.lookup block.slot).getD [] ++ [block.hash])

def prune (beforeSlot : UInt64) (fc : ForkChoice) : ForkChoice :=
  { fc with blocks := fc.blocks.retain fun _ block => beforeSlot ≤ block.slot }

def heavier (best : Option ForkBlock) (block : ForkBlock) : Option ForkBlock :=
  best.elim (some block) fun b => if block.votingPower < b.votingPower then some b else some block

def walk (blocks : Table BlockHash ForkBlock) : ℕ → Option BlockHash → Option (List ForkBlock)
  | 0, _ => none
  | _ + 1, none => some []
  | fuel + 1, some hash =>
    match blocks.lookup hash with
    | none => some []
    | some block => (walk blocks fuel block.parentHash).map (block :: ·)

def chainFrom (fuel : ℕ) (fc : ForkChoice) (blockHash : BlockHash) : Option (List ForkBlock) :=
  (walk fc.blocks fuel (some blockHash)).map List.reverse

def forkWeight (fuel : ℕ) (fc : ForkChoice) (tipHash : BlockHash) : Option UInt64 :=
  (fc.chainFrom fuel tipHash).map fun chain => (chain.map ForkBlock.votingPower).foldl (· + ·) 0

inductive Call where
  | addBlock (block : ForkBlock)
  | prune (beforeSlot : UInt64)

def step (fc : ForkChoice) : Call → ForkChoice
  | .addBlock block => fc.addBlock block
  | .prune beforeSlot => fc.prune beforeSlot

def after (genesis : ForkBlock) (calls : List Call) : ForkChoice := calls.foldl step (new genesis)

section History

def history (genesis : ForkBlock) (calls : List Call) : List Call := .addBlock genesis :: calls

def addedBlock : Call → Option ForkBlock
  | .addBlock block => some block
  | .prune _ => none

def added (genesis : ForkBlock) (calls : List Call) : List ForkBlock :=
  (history genesis calls).filterMap addedBlock

theorem after_snoc (genesis : ForkBlock) (calls : List Call) (call : Call) :
    after genesis (calls ++ [call]) = (after genesis calls).step call := by
  rw [after, List.foldl_append]
  rfl

def Call.Spares (block : ForkBlock) : Call → Prop
  | .addBlock other => other.hash ≠ block.hash
  | .prune beforeSlot => beforeSlot ≤ block.slot

def Lasts (block : ForkBlock) (events : List Call) : Prop :=
  ∃ pre post, events = pre ++ .addBlock block :: post ∧ ∀ call ∈ post, call.Spares block

theorem lasts_snoc {block : ForkBlock} {events : List Call} {call : Call} :
    Lasts block (events ++ [call]) ↔
      call = .addBlock block ∨ call.Spares block ∧ Lasts block events := by
  constructor
  · rintro ⟨pre, post, hsplit, hspares⟩
    rcases List.eq_nil_or_concat post with rfl | ⟨post, last, rfl⟩
    · exact .inl (List.singleton_inj.mp (List.append_inj' hsplit rfl).2)
    · rw [List.concat_eq_append, List.forall_mem_append, List.forall_mem_singleton] at hspares
      rw [List.concat_eq_append, ← List.cons_append, ← List.append_assoc] at hsplit
      obtain ⟨hevents, hlast⟩ := List.append_inj' hsplit rfl
      obtain rfl := List.singleton_inj.mp hlast
      exact .inr ⟨hspares.2, pre, post, hevents, hspares.1⟩
  · rintro (rfl | ⟨hcall, pre, post, rfl, hspares⟩)
    · exact ⟨events, [], rfl, fun call hcall => absurd hcall List.not_mem_nil⟩
    · refine ⟨pre, post ++ [call], by rw [List.append_assoc, List.cons_append], ?_⟩
      exact List.forall_mem_append.mpr ⟨hspares, List.forall_mem_singleton.mpr hcall⟩

theorem lookup_step (fc : ForkChoice) (call : Call) (hash : BlockHash) (block : ForkBlock)
    (hkeyed : ∀ block, fc.blocks.lookup hash = some block → block.hash = hash) :
    (fc.step call).blocks.lookup hash = some block ↔
      block.hash = hash ∧
        (call = .addBlock block ∨ call.Spares block ∧ fc.blocks.lookup hash = some block) := by
  cases call with
  | addBlock other =>
    rw [step, addBlock, Table.lookup_insert, Call.addBlock.injEq, Call.Spares]
    split_ifs with hhash
    · rw [Option.some.injEq]
      constructor
      · rintro rfl
        exact ⟨hhash.symm, .inl rfl⟩
      · rintro ⟨rfl, rfl | ⟨hne, -⟩⟩
        · rfl
        · exact absurd hhash.symm hne
    · constructor
      · intro hblock
        have hsame := hkeyed block hblock
        exact ⟨hsame, .inr ⟨fun he => hhash (hsame.symm.trans he.symm), hblock⟩⟩
      · rintro ⟨rfl, rfl | ⟨-, hblock⟩⟩
        · exact absurd rfl hhash
        · exact hblock
  | prune beforeSlot =>
    rw [step, prune, Table.lookup_retain, Option.filter_eq_some_iff, Call.Spares, decide_eq_true_eq]
    constructor
    · rintro ⟨hblock, hslot⟩
      exact ⟨hkeyed block hblock, .inr ⟨hslot, hblock⟩⟩
    · rintro ⟨-, hcall | ⟨hslot, hblock⟩⟩
      · cases hcall
      · exact ⟨hblock, hslot⟩

theorem lookup_after (genesis : ForkBlock) (calls : List Call) (hash : BlockHash)
    (block : ForkBlock) :
    (after genesis calls).blocks.lookup hash = some block ↔
      block.hash = hash ∧ Lasts block (history genesis calls) := by
  induction calls using List.reverseRecOn generalizing block with
  | nil =>
    have hgenesis : Lasts block (history genesis []) ↔ Call.addBlock genesis = .addBlock block := by
      rw [history, ← List.nil_append [Call.addBlock genesis], lasts_snoc]
      refine or_iff_left ?_
      rintro ⟨-, pre, post, hsplit, -⟩
      exact List.append_ne_nil_of_right_ne_nil pre (List.cons_ne_nil _ _) hsplit.symm
    rw [hgenesis, after, List.foldl_nil, new, Table.lookup_insert, Call.addBlock.injEq]
    split_ifs with hhash
    · rw [Option.some.injEq]
      constructor
      · rintro rfl
        exact ⟨hhash.symm, rfl⟩
      · exact fun h => h.2
    · refine iff_of_false (by simp) ?_
      rintro ⟨rfl, rfl⟩
      exact hhash rfl
  | append_singleton calls call ih =>
    have hhistory : history genesis (calls ++ [call]) = history genesis calls ++ [call] := rfl
    rw [after_snoc, lookup_step _ _ _ _ fun block hblock => ((ih block).mp hblock).1, hhistory,
      lasts_snoc, ih]
    tauto

def Keyed (fc : ForkChoice) : Prop :=
  ∀ hash block, fc.blocks.lookup hash = some block → block.hash = hash

theorem keyed_after (genesis : ForkBlock) (calls : List Call) : (after genesis calls).Keyed :=
  fun hash block hblock => ((lookup_after genesis calls hash block).mp hblock).1

theorem mem_added_of_lasts {genesis block : ForkBlock} {calls : List Call}
    (h : Lasts block (history genesis calls)) : block ∈ added genesis calls := by
  obtain ⟨pre, post, hsplit, -⟩ := h
  rw [added, List.mem_filterMap]
  exact ⟨.addBlock block, hsplit ▸ List.mem_append_right pre List.mem_cons_self, rfl⟩

end History

def plainBlock (tag : UInt8) (slot : UInt64) (parent : Option BlockHash) (power : UInt64) :
    ForkBlock where
  hash := Bytes32.splat tag
  slot := slot
  parentHash := parent
  timestamp := slot * 400
  height := slot
  votingPower := power

end ForkChoice

end TrustNode.Consensus
