import TrustNode.Base.FirstWins
import TrustNode.Gossip.Isolation

namespace TrustNode.Gossip

open FirstWins

def pushed (msgs : List GossipMessage) : List (Bytes32 × (Bytes × String)) :=
  msgs.filterMap fun msg => msg.pushData.map fun data => (data.id, data.content, data.kind)

namespace Crds

def view (s : Crds) (id : Bytes32) : Option (Bytes × String) :=
  (s.entries.lookup id).map fun e => (e.data.content, e.data.kind)

theorem insertPush_with_room {now : UInt64} {order : Arrangement (Bytes32 × UInt64)}
    {msg : GossipMessage} {data : PushData} {s : Crds} (hdata : msg.pushData = some data)
    (hroom : (s.entries.insert data.id ⟨data, now, msg.sender, 0⟩).keys.card ≤ s.maxEntries) :
    (s.insertPush now order msg).2 =
      if data.id ∈ s.entries then s
      else { s with
        entries := s.entries.insert data.id ⟨data, now, msg.sender, 0⟩
        totalInserted := s.totalInserted + 1 } := by
  simp only [insertPush, hdata]
  split_ifs with hmem hfull
  · rfl
  · exact absurd hroom (not_le.mpr hfull)
  · rfl

theorem view_insertPush {now : UInt64} {order : Arrangement (Bytes32 × UInt64)}
    {msg : GossipMessage} {data : PushData} {s : Crds} (hdata : msg.pushData = some data)
    (hroom : (s.entries.insert data.id ⟨data, now, msg.sender, 0⟩).keys.card ≤ s.maxEntries)
    (id : Bytes32) :
    (s.insertPush now order msg).2.view id =
      (s.view id).or (if data.id = id then some (data.content, data.kind) else none) := by
  rw [insertPush_with_room hdata hroom]
  split_ifs with hmem hid hid
  · subst hid
    obtain ⟨e, he⟩ := Option.isSome_iff_exists.mp (Finmap.lookup_isSome.mpr hmem)
    rw [view, he]
    rfl
  · rw [Option.or_none]
  · subst hid
    rw [view, view, Table.lookup_insert, if_pos rfl, Finmap.lookup_eq_none.mpr hmem]
    rfl
  · rw [view, view, Table.lookup_insert, if_neg (Ne.symm hid), Option.or_none]

end Crds

namespace GossipProtocol

variable (C : Crypto) (toJson : GossipPayload → Bytes)

structure IsPush (msg : GossipMessage) : Prop where
  verified : msg.verifySignature C toJson = true
  messageType : msg.messageType = .push
  payload : ∃ data, msg.pushData = some data

theorem crds_dispatch_push {msg : GossipMessage} (hpush : msg.messageType = .push) (env : Ambient)
    (p : GossipProtocol) :
    (p.dispatch toJson env msg).crds =
      (p.crds.insertPush (env.now 0) (env.pruneOrder 0) msg).2 := by
  obtain ⟨msgs, heq, -⟩ := handlePush_eq toJson env msg p
  rw [dispatch, hpush]
  exact congrArg GossipProtocol.crds heq

theorem crds_handleMessage_push {msg : GossipMessage} (hpush : IsPush C toJson msg) (env : Ambient)
    (p : GossipProtocol) :
    (p.handleMessage C toJson env msg).crds =
      (p.crds.insertPush (env.now 0) (env.pruneOrder 0) msg).2 := by
  rw [handleMessage, hpush.verified]
  exact crds_dispatch_push toJson hpush.messageType env _

theorem handleMessage_push_with_room {ids : Finset Bytes32} {msg : GossipMessage}
    (hpush : IsPush C toJson msg) (env : Ambient) {data : PushData} (hdata : msg.pushData = some data)
    {p : GossipProtocol} (hid : data.id ∈ ids) (hkeys : p.crds.entries.keys ⊆ ids)
    (hfits : ids.card ≤ p.crds.maxEntries) :
    (p.handleMessage C toJson env msg).crds.entries.keys ⊆ ids ∧
      (p.handleMessage C toJson env msg).crds.maxEntries = p.crds.maxEntries ∧
      ∀ id, (p.handleMessage C toJson env msg).crds.view id =
        (p.crds.view id).or (if data.id = id then some (data.content, data.kind) else none) := by
  have hinsert : (p.crds.entries.insert data.id ⟨data, env.now 0, msg.sender, 0⟩).keys ⊆ ids := by
    rw [Table.keys_insert]
    exact Finset.insert_subset hid hkeys
  have hroom := (Finset.card_le_card hinsert).trans hfits
  rw [crds_handleMessage_push C toJson hpush env p]
  refine ⟨?_, ?_, fun id => ?_⟩
  · rw [Crds.insertPush_with_room hdata hroom]
    split_ifs
    · exact hkeys
    · exact hinsert
  · rw [Crds.insertPush_with_room hdata hroom]
    split_ifs
    · rfl
    · rfl
  · rw [Crds.view_insertPush hdata hroom]

theorem view_handleAll (ids : Finset Bytes32) {l : List (Ambient × GossipMessage)}
    (hpush : ∀ e ∈ l, IsPush C toJson e.2) (hids : ∀ e ∈ pushed (l.map Prod.snd), e.1 ∈ ids)
    {p : GossipProtocol} (hkeys : p.crds.entries.keys ⊆ ids) (hfits : ids.card ≤ p.crds.maxEntries) :
    (p.handleAll C toJson l).crds.view =
      fun id => (p.crds.view id).or (firstOf (pushed (l.map Prod.snd)) id) := by
  induction l generalizing p with
  | nil =>
    funext id
    exact (Option.or_none).symm
  | cons e rest ih =>
    obtain ⟨he, hrest⟩ := List.forall_mem_cons.mp hpush
    obtain ⟨data, hdata⟩ := he.payload
    have hcons : pushed ((e :: rest).map Prod.snd) =
        (data.id, data.content, data.kind) :: pushed (rest.map Prod.snd) := by
      simp [pushed, hdata]
    rw [hcons] at hids ⊢
    obtain ⟨hid, hids⟩ := List.forall_mem_cons.mp hids
    obtain ⟨hkeys', hmax, hview⟩ :=
      handleMessage_push_with_room C toJson he e.1 hdata hid hkeys hfits
    have htail := ih hrest hids hkeys' (hmax ▸ hfits)
    funext id
    calc (p.handleAll C toJson (e :: rest)).crds.view id
        = ((p.handleMessage C toJson e.1 e.2).crds.view id).or
            (firstOf (pushed (rest.map Prod.snd)) id) := congrFun htail id
      _ = ((p.crds.view id).or (if data.id = id then some (data.content, data.kind) else none)).or
            (firstOf (pushed (rest.map Prod.snd)) id) := by rw [hview]
      _ = (p.crds.view id).or
            (firstOf ((data.id, data.content, data.kind) :: pushed (rest.map Prod.snd)) id) := by
          rw [Option.or_assoc, firstOf_cons]
          split_ifs <;> simp

structure Fresh (msgs : List GossipMessage) (p : GossipProtocol) : Prop where
  entries : p.crds.entries = ∅
  fits : ((pushed msgs).map Prod.fst).toFinset.card ≤ p.crds.maxEntries

def Covers (msgs : List GossipMessage) (l : List (Ambient × GossipMessage)) : Prop :=
  ∀ msg, msg ∈ l.map Prod.snd ↔ msg ∈ msgs

theorem mem_pushed_covers {msgs : List GossipMessage} {l : List (Ambient × GossipMessage)}
    (h : Covers msgs l) (e : Bytes32 × (Bytes × String)) :
    e ∈ pushed (l.map Prod.snd) ↔ e ∈ pushed msgs := by
  simp only [pushed, List.mem_filterMap, h _]

theorem view_of_covers {msgs : List GossipMessage} (hpush : ∀ msg ∈ msgs, IsPush C toJson msg)
    {p : GossipProtocol} (hfresh : Fresh msgs p) {l : List (Ambient × GossipMessage)}
    (hl : Covers msgs l) :
    (p.handleAll C toJson l).crds.view = firstOf (pushed (l.map Prod.snd)) := by
  have hview := view_handleAll C toJson ((pushed msgs).map Prod.fst).toFinset (l := l) (p := p)
    (fun e he => hpush e.2 ((hl e.2).mp (List.mem_map_of_mem he)))
    (fun e he => List.mem_toFinset.mpr (List.mem_map_of_mem ((mem_pushed_covers hl e).mp he)))
    (by simp [hfresh.entries]) hfresh.fits
  rw [hview]
  funext id
  rw [Crds.view, hfresh.entries]
  rfl

theorem exists_covering {msgs : List GossipMessage} {e : Bytes32 × (Bytes × String)}
    (he : e ∈ pushed msgs) :
    ∃ l, Covers msgs l ∧ pushed (l.map Prod.snd) = e :: pushed msgs := by
  obtain ⟨msg, hmsg, hdata⟩ := List.mem_filterMap.mp he
  refine ⟨(msg :: msgs).map (calm, ·), fun m => ?_, ?_⟩
  · rw [List.map_map]
    simp only [Function.comp_def, List.map_id', List.mem_cons]
    exact ⟨fun h => h.elim (fun heq => heq ▸ hmsg) id, Or.inr⟩
  · rw [List.map_map]
    simp only [Function.comp_def, List.map_id', pushed, List.filterMap_cons, hdata]

theorem replicas_converge_iff (msgs : List GossipMessage)
    (hpush : ∀ msg ∈ msgs, IsPush C toJson msg) :
    (∀ p q, Fresh msgs p → Fresh msgs q → ∀ l l', Covers msgs l → Covers msgs l' →
        (p.handleAll C toJson l).crds.view = (q.handleAll C toJson l').crds.view) ↔
      Functional (pushed msgs) := by
  constructor
  · intro hconverge
    let p := GossipProtocol.new ⟨Bytes32.splat 0, id⟩
      (Crds.new ((pushed msgs).map Prod.fst).toFinset.card)
    have hp : Fresh msgs p := ⟨rfl, le_rfl⟩
    refine functional_iff.mpr fun e he e' he' => ?_
    obtain ⟨l, hl, hpushed⟩ := exists_covering he
    obtain ⟨l', hl', hpushed'⟩ := exists_covering he'
    rw [← hpushed, ← hpushed', ← view_of_covers C toJson hpush hp hl,
      ← view_of_covers C toJson hpush hp hl']
    exact hconverge p p hp hp l l' hl hl'
  · intro hfunctional p q hp hq l l' hl hl'
    rw [view_of_covers C toJson hpush hp hl, view_of_covers C toJson hpush hq hl',
      ← hfunctional.firstOf_congr fun e => (mem_pushed_covers hl e).symm,
      ← hfunctional.firstOf_congr fun e => (mem_pushed_covers hl' e).symm]

def pushOf (id : UInt8) (content : Bytes) : GossipMessage :=
  signedBy (Bytes32.splat 2) .push (.push ⟨Bytes32.splat id, content, "vote"⟩)

def emptyNode : GossipProtocol := .new ⟨Bytes32.splat 1, fun _ => List.replicate 64 0⟩ (Crds.new 2)

theorem replicas_converge_distinct_ids :
    let msgs := [pushOf 8 [1], pushOf 9 [2]]
    ∀ l l', Covers msgs l → Covers msgs l' →
      (emptyNode.handleAll acceptingCrypto GossipPayload.json l).crds.view =
        (emptyNode.handleAll acceptingCrypto GossipPayload.json l').crds.view := by
  intro msgs
  have hpush : ∀ msg ∈ msgs, IsPush acceptingCrypto GossipPayload.json msg :=
    List.forall_mem_cons.mpr ⟨⟨rfl, rfl, _, rfl⟩, List.forall_mem_singleton.mpr ⟨rfl, rfl, _, rfl⟩⟩
  have hfresh : Fresh msgs emptyNode := ⟨rfl, by decide +kernel⟩
  exact (replicas_converge_iff acceptingCrypto GossipPayload.json msgs hpush).mpr
    (by unfold Functional; decide +kernel) emptyNode emptyNode hfresh hfresh

theorem replicas_diverge_on_shared_id :
    let msgs := [pushOf 8 [1], pushOf 8 [2]]
    (∀ msg ∈ msgs, IsPush acceptingCrypto GossipPayload.json msg) ∧ Fresh msgs emptyNode ∧
      (emptyNode.handleAll acceptingCrypto GossipPayload.json (msgs.map (calm, ·))).crds.view
          (Bytes32.splat 8) ≠
        (emptyNode.handleAll acceptingCrypto GossipPayload.json (msgs.reverse.map (calm, ·))).crds.view
          (Bytes32.splat 8) :=
  ⟨List.forall_mem_cons.mpr ⟨⟨rfl, rfl, _, rfl⟩, List.forall_mem_singleton.mpr ⟨rfl, rfl, _, rfl⟩⟩,
    ⟨rfl, by decide +kernel⟩, by decide +kernel⟩

end GossipProtocol

end TrustNode.Gossip
