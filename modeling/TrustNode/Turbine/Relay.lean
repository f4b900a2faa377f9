import TrustNode.Net.Message
import TrustNode.Turbine.Neighborhoods
import TrustNode.Turbine.Propagate

namespace TrustNode.Turbine

open TrustNode.Gossip
open TrustNode.Net

namespace Neighborhood

def collect (tree : Neighborhood) : List ℕ → Except Panic (List TurbineNode)
  | [] => .ok []
  | idx :: rest =>
    match tree.nodes[idx]? with
    | none => .error .indexOutOfRange
    | some node => (tree.collect rest).map (node :: ·)

def find (tree : Neighborhood) (validator : Bytes32) : Option TurbineNode :=
  tree.nodes.find? fun n => n.validator = validator

def neighbors (tree : Neighborhood) (validator : Bytes32) : Except Panic (List TurbineNode) :=
  match tree.find validator with
  | some node => tree.collect (node.parent.toList ++ node.children)
  | none => .ok []

theorem mem_collect {tree : Neighborhood} {idxs : List ℕ} {nodes : List TurbineNode}
    (h : tree.collect idxs = .ok nodes) {node : TurbineNode} :
    node ∈ nodes ↔ ∃ idx ∈ idxs, tree.nodes[idx]? = some node := by
  induction idxs generalizing nodes with
  | nil =>
    obtain rfl := Except.ok.inj h
    simp
  | cons idx rest ih =>
    rw [collect] at h
    cases hidx : tree.nodes[idx]? with
    | none => rw [hidx] at h; cases h
    | some first =>
      rw [hidx] at h
      dsimp only at h
      cases hrest : tree.collect rest with
      | error e => rw [hrest] at h; cases h
      | ok others =>
        rw [hrest] at h
        obtain rfl := Except.ok.inj h
        rw [List.mem_cons, ih hrest, List.exists_mem_cons_iff, hidx, Option.some.injEq,
          eq_comm (a := node)]

theorem exists_collect {tree : Neighborhood} {idxs : List ℕ}
    (h : ∀ idx ∈ idxs, idx < tree.nodes.length) : ∃ nodes, tree.collect idxs = .ok nodes := by
  induction idxs with
  | nil => exact ⟨[], rfl⟩
  | cons idx rest ih =>
    obtain ⟨hidx, hrest⟩ := List.forall_mem_cons.mp h
    obtain ⟨nodes, hnodes⟩ := ih hrest
    rw [collect, List.getElem?_eq_getElem hidx, hnodes]
    exact ⟨_, rfl⟩

end Neighborhood

structure SendingStats where
  blocksPropagated : UInt64
  shredsSent : UInt64
  propagationErrors : UInt64

structure TurbineSender where
  neighborhood : Neighborhood
  validatorId : Bytes32
  coder : ErasureConfig
  signer : Option SigningKey
  shredSender : List (Bytes × List Shred)
  connected : Bool
  stats : SendingStats

def stamp (signer : Option SigningKey) (shred : Shred) : Shred :=
  match signer with
  | some key => shred.sign key
  | none => shred

namespace TurbineSender

def new (validatorId : Bytes32) (neighborhood : Neighborhood) (signer : Option SigningKey) :
    TurbineSender where
  neighborhood := neighborhood
  validatorId := validatorId
  coder := .defaultSolana
  signer := signer
  shredSender := []
  connected := true
  stats := ⟨0, 0, 0⟩

def send (targets : List TurbineNode) (shreds : List Shred) (p : TurbineSender) : TurbineSender :=
  if p.connected then
    { p with
      shredSender := p.shredSender ++ targets.map fun node => (node.validator.toList, shreds) }
  else p

def propagateBlock (C : Crypto) (blockData : Bytes) (slot : UInt64) (p : TurbineSender) :
    Except Panic TurbineSender :=
  match ErasureCoder.encode p.coder C blockData slot with
  | .error e => .error e
  | .ok encoded =>
    let shreds := encoded.map (stamp p.signer)
    match p.neighborhood.neighbors p.validatorId with
    | .error e => .error e
    | .ok neighbors =>
      .ok { p.send neighbors shreds with
        stats :=
          { blocksPropagated := p.stats.blocksPropagated + 1
            shredsSent := p.stats.shredsSent + UInt64.ofNat shreds.length
            propagationErrors := if p.connected then p.stats.propagationErrors
              else p.stats.propagationErrors + UInt64.ofNat neighbors.length } }

def forwardShreds (shreds : List Shred) (p : TurbineSender) : Except Panic TurbineSender :=
  match p.neighborhood.find p.validatorId with
  | none => .ok p
  | some node => (p.neighborhood.collect node.children).map (p.send · shreds)

end TurbineSender

def destination (dest : Bytes) : Option Bytes32 :=
  if h : dest.length = 32 then some ⟨dest, h⟩ else none

def transmit (J : Json NetMessage) (contacts : List ContactInfo) (out : Bytes × List Shred) :
    List (SocketAddr × Bytes) :=
  match destination out.1 with
  | none => []
  | some key =>
    match contacts.find? fun c => c.pubkey = key with
    | none => []
    | some contact =>
      out.2.filterMap fun shred =>
        ((NetMessage.shred shred).encode J.toVec).toOption.map fun bytes => (contact.tpu, bytes)

def receiveDatagram (C : Crypto) (J : Json NetMessage) (now : UInt64) (bytes : Bytes)
    (p : TurbinePropagator) : TurbinePropagator :=
  match NetMessage.decode J (bytes.take maxDatagram) with
  | .ok (.shred shred) => (p.receiveShred C now shred (Bytes32.splat 0)).2
  | .ok (.gossip _) => p
  | .error _ => p

structure Deployment where
  crypto : Crypto
  json : Json NetMessage
  tree : Bytes32 → Neighborhood
  signer : Bytes32 → Option SigningKey
  addr : Bytes32 → Option SocketAddr

structure Launch where
  validator : Bytes32
  slot : UInt64
  block : Bytes

structure Mesh where
  senders : Bytes32 → TurbineSender
  buffers : Bytes32 → TurbinePropagator
  wire : List (SocketAddr × Bytes)

namespace Mesh

def boot (D : Deployment) : Mesh where
  senders := fun v => .new v (D.tree v) (D.signer v)
  buffers := fun _ => .new
  wire := []

def setSender (m : Mesh) (v : Bytes32) (p : TurbineSender) : Mesh :=
  { m with senders := Function.update m.senders v p }

def setBuffer (m : Mesh) (v : Bytes32) (p : TurbinePropagator) : Mesh :=
  { m with buffers := Function.update m.buffers v p }

end Mesh

inductive Runs (D : Deployment) (book : List ContactInfo → Prop) : List Launch → Mesh → Prop
  | boot : Runs D book [] (.boot D)
  | propagate {ls : List Launch} {m : Mesh} (h : Runs D book ls m) (l : Launch) {p : TurbineSender}
      (hp : (m.senders l.validator).propagateBlock D.crypto l.block l.slot = .ok p) :
      Runs D book (l :: ls) (m.setSender l.validator p)
  | forward {ls : List Launch} {m : Mesh} (h : Runs D book ls m) (v : Bytes32) {shreds : List Shred}
      (hheld : ∀ s ∈ shreds, s ∈ (m.buffers v).buffered s.slot) {p : TurbineSender}
      (hp : (m.senders v).forwardShreds shreds = .ok p) : Runs D book ls (m.setSender v p)
  | transmit {ls : List Launch} {m : Mesh} (h : Runs D book ls m) (v : Bytes32)
      {contacts : List ContactInfo} (hbook : book contacts) {out : Bytes × List Shred}
      {rest : List (Bytes × List Shred)} (hqueue : (m.senders v).shredSender = out :: rest) :
      Runs D book ls
        { m.setSender v { m.senders v with shredSender := rest } with
          wire := m.wire ++ transmit D.json contacts out }
  | deliver {ls : List Launch} {m : Mesh} (h : Runs D book ls m) (v : Bytes32) (now : UInt64)
      {addr : SocketAddr} {bytes : Bytes} (haddr : D.addr v = some addr)
      (hwire : (addr, bytes) ∈ m.wire) :
      Runs D book ls
        (m.setBuffer v (receiveDatagram D.crypto D.json now bytes (m.buffers v)))
  | prune {ls : List Launch} {m : Mesh} (h : Runs D book ls m) (v : Bytes32) (slot : UInt64) :
      Runs D book ls (m.setBuffer v ((m.buffers v).pruneSlotsBelow slot).2)
  | reassemble {ls : List Launch} {m : Mesh} (h : Runs D book ls m) (v : Bytes32) (slot : UInt64) :
      Runs D book ls (m.setBuffer v ((m.buffers v).tryReassemble slot).2)

def From (D : Deployment) (l : Launch) (s : Shred) : Prop :=
  ∃ all, ErasureCoder.encode .defaultSolana D.crypto l.block l.slot = .ok all ∧
    ∃ t ∈ all, stamp (D.signer l.validator) t = s

structure Closed (D : Deployment) (book : List ContactInfo → Prop)
    (Reach : Launch → Bytes32 → Prop) : Prop where
  neighbor : ∀ (l : Launch) (nodes : List TurbineNode),
    (D.tree l.validator).neighbors l.validator = .ok nodes → ∀ node ∈ nodes, Reach l node.validator
  child : ∀ (l : Launch) (v : Bytes32) (node : TurbineNode) (nodes : List TurbineNode), Reach l v →
    (D.tree v).find v = some node → (D.tree v).collect node.children = .ok nodes →
    ∀ child ∈ nodes, Reach l child.validator
  route : ∀ (l : Launch) (contacts : List ContactInfo), book contacts → ∀ c ∈ contacts,
    Reach l c.pubkey → ∀ v, D.addr v = some c.tpu → Reach l v

def Genuine (D : Deployment) (Reach : Launch → Bytes32 → Prop) (ls : List Launch) (w : Bytes32)
    (s : Shred) : Prop :=
  ∃ l ∈ ls, Reach l w ∧ From D l s

structure Stationed (D : Deployment) (v : Bytes32) (p : TurbineSender) : Prop where
  validatorId : p.validatorId = v
  neighborhood : p.neighborhood = D.tree v
  coder : p.coder = .defaultSolana
  signer : p.signer = D.signer v
  connected : p.connected = true

structure Honest (D : Deployment) (Reach : Launch → Bytes32 → Prop) (ls : List Launch) (m : Mesh) :
    Prop where
  sender : ∀ v, Stationed D v (m.senders v)
  queued : ∀ v, ∀ out ∈ (m.senders v).shredSender, ∃ w : Bytes32, out.1 = w.toList ∧
    ∀ s ∈ out.2, Genuine D Reach ls w s
  buffered : ∀ v slot, ∀ s ∈ (m.buffers v).buffered slot, s.slot = slot ∧ Genuine D Reach ls v s
  coder : ∀ v, (m.buffers v).coder = .defaultSolana
  wire : ∀ p ∈ m.wire, ∃ s, NetMessage.decode D.json (p.2.take maxDatagram) = .ok (.shred s) ∧
    ∀ v, D.addr v = some p.1 → Genuine D Reach ls v s

section Steps

variable {D : Deployment} {book : List ContactInfo → Prop} {Reach : Launch → Bytes32 → Prop}
  {ls : List Launch} {m : Mesh}

theorem Genuine.more {w : Bytes32} {s : Shred} (h : Genuine D Reach ls w s) (l : Launch) :
    Genuine D Reach (l :: ls) w s := by
  obtain ⟨l', hl', hrest⟩ := h
  exact ⟨l', List.mem_cons_of_mem _ hl', hrest⟩

theorem Honest.boot (D : Deployment) (Reach : Launch → Bytes32 → Prop) :
    Honest D Reach [] (.boot D) where
  sender := fun _ => ⟨rfl, rfl, rfl, rfl, rfl⟩
  queued := fun _ _ hout => absurd hout List.not_mem_nil
  buffered := fun _ _ _ hs => absurd hs List.not_mem_nil
  coder := fun _ => rfl
  wire := fun _ hp => absurd hp List.not_mem_nil

theorem Honest.more (h : Honest D Reach ls m) (l : Launch) : Honest D Reach (l :: ls) m where
  sender := h.sender
  queued := by
    intro v out hout
    obtain ⟨w, hw, hgenuine⟩ := h.queued v out hout
    exact ⟨w, hw, fun s hs => (hgenuine s hs).more l⟩
  buffered := fun v slot s hs => (h.buffered v slot s hs).imp_right fun hs => hs.more l
  coder := h.coder
  wire := by
    intro p hp
    obtain ⟨s, hs, hgenuine⟩ := h.wire p hp
    exact ⟨s, hs, fun v hv => (hgenuine v hv).more l⟩

theorem Honest.setSender (h : Honest D Reach ls m) {v : Bytes32} {p : TurbineSender}
    (hsender : Stationed D v p)
    (hqueued : ∀ out ∈ p.shredSender, ∃ w : Bytes32, out.1 = w.toList ∧
      ∀ s ∈ out.2, Genuine D Reach ls w s) :
    Honest D Reach ls (m.setSender v p) where
  sender := by
    intro w
    by_cases hw : w = v
    · subst hw
      simpa [Mesh.setSender] using hsender
    · simpa [Mesh.setSender, hw] using h.sender w
  queued := by
    intro w
    by_cases hw : w = v
    · subst hw
      simpa [Mesh.setSender] using hqueued
    · simpa [Mesh.setSender, hw] using h.queued w
  buffered := h.buffered
  coder := h.coder
  wire := h.wire

theorem Honest.setBuffer (h : Honest D Reach ls m) {v : Bytes32} {p : TurbinePropagator}
    (hbuffered : ∀ slot, ∀ s ∈ p.buffered slot, s.slot = slot ∧ Genuine D Reach ls v s)
    (hcoder : p.coder = .defaultSolana) : Honest D Reach ls (m.setBuffer v p) where
  sender := h.sender
  queued := h.queued
  buffered := by
    intro w
    by_cases hw : w = v
    · subst hw
      simpa [Mesh.setBuffer] using hbuffered
    · simpa [Mesh.setBuffer, hw] using h.buffered w
  coder := by
    intro w
    by_cases hw : w = v
    · subst hw
      simpa [Mesh.setBuffer] using hcoder
    · simpa [Mesh.setBuffer, hw] using h.coder w
  wire := h.wire

theorem Stationed.restat {v : Bytes32} {p : TurbineSender} (h : Stationed D v p)
    (stats : SendingStats) : Stationed D v { p with stats := stats } :=
  ⟨h.validatorId, h.neighborhood, h.coder, h.signer, h.connected⟩

theorem Stationed.requeue {v : Bytes32} {p : TurbineSender} (h : Stationed D v p)
    (queue : List (Bytes × List Shred)) : Stationed D v { p with shredSender := queue } :=
  ⟨h.validatorId, h.neighborhood, h.coder, h.signer, h.connected⟩

theorem Stationed.send {v : Bytes32} {p : TurbineSender} (h : Stationed D v p)
    (targets : List TurbineNode) (shreds : List Shred) : Stationed D v (p.send targets shreds) := by
  rw [TurbineSender.send]
  split_ifs
  · exact h.requeue _
  · exact h

theorem mem_send {targets : List TurbineNode} {shreds : List Shred} {p : TurbineSender}
    {out : Bytes × List Shred} (h : out ∈ (p.send targets shreds).shredSender) :
    out ∈ p.shredSender ∨ ∃ node ∈ targets, out = (node.validator.toList, shreds) := by
  rw [TurbineSender.send] at h
  split_ifs at h
  · refine (List.mem_append.mp h).imp_right fun hnew => ?_
    obtain ⟨node, hnode, heq⟩ := List.mem_map.mp hnew
    exact ⟨node, hnode, heq.symm⟩
  · exact .inl h

theorem propagateBlock_eq_ok {C : Crypto} {block : Bytes} {slot : UInt64} {p q : TurbineSender}
    (h : p.propagateBlock C block slot = .ok q) :
    ∃ all nodes stats, ErasureCoder.encode p.coder C block slot = .ok all ∧
      p.neighborhood.neighbors p.validatorId = .ok nodes ∧
      q = { p.send nodes (all.map (stamp p.signer)) with stats := stats } := by
  rw [TurbineSender.propagateBlock] at h
  split at h
  · cases h
  · next all hall =>
    dsimp only at h
    split at h
    · cases h
    · next nodes hnodes => exact ⟨all, nodes, _, hall, hnodes, (Except.ok.inj h).symm⟩

theorem propagateBlock_ok {C : Crypto} {block : Bytes} {slot : UInt64} {p : TurbineSender}
    {all : List Shred} {nodes : List TurbineNode}
    (hall : ErasureCoder.encode p.coder C block slot = .ok all)
    (hnodes : p.neighborhood.neighbors p.validatorId = .ok nodes) :
    ∃ q, p.propagateBlock C block slot = .ok q ∧
      q.shredSender = (p.send nodes (all.map (stamp p.signer))).shredSender := by
  rw [TurbineSender.propagateBlock, hall]
  dsimp only
  rw [hnodes]
  exact ⟨_, rfl, rfl⟩

theorem forwardShreds_eq_ok {shreds : List Shred} {p q : TurbineSender}
    (h : p.forwardShreds shreds = .ok q) :
    q = p ∨ ∃ node nodes, p.neighborhood.find p.validatorId = some node ∧
      p.neighborhood.collect node.children = .ok nodes ∧ q = p.send nodes shreds := by
  rw [TurbineSender.forwardShreds] at h
  split at h
  · exact .inl (Except.ok.inj h).symm
  · next node hnode =>
    cases hnodes : p.neighborhood.collect node.children with
    | error e => rw [hnodes] at h; cases h
    | ok nodes =>
      rw [hnodes] at h
      exact .inr ⟨node, nodes, hnode, hnodes, (Except.ok.inj h).symm⟩

theorem Honest.propagate (h : Honest D Reach ls m) (hreach : Closed D book Reach) (l : Launch)
    {p : TurbineSender}
    (hp : (m.senders l.validator).propagateBlock D.crypto l.block l.slot = .ok p) :
    Honest D Reach (l :: ls) (m.setSender l.validator p) := by
  have hsender := h.sender l.validator
  obtain ⟨all, nodes, stats, hall, hnodes, rfl⟩ := propagateBlock_eq_ok hp
  rw [hsender.validatorId, hsender.neighborhood] at hnodes
  rw [hsender.coder] at hall
  have hkeeps := hsender.send nodes (all.map (stamp (m.senders l.validator).signer))
  refine (h.more l).setSender (hkeeps.restat stats) fun out hout => ?_
  rcases mem_send hout with hold | ⟨node, hnode, rfl⟩
  · exact (h.more l).queued l.validator out hold
  · refine ⟨node.validator, rfl, fun s hs => ?_⟩
    obtain ⟨t, ht, rfl⟩ := List.mem_map.mp hs
    exact ⟨l, List.mem_cons_self, hreach.neighbor l nodes hnodes node hnode, all, hall, t, ht,
      by rw [hsender.signer]⟩

theorem Honest.forward (h : Honest D Reach ls m) (hreach : Closed D book Reach) (v : Bytes32)
    {shreds : List Shred} (hheld : ∀ s ∈ shreds, s ∈ (m.buffers v).buffered s.slot)
    {p : TurbineSender} (hp : (m.senders v).forwardShreds shreds = .ok p) :
    Honest D Reach ls (m.setSender v p) := by
  have hsender := h.sender v
  rcases forwardShreds_eq_ok hp with rfl | ⟨node, nodes, hnode, hnodes, rfl⟩
  · exact h.setSender hsender (h.queued v)
  · rw [hsender.validatorId, hsender.neighborhood] at hnode
    rw [hsender.neighborhood] at hnodes
    refine h.setSender (hsender.send nodes shreds) fun out hout => ?_
    rcases mem_send hout with hold | ⟨child, hchild, rfl⟩
    · exact h.queued v out hold
    · refine ⟨child.validator, rfl, fun s hs => ?_⟩
      obtain ⟨-, l, hl, hv, hfrom⟩ := h.buffered v s.slot s (hheld s hs)
      exact ⟨l, hl, hreach.child l v node nodes hv hnode hnodes child hchild, hfrom⟩

theorem destination_toList (w : Bytes32) : destination w.toList = some w := dif_pos w.length_eq

theorem mem_transmit {J : Json NetMessage} {contacts : List ContactInfo} {w : Bytes32}
    {shreds : List Shred} {p : SocketAddr × Bytes} (h : p ∈ transmit J contacts (w.toList, shreds)) :
    ∃ c ∈ contacts, ∃ s ∈ shreds, c.pubkey = w ∧ p.1 = c.tpu ∧
      (NetMessage.shred s).encode J.toVec = .ok p.2 := by
  rw [transmit, destination_toList] at h
  dsimp only at h
  split at h
  · cases h
  · next c hc =>
    obtain ⟨s, hs, hp⟩ := List.mem_filterMap.mp h
    obtain ⟨bytes, hbytes, rfl⟩ := Option.map_eq_some_iff.mp hp
    have hkey := List.find?_some hc
    refine ⟨c, List.mem_of_find?_eq_some hc, s, hs, of_decide_eq_true hkey, rfl, ?_⟩
    cases hencode : (NetMessage.shred s).encode J.toVec with
    | error e => rw [hencode] at hbytes; cases hbytes
    | ok body =>
      rw [hencode] at hbytes
      rw [Option.some.inj hbytes]

theorem Honest.transmit (h : Honest D Reach ls m) (hreach : Closed D book Reach)
    (hjson : D.json.RoundTrips) (v : Bytes32) {contacts : List ContactInfo} (hbook : book contacts)
    {out : Bytes × List Shred} {rest : List (Bytes × List Shred)}
    (hqueue : (m.senders v).shredSender = out :: rest) :
    Honest D Reach ls
      { m.setSender v { m.senders v with shredSender := rest } with
        wire := m.wire ++ Turbine.transmit D.json contacts out } := by
  have hqueued := h.queued v
  rw [hqueue, List.forall_mem_cons] at hqueued
  obtain ⟨⟨w, hw, hgenuine⟩, hrest⟩ := hqueued
  have hsent := h.setSender ((h.sender v).requeue rest) hrest
  refine ⟨hsent.sender, hsent.queued, hsent.buffered, hsent.coder, ?_⟩
  rw [List.forall_mem_append]
  refine ⟨h.wire, fun p hp => ?_⟩
  obtain ⟨dest, shreds⟩ := out
  obtain rfl : dest = w.toList := hw
  obtain ⟨c, hc, s, hs, hkey, haddr, hencode⟩ := mem_transmit hp
  refine ⟨s, NetMessage.decode_encode hjson hencode, fun x hx => ?_⟩
  obtain ⟨l, hl, hlw, hfrom⟩ := hgenuine s hs
  exact ⟨l, hl, hreach.route l contacts hbook c hc (hkey ▸ hlw) x (haddr ▸ hx), hfrom⟩

theorem Honest.deliver (h : Honest D Reach ls m) (v : Bytes32) (now : UInt64) {addr : SocketAddr}
    {bytes : Bytes} (haddr : D.addr v = some addr) (hwire : (addr, bytes) ∈ m.wire) :
    Honest D Reach ls
      (m.setBuffer v (receiveDatagram D.crypto D.json now bytes (m.buffers v))) := by
  obtain ⟨s, hdecode, hgenuine⟩ := h.wire _ hwire
  rw [receiveDatagram, hdecode]
  refine h.setBuffer (fun slot t ht => ?_) ?_
  · rcases TurbinePropagator.buffered_receiveShred D.crypto now s (Bytes32.splat 0) (m.buffers v)
      slot with ⟨hpushed, -, hslot, -⟩ | ⟨hsame, -⟩
    · rw [hpushed] at ht
      rcases List.mem_append.mp ht with hold | hnew
      · exact h.buffered v slot t hold
      · obtain rfl := List.mem_singleton.mp hnew
        exact ⟨hslot, hgenuine v haddr⟩
    · exact h.buffered v slot t (hsame ▸ ht)
  · exact (TurbinePropagator.coder_step D.crypto (m.buffers v)
      (.receiveShred now s (Bytes32.splat 0))).trans (h.coder v)

theorem Honest.prune (h : Honest D Reach ls m) (v : Bytes32) (slot : UInt64) :
    Honest D Reach ls (m.setBuffer v ((m.buffers v).pruneSlotsBelow slot).2) := by
  refine h.setBuffer (fun other t ht => ?_) (h.coder v)
  rcases TurbinePropagator.buffered_pruneSlotsBelow slot (m.buffers v) other with hnil | hsame
  · exact absurd (hnil ▸ ht) List.not_mem_nil
  · exact h.buffered v other t (hsame ▸ ht)

theorem Honest.reassemble (h : Honest D Reach ls m) (v : Bytes32) (slot : UInt64) :
    Honest D Reach ls (m.setBuffer v ((m.buffers v).tryReassemble slot).2) := by
  refine h.setBuffer (fun other t ht => ?_) ?_
  · rw [TurbinePropagator.buffered_tryReassemble] at ht
    exact h.buffered v other t ht
  · exact (TurbinePropagator.coder_step D.crypto (m.buffers v) (.tryReassemble slot)).trans
      (h.coder v)

theorem Runs.honest (h : Runs D book ls m) (hreach : Closed D book Reach)
    (hjson : D.json.RoundTrips) : Honest D Reach ls m := by
  induction h with
  | boot => exact .boot D Reach
  | propagate _ l hp ih => exact ih.propagate hreach l hp
  | forward _ v hheld hp ih => exact ih.forward hreach v hheld hp
  | transmit _ v hbook hqueue ih => exact ih.transmit hreach hjson v hbook hqueue
  | deliver _ v now haddr hwire ih => exact ih.deliver v now haddr hwire
  | prune _ v slot ih => exact ih.prune v slot
  | reassemble _ v slot ih => exact ih.reassemble v slot

end Steps

section Contents

variable {D : Deployment} {l : Launch} {s t : Shred}

theorem stamp_fields (signer : Option SigningKey) (s : Shred) :
    (stamp signer s).id = s.id ∧ (stamp signer s).slot = s.slot ∧ (stamp signer s).index = s.index ∧
      (stamp signer s).payload = s.payload ∧ (stamp signer s).hash = s.hash := by
  cases signer <;> exact ⟨rfl, rfl, rfl, rfl, rfl⟩

theorem From.slot_eq (h : From D l s) : s.slot = l.slot := by
  obtain ⟨all, hall, t, ht, rfl⟩ := h
  obtain ⟨g, hg, -⟩ := generator_spec (k := ErasureConfig.defaultSolana.dataShards)
    (m := ErasureConfig.defaultSolana.parityShards) (by decide)
  obtain rfl := Except.ok.inj ((ErasureCoder.encode_eq (by decide) hg).symm.trans hall)
  rw [(stamp_fields _ t).2.1]
  exact (TurbinePropagator.unsigned_of_mem_shards ht).2.2

theorem From.carries (h : From D l s) :
    TurbinePropagator.Carries D.crypto .defaultSolana l.block s := by
  have hslot := h.slot_eq
  obtain ⟨all, hall, t, ht, rfl⟩ := h
  obtain ⟨-, -, hindex, hpayload, -⟩ := stamp_fields (D.signer l.validator) t
  exact ⟨all, hslot ▸ hall, t, ht, hindex.symm, hpayload.symm⟩

end Contents

section Agreement

variable {D : Deployment} {Reach : Launch → Bytes32 → Prop} {ls : List Launch} {m : Mesh}

theorem decode_nil : ErasureCoder.decode .defaultSolana [] = .ok none := rfl

theorem Honest.tryReassemble (h : Honest D Reach ls m) {slot : UInt64}
    (hagree : ∀ l ∈ ls, ∀ l' ∈ ls, l.slot = slot → l'.slot = slot → l.block = l'.block)
    (hlen : ∀ l ∈ ls, l.block.length < 2 ^ 64) (v : Bytes32) :
    ((m.buffers v).tryReassemble slot).1 = .ok none ∨
      ∃ l ∈ ls, l.slot = slot ∧ Reach l v ∧
        ((m.buffers v).tryReassemble slot).1 = .ok (some l.block) := by
  rw [TurbinePropagator.tryReassemble_result, h.coder v]
  split_ifs with hslot
  · cases hbuffered : (m.buffers v).buffered slot with
    | nil => exact .inl decode_nil
    | cons s rest =>
      obtain ⟨hs, l, hl, hreach, hfrom⟩ := h.buffered v slot s (hbuffered ▸ List.mem_cons_self)
      have hlslot : l.slot = slot := hfrom.slot_eq.symm.trans hs
      have huntainted : TurbinePropagator.Untainted D.crypto .defaultSolana l.block slot
          (m.buffers v) := by
        intro t ht _
        obtain ⟨hts, l', hl', -, hfrom'⟩ := h.buffered v slot t ht
        rw [hagree l hl l' hl' hlslot (hfrom'.slot_eq.symm.trans hts)]
        exact hfrom'.carries
      rw [← hbuffered]
      refine (huntainted.decode (by decide) (by decide) (hlen l hl)).imp_right fun hsome => ?_
      exact ⟨l, hl, hlslot, hreach, hsome⟩
  · exact .inl rfl

end Agreement

end TrustNode.Turbine
