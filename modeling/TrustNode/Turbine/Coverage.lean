import TrustNode.Turbine.Reach

namespace TrustNode.Turbine

open TrustNode.Gossip
open TrustNode.Net
open TurbinePropagator

def directory (D : Deployment) (contacts : List ContactInfo) : Prop :=
  ∀ c ∈ contacts, D.addr c.pubkey = some c.tpu

structure Deliverable (D : Deployment) (l : Launch) : Prop where
  json : D.json.RoundTrips
  signs : ∀ key, D.signer l.validator = some key → ∀ msg,
    D.crypto.verify key.verifyingKey msg (key.sign msg) = true
  fits : ∀ s, From D l s → ∃ bytes, (NetMessage.shred s).encode D.json.toVec = .ok bytes
  length : l.block.length < 2 ^ 64
  running : ∀ v, ∀ node ∈ (D.tree v).nodes, ∃ addr, D.addr node.validator = some addr
  distinct : ∀ v w addr, D.addr v = some addr → D.addr w = some addr → v = w

section Shreds

variable {D : Deployment} {l : Launch} {s t : Shred}

theorem nodup_shredIds (slot : UInt64) : (shredIds .defaultSolana slot).Nodup := by
  refine List.Nodup.of_map (fun id => (id.index, id.shredType)) ?_
  have hclosed : (shredIds .defaultSolana slot).map (fun id => (id.index, id.shredType)) =
      (shredIds .defaultSolana 0).map fun id => (id.index, id.shredType) := rfl
  rw [hclosed]
  decide +kernel

theorem encode_spec (D : Deployment) (l : Launch) :
    ∃ all, ErasureCoder.encode .defaultSolana D.crypto l.block l.slot = .ok all ∧
      all.map Shred.id = shredIds .defaultSolana l.slot ∧
      all.map Shred.index = (shredIds .defaultSolana l.slot).map ShredId.index ∧
      ∀ t ∈ all, t.verify D.crypto = true ∧ t.signature = [] := by
  obtain ⟨g, hg, -⟩ := generator_spec (k := ErasureConfig.defaultSolana.dataShards)
    (m := ErasureConfig.defaultSolana.parityShards) (by decide)
  refine ⟨_, ErasureCoder.encode_eq (by decide) hg, map_id_shards l.block, map_index_shards l.block,
    fun t ht => ?_⟩
  obtain ⟨hverify, hunsigned, -⟩ := unsigned_of_mem_shards ht
  exact ⟨hverify, hunsigned⟩

theorem From.id_inj (hs : From D l s) (ht : From D l t) (hid : s.id = t.id) : s = t := by
  obtain ⟨all, hall, hids, -⟩ := encode_spec D l
  obtain ⟨all₁, hall₁, a, ha, rfl⟩ := hs
  obtain ⟨all₂, hall₂, b, hb, rfl⟩ := ht
  obtain rfl := Except.ok.inj (hall₁.symm.trans hall)
  obtain rfl := Except.ok.inj (hall₂.symm.trans hall)
  rw [(stamp_fields _ a).1, (stamp_fields _ b).1] at hid
  rw [List.inj_on_of_nodup_map (hids ▸ nodup_shredIds l.slot) ha hb hid]

theorem From.index_eq (h : From D l s) : s.index = s.id.index := by
  obtain ⟨all, hall, t, ht, rfl⟩ := h
  obtain ⟨hid, -, hindex, -⟩ := stamp_fields (D.signer l.validator) t
  obtain ⟨g, hg, -⟩ := generator_spec (k := ErasureConfig.defaultSolana.dataShards)
    (m := ErasureConfig.defaultSolana.parityShards) (by decide)
  obtain rfl := Except.ok.inj ((ErasureCoder.encode_eq (by decide) hg).symm.trans hall)
  rw [hid, hindex]
  rcases List.mem_append.mp ht with ht | ht
  · obtain ⟨i, -, rfl⟩ := List.mem_map.mp ht
    rfl
  · obtain ⟨i, -, rfl⟩ := List.mem_map.mp ht
    rfl

theorem From.mem_shredIds (h : From D l s) : s.id ∈ shredIds .defaultSolana l.slot := by
  obtain ⟨all, hall, hids, -⟩ := encode_spec D l
  obtain ⟨all₁, hall₁, t, ht, rfl⟩ := h
  obtain rfl := Except.ok.inj (hall₁.symm.trans hall)
  rw [(stamp_fields _ t).1, ← hids]
  exact List.mem_map_of_mem ht

theorem map_index_shredIds (slot : UInt64) :
    (shredIds .defaultSolana slot).map ShredId.index =
      (shredIds .defaultSolana 0).map ShredId.index := rfl

theorem sixteen_le_indices (slot : UInt64) :
    16 ≤ ((shredIds .defaultSolana slot).map ShredId.index).toFinset.card := by
  rw [map_index_shredIds]
  decide +kernel

theorem From.index_lt (h : From D l s) :
    s.index.toNat < ErasureConfig.defaultSolana.totalShards := by
  have hall : ((shredIds .defaultSolana 0).map ShredId.index).all
      (fun index => index.toNat < ErasureConfig.defaultSolana.totalShards) = true := by
    decide +kernel
  have hmem : s.index ∈ (shredIds .defaultSolana 0).map ShredId.index := by
    rw [h.index_eq, ← map_index_shredIds l.slot]
    exact List.mem_map_of_mem h.mem_shredIds
  exact of_decide_eq_true (List.all_eq_true.mp hall _ hmem)

theorem exists_from {id : ShredId} (h : id ∈ shredIds .defaultSolana l.slot) :
    ∃ s, From D l s ∧ s.id = id := by
  obtain ⟨all, hall, hids, -⟩ := encode_spec D l
  rw [← hids] at h
  obtain ⟨t, ht, rfl⟩ := List.mem_map.mp h
  exact ⟨_, ⟨all, hall, t, ht, rfl⟩, (stamp_fields _ t).1⟩

theorem Deliverable.admissible (h : Deliverable D l) (hs : From D l s) :
    Admissible D.crypto s := by
  obtain ⟨all, hall, -, -, hgood⟩ := encode_spec D l
  obtain ⟨all₁, hall₁, t, ht, rfl⟩ := hs
  obtain rfl := Except.ok.inj (hall₁.symm.trans hall)
  obtain ⟨hverify, hunsigned⟩ := hgood t ht
  cases hsigner : D.signer l.validator with
  | none => exact ⟨hverify, .inl hunsigned⟩
  | some key => exact ⟨hverify, .inr (h.signs key hsigner t.signableData)⟩

end Shreds

theorem mem_of_collect {tree : Neighborhood} {idxs : List ℕ} {nodes : List TurbineNode}
    (h : tree.collect idxs = .ok nodes) {node : TurbineNode} (hnode : node ∈ nodes) :
    node ∈ tree.nodes := by
  obtain ⟨idx, -, hfound⟩ := (Neighborhood.mem_collect h).mp hnode
  exact List.mem_of_getElem? hfound

theorem mem_of_neighbors {tree : Neighborhood} {v : Bytes32} {nodes : List TurbineNode}
    (h : tree.neighbors v = .ok nodes) {node : TurbineNode} (hnode : node ∈ nodes) :
    node ∈ tree.nodes := by
  rw [Neighborhood.neighbors] at h
  split at h
  · exact mem_of_collect h hnode
  · obtain rfl := Except.ok.inj h
    cases hnode

section Delivery

variable {D : Deployment} {book : List ContactInfo → Prop} {ls : List Launch} {l : Launch}
  {m : Mesh} {v w : Bytes32} {slot : UInt64}

def ids (m : Mesh) (w : Bytes32) (slot : UInt64) : List ShredId :=
  ((m.buffers w).buffered slot).map Shred.id

def Holds (D : Deployment) (l : Launch) (m : Mesh) (w : Bytes32) : Prop :=
  ∀ s, From D l s → s.id ∈ ids m w l.slot

theorem Runs.deliverAll (h : Runs D book ls m) {addr : SocketAddr} (haddr : D.addr w = some addr)
    {shreds : List Shred} (hwire : ∀ s ∈ shreds, ∃ bytes, (addr, bytes) ∈ m.wire ∧
      NetMessage.decode D.json (bytes.take maxDatagram) = .ok (.shred s))
    (hshreds : ∀ s ∈ shreds, Admissible D.crypto s ∧ s.slot = slot) :
    ∃ m', Runs D book ls m' ∧ ids m w slot ⊆ ids m' w slot ∧
      ∀ s ∈ shreds, s.id ∈ ids m' w slot := by
  induction shreds generalizing m with
  | nil => exact ⟨m, h, List.Subset.refl _, fun _ hs => absurd hs List.not_mem_nil⟩
  | cons s rest ih =>
    obtain ⟨⟨bytes, hbytes, hdecode⟩, hwires⟩ := List.forall_mem_cons.mp hwire
    obtain ⟨⟨hadmissible, hslot⟩, hrest⟩ := List.forall_mem_cons.mp hshreds
    obtain ⟨m', hm', hkept, hall⟩ := ih (h.deliver w 0 haddr hbytes) hwires hrest
    have hreceived : s.id ∈ ids (m.setBuffer w (receiveDatagram D.crypto D.json 0 bytes
          (m.buffers w))) w slot ∧
        ids m w slot ⊆ ids (m.setBuffer w (receiveDatagram D.crypto D.json 0 bytes
          (m.buffers w))) w slot := by
      rw [receiveDatagram, hdecode]
      simp only [ids, Mesh.setBuffer, Function.update_self]
      rcases buffered_receiveShred D.crypto 0 s (Bytes32.splat 0) (m.buffers w) slot with
        ⟨hpushed, -⟩ | ⟨hsame, hknown⟩
      · rw [hpushed, List.map_append]
        exact ⟨List.mem_append_right _ List.mem_cons_self, List.subset_append_left _ _⟩
      · rw [hsame]
        exact ⟨hknown hadmissible hslot, List.Subset.refl _⟩
    refine ⟨m', hm', List.Subset.trans hreceived.2 hkept, List.forall_mem_cons.mpr ⟨?_, hall⟩⟩
    exact hkept hreceived.1

theorem mem_transmit_of {J : Json NetMessage} {c : ContactInfo} {shreds : List Shred} {s : Shred}
    {bytes : Bytes} (hs : s ∈ shreds) (hencode : (NetMessage.shred s).encode J.toVec = .ok bytes) :
    (c.tpu, bytes) ∈ transmit J [c] (c.pubkey.toList, shreds) := by
  have hfind : [c].find? (fun x => x.pubkey = c.pubkey) = some c := by simp
  rw [transmit, destination_toList]
  dsimp only
  rw [hfind]
  refine List.mem_filterMap.mpr ⟨s, hs, ?_⟩
  rw [hencode]
  rfl

theorem Runs.flush (h : Runs D book ls m) {c : ContactInfo} (hbook : book [c]) {shreds : List Shred}
    (hfits : ∀ s ∈ shreds, ∃ bytes, (NetMessage.shred s).encode D.json.toVec = .ok bytes)
    (hmem : (c.pubkey.toList, shreds) ∈ (m.senders v).shredSender) :
    ∃ m', Runs D book ls m' ∧ ∀ s ∈ shreds, ∃ bytes,
      (NetMessage.shred s).encode D.json.toVec = .ok bytes ∧ (c.tpu, bytes) ∈ m'.wire := by
  generalize hqueue : (m.senders v).shredSender = queue at hmem
  induction queue generalizing m with
  | nil => cases hmem
  | cons out rest ih =>
    have hstep := h.transmit v hbook hqueue
    rcases List.mem_cons.mp hmem with rfl | hrest
    · refine ⟨_, hstep, fun s hs => ?_⟩
      obtain ⟨bytes, hencode⟩ := hfits s hs
      exact ⟨bytes, hencode, List.mem_append_right _ (mem_transmit_of hs hencode)⟩
    · exact ih hstep (by simp [Mesh.setSender]) hrest

theorem Runs.handOver (h : Runs D (directory D) ls m) (hready : Deliverable D l)
    {addr : SocketAddr} (haddr : D.addr w = some addr) {shreds : List Shred}
    (hshreds : ∀ s, s ∈ shreds ↔ From D l s)
    (hmem : (w.toList, shreds) ∈ (m.senders v).shredSender) :
    ∃ m', Runs D (directory D) ls m' ∧ Holds D l m' w := by
  have hbook : directory D [{ ContactInfo.default w with tpu := addr }] := by
    rintro c hc
    obtain rfl := List.mem_singleton.mp hc
    exact haddr
  obtain ⟨m₁, hm₁, hwire⟩ := h.flush hbook
    (fun s hs => hready.fits s ((hshreds s).mp hs)) hmem
  have harrives : ∀ s ∈ shreds, ∃ bytes, (addr, bytes) ∈ m₁.wire ∧
      NetMessage.decode D.json (bytes.take maxDatagram) = .ok (.shred s) := by
    intro s hs
    obtain ⟨bytes, hencode, hsent⟩ := hwire s hs
    exact ⟨bytes, hsent, NetMessage.decode_encode hready.json hencode⟩
  have hgood : ∀ s ∈ shreds, Admissible D.crypto s ∧ s.slot = l.slot := fun s hs =>
    ⟨hready.admissible ((hshreds s).mp hs), ((hshreds s).mp hs).slot_eq⟩
  obtain ⟨m', hm', -, hall⟩ := hm₁.deliverAll haddr harrives hgood
  exact ⟨m', hm', fun s hs => hall s ((hshreds s).mpr hs)⟩

theorem mem_send_of {targets : List TurbineNode} {shreds : List Shred} {p : TurbineSender}
    (hconnected : p.connected = true) {node : TurbineNode} (hnode : node ∈ targets) :
    (node.validator.toList, shreds) ∈ (p.send targets shreds).shredSender := by
  rw [TurbineSender.send, if_pos hconnected]
  exact List.mem_append_right _ (List.mem_map_of_mem hnode)

theorem closed_always (D : Deployment) (book : List ContactInfo → Prop) :
    Closed D book fun _ _ => True where
  neighbor := fun _ _ _ _ _ => trivial
  child := fun _ _ _ _ _ _ _ _ _ => trivial
  route := fun _ _ _ _ _ _ _ _ => trivial

theorem closed_downstream (hdistinct : ∀ v w addr, D.addr v = some addr → D.addr w = some addr →
    v = w) : Closed D (directory D) fun l w => Downstream D l.validator w where
  neighbor := fun _ _ hnodes _ hnode => .neighbor hnodes hnode
  child := fun _ _ _ _ hv hfind hnodes _ hchild => .child hv hfind hnodes hchild
  route := by
    intro l contacts hbook c hc hreach x hx
    rwa [hdistinct x c.pubkey c.tpu hx (hbook c hc)]

theorem Holds.mem_buffered (h : Holds D l m w) {Reach : Launch → Bytes32 → Prop}
    (hhonest : Honest D Reach [l] m) {s : Shred} (hs : From D l s) :
    s ∈ (m.buffers w).buffered s.slot := by
  obtain ⟨t, ht, hid⟩ := List.mem_map.mp (h s hs)
  obtain ⟨-, l', hl', -, hfrom⟩ := hhonest.buffered w l.slot t ht
  obtain rfl := List.mem_singleton.mp hl'
  rw [hs.slot_eq, ← hfrom.id_inj hs hid]
  exact ht

theorem mem_stamped_iff {all : List Shred}
    (hall : ErasureCoder.encode .defaultSolana D.crypto l.block l.slot = .ok all) (s : Shred) :
    s ∈ all.map (stamp (D.signer l.validator)) ↔ From D l s := by
  rw [List.mem_map]
  constructor
  · rintro ⟨t, ht, rfl⟩
    exact ⟨all, hall, t, ht, rfl⟩
  · rintro ⟨all₁, hall₁, t, ht, rfl⟩
    obtain rfl := Except.ok.inj (hall₁.symm.trans hall)
    exact ⟨t, ht, rfl⟩

theorem exists_holds (hready : Deliverable D l) (hdown : Downstream D l.validator w) :
    ∃ m, Runs D (directory D) [l] m ∧ Holds D l m w := by
  obtain ⟨all, hall, -⟩ := encode_spec D l
  have hshreds := mem_stamped_iff hall
  induction hdown with
  | @neighbor nodes node hnodes hnode =>
    obtain ⟨p, hp, hsent⟩ := propagateBlock_ok (p := (Mesh.boot D).senders l.validator) hall hnodes
    have hqueued : (node.validator.toList, all.map (stamp (D.signer l.validator))) ∈
        p.shredSender := hsent ▸ mem_send_of rfl hnode
    obtain ⟨addr, haddr⟩ := hready.running l.validator node (mem_of_neighbors hnodes hnode)
    refine (Runs.boot.propagate l hp).handOver (v := l.validator) hready haddr hshreds ?_
    simpa [Mesh.setSender] using hqueued
  | @child v node child nodes hv hfind hnodes hchild ih =>
    obtain ⟨m, hm, hholds⟩ := ih
    have hhonest := hm.honest (closed_always D (directory D)) hready.json
    have hsender := hhonest.sender v
    have hforwarded : (m.senders v).forwardShreds (all.map (stamp (D.signer l.validator))) =
        .ok ((m.senders v).send nodes (all.map (stamp (D.signer l.validator)))) := by
      rw [TurbineSender.forwardShreds, hsender.validatorId, hsender.neighborhood, hfind]
      dsimp only
      rw [hnodes]
      rfl
    obtain ⟨addr, haddr⟩ := hready.running v child (mem_of_collect hnodes hchild)
    refine (hm.forward v (fun s hs => ?_) hforwarded).handOver (v := v) hready haddr hshreds ?_
    · exact hholds.mem_buffered hhonest ((hshreds s).mp hs)
    · simpa [Mesh.setSender] using mem_send_of hsender.connected hchild

theorem From.of_buffered {Reach : Launch → Bytes32 → Prop} (hhonest : Honest D Reach [l] m)
    {s : Shred} (hs : s ∈ (m.buffers w).buffered l.slot) : From D l s := by
  obtain ⟨-, l', hl', -, hs'⟩ := hhonest.buffered w l.slot s hs
  exact List.mem_singleton.mp hl' ▸ hs'

theorem Holds.sixteen_le_byIndex (h : Holds D l m w) {Reach : Launch → Bytes32 → Prop}
    (hhonest : Honest D Reach [l] m) :
    16 ≤ (ErasureCoder.byIndex .defaultSolana ((m.buffers w).buffered l.slot)).length := by
  have hindices : (shredIds .defaultSolana l.slot).map ShredId.index ⊆
      ((m.buffers w).buffered l.slot).map Shred.index := by
    intro index hindex
    obtain ⟨id, hid, rfl⟩ := List.mem_map.mp hindex
    obtain ⟨s, hs, rfl⟩ := exists_from (D := D) hid
    rw [← hs.index_eq]
    exact List.mem_map_of_mem (hs.slot_eq ▸ h.mem_buffered hhonest hs)
  have hrange : ∀ s ∈ (m.buffers w).buffered l.slot,
      s.index.toNat < ErasureConfig.defaultSolana.totalShards := fun s hs =>
    (From.of_buffered hhonest hs).index_lt
  calc 16 ≤ ((shredIds .defaultSolana l.slot).map ShredId.index).toFinset.card :=
        sixteen_le_indices l.slot
    _ ≤ (((m.buffers w).buffered l.slot).map Shred.index).toFinset.card :=
        Finset.card_le_card fun x hx => List.mem_toFinset.mpr (hindices (List.mem_toFinset.mp hx))
    _ ≤ _ := ErasureCoder.card_indices_le (ErasureCoder.kept_byIndex _ _) hrange

theorem Holds.tryReassemble (h : Holds D l m w) {Reach : Launch → Bytes32 → Prop}
    (hhonest : Honest D Reach [l] m) (hlen : l.block.length < 2 ^ 64) :
    ((m.buffers w).tryReassemble l.slot).1 = .ok (some l.block) := by
  obtain ⟨g, hg, hgen⟩ := generator_spec (k := ErasureConfig.defaultSolana.dataShards)
    (m := ErasureConfig.defaultSolana.parityShards) (by decide)
  have hcode : ∀ s ∈ (m.buffers w).buffered l.slot,
      ∀ hindex : s.index.toNat < ErasureConfig.defaultSolana.totalShards,
        ErasureCoder.Codeword .defaultSolana l.block g ⟨s.index.toNat, hindex⟩ s.payload := by
    intro s hs hindex
    obtain ⟨all, hall, t, ht, hti, htp⟩ := (From.of_buffered hhonest hs).carries
    exact ErasureCoder.codeword_of_encode (by decide) (by decide) hg hgen hall ht hti htp hindex
  have henough := h.sixteen_le_byIndex hhonest
  have hslot : l.slot ∈ (m.buffers w).receivedShreds := by
    refine mem_receivedShreds fun hnil => ?_
    rw [hnil] at henough
    exact absurd henough (by decide)
  rw [tryReassemble_result, if_pos hslot, hhonest.coder w,
    ErasureCoder.decode_of_codewords (by decide) hg hgen hlen hcode]
  exact congrArg Except.ok (if_pos henough)

theorem delivered_iff_downstream (hready : Deliverable D l) :
    (∃ m, Runs D (directory D) [l] m ∧
        ((m.buffers w).tryReassemble l.slot).1 = .ok (some l.block)) ↔
      Downstream D l.validator w := by
  constructor
  · rintro ⟨m, hm, hsome⟩
    have hhonest := hm.honest (closed_downstream hready.distinct) hready.json
    have hagree : ∀ a ∈ [l], ∀ b ∈ [l], a.slot = l.slot → b.slot = l.slot → a.block = b.block := by
      rintro a ha b hb - -
      rw [List.mem_singleton.mp ha, List.mem_singleton.mp hb]
    have hlen : ∀ a ∈ [l], a.block.length < 2 ^ 64 := by
      rintro a ha
      rw [List.mem_singleton.mp ha]
      exact hready.length
    rcases hhonest.tryReassemble hagree hlen w with hnone | ⟨l', hl', -, hreach, -⟩
    · rw [hsome] at hnone
      cases hnone
    · exact List.mem_singleton.mp hl' ▸ hreach
  · intro hdown
    obtain ⟨m, hm, hholds⟩ := exists_holds hready hdown
    exact ⟨m, hm, hholds.tryReassemble (hm.honest (closed_always D _) hready.json) hready.length⟩

end Delivery

section Lone

variable {D : Deployment} {book : List ContactInfo → Prop} {ls : List Launch} {m : Mesh}

structure Silent (D : Deployment) (m : Mesh) : Prop where
  sender : ∀ v, Stationed D v (m.senders v) ∧ (m.senders v).shredSender = []
  wire : m.wire = []
  buffered : ∀ v slot, (m.buffers v).buffered slot = []
  coder : ∀ v, (m.buffers v).coder = .defaultSolana

theorem send_nil (shreds : List Shred) (p : TurbineSender) :
    (p.send [] shreds).shredSender = p.shredSender := by
  rw [TurbineSender.send]
  split_ifs
  · exact List.append_nil _
  · rfl

theorem Silent.setSender (h : Silent D m) {v : Bytes32} {p : TurbineSender}
    (hp : Stationed D v p ∧ p.shredSender = []) :
    Silent D (m.setSender v p) := by
  refine ⟨fun w => ?_, h.wire, h.buffered, h.coder⟩
  by_cases hw : w = v
  · subst hw
    simpa [Mesh.setSender] using hp
  · simpa [Mesh.setSender, hw] using h.sender w

theorem Silent.setBuffer (h : Silent D m) {v : Bytes32} {p : TurbinePropagator}
    (hp : ∀ slot, p.buffered slot = []) (hcoder : p.coder = .defaultSolana) :
    Silent D (m.setBuffer v p) := by
  refine ⟨h.sender, h.wire, fun w => ?_, fun w => ?_⟩
  all_goals by_cases hw : w = v
  · subst hw
    simpa [Mesh.setBuffer] using hp
  · simpa [Mesh.setBuffer, hw] using h.buffered w
  · subst hw
    simpa [Mesh.setBuffer] using hcoder
  · simpa [Mesh.setBuffer, hw] using h.coder w

def lone (v : Bytes32) : Neighborhood where
  root := .placed (v, 1) 0 0 none
  nodes := [.placed (v, 1) 0 0 none]
  depth := 0

theorem buildTree_lone (v : Bytes32) : Neighborhood.buildTree [(v, 1)] 1 = .ok (lone v) := rfl

theorem find_lone {v w : Bytes32} {node : TurbineNode} (h : (lone v).find w = some node) :
    node.parent = none ∧ node.children = [] := by
  obtain rfl := List.mem_singleton.mp (List.mem_of_find?_eq_some h)
  exact ⟨rfl, rfl⟩

theorem neighbors_lone (v w : Bytes32) : (lone v).neighbors w = .ok [] := by
  rw [Neighborhood.neighbors]
  split
  · next node hfind =>
    obtain ⟨hparent, hchildren⟩ := find_lone hfind
    rw [hparent, hchildren]
    rfl
  · rfl

theorem Runs.silent (h : Runs D book ls m) (htree : ∀ v, D.tree v = lone v) : Silent D m := by
  induction h with
  | boot => exact ⟨fun _ => ⟨⟨rfl, rfl, rfl, rfl, rfl⟩, rfl⟩, rfl, fun _ _ => rfl, fun _ => rfl⟩
  | @propagate ls m _ l p hp ih =>
    obtain ⟨hsender, hqueue⟩ := ih.sender l.validator
    obtain ⟨all, nodes, stats, -, hnodes, rfl⟩ := propagateBlock_eq_ok hp
    rw [hsender.neighborhood, htree, neighbors_lone] at hnodes
    obtain rfl := Except.ok.inj hnodes
    have hkeeps := hsender.send [] (all.map (stamp (m.senders l.validator).signer))
    exact ih.setSender ⟨hkeeps.restat stats, (send_nil _ _).trans hqueue⟩
  | @forward ls m _ v shreds hheld p hp ih =>
    obtain ⟨hsender, hqueue⟩ := ih.sender v
    rcases forwardShreds_eq_ok hp with rfl | ⟨node, nodes, hfind, hnodes, rfl⟩
    · exact ih.setSender (ih.sender v)
    · rw [hsender.neighborhood, htree] at hfind hnodes
      rw [(find_lone hfind).2] at hnodes
      obtain rfl := Except.ok.inj hnodes
      exact ih.setSender ⟨hsender.send [] shreds, (send_nil _ _).trans hqueue⟩
  | @transmit ls m _ v contacts hbook out rest hqueue ih =>
    rw [(ih.sender v).2] at hqueue
    cases hqueue
  | @deliver ls m _ v now addr bytes haddr hwire ih =>
    rw [ih.wire] at hwire
    cases hwire
  | @prune ls m _ v slot ih =>
    refine ih.setBuffer (fun other => ?_) (ih.coder v)
    rcases buffered_pruneSlotsBelow slot (m.buffers v) other with hnil | hsame
    · exact hnil
    · exact hsame.trans (ih.buffered v other)
  | @reassemble ls m _ v slot ih =>
    refine ih.setBuffer (fun other => ?_) ?_
    · rw [buffered_tryReassemble]
      exact ih.buffered v other
    · exact (coder_step D.crypto (m.buffers v) (.tryReassemble slot)).trans (ih.coder v)

end Lone

section Cluster

def tableJson (table : List NetMessage) : Json NetMessage where
  toVec msg :=
    if msg ∈ table then .ok (List.replicate (table.idxOf msg) 0) else .error "unknown message"
  fromSlice bytes :=
    match table[bytes.length]? with
    | some msg => .ok msg
    | none => .error "unknown message"

theorem tableJson_roundTrips (table : List NetMessage) : (tableJson table).RoundTrips := by
  intro msg bytes h
  simp only [tableJson] at h ⊢
  split_ifs at h with hmem
  obtain rfl := Except.ok.inj h
  rw [List.length_replicate, List.getElem?_idxOf hmem]

def fiveTree : Neighborhood :=
  match Neighborhood.buildTree (Neighborhood.stakes 5) 5 with
  | .ok tree => tree
  | .error _ => .empty

theorem buildTree_five : Neighborhood.buildTree (Neighborhood.stakes 5) 5 = .ok fiveTree := by
  decide +kernel

def fiveAddr (v : Bytes32) : Option SocketAddr :=
  ((Neighborhood.stakes 5).find? fun x => x.1 = v).map fun x =>
    .localhost (UInt16.ofNat x.2.toNat)

def five (shreds : List Shred) : Deployment where
  crypto := acceptingCrypto
  json := tableJson (shreds.map fun s => .shred (stamp (some producer) s))
  tree := fun _ => fiveTree
  signer := fun _ => some producer
  addr := fiveAddr

theorem fiveAddr_distinct {v w : Bytes32} {addr : SocketAddr} (hv : fiveAddr v = some addr)
    (hw : fiveAddr w = some addr) : v = w := by
  have hall : ∀ x ∈ Neighborhood.stakes 5, ∀ y ∈ Neighborhood.stakes 5,
      SocketAddr.localhost (UInt16.ofNat x.2.toNat) = .localhost (UInt16.ofNat y.2.toNat) →
        x.1 = y.1 := by
    decide +kernel
  obtain ⟨x, hx, rfl⟩ := Option.map_eq_some_iff.mp hv
  obtain ⟨y, hy, hport⟩ := Option.map_eq_some_iff.mp hw
  have hxv := List.find?_some hx
  have hyw := List.find?_some hy
  rw [← of_decide_eq_true hxv, ← of_decide_eq_true hyw]
  exact hall x (List.mem_of_find?_eq_some hx) y (List.mem_of_find?_eq_some hy) hport.symm

theorem deliverable_five :
    ∃ shreds, ∀ v, Deliverable (five shreds) ⟨v, 7, [1]⟩ := by
  obtain ⟨all, hall, hids, -⟩ := encode_spec (five []) ⟨Bytes32.splat 0, 7, [1]⟩
  have hlength : all.length = 20 := by
    have hmap := congrArg List.length hids
    rw [List.length_map] at hmap
    exact hmap
  have hrunning : ∀ node ∈ fiveTree.nodes, (fiveAddr node.validator).isSome = true := by
    decide +kernel
  refine ⟨all, fun v => ⟨tableJson_roundTrips _, ?_, ?_, (by decide : [(1 : UInt8)].length < 2 ^ 64), ?_, ?_⟩⟩
  · rintro key hkey msg
    obtain rfl := Option.some.inj hkey
    rfl
  · rintro s ⟨all₁, hall₁, t, ht, rfl⟩
    obtain rfl := Except.ok.inj (hall₁.symm.trans hall)
    have hmem : NetMessage.shred (stamp (some producer) t) ∈
        all₁.map fun s => NetMessage.shred (stamp (some producer) s) := List.mem_map_of_mem ht
    have hidx := List.idxOf_lt_length_of_mem hmem
    rw [List.length_map, hlength] at hidx
    rw [NetMessage.encode]
    simp only [five, tableJson, if_pos hmem, List.length_replicate]
    rw [if_neg (by rw [maxDatagram, Net.magic]; simp only [List.length_cons, List.length_nil]; omega)]
    exact ⟨_, rfl⟩
  · intro w node hnode
    exact Option.isSome_iff_exists.mp (hrunning node hnode)
  · intro a b addr ha hb
    exact fiveAddr_distinct ha hb

end Cluster

theorem reassembled_block_was_propagated (D : Deployment) {book : List ContactInfo → Prop}
    {ls : List Launch} {m : Mesh} (h : Runs D book ls m) (hjson : D.json.RoundTrips)
    (hlen : ∀ l ∈ ls, l.block.length < 2 ^ 64) {slot : UInt64}
    (hagree : ∀ l ∈ ls, ∀ l' ∈ ls, l.slot = slot → l'.slot = slot → l.block = l'.block)
    (v : Bytes32) :
    ((m.buffers v).tryReassemble slot).1 = .ok none ∨
      ∃ l ∈ ls, l.slot = slot ∧ ((m.buffers v).tryReassemble slot).1 = .ok (some l.block) := by
  refine ((h.honest (closed_always D book) hjson).tryReassemble hagree hlen v).imp_right ?_
  rintro ⟨l, hl, hslot, -, hsome⟩
  exact ⟨l, hl, hslot, hsome⟩

theorem reassembled_in_five :
    ∃ shreds m, Runs (five shreds) (directory (five shreds)) [⟨Bytes32.splat 4, 7, [1]⟩] m ∧
      ((m.buffers (Bytes32.splat 3)).tryReassemble 7).1 = .ok (some [1]) ∧
      ∀ v, ((m.buffers v).tryReassemble 7).1 = .ok none ∨
        ∃ l ∈ [(⟨Bytes32.splat 4, 7, [1]⟩ : Launch)], l.slot = 7 ∧
          ((m.buffers v).tryReassemble 7).1 = .ok (some l.block) := by
  obtain ⟨shreds, hready⟩ := deliverable_five
  have hneighbors : fiveTree.neighbors (Bytes32.splat 4) = .ok ((fiveTree.nodes.drop 1).take 3) ∧
      ∃ node ∈ (fiveTree.nodes.drop 1).take 3, node.validator = Bytes32.splat 3 := by
    decide +kernel
  obtain ⟨hnodes, node, hnode, hkey⟩ := hneighbors
  have hdown : Downstream (five shreds) (Bytes32.splat 4) (Bytes32.splat 3) :=
    hkey ▸ .neighbor hnodes hnode
  obtain ⟨m, hm, hsome⟩ := (delivered_iff_downstream (hready (Bytes32.splat 4))).mpr hdown
  refine ⟨shreds, m, hm, hsome, fun v => ?_⟩
  refine reassembled_block_was_propagated (five shreds) hm (hready v).json ?_ ?_ v
  · rintro l hl
    obtain rfl := List.mem_singleton.mp hl
    exact (hready v).length
  · rintro l hl l' hl' - -
    rw [List.mem_singleton.mp hl, List.mem_singleton.mp hl']

theorem delivered_to_all_iff {D : Deployment} {l : Launch} {validators : List ValidatorStake}
    {maxDepth : ℕ} {tree : Neighborhood} (hmax : validators.length ≤ maxDepth)
    (hbuild : Neighborhood.buildTree validators maxDepth = .ok tree)
    (hkeys : (validators.map Prod.fst).Nodup) (htree : ∀ v, D.tree v = tree)
    (hready : Deliverable D l) {node : TurbineNode} (hnode : node ∈ tree.nodes)
    (hproducer : node.validator = l.validator) :
    ((∀ v ∈ validators, v.1 ≠ l.validator → ∃ m, Runs D (directory D) [l] m ∧
        ((m.buffers v.1).tryReassemble l.slot).1 = .ok (some l.block)) ↔
      node.depth.toNat ≤ 1) ∧
    (¬node.depth.toNat ≤ 1 → ∀ root, tree.nodes[0]? = some root →
      ∀ m, Runs D (directory D) [l] m →
        ((m.buffers root.validator).tryReassemble l.slot).1 ≠ .ok (some l.block)) := by
  have hbuilt := Neighborhood.built_of_buildTree hmax hbuild
  have hshared : Shared D validators tree := ⟨htree, hbuilt, hbuilt.keys_nodup hkeys⟩
  obtain ⟨i, hi⟩ := List.mem_iff_getElem?.mp hnode
  have hmembers := hbuilt.members.map Prod.fst
  rw [List.map_map] at hmembers
  constructor
  · rw [← hshared.reaches_all_iff hi, hproducer]
    simp only [delivered_iff_downstream hready]
    constructor
    · intro hall other hother hne
      obtain ⟨v, hv, hkey⟩ := List.mem_map.mp (hmembers.subset (List.mem_map_of_mem hother))
      have hfst : v.1 = other.validator := hkey
      exact hfst ▸ hall v hv (hfst ▸ hne)
    · intro hall v hv hne
      obtain ⟨other, hother, hkey⟩ := List.mem_map.mp (hmembers.symm.subset (List.mem_map_of_mem hv))
      have hfst : other.validator = v.1 := hkey
      exact hfst ▸ hall other hother (hfst ▸ hne)
  · intro hdeep root hroot m hm hsome
    have hdown := (delivered_iff_downstream hready).mp ⟨m, hm, hsome⟩
    rw [← hproducer] at hdown
    rw [hshared.depth_le_one_iff hi] at hdeep
    exact hdeep (hshared.parent_of_reaches_root hi hroot hdown)

theorem delivered_to_all_of_five :
    ∃ shreds,
      (∀ v ∈ Neighborhood.stakes 5, v.1 ≠ Bytes32.splat 4 → ∃ m,
        Runs (five shreds) (directory (five shreds)) [⟨Bytes32.splat 4, 7, [1]⟩] m ∧
          ((m.buffers v.1).tryReassemble 7).1 = .ok (some [1])) ∧
      ∀ m, Runs (five shreds) (directory (five shreds)) [⟨Bytes32.splat 0, 7, [1]⟩] m →
        ((m.buffers (Bytes32.splat 4)).tryReassemble 7).1 ≠ .ok (some [1]) := by
  obtain ⟨shreds, hready⟩ := deliverable_five
  have htop : (fiveTree.nodes[0]?.map fun node => (node.validator, node.depth)) =
      some (Bytes32.splat 4, 0) := by
    decide +kernel
  have hleaf : ∃ node ∈ fiveTree.nodes, node.validator = Bytes32.splat 0 ∧
      ¬node.depth.toNat ≤ 1 := by
    decide +kernel
  obtain ⟨top, htopAt, htop⟩ := Option.map_eq_some_iff.mp htop
  obtain ⟨htopKey, htopDepth⟩ := Prod.mk.inj htop
  obtain ⟨leaf, hleafMem, hleafKey, hleafDepth⟩ := hleaf
  refine ⟨shreds, ?_, ?_⟩
  · exact (delivered_to_all_iff (by decide) buildTree_five (by decide +kernel) (fun _ => rfl)
      (hready (Bytes32.splat 4)) (List.mem_of_getElem? htopAt) htopKey).1.mpr (by rw [htopDepth]; decide)
  · rw [← htopKey]
    exact (delivered_to_all_iff (by decide) buildTree_five (by decide +kernel) (fun _ => rfl)
      (hready (Bytes32.splat 0)) hleafMem hleafKey).2 hleafDepth top htopAt

theorem lone_trees_stay_silent (D : Deployment)
    (htree : ∀ v, Neighborhood.buildTree [(v, 1)] 1 = .ok (D.tree v))
    {book : List ContactInfo → Prop} {ls : List Launch} {m : Mesh} (h : Runs D book ls m) :
    m.wire = [] ∧ ∀ v slot, ((m.buffers v).tryReassemble slot).1 = .ok none := by
  have hlone : ∀ v, D.tree v = lone v := fun v => (Except.ok.inj (htree v)).symm
  have hsilent := h.silent hlone
  refine ⟨hsilent.wire, fun v slot => ?_⟩
  rw [tryReassemble_result, hsilent.buffered, hsilent.coder, decode_nil, ite_self]

theorem lone_five_stay_silent :
    ∃ m, Runs { five [] with tree := lone } (fun _ => True) [⟨Bytes32.splat 4, 7, [1]⟩] m ∧
      m.wire = [] ∧ ∀ v slot, ((m.buffers v).tryReassemble slot).1 = .ok none := by
  obtain ⟨all, hall, -⟩ := encode_spec { five [] with tree := lone } ⟨Bytes32.splat 4, 7, [1]⟩
  obtain ⟨p, hp, -⟩ := propagateBlock_ok
    (p := (Mesh.boot { five [] with tree := lone }).senders (Bytes32.splat 4)) hall
    (neighbors_lone _ _)
  have hboot : Runs { five [] with tree := lone } (fun _ => True) [] (.boot _) := .boot
  have hruns := hboot.propagate ⟨Bytes32.splat 4, 7, [1]⟩ hp
  exact ⟨_, hruns, lone_trees_stay_silent _ buildTree_lone hruns⟩

end TrustNode.Turbine
