import TrustNode.Base.Sha256
import TrustNode.Gossip.Protocol

namespace TrustNode.Gossip

namespace GossipMessage

def announced (msg : GossipMessage) : Option ContactInfo :=
  match msg.messageType, msg.payload with
  | .pullResponse, .pullResponse _ contactInfo => some contactInfo
  | _, _ => none

def echoed (msg : GossipMessage) : Option UInt64 :=
  match msg.messageType, msg.payload with
  | .pong, .pong nonce => some nonce
  | _, _ => none

def prunedKinds (msg : GossipMessage) : List String :=
  match msg.messageType, msg.payload with
  | .prune, .prune kinds _ => kinds
  | _, _ => []

end GossipMessage

namespace GossipProtocol

variable (C : Crypto) (toJson : GossipPayload → Bytes)

theorem forwardPush_eq (env : Ambient) (msg : GossipMessage) (p : GossipProtocol) :
    ∃ msgs, p.forwardPush toJson env msg = { p with msgSender := p.msgSender ++ msgs } ∧
      ∀ m ∈ msgs, m.messageType = .push ∧ m.payload = msg.payload := by
  have hfold : ∀ (l : List (ContactInfo × ℕ)) (q : GossipProtocol),
      ∃ msgs, l.foldl (fun p i => p.send (p.signed toJson (env.now (i.2 + 1)) .push msg.payload)) q =
          { q with msgSender := q.msgSender ++ msgs } ∧
        ∀ m ∈ msgs, m.messageType = .push ∧ m.payload = msg.payload := by
    intro l
    induction l with
    | nil =>
      intro q
      refine ⟨[], ?_, fun m hm => absurd hm List.not_mem_nil⟩
      rw [List.foldl_nil, List.append_nil]
    | cons i rest ih =>
      intro q
      obtain ⟨msgs, heq, hmsgs⟩ := ih (q.send (q.signed toJson (env.now (i.2 + 1)) .push msg.payload))
      refine ⟨q.signed toJson (env.now (i.2 + 1)) .push msg.payload :: msgs, ?_, ?_⟩
      · rw [List.foldl_cons, heq]
        simp [send]
      · rintro m (_ | ⟨_, hm⟩)
        · exact ⟨rfl, rfl⟩
        · exact hmsgs m hm
  unfold forwardPush
  split
  · refine ⟨[], ?_, fun m hm => absurd hm List.not_mem_nil⟩
    rw [List.append_nil]
  · exact hfold _ p

theorem handlePush_eq (env : Ambient) (msg : GossipMessage) (p : GossipProtocol) :
    ∃ msgs, p.handlePush toJson env msg =
        { p with
          crds := (p.crds.insertPush (env.now 0) (env.pruneOrder 0) msg).2
          msgSender := p.msgSender ++ msgs } ∧
      ∀ m ∈ msgs, m.messageType = .push ∧ m.payload = msg.payload := by
  simp only [handlePush]
  split
  · exact forwardPush_eq toJson env msg _
  · refine ⟨[], ?_, fun m hm => absurd hm List.not_mem_nil⟩
    rw [List.append_nil]

theorem contacts_insertItems (env : Ambient) (sender : Bytes32) (items : List (PushData × ℕ))
    (s : Crds) :
    (items.foldl (fun s i => (s.insertPush (env.now i.2) (env.pruneOrder i.2)
      (.new (env.now i.2) sender .push (.push i.1))).2) s).contacts = s.contacts := by
  induction items generalizing s with
  | nil => rfl
  | cons i rest ih => rw [List.foldl_cons, ih, Crds.contacts_insertPush]

structure Effect (env : Ambient) (msg : GossipMessage) (p q : GossipProtocol) : Prop where
  contacts : q.crds.contacts =
    msg.announced.elim p.crds.contacts fun c => p.crds.contacts.insert c.pubkey c
  pings : q.pendingPings = msg.echoed.elim p.pendingPings p.pendingPings.erase
  pruned : q.pruned =
    msg.prunedKinds.foldl (fun t kind => t.insert (msg.sender, kind) (env.now 0)) p.pruned

theorem effect_dispatch (env : Ambient) (msg : GossipMessage) (p : GossipProtocol) :
    Effect env msg p (p.dispatch toJson env msg) := by
  rw [dispatch]
  cases ht : msg.messageType with
  | push =>
    obtain ⟨msgs, heq, -⟩ := handlePush_eq toJson env msg p
    dsimp only
    rw [heq]
    constructor <;> simp [GossipMessage.announced, GossipMessage.echoed, GossipMessage.prunedKinds, ht]
  | pullRequest =>
    cases hp : msg.payload <;> constructor <;>
      simp [handlePullRequest, GossipMessage.announced, GossipMessage.echoed,
        GossipMessage.prunedKinds, send, ht, hp]
  | pullResponse =>
    cases hp : msg.payload <;> constructor <;>
      simp [handlePullResponse, GossipMessage.announced, GossipMessage.echoed,
        GossipMessage.prunedKinds, Crds.insertContact, contacts_insertItems, ht, hp]
  | prune =>
    cases hp : msg.payload <;> constructor <;>
      simp [handlePrune, GossipMessage.announced, GossipMessage.echoed,
        GossipMessage.prunedKinds, ht, hp]
  | ping =>
    cases hp : msg.payload <;> constructor <;>
      simp [handlePing, GossipMessage.announced, GossipMessage.echoed,
        GossipMessage.prunedKinds, send, ht, hp]
  | pong =>
    cases hp : msg.payload <;> constructor <;>
      simp [handlePong, GossipMessage.announced, GossipMessage.echoed,
        GossipMessage.prunedKinds, ht, hp]

theorem effect_handleMessage (env : Ambient) (msg : GossipMessage) (p : GossipProtocol)
    (hverified : msg.verifySignature C toJson = true) :
    Effect env msg p (p.handleMessage C toJson env msg) := by
  rw [handleMessage, hverified]
  have h := effect_dispatch toJson env msg { p with
    receivedCount := p.receivedCount.insert msg.messageType
      ((p.receivedCount.lookup msg.messageType).getD 0 + 1) }
  exact ⟨h.contacts, h.pings, h.pruned⟩

theorem lookup_foldl_pruned (sender : Bytes32) (now : UInt64) (kinds : List String)
    (t : Table (Bytes32 × String) UInt64) {peer : Bytes32} (hne : peer ≠ sender) (kind : String) :
    (kinds.foldl (fun t kind => t.insert (sender, kind) now) t).lookup (peer, kind) =
      t.lookup (peer, kind) := by
  induction kinds generalizing t with
  | nil => rfl
  | cons k rest ih =>
    rw [List.foldl_cons, ih, Table.lookup_insert, if_neg]
    exact fun h => hne (congrArg Prod.fst h)

structure SameFor (peer : Bytes32) (p q : GossipProtocol) : Prop where
  contact : q.crds.contacts.lookup peer = p.crds.contacts.lookup peer
  pings : ∀ nonce, q.pendingPings.lookup nonce = some peer ↔ p.pendingPings.lookup nonce = some peer
  prunes : ∀ kind, q.pruned.lookup (peer, kind) = p.pruned.lookup (peer, kind)

structure OwnAffairs (p : GossipProtocol) (msg : GossipMessage) : Prop where
  contact : ∀ c ∈ msg.announced,
    c.pubkey = msg.sender ∨ p.crds.contacts.lookup c.pubkey = some c
  ping : ∀ nonce ∈ msg.echoed, ∀ peer ∈ p.pendingPings.lookup nonce, peer = msg.sender

namespace Effect

variable {env : Ambient} {msg : GossipMessage} {p q : GossipProtocol}

theorem ownAffairs (h : Effect env msg p q)
    (hsame : ∀ peer, peer ≠ msg.sender → SameFor peer p q) : OwnAffairs p msg where
  contact := by
    intro c hc
    rcases eq_or_ne c.pubkey msg.sender with hown | hother
    · exact Or.inl hown
    · have hcontact := (hsame c.pubkey hother).contact
      rw [h.contacts, Option.mem_def.mp hc, Option.elim_some, Table.lookup_insert,
        if_pos rfl] at hcontact
      exact Or.inr hcontact.symm
  ping := by
    intro nonce hnonce peer hpeer
    by_contra hother
    have hping := (hsame peer hother).pings nonce
    rw [h.pings, Option.mem_def.mp hnonce, Option.elim_some, Finmap.lookup_erase] at hping
    cases hping.mpr hpeer

theorem sameFor (h : Effect env msg p q) (hown : OwnAffairs p msg) {peer : Bytes32}
    (hother : peer ≠ msg.sender) : SameFor peer p q where
  contact := by
    rw [h.contacts]
    cases hc : msg.announced with
    | none => rfl
    | some c =>
      rw [Option.elim_some, Table.lookup_insert]
      split_ifs with hpeer
      · rcases hown.contact c hc with hsender | hstored
        · exact absurd (hpeer.trans hsender) hother
        · rw [hpeer, hstored]
      · rfl
  pings := by
    intro nonce
    rw [h.pings]
    cases hn : msg.echoed with
    | none => rfl
    | some echo =>
      rw [Option.elim_some, Table.lookup_erase]
      split_ifs with hnonce
      · refine ⟨fun hnone => absurd hnone (by simp), fun hpending => ?_⟩
        exact absurd (hown.ping nonce (hnonce ▸ hn) peer hpending) hother
      · rfl
  prunes := by
    intro kind
    rw [h.pruned]
    exact lookup_foldl_pruned msg.sender _ _ _ hother kind

end Effect

theorem SameFor.trans {peer : Bytes32} {p q r : GossipProtocol} (h : SameFor peer p q)
    (h' : SameFor peer q r) : SameFor peer p r where
  contact := h'.contact.trans h.contact
  pings := fun nonce => (h'.pings nonce).trans (h.pings nonce)
  prunes := fun kind => (h'.prunes kind).trans (h.prunes kind)

def handleAll (p : GossipProtocol) (calls : List (Ambient × GossipMessage)) : GossipProtocol :=
  calls.foldl (fun p call => p.handleMessage C toJson call.1 call.2) p

def Isolates (p : GossipProtocol) (call : Ambient × GossipMessage) : Prop :=
  ∀ peer, peer ≠ call.2.sender → SameFor peer p (p.handleMessage C toJson call.1 call.2)

theorem isolates_iff (p : GossipProtocol) {call : Ambient × GossipMessage}
    (hverified : call.2.verifySignature C toJson = true) :
    Isolates C toJson p call ↔ OwnAffairs p call.2 := by
  have heffect := effect_handleMessage C toJson call.1 call.2 p hverified
  exact ⟨heffect.ownAffairs, fun hown peer hother => heffect.sameFor hown hother⟩

theorem sameFor_handleAll {peer : Bytes32} {calls : List (Ambient × GossipMessage)}
    {p : GossipProtocol} (hverified : ∀ call ∈ calls, call.2.verifySignature C toJson = true)
    (hothers : ∀ call ∈ calls, peer ≠ call.2.sender)
    (hown : ∀ before call after, calls = before ++ call :: after →
      OwnAffairs (p.handleAll C toJson before) call.2) :
    SameFor peer p (p.handleAll C toJson calls) := by
  induction calls generalizing p with
  | nil => exact ⟨rfl, fun _ => Iff.rfl, fun _ => rfl⟩
  | cons call rest ih =>
    rw [List.forall_mem_cons] at hverified hothers
    have hfirst := (isolates_iff C toJson p hverified.1).mpr (hown [] call rest rfl) peer hothers.1
    refine hfirst.trans (ih hverified.2 hothers.2 fun before next after hsplit => ?_)
    exact hown (call :: before) next after (by rw [hsplit, List.cons_append])

theorem handleMessage_isolated_iff (p : GossipProtocol) (calls : List (Ambient × GossipMessage))
    (hverified : ∀ call ∈ calls, call.2.verifySignature C toJson = true) :
    (∀ before call after, calls = before ++ call :: after →
        (Isolates C toJson (p.handleAll C toJson before) call ↔
          OwnAffairs (p.handleAll C toJson before) call.2)) ∧
      ((∀ before call after, calls = before ++ call :: after →
          OwnAffairs (p.handleAll C toJson before) call.2) →
        ∀ peer, (∀ call ∈ calls, peer ≠ call.2.sender) →
          SameFor peer p (p.handleAll C toJson calls)) := by
  refine ⟨fun before call after hsplit => isolates_iff C toJson _ (hverified call ?_), ?_⟩
  · rw [hsplit]
    exact List.mem_append_right _ List.mem_cons_self
  · exact fun hown peer hothers => sameFor_handleAll C toJson hverified hothers hown

def calm : Ambient where
  now := fun _ => 0
  pruneOrder := fun _ => .given _
  entryOrder := fun _ => .given _
  contactOrder := .given _

def signedBy (sender : Bytes32) (messageType : MessageType) (payload : GossipPayload) :
    GossipMessage :=
  ⟨sender, messageType, payload, 0, List.replicate 64 0⟩

def pingingPeer : GossipProtocol :=
  sendPing GossipPayload.json 0 5 (.default (Bytes32.splat 3))
    (.new ⟨Bytes32.splat 1, fun _ => List.replicate 64 0⟩
      ((Crds.new 10).insertContact (.default (Bytes32.splat 3))))

def ownContact : GossipMessage :=
  signedBy (Bytes32.splat 2) .pullResponse (.pullResponse [] (.default (Bytes32.splat 2)))

def ownPing : GossipMessage := signedBy (Bytes32.splat 2) .ping (.ping 6)

theorem handleMessage_isolated_announcing_itself :
    let calls := [(calm, ownContact), (calm, ownPing)]
    Isolates acceptingCrypto GossipPayload.json pingingPeer (calm, ownContact) ∧
      ∀ peer, peer ≠ Bytes32.splat 2 →
        SameFor peer pingingPeer (pingingPeer.handleAll acceptingCrypto GossipPayload.json calls) := by
  intro calls
  have hverified : ∀ call ∈ calls,
      call.2.verifySignature acceptingCrypto GossipPayload.json = true := by
    rw [List.forall_mem_cons, List.forall_mem_singleton]
    exact ⟨rfl, rfl⟩
  have hcontact : ∀ p : GossipProtocol, OwnAffairs p ownContact := fun p =>
    ⟨fun _ hc => Or.inl (Option.some.inj hc ▸ rfl), fun _ hn => absurd hn (Option.not_mem_none _)⟩
  have hping : ∀ p : GossipProtocol, OwnAffairs p ownPing := fun p =>
    ⟨fun _ hc => absurd hc (Option.not_mem_none _), fun _ hn => absurd hn (Option.not_mem_none _)⟩
  obtain ⟨hcalls, hrun⟩ :=
    handleMessage_isolated_iff acceptingCrypto GossipPayload.json pingingPeer calls hverified
  have hown : ∀ call ∈ calls, ∀ p, OwnAffairs p call.2 := by
    rw [List.forall_mem_cons, List.forall_mem_singleton]
    exact ⟨hcontact, hping⟩
  refine ⟨(hcalls [] _ _ rfl).mpr (hcontact _), fun peer hpeer => hrun ?_ peer ?_⟩
  · intro before call after hsplit
    exact hown call (hsplit ▸ List.mem_append_right _ List.mem_cons_self) _
  · rw [List.forall_mem_cons, List.forall_mem_singleton]
    exact ⟨hpeer, hpeer⟩

def foreignContact : GossipMessage :=
  signedBy (Bytes32.splat 2) .pullResponse
    (.pullResponse [] { ContactInfo.default (Bytes32.splat 3) with gossip := .localhost 6666 })

def foreignPong : GossipMessage := signedBy (Bytes32.splat 2) .pong (.pong 5)

theorem peer_state_hijacked :
    (foreignContact.verifySignature acceptingCrypto GossipPayload.json = true ∧
      foreignContact.sender ≠ Bytes32.splat 3 ∧
      ¬SameFor (Bytes32.splat 3) pingingPeer
        (pingingPeer.handleMessage acceptingCrypto GossipPayload.json calm foreignContact)) ∧
    foreignPong.verifySignature acceptingCrypto GossipPayload.json = true ∧
      foreignPong.sender ≠ Bytes32.splat 3 ∧
      ¬SameFor (Bytes32.splat 3) pingingPeer
        (pingingPeer.handleMessage acceptingCrypto GossipPayload.json calm foreignPong) := by
  refine ⟨⟨rfl, by decide, fun h => ?_⟩, rfl, by decide, fun h => ?_⟩
  · have hcontact := h.contact
    revert hcontact
    decide +kernel
  · have hping := h.pings 5
    revert hping
    decide +kernel

end GossipProtocol

end TrustNode.Gossip
