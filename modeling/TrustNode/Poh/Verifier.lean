import TrustNode.Base.Sha256
import TrustNode.Poh.Entry

namespace TrustNode.Poh

def debugHash (h : Bytes32) : String := "PohHash(" ++ toString (h.toList.map UInt8.toNat) ++ ")"

structure VerificationResult where
  valid : Bool
  errors : List String
  entriesVerified : UInt64
  totalHashesVerified : UInt64
deriving DecidableEq

namespace VerificationResult

def ok (entries hashes : UInt64) : VerificationResult := ⟨true, [], entries, hashes⟩

def fail (error : String) : VerificationResult := ⟨false, [error], 0, 0⟩

def addError (r : VerificationResult) (error : String) : VerificationResult :=
  { r with errors := r.errors ++ [error], valid := false }

end VerificationResult

namespace PohVerifier

def checkHashes (C : Crypto) : ℕ → UInt64 → List PohEntry → Except String UInt64
  | _, totalHashes, [] => .ok totalHashes
  | i, totalHashes, entry :: rest =>
    if entry.verify C then checkHashes C (i + 1) (totalHashes + entry.numHashes) rest
    else .error s!"Entry {i} hash verification failed"

def checkChain : List PohEntry → Except String Unit
  | current :: next :: rest =>
    if next.prevHash ≠ current.hash then
      .error ("Chain break: next.prev_hash " ++ debugHash next.prevHash ++ " != current.hash " ++
        debugHash current.hash)
    else checkChain (next :: rest)
  | _ => .ok ()

def verifySlotEntries (C : Crypto) (entries : List PohEntry) : VerificationResult :=
  if entries.isEmpty then .fail "Empty entries"
  else
    match checkHashes C 0 0 entries with
    | .error e => .fail e
    | .ok totalHashes =>
      match checkChain entries with
      | .error e => .fail e
      | .ok () => .ok (UInt64.ofNat entries.length) totalHashes

def verifyBlock (C : Crypto) (block : Entry) : VerificationResult :=
  let result := verifySlotEntries C block.entries
  if result.valid then
    match block.entries.getLast? with
    | some last =>
      if last.hash ≠ block.hash then
        result.addError ("Block hash mismatch: expected " ++ debugHash block.hash ++ ", got " ++
          debugHash last.hash)
      else result
    | none => result
  else result

def verifyChainLink (parent child : Entry) : VerificationResult :=
  if parent.hash ≠ child.parentHash then
    .fail ("Chain link broken: parent hash " ++ debugHash parent.hash ++
      " != child parent_hash " ++ debugHash child.parentHash)
  else if child.slot ≠ parent.slot + 1 then
    .fail s!"Slot discontinuity: parent={parent.slot}, child={child.slot}"
  else if child.height ≠ parent.height + 1 then
    .fail s!"Height discontinuity: parent={parent.height}, child={child.height}"
  else .ok 0 0

theorem checkHashes_isOk (C : Crypto) (i : ℕ) (totalHashes : UInt64) (l : List PohEntry) :
    (∃ total, checkHashes C i totalHashes l = .ok total) ↔ ∀ e ∈ l, e.verify C = true := by
  induction l generalizing i totalHashes with
  | nil => simp [checkHashes]
  | cons e rest ih =>
    rw [checkHashes, List.forall_mem_cons]
    split_ifs with he
    · rw [ih]
      simp [he]
    · simp [he]

theorem checkChain_eq_ok {l : List PohEntry} :
    checkChain l = .ok () ↔ l.IsChain PohEntry.Follows := by
  induction l with
  | nil => simp [checkChain]
  | cons a rest ih =>
    cases rest with
    | nil => simp [checkChain]
    | cons b rest =>
      rw [checkChain, List.isChain_cons_cons, ← ih]
      split_ifs with hb
      · simp [PohEntry.Follows, hb]
      · simp [PohEntry.Follows, not_not.mp hb]

theorem verifySlotEntries_valid {C : Crypto} {l : List PohEntry} :
    (verifySlotEntries C l).valid = true ↔
      l ≠ [] ∧ (∀ e ∈ l, e.verify C = true) ∧ l.IsChain PohEntry.Follows := by
  rw [← checkHashes_isOk C 0 0, ← checkChain_eq_ok, verifySlotEntries]
  cases l with
  | nil => simp [VerificationResult.fail]
  | cons e rest =>
    cases hhashes : checkHashes C 0 0 (e :: rest) with
    | error msg => simp [VerificationResult.fail]
    | ok total =>
      cases hchain : checkChain (e :: rest) with
      | error msg => simp [VerificationResult.fail]
      | ok _ => simp [VerificationResult.ok]

theorem verifyBlock_valid {C : Crypto} {block : Entry} :
    (verifyBlock C block).valid = true ↔
      (verifySlotEntries C block.entries).valid = true ∧
        ∀ last ∈ block.entries.getLast?, last.hash = block.hash := by
  rw [verifyBlock]
  cases hlast : block.entries.getLast? with
  | none => simp
  | some last =>
    by_cases hvalid : (verifySlotEntries C block.entries).valid = true
    · by_cases hhash : last.hash = block.hash
      · simp [hvalid, hhash]
      · simp [hvalid, hhash, VerificationResult.addError]
    · simp [hvalid]

theorem verifyChainLink_parent {parent child : Entry}
    (h : (verifyChainLink parent child).valid = true) : child.parentHash = parent.hash := by
  unfold verifyChainLink at h
  split_ifs at h with hparent
  all_goals first | exact (not_not.mp hparent).symm | cases h

structure Accepts (C : Crypto) (blocks : List Entry) : Prop where
  each : ∀ block ∈ blocks, (verifyBlock C block).valid = true
  links : blocks.IsChain fun parent child => (verifyChainLink parent child).valid = true

theorem follows_across_iff {C : Crypto} {parent child : Entry}
    (hparent : (verifyBlock C parent).valid = true) (hchild : (verifyBlock C child).valid = true)
    (hlink : (verifyChainLink parent child).valid = true) :
    (∀ x ∈ parent.entries.getLast?, ∀ y ∈ child.entries.head?, PohEntry.Follows x y) ↔
      child.verifyPohChain C = true := by
  obtain ⟨hparent, hlast⟩ := verifyBlock_valid.mp hparent
  obtain ⟨hchild, -⟩ := verifyBlock_valid.mp hchild
  obtain ⟨hne, -, -⟩ := verifySlotEntries_valid.mp hparent
  obtain ⟨hne', hverified, hchained⟩ := verifySlotEntries_valid.mp hchild
  obtain ⟨first, rest, hentries⟩ := List.exists_cons_of_ne_nil hne'
  have hgetLast := List.getLast?_eq_some_getLast hne
  have hhash := hlast _ hgetLast
  have hroot := verifyChainLink_parent hlink
  rw [Entry.verifyPohChain_iff, hgetLast, hentries]
  rw [hentries] at hverified hchained
  simp only [Option.mem_def, Option.some.injEq, forall_eq', List.head?_cons, PohEntry.Follows,
    Option.map_some, hhash, hroot]
  exact ⟨fun h => ⟨hverified, hchained, h⟩, fun h => h.2.2⟩

theorem accepted_chained_iff {C : Crypto} {blocks : List Entry} (h : Accepts C blocks) :
    (blocks.flatMap Entry.entries).IsChain PohEntry.Follows ↔
      ∀ block ∈ blocks.tail, block.verifyPohChain C = true := by
  obtain ⟨hblocks, hlinks⟩ := h
  induction blocks with
  | nil => simp
  | cons parent rest ih =>
    have hvalid := verifyBlock_valid.mp (hblocks parent List.mem_cons_self)
    obtain ⟨-, -, hchained⟩ := verifySlotEntries_valid.mp hvalid.1
    cases rest with
    | nil => simpa using hchained
    | cons child rest =>
      obtain ⟨hlink, hlinks⟩ := List.isChain_cons_cons.mp hlinks
      have hchild := hblocks child (List.mem_cons_of_mem _ List.mem_cons_self)
      have htail := ih (fun block hb => hblocks block (List.mem_cons_of_mem _ hb)) hlinks
      have hne := (verifySlotEntries_valid.mp (verifyBlock_valid.mp hchild).1).1
      have hhead : ((child :: rest).flatMap Entry.entries).head? = child.entries.head? := by
        rw [List.flatMap_cons, List.head?_append_of_ne_nil _ hne]
      rw [List.flatMap_cons, List.isChain_append, hhead, htail,
        follows_across_iff (hblocks parent List.mem_cons_self) hchild hlink]
      simp only [hchained, true_and, List.tail_cons, List.forall_mem_cons]
      exact and_comm

def genesisBlock (C : Crypto) : Entry :=
  let tick := PohEntry.tick C (Bytes32.splat 0) 1 1 0
  ⟨tick.hash, 1, Bytes32.splat 0, [tick], 1, 0⟩

def childBlock (C : Crypto) (prevHash : Bytes32) : Entry :=
  let tick := PohEntry.tick C prevHash 1 2 0
  ⟨tick.hash, 2, (genesisBlock C).hash, [tick], 2, 0⟩

theorem accepted_chained_two :
    Accepts acceptingCrypto
        [genesisBlock acceptingCrypto,
          childBlock acceptingCrypto (genesisBlock acceptingCrypto).hash] ∧
      ([genesisBlock acceptingCrypto,
          childBlock acceptingCrypto (genesisBlock acceptingCrypto).hash].flatMap
        Entry.entries).IsChain PohEntry.Follows := by
  have haccepts : Accepts acceptingCrypto
      [genesisBlock acceptingCrypto,
        childBlock acceptingCrypto (genesisBlock acceptingCrypto).hash] :=
    ⟨by decide +kernel, by decide +kernel⟩
  exact ⟨haccepts, (accepted_chained_iff haccepts).mpr (by decide +kernel)⟩

theorem accepted_fork_unchained :
    Accepts acceptingCrypto
        [genesisBlock acceptingCrypto, childBlock acceptingCrypto (Bytes32.splat 9)] ∧
      ¬([genesisBlock acceptingCrypto, childBlock acceptingCrypto (Bytes32.splat 9)].flatMap
        Entry.entries).IsChain PohEntry.Follows := by
  refine ⟨⟨?_, ?_⟩, ?_⟩ <;> decide +kernel

end PohVerifier

end TrustNode.Poh
