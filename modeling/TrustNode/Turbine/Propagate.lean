import TrustNode.Base.Table
import TrustNode.Turbine.Recovery

namespace TrustNode.Turbine

structure ReceivedShred where
  shred : Shred
  receivedFrom : Bytes32
  receivedAt : UInt64

structure PropagationStats where
  shredsReceived : UInt64
  blocksReassembled : UInt64
  invalidShreds : UInt64
  duplicateShreds : UInt64
  slotsPruned : UInt64

structure TurbinePropagator where
  coder : ErasureConfig
  receivedShreds : Table UInt64 (List ReceivedShred)
  stats : PropagationStats

namespace TurbinePropagator

def new : TurbinePropagator where
  coder := .defaultSolana
  receivedShreds := ∅
  stats := ⟨0, 0, 0, 0, 0⟩

def rejectInvalid (p : TurbinePropagator) : TurbinePropagator :=
  { p with stats := { p.stats with invalidShreds := p.stats.invalidShreds + 1 } }

def receiveShred (C : Crypto) (now : UInt64) (shred : Shred) (sender : Bytes32)
    (p : TurbinePropagator) : Bool × TurbinePropagator :=
  if !shred.verify C then (false, p.rejectInvalid)
  else if !shred.signature.isEmpty && !shred.verifySignature C then (false, p.rejectInvalid)
  else
    let slotShreds := (p.receivedShreds.lookup shred.slot).getD []
    if slotShreds.any fun r => r.shred.id = shred.id then
      (false,
        { p with
          receivedShreds := p.receivedShreds.insert shred.slot slotShreds
          stats := { p.stats with duplicateShreds := p.stats.duplicateShreds + 1 } })
    else
      (true,
        { p with
          receivedShreds := p.receivedShreds.insert shred.slot
            (slotShreds ++ [⟨shred, sender, now⟩])
          stats := { p.stats with shredsReceived := p.stats.shredsReceived + 1 } })

def staleSlots (slot : UInt64) (p : TurbinePropagator) : Finset UInt64 :=
  p.receivedShreds.keys.filter (· < slot)

def pruneSlotsBelow (slot : UInt64) (p : TurbinePropagator) : ℕ × TurbinePropagator :=
  let stale := p.staleSlots slot
  (stale.card,
    { p with
      receivedShreds := p.receivedShreds.eraseAll stale
      stats := if stale = ∅ then p.stats
        else { p.stats with slotsPruned := p.stats.slotsPruned + UInt64.ofNat stale.card } })

def buffered (slot : UInt64) (p : TurbinePropagator) : List Shred :=
  ((p.receivedShreds.lookup slot).getD []).map ReceivedShred.shred

def tryReassemble (slot : UInt64) (p : TurbinePropagator) :
    Except Panic (Option Bytes) × TurbinePropagator :=
  match p.receivedShreds.lookup slot with
  | none => (.ok none, p)
  | some shreds =>
    match ErasureCoder.decode p.coder (shreds.map ReceivedShred.shred) with
    | .ok (some block) =>
      (.ok (some block),
        { p with stats := { p.stats with blocksReassembled := p.stats.blocksReassembled + 1 } })
    | result => (result, p)

def Admissible (C : Crypto) (shred : Shred) : Prop :=
  shred.verify C = true ∧ (shred.signature = [] ∨ shred.verifySignature C = true)

theorem receiveShred_outcome (C : Crypto) (now : UInt64) (shred : Shred) (sender : Bytes32)
    (p : TurbinePropagator) :
    (¬Admissible C shred ∧ p.receiveShred C now shred sender = (false, p.rejectInvalid)) ∨
      Admissible C shred ∧
        (shred.id ∈ (p.buffered shred.slot).map Shred.id ∧
            p.receiveShred C now shred sender = (false,
              { p with
                receivedShreds := p.receivedShreds.insert shred.slot
                  ((p.receivedShreds.lookup shred.slot).getD [])
                stats := { p.stats with duplicateShreds := p.stats.duplicateShreds + 1 } }) ∨
          shred.id ∉ (p.buffered shred.slot).map Shred.id ∧
            p.receiveShred C now shred sender = (true,
              { p with
                receivedShreds := p.receivedShreds.insert shred.slot
                  ((p.receivedShreds.lookup shred.slot).getD [] ++ [⟨shred, sender, now⟩])
                stats := { p.stats with shredsReceived := p.stats.shredsReceived + 1 } })) := by
  unfold receiveShred
  split_ifs with hverify hsignature
  · refine .inl ⟨fun hadmissible => ?_, rfl⟩
    simp [hadmissible.1] at hverify
  · refine .inl ⟨fun hadmissible => ?_, rfl⟩
    rcases hadmissible.2 with h | h <;> simp [h] at hsignature
  · have hadmissible : Admissible C shred := by
      simp only [Bool.and_eq_true, Bool.not_eq_true', List.isEmpty_eq_false_iff, not_and,
        Bool.not_eq_false] at hverify hsignature
      exact ⟨hverify, or_iff_not_imp_left.mpr hsignature⟩
    refine .inr ⟨hadmissible, ?_⟩
    dsimp only
    split_ifs with hduplicate
    · exact .inl ⟨by simpa [buffered] using hduplicate, rfl⟩
    · exact .inr ⟨by simpa [buffered] using hduplicate, rfl⟩

theorem buffered_receiveShred (C : Crypto) (now : UInt64) (shred : Shred) (sender : Bytes32)
    (p : TurbinePropagator) (slot : UInt64) :
    ((p.receiveShred C now shred sender).2.buffered slot = p.buffered slot ++ [shred] ∧
        Admissible C shred ∧ shred.slot = slot ∧ shred.id ∉ (p.buffered slot).map Shred.id) ∨
      ((p.receiveShred C now shred sender).2.buffered slot = p.buffered slot ∧
        (Admissible C shred → shred.slot = slot → shred.id ∈ (p.buffered slot).map Shred.id)) := by
  obtain ⟨hno, he⟩ | ⟨hadmissible, ⟨hknown, he⟩ | ⟨hfresh, he⟩⟩ :=
    receiveShred_outcome C now shred sender p
  · rw [he]
    exact .inr ⟨rfl, fun hadmissible => absurd hadmissible hno⟩
  · rw [he]
    refine .inr ⟨?_, fun _ hslot => hslot ▸ hknown⟩
    rw [buffered, buffered, Table.lookup_insert]
    split_ifs with hslot
    · rw [hslot]
      rfl
    · rfl
  · rw [he]
    rcases eq_or_ne slot shred.slot with rfl | hslot
    · exact .inl ⟨by simp [buffered], hadmissible, rfl, hfresh⟩
    · refine .inr ⟨?_, fun _ h => absurd h.symm hslot⟩
      rw [buffered, buffered, Table.lookup_insert, if_neg hslot]

theorem buffered_pruneSlotsBelow (below : UInt64) (p : TurbinePropagator) (slot : UInt64) :
    (p.pruneSlotsBelow below).2.buffered slot = [] ∨
      (p.pruneSlotsBelow below).2.buffered slot = p.buffered slot := by
  simp only [buffered, pruneSlotsBelow, Table.lookup_eraseAll]
  split_ifs
  · exact Or.inl rfl
  · exact Or.inr rfl

theorem buffered_tryReassemble (p : TurbinePropagator) (slot other : UInt64) :
    (p.tryReassemble other).2.buffered slot = p.buffered slot := by
  unfold tryReassemble
  split
  · rfl
  · split <;> rfl

inductive Call where
  | receiveShred (now : UInt64) (shred : Shred) (sender : Bytes32)
  | pruneSlotsBelow (slot : UInt64)
  | tryReassemble (slot : UInt64)

def step (C : Crypto) (p : TurbinePropagator) : Call → TurbinePropagator
  | .receiveShred now shred sender => (p.receiveShred C now shred sender).2
  | .pruneSlotsBelow slot => (p.pruneSlotsBelow slot).2
  | .tryReassemble slot => (p.tryReassemble slot).2

def run (C : Crypto) (calls : List Call) : TurbinePropagator := calls.foldl (step C) new

theorem coder_step (C : Crypto) (p : TurbinePropagator) (call : Call) :
    (p.step C call).coder = p.coder := by
  cases call with
  | receiveShred now shred sender =>
    simp only [step, receiveShred]
    split_ifs <;> rfl
  | pruneSlotsBelow slot => rfl
  | tryReassemble slot =>
    simp only [step, tryReassemble]
    split
    · rfl
    · split <;> rfl

theorem coder_run (C : Crypto) (calls : List Call) : (run C calls).coder = .defaultSolana := by
  have hsteps : ∀ p : TurbinePropagator, (calls.foldl (step C) p).coder = p.coder := by
    induction calls with
    | nil => exact fun p => rfl
    | cons call rest ih => exact fun p => (ih (p.step C call)).trans (coder_step C p call)
  exact hsteps new

def Carries (C : Crypto) (config : ErasureConfig) (block : Bytes) (shred : Shred) : Prop :=
  ∃ all, ErasureCoder.encode config C block shred.slot = .ok all ∧
    ∃ t ∈ all, t.index = shred.index ∧ t.payload = shred.payload

def Forged (C : Crypto) (config : ErasureConfig) (block : Bytes) (slot : UInt64) (shred : Shred) :
    Prop :=
  Admissible C shred ∧ shred.slot = slot ∧ shred.index.toNat < config.totalShards ∧
    ¬Carries C config block shred

def Untainted (C : Crypto) (config : ErasureConfig) (block : Bytes) (slot : UInt64)
    (p : TurbinePropagator) : Prop :=
  ∀ shred ∈ p.buffered slot, shred.index.toNat < config.totalShards → Carries C config block shred

theorem Untainted.step {C : Crypto} {config : ErasureConfig} {block : Bytes} {slot : UInt64}
    {p : TurbinePropagator} (h : Untainted C config block slot p) {call : Call}
    (hcall : ∀ now shred sender, call = .receiveShred now shred sender →
      ¬Forged C config block slot shred) :
    Untainted C config block slot (p.step C call) := by
  unfold Untainted
  cases call with
  | receiveShred now shred sender =>
    rw [TurbinePropagator.step]
    rcases buffered_receiveShred C now shred sender p slot with
      ⟨hpushed, hadmissible, hslot, -⟩ | ⟨hsame, -⟩
    · rw [hpushed, List.forall_mem_append, List.forall_mem_singleton]
      refine ⟨h, fun hindex => ?_⟩
      by_contra hcarries
      exact hcall now shred sender rfl ⟨hadmissible, hslot, hindex, hcarries⟩
    · rw [hsame]
      exact h
  | pruneSlotsBelow below =>
    rcases buffered_pruneSlotsBelow below p slot with hnil | hsame
    · rw [TurbinePropagator.step, hnil]
      exact fun _ hs => absurd hs List.not_mem_nil
    · rw [TurbinePropagator.step, hsame]
      exact h
  | tryReassemble other =>
    rw [TurbinePropagator.step, buffered_tryReassemble]
    exact h

theorem untainted_run {C : Crypto} {block : Bytes} {slot : UInt64} {calls : List Call}
    (hcalls : ∀ now shred sender, .receiveShred now shred sender ∈ calls →
      ¬Forged C .defaultSolana block slot shred) :
    Untainted C .defaultSolana block slot (run C calls) := by
  have hsteps : ∀ p, Untainted C .defaultSolana block slot p →
      Untainted C .defaultSolana block slot (calls.foldl (TurbinePropagator.step C) p) := by
    induction calls with
    | nil => exact fun p hp => hp
    | cons call rest ih =>
      intro p hp
      refine ih (fun now shred sender hmem => hcalls now shred sender (.tail _ hmem)) _
        (hp.step fun now shred sender heq => ?_)
      exact hcalls now shred sender (heq ▸ List.mem_cons_self)
  exact hsteps _ fun _ hs => absurd hs List.not_mem_nil

theorem Untainted.decode {C : Crypto} {config : ErasureConfig} {block : Bytes} {slot : UInt64}
    {p : TurbinePropagator} (h : Untainted C config block slot p) (hk : 1 ≤ config.dataShards)
    (htotal : config.dataShards + config.parityShards ≤ 256) (hlen : block.length < 2 ^ 64) :
    ErasureCoder.decode config (p.buffered slot) = .ok none ∨
      ErasureCoder.decode config (p.buffered slot) = .ok (some block) := by
  obtain ⟨g, hg, hgen⟩ := generator_spec htotal
  have hcode : ∀ s ∈ p.buffered slot, ∀ hindex : s.index.toNat < config.totalShards,
      ErasureCoder.Codeword config block g ⟨s.index.toNat, hindex⟩ s.payload := by
    intro s hs hindex
    obtain ⟨all, hall, t, ht, hti, htp⟩ := h s hs hindex
    exact ErasureCoder.codeword_of_encode hk htotal hg hgen hall ht hti htp hindex
  rw [ErasureCoder.decode_of_codewords hk hg hgen hlen hcode]
  split_ifs
  · exact Or.inr rfl
  · exact Or.inl rfl

theorem tryReassemble_result (p : TurbinePropagator) (slot : UInt64) :
    (p.tryReassemble slot).1 =
      if slot ∈ p.receivedShreds then ErasureCoder.decode p.coder (p.buffered slot)
      else .ok none := by
  unfold tryReassemble buffered
  split
  · next hnone => rw [if_neg (Finmap.lookup_eq_none.mp hnone)]
  · next shreds hsome =>
    rw [if_pos (Finmap.mem_of_lookup_eq_some hsome), hsome, Option.getD_some]
    split
    · next block hdecode => exact hdecode.symm
    · rfl

theorem mem_receivedShreds {p : TurbinePropagator} {slot : UInt64} (h : p.buffered slot ≠ []) :
    slot ∈ p.receivedShreds := by
  by_contra hmem
  apply h
  rw [buffered, Finmap.lookup_eq_none.mpr hmem]
  rfl

theorem reassembles_only_carried_block (C : Crypto) (block : Bytes) (slot : UInt64)
    (calls : List Call) (hlen : block.length < 2 ^ 64)
    (hcalls : ∀ now shred sender, .receiveShred now shred sender ∈ calls →
      ¬Forged C .defaultSolana block slot shred) :
    ((run C calls).tryReassemble slot).1 = .ok none ∨
      ((run C calls).tryReassemble slot).1 = .ok (some block) := by
  rw [tryReassemble_result, coder_run]
  split
  · exact (untainted_run hcalls).decode (by decide) (by decide) hlen
  · exact Or.inl rfl

def producer : SigningKey := ⟨Bytes32.splat 1, fun _ => List.replicate 64 0⟩

def deliver (shreds : List Shred) : List Call :=
  shreds.map fun shred => .receiveShred 0 shred (Bytes32.splat 0)

theorem reassembles_only_carried_block_signed :
    ∃ genuine, ErasureCoder.encode .defaultSolana acceptingCrypto [1] 7 = .ok genuine ∧
      let p := run acceptingCrypto
        (deliver (Shred.newData acceptingCrypto 7 99 [5] :: genuine.map (Shred.sign producer)))
      (p.tryReassemble 7).1 = .ok none ∨ (p.tryReassemble 7).1 = .ok (some [1]) := by
  obtain ⟨g, hg, -⟩ := generator_spec (k := ErasureConfig.defaultSolana.dataShards)
    (m := ErasureConfig.defaultSolana.parityShards) (by decide)
  have hencode : ErasureCoder.encode .defaultSolana acceptingCrypto [1] 7 =
      .ok (ErasureCoder.shards .defaultSolana acceptingCrypto [1] 7 g) :=
    ErasureCoder.encode_eq (by decide) hg
  refine ⟨_, hencode, reassembles_only_carried_block acceptingCrypto [1] 7 _ (by decide) ?_⟩
  rintro now shred sender hmem ⟨-, hslot, hindex, hforeign⟩
  obtain ⟨s, hs, heq⟩ := List.mem_map.mp hmem
  obtain rfl : s = shred := by cases heq; rfl
  rcases List.mem_cons.mp hs with rfl | hs
  · exact absurd hindex (by decide)
  · obtain ⟨t, ht, rfl⟩ := List.mem_map.mp hs
    exact hforeign ⟨_, hslot ▸ hencode, t, ht, rfl, rfl⟩

section Poisoning

theorem buffered_deliver_fresh {C : Crypto} {slot : UInt64} {shreds : List Shred}
    {p : TurbinePropagator} (hadmissible : ∀ s ∈ shreds, Admissible C s ∧ s.slot = slot)
    (hids : ((p.buffered slot ++ shreds).map Shred.id).Nodup) :
    ((deliver shreds).foldl (step C) p).buffered slot = p.buffered slot ++ shreds := by
  induction shreds generalizing p with
  | nil => simp [deliver]
  | cons s rest ih =>
    obtain ⟨⟨hs, hslot⟩, hrest⟩ := List.forall_mem_cons.mp hadmissible
    have hpush : (p.step C (.receiveShred 0 s (Bytes32.splat 0))).buffered slot =
        p.buffered slot ++ [s] := by
      rcases buffered_receiveShred C 0 s (Bytes32.splat 0) p slot with h | h
      · exact h.1
      · have hmem := h.2 hs hslot
        rw [List.map_append, List.map_cons, List.nodup_append] at hids
        exact absurd rfl (hids.2.2 _ hmem _ List.mem_cons_self)
    have hstep := ih (p := p.step C (.receiveShred 0 s (Bytes32.splat 0))) hrest (by
      rw [hpush, List.append_assoc]
      exact hids)
    rw [hpush, List.append_assoc] at hstep
    exact hstep

theorem buffered_deliver_known {C : Crypto} {slot : UInt64} {shreds : List Shred}
    {p : TurbinePropagator} (hids : ∀ s ∈ shreds, s.id ∈ (p.buffered slot).map Shred.id) :
    ((deliver shreds).foldl (step C) p).buffered slot = p.buffered slot := by
  induction shreds generalizing p with
  | nil => rfl
  | cons s rest ih =>
    obtain ⟨hs, hrest⟩ := List.forall_mem_cons.mp hids
    have hsame : (p.step C (.receiveShred 0 s (Bytes32.splat 0))).buffered slot =
        p.buffered slot := by
      rcases buffered_receiveShred C 0 s (Bytes32.splat 0) p slot with h | h
      · exact absurd hs h.2.2.2
      · exact h.1
    have hstep := ih (p := p.step C (.receiveShred 0 s (Bytes32.splat 0))) (by
      rw [hsame]
      exact hrest)
    rw [hsame] at hstep
    exact hstep

variable {config : ErasureConfig} {C : Crypto} {slot : UInt64}
  {g : GaussJordan.Rows Gf256 config.totalShards config.dataShards}

theorem unsigned_of_mem_shards {block : Bytes} {s : Shred}
    (hs : s ∈ ErasureCoder.shards config C block slot g) :
    s.verify C = true ∧ s.signature = [] ∧ s.slot = slot := by
  rcases List.mem_append.mp hs with hs | hs
  · obtain ⟨i, -, rfl⟩ := List.mem_map.mp hs
    exact ⟨beq_self_eq_true _, rfl, rfl⟩
  · obtain ⟨i, -, rfl⟩ := List.mem_map.mp hs
    exact ⟨beq_self_eq_true _, rfl, rfl⟩

def shredIds (config : ErasureConfig) (slot : UInt64) : List ShredId :=
  (List.finRange config.dataShards).map (fun i => ⟨slot, UInt64.ofNat i, .data⟩) ++
    (List.finRange config.parityShards).map fun i =>
      ⟨slot, UInt64.ofNat (config.dataShards + i), .coding⟩

theorem map_id_shards (block : Bytes) :
    (ErasureCoder.shards config C block slot g).map Shred.id = shredIds config slot := by
  rw [ErasureCoder.shards, List.map_append, List.map_map, List.map_map]
  rfl

theorem map_index_shards (block : Bytes) :
    (ErasureCoder.shards config C block slot g).map Shred.index =
      (shredIds config slot).map ShredId.index := by
  rw [ErasureCoder.shards, shredIds, List.map_append, List.map_append, List.map_map, List.map_map,
    List.map_map, List.map_map]
  rfl

theorem buffered_poisoned (hids : (shredIds config slot).Nodup) (block forged : Bytes) :
    (run C (deliver (ErasureCoder.shards config C forged slot g ++
      (ErasureCoder.shards config C block slot g).map (Shred.sign producer)))).buffered slot =
        ErasureCoder.shards config C forged slot g := by
  have hfresh : ((deliver (ErasureCoder.shards config C forged slot g)).foldl (step C)
      new).buffered slot = ErasureCoder.shards config C forged slot g := by
    refine buffered_deliver_fresh (fun s hs => ?_) ?_
    · obtain ⟨hverify, hunsigned, hslot⟩ := unsigned_of_mem_shards hs
      exact ⟨⟨hverify, Or.inl hunsigned⟩, hslot⟩
    · change ((ErasureCoder.shards config C forged slot g).map Shred.id).Nodup
      rwa [map_id_shards]
  rw [run, deliver, List.map_append, List.foldl_append]
  refine (buffered_deliver_known ?_).trans hfresh
  intro s hs
  obtain ⟨t, ht, rfl⟩ := List.mem_map.mp hs
  have hid : t.id ∈ (ErasureCoder.shards config C block slot g).map Shred.id :=
    List.mem_map_of_mem ht
  rw [map_id_shards, ← map_id_shards forged] at hid
  exact hfresh.symm ▸ hid

theorem forged_block_reassembled :
    ∃ genuine forged : List Shred,
      ErasureCoder.encode .defaultSolana acceptingCrypto [1] 7 = .ok genuine ∧
        ErasureCoder.encode .defaultSolana acceptingCrypto [2] 7 = .ok forged ∧
        16 ≤ (genuine.map Shred.index).toFinset.card ∧
        (∀ s ∈ genuine, (s.sign producer).verifySignature acceptingCrypto = true) ∧
        (∀ s ∈ forged, s.verifySignature acceptingCrypto = false) ∧
        ((run acceptingCrypto (deliver (forged ++ genuine.map (Shred.sign producer)))).tryReassemble
          7).1 = .ok (some [2]) := by
  obtain ⟨g, hg, hgen⟩ := generator_spec (k := ErasureConfig.defaultSolana.dataShards)
    (m := ErasureConfig.defaultSolana.parityShards) (by decide)
  set genuine := ErasureCoder.shards .defaultSolana acceptingCrypto [1] 7 g
  set forged := ErasureCoder.shards .defaultSolana acceptingCrypto [2] 7 g
  have hids : forged.map Shred.id = shredIds .defaultSolana 7 := map_id_shards [2]
  have hcard : 16 ≤ ((shredIds .defaultSolana 7).map ShredId.index).toFinset.card := by
    decide +kernel
  have hbuffered : (run acceptingCrypto
      (deliver (forged ++ genuine.map (Shred.sign producer)))).buffered 7 = forged :=
    buffered_poisoned (by decide +kernel) [1] [2]
  refine ⟨genuine, forged, ErasureCoder.encode_eq (by decide) hg,
    ErasureCoder.encode_eq (by decide) hg, ?_, fun s hs => rfl, fun s hs => ?_, ?_⟩
  · rwa [map_index_shards]
  · obtain ⟨-, hunsigned, -⟩ := unsigned_of_mem_shards hs
    rw [Shred.verifySignature, hunsigned]
    rfl
  · have hne : forged ≠ [] := by
      intro hnil
      rw [hnil] at hids
      exact absurd hids (by decide)
    rw [tryReassemble_result, if_pos (mem_receivedShreds (by rwa [hbuffered])), coder_run, hbuffered]
    refine ErasureCoder.decode_of_shards (by decide) (by decide) hg hgen (by decide)
      (fun s hs => hs) ?_
    rwa [map_index_shards]

end Poisoning

end TurbinePropagator

end TrustNode.Turbine
