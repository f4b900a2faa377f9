import TrustNode.Turbine.Recovery

namespace TrustNode.Turbine.ErasureCoder

open Bytes
open GaussJordan

variable (config : ErasureConfig)

section Indexed

variable {k n : ℕ}

def payloadByte (s : Shred) (j : ℕ) : Except Panic Gf256 :=
  match s.payload[j]? with
  | some b => .ok ⟨b⟩
  | none => .error .indexOutOfRange

def cell (row : Vector Gf256 k) (selected : Vector (Fin n × Shred) k) (j : ℕ) :
    Except Panic Gf256 :=
  (List.finRange k).foldlM
    (fun acc r => (payloadByte (selected.get r).2 j).map fun b => acc + row.get r * b) 0

def write (buf : Bytes) (i : ℕ) (byte : Gf256) : Except Panic Bytes :=
  if i < buf.length then .ok (buf.set i byte.byte) else .error .indexOutOfRange

def writeRow (base : ℕ) (value : Fin n → Except Panic Gf256) (buf : Bytes) : Except Panic Bytes :=
  (List.finRange n).foldlM (fun buf j => (value j).bind (write buf (base + j))) buf

def fillRow (subInv : Rows Gf256 k k) (selected : Vector (Fin n × Shred) k) (size : ℕ) (buf : Bytes)
    (c : Fin k) : Except Panic Bytes :=
  writeRow (c.val * size) (fun j : Fin size => cell (subInv.get c) selected j) buf

def fill (subInv : Rows Gf256 k k) (selected : Vector (Fin n × Shred) k) (size : ℕ) :
    Except Panic Bytes :=
  (List.finRange k).foldlM (fillRow subInv selected size) (List.replicate (k * size) 0)

end Indexed

def recoverIndexed (selected : Vector (Fin config.totalShards × Shred) config.dataShards)
    (size : ℕ) : Except Panic (Option Bytes) :=
  match generator config.dataShards config.parityShards with
  | none => .ok none
  | some g =>
    match matInv (Vector.ofFn fun r => g.get (selected.get r).1) with
    | none => .ok none
    | some subInv => (fill subInv selected size).map some

def decodeIndexed (shreds : List Shred) : Except Panic (Option Bytes) :=
  match select config (byIndex config shreds) with
  | none => .ok none
  | some selected =>
    match selected.toList.head? with
    | none => .error .indexOutOfRange
    | some first =>
      let size := first.2.payload.length
      if size = 0 ∨ selected.any (fun s => s.2.payload.length ≠ size) = true then .ok none
      else
        match recoverIndexed config selected size with
        | .error e => .error e
        | .ok none => .ok none
        | .ok (some buf) => stripLength buf

section Filling

variable {k n size : ℕ} {selected : Vector (Fin n × Shred) k}

theorem foldlM_ok {α β ε : Type*} {f : α → β → Except ε α} {g : α → β → α} {l : List β}
    (h : ∀ a, ∀ b ∈ l, f a b = .ok (g a b)) (a : α) : l.foldlM f a = .ok (l.foldl g a) := by
  induction l generalizing a with
  | nil => rfl
  | cons b rest ih =>
    rw [List.foldlM_cons, h a b List.mem_cons_self]
    exact ih (fun a b hb => h a b (List.mem_cons_of_mem _ hb)) (g a b)

theorem payloadByte_eq {s : Shred} {j : ℕ} (h : j < s.payload.length) :
    payloadByte s j = .ok ⟨s.payload.getD j 0⟩ := by
  rw [payloadByte, List.getElem?_eq_getElem h, List.getD_eq_getElem?_getD,
    List.getElem?_eq_getElem h]
  rfl

theorem cell_eq (hlength : ∀ r : Fin k, (selected.get r).2.payload.length = size)
    (subInv : Rows Gf256 k k) (c : Fin k) (j : Fin size) :
    cell (subInv.get c) selected j = .ok ((product subInv (received selected size)).get c |>.get j) := by
  have hstep : ∀ (acc : Gf256), ∀ r ∈ List.finRange k,
      (payloadByte (selected.get r).2 j).map (fun b => acc + (subInv.get c).get r * b) =
        .ok (acc + (subInv.get c).get r * ((received selected size).get r).get j) := by
    intro acc r _
    rw [payloadByte_eq ((hlength r).symm ▸ j.isLt)]
    simp [received, Except.map, get_eq_getElem]
  rw [cell, foldlM_ok hstep]
  simp [product, get_eq_getElem]

theorem write_append (done : Bytes) (rest : ℕ) (byte : Gf256) :
    write (done ++ List.replicate (rest + 1) 0) done.length byte =
      .ok (done ++ [byte.byte] ++ List.replicate rest 0) := by
  rw [write, if_pos (by simp)]
  simp [List.replicate_succ]

theorem writes_eq {value : Fin n → Except Panic Gf256} {f : Fin n → Gf256} {base : ℕ}
    (hvalue : ∀ j, value j = .ok (f j)) (rest : ℕ) {js : List (Fin n)} {done : Bytes}
    (hjs : js.map (fun j => base + j.val) = List.range' done.length js.length) :
    js.foldlM (fun buf j => (value j).bind (write buf (base + j)))
        (done ++ List.replicate (js.length + rest) 0) =
      .ok (done ++ js.map (fun j => (f j).byte) ++ List.replicate rest 0) := by
  induction js generalizing done with
  | nil => simp [pure, Except.pure]
  | cons j js ih =>
    rw [List.map_cons, List.length_cons, List.range'_succ, List.cons.injEq] at hjs
    obtain ⟨hj, hjs⟩ := hjs
    have hlength : (done ++ [(f j).byte]).length = done.length + 1 := by simp
    rw [← hlength] at hjs
    have hnext := ih hjs
    rw [List.foldlM_cons, hvalue j, hj, List.length_cons, Nat.add_right_comm]
    change (write _ _ (f j)).bind _ = _
    rw [write_append]
    simpa [Except.bind] using hnext

theorem map_add_finRange (base n : ℕ) :
    (List.finRange n).map (fun j => base + j.val) = List.range' base n := by
  rw [List.range'_eq_map_range, ← List.map_coe_finRange_eq_range, List.map_map]
  rfl

theorem writeRow_eq {value : Fin n → Except Panic Gf256} {row : Vector Gf256 n}
    (hvalue : ∀ j, value j = .ok (row.get j)) (done : Bytes) (rest : ℕ) :
    writeRow done.length value (done ++ List.replicate (n + rest) 0) =
      .ok (done ++ rowBytes row ++ List.replicate rest 0) := by
  have hcells : (List.finRange n).map (fun j => done.length + j.val) =
      List.range' done.length (List.finRange n).length := by
    rw [map_add_finRange, List.length_finRange]
  have hrow := writes_eq hvalue rest hcells
  rw [List.length_finRange] at hrow
  rw [writeRow, hrow, rowBytes, toList_eq_map_get, List.map_map]
  rfl

theorem rows_eq {rows : Rows Gf256 k size} {step : Bytes → Fin k → Except Panic Bytes}
    (hstep : ∀ (c : Fin k) (done : Bytes) (rest : ℕ), done.length = c.val * size →
      step (done ++ List.replicate (size + rest) 0) c =
        .ok (done ++ rowBytes (rows.get c) ++ List.replicate rest 0))
    {cs : List (Fin k)} {first : ℕ} {done : Bytes}
    (hcs : cs.map Fin.val = List.range' first cs.length) (hdone : done.length = first * size) :
    cs.foldlM step (done ++ List.replicate (cs.length * size) 0) =
      .ok (done ++ cs.flatMap fun c => rowBytes (rows.get c)) := by
  induction cs generalizing first done with
  | nil => simp [pure, Except.pure]
  | cons c cs ih =>
    rw [List.map_cons, List.length_cons, List.range'_succ, List.cons.injEq] at hcs
    obtain ⟨rfl, hcs⟩ := hcs
    have hlength : (done ++ rowBytes (rows.get c)).length = (c.val + 1) * size := by
      rw [List.length_append, length_rowBytes, hdone, Nat.succ_mul]
    rw [List.foldlM_cons, List.length_cons, Nat.succ_mul, Nat.add_comm, hstep c done _ hdone]
    simpa [bind, Except.bind] using ih hcs hlength

theorem fillRow_eq (hlength : ∀ r : Fin k, (selected.get r).2.payload.length = size)
    (subInv : Rows Gf256 k k) (c : Fin k) (done : Bytes) (rest : ℕ)
    (hdone : done.length = c.val * size) :
    fillRow subInv selected size (done ++ List.replicate (size + rest) 0) c =
      .ok (done ++ rowBytes ((product subInv (received selected size)).get c) ++
        List.replicate rest 0) := by
  rw [fillRow, ← hdone]
  exact writeRow_eq (fun j => cell_eq hlength subInv c j) done rest

theorem fill_eq (hlength : ∀ r : Fin k, (selected.get r).2.payload.length = size)
    (subInv : Rows Gf256 k k) :
    fill subInv selected size = .ok (flatten (product subInv (received selected size))) := by
  have hrange : (List.finRange k).map Fin.val = List.range' 0 (List.finRange k).length := by
    simp [List.range_eq_range']
  have hnothing : ([] : Bytes).length = 0 * size := (Nat.zero_mul size).symm
  have hrows := rows_eq (fillRow_eq hlength subInv) hrange hnothing
  rw [List.nil_append, List.nil_append, List.length_finRange, ← flatten_eq] at hrows
  exact hrows

end Filling

section Safety

variable {config} {shreds : List Shred}
  {selected : Vector (Fin config.totalShards × Shred) config.dataShards}

theorem recoverIndexed_eq {size : ℕ}
    (hlength : ∀ r : Fin config.dataShards, (selected.get r).2.payload.length = size) :
    recoverIndexed config selected size = .ok (recover config selected size) := by
  unfold recoverIndexed recover
  cases generator config.dataShards config.parityShards with
  | none => rfl
  | some g =>
    dsimp only
    change _ = Except.ok ((matInv (Vector.ofFn fun r => g.get (selected.get r).1)).bind fun subInv =>
      some (flatten (product subInv (received selected size))))
    cases matInv (Vector.ofFn fun r => g.get (selected.get r).1) with
    | none => rfl
    | some subInv =>
      dsimp only
      rw [fill_eq hlength subInv]
      rfl

theorem length_of_uniform {size : ℕ}
    (h : ¬selected.any (fun s => s.2.payload.length ≠ size) = true) (r : Fin config.dataShards) :
    (selected.get r).2.payload.length = size := by
  rw [Bool.not_eq_true, Vector.any_eq_false] at h
  simpa [get_eq_getElem] using h r.val r.isLt

theorem decodeIndexed_eq (config : ErasureConfig) (shreds : List Shred) :
    decodeIndexed config shreds = decode config shreds := by
  unfold decodeIndexed decode
  cases select config (byIndex config shreds) with
  | none => rfl
  | some selected =>
    dsimp only
    cases selected.toList.head? with
    | none => rfl
    | some first =>
      dsimp only
      split_ifs with hbad
      · rfl
      · rw [recoverIndexed_eq (length_of_uniform fun h => hbad (.inr h))]
        cases recover config selected first.2.payload.length with
        | none => rfl
        | some buf => rfl

def Uniform (config : ErasureConfig) (shreds : List Shred) (size : ℕ) : Prop :=
  ∃ selected, select config (byIndex config shreds) = some selected ∧ 1 ≤ size ∧
    ∀ r : Fin config.dataShards, (selected.get r).2.payload.length = size

theorem Uniform.unique {size size' : ℕ} (hk : 1 ≤ config.dataShards)
    (h : Uniform config shreds size) (h' : Uniform config shreds size') : size = size' := by
  obtain ⟨selected, hselect, -, hlength⟩ := h
  obtain ⟨selected', hselect', -, hlength'⟩ := h'
  obtain rfl := Option.some.inj (hselect.symm.trans hselect')
  exact (hlength ⟨0, hk⟩).symm.trans (hlength' ⟨0, hk⟩)

theorem length_flatten {k w : ℕ} (rows : Rows Gf256 k w) : (flatten rows).length = k * w := by
  simp [flatten_eq, List.length_flatMap, length_rowBytes]

theorem recover_total (htotal : config.dataShards + config.parityShards ≤ 256)
    (hinj : Function.Injective fun r : Fin config.dataShards => (selected.get r).1) (size : ℕ) :
    ∃ buf, recover config selected size = some buf ∧ buf.length = config.dataShards * size := by
  obtain ⟨g, hg, hgen⟩ := generator_spec htotal
  obtain ⟨subInv, hinv, -⟩ := exists_subInv hgen hinj
  exact ⟨_, recover_of_subInv hg hinv, length_flatten _⟩

theorem decode_of_uniform {size : ℕ} (hk : 1 ≤ config.dataShards)
    (htotal : config.dataShards + config.parityShards ≤ 256) (h : Uniform config shreds size) :
    ∃ buf : Bytes, buf.length = config.dataShards * size ∧
      decode config shreds = stripLength buf := by
  obtain ⟨selected, hselect, hsize, hlength⟩ := h
  have henough : config.dataShards ≤ (byIndex config shreds).length := by
    by_contra hfew
    rw [select, dif_neg hfew] at hselect
    cases hselect
  obtain ⟨selected', hselect', -, hinj⟩ := select_spec (kept_byIndex config shreds) henough
  obtain rfl := Option.some.inj (hselect.symm.trans hselect')
  obtain ⟨buf, hrecover, hbuf⟩ := recover_total htotal hinj size
  exact ⟨buf, hbuf, decode_eq hk hselect hsize hlength hrecover⟩

theorem decode_of_not_uniform (hk : 1 ≤ config.dataShards)
    (h : ∀ size, ¬Uniform config shreds size) : decode config shreds = .ok none := by
  unfold decode
  cases hselect : select config (byIndex config shreds) with
  | none => rfl
  | some selected =>
    have hhead : selected.toList.head? = some (selected.get ⟨0, hk⟩) := by
      simp [List.head?_eq_getElem?, get_eq_getElem]
    dsimp only
    rw [hhead]
    dsimp only
    rw [if_pos]
    by_contra hbad
    rw [not_or] at hbad
    exact h _ ⟨selected, hselect, Nat.pos_of_ne_zero hbad.1, length_of_uniform hbad.2⟩

theorem stripLength_returns_iff (buf : Bytes) :
    (∃ r, stripLength buf = .ok r) ↔ 8 ≤ buf.length := by
  unfold stripLength
  split_ifs with hshort
  · exact iff_of_false (fun ⟨r, hr⟩ => by cases hr) (Nat.not_le.mpr hshort)
  · refine iff_of_true ?_ (Nat.not_lt.mp hshort)
    dsimp only
    split_ifs
    · exact ⟨_, rfl⟩
    · exact ⟨_, rfl⟩

theorem stripLength_error {buf : Bytes} {p : Panic} (h : stripLength buf = .error p) :
    p = .sliceOutOfRange := by
  unfold stripLength at h
  dsimp only at h
  split_ifs at h
  exact (Except.error.inj h).symm

theorem decode_ok_iff (hk : 1 ≤ config.dataShards)
    (htotal : config.dataShards + config.parityShards ≤ 256) :
    (∃ r, decode config shreds = .ok r) ↔
      ∀ size, Uniform config shreds size → 8 ≤ config.dataShards * size := by
  by_cases h : ∃ size, Uniform config shreds size
  · obtain ⟨size, hsize⟩ := h
    obtain ⟨buf, hbuf, hdecode⟩ := decode_of_uniform hk htotal hsize
    rw [hdecode, stripLength_returns_iff, hbuf]
    exact ⟨fun hlong other hother => hsize.unique hk hother ▸ hlong, fun hall => hall size hsize⟩
  · have hnone := not_exists.mp h
    rw [decode_of_not_uniform hk hnone]
    exact iff_of_true ⟨none, rfl⟩ fun size hsize => absurd hsize (hnone size)

theorem decode_error {p : Panic} (hk : 1 ≤ config.dataShards)
    (htotal : config.dataShards + config.parityShards ≤ 256)
    (h : decode config shreds = .error p) : p = .sliceOutOfRange := by
  by_cases huniform : ∃ size, Uniform config shreds size
  · obtain ⟨size, hsize⟩ := huniform
    obtain ⟨buf, -, hdecode⟩ := decode_of_uniform hk htotal hsize
    exact stripLength_error (hdecode ▸ h)
  · rw [decode_of_not_uniform hk (not_exists.mp huniform)] at h
    cases h

end Safety

theorem decode_returns_iff (config : ErasureConfig) (shreds : List Shred)
    (hk : 1 ≤ config.dataShards) (htotal : config.dataShards + config.parityShards ≤ 256) :
    ((∃ r, decodeIndexed config shreds = .ok r) ↔
        ∀ size, Uniform config shreds size → 8 ≤ config.dataShards * size) ∧
      ∀ p, decodeIndexed config shreds = .error p → p = .sliceOutOfRange := by
  rw [decodeIndexed_eq]
  exact ⟨decode_ok_iff hk htotal, fun p hp => decode_error hk htotal hp⟩

def shredAt (index : UInt64) (payload : Bytes) : Shred :=
  Shred.newData acceptingCrypto 7 index payload

theorem one_byte_shards_return :
    ∃ r, decodeIndexed .defaultSolana ((List.range 16).map fun i => shredAt (UInt64.ofNat i) [1]) =
      .ok r := by
  refine (decode_returns_iff .defaultSolana _ (by decide) (by decide)).1.mpr ?_
  rintro size ⟨-, -, hsize, -⟩
  exact le_trans (by decide) (Nat.mul_le_mul_left 16 hsize)

theorem one_byte_shard_panics :
    decodeIndexed ⟨1, 0⟩ [shredAt 0 [1]] = .error .sliceOutOfRange := by
  have hsize : Uniform ⟨1, 0⟩ [shredAt 0 [1]] 1 :=
    ⟨⟨#[(0, shredAt 0 [1])], rfl⟩, rfl, le_rfl, Fin.forall_fin_one.mpr rfl⟩
  rw [decodeIndexed_eq]
  cases hdecode : decode ⟨1, 0⟩ [shredAt 0 [1]] with
  | error p => rw [decode_error (by decide) (by decide) hdecode]
  | ok r =>
    have hlong := (decode_ok_iff (by decide) (by decide)).mp ⟨r, hdecode⟩ 1 hsize
    exact absurd hlong (by decide)

end TrustNode.Turbine.ErasureCoder
