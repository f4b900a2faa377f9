import TrustNode.Base.Sha256
import TrustNode.Turbine.Erasure

namespace TrustNode.Turbine

open Bytes
open GaussJordan
open Matrix

section Generator

variable {k m : ℕ}

def point (r : Fin (k + m)) : Gf256 := ⟨UInt8.ofNat r⟩

theorem point_injective (h : k + m ≤ 256) : Function.Injective (point (k := k) (m := m)) := by
  intro i j hij
  have hbyte := congrArg (fun a => (Gf256.byte a).toNat) hij
  simp only [point, UInt8.toNat_ofNat'] at hbyte
  apply Fin.ext
  have hi := i.isLt
  have hj := j.isLt
  omega

theorem toMatrix_vandermonde :
    toMatrix (vandermonde k m) = Matrix.of fun r c => point r ^ c.val := by
  rw [vandermonde, toMatrix_ofFn_ofFn]
  apply Matrix.ext
  intro r c
  exact Gf256.ext (Gf256.byte_pow _ _).symm

theorem det_rows_vandermonde {f : Fin k → Fin (k + m)} (hf : Function.Injective f)
    (h : k + m ≤ 256) : ((toMatrix (vandermonde k m)).submatrix f id).det ≠ 0 := by
  have hv : (toMatrix (vandermonde k m)).submatrix f id = Matrix.vandermonde (point ∘ f) := by
    rw [toMatrix_vandermonde]
    rfl
  rw [hv, det_vandermonde_ne_zero_iff]
  exact (point_injective h).comp hf

theorem toMatrix_top (v : Rows Gf256 (k + m) k) :
    toMatrix (top v) = (toMatrix v).submatrix (Fin.castAdd m) id := by
  ext r c
  rw [top, toMatrix_ofFn]
  rfl

structure IsGenerator (g : Rows Gf256 (k + m) k) : Prop where
  systematic : (toMatrix g).submatrix (Fin.castAdd m) id = 1
  independent : ∀ f : Fin k → Fin (k + m), Function.Injective f →
    ((toMatrix g).submatrix f id).det ≠ 0

theorem generator_spec (h : k + m ≤ 256) : ∃ g, generator k m = some g ∧ IsGenerator g := by
  have htop : (toMatrix (top (vandermonde k m))).det ≠ 0 := by
    rw [toMatrix_top]
    exact det_rows_vandermonde (Fin.castAdd_injective k m) h
  obtain ⟨topInv, hinv, hright, hleft⟩ := exists_invert htop
  refine ⟨product (vandermonde k m) topInv, ?_, ?_, ?_⟩
  · rw [generator, matInv, hinv, Option.map_some]
  · rw [toMatrix_product, submatrix_mul _ _ _ id _ Function.bijective_id, ← toMatrix_top,
      submatrix_id_id, hright]
  · intro f hf
    have hrows := det_rows_vandermonde hf h
    have hunit : (toMatrix topInv).det ≠ 0 := by
      intro hzero
      have hdet := congrArg det hleft
      rw [det_mul, hzero, zero_mul, det_one] at hdet
      exact zero_ne_one hdet
    rw [toMatrix_product, submatrix_mul _ _ _ id _ Function.bijective_id, submatrix_id_id, det_mul]
    exact mul_ne_zero hrows hunit

end Generator

section Shards

variable {k w : ℕ}

theorem toMatrix_parity (row : Vector Gf256 k) (shards : Rows Gf256 k w) (j : Fin w) :
    (parity row shards).get j = ∑ c, row.get c * toMatrix shards c j := by
  have hfold : ∀ (cs : List (Fin k)) (acc : Vector Gf256 w),
      (cs.foldl (fun acc c =>
        if row.get c = 0 then acc
        else Vector.zipWith (fun byte b => byte + row.get c * b) acc (shards.get c)) acc).get j =
      cs.foldl (fun x c => x + row.get c * toMatrix shards c j) (acc.get j) := by
    intro cs
    induction cs with
    | nil => exact fun acc => rfl
    | cons c cs ih =>
      intro acc
      rw [List.foldl_cons, List.foldl_cons, ih]
      by_cases hc : row.get c = 0
      · rw [if_pos hc, hc, zero_mul, add_zero]
      · rw [if_neg hc]
        simp [toMatrix_apply, get_eq_getElem]
  rw [parity, hfold, ← foldl_finRange_add]
  simp [get_eq_getElem]

theorem length_rowBytes (row : Vector Gf256 w) : (rowBytes row).length = w := by simp [rowBytes]

theorem getD_rowBytes (row : Vector Gf256 w) (j : Fin w) :
    (rowBytes row).getD j 0 = (row.get j).byte := by
  simp [rowBytes, List.getD_eq_getElem?_getD, get_eq_getElem]

theorem rowBytes_shardRows {buf : Bytes} (h : buf.length = k * w) (i : Fin k) :
    rowBytes ((shardRows k w buf).get i) = (buf.drop (i * w)).take w := by
  have hend : i.val * w + w ≤ buf.length := by
    rw [h, ← Nat.succ_mul]
    exact Nat.mul_le_mul_right w i.isLt
  apply List.ext_getElem
  · rw [length_rowBytes, List.length_take, List.length_drop]
    omega
  · intro j hj hj'
    have hjw : j < w := by rwa [length_rowBytes] at hj
    have hin : i.val * w + j < buf.length := by omega
    simp [rowBytes, shardRows, List.getD_eq_getElem?_getD, List.getElem?_eq_getElem hin,
      get_eq_getElem]

theorem flatMap_take_drop {α : Type*} (buf : List α) (w n : ℕ) :
    (List.range n).flatMap (fun i => (buf.drop (i * w)).take w) = buf.take (n * w) := by
  induction n with
  | zero => simp
  | succ n ih =>
    rw [List.range_succ, List.flatMap_append, ih, List.flatMap_singleton, Nat.succ_mul, List.take_add]

theorem toList_eq_map_get {α : Type*} (v : Vector α k) : v.toList = (List.finRange k).map v.get := by
  apply List.ext_getElem
  · simp
  · intro j hj hj'
    simp [get_eq_getElem]

theorem flatten_eq (rows : Rows Gf256 k w) :
    flatten rows = (List.finRange k).flatMap fun i => rowBytes (rows.get i) := by
  rw [flatten, toList_eq_map_get, List.flatMap_map]

theorem flatten_shardRows {buf : Bytes} (h : buf.length = k * w) :
    flatten (shardRows k w buf) = buf := by
  have hrange : (List.finRange k).flatMap (fun i => (buf.drop (i.val * w)).take w) =
      (List.range k).flatMap fun i => (buf.drop (i * w)).take w := by
    rw [← List.map_coe_finRange_eq_range, List.flatMap_map]
  simp only [flatten_eq, rowBytes_shardRows h]
  rw [hrange, flatMap_take_drop, ← h, List.take_length]

end Shards

namespace ErasureCoder

section Buffer

variable {config : ErasureConfig} {data : Bytes}

theorem length_prefixed : (prefixed data).length = 8 + data.length := by simp [prefixed]

theorem length_prefixed_le (hk : 1 ≤ config.dataShards) :
    (prefixed data).length ≤ shardSize config data * config.dataShards := by
  rw [length_prefixed]
  have hceil : 8 + data.length ≤
      (8 + data.length + config.dataShards - 1) / config.dataShards * config.dataShards := by
    have hdiv := Nat.div_add_mod' (8 + data.length + config.dataShards - 1) config.dataShards
    have hmod := Nat.mod_lt (8 + data.length + config.dataShards - 1) hk
    omega
  exact hceil.trans (Nat.mul_le_mul_right _ (le_max_left _ _))

theorem length_padded (hk : 1 ≤ config.dataShards) :
    (padded config data).length = config.dataShards * shardSize config data := by
  rw [padded, List.length_rightpad, max_eq_left (length_prefixed_le hk), Nat.mul_comm]

theorem stripLength_padded (hk : 1 ≤ config.dataShards) (hlen : data.length < 2 ^ 64) :
    stripLength (padded config data) = .ok (some data) := by
  have hfits : (prefixed data).length ≤ shardSize config data * config.dataShards :=
    length_prefixed_le hk
  have hlength : (padded config data).length = config.dataShards * shardSize config data :=
    length_padded hk
  rw [length_prefixed] at hfits
  have htake : (padded config data).take 8 = u64ToLe (UInt64.ofNat data.length) := by
    simp [padded, List.rightpad, prefixed, List.append_assoc]
  have hdrop : (padded config data).drop 8 =
      data ++ List.replicate (shardSize config data * config.dataShards - (8 + data.length)) 0 := by
    simp [padded, List.rightpad, prefixed, List.append_assoc]
  have horiginal : (u64FromLe ((padded config data).take 8)).toNat = data.length := by
    rw [htake, u64FromLe_u64ToLe, UInt64.toNat_ofNat']
    omega
  rw [Nat.mul_comm] at hlength
  simp only [stripLength, horiginal, hdrop]
  rw [if_neg (by omega), if_neg (by omega), List.take_left]

end Buffer

section Encoding

variable {config : ErasureConfig} {C : Crypto} {data : Bytes} {slot : UInt64}

structure Codeword (config : ErasureConfig) (data : Bytes)
    (g : Rows Gf256 config.totalShards config.dataShards) (i : Fin config.totalShards)
    (payload : Bytes) : Prop where
  length : payload.length = shardSize config data
  entry : ∀ j : Fin (shardSize config data), (⟨payload.getD j 0⟩ : Gf256) =
    (toMatrix g * toMatrix (shardRows config.dataShards (shardSize config data)
      (padded config data))) i j

theorem codeword_data (hk : 1 ≤ config.dataShards)
    {g : Rows Gf256 config.totalShards config.dataShards} (hg : IsGenerator g)
    (i : Fin config.dataShards) :
    Codeword config data g (Fin.castAdd config.parityShards i)
      (((padded config data).drop (i * shardSize config data)).take (shardSize config data)) := by
  rw [← rowBytes_shardRows (length_padded hk) i]
  refine ⟨length_rowBytes _, fun j => ?_⟩
  set rows := shardRows config.dataShards (shardSize config data) (padded config data)
  have hrow : (toMatrix g * toMatrix rows) (Fin.castAdd config.parityShards i) j =
      ((toMatrix g).submatrix (Fin.castAdd config.parityShards) id * toMatrix rows) i j := rfl
  rw [getD_rowBytes, hrow, hg.systematic, Matrix.one_mul]
  rfl

theorem codeword_parity (g : Rows Gf256 config.totalShards config.dataShards)
    (p : Fin config.parityShards) :
    Codeword config data g (Fin.natAdd config.dataShards p)
      (rowBytes (parity g[Fin.natAdd config.dataShards p]
        (shardRows config.dataShards (shardSize config data) (padded config data)))) := by
  refine ⟨length_rowBytes _, fun j => ?_⟩
  rw [getD_rowBytes, toMatrix_parity]
  rfl

theorem codeword_of_mem_shards (hk : 1 ≤ config.dataShards)
    {g : Rows Gf256 config.totalShards config.dataShards} (hg : IsGenerator g) {s : Shred}
    (hs : s ∈ shards config C data slot g) :
    ∃ i : Fin config.totalShards, s.index = UInt64.ofNat i ∧
      Codeword config data g i s.payload := by
  rcases List.mem_append.mp hs with hs | hs
  · obtain ⟨i, -, rfl⟩ := List.mem_map.mp hs
    exact ⟨Fin.castAdd _ i, rfl, codeword_data hk hg i⟩
  · obtain ⟨p, -, rfl⟩ := List.mem_map.mp hs
    exact ⟨Fin.natAdd _ p, rfl, codeword_parity g p⟩

theorem toNat_ofNat_index (htotal : config.dataShards + config.parityShards ≤ 256)
    (i : Fin config.totalShards) : (UInt64.ofNat i).toNat = i := by
  have hi : i.val < config.dataShards + config.parityShards := i.isLt
  rw [UInt64.toNat_ofNat', Nat.mod_eq_of_lt (by omega)]

theorem codeword_at_index (hk : 1 ≤ config.dataShards)
    (htotal : config.dataShards + config.parityShards ≤ 256)
    {g : Rows Gf256 config.totalShards config.dataShards} (hg : IsGenerator g) {s : Shred}
    (hs : s ∈ shards config C data slot g) (h : s.index.toNat < config.totalShards) :
    Codeword config data g ⟨s.index.toNat, h⟩ s.payload := by
  obtain ⟨i, hindex, hword⟩ := codeword_of_mem_shards hk hg hs
  have hnat : s.index.toNat = i := by rw [hindex, toNat_ofNat_index htotal]
  have heq : (⟨s.index.toNat, h⟩ : Fin config.totalShards) = i := Fin.ext hnat
  exact heq ▸ hword

theorem encode_eq (hk : 1 ≤ config.dataShards)
    {g : Rows Gf256 config.totalShards config.dataShards}
    (hg : generator config.dataShards config.parityShards = some g) :
    encode config C data slot = .ok (shards config C data slot g) := by
  rw [encode, if_neg (by omega), hg]

theorem codeword_of_encode (hk : 1 ≤ config.dataShards)
    (htotal : config.dataShards + config.parityShards ≤ 256)
    {g : Rows Gf256 config.totalShards config.dataShards}
    (hg : generator config.dataShards config.parityShards = some g) (hgen : IsGenerator g)
    {all : List Shred} (hall : encode config C data slot = .ok all) {s t : Shred} (ht : t ∈ all)
    (hindex : t.index = s.index) (hpayload : t.payload = s.payload)
    (h : s.index.toNat < config.totalShards) :
    Codeword config data g ⟨s.index.toNat, h⟩ s.payload := by
  obtain rfl := Except.ok.inj ((encode_eq hk hg).symm.trans hall)
  have hword := codeword_at_index hk htotal hgen ht (hindex ▸ h)
  simpa only [hindex, hpayload] using hword

end Encoding

section Selection

variable {config : ErasureConfig}

structure Kept (config : ErasureConfig) (shreds : List Shred)
    (kept : List (Fin config.totalShards × Shred)) : Prop where
  ordered : Ascending.Ordered kept
  source : ∀ p ∈ kept, p.2 ∈ shreds ∧ p.2.index.toNat = p.1
  first : ∀ p ∈ kept, shreds.find? (fun s => s.index.toNat = p.1.val) = some p.2
  complete : ∀ s ∈ shreds, ∀ h : s.index.toNat < config.totalShards,
    ⟨s.index.toNat, h⟩ ∈ Ascending.keys kept

theorem Kept.append {shreds : List Shred} {kept : List (Fin config.totalShards × Shred)}
    (h : Kept config shreds kept) (s : Shred)
    (hs : ∀ hindex : s.index.toNat < config.totalShards,
      ⟨s.index.toNat, hindex⟩ ∈ Ascending.keys kept) : Kept config (shreds ++ [s]) kept where
  ordered := h.ordered
  source p hp := (h.source p hp).imp_left (List.mem_append_left _)
  first p hp := by rw [List.find?_append, h.first p hp, Option.some_or]
  complete t ht hindex := by
    rcases List.mem_append.mp ht with ht | ht
    · exact h.complete t ht hindex
    · obtain rfl := List.mem_singleton.mp ht
      exact hs hindex

theorem Kept.insert {shreds : List Shred} {kept : List (Fin config.totalShards × Shred)}
    (h : Kept config shreds kept) {s : Shred} (hs : s.index.toNat < config.totalShards)
    (hnew : ⟨s.index.toNat, hs⟩ ∉ Ascending.keys kept) :
    Kept config (shreds ++ [s]) (Ascending.orInsert ⟨s.index.toNat, hs⟩ s kept) where
  ordered := h.ordered.orInsert _ _
  source p hp := by
    rcases Ascending.mem_of_mem_orInsert hp with rfl | hold
    · exact ⟨by simp, rfl⟩
    · exact (h.source p hold).imp_left (List.mem_append_left _)
  first p hp := by
    rcases Ascending.mem_of_mem_orInsert hp with rfl | hold
    · have hnone : shreds.find? (fun t => t.index.toNat = s.index.toNat) = none := by
        refine List.find?_eq_none.mpr fun t ht heq => hnew ?_
        have hindex : t.index.toNat = s.index.toNat := of_decide_eq_true heq
        simpa only [hindex] using h.complete t ht (hindex ▸ hs)
      rw [List.find?_append, hnone, Option.none_or]
      simp
    · rw [List.find?_append, h.first p hold, Option.some_or]
  complete t ht htotal := by
    rw [Ascending.mem_keys_orInsert]
    rcases List.mem_append.mp ht with ht | ht
    · exact Or.inr (h.complete t ht htotal)
    · obtain rfl := List.mem_singleton.mp ht
      exact Or.inl rfl

theorem Kept.step {shreds : List Shred} {kept : List (Fin config.totalShards × Shred)}
    (h : Kept config shreds kept) (s : Shred) : Kept config (shreds ++ [s]) (keep config kept s) := by
  unfold keep
  split
  · next hs =>
    by_cases hold : ⟨s.index.toNat, hs⟩ ∈ Ascending.keys kept
    · rw [h.ordered.orInsert_of_mem hold]
      exact h.append s fun _ => hold
    · exact h.insert hs hold
  · next hs => exact h.append s fun hindex => absurd hindex hs

theorem kept_byIndex (config : ErasureConfig) (shreds : List Shred) :
    Kept config shreds (byIndex config shreds) := by
  induction shreds using List.reverseRecOn with
  | nil => exact ⟨List.Pairwise.nil, by simp [byIndex], by simp [byIndex], by simp⟩
  | append_singleton shreds s ih =>
    rw [byIndex, List.foldl_append]
    exact ih.step s

theorem select_spec {shreds : List Shred} {kept : List (Fin config.totalShards × Shred)}
    (h : Kept config shreds kept) (hlen : config.dataShards ≤ kept.length) :
    ∃ selected, select config kept = some selected ∧
      (∀ r : Fin config.dataShards,
        (selected.get r).2 ∈ shreds ∧ (selected.get r).2.index.toNat = (selected.get r).1) ∧
      Function.Injective fun r : Fin config.dataShards => (selected.get r).1 := by
  refine ⟨_, dif_pos hlen, fun r => ?_, fun i j hij => ?_⟩
  · refine h.source _ ?_
    simp [get_eq_getElem]
  · have hnodup : (kept.take config.dataShards).map Prod.fst |>.Nodup :=
      h.ordered.nodup.sublist ((List.take_sublist _ _).map _)
    rw [List.nodup_iff_injective_get] at hnodup
    have hlength : ((kept.take config.dataShards).map Prod.fst).length = config.dataShards := by
      simpa using hlen
    have hget : Fin.cast hlength.symm i = Fin.cast hlength.symm j := by
      apply hnodup
      simpa [get_eq_getElem] using hij
    exact Fin.cast_injective hlength.symm hget

theorem card_indices_le {shreds : List Shred} {kept : List (Fin config.totalShards × Shred)}
    (h : Kept config shreds kept) (hrange : ∀ s ∈ shreds, s.index.toNat < config.totalShards) :
    (shreds.map Shred.index).toFinset.card ≤ kept.length := by
  have hsub : (shreds.map Shred.index).toFinset ⊆
      (Ascending.keys kept).toFinset.image fun i => UInt64.ofNat i.val := by
    intro x hx
    obtain ⟨s, hs, rfl⟩ := List.mem_map.mp (List.mem_toFinset.mp hx)
    have hkey := h.complete s hs (hrange s hs)
    exact Finset.mem_image.mpr ⟨_, List.mem_toFinset.mpr hkey, UInt64.ofNat_toNat⟩
  calc (shreds.map Shred.index).toFinset.card
      ≤ ((Ascending.keys kept).toFinset.image fun i => UInt64.ofNat i.val).card :=
        Finset.card_le_card hsub
    _ ≤ (Ascending.keys kept).toFinset.card := Finset.card_image_le
    _ ≤ (Ascending.keys kept).length := List.toFinset_card_le _
    _ = kept.length := List.length_map _

end Selection

section Decoding

variable {config : ErasureConfig} {C : Crypto} {data : Bytes} {slot : UInt64}
  {g : Rows Gf256 config.totalShards config.dataShards}
  {selected : Vector (Fin config.totalShards × Shred) config.dataShards}

def received {k n : ℕ} (selected : Vector (Fin n × Shred) k) (size : ℕ) : Rows Gf256 k size :=
  Vector.ofFn fun r => Vector.ofFn fun j => ⟨(selected.get r).2.payload.getD j 0⟩

theorem exists_subInv (hgen : IsGenerator g)
    (hinj : Function.Injective fun r : Fin config.dataShards => (selected.get r).1) :
    ∃ subInv, matInv (Vector.ofFn fun r => g.get (selected.get r).1) = some subInv ∧
      toMatrix subInv * (toMatrix g).submatrix (fun r => (selected.get r).1) id = 1 := by
  have hsub : toMatrix (Vector.ofFn fun r : Fin config.dataShards => g.get (selected.get r).1) =
      (toMatrix g).submatrix (fun r => (selected.get r).1) id := by
    ext r c
    rw [toMatrix_ofFn]
    rfl
  obtain ⟨subInv, hinv, -, hleft⟩ := exists_invert (hsub ▸ hgen.independent _ hinj)
  exact ⟨subInv, hinv, hsub ▸ hleft⟩

theorem recover_of_subInv {subInv : Rows Gf256 config.dataShards config.dataShards} {size : ℕ}
    (hg : generator config.dataShards config.parityShards = some g)
    (hinv : matInv (Vector.ofFn fun r => g.get (selected.get r).1) = some subInv) :
    recover config selected size = some (flatten (product subInv (received selected size))) := by
  rw [recover, hg]
  change (matInv (Vector.ofFn fun r => g.get (selected.get r).1)).bind _ = _
  rw [hinv]
  rfl

theorem recover_of_rows {size : ℕ}
    (hg : generator config.dataShards config.parityShards = some g) (hgen : IsGenerator g)
    (hinj : Function.Injective fun r : Fin config.dataShards => (selected.get r).1)
    {rows : Rows Gf256 config.dataShards size}
    (hreceived : toMatrix (received selected size) =
      (toMatrix g).submatrix (fun r => (selected.get r).1) id * toMatrix rows) :
    recover config selected size = some (flatten rows) := by
  obtain ⟨subInv, hinv, hleft⟩ := exists_subInv hgen hinj
  have hproduct : product subInv (received selected size) = rows := by
    apply toMatrix_injective
    rw [toMatrix_product, hreceived, ← Matrix.mul_assoc, hleft, Matrix.one_mul]
  rw [recover_of_subInv hg hinv, hproduct]

theorem recover_eq (hk : 1 ≤ config.dataShards)
    (hg : generator config.dataShards config.parityShards = some g) (hgen : IsGenerator g)
    (hinj : Function.Injective fun r : Fin config.dataShards => (selected.get r).1)
    (hword : ∀ r : Fin config.dataShards,
      Codeword config data g (selected.get r).1 (selected.get r).2.payload) :
    recover config selected (shardSize config data) = some (padded config data) := by
  rw [← flatten_shardRows (length_padded hk)]
  refine recover_of_rows hg hgen hinj ?_
  rw [received, toMatrix_ofFn_ofFn]
  apply Matrix.ext
  intro r j
  exact (hword r).entry j

theorem decode_eq {shreds : List Shred} {buf : Bytes} {size : ℕ} (hk : 1 ≤ config.dataShards)
    (hselect : select config (byIndex config shreds) = some selected) (hsize : 1 ≤ size)
    (hlength : ∀ r : Fin config.dataShards, (selected.get r).2.payload.length = size)
    (hrecover : recover config selected size = some buf) :
    decode config shreds = stripLength buf := by
  have hhead : selected.toList.head? = some (selected.get ⟨0, hk⟩) := by
    simp [List.head?_eq_getElem?, get_eq_getElem]
  have hall : selected.any (fun s => s.2.payload.length ≠ size) = false := by
    rw [Vector.any_eq_false]
    intro r hr
    simpa [get_eq_getElem] using hlength ⟨r, hr⟩
  simp only [decode, hselect, hhead, hlength ⟨0, hk⟩, hall, hrecover]
  rw [if_neg (by simp; omega)]

theorem decode_of_codewords {shreds : List Shred} (hk : 1 ≤ config.dataShards)
    (hg : generator config.dataShards config.parityShards = some g) (hgen : IsGenerator g)
    (hlen : data.length < 2 ^ 64)
    (hcode : ∀ s ∈ shreds, ∀ h : s.index.toNat < config.totalShards,
      Codeword config data g ⟨s.index.toNat, h⟩ s.payload) :
    decode config shreds =
      .ok (if config.dataShards ≤ (byIndex config shreds).length then some data else none) := by
  split
  · next henough =>
    obtain ⟨selected, hselect, hsource, hinj⟩ := select_spec (kept_byIndex config shreds) henough
    have hword : ∀ r : Fin config.dataShards,
        Codeword config data g (selected.get r).1 (selected.get r).2.payload := by
      intro r
      obtain ⟨hmem, hindex⟩ := hsource r
      have hlt : (selected.get r).2.index.toNat < config.totalShards := hindex ▸ (selected.get r).1.isLt
      have heq : (⟨_, hlt⟩ : Fin config.totalShards) = (selected.get r).1 := Fin.ext hindex
      exact heq ▸ hcode _ hmem hlt
    rw [decode_eq hk hselect (le_max_right _ _) (fun r => (hword r).length)
      (recover_eq hk hg hgen hinj hword), stripLength_padded hk hlen]
  · next hfew => rw [decode, select, dif_neg hfew]

theorem decode_of_shards {shreds : List Shred} (hk : 1 ≤ config.dataShards)
    (htotal : config.dataShards + config.parityShards ≤ 256)
    (hg : generator config.dataShards config.parityShards = some g) (hgen : IsGenerator g)
    (hlen : data.length < 2 ^ 64) (hfrom : ∀ s ∈ shreds, s ∈ shards config C data slot g)
    (hdistinct : config.dataShards ≤ (shreds.map Shred.index).toFinset.card) :
    decode config shreds = .ok (some data) := by
  have hrange : ∀ s ∈ shreds, s.index.toNat < config.totalShards := by
    intro s hs
    obtain ⟨i, hindex, -⟩ := codeword_of_mem_shards hk hgen (hfrom s hs)
    rw [hindex, toNat_ofNat_index htotal]
    exact i.isLt
  have henough := hdistinct.trans (card_indices_le (kept_byIndex config shreds) hrange)
  rw [decode_of_codewords hk hg hgen hlen fun s hs h =>
    codeword_at_index hk htotal hgen (hfrom s hs) h, if_pos henough]

end Decoding

theorem decode_any_k_of_n (C : Crypto) (config : ErasureConfig) (data : Bytes) (slot : UInt64)
    (hk : 1 ≤ config.dataShards) (htotal : config.dataShards + config.parityShards ≤ 256)
    (hlen : data.length < 2 ^ 64) :
    ∃ all, encode config C data slot = .ok all ∧
      ∀ shreds : List Shred, (∀ s ∈ shreds, s ∈ all) →
        config.dataShards ≤ (shreds.map Shred.index).toFinset.card →
        decode config shreds = .ok (some data) := by
  obtain ⟨g, hg, hgen⟩ := generator_spec htotal
  exact ⟨_, encode_eq hk hg, fun shreds hfrom hdistinct =>
    decode_of_shards hk htotal hg hgen hlen hfrom hdistinct⟩

theorem decode_after_losing_a_shred :
    ∃ all, encode ⟨2, 1⟩ acceptingCrypto [1, 2, 3] 7 = .ok all ∧
      decode ⟨2, 1⟩ (all.drop 1) = .ok (some [1, 2, 3]) := by
  obtain ⟨all, hall, hdecode⟩ := decode_any_k_of_n acceptingCrypto ⟨2, 1⟩ [1, 2, 3] 7 (by decide)
    (by decide) (by decide)
  refine ⟨all, hall, hdecode _ (fun s hs => List.mem_of_mem_drop hs) ?_⟩
  obtain ⟨g, hg, -⟩ := generator_spec (k := 2) (m := 1) (by decide)
  have hshards : encode ⟨2, 1⟩ acceptingCrypto [1, 2, 3] 7 = .ok (shards ⟨2, 1⟩ acceptingCrypto _ _ g) :=
    encode_eq (by decide) hg
  obtain rfl := Except.ok.inj (hshards.symm.trans hall)
  change 2 ≤ ([1, 2] : List UInt64).toFinset.card
  decide

end ErasureCoder

end TrustNode.Turbine
