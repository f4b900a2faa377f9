import TrustNode.Turbine.DecodeSafety

namespace TrustNode.Turbine.ErasureCoder

open Bytes
open GaussJordan

def indices (config : ErasureConfig) (shreds : List Shred) : Finset ℕ :=
  (shreds.map fun s => s.index.toNat).toFinset.filter (· < config.totalShards)

structure Chosen (config : ErasureConfig) (shreds : List Shred) (s : Shred) : Prop where
  range : s.index.toNat < config.totalShards
  first : shreds.find? (fun t => t.index.toNat = s.index.toNat) = some s
  low : ((indices config shreds).filter (· < s.index.toNat)).card < config.dataShards

structure Recovers (config : ErasureConfig) (shreds : List Shred) (size : ℕ) (buf : Bytes) :
    Prop where
  length : buf.length = config.dataShards * size
  payload : ∀ g, generator config.dataShards config.parityShards = some g →
    ∀ s (h : Chosen config shreds s), s.payload =
      rowBytes (parity (g.get ⟨s.index.toNat, h.range⟩) (shardRows config.dataShards size buf))

inductive Refused (config : ErasureConfig) (shreds : List Shred) : Prop
  | few (h : (indices config shreds).card < config.dataShards)
  | empty {s : Shred} (hs : Chosen config shreds s) (h : s.payload = [])
  | unequal {s t : Shred} (hs : Chosen config shreds s) (ht : Chosen config shreds t)
      (h : s.payload.length ≠ t.payload.length)
  | overlong {size : ℕ} {buf : Bytes} (hbuf : Recovers config shreds size buf)
      (h : buf.length - 8 < (u64FromLe (buf.take 8)).toNat)

section Lowest

variable {config : ErasureConfig} {shreds : List Shred} {s : Shred}
  {p : Fin config.totalShards × Shred}

theorem mem_indices {n : ℕ} :
    n ∈ indices config shreds ↔ (∃ s ∈ shreds, s.index.toNat = n) ∧ n < config.totalShards := by
  rw [indices, Finset.mem_filter, List.mem_toFinset, List.mem_map]

theorem indices_eq (config : ErasureConfig) (shreds : List Shred) :
    indices config shreds = ((Ascending.keys (byIndex config shreds)).map Fin.val).toFinset := by
  have hkept := kept_byIndex config shreds
  ext n
  rw [mem_indices, List.mem_toFinset, List.mem_map]
  constructor
  · rintro ⟨⟨s, hs, rfl⟩, hn⟩
    exact ⟨_, hkept.complete s hs hn, rfl⟩
  · rintro ⟨i, hi, rfl⟩
    obtain ⟨p, hp, rfl⟩ := List.mem_map.mp hi
    obtain ⟨hmem, hindex⟩ := hkept.source p hp
    exact ⟨⟨p.2, hmem, hindex⟩, p.1.isLt⟩

theorem card_indices (config : ErasureConfig) (shreds : List Shred) :
    (indices config shreds).card = (byIndex config shreds).length := by
  have hnodup := (kept_byIndex config shreds).ordered.nodup
  rw [indices_eq, List.toFinset_card_of_nodup (hnodup.map Fin.val_injective), List.length_map,
    Ascending.keys, List.length_map]

theorem card_below (config : ErasureConfig) (shreds : List Shred) (i : Fin config.totalShards) :
    ((indices config shreds).filter (· < i.val)).card =
      ((Ascending.keys (byIndex config shreds)).filter (· < i)).length := by
  have hnodup := (kept_byIndex config shreds).ordered.nodup
  have hbelow : (indices config shreds).filter (· < i.val) =
      (((Ascending.keys (byIndex config shreds)).filter (· < i)).map Fin.val).toFinset := by
    ext n
    simp only [indices_eq, Finset.mem_filter, List.mem_toFinset, List.mem_map, List.mem_filter,
      decide_eq_true_eq]
    constructor
    · rintro ⟨⟨j, hj, rfl⟩, hlt⟩
      exact ⟨j, ⟨hj, hlt⟩, rfl⟩
    · rintro ⟨j, ⟨hj, hlt⟩, rfl⟩
      exact ⟨⟨j, hj, rfl⟩, hlt⟩
  rw [hbelow, List.toFinset_card_of_nodup ((hnodup.filter _).map Fin.val_injective),
    List.length_map]

theorem chosen_of_mem_take (hp : p ∈ (byIndex config shreds).take config.dataShards) :
    ∃ h : Chosen config shreds p.2, p.1 = ⟨p.2.index.toNat, h.range⟩ := by
  have hkept := kept_byIndex config shreds
  have hmem := List.mem_of_mem_take hp
  obtain ⟨-, hindex⟩ := hkept.source p hmem
  refine ⟨⟨hindex ▸ p.1.isLt, ?_, ?_⟩, Fin.ext hindex.symm⟩
  · rw [hindex]
    exact hkept.first p hmem
  · rw [hindex, card_below]
    exact (hkept.ordered.mem_take_iff hmem).mp hp

theorem Chosen.mem_take (h : Chosen config shreds s) :
    (⟨s.index.toNat, h.range⟩, s) ∈ (byIndex config shreds).take config.dataShards := by
  have hkept := kept_byIndex config shreds
  have hkey := hkept.complete s (List.mem_of_find?_eq_some h.first) h.range
  obtain ⟨p, hp, hfst⟩ := List.mem_map.mp hkey
  have hfirst := hkept.first p hp
  rw [hfst, h.first] at hfirst
  obtain rfl : p = (⟨s.index.toNat, h.range⟩, s) := Prod.ext hfst (Option.some.inj hfirst).symm
  rw [hkept.ordered.mem_take_iff hp, ← card_below]
  exact h.low

variable {selected : Vector (Fin config.totalShards × Shred) config.dataShards}

theorem toList_of_select (h : select config (byIndex config shreds) = some selected) :
    selected.toList = (byIndex config shreds).take config.dataShards := by
  rw [select] at h
  split_ifs at h with henough
  obtain rfl := Option.some.inj h
  rfl

theorem selected_chosen (h : select config (byIndex config shreds) = some selected)
    (r : Fin config.dataShards) :
    ∃ hs : Chosen config shreds (selected.get r).2,
      (selected.get r).1 = ⟨(selected.get r).2.index.toNat, hs.range⟩ := by
  refine chosen_of_mem_take ?_
  rw [← toList_of_select h, toList_eq_map_get]
  exact List.mem_map_of_mem (List.mem_finRange r)

theorem Chosen.exists_row (hs : Chosen config shreds s)
    (h : select config (byIndex config shreds) = some selected) :
    ∃ r : Fin config.dataShards, selected.get r = (⟨s.index.toNat, hs.range⟩, s) := by
  have hmem := hs.mem_take
  rw [← toList_of_select h, toList_eq_map_get] at hmem
  obtain ⟨r, -, hr⟩ := List.mem_map.mp hmem
  exact ⟨r, hr⟩

theorem exists_select (henough : config.dataShards ≤ (indices config shreds).card) :
    ∃ selected, select config (byIndex config shreds) = some selected ∧
      Function.Injective fun r : Fin config.dataShards => (selected.get r).1 := by
  rw [card_indices] at henough
  obtain ⟨selected, hselect, -, hinj⟩ := select_spec (kept_byIndex config shreds) henough
  exact ⟨selected, hselect, hinj⟩

theorem uniform_iff {size : ℕ} :
    Uniform config shreds size ↔ config.dataShards ≤ (indices config shreds).card ∧ 1 ≤ size ∧
      ∀ s, Chosen config shreds s → s.payload.length = size := by
  constructor
  · rintro ⟨selected, hselect, hsize, hlength⟩
    refine ⟨?_, hsize, fun s hs => ?_⟩
    · by_contra hfew
      rw [card_indices] at hfew
      rw [select, dif_neg hfew] at hselect
      cases hselect
    · obtain ⟨r, hr⟩ := hs.exists_row hselect
      rw [← hlength r, hr]
  · rintro ⟨henough, hsize, hlength⟩
    obtain ⟨selected, hselect, -⟩ := exists_select henough
    exact ⟨selected, hselect, hsize, fun r => hlength _ (selected_chosen hselect r).1⟩

end Lowest

section Buffers

variable {config : ErasureConfig} {shreds : List Shred} {size : ℕ} {buf : Bytes}
  {g : Rows Gf256 config.totalShards config.dataShards}
  {selected : Vector (Fin config.totalShards × Shred) config.dataShards}

theorem rowBytes_injective {w : ℕ} : Function.Injective (rowBytes (w := w)) := by
  intro row row' h
  refine Vector.toList_inj.mp (List.map_injective_iff.mpr (fun a b hab => ?_) h)
  exact Gf256.ext hab

theorem flatten_injective {k w : ℕ} : Function.Injective (flatten (k := k) (w := w)) := by
  intro rows rows' h
  rw [flatten, flatten, List.flatMap_def, List.flatMap_def] at h
  have hlengths : ∀ rows : Rows Gf256 k w,
      (rows.toList.map rowBytes).map List.length = List.replicate k w := by
    intro rows
    rw [List.map_map, List.eq_replicate_iff]
    refine ⟨by simp, fun n hn => ?_⟩
    obtain ⟨row, -, rfl⟩ := List.mem_map.mp hn
    exact length_rowBytes row
  have hrows := List.eq_iff_flatten_eq.mpr ⟨h, (hlengths rows).trans (hlengths rows').symm⟩
  exact Vector.toList_inj.mp (List.map_injective_iff.mpr rowBytes_injective hrows)

theorem shardRows_flatten {k w : ℕ} (rows : Rows Gf256 k w) :
    shardRows k w (flatten rows) = rows :=
  flatten_injective (flatten_shardRows (length_flatten rows))

theorem getD_shard (i : Fin config.totalShards) (rows : Rows Gf256 config.dataShards size)
    (j : Fin size) :
    (⟨(rowBytes (parity (g.get i) rows)).getD j 0⟩ : Gf256) = (toMatrix g * toMatrix rows) i j := by
  rw [getD_rowBytes, toMatrix_parity]
  rfl

theorem eq_shard {payload : Bytes} {i : Fin config.totalShards}
    {rows : Rows Gf256 config.dataShards size} (hlength : payload.length = size)
    (hentry : ∀ j : Fin size, (⟨payload.getD j 0⟩ : Gf256) = (toMatrix g * toMatrix rows) i j) :
    payload = rowBytes (parity (g.get i) rows) := by
  apply List.ext_getElem
  · rw [hlength, length_rowBytes]
  · intro j hj hj'
    have hbyte := (hentry ⟨j, hlength ▸ hj⟩).trans (getD_shard i rows ⟨j, hlength ▸ hj⟩).symm
    simpa [List.getD_eq_getElem?_getD, List.getElem?_eq_getElem hj,
      List.getElem?_eq_getElem hj'] using hbyte

theorem Recovers.recover_eq (h : Recovers config shreds size buf)
    (hg : generator config.dataShards config.parityShards = some g) (hgen : IsGenerator g)
    (hselect : select config (byIndex config shreds) = some selected)
    (hinj : Function.Injective fun r : Fin config.dataShards => (selected.get r).1) :
    recover config selected size = some buf := by
  have hrows : recover config selected size =
      some (flatten (shardRows config.dataShards size buf)) := by
    refine recover_of_rows hg hgen hinj ?_
    rw [received, toMatrix_ofFn_ofFn]
    apply Matrix.ext
    intro r j
    obtain ⟨hs, hkey⟩ := selected_chosen hselect r
    have hshard := getD_shard (g := g) (selected.get r).1 (shardRows config.dataShards size buf) j
    rw [hkey, ← h.payload g hg _ hs] at hshard
    rw [Matrix.of_apply, hshard, ← hkey]
    rfl
  rw [hrows, flatten_shardRows h.length]

theorem recovers_of_recover (hg : generator config.dataShards config.parityShards = some g)
    (hgen : IsGenerator g) (hselect : select config (byIndex config shreds) = some selected)
    (hinj : Function.Injective fun r : Fin config.dataShards => (selected.get r).1)
    (hlength : ∀ s, Chosen config shreds s → s.payload.length = size)
    (h : recover config selected size = some buf) : Recovers config shreds size buf := by
  obtain ⟨subInv, hinv, hleft⟩ := exists_subInv hgen hinj
  obtain rfl := Option.some.inj ((recover_of_subInv hg hinv).symm.trans h)
  refine ⟨length_flatten _, fun g' hg' s hs => ?_⟩
  obtain rfl := Option.some.inj (hg.symm.trans hg')
  obtain ⟨r, hr⟩ := hs.exists_row hselect
  set rows := product subInv (received selected size) with hrows
  have hreceived : (toMatrix g).submatrix (fun r => (selected.get r).1) id * toMatrix rows =
      toMatrix (received selected size) := by
    rw [hrows, toMatrix_product, ← Matrix.mul_assoc, mul_eq_one_comm.mp hleft, Matrix.one_mul]
  rw [shardRows_flatten]
  refine eq_shard (hlength s hs) fun j => ?_
  calc (⟨s.payload.getD j 0⟩ : Gf256)
      = toMatrix (received selected size) r j := by
        rw [received, toMatrix_ofFn_ofFn, Matrix.of_apply, hr]
    _ = (toMatrix g * toMatrix rows) (selected.get r).1 j :=
        (congrFun (congrFun hreceived r) j).symm
    _ = (toMatrix g * toMatrix rows) ⟨s.index.toNat, hs.range⟩ j := by rw [hr]

end Buffers

section Refusals

variable {config : ErasureConfig} {shreds : List Shred} {size : ℕ}

theorem exists_buffer (htotal : config.dataShards + config.parityShards ≤ 256)
    (hk : 1 ≤ config.dataShards) (h : Uniform config shreds size) :
    ∃ buf, Recovers config shreds size buf ∧ decode config shreds = stripLength buf ∧
      ∀ size' buf', Recovers config shreds size' buf' → buf' = buf := by
  obtain ⟨henough, hsize, hlength⟩ := uniform_iff.mp h
  obtain ⟨selected, hselect, hinj⟩ := exists_select henough
  obtain ⟨g, hg, hgen⟩ := generator_spec htotal
  obtain ⟨buf, hrecover, -⟩ := recover_total htotal hinj size
  have hlengths : ∀ r : Fin config.dataShards, (selected.get r).2.payload.length = size := fun r =>
    hlength _ (selected_chosen hselect r).1
  refine ⟨buf, recovers_of_recover hg hgen hselect hinj hlength hrecover,
    decode_eq hk hselect hsize hlengths hrecover, fun size' buf' hbuf' => ?_⟩
  obtain ⟨hs, -⟩ := selected_chosen hselect ⟨0, hk⟩
  have hpayload := congrArg List.length (hbuf'.payload g hg _ hs)
  rw [length_rowBytes, hlength _ hs] at hpayload
  subst hpayload
  exact Option.some.inj ((hbuf'.recover_eq hg hgen hselect hinj).symm.trans hrecover)

theorem stripLength_eq_none {buf : Bytes} (h8 : 8 ≤ buf.length) :
    stripLength buf = .ok none ↔ buf.length - 8 < (u64FromLe (buf.take 8)).toNat := by
  unfold stripLength
  rw [if_neg (not_lt.mpr h8)]
  dsimp only
  split_ifs with hlong
  · exact iff_of_true rfl hlong
  · exact iff_of_false (fun h => by cases h) hlong

theorem refused_of_not_uniform (hk : 1 ≤ config.dataShards)
    (h : ∀ size, ¬Uniform config shreds size) : Refused config shreds := by
  by_cases henough : config.dataShards ≤ (indices config shreds).card
  · obtain ⟨selected, hselect, -⟩ := exists_select henough
    obtain ⟨hs, -⟩ := selected_chosen hselect ⟨0, hk⟩
    set s := (selected.get ⟨0, hk⟩).2
    by_cases hempty : s.payload = []
    · exact .empty hs hempty
    · have hmixed := h s.payload.length
      rw [uniform_iff] at hmixed
      push Not at hmixed
      obtain ⟨t, ht, hne⟩ := hmixed henough (List.length_pos_iff.mpr hempty)
      exact .unequal ht hs hne
  · exact .few (not_le.mp henough)

theorem decode_none_iff (hk : 8 ≤ config.dataShards)
    (htotal : config.dataShards + config.parityShards ≤ 256) :
    decode config shreds = .ok none ↔ Refused config shreds := by
  have hpos : 1 ≤ config.dataShards := le_trans (by decide) hk
  by_cases huniform : ∃ size, Uniform config shreds size
  · obtain ⟨size, hsize⟩ := huniform
    obtain ⟨henough, hone, hlength⟩ := uniform_iff.mp hsize
    obtain ⟨buf, hbuf, hdecode, hunique⟩ := exists_buffer htotal hpos hsize
    have h8 : 8 ≤ buf.length := by
      rw [hbuf.length]
      exact hk.trans (Nat.le_mul_of_pos_right _ hone)
    rw [hdecode, stripLength_eq_none h8]
    constructor
    · exact .overlong hbuf
    · rintro (hfew | ⟨hs, hempty⟩ | ⟨hs, ht, hne⟩ | ⟨hbuf', hlong⟩)
      · exact absurd hfew (not_lt.mpr henough)
      · have hzero := hlength _ hs
        rw [hempty, List.length_nil] at hzero
        omega
      · exact absurd ((hlength _ hs).trans (hlength _ ht).symm) hne
      · rwa [← hunique _ _ hbuf']
  · have hnone := not_exists.mp huniform
    exact iff_of_true (decode_of_not_uniform hpos hnone) (refused_of_not_uniform hpos hnone)

end Refusals

end TrustNode.Turbine.ErasureCoder
