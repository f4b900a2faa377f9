import TrustNode.Turbine.Refusal

namespace TrustNode.Turbine.ErasureCoder

open GaussJordan

def Consistent (config : ErasureConfig) (C : Crypto) (slot : UInt64) (data : Bytes)
    (shreds : List Shred) : Prop :=
  ∃ all, encode config C data slot = .ok all ∧
    ∀ s ∈ shreds, s.index.toNat < config.totalShards →
      ∃ t ∈ all, t.index = s.index ∧ t.payload = s.payload

section

variable {config : ErasureConfig} {C : Crypto} {slot : UInt64} {data : Bytes} {shreds : List Shred}
  {s : Shred}

theorem Consistent.codeword (h : Consistent config C slot data shreds)
    (hk : 1 ≤ config.dataShards) (htotal : config.dataShards + config.parityShards ≤ 256)
    {g : Rows Gf256 config.totalShards config.dataShards}
    (hg : generator config.dataShards config.parityShards = some g) (hgen : IsGenerator g)
    (hs : s ∈ shreds) (hindex : s.index.toNat < config.totalShards) :
    Codeword config data g ⟨s.index.toNat, hindex⟩ s.payload := by
  obtain ⟨all, hall, hmatch⟩ := h
  obtain ⟨t, ht, heq, hpayload⟩ := hmatch s hs hindex
  exact codeword_of_encode hk htotal hg hgen hall ht heq hpayload hindex

theorem Consistent.decode_eq (h : Consistent config C slot data shreds)
    (hk : 1 ≤ config.dataShards) (htotal : config.dataShards + config.parityShards ≤ 256)
    (hlen : data.length < 2 ^ 64) :
    decode config shreds =
      .ok (if config.dataShards ≤ (byIndex config shreds).length then some data else none) := by
  obtain ⟨g, hg, hgen⟩ := generator_spec htotal
  exact decode_of_codewords hk hg hgen hlen fun s hs hindex => h.codeword hk htotal hg hgen hs hindex

theorem length_of_stripLength {buf : Bytes} (h : stripLength buf = .ok (some data)) :
    data.length < 2 ^ 64 := by
  unfold stripLength at h
  dsimp only at h
  split_ifs at h
  · cases h
  · obtain rfl := Option.some.inj (Except.ok.inj h)
    exact lt_of_le_of_lt (List.length_take_le _ _) (UInt64.toNat_lt _)

theorem length_of_decode (hk : 1 ≤ config.dataShards)
    (htotal : config.dataShards + config.parityShards ≤ 256)
    (h : decode config shreds = .ok (some data)) : data.length < 2 ^ 64 := by
  by_cases huniform : ∃ size, Uniform config shreds size
  · obtain ⟨size, hsize⟩ := huniform
    obtain ⟨buf, -, hdecode⟩ := decode_of_uniform hk htotal hsize
    exact length_of_stripLength (hdecode ▸ h)
  · rw [decode_of_not_uniform hk (not_exists.mp huniform)] at h
    cases h

theorem decode_congr {shreds' : List Shred}
    (h : select config (byIndex config shreds) = select config (byIndex config shreds')) :
    decode config shreds = decode config shreds' := by
  rw [decode, decode, h]

theorem byIndex_append (shreds : List Shred) (s : Shred) :
    byIndex config (shreds ++ [s]) = keep config (byIndex config shreds) s := by
  rw [byIndex, List.foldl_append]
  rfl

theorem decode_append_duplicate {t : Shred} (ht : t ∈ shreds) (hindex : t.index = s.index) :
    decode config (shreds ++ [s]) = decode config shreds := by
  have hkept := kept_byIndex config shreds
  refine decode_congr (congrArg (select config) ?_)
  rw [byIndex_append, keep]
  split_ifs with hs
  · refine hkept.ordered.orInsert_of_mem ?_ s
    simpa only [hindex] using hkept.complete t ht (hindex ▸ hs)
  · rfl

theorem select_eq_of_take {kept kept' : List (Fin config.totalShards × Shred)}
    (henough : config.dataShards ≤ kept.length)
    (h : kept'.take config.dataShards = kept.take config.dataShards) :
    select config kept' = select config kept := by
  have hlength := congrArg List.length h
  rw [List.length_take, List.length_take] at hlength
  rw [select, select, dif_pos henough, dif_pos (by omega)]
  simp only [h]

theorem decode_append_surplus (henough : config.dataShards ≤ (byIndex config shreds).length)
    (hge : ∀ t ∈ shreds, t.index.toNat ≤ s.index.toNat) :
    decode config (shreds ++ [s]) = decode config shreds := by
  have hkept := kept_byIndex config shreds
  refine decode_congr ?_
  rw [byIndex_append, keep]
  split_ifs with hs
  · refine select_eq_of_take henough (Ascending.take_orInsert henough (fun j hj => ?_) s)
    obtain ⟨p, hp, rfl⟩ := List.mem_map.mp hj
    obtain ⟨hmem, hindex⟩ := hkept.source p (List.mem_of_mem_take hp)
    exact Fin.le_def.mpr (hindex ▸ hge p.2 hmem)
  · rfl

end

theorem decode_refuses_inconsistent_iff (C : Crypto) (config : ErasureConfig) (slot : UInt64)
    (shreds : List Shred) (hk : 8 ≤ config.dataShards)
    (htotal : config.dataShards + config.parityShards ≤ 256) :
    (∃ r, decode config shreds = .ok r) ∧
      ((∀ data, decode config shreds = .ok (some data) → Consistent config C slot data shreds) ↔
        Refused config shreds ∨
          ∃ data, data.length < 2 ^ 64 ∧ Consistent config C slot data shreds) := by
  have hpos : 1 ≤ config.dataShards := le_trans (by decide) hk
  have hreturns : ∃ r, decode config shreds = .ok r :=
    (decode_ok_iff hpos htotal).mpr fun size ⟨_, _, hsize, _⟩ =>
      hk.trans (Nat.le_mul_of_pos_right _ hsize)
  rw [← decode_none_iff hk htotal]
  refine ⟨hreturns, ⟨fun hall => ?_, ?_⟩⟩
  · obtain ⟨none | data, hr⟩ := hreturns
    · exact .inl hr
    · exact .inr ⟨data, length_of_decode hpos htotal hr, hall data hr⟩
  · rintro (hnone | ⟨origin, hlen, horigin⟩) data hdata
    · rw [hnone] at hdata
      cases hdata
    · rw [horigin.decode_eq hpos htotal hlen] at hdata
      split_ifs at hdata
      · obtain rfl := Option.some.inj (Except.ok.inj hdata)
        exact horigin
      · cases hdata

section Forged

abbrev smallConfig : ErasureConfig := ⟨8, 1⟩

theorem genuine_shreds_consistent :
    ∃ all, encode smallConfig acceptingCrypto [1, 2, 3] 7 = .ok all ∧
      ∀ data, decode smallConfig all = .ok (some data) →
        Consistent smallConfig acceptingCrypto 7 data all := by
  obtain ⟨g, hg, -⟩ := generator_spec (k := 8) (m := 1) (by decide)
  have hall : encode smallConfig acceptingCrypto [1, 2, 3] 7 = .ok _ := encode_eq (by decide) hg
  refine ⟨_, hall, ?_⟩
  refine (decode_refuses_inconsistent_iff acceptingCrypto smallConfig 7 _ (by decide)
    (by decide)).2.mpr (.inr ⟨[1, 2, 3], by decide, _, hall, ?_⟩)
  exact fun s hs _ => ⟨s, hs, rfl, rfl⟩

theorem not_consistent_of_empty {shreds : List Shred} {s : Shred} (hs : s ∈ shreds)
    (hindex : s.index.toNat < 9) (hpayload : s.payload = []) :
    ¬Consistent smallConfig acceptingCrypto 7 [1, 2, 3] shreds := by
  rintro ⟨all, hall, hmatch⟩
  obtain ⟨g, hg, hgen⟩ := generator_spec (k := 8) (m := 1) (by decide)
  obtain rfl := Except.ok.inj ((encode_eq (by decide) hg).symm.trans hall)
  obtain ⟨t, ht, -, heq⟩ := hmatch s hs hindex
  obtain ⟨i, -, hword⟩ := codeword_of_mem_shards (by decide) hgen ht
  have hlength := hword.length
  rw [heq, hpayload] at hlength
  cases hlength

theorem forged_shreds_accepted :
    ∃ all, encode smallConfig acceptingCrypto [1, 2, 3] 7 = .ok all ∧
      (decode smallConfig (all ++ [shredAt 0 []]) = .ok (some [1, 2, 3]) ∧
        ¬Consistent smallConfig acceptingCrypto 7 [1, 2, 3] (all ++ [shredAt 0 []])) ∧
      decode smallConfig (all.take 8 ++ [shredAt 8 []]) = .ok (some [1, 2, 3]) ∧
        ¬Consistent smallConfig acceptingCrypto 7 [1, 2, 3] (all.take 8 ++ [shredAt 8 []]) := by
  obtain ⟨g, hg, hgen⟩ := generator_spec (k := 8) (m := 1) (by decide)
  let all := shards smallConfig acceptingCrypto [1, 2, 3] 7 g
  have hdecode : ∀ shreds ⊆ all, 8 ≤ (shreds.map Shred.index).toFinset.card →
      decode smallConfig shreds = .ok (some [1, 2, 3]) := fun shreds hsub hcard =>
    decode_of_shards (by decide) (by decide) hg hgen (by decide) hsub hcard
  have hindex : ∀ t ∈ all, t.index.toNat ≤ 8 := by
    intro t ht
    obtain ⟨i, hi, -⟩ := codeword_of_mem_shards (by decide) hgen ht
    have hi' : (UInt64.ofNat i).toNat = i := toNat_ofNat_index (by decide) i
    rw [hi, hi']
    exact Nat.lt_succ_iff.mp i.isLt
  have hdata : (all.take 8).map Shred.index = [0, 1, 2, 3, 4, 5, 6, 7] := rfl
  have hlast : ∀ (shreds : List Shred) (s : Shred), s ∈ shreds ++ [s] := fun shreds s =>
    List.mem_append_right _ List.mem_cons_self
  refine ⟨all, encode_eq (by decide) hg, ⟨?_, ?_⟩, ?_, ?_⟩
  · have hfirst : all.head (List.cons_ne_nil _ _) ∈ all := List.head_mem _
    have hzero : (all.head (List.cons_ne_nil _ _)).index = (shredAt 0 []).index := rfl
    rw [decode_append_duplicate hfirst hzero]
    refine hdecode all (List.Subset.refl _) ?_
    change 8 ≤ ([0, 1, 2, 3, 4, 5, 6, 7, 8] : List UInt64).toFinset.card
    decide
  · exact not_consistent_of_empty (hlast _ _) (by decide) rfl
  · have hcard : 8 ≤ ((all.take 8).map Shred.index).toFinset.card := by
      rw [hdata]
      decide
    have hge : ∀ t ∈ all.take 8, t.index.toNat ≤ 8 := fun t ht => hindex t (List.mem_of_mem_take ht)
    have henough := hcard.trans (card_indices_le (kept_byIndex smallConfig (all.take 8))
      fun t ht => Nat.lt_succ_of_le (hge t ht))
    rw [decode_append_surplus henough hge]
    exact hdecode _ (List.take_subset 8 all) hcard
  · exact not_consistent_of_empty (hlast _ _) (by decide) rfl

end Forged

end TrustNode.Turbine.ErasureCoder
