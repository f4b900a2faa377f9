import Mathlib.Data.Finmap
import Mathlib.Algebra.BigOperators.Group.Finset.Basic
import Mathlib.Algebra.Order.BigOperators.Group.Finset
import Mathlib.Tactic

abbrev Table (κ β : Type) := Finmap (fun _ : κ => β)

namespace Table

variable {κ β : Type}

theorem nodupKeys_map (t : Table κ β) (f : β → β) :
    (t.entries.map fun e => (⟨e.1, f e.2⟩ : Sigma fun _ : κ => β)).NodupKeys := by
  rw [← Multiset.nodup_keys, Multiset.keys, Multiset.map_map]
  exact Multiset.nodup_keys.mpr t.nodupKeys

def mapValues (t : Table κ β) (f : β → β) : Table κ β :=
  ⟨t.entries.map fun e => ⟨e.1, f e.2⟩, t.nodupKeys_map f⟩

variable [DecidableEq κ]

theorem lookup_insert (t : Table κ β) (k : κ) (v : β) (j : κ) :
    (t.insert k v).lookup j = if j = k then some v else t.lookup j := by
  by_cases h : j = k
  · subst h
    simp
  · rw [Finmap.lookup_insert_of_ne _ h, if_neg h]

theorem lookup_erase (t : Table κ β) (k j : κ) :
    (t.erase k).lookup j = if j = k then none else t.lookup j := by
  by_cases h : j = k
  · subst h
    simp
  · rw [Finmap.lookup_erase_ne h, if_neg h]

instance : RightCommutative fun (t : Table κ β) (k : κ) => t.erase k :=
  ⟨fun _ _ _ => Finmap.erase_erase⟩

def eraseAll (t : Table κ β) (ks : Finset κ) : Table κ β := ks.val.foldl (fun t k => t.erase k) t

theorem lookup_eraseAll (t : Table κ β) (ks : Finset κ) (j : κ) :
    (t.eraseAll ks).lookup j = if j ∈ ks then none else t.lookup j := by
  have hfold : ∀ (m : Multiset κ) (t : Table κ β),
      (m.foldl (fun t k => t.erase k) t).lookup j = if j ∈ m then none else t.lookup j := by
    intro m
    induction m using Multiset.induction_on with
    | empty => exact fun t => (if_neg (Multiset.notMem_zero j)).symm
    | cons k m ih =>
      intro t
      rw [Multiset.foldl_cons, ih, lookup_erase]
      simp only [Multiset.mem_cons]
      split_ifs <;> tauto
  exact hfold ks.val t

theorem mem_keys_iff (t : Table κ β) (k : κ) : k ∈ t.keys ↔ (t.lookup k).isSome := by
  rw [Finmap.mem_keys, Finmap.lookup_isSome]

def retain (t : Table κ β) (keep : κ → β → Bool) : Table κ β :=
  t.eraseAll (t.keys.filter fun k => (t.lookup k).any fun v => !keep k v)

theorem lookup_retain (t : Table κ β) (keep : κ → β → Bool) (k : κ) :
    (t.retain keep).lookup k = (t.lookup k).filter (keep k) := by
  simp only [retain, lookup_eraseAll, Finset.mem_filter, mem_keys_iff]
  cases t.lookup k with
  | none => rfl
  | some v => cases hkeep : keep k v <;> simp [Option.filter, hkeep]

theorem lookup_mapValues (t : Table κ β) (f : β → β) (k : κ) :
    (t.mapValues f).lookup k = (t.lookup k).map f := by
  ext v
  rw [Finmap.lookup_eq_some_iff, Option.map_eq_some_iff, mapValues, Multiset.mem_map]
  constructor
  · rintro ⟨⟨j, w⟩, hmem, heq⟩
    cases heq
    exact ⟨w, Finmap.lookup_eq_some_iff.mpr hmem, rfl⟩
  · rintro ⟨w, hw, rfl⟩
    exact ⟨⟨k, w⟩, Finmap.lookup_eq_some_iff.mp hw, rfl⟩

theorem keys_insert (t : Table κ β) (k : κ) (v : β) : (t.insert k v).keys = insert k t.keys := by
  ext j
  rw [Finmap.mem_keys, Finset.mem_insert, Finmap.mem_keys, Finmap.mem_insert]

theorem filterMap_eq_map {α γ : Type} {f : α → Option γ} {g : α → γ} {s : Multiset α}
    (h : ∀ a ∈ s, f a = some (g a)) : s.filterMap f = s.map g := by
  induction s using Multiset.induction_on with
  | empty => rfl
  | cons a s ih =>
    rw [Multiset.filterMap_cons_some f a s (h a (Multiset.mem_cons_self a s)), Multiset.map_cons,
      ih fun b hb => h b (Multiset.mem_cons_of_mem hb)]

theorem filterMap_keys {γ : Type} (t : Table κ β) (f : β → γ) :
    t.keys.val.filterMap (fun k => (t.lookup k).map f) = t.entries.map fun e => f e.2 := by
  have hkeys : t.keys.val = t.entries.map Sigma.fst := rfl
  rw [hkeys, Multiset.filterMap_map]
  apply filterMap_eq_map
  intro e he
  have hlookup : t.lookup e.1 = some e.2 := Finmap.lookup_eq_some_iff.mpr he
  rw [Function.comp_apply, hlookup, Option.map_some]

section Sorting

variable {α : Type} [LinearOrder α]

theorem insertionSort_eq_of_perm {l l' : List α} (h : l.Perm l') :
    l.insertionSort (· ≤ ·) = l'.insertionSort (· ≤ ·) := by
  have hperm := (List.perm_insertionSort (· ≤ ·) l).trans
    (h.trans (List.perm_insertionSort (· ≤ ·) l').symm)
  exact hperm.eq_of_pairwise (fun _ _ _ _ => le_antisymm)
    (List.pairwise_insertionSort (· ≤ ·) l) (List.pairwise_insertionSort (· ≤ ·) l')

def sorted (s : Multiset α) : List α :=
  Quot.liftOn s (List.insertionSort (· ≤ ·)) fun _ _ => insertionSort_eq_of_perm

theorem coe_sorted (s : Multiset α) : (sorted s : Multiset α) = s := by
  induction s using Quot.induction_on with
  | h l => exact Multiset.coe_eq_coe.mpr (List.perm_insertionSort (· ≤ ·) l)

theorem sum_map_sorted {M : Type} [AddCommMonoid M] (s : Finset α) (f : α → M) :
    ((sorted s.val).map f).sum = ∑ x ∈ s, f x := by
  rw [Finset.sum, ← Multiset.sum_coe, ← Multiset.map_coe, coe_sorted]

theorem mem_sorted {s : Multiset α} {a : α} : a ∈ sorted s ↔ a ∈ s := by
  rw [← Multiset.mem_coe, coe_sorted]

theorem nodup_sorted (s : Finset α) : (sorted s.val).Nodup := by
  rw [← Multiset.coe_nodup, coe_sorted]
  exact s.nodup

end Sorting

section Listing

variable [LinearOrder κ]

def listing (t : Table κ β) : List (κ × β) :=
  (sorted t.keys.val).filterMap fun k => (t.lookup k).map (k, ·)

theorem mem_listing {t : Table κ β} {k : κ} {v : β} :
    (k, v) ∈ t.listing ↔ t.lookup k = some v := by
  rw [listing, List.mem_filterMap]
  constructor
  · rintro ⟨j, -, hj⟩
    obtain ⟨w, hw, heq⟩ := Option.map_eq_some_iff.mp hj
    cases heq
    exact hw
  · intro hk
    have hmem : k ∈ t.keys := Finmap.mem_keys.mpr (Finmap.mem_of_lookup_eq_some hk)
    exact ⟨k, mem_sorted.mpr hmem, by rw [hk, Option.map_some]⟩

theorem map_fst_listing (t : Table κ β) : t.listing.map Prod.fst = sorted t.keys.val := by
  rw [listing, List.map_filterMap]
  refine (List.filterMap_congr fun k hk => ?_).trans List.filterMap_some
  obtain ⟨v, hv⟩ := Option.isSome_iff_exists.mp ((mem_keys_iff t k).mp (mem_sorted.mp hk))
  rw [hv]
  rfl

theorem length_listing (t : Table κ β) : t.listing.length = t.keys.card := by
  rw [← List.length_map Prod.fst, map_fst_listing, ← Multiset.coe_card, coe_sorted, Finset.card_val]

end Listing

section Weights

variable {M : Type} [AddCommMonoid M]

def cell (w : κ → β → M) (t : Table κ β) (k : κ) : M := (t.lookup k).elim 0 (w k)

def total (w : κ → β → M) (t : Table κ β) : M := ∑ k ∈ t.keys, cell w t k

theorem cell_of_none {w : κ → β → M} {t : Table κ β} {k : κ} (h : t.lookup k = none) :
    cell w t k = 0 := by simp [cell, h]

theorem cell_insert (w : κ → β → M) (t : Table κ β) (k : κ) (v : β) (j : κ) :
    cell w (t.insert k v) j = if j = k then w j v else cell w t j := by
  unfold cell
  rw [lookup_insert]
  split <;> rfl

theorem total_eq_sum (w : κ → β → M) (t : Table κ β) (S : Finset κ) (h : t.keys ⊆ S) :
    total w t = ∑ k ∈ S, cell w t k := by
  refine Finset.sum_subset h fun k _ hk => ?_
  rw [mem_keys_iff, Option.not_isSome_iff_eq_none] at hk
  exact cell_of_none hk

theorem total_congr {w : κ → β → M} {t t' : Table κ β} (h : ∀ k, cell w t k = cell w t' k) :
    total w t = total w t' := by
  rw [total_eq_sum w t (t.keys ∪ t'.keys) Finset.subset_union_left,
    total_eq_sum w t' (t.keys ∪ t'.keys) Finset.subset_union_right]
  exact Finset.sum_congr rfl fun k _ => h k

theorem total_update {w : κ → β → M} {t t' : Table κ β} {k : κ}
    (h : ∀ j, j ≠ k → cell w t' j = cell w t j) :
    total w t' + cell w t k = total w t + cell w t' k := by
  have hS : k ∈ insert k (t.keys ∪ t'.keys) := Finset.mem_insert_self _ _
  have hsub : t.keys ∪ t'.keys ⊆ insert k (t.keys ∪ t'.keys) := Finset.subset_insert _ _
  rw [total_eq_sum w t _ (Finset.subset_union_left.trans hsub),
    total_eq_sum w t' _ (Finset.subset_union_right.trans hsub),
    ← Finset.add_sum_erase _ _ hS, ← Finset.add_sum_erase _ (fun k => cell w t k) hS,
    Finset.sum_congr rfl fun j hj => h j (Finset.ne_of_mem_erase hj)]
  abel

theorem total_insert (w : κ → β → M) (t : Table κ β) (k : κ) (v : β) :
    total w (t.insert k v) + cell w t k = total w t + w k v := by
  have h : total w (t.insert k v) + cell w t k = total w t + cell w (t.insert k v) k :=
    total_update fun j hj => by rw [cell_insert, if_neg hj]
  rwa [cell_insert, if_pos rfl] at h

theorem total_insert_insert (w : κ → β → M) (t : Table κ β) {k j : κ} (a b : β) (h : j ≠ k) :
    total w ((t.insert k a).insert j b) + (cell w t k + cell w t j) =
      total w t + (w k a + w j b) := by
  have hfst := total_insert w t k a
  have hsnd := total_insert w (t.insert k a) j b
  rw [cell_insert, if_neg h] at hsnd
  calc total w ((t.insert k a).insert j b) + (cell w t k + cell w t j)
      = total w ((t.insert k a).insert j b) + cell w t j + cell w t k := by abel
    _ = total w (t.insert k a) + cell w t k + w j b := by rw [hsnd]; abel
    _ = total w t + (w k a + w j b) := by rw [hfst]; abel

theorem total_eq_zero {w : κ → β → M} {t : Table κ β} (h : ∀ k, cell w t k = 0) :
    total w t = 0 :=
  Finset.sum_eq_zero fun k _ => h k

end Weights

section Order

variable {w : κ → β → ℕ} {t t' : Table κ β}

theorem total_eq_iff_of_le (h : ∀ k, cell w t k ≤ cell w t' k) :
    total w t = total w t' ↔ ∀ k, cell w t k = cell w t' k := by
  refine ⟨fun he => ?_, total_congr⟩
  intro k
  have hS : k ∈ insert k (t.keys ∪ t'.keys) := Finset.mem_insert_self _ _
  have hsub : t.keys ∪ t'.keys ⊆ insert k (t.keys ∪ t'.keys) := Finset.subset_insert _ _
  rw [total_eq_sum w t _ (Finset.subset_union_left.trans hsub),
    total_eq_sum w t' _ (Finset.subset_union_right.trans hsub)] at he
  exact (Finset.sum_eq_sum_iff_of_le fun j _ => h j).mp he k hS

end Order

end Table
