import Mathlib.Data.Finset.Card
import Mathlib.Data.Multiset.Sort

namespace TrustNode.TopK

variable {α β : Type*} [LinearOrder β]

def largest (k : ℕ) (s : Multiset β) : Multiset β := ((s.sort (· ≥ ·)).take k : List β)

structure Best (key : α → β) (k : ℕ) (offered kept : Finset α) : Prop where
  subset : kept ⊆ offered
  card : kept.card = min k offered.card
  best : ∀ x ∈ kept, ∀ y ∈ offered, y ∉ kept → key y ≤ key x

theorem largest_add {k : ℕ} {s t : Multiset β} (hle : ∀ x ∈ s, ∀ y ∈ t, y ≤ x)
    (hcard : s.card = min k (s + t).card) : largest k (s + t) = s := by
  have hsort : (s + t).sort (· ≥ ·) = s.sort (· ≥ ·) ++ t.sort (· ≥ ·) := by
    refine List.Perm.eq_of_pairwise' ((s + t).pairwise_sort _) ?_ ?_
    · refine List.pairwise_append.mpr ⟨s.pairwise_sort _, t.pairwise_sort _, fun x hx y hy => ?_⟩
      exact hle x ((Multiset.mem_sort _).mp hx) y ((Multiset.mem_sort _).mp hy)
    · rw [← Multiset.coe_eq_coe, ← Multiset.coe_add, Multiset.sort_eq, Multiset.sort_eq,
        Multiset.sort_eq]
  rw [Multiset.card_add] at hcard
  rw [largest, hsort]
  rcases le_total k (s.card + t.card) with hk | hk
  · rw [min_eq_left hk, ← Multiset.length_sort (r := (· ≥ ·))] at hcard
    rw [← hcard, List.take_left, Multiset.sort_eq]
  · rw [min_eq_right hk] at hcard
    have ht : t = 0 := Multiset.card_eq_zero.mp (by omega)
    rw [ht, Multiset.sort_zero, List.append_nil, List.take_of_length_le, Multiset.sort_eq]
    rw [Multiset.length_sort]
    omega

namespace Best

variable {key : α → β} {k : ℕ} {offered kept : Finset α} {x : α}

theorem empty : Best key k ∅ ∅ where
  subset := subset_rfl
  card := by simp
  best x hx := absurd hx (Finset.notMem_empty x)

variable [DecidableEq α]

theorem add (h : Best key k offered kept) (hroom : kept.card < k) :
    Best key k (insert x offered) (insert x kept) := by
  have hcard := h.card
  have heq : kept = offered := Finset.eq_of_subset_of_card_le h.subset (by omega)
  subst heq
  refine ⟨subset_rfl, ?_, fun _ _ y hy hno => absurd hy hno⟩
  have hle := Finset.card_insert_le x kept
  omega

theorem skip (h : Best key k offered kept) (hfull : k ≤ kept.card)
    (hlow : ∀ y ∈ kept, key x ≤ key y) : Best key k (insert x offered) kept where
  subset := h.subset.trans (Finset.subset_insert x offered)
  card := by
    have hcard := h.card
    have hle := Finset.card_le_card (Finset.subset_insert x offered)
    omega
  best y hy z hz hno := by
    rcases Finset.mem_insert.mp hz with rfl | hz
    · exact hlow y hy
    · exact h.best y hy z hz hno

theorem replace {m : α} (h : Best key k offered kept) (hfull : k ≤ kept.card) (hm : m ∈ kept)
    (hmin : ∀ y ∈ kept, key m ≤ key y) (hlt : key m < key x) (hnew : x ∉ kept) :
    Best key k (insert x offered) (insert x (kept.erase m)) where
  subset := Finset.insert_subset_insert x ((kept.erase_subset m).trans h.subset)
  card := by
    have hcard := h.card
    have hle := Finset.card_le_card (Finset.subset_insert x offered)
    have hpos := Finset.card_pos.mpr ⟨m, hm⟩
    rw [Finset.card_insert_of_notMem fun hx => hnew (Finset.mem_of_mem_erase hx),
      Finset.card_erase_of_mem hm]
    omega
  best y hy z hz hno := by
    -- everything now left out is below the entry that was dropped
    have hz' : key z ≤ key m := by
      rcases Finset.mem_insert.mp hz with rfl | hz
      · exact absurd (Finset.mem_insert_self _ _) hno
      · by_cases hzm : z = m
        · rw [hzm]
        · refine h.best m hm z hz fun hkept => hno ?_
          exact Finset.mem_insert_of_mem (Finset.mem_erase.mpr ⟨hzm, hkept⟩)
    rcases Finset.mem_insert.mp hy with rfl | hy
    · exact hz'.trans hlt.le
    · exact hz'.trans (hmin y (Finset.mem_of_mem_erase hy))

theorem map_eq_largest (h : Best key k offered kept) :
    kept.val.map key = largest k (offered.val.map key) := by
  have hsplit : offered.val.map key = kept.val.map key + (offered \ kept).val.map key := by
    rw [← Multiset.map_add, Multiset.add_comm, Finset.sdiff_val,
      Multiset.sub_add_cancel (Finset.val_le_iff.mpr h.subset)]
  have hcard : (kept.val.map key).card = min k (offered.val.map key).card := by
    rw [Multiset.card_map, Multiset.card_map]
    exact h.card
  rw [hsplit] at hcard ⊢
  refine (largest_add ?_ hcard).symm
  simp only [Multiset.mem_map, Finset.mem_val, Finset.mem_sdiff]
  rintro _ ⟨a, ha, rfl⟩ _ ⟨b, ⟨hb, hno⟩, rfl⟩
  exact h.best a ha b hb hno

end Best

end TrustNode.TopK
