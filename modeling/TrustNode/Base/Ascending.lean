import Mathlib.Data.List.Sort
import Mathlib.Order.Basic
import Mathlib.Tactic

namespace Ascending

variable {κ β : Type*} [LinearOrder κ]

def orInsert (k : κ) (v : β) : List (κ × β) → List (κ × β)
  | [] => [(k, v)]
  | (j, w) :: rest =>
    if k < j then (k, v) :: (j, w) :: rest
    else if k = j then (j, w) :: rest
    else (j, w) :: orInsert k v rest

def keys (l : List (κ × β)) : List κ := l.map Prod.fst

def Ordered (l : List (κ × β)) : Prop := (keys l).Pairwise (· < ·)

theorem Ordered.nodup {l : List (κ × β)} (h : Ordered l) : (keys l).Nodup :=
  List.Pairwise.imp (fun hlt => hlt.ne) h

theorem mem_of_mem_orInsert {k : κ} {v : β} {l : List (κ × β)} {p : κ × β}
    (h : p ∈ orInsert k v l) : p = (k, v) ∨ p ∈ l := by
  induction l with
  | nil => exact Or.inl (List.mem_singleton.mp h)
  | cons head rest ih =>
    obtain ⟨j, w⟩ := head
    unfold orInsert at h
    split at h
    · exact List.mem_cons.mp h
    · split at h
      · exact Or.inr h
      · rcases List.mem_cons.mp h with rfl | hrest
        · exact Or.inr List.mem_cons_self
        · exact (ih hrest).imp_right (List.mem_cons_of_mem _)

theorem mem_keys_orInsert {k j : κ} {v : β} {l : List (κ × β)} :
    j ∈ keys (orInsert k v l) ↔ j = k ∨ j ∈ keys l := by
  induction l with
  | nil => simp [orInsert, keys]
  | cons head rest ih =>
    obtain ⟨i, w⟩ := head
    unfold orInsert
    split
    · simp [keys]
    · split
      · next heq =>
        subst heq
        simp [keys]
      · have hcons : ∀ l : List (κ × β), j ∈ keys ((i, w) :: l) ↔ j = i ∨ j ∈ keys l := by
          simp [keys]
        rw [hcons, hcons, ih]
        tauto

theorem Ordered.orInsert {l : List (κ × β)} (h : Ordered l) (k : κ) (v : β) :
    Ordered (orInsert k v l) := by
  induction l with
  | nil => exact List.pairwise_singleton _ _
  | cons head rest ih =>
    obtain ⟨j, w⟩ := head
    obtain ⟨hhead, hrest⟩ := List.pairwise_cons.mp h
    unfold Ascending.orInsert
    split
    · next hlt =>
      refine List.pairwise_cons.mpr ⟨fun i hi => ?_, h⟩
      rcases List.mem_cons.mp hi with rfl | hi
      · exact hlt
      · exact hlt.trans (hhead i hi)
    · split
      · exact h
      · next hlt hne =>
        refine List.pairwise_cons.mpr ⟨fun i hi => ?_, ih hrest⟩
        rcases mem_keys_orInsert.mp hi with rfl | hi
        · exact lt_of_le_of_ne (not_lt.mp hlt) (Ne.symm hne)
        · exact hhead i hi

theorem Ordered.orInsert_of_mem {l : List (κ × β)} (h : Ordered l) {k : κ} (hk : k ∈ keys l)
    (v : β) : Ascending.orInsert k v l = l := by
  induction l with
  | nil => cases hk
  | cons head rest ih =>
    obtain ⟨j, w⟩ := head
    obtain ⟨hhead, hrest⟩ := List.pairwise_cons.mp h
    unfold Ascending.orInsert
    rcases List.mem_cons.mp hk with rfl | hk
    · rw [if_neg (lt_irrefl _), if_pos rfl]
    · have hjk := hhead k hk
      rw [if_neg hjk.not_gt, if_neg hjk.ne', ih hrest hk]

theorem Ordered.mem_take_iff {l : List (κ × β)} (h : Ordered l) {p : κ × β} (hp : p ∈ l) {n : ℕ} :
    p ∈ l.take n ↔ ((keys l).filter (· < p.1)).length < n := by
  induction l generalizing n with
  | nil => cases hp
  | cons head rest ih =>
    obtain ⟨hhead, hrest⟩ := List.pairwise_cons.mp h
    have hkeys : keys (head :: rest) = head.1 :: keys rest := rfl
    rcases List.mem_cons.mp hp with rfl | hp
    · have hnone : (keys (p :: rest)).filter (· < p.1) = [] := by
        refine List.filter_eq_nil_iff.mpr fun k hk => ?_
        rcases List.mem_cons.mp hk with rfl | hk
        · simp
        · simpa using (hhead k hk).le
      cases n with
      | zero => simp
      | succ n => simp [hnone]
    · have hlt : head.1 < p.1 := hhead p.1 (List.mem_map_of_mem hp)
      have hne : p ≠ head := fun he => hlt.ne (congrArg Prod.fst he).symm
      have hcount : ((keys (head :: rest)).filter (· < p.1)).length =
          ((keys rest).filter (· < p.1)).length + 1 := by
        simp [hkeys, hlt]
      rw [hcount]
      cases n with
      | zero => simp
      | succ n =>
        rw [List.take_succ_cons, List.mem_cons, or_iff_right hne, ih hrest hp, Nat.succ_lt_succ_iff]

theorem take_orInsert {l : List (κ × β)} {k : κ} {n : ℕ} (hn : n ≤ l.length)
    (hle : ∀ j ∈ keys (l.take n), j ≤ k) (v : β) : (orInsert k v l).take n = l.take n := by
  induction l generalizing n with
  | nil =>
    obtain rfl := Nat.le_zero.mp hn
    rfl
  | cons head rest ih =>
    obtain ⟨j, w⟩ := head
    cases n with
    | zero => rfl
    | succ n =>
      have hj : j ≤ k := hle j List.mem_cons_self
      unfold orInsert
      rw [if_neg hj.not_gt]
      split_ifs
      · rfl
      · rw [List.take_succ_cons, List.take_succ_cons,
          ih (Nat.le_of_succ_le_succ hn) fun i hi => hle i (List.mem_cons_of_mem _ hi)]

def ByKey (a b : κ × β) : Prop := a.1 ≤ b.1

instance : DecidableRel (ByKey (κ := κ) (β := β)) := fun a b => inferInstanceAs (Decidable (a.1 ≤ b.1))

instance : Std.Total (ByKey (κ := κ) (β := β)) := ⟨fun a b => le_total a.1 b.1⟩

instance : IsTrans (κ × β) ByKey := ⟨fun _ _ _ hab hbc => le_trans (α := κ) hab hbc⟩

def dedupAfter (last : κ) : List (κ × β) → List (κ × β)
  | [] => []
  | p :: rest => if p.1 = last then dedupAfter last rest else p :: dedupAfter p.1 rest

def dedup : List (κ × β) → List (κ × β)
  | [] => []
  | p :: rest => p :: dedupAfter p.1 rest

def firsts (l : List (κ × β)) : List (κ × β) := dedup (l.insertionSort ByKey)

theorem filter_insertionSort (l : List (κ × β)) (k : κ) :
    (l.insertionSort ByKey).filter (·.1 = k) = l.filter (·.1 = k) := by
  have hsame : (l.filter (·.1 = k)).Pairwise ByKey := by
    refine List.pairwise_of_forall_mem_list fun a ha b hb => ?_
    have hak : a.1 = k := by simpa using (List.mem_filter.mp ha).2
    have hbk : b.1 = k := by simpa using (List.mem_filter.mp hb).2
    exact (hak.trans hbk.symm).le
  have hsub := (List.sublist_insertionSort hsame List.filter_sublist).filter (·.1 = k)
  rw [List.filter_filter] at hsub
  simp only [Bool.and_self] at hsub
  refine (hsub.eq_of_length ?_).symm
  exact ((List.perm_insertionSort ByKey l).filter _).length_eq.symm

theorem mem_dedupAfter {last : κ} {p : κ × β} {l : List (κ × β)} (hl : l.Pairwise ByKey)
    (hlast : ∀ q ∈ l, last ≤ q.1) :
    p ∈ dedupAfter last l ↔ p.1 ≠ last ∧ l.find? (·.1 = p.1) = some p := by
  induction l generalizing last with
  | nil => simp [dedupAfter]
  | cons q rest ih =>
    obtain ⟨hq, hrest⟩ := List.pairwise_cons.mp hl
    have hle : last ≤ q.1 := hlast q List.mem_cons_self
    rw [dedupAfter, List.find?_cons]
    rcases eq_or_ne q.1 last with hsame | hnew
    · rw [if_pos hsame, ih hrest fun r hr => hsame ▸ hq r hr]
      refine and_congr_right fun hp => ?_
      rw [decide_eq_false fun h : q.1 = p.1 => hp (h ▸ hsame)]
    · rw [if_neg hnew, List.mem_cons, ih hrest hq]
      have hlt : last < q.1 := lt_of_le_of_ne hle hnew.symm
      rcases eq_or_ne q.1 p.1 with hqp | hqp
      · rw [decide_eq_true hqp]
        simp only [hqp, ne_eq, not_true_eq_false, false_and, or_false, Option.some.injEq]
        exact ⟨fun h => ⟨(hqp ▸ hlt).ne', h.symm⟩, fun h => h.2.symm⟩
      · rw [decide_eq_false hqp]
        have hne : p ≠ q := fun h => hqp (h ▸ rfl)
        simp only [hne, false_or, ne_eq, hqp.symm, not_false_eq_true, true_and]
        refine ⟨fun h => ⟨fun hp => ?_, h⟩, fun h => h.2⟩
        exact (hlt.trans_le (hq p (List.mem_of_find?_eq_some h))).ne' hp

theorem mem_dedup {p : κ × β} {l : List (κ × β)} (hl : l.Pairwise ByKey) :
    p ∈ dedup l ↔ l.find? (·.1 = p.1) = some p := by
  cases l with
  | nil => simp [dedup]
  | cons q rest =>
    obtain ⟨hq, hrest⟩ := List.pairwise_cons.mp hl
    rw [dedup, List.mem_cons, mem_dedupAfter hrest hq, List.find?_cons]
    rcases eq_or_ne q.1 p.1 with hqp | hqp
    · rw [decide_eq_true hqp]
      simp [hqp, eq_comm]
    · rw [decide_eq_false hqp]
      have hne : p ≠ q := fun h => hqp (h ▸ rfl)
      simp [hne, hqp.symm]

theorem ordered_cons_dedupAfter {p : κ × β} {l : List (κ × β)} (hl : (p :: l).Pairwise ByKey) :
    Ordered (p :: dedupAfter p.1 l) := by
  induction l generalizing p with
  | nil => exact List.pairwise_singleton _ _
  | cons q rest ih =>
    obtain ⟨hp, hq⟩ := List.pairwise_cons.mp hl
    have hpq : p.1 ≤ q.1 := hp q List.mem_cons_self
    rw [dedupAfter]
    rcases hpq.eq_or_lt with hsame | hlt
    · rw [if_pos hsame.symm]
      exact ih (List.pairwise_cons.mpr
        ⟨fun r hr => hp r (List.mem_cons_of_mem _ hr), (List.pairwise_cons.mp hq).2⟩)
    · rw [if_neg hlt.ne']
      have htail := ih hq
      refine List.pairwise_cons.mpr ⟨fun k hk => ?_, htail⟩
      rcases List.mem_cons.mp hk with rfl | hk
      · exact hlt
      · exact hlt.trans ((List.pairwise_cons.mp htail).1 k hk)

theorem ordered_firsts (l : List (κ × β)) : Ordered (firsts l) := by
  unfold firsts
  have hsorted := List.pairwise_insertionSort ByKey l
  cases hl : l.insertionSort ByKey with
  | nil => exact List.Pairwise.nil
  | cons p rest =>
    rw [hl] at hsorted
    exact ordered_cons_dedupAfter hsorted

theorem mem_firsts {p : κ × β} {l : List (κ × β)} :
    p ∈ firsts l ↔ l.find? (·.1 = p.1) = some p := by
  rw [firsts, mem_dedup (List.pairwise_insertionSort ByKey l), ← List.head?_filter,
    ← List.head?_filter, filter_insertionSort]

theorem mem_of_mem_firsts {p : κ × β} {l : List (κ × β)} (h : p ∈ firsts l) : p ∈ l :=
  List.mem_of_find?_eq_some (mem_firsts.mp h)

theorem exists_mem_firsts {k : κ} {l : List (κ × β)} :
    (∃ v, (k, v) ∈ firsts l) ↔ k ∈ keys l := by
  constructor
  · rintro ⟨v, hv⟩
    exact List.mem_map_of_mem (mem_of_mem_firsts hv)
  · intro hk
    obtain ⟨p, hp, rfl⟩ := List.mem_map.mp hk
    have hsome : (l.find? (·.1 = p.1)).isSome :=
      List.find?_isSome.mpr ⟨p, hp, decide_eq_true rfl⟩
    obtain ⟨q, hq⟩ := Option.isSome_iff_exists.mp hsome
    have hkey : q.1 = p.1 := by simpa using List.find?_some hq
    refine ⟨q.2, mem_firsts.mpr ?_⟩
    rw [hq, ← hkey]

theorem mem_firsts_append {p : κ × β} {l : List (κ × β)} (m : List (κ × β))
    (h : p ∈ firsts l) : p ∈ firsts (l ++ m) := by
  rw [mem_firsts] at h ⊢
  rw [List.find?_append, h]
  rfl

end Ascending
