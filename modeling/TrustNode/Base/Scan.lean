import Mathlib.Tactic

namespace Scan

variable {σ τ : Type*}

def scan (read : σ → List τ → Option (σ × List τ)) : ℕ → σ → List τ → σ × List τ
  | 0, s, data => (s, data)
  | fuel + 1, s, data =>
    match read s data with
    | none => (s, data)
    | some (s', rest) => scan read fuel s' rest

def scanAll (read : σ → List τ → Option (σ × List τ)) (s : σ) (data : List τ) : σ × List τ :=
  scan read data.length s data

def Reader (read : σ → List τ → Option (σ × List τ)) : Prop :=
  ∀ ⦃s data s' rest⦄, read s data = some (s', rest) →
    ∃ frame, frame ≠ [] ∧ data = frame ++ rest ∧ ∀ more, read s (frame ++ more) = some (s', more)

inductive Reads (read : σ → List τ → Option (σ × List τ)) (start : σ) : List τ → σ → Prop
  | nil : Reads read start [] start
  | snoc {s s' : σ} {data frame : List τ} (hdata : Reads read start data s)
      (hframe : read s frame = some (s', [])) : Reads read start (data ++ frame) s'

variable {read : σ → List τ → Option (σ × List τ)}

theorem Reads.invariant {P : σ → Prop} {start s : σ} {data : List τ} (h : Reads read start data s)
    (hstart : P start)
    (hstep : ∀ {s s' frame}, P s → read s frame = some (s', []) → P s') : P s := by
  induction h with
  | nil => exact hstart
  | snoc hdata hframe ih => exact hstep ih hframe

structure CutAfter (frames : List (List τ)) (n count : ℕ) : Prop where
  le : count ≤ frames.length
  complete : ∀ i ≤ frames.length, (frames.take i).flatten.length ≤ n ↔ i ≤ count

theorem CutAfter.nil (n : ℕ) : CutAfter ([] : List (List τ)) n 0 :=
  ⟨le_rfl, fun i hi => iff_of_true (by simp) hi⟩

theorem CutAfter.torn {frame : List τ} {n : ℕ} (h : n < frame.length) (rest : List (List τ)) :
    CutAfter (frame :: rest) n 0 := by
  refine ⟨Nat.zero_le _, fun i _ => ?_⟩
  cases i with
  | zero => exact iff_of_true (Nat.zero_le n) le_rfl
  | succ i =>
    rw [List.take_succ_cons, List.flatten_cons, List.length_append]
    exact iff_of_false (by omega) (by omega)

theorem CutAfter.cons {frame : List τ} {rest : List (List τ)} {n count : ℕ}
    (hle : frame.length ≤ n) (h : CutAfter rest (n - frame.length) count) :
    CutAfter (frame :: rest) n (count + 1) := by
  refine ⟨Nat.succ_le_succ h.le, fun i hi => ?_⟩
  cases i with
  | zero => exact iff_of_true (Nat.zero_le n) (Nat.zero_le _)
  | succ i =>
    have hrest := h.complete i (Nat.le_of_succ_le_succ hi)
    rw [List.take_succ_cons, List.flatten_cons, List.length_append]
    omega

namespace Reader

theorem consumes (hread : Reader read) {s s' : σ} {data rest : List τ}
    (h : read s data = some (s', rest)) : rest.length < data.length := by
  obtain ⟨frame, hne, rfl, -⟩ := hread h
  have hpos := List.length_pos_iff.mpr hne
  rw [List.length_append]
  omega

theorem local_read (hread : Reader read) {s s' : σ} {data rest : List τ}
    (h : read s data = some (s', rest)) (more : List τ) :
    read s (data ++ more) = some (s', rest ++ more) := by
  obtain ⟨frame, -, rfl, hframe⟩ := hread h
  rw [List.append_assoc, hframe]

theorem read_nil (hread : Reader read) (s : σ) : read s [] = none := by
  cases hr : read s [] with
  | none => rfl
  | some next =>
    have hlt := hread.consumes hr
    simp at hlt

theorem scan_nil (hread : Reader read) (fuel : ℕ) (s : σ) : scan read fuel s [] = (s, []) := by
  cases fuel with
  | zero => rfl
  | succ fuel => rw [scan, hread.read_nil]

theorem scan_eq_scan (hread : Reader read) {fuel fuel' : ℕ} {s : σ} {data : List τ}
    (h : data.length ≤ fuel) (h' : data.length ≤ fuel') :
    scan read fuel s data = scan read fuel' s data := by
  induction fuel generalizing fuel' s data with
  | zero =>
    obtain rfl : data = [] := List.eq_nil_of_length_eq_zero (by omega)
    rw [hread.scan_nil, hread.scan_nil]
  | succ fuel ih =>
    cases fuel' with
    | zero =>
      obtain rfl : data = [] := List.eq_nil_of_length_eq_zero (by omega)
      rw [hread.scan_nil, hread.scan_nil]
    | succ fuel' =>
      rw [scan, scan]
      cases hr : read s data with
      | none => rfl
      | some next =>
        have hlt := hread.consumes hr
        exact ih (by omega) (by omega)

theorem scanAll_of_none {s : σ} {data : List τ} (h : read s data = none) :
    scanAll read s data = (s, data) := by
  unfold scanAll
  cases data.length with
  | zero => rfl
  | succ n => rw [scan, h]

theorem scanAll_of_some (hread : Reader read) {s s' : σ} {data rest : List τ}
    (h : read s data = some (s', rest)) : scanAll read s data = scanAll read s' rest := by
  have hlt := hread.consumes h
  unfold scanAll
  obtain ⟨n, hn⟩ : ∃ n, data.length = n + 1 := ⟨data.length - 1, by omega⟩
  rw [hn, scan, h]
  exact hread.scan_eq_scan (by omega) le_rfl

theorem scanAll_stuck (hread : Reader read) (s : σ) (data : List τ) :
    read (scanAll read s data).1 (scanAll read s data).2 = none := by
  induction hn : data.length using Nat.strong_induction_on generalizing s data with
  | _ n ih =>
    cases hr : read s data with
    | none => rw [scanAll_of_none hr, hr]
    | some next =>
      rw [hread.scanAll_of_some hr]
      exact ih _ (hn ▸ hread.consumes hr) next.1 next.2 rfl

theorem scanAll_append (hread : Reader read) {s : σ} {data : List τ}
    (h : (scanAll read s data).2 = []) (more : List τ) :
    scanAll read s (data ++ more) = scanAll read (scanAll read s data).1 more := by
  induction hn : data.length using Nat.strong_induction_on generalizing s data with
  | _ n ih =>
    cases hr : read s data with
    | none =>
      rw [scanAll_of_none hr] at h ⊢
      obtain rfl : data = [] := h
      rfl
    | some next =>
      obtain ⟨s', rest⟩ := next
      rw [hread.scanAll_of_some hr] at h ⊢
      rw [hread.scanAll_of_some (hread.local_read hr more)]
      exact ih _ (hn ▸ hread.consumes hr) h rfl

theorem scanAll_of_reads (hread : Reader read) {start s : σ} {data : List τ}
    (h : Reads read start data s) (more : List τ) :
    scanAll read start (data ++ more) = scanAll read s more := by
  induction h generalizing more with
  | nil => rfl
  | snoc hdata hframe ih =>
    rw [List.append_assoc, ih]
    exact hread.scanAll_of_some (by simpa using hread.local_read hframe more)

theorem scanAll_reads (hread : Reader read) {start s : σ} {data : List τ}
    (h : Reads read start data s) : scanAll read start data = (s, []) := by
  have hall := hread.scanAll_of_reads h []
  rw [List.append_nil, scanAll_of_none (hread.read_nil s)] at hall
  exact hall

theorem read_take (hread : Reader read) {s s' : σ} {frame : List τ}
    (h : read s frame = some (s', [])) {n : ℕ} (hn : n < frame.length) :
    read s (frame.take n) = none := by
  cases hcut : read s (frame.take n) with
  | none => rfl
  | some next =>
    obtain ⟨t, rest⟩ := next
    have hwhole := hread.local_read hcut (frame.drop n)
    rw [List.take_append_drop, h] at hwhole
    have hnil : rest ++ frame.drop n = [] := (Prod.mk.inj (Option.some.inj hwhole)).2.symm
    have hdrop := List.drop_eq_nil_iff.mp (List.append_eq_nil_iff.mp hnil).2
    omega

theorem scanAll_take_frame (hread : Reader read) {s s' : σ} {frame : List τ}
    (h : read s frame = some (s', [])) (more : List τ) (n : ℕ) :
    scanAll read s ((frame ++ more).take n) =
      if frame.length ≤ n then scanAll read s' (more.take (n - frame.length))
      else (s, frame.take n) := by
  rw [List.take_append]
  split_ifs with hn
  · rw [List.take_of_length_le hn]
    exact hread.scanAll_of_some (hread.local_read h _)
  · rw [Nat.sub_eq_zero_of_le (not_le.mp hn).le, List.take_zero, List.append_nil]
    exact scanAll_of_none (hread.read_take h (not_le.mp hn))

theorem scanAll_split (hread : Reader read) (s : σ) (data : List τ) :
    ∃ consumed, data = consumed ++ (scanAll read s data).2 ∧
      ∀ {start before}, Reads read start before s →
        Reads read start (before ++ consumed) (scanAll read s data).1 := by
  induction hn : data.length using Nat.strong_induction_on generalizing s data with
  | _ n ih =>
    cases hr : read s data with
    | none =>
      rw [scanAll_of_none hr]
      exact ⟨[], rfl, fun h => by rwa [List.append_nil]⟩
    | some next =>
      obtain ⟨s', rest⟩ := next
      obtain ⟨frame, -, hdata, hframe⟩ := hread hr
      obtain ⟨consumed, hrest, hreads⟩ := ih _ (hn ▸ hread.consumes hr) s' rest rfl
      rw [hread.scanAll_of_some hr]
      refine ⟨frame ++ consumed, ?_, fun h => ?_⟩
      · rw [List.append_assoc, ← hrest]
        exact hdata
      · rw [← List.append_assoc]
        exact hreads (h.snoc (by simpa using hframe []))

end Reader

end Scan
