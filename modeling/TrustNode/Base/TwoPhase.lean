import Mathlib.Logic.Relation
import Mathlib.Tactic

structure Memory (μ κ β : Type) [DecidableEq κ] where
  get : μ → κ → Option β
  set : μ → κ → Option β → μ
  get_set : ∀ m k v j, get (set m k v) j = if j = k then v else get m j
  ext : ∀ m m', (∀ k, get m k = get m' k) → m = m'

inductive Code (κ β ρ : Type) where
  | done (r : ρ)
  | load (k : κ) (next : Option β → Code κ β ρ)
  | write (k : κ) (v : Option β) (next : Code κ β ρ)

namespace Code

variable {μ κ β ρ τ : Type} [DecidableEq κ] (M : Memory μ κ β)

def run : Code κ β ρ → μ → ρ × μ
  | done r, m => (r, m)
  | load k next, m => (next (M.get m k)).run m
  | write k v next, m => next.run (M.set m k v)

def bind (f : ρ → Code κ β τ) : Code κ β ρ → Code κ β τ
  | done r => f r
  | load k next => load k fun v => (next v).bind f
  | write k v next => write k v (next.bind f)

theorem run_bind (f : ρ → Code κ β τ) (c : Code κ β ρ) (m : μ) :
    (c.bind f).run M m = (f (c.run M m).1).run M (c.run M m).2 := by
  induction c generalizing m with
  | done r => rfl
  | load k next ih => exact ih (M.get m k) m
  | write k v next ih => exact ih (M.set m k v)

def Covered (held : κ → Bool → Prop) : Code κ β ρ → Prop
  | done _ => True
  | load k next => (∃ b, held k b) ∧ ∀ v, (next v).Covered held
  | write k _ next => held k true ∧ next.Covered held

omit [DecidableEq κ] in
theorem Covered.bind {held : κ → Bool → Prop} {c : Code κ β ρ} {f : ρ → Code κ β τ}
    (hc : c.Covered held) (hf : ∀ r, (f r).Covered held) : (c.bind f).Covered held := by
  induction c with
  | done r => exact hf r
  | load k next ih => exact ⟨hc.1, fun v => ih v (hc.2 v)⟩
  | write k v next ih => exact ⟨hc.1, ih hc.2⟩

omit [DecidableEq κ] in
theorem Covered.mono {held held' : κ → Bool → Prop} (hle : ∀ k b, held k b → held' k b)
    {c : Code κ β ρ} (hc : c.Covered held) : c.Covered held' := by
  induction c with
  | done r => trivial
  | load k next ih => exact ⟨hc.1.imp fun b hb => hle k b hb, fun v => ih v (hc.2 v)⟩
  | write k v next ih => exact ⟨hle k true hc.1, ih hc.2⟩

end Code

namespace TwoPhase

variable {μ κ β ρ ι : Type}

inductive Worker (κ β ρ : Type) where
  | acquiring (held todo : List (κ × Bool))
  | running (held : List (κ × Bool)) (rest : Code κ β ρ)
  | releasing (held : List (κ × Bool)) (result : ρ)

def Worker.holds : Worker κ β ρ → List (κ × Bool)
  | acquiring held _ => held
  | running held _ => held
  | releasing held _ => held

structure State (μ κ β ρ ι : Type) where
  mem : μ
  workers : ι → Worker κ β ρ
  finished : List ι

namespace State

def Grants (s : State μ κ β ρ ι) : κ × Bool → Prop
  | (k, true) => ∀ j b, (k, b) ∉ (s.workers j).holds
  | (k, false) => ∀ j, (k, true) ∉ (s.workers j).holds

variable [DecidableEq ι]

def put (s : State μ κ β ρ ι) (i : ι) (w : Worker κ β ρ) : State μ κ β ρ ι :=
  { s with workers := Function.update s.workers i w }

theorem workers_put (s : State μ κ β ρ ι) (i : ι) (w : Worker κ β ρ) (j : ι) :
    (s.put i w).workers j = if j = i then w else s.workers j :=
  Function.update_apply s.workers i w j

end State

inductive Control [DecidableEq ι] (body : ι → Code κ β ρ) :
    State μ κ β ρ ι → ι → State μ κ β ρ ι → Prop
  | acquire {s : State μ κ β ρ ι} {i : ι} {held todo : List (κ × Bool)} {r : κ × Bool}
      (hi : s.workers i = .acquiring held (r :: todo)) (hgrant : s.Grants r) :
      Control body s i (s.put i (.acquiring (held ++ [r]) todo))
  | start {s : State μ κ β ρ ι} {i : ι} {held : List (κ × Bool)}
      (hi : s.workers i = .acquiring held []) : Control body s i (s.put i (.running held (body i)))
  | finish {s : State μ κ β ρ ι} {i : ι} {held : List (κ × Bool)} {r : ρ}
      (hi : s.workers i = .running held (.done r)) :
      Control body s i { s.put i (.releasing held r) with finished := s.finished ++ [i] }
  | release {s : State μ κ β ρ ι} {i : ι} {q : κ × Bool} {held : List (κ × Bool)} {r : ρ}
      (hi : s.workers i = .releasing (q :: held) r) : Control body s i (s.put i (.releasing held r))

variable [DecidableEq κ] [DecidableEq ι] (M : Memory μ κ β) (plan : ι → List (κ × Bool))
  (body : ι → Code κ β ρ)

inductive Step : State μ κ β ρ ι → State μ κ β ρ ι → Prop
  | control {s t : State μ κ β ρ ι} {i : ι} (h : Control body s i t) : Step s t
  | load {s : State μ κ β ρ ι} {i : ι} {held : List (κ × Bool)} {k : κ}
      {next : Option β → Code κ β ρ} (hi : s.workers i = .running held (.load k next)) :
      Step s (s.put i (.running held (next (M.get s.mem k))))
  | write {s : State μ κ β ρ ι} {i : ι} {held : List (κ × Bool)} {k : κ} {v : Option β}
      {next : Code κ β ρ} (hi : s.workers i = .running held (.write k v next)) :
      Step s { s.put i (.running held next) with mem := M.set s.mem k v }

def initial (m : μ) : State μ κ β ρ ι where
  mem := m
  workers := fun i => .acquiring [] (plan i)
  finished := []

def Reachable (m : μ) : State μ κ β ρ ι → Prop :=
  Relation.ReflTransGen (Step M body) (initial plan m)

def serial (m : μ) (order : List ι) : μ := order.foldl (fun m i => ((body i).run M m).2) m

omit [DecidableEq ι] in
theorem serial_snoc (m : μ) (order : List ι) (i : ι) :
    serial M body m (order ++ [i]) = ((body i).run M (serial M body m order)).2 := by
  rw [serial, serial, List.foldl_append]
  rfl

def Locked (i : ι) (k : κ) : Prop := ∃ b, (k, b) ∈ plan i

def Exclusive (s : State μ κ β ρ ι) : Prop :=
  ∀ i j k b, (k, true) ∈ (s.workers i).holds → (k, b) ∈ (s.workers j).holds → i = j

structure Resumes (m cur : μ) (i : ι) (rest : Code κ β ρ) : Prop where
  covered : rest.Covered fun k b => (k, b) ∈ plan i
  run_eq : ∀ m', (∀ k, Locked plan i k → M.get m' k = M.get m k) →
    ∃ m'', (body i).run M m' = rest.run M m'' ∧
      (∀ k, Locked plan i k → M.get m'' k = M.get cur k) ∧
      ∀ k, (k, true) ∉ plan i → M.get m'' k = M.get m' k

structure Ordered (m : μ) (s : State μ κ β ρ ι) : Prop where
  exclusive : Exclusive s
  acquiring : ∀ i held todo, s.workers i = .acquiring held todo → held ++ todo = plan i
  running : ∀ i held rest, s.workers i = .running held rest →
    held = plan i ∧ Resumes M plan body (serial M body m s.finished) s.mem i rest
  quiet : ∀ k, (∀ i held rest, s.workers i = .running held rest → (k, true) ∉ plan i) →
    M.get s.mem k = M.get (serial M body m s.finished) k
  finished : ∀ i, i ∈ s.finished ↔ ∃ held r, s.workers i = .releasing held r
  nodup : s.finished.Nodup
  results : ∀ i held r, s.workers i = .releasing held r → ∃ before after,
    s.finished = before ++ i :: after ∧ r = ((body i).run M (serial M body m before)).1

variable {M plan body} {m : μ} {s : State μ κ β ρ ι}

section Exclusion

omit [DecidableEq κ]

theorem Exclusive.put (h : Exclusive s) {i : ι} {w : Worker κ β ρ}
    (hw : ∀ q ∈ w.holds, q ∈ (s.workers i).holds ∨ s.Grants q) : Exclusive (s.put i w) := by
  intro a b k x ha hb
  rw [State.workers_put] at ha hb
  split_ifs at ha hb with hai hbi hbi
  · rw [hai, hbi]
  · rcases hw _ ha with hold | hgrant
    · exact hai.trans (h i b k x hold hb)
    · exact absurd hb (hgrant b x)
  · rcases hw _ hb with hold | hgrant
    · exact (h a i k x ha hold).trans hbi.symm
    · cases x with
      | true => exact absurd ha (hgrant a true)
      | false => exact absurd ha (hgrant a)
  · exact h a b k x ha hb

end Exclusion

namespace Ordered

variable {i : ι} {held todo : List (κ × Bool)}

omit [DecidableEq ι] in
theorem disjoint (h : Ordered M plan body m s) {j : ι} {held' : List (κ × Bool)}
    {rest rest' : Code κ β ρ} (hi : s.workers i = .running held rest)
    (hj : s.workers j = .running held' rest') (hne : j ≠ i) {k : κ} (hk : (k, true) ∈ plan i) :
    ¬Locked plan j k := by
  rintro ⟨b, hb⟩
  refine hne (h.exclusive i j k b ?_ ?_).symm
  · rw [hi, Worker.holds, (h.running i held rest hi).1]
    exact hk
  · rw [hj, Worker.holds, (h.running j held' rest' hj).1]
    exact hb

theorem put (h : Ordered M plan body m s) {w : Worker κ β ρ} {mem : μ}
    (hmem : ∀ k, M.get mem k = M.get s.mem k ∨
      (∃ held rest, s.workers i = .running held rest) ∧ (k, true) ∈ plan i)
    (hholds : ∀ q ∈ w.holds, q ∈ (s.workers i).holds ∨ s.Grants q)
    (hacquiring : ∀ held todo, w = .acquiring held todo → held ++ todo = plan i)
    (hrunning : ∀ held rest, w = .running held rest →
      held = plan i ∧ Resumes M plan body (serial M body m s.finished) mem i rest)
    (hstill : ∀ held rest, s.workers i = .running held rest → ∃ held' rest', w = .running held' rest')
    (hreleasing : ∀ r, (∃ held, w = .releasing held r) ↔ ∃ held, s.workers i = .releasing held r) :
    Ordered M plan body m { s.put i w with mem := mem } where
  exclusive := Exclusive.put h.exclusive hholds
  acquiring := by
    intro j held todo hj
    rw [s.workers_put i w j] at hj
    split_ifs at hj with hji
    · exact hji ▸ hacquiring held todo hj
    · exact h.acquiring j held todo hj
  running := by
    intro j held rest hj
    rw [s.workers_put i w j] at hj
    split_ifs at hj with hji
    · exact hji ▸ hrunning held rest hj
    · obtain ⟨hplan, hcovered, hrun⟩ := h.running j held rest hj
      refine ⟨hplan, hcovered, fun m' hm' => ?_⟩
      obtain ⟨m'', hbody, hcur, hrest⟩ := hrun m' hm'
      refine ⟨m'', hbody, fun k hk => ?_, hrest⟩
      rcases hmem k with heq | ⟨⟨held', rest', hi⟩, hkey⟩
      · rw [hcur k hk, heq]
      · exact absurd hk (h.disjoint hi hj hji hkey)
  quiet := by
    intro k hk
    have hquiet : ∀ j held rest, s.workers j = .running held rest → (k, true) ∉ plan j := by
      intro j held rest hj
      rcases eq_or_ne j i with rfl | hne
      · obtain ⟨held', rest', hw⟩ := hstill held rest hj
        exact hk j held' rest' ((s.workers_put j w j).trans ((if_pos rfl).trans hw))
      · exact hk j held rest ((s.workers_put i w j).trans ((if_neg hne).trans hj))
    rcases hmem k with heq | ⟨⟨held, rest, hi⟩, hkey⟩
    · exact heq.trans (h.quiet k hquiet)
    · exact absurd hkey (hquiet i held rest hi)
  finished := by
    intro j
    rw [s.workers_put i w j]
    split_ifs with hji
    · rw [hji, exists_comm]
      simp only [hreleasing]
      rw [exists_comm]
      exact h.finished i
    · exact h.finished j
  nodup := h.nodup
  results := by
    intro j held r hj
    rw [s.workers_put i w j] at hj
    split_ifs at hj with hji
    · obtain ⟨held', hi⟩ := (hreleasing r).mp ⟨held, hj⟩
      exact hji ▸ h.results i held' r hi
    · exact h.results j held r hj

theorem acquire (h : Ordered M plan body m s) {r : κ × Bool}
    (hi : s.workers i = .acquiring held (r :: todo)) (hgrant : s.Grants r) :
    Ordered M plan body m (s.put i (.acquiring (held ++ [r]) todo)) := by
  refine h.put (fun _ => .inl rfl) (fun q hq => ?_) (fun held' todo' hw => ?_)
    (fun _ _ hw => by cases hw) (fun _ _ hr => by cases hi.symm.trans hr) fun r' => ?_
  · rcases List.mem_append.mp hq with hq | hq
    · exact .inl (hi ▸ hq)
    · exact .inr (List.mem_singleton.mp hq ▸ hgrant)
  · cases hw
    rw [← h.acquiring i held (r :: todo) hi, List.append_assoc]
    rfl
  · rw [hi]
    simp

theorem start (hbody : (body i).Covered fun k b => (k, b) ∈ plan i)
    (h : Ordered M plan body m s) (hi : s.workers i = .acquiring held []) :
    Ordered M plan body m (s.put i (.running held (body i))) := by
  have hplan : held = plan i := by
    rw [← h.acquiring i held [] hi, List.append_nil]
  refine h.put (fun _ => .inl rfl) (fun q hq => .inl (hi ▸ hq)) (fun _ _ hw => by cases hw)
    (fun held' rest hw => ?_) (fun _ _ hr => by cases hi.symm.trans hr) fun r => ?_
  · cases hw
    refine ⟨hplan, hbody, fun m' hm' => ⟨m', rfl, fun k hk => ?_, fun _ _ => rfl⟩⟩
    rw [hm' k hk]
    refine (h.quiet k fun j held' rest hj hwrites => ?_).symm
    -- a running writer of `k` would exclude the lock that `i` already holds
    obtain ⟨b, hb⟩ := hk
    have hji : j = i := by
      refine h.exclusive j i k b ?_ ?_
      · rw [hj, Worker.holds, (h.running j held' rest hj).1]
        exact hwrites
      · rw [hi, Worker.holds, hplan]
        exact hb
    rw [hji, hi] at hj
    cases hj
  · rw [hi]
    simp

theorem load (h : Ordered M plan body m s) {k : κ} {next : Option β → Code κ β ρ}
    (hi : s.workers i = .running held (.load k next)) :
    Ordered M plan body m (s.put i (.running held (next (M.get s.mem k)))) := by
  obtain ⟨hplan, ⟨hkey, hnext⟩, hrun⟩ := h.running i held _ hi
  refine h.put (fun _ => .inl rfl) (fun q hq => .inl (hi ▸ hq)) (fun _ _ hw => by cases hw)
    (fun held' rest hw => ?_) (fun _ _ _ => ⟨_, _, rfl⟩) fun r => ?_
  · cases hw
    refine ⟨hplan, hnext _, fun m' hm' => ?_⟩
    obtain ⟨m'', hbody, hcur, hrest⟩ := hrun m' hm'
    refine ⟨m'', ?_, hcur, hrest⟩
    rw [hbody, Code.run, hcur k hkey]
  · rw [hi]
    simp

theorem write (h : Ordered M plan body m s) {k : κ} {v : Option β} {next : Code κ β ρ}
    (hi : s.workers i = .running held (.write k v next)) :
    Ordered M plan body m { s.put i (.running held next) with mem := M.set s.mem k v } := by
  obtain ⟨hplan, ⟨hkey, hnext⟩, hrun⟩ := h.running i held _ hi
  refine h.put (fun k' => ?_) (fun q hq => .inl (hi ▸ hq)) (fun _ _ hw => by cases hw)
    (fun held' rest hw => ?_) (fun _ _ _ => ⟨_, _, rfl⟩) fun r => ?_
  · rw [M.get_set]
    split_ifs with hk
    · exact .inr ⟨⟨held, _, hi⟩, hk ▸ hkey⟩
    · exact .inl rfl
  · cases hw
    refine ⟨hplan, hnext, fun m' hm' => ?_⟩
    obtain ⟨m'', hbody, hcur, hrest⟩ := hrun m' hm'
    refine ⟨M.set m'' k v, hbody, fun j hj => ?_, fun j hj => ?_⟩
    · rw [M.get_set, M.get_set, hcur j hj]
    · rw [M.get_set, if_neg (fun he : j = k => hj (he ▸ hkey)), hrest j hj]
  · rw [hi]
    simp

theorem release (h : Ordered M plan body m s) {q : κ × Bool} {r : ρ}
    (hi : s.workers i = .releasing (q :: held) r) :
    Ordered M plan body m (s.put i (.releasing held r)) := by
  refine h.put (fun _ => .inl rfl) (fun q' hq => .inl ?_) (fun _ _ hw => by cases hw)
    (fun _ _ hw => by cases hw) (fun _ _ hr => by cases hi.symm.trans hr) fun r' => ?_
  · rw [hi]
    exact List.mem_cons_of_mem q hq
  · rw [hi]
    simp

omit [DecidableEq ι] in
theorem serial_finish (h : Ordered M plan body m s) {r : ρ}
    (hi : s.workers i = .running held (.done r)) :
    ((body i).run M (serial M body m s.finished)).1 = r ∧
      (∀ k, Locked plan i k →
        M.get (serial M body m (s.finished ++ [i])) k = M.get s.mem k) ∧
      ∀ k, (k, true) ∉ plan i →
        M.get (serial M body m (s.finished ++ [i])) k = M.get (serial M body m s.finished) k := by
  obtain ⟨-, -, hrun⟩ := h.running i held _ hi
  obtain ⟨m', hbody, hcur, hrest⟩ := hrun _ fun _ _ => rfl
  rw [serial_snoc, hbody]
  exact ⟨rfl, hcur, hrest⟩

omit [DecidableEq ι] in
theorem quiet_finish (h : Ordered M plan body m s) {r : ρ}
    (hi : s.workers i = .running held (.done r)) {k : κ}
    (hk : ∀ j held rest, j ≠ i → s.workers j = .running held rest → (k, true) ∉ plan j) :
    M.get s.mem k = M.get (serial M body m (s.finished ++ [i])) k := by
  obtain ⟨-, hlocked, hrest⟩ := h.serial_finish hi
  by_cases hkey : Locked plan i k
  · exact (hlocked k hkey).symm
  · have hwrites : (k, true) ∉ plan i := fun hw => hkey ⟨true, hw⟩
    refine (h.quiet k fun j held' rest hj => ?_).trans (hrest k hwrites).symm
    rcases eq_or_ne j i with rfl | hne
    · exact hwrites
    · exact hk j held' rest hne hj

theorem finish (h : Ordered M plan body m s) {r : ρ}
    (hi : s.workers i = .running held (.done r)) :
    Ordered M plan body m
      { s.put i (.releasing held r) with finished := s.finished ++ [i] } := by
  obtain ⟨hresult, -, hrest⟩ := h.serial_finish hi
  have hnew : i ∉ s.finished := by
    rw [h.finished, hi]
    simp
  refine ⟨Exclusive.put h.exclusive fun q hq => .inl (hi ▸ hq), ?_, ?_, ?_, ?_, ?_, ?_⟩
  · intro j held' todo hj
    rw [s.workers_put i _ j] at hj
    split_ifs at hj with hji
    exact h.acquiring j held' todo hj
  · intro j held' rest hj
    rw [s.workers_put i _ j] at hj
    split_ifs at hj with hji
    obtain ⟨hplan, hcovered, hrun⟩ := h.running j held' rest hj
    refine ⟨hplan, hcovered, fun m' hm' => hrun m' fun k hk => ?_⟩
    rw [hm' k hk]
    exact hrest k fun hkey => h.disjoint hi hj hji hkey hk
  · intro k hk
    exact h.quiet_finish hi fun j held' rest hne hj =>
      hk j held' rest ((s.workers_put i _ j).trans ((if_neg hne).trans hj))
  · intro j
    rw [s.workers_put i _ j, List.mem_append, List.mem_singleton]
    split_ifs with hji
    · simp [hji]
    · rw [or_iff_left hji, h.finished]
  · rw [List.nodup_append]
    refine ⟨h.nodup, List.nodup_singleton i, fun a ha b hb => ?_⟩
    rw [List.mem_singleton.mp hb]
    rintro rfl
    exact hnew ha
  · intro j held' r' hj
    rw [s.workers_put i _ j] at hj
    split_ifs at hj with hji
    · cases hj
      exact ⟨s.finished, [], by rw [hji], by rw [hji, hresult]⟩
    · obtain ⟨before, after, hsplit, hr⟩ := h.results j held' r' hj
      refine ⟨before, after ++ [i], ?_, hr⟩
      rw [hsplit, List.append_assoc]
      rfl

theorem step (hbody : ∀ i, (body i).Covered fun k b => (k, b) ∈ plan i)
    (h : Ordered M plan body m s) {t : State μ κ β ρ ι} (hstep : Step M body s t) :
    Ordered M plan body m t := by
  cases hstep with
  | control hcontrol =>
    cases hcontrol with
    | acquire hi hgrant => exact h.acquire hi hgrant
    | start hi => exact h.start (hbody _) hi
    | finish hi => exact h.finish hi
    | release hi => exact h.release hi
  | load hi => exact h.load hi
  | write hi => exact h.write hi

omit [DecidableEq ι] in
theorem initial (m : μ) : Ordered M plan body m (initial plan m) where
  exclusive := fun i j k b hi => by cases hi
  acquiring := fun i held todo hi => by
    cases hi
    rfl
  running := fun i held rest hi => by cases hi
  quiet := fun k _ => rfl
  finished := fun i => by simp [TwoPhase.initial]
  nodup := .nil
  results := fun i held r hi => by cases hi

end Ordered

theorem Reachable.ordered (hbody : ∀ i, (body i).Covered fun k b => (k, b) ∈ plan i)
    (h : Reachable M plan body m s) : Ordered M plan body m s := by
  induction h with
  | refl => exact .initial m
  | tail _ hstep ih => exact ih.step hbody hstep

theorem Reachable.serializable (hbody : ∀ i, (body i).Covered fun k b => (k, b) ∈ plan i)
    (h : Reachable M plan body m s) (hdone : ∀ i, ∃ held r, s.workers i = .releasing held r) :
    s.finished.Nodup ∧ (∀ i, i ∈ s.finished) ∧ s.mem = serial M body m s.finished ∧
      ∀ i held r, s.workers i = .releasing held r → ∃ before after,
        s.finished = before ++ i :: after ∧ r = ((body i).run M (serial M body m before)).1 := by
  have hordered := h.ordered hbody
  refine ⟨hordered.nodup, fun i => (hordered.finished i).mpr (hdone i), ?_, hordered.results⟩
  refine M.ext _ _ fun k => hordered.quiet k fun i held rest hi => ?_
  obtain ⟨held', r, hr⟩ := hdone i
  cases hi.symm.trans hr

section Alone

open Relation

variable {t : State μ κ β ρ ι} {i : ι}

omit [DecidableEq κ] in
theorem put_put (s : State μ κ β ρ ι) (i : ι) (w w' : Worker κ β ρ) :
    (s.put i w).put i w' = s.put i w' := by
  rw [State.put, State.put, State.put, Function.update_idem]

omit [DecidableEq κ] in
theorem Control.mem_eq (h : Control body s i t) : t.mem = s.mem := by
  cases h <;> rfl

omit [DecidableEq κ] in
theorem lift_controls {R : State μ κ β ρ ι → State μ κ β ρ ι → Prop} {Q : μ → Prop}
    (hcontrol : ∀ s t, Q s.mem → Control body s i t → R s t) (hQ : Q s.mem)
    (h : ReflTransGen (Control body · i) s t) : ReflTransGen R s t ∧ Q t.mem := by
  induction h with
  | refl => exact ⟨.refl, hQ⟩
  | tail _ hstep ih => exact ⟨ih.1.tail (hcontrol _ _ ih.2 hstep), hstep.mem_eq ▸ ih.2⟩

omit [DecidableEq κ] in
theorem acquire_all (hfree : ∀ j, j ≠ i → (s.workers j).holds = [])
    {held todo : List (κ × Bool)} (hdistinct : (held ++ todo).Pairwise fun a b => a.1 ≠ b.1)
    (hi : s.workers i = .acquiring held todo) :
    ReflTransGen (Control body · i) s (s.put i (.acquiring (held ++ todo) [])) := by
  induction todo generalizing s held with
  | nil =>
    have hsame : s.put i (.acquiring (held ++ []) []) = s := by
      rw [List.append_nil, State.put, ← hi, Function.update_eq_self]
    rw [hsame]
  | cons r todo ih =>
    have hgrant : s.Grants r := by
      have hnew : ∀ b, (r.1, b) ∉ held := by
        intro b hb
        exact (List.pairwise_append.mp hdistinct).2.2 _ hb r List.mem_cons_self rfl
      have hnone : ∀ j b, (r.1, b) ∉ (s.workers j).holds := by
        intro j b
        rcases eq_or_ne j i with rfl | hne
        · rw [hi]
          exact hnew b
        · rw [hfree j hne]
          exact List.not_mem_nil
      obtain ⟨k, b⟩ := r
      cases b with
      | true => exact hnone
      | false => exact fun j => hnone j true
    have hnext : (s.put i (.acquiring (held ++ [r]) todo)).workers i =
        .acquiring (held ++ [r]) todo := by
      rw [State.workers_put, if_pos rfl]
    have hrest := ih (fun j hne => by rw [State.workers_put, if_neg hne, hfree j hne])
      (by rwa [List.append_assoc]) hnext
    rw [put_put, List.append_assoc] at hrest
    exact .head (.acquire hi hgrant) hrest

omit [DecidableEq κ] in
theorem release_all {held : List (κ × Bool)} {r : ρ} (hi : s.workers i = .releasing held r) :
    ReflTransGen (Control body · i) s (s.put i (.releasing [] r)) := by
  induction held generalizing s with
  | nil =>
    have hsame : s.put i (.releasing [] r) = s := by
      rw [State.put, ← hi, Function.update_eq_self]
    rw [hsame]
  | cons q held ih =>
    have hrest := ih (s := s.put i (.releasing held r)) (by rw [State.workers_put, if_pos rfl])
    rw [put_put] at hrest
    exact .head (.release hi) hrest

def Serially (plan : ι → List (κ × Bool)) (order : List ι) (s : State μ κ β ρ ι) : Prop :=
  s.finished = order ∧ (∀ i ∉ order, s.workers i = .acquiring [] (plan i)) ∧
    ∀ i ∈ order, ∃ r, s.workers i = .releasing [] r

omit [DecidableEq κ] [DecidableEq ι] in
theorem Serially.holds_eq_nil {order : List ι} (h : Serially plan order s) (j : ι) :
    (s.workers j).holds = [] := by
  obtain ⟨-, hwaiting, hdone⟩ := h
  by_cases hj : j ∈ order
  · obtain ⟨r, hr⟩ := hdone j hj
    rw [hr, Worker.holds]
  · rw [hwaiting j hj, Worker.holds]

omit [DecidableEq κ] in
theorem Serially.extend {order : List ι} (h : Serially plan order s) (hi : i ∉ order)
    (hdistinct : (plan i).Pairwise fun a b => a.1 ≠ b.1)
    {R : State μ κ β ρ ι → State μ κ β ρ ι → Prop} {Q P : μ → Prop} (hQ : Q s.mem)
    (hbefore : ∀ s t, Q s.mem → Control body s i t → R s t)
    (hafter : ∀ s t, P s.mem → Control body s i t → R s t)
    (hcode : ∀ s held, Q s.mem → s.workers i = .running held (body i) →
      ∃ t r, ReflTransGen R s t ∧ t.workers = (s.put i (.running held (.done r))).workers ∧
        t.finished = s.finished ∧ P t.mem) :
    ∃ t, ReflTransGen R s t ∧ P t.mem ∧ Serially plan (order ++ [i]) t := by
  have hfree : ∀ j, j ≠ i → (s.workers j).holds = [] := fun j _ => h.holds_eq_nil j
  obtain ⟨hfinished, hwaiting, hdone⟩ := h
  have hacquire :
      ReflTransGen (Control body · i) s (s.put i (.acquiring ([] ++ plan i) [])) :=
    acquire_all hfree hdistinct (hwaiting i hi)
  have hstart : Control body (s.put i (.acquiring ([] ++ plan i) [])) i
      (s.put i (.running ([] ++ plan i) (body i))) := by
    have hstep : Control body _ i _ := .start
      ((s.workers_put i (.acquiring ([] ++ plan i) []) i).trans (if_pos rfl))
    rwa [put_put] at hstep
  obtain ⟨hlocked, hQs⟩ := lift_controls hbefore hQ (hacquire.tail hstart)
  obtain ⟨u, r, hrun, hworkers, hsame, hPu⟩ := hcode _ ([] ++ plan i) hQs
    ((s.workers_put i (.running ([] ++ plan i) (body i)) i).trans (if_pos rfl))
  rw [put_put] at hworkers
  have hui : u.workers i = .running ([] ++ plan i) (.done r) := by
    rw [hworkers, s.workers_put, if_pos rfl]
  have hrelease : ReflTransGen (Control body · i) u _ :=
    .head (.finish hui) (release_all ((u.workers_put i _ i).trans (if_pos rfl)))
  obtain ⟨hreleased, hPt⟩ := lift_controls hafter hPu hrelease
  have hothers : ∀ j ≠ i, Function.update (Function.update u.workers i
      (.releasing ([] ++ plan i) r)) i (.releasing [] r) j = s.workers j := by
    intro j hne
    rw [Function.update_of_ne hne, Function.update_of_ne hne, hworkers, s.workers_put, if_neg hne]
  refine ⟨_, hlocked.trans (hrun.trans hreleased), hPt, ?_, fun j hj => ?_, fun j hj => ?_⟩
  · exact congrArg (· ++ [i]) (hsame.trans hfinished)
  · rw [List.mem_append, List.mem_singleton, not_or] at hj
    exact (hothers j hj.2).trans (hwaiting j hj.1)
  · rcases eq_or_ne j i with rfl | hne
    · exact ⟨r, Function.update_self j _ _⟩
    · rw [List.mem_append, List.mem_singleton, or_iff_left hne] at hj
      obtain ⟨r', hr'⟩ := hdone j hj
      exact ⟨r', (hothers j hne).trans hr'⟩

variable (M) (body)

theorem run_alone {held : List (κ × Bool)} {rest : Code κ β ρ}
    (hi : s.workers i = .running held rest) :
    ReflTransGen (Step M body) s
      { s.put i (.running held (.done (rest.run M s.mem).1)) with mem := (rest.run M s.mem).2 } := by
  induction rest generalizing s with
  | done r =>
    have hsame : s.put i (.running held (.done r)) = s := by
      rw [State.put, ← hi, Function.update_eq_self]
    exact hsame.symm ▸ .refl
  | load k next ih =>
    have hrest := ih (M.get s.mem k) (s := s.put i (.running held (next (M.get s.mem k))))
      (by rw [State.workers_put, if_pos rfl])
    rw [put_put] at hrest
    exact .head (.load hi) hrest
  | write k v next ih =>
    have hrest := ih (s := { s.put i (.running held next) with mem := M.set s.mem k v })
      ((s.workers_put i _ i).trans (if_pos rfl))
    simp only [State.put, Function.update_idem] at hrest
    exact .head (.write hi) hrest

theorem serial_reachable (hdistinct : ∀ i, (plan i).Pairwise fun a b => a.1 ≠ b.1) (m : μ)
    {order : List ι} (hnodup : order.Nodup) :
    ∃ s, Reachable M plan body m s ∧ s.mem = serial M body m order ∧ Serially plan order s := by
  induction order using List.reverseRecOn with
  | nil =>
    exact ⟨TwoPhase.initial plan m, .refl, rfl, rfl, fun _ _ => rfl, fun i hi => by cases hi⟩
  | append_singleton order i ih =>
    obtain ⟨hnodup, -, hnew⟩ := List.nodup_append.mp hnodup
    obtain ⟨s, hreach, hmem, hserial⟩ := ih hnodup
    have hi : i ∉ order := fun hi => hnew i hi i (List.mem_singleton_self i) rfl
    obtain ⟨t, hsteps, hrun, hnext⟩ := hserial.extend (R := Step M body) (Q := (· = s.mem))
      (P := (· = ((body i).run M s.mem).2)) hi (hdistinct i) rfl (fun _ _ _ h => .control h)
      (fun _ _ _ h => .control h) fun u held hu hui =>
        ⟨_, _, run_alone M body hui, rfl, rfl, congrArg (fun m => ((body i).run M m).2) hu⟩
    refine ⟨t, hreach.trans hsteps, ?_, hnext⟩
    rw [hrun, hmem, serial_snoc]

end Alone

end TwoPhase
