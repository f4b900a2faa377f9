import TrustNode.Accounts.Linearizable
import TrustNode.TxProcessor.Serializable

namespace TrustNode.TxProcessor.Storage

open Linearize
open TrustNode.Accounts
open TrustNode.Accounts.AppendOnlyDB
open TrustNode.ProgramExecutor (accountsMemory)
open TwoPhase (Worker)

variable {ρ ι o : Type}

def PresenceOnly (next : Option Account → Code Pubkey Account ρ) : Prop :=
  ∀ v w : Option Account, v.isSome = w.isSome → next v = next w

inductive Issues : Code Pubkey Account ρ → Call → Prop
  | load (k : Pubkey) (next : Option Account → Code Pubkey Account ρ) :
      Issues (.load k next) (.load k)
  | probe (k : Pubkey) {next : Option Account → Code Pubkey Account ρ} (h : PresenceOnly next) :
      Issues (.load k next) (.exists k)
  | store (k : Pubkey) (a : Account) (next : Code Pubkey Account ρ) :
      Issues (.write k (some a) next) (.update (.store k a))
  | remove (k : Pubkey) (next : Code Pubkey Account ρ) :
      Issues (.write k none next) (.update (.remove k))

inductive Continues : Code Pubkey Account ρ → Reply → Code Pubkey Account ρ → Prop
  | loaded (k : Pubkey) (next : Option Account → Code Pubkey Account ρ) (v : Option Account) :
      Continues (.load k next) (.loaded v) (next v)
  | found (k : Pubkey) (next : Option Account → Code Pubkey Account ρ) (v : Option Account) :
      Continues (.load k next) (.found v.isSome) (next v)
  | stored (k : Pubkey) (a : Account) (next : Code Pubkey Account ρ) :
      Continues (.write k (some a) next) .stored next
  | removed (k : Pubkey) (next : Code Pubkey Account ρ) (present : Bool) :
      Continues (.write k none next) (.removed present) next

abbrev Calls (ι o : Type) := Linearize.State AppendOnlyDB Phase Call Reply (ι ⊕ o)

abbrev Fine (ρ ι o : Type) := TwoPhase.State (Calls ι o) Pubkey Account ρ ι

section Steps

variable [DecidableEq ι] [DecidableEq o]

inductive Step (S : Serde Account) (body : ι → Code Pubkey Account ρ) :
    Fine ρ ι o → Fine ρ ι o → Prop
  | control {s t : Fine ρ ι o} {i : ι} (hidle : s.mem.threads (.inl i) = none)
      (hcontrol : TwoPhase.Control body s i t) : Step S body s t
  | issue {s : Fine ρ ι o} {i : ι} {held : List (Pubkey × Bool)} {code : Code Pubkey Account ρ}
      {x : Call} (hi : s.workers i = .running held code) (hidle : s.mem.threads (.inl i) = none)
      (hx : Issues code x) (hencodable : x.Encodable S) :
      Step S body s { s with mem := s.mem.enter (storeMachine S) (.inl i) x }
  | observe {s : Fine ρ ι o} {j : o} {x : Call} (hidle : s.mem.threads (.inr j) = none)
      (hx : x.updates = none) :
      Step S body s { s with mem := s.mem.enter (storeMachine S) (.inr j) x }
  | advance {s : Fine ρ ι o} {t : ι ⊕ o} {p : Phase} (ht : s.mem.threads t = some p)
      (hp : allowed s.mem.threads p)
      (hgoes : ∀ i r, t = .inl i → (p.advance S s.mem.store).2 ≠ .inr r) :
      Step S body s { s with mem := s.mem.advance (storeMachine S) t p }
  | resume {s : Fine ρ ι o} {i : ι} {p : Phase} {r : Reply} {held : List (Pubkey × Bool)}
      {code rest : Code Pubkey Account ρ} (hi : s.workers i = .running held code)
      (ht : s.mem.threads (.inl i) = some p) (hp : allowed s.mem.threads p)
      (hr : (p.advance S s.mem.store).2 = .inr r) (hrest : Continues code r rest) :
      Step S body s
        { s.put i (.running held rest) with mem := s.mem.advance (storeMachine S) (.inl i) p }

def initial (plan : ι → List (Pubkey × Bool)) (db : AppendOnlyDB) : Fine ρ ι o :=
  TwoPhase.initial plan (.initial db)

def Reachable (S : Serde Account) (plan : ι → List (Pubkey × Bool))
    (body : ι → Code Pubkey Account ρ) (db : AppendOnlyDB) : Fine ρ ι o → Prop :=
  Relation.ReflTransGen (Step S body) (initial plan db)

end Steps

section Abstraction

def past : Worker Pubkey Account ρ → Worker Pubkey Account ρ
  | .running held (.write _ _ next) => .running held next
  | w => w

def settle (thread : Option Phase) (w : Worker Pubkey Account ρ) : Worker Pubkey Account ρ :=
  if (thread.bind Phase.decided).isSome then past w else w

def coarse (m : AccountsDB) (s : Fine ρ ι o) : TwoPhase.State AccountsDB Pubkey Account ρ ι where
  mem := current accountsObject m s.mem.history
  workers := fun i => settle (s.mem.threads (.inl i)) (s.workers i)
  finished := s.finished

theorem holds_settle (thread : Option Phase) (w : Worker Pubkey Account ρ) :
    (settle thread w).holds = w.holds := by
  rw [settle]
  split_ifs
  · rcases w with ⟨held, todo⟩ | ⟨held, rest⟩ | ⟨held, r⟩
    · rfl
    · cases rest <;> rfl
    · rfl
  · rfl

theorem settle_undecided {p : Phase} (h : p.decided = none) (w : Worker Pubkey Account ρ) :
    settle (some p) w = w := by
  rw [settle, Option.bind_some, h]
  rfl

theorem settle_decided {p : Phase} {r : Reply} (h : p.decided = some r)
    (w : Worker Pubkey Account ρ) : settle (some p) w = past w := by
  rw [settle, Option.bind_some, h]
  rfl

theorem Issues.write {code : Code Pubkey Account ρ} {u : Update} (h : Issues code (.update u)) :
    ∃ k v next, code = .write k v next ∧ (Call.update u).updates = some k ∧
      ∀ m : AccountsDB, u.apply m = accountsMemory.set m k v := by
  cases h with
  | store k a next => exact ⟨k, some a, next, rfl, rfl, fun _ => rfl⟩
  | remove k next => exact ⟨k, none, next, rfl, rfl, fun _ => rfl⟩

theorem Continues.write {k : Pubkey} {v : Option Account} {next rest : Code Pubkey Account ρ}
    {r : Reply} (h : Continues (.write k v next) r rest) : rest = next := by
  cases h <;> rfl

theorem exists_update {p : Phase} {r : Reply} (h : p.decided = some r) :
    ∃ u, p.call = .update u := by
  cases p <;> first | exact ⟨_, rfl⟩ | cases h

theorem workers_coarse (m : AccountsDB) (s : Fine ρ ι o) (i : ι) :
    (coarse m s).workers i = settle (s.mem.threads (.inl i)) (s.workers i) := rfl

theorem workers_idle {s : Fine ρ ι o} {i : ι} (hidle : s.mem.threads (.inl i) = none)
    (m : AccountsDB) : (coarse m s).workers i = s.workers i := by
  rw [workers_coarse, hidle]
  rfl

theorem coarse_eq_put [DecidableEq ι] {s t : Fine ρ ι o} {i : ι} {w : Worker Pubkey Account ρ}
    (m : AccountsDB) (hi : settle (t.mem.threads (.inl i)) (t.workers i) = w)
    (hothers : ∀ j ≠ i, (coarse m t).workers j = (coarse m s).workers j) :
    coarse m t = { (coarse m s).put i w with
      mem := current accountsObject m t.mem.history
      finished := t.finished } := by
  rw [coarse, TwoPhase.State.mk.injEq]
  refine ⟨rfl, ?_, rfl⟩
  funext j
  refine Eq.trans ?_ ((coarse m s).workers_put i w j).symm
  split_ifs with hj
  · rw [hj, hi]
  · exact hothers j hj

theorem coarse_congr {s t : Fine ρ ι o} {m : AccountsDB}
    (hmem : current accountsObject m t.mem.history = current accountsObject m s.mem.history)
    (hworkers : ∀ i, (coarse m t).workers i = (coarse m s).workers i)
    (hfinished : t.finished = s.finished) : coarse m t = coarse m s := by
  rw [coarse, coarse, TwoPhase.State.mk.injEq]
  exact ⟨hmem, funext hworkers, hfinished⟩

theorem coarse_control [DecidableEq ι] {body : ι → Code Pubkey Account ρ} {s t : Fine ρ ι o} {i : ι}
    (h : TwoPhase.Control body s i t) (hidle : s.mem.threads (.inl i) = none) (m : AccountsDB) :
    t.mem = s.mem ∧ (∀ j ≠ i, t.workers j = s.workers j) ∧
      TwoPhase.Step accountsMemory body (coarse m s) (coarse m t) := by
  have hworker := workers_idle hidle m
  have hsame : ∀ w, ∀ j ≠ i, (s.put i w).workers j = s.workers j := fun w j hj =>
    (s.workers_put i w j).trans (if_neg hj)
  have hput : ∀ w, coarse m (s.put i w) = (coarse m s).put i w := by
    intro w
    refine coarse_eq_put m ?_ fun j hj => ?_
    · rw [s.workers_put, if_pos rfl]
      exact congrArg (settle · w) hidle
    · rw [workers_coarse, hsame w j hj]
      rfl
  cases h with
  | @acquire held todo r hi hgrant =>
    refine ⟨rfl, hsame _, ?_⟩
    rw [hput]
    refine .control (.acquire (hworker.trans hi) ?_)
    obtain ⟨k, b⟩ := r
    cases b with
    | true => exact fun j b => by rw [workers_coarse, holds_settle]; exact hgrant j b
    | false => exact fun j => by rw [workers_coarse, holds_settle]; exact hgrant j
  | start hi =>
    refine ⟨rfl, hsame _, ?_⟩
    rw [hput]
    exact .control (.start (hworker.trans hi))
  | finish hi =>
    refine ⟨rfl, hsame _, ?_⟩
    have hstep : TwoPhase.Step accountsMemory body _ _ := .control (.finish (hworker.trans hi))
    rwa [← hput] at hstep
  | release hi =>
    refine ⟨rfl, hsame _, ?_⟩
    rw [hput]
    exact .control (.release (hworker.trans hi))

end Abstraction

section Tracking

variable [DecidableEq ι] [DecidableEq o] {S : Serde Account} {plan : ι → List (Pubkey × Bool)}
  {body : ι → Code Pubkey Account ρ} {db : AppendOnlyDB} {m : AccountsDB} {s : Fine ρ ι o}

structure Tracks (S : Serde Account) (plan : ι → List (Pubkey × Bool))
    (body : ι → Code Pubkey Account ρ) (db : AppendOnlyDB) (m : AccountsDB) (s : Fine ρ ι o) :
    Prop where
  calls : Linearize.Reachable (storeMachine S) (lockedCall S) allowed db s.mem
  workers : TwoPhase.Reachable accountsMemory plan body m (coarse m s)
  issued : ∀ i p, s.mem.threads (.inl i) = some p → ∃ held code, s.workers i = .running held code ∧
    Issues code p.call ∧ ∀ k, p.call.updates = some k → (k, true) ∈ held
  observing : ∀ j p, s.mem.threads (.inr j) = some p → p.call.updates = none

theorem coarse_enter {t : ι ⊕ o} (hidle : s.mem.threads t = none) (x : Call) (m : AccountsDB) :
    coarse m { s with mem := s.mem.enter (storeMachine S) t x } = coarse m s := by
  refine coarse_congr rfl (fun i => ?_) rfl
  rw [workers_coarse, workers_coarse]
  dsimp only [State.enter]
  rw [Function.update_apply]
  split_ifs with hi
  · rw [hi, hidle]
    exact settle_undecided ((storeMachine S).decided_enter x) _
  · rfl

theorem Tracks.initial (plan : ι → List (Pubkey × Bool)) (body : ι → Code Pubkey Account ρ)
    (db : AppendOnlyDB) (m : AccountsDB) :
    Tracks S plan body db m (initial plan db : Fine ρ ι o) where
  calls := .refl
  workers := .refl
  issued := fun _ _ hi => by cases hi
  observing := fun _ _ hj => by cases hj

theorem Tracks.control (h : Tracks S plan body db m s) {t : Fine ρ ι o} {i : ι}
    (hidle : s.mem.threads (.inl i) = none) (hcontrol : TwoPhase.Control body s i t) :
    Tracks S plan body db m t := by
  obtain ⟨hmem, hsame, hstep⟩ := coarse_control hcontrol hidle m
  refine ⟨hmem ▸ h.calls, h.workers.tail hstep, fun j p hj => ?_, fun j p hj => ?_⟩
  · rw [hmem] at hj
    have hne : j ≠ i := by
      rintro rfl
      rw [hidle] at hj
      cases hj
    rw [hsame j hne]
    exact h.issued j p hj
  · rw [hmem] at hj
    exact h.observing j p hj

theorem Tracks.enter (h : Tracks S plan body db m s) {t : ι ⊕ o} (hidle : s.mem.threads t = none)
    {x : Call} (hx : lockedCall S s.mem.threads x)
    (hissued : ∀ i, t = .inl i → ∃ held code, s.workers i = .running held code ∧ Issues code x ∧
      ∀ k, x.updates = some k → (k, true) ∈ held)
    (hobserving : ∀ j, t = .inr j → x.updates = none) :
    Tracks S plan body db m { s with mem := s.mem.enter (storeMachine S) t x } := by
  refine ⟨h.calls.tail (.enter hidle hx), ?_, fun i p hi => ?_, fun j p hj => ?_⟩
  · rw [coarse_enter hidle]
    exact h.workers
  · rcases update_cases hi with ⟨ht, hp⟩ | ⟨-, hp⟩
    · obtain rfl : Phase.enter x = p := Option.some.inj hp
      rw [Phase.call_enter]
      exact hissued i ht.symm
    · exact h.issued i p hp
  · rcases update_cases hj with ⟨ht, hp⟩ | ⟨-, hp⟩
    · obtain rfl : Phase.enter x = p := Option.some.inj hp
      rw [Phase.call_enter]
      exact hobserving j ht.symm
    · exact h.observing j p hp

theorem Tracks.issue (h : Tracks S plan body db m s)
    (hbody : ∀ i, (body i).Covered fun k b => (k, b) ∈ plan i) {i : ι}
    {held : List (Pubkey × Bool)} {code : Code Pubkey Account ρ} {x : Call}
    (hi : s.workers i = .running held code) (hidle : s.mem.threads (.inl i) = none)
    (hx : Issues code x) (hencodable : x.Encodable S) :
    Tracks S plan body db m { s with mem := s.mem.enter (storeMachine S) (.inl i) x } := by
  have hordered := h.workers.ordered hbody
  have hworker : (coarse m s).workers i = .running held code := (workers_idle hidle m).trans hi
  obtain ⟨hplan, hcovered, -⟩ := hordered.running i held code hworker
  have hheld : ∀ k, x.updates = some k → (k, true) ∈ held := by
    intro k hk
    rw [hplan]
    cases hx with
    | load => cases hk
    | probe => cases hk
    | store => exact Option.some.inj hk ▸ hcovered.1
    | remove => exact Option.some.inj hk ▸ hcovered.1
  refine h.enter hidle ⟨?_, hencodable⟩ ?_ (fun j hj => by cases hj)
  · -- two updates of one account would need its write lock twice
    rintro (j | j) q k hq hk hqk
    · obtain ⟨held', code', hj, -, hheld'⟩ := h.issued j q hq
      have hji : i = j := by
        refine hordered.exclusive i j k true ?_ ?_
        · rw [hworker]
          exact hheld k hk
        · rw [workers_coarse, holds_settle, hj]
          exact hheld' k hqk
      rw [hji] at hidle
      rw [hidle] at hq
      cases hq
    · rw [h.observing j q hq] at hqk
      cases hqk
  · rintro j ⟨⟩
    exact ⟨held, code, hi, hx, hheld⟩

theorem Tracks.observe (h : Tracks S plan body db m s) {j : o} {x : Call}
    (hidle : s.mem.threads (.inr j) = none) (hx : x.updates = none) :
    Tracks S plan body db m { s with mem := s.mem.enter (storeMachine S) (.inr j) x } := by
  refine h.enter hidle ⟨fun _ _ k _ hk => ?_, ?_⟩ (fun i hi => by cases hi) fun _ _ => hx
  · rw [hx] at hk
    cases hk
  · rcases x with k | k | (⟨k, a⟩ | k)
    · trivial
    · trivial
    · cases hx
    · trivial

theorem decision_continue {p : Phase} (hp : p.decided = none) (q : Phase) :
    (storeMachine S).decision p (.inl q) = q.decided := by
  have hnone : (storeMachine S).decided p = none := hp
  rw [Machine.decision, hnone]
  rfl

theorem decision_return {p : Phase} (hp : p.decided = none) (r : Reply) :
    (storeMachine S).decision p (.inr r) = some r := by
  have hnone : (storeMachine S).decided p = none := hp
  rw [Machine.decision, hnone]
  rfl

theorem decision_decided {p : Phase} {r : Reply} (hp : p.decided = some r) (out : Phase ⊕ Reply) :
    (storeMachine S).decision p out = none := by
  have hsome : (storeMachine S).decided p = some r := hp
  rw [Machine.decision, hsome]

theorem settle_advance {p q : Phase} {db : AppendOnlyDB} (h : (p.advance S db).2 = .inl q)
    (hdecision : (storeMachine S).decision p (.inl q) = none) (w : Worker Pubkey Account ρ) :
    settle (some q) w = settle (some p) w := by
  cases hp : p.decided with
  | none =>
    rw [decision_continue hp] at hdecision
    rw [settle_undecided hp, settle_undecided hdecision]
  | some r => rw [settle_decided hp, settle_decided (Phase.decided_advance S db p q r h hp)]

theorem history_advance {t : ι ⊕ o} {p : Phase} {d : Option Reply}
    (hdecision : (storeMachine S).decision p (p.advance S s.mem.store).2 = d) :
    (s.mem.advance (storeMachine S) t p).history =
      s.mem.history ++ d.toList.map fun r => (t, p.call, r) := by
  rw [← hdecision]
  rfl

theorem threads_advance (t : ι ⊕ o) (p : Phase) (t' : ι ⊕ o) :
    (s.mem.advance (storeMachine S) t p).threads t' =
      if t' = t then (p.advance S s.mem.store).2.getLeft? else s.mem.threads t' :=
  Function.update_apply _ _ _ _

theorem coarse_silent {t : ι ⊕ o} {p : Phase} (ht : s.mem.threads t = some p)
    (hgoes : ∀ i r, t = .inl i → (p.advance S s.mem.store).2 ≠ .inr r)
    (hdecision : (storeMachine S).decision p (p.advance S s.mem.store).2 = none) (m : AccountsDB) :
    coarse m { s with mem := s.mem.advance (storeMachine S) t p } = coarse m s := by
  refine coarse_congr ?_ (fun i => ?_) rfl
  · rw [history_advance hdecision, Option.toList_none, List.map_nil, List.append_nil]
  · rw [workers_coarse, workers_coarse, threads_advance]
    split_ifs with hi
    · cases hout : (p.advance S s.mem.store).2 with
      | inl q =>
        rw [hout] at hdecision
        rw [hi, ht]
        exact settle_advance hout hdecision _
      | inr r => exact absurd hout (hgoes i r hi.symm)
    · rfl

theorem apply_of_reads {x : Call} (h : x.updates = none) (m : AccountsDB) :
    accountsObject.apply m x = m := by
  rcases x with k | k | (⟨k, a⟩ | k)
  · rfl
  · rfl
  · cases h
  · cases h

theorem coarse_observed {j : o} {p : Phase} (hp : p.call.updates = none) (m : AccountsDB) :
    coarse m { s with mem := s.mem.advance (storeMachine S) (.inr j) p } = coarse m s := by
  refine coarse_congr ?_ (fun i => ?_) rfl
  · rw [history_advance rfl]
    cases (storeMachine S).decision p (p.advance S s.mem.store).2 with
    | none => rw [Option.toList_none, List.map_nil, List.append_nil]
    | some r => exact (current_snoc _ _ _ _).trans (apply_of_reads hp _)
  · rw [workers_coarse, workers_coarse, threads_advance, if_neg Sum.inl_ne_inr]

theorem Tracks.write (h : Tracks S plan body db m s) {i : ι} {p q : Phase} {r : Reply}
    (ht : s.mem.threads (.inl i) = some p) (hout : (p.advance S s.mem.store).2 = .inl q)
    (hdecision : (storeMachine S).decision p (.inl q) = some r) :
    TwoPhase.Step accountsMemory body (coarse m s)
      (coarse m { s with mem := s.mem.advance (storeMachine S) (.inl i) p }) := by
  have hp : p.decided = none := by
    cases hp : p.decided with
    | none => rfl
    | some r' =>
      rw [decision_decided hp] at hdecision
      cases hdecision
  have hq : q.decided = some r := (decision_continue hp q).symm.trans hdecision
  obtain ⟨u, hu⟩ := exists_update hq
  rw [Phase.call_advance S s.mem.store p q hout] at hu
  obtain ⟨held, code, hi, hissues, -⟩ := h.issued i p ht
  rw [hu] at hissues
  obtain ⟨k, v, next, rfl, -, happly⟩ := hissues.write
  have hworker : (coarse m s).workers i = .running held (.write k v next) := by
    rw [workers_coarse, ht, settle_undecided hp, hi]
  have hnext : coarse m { s with mem := s.mem.advance (storeMachine S) (.inl i) p } =
      { (coarse m s).put i (.running held next) with mem := accountsMemory.set (coarse m s).mem k v } := by
    rw [coarse_eq_put (s := s) (i := i) (w := .running held next) m, history_advance (hout ▸ hdecision)]
    · rw [Option.toList_some, List.map_singleton, current_snoc, hu, ← happly]
      rfl
    · rw [threads_advance, if_pos rfl, hout, hi]
      exact settle_decided hq _
    · intro j hj
      rw [workers_coarse, threads_advance, if_neg (Sum.inl_injective.ne hj)]
      rfl
  rw [hnext]
  exact .write hworker

theorem Tracks.advance (h : Tracks S plan body db m s) {t : ι ⊕ o} {p : Phase}
    (ht : s.mem.threads t = some p) (hp : allowed s.mem.threads p)
    (hgoes : ∀ i r, t = .inl i → (p.advance S s.mem.store).2 ≠ .inr r) :
    Tracks S plan body db m { s with mem := s.mem.advance (storeMachine S) t p } := by
  have hcall : ∀ q, (p.advance S s.mem.store).2.getLeft? = some q → q.call = p.call := fun q hq =>
    Phase.call_advance S _ p q (Sum.getLeft?_eq_some_iff.mp hq)
  refine ⟨h.calls.tail (.advance ht hp), ?_, fun i q hi => ?_, fun j q hj => ?_⟩
  · cases hdecision : (storeMachine S).decision p (p.advance S s.mem.store).2 with
    | none =>
      rw [coarse_silent ht hgoes hdecision]
      exact h.workers
    | some r =>
      rcases t with i | j
      · cases hout : (p.advance S s.mem.store).2 with
        | inl q => exact h.workers.tail (h.write ht hout (hout ▸ hdecision))
        | inr r => exact absurd hout (hgoes i r rfl)
      · rw [coarse_observed (h.observing j p ht)]
        exact h.workers
  · rcases update_cases hi with ⟨rfl, hq⟩ | ⟨-, hq⟩
    · rw [hcall q hq]
      exact h.issued i p ht
    · exact h.issued i q hq
  · rcases update_cases hj with ⟨rfl, hq⟩ | ⟨-, hq⟩
    · rw [hcall q hq]
      exact h.observing j p ht
    · exact h.observing j q hq

theorem Continues.answers {code rest : Code Pubkey Account ρ} {x : Call} (hx : Issues code x)
    (h : Continues code (x.reply m) rest) {t : TwoPhase.State AccountsDB Pubkey Account ρ ι} {i : ι}
    {held : List (Pubkey × Bool)} (hi : t.workers i = .running held code) (hm : t.mem = m) :
    TwoPhase.Step accountsMemory body t
      { t.put i (.running held rest) with mem := accountsObject.apply m x } := by
  subst hm
  cases hx with
  | load k next =>
    cases h
    exact .load hi
  | @probe k next hpresence =>
    generalize hb : (Call.exists k).reply t.mem = b at h
    cases h with
    | loaded _ _ v => cases hb
    | found _ _ v =>
      have hv : v.isSome = (t.mem.load k).isSome := (Reply.found.inj hb).symm
      rw [hpresence v _ hv]
      exact .load hi
  | store k a next =>
    cases h
    exact .write hi
  | remove k next =>
    cases h
    exact .write hi

theorem workers_resumed {i j : ι} (hj : j ≠ i) (p : Phase) (w : Worker Pubkey Account ρ) :
    (coarse m { s.put i w with mem := s.mem.advance (storeMachine S) (.inl i) p }).workers j =
      (coarse m s).workers j := by
  rw [workers_coarse, threads_advance, if_neg (Sum.inl_injective.ne hj), workers_coarse]
  exact congrArg _ ((s.workers_put i w j).trans (if_neg hj))

theorem settle_resumed {p : Phase} {r : Reply} (hr : (p.advance S s.mem.store).2 = .inr r) (i : ι)
    (w : Worker Pubkey Account ρ) :
    settle ((s.mem.advance (storeMachine S) (.inl i) p).threads (.inl i))
      ((s.put i w).workers i) = w := by
  rw [threads_advance, if_pos rfl, hr, s.workers_put, if_pos rfl]
  rfl

theorem Tracks.issues (h : Tracks S plan body db m s) {i : ι} {p : Phase}
    {held : List (Pubkey × Bool)} {code : Code Pubkey Account ρ}
    (hi : s.workers i = .running held code) (ht : s.mem.threads (.inl i) = some p) :
    Issues code p.call := by
  obtain ⟨held', code', hi', hissues, -⟩ := h.issued i p ht
  rw [hi] at hi'
  cases hi'
  exact hissues

section Resume

variable {i : ι} {p : Phase} {r : Reply} {held : List (Pubkey × Bool)}
  {code rest : Code Pubkey Account ρ}

theorem Tracks.answer [Fintype ι] [Fintype o] (hstart : Refines S db m)
    (h : Tracks S plan body db m s) (hi : s.workers i = .running held code)
    (ht : s.mem.threads (.inl i) = some p) (hp : allowed s.mem.threads p)
    (hr : (p.advance S s.mem.store).2 = .inr r) (hrest : Continues code r rest)
    (hundecided : p.decided = none) :
    TwoPhase.Step accountsMemory body (coarse m s) (coarse m
      { s.put i (.running held rest) with mem := s.mem.advance (storeMachine S) (.inl i) p }) := by
  have hdecision : (storeMachine S).decision p (p.advance S s.mem.store).2 = some r := by
    rw [hr]
    exact decision_return hundecided r
  obtain ⟨-, hinv⟩ := (simulates S).run h.calls (.start hstart)
  obtain ⟨rfl, -⟩ := hinv.decides ht hp hdecision
  have hworker : (coarse m s).workers i = .running held code := by
    rw [workers_coarse, ht, settle_undecided hundecided, hi]
  rw [coarse_eq_put m (settle_resumed hr i _) fun j hj => workers_resumed hj p _,
    history_advance hdecision, Option.toList_some, List.map_singleton, current_snoc]
  exact hrest.answers (h.issues hi ht) hworker rfl

-- The write took effect when it was decided; its return changes nothing.
theorem Tracks.acknowledge (h : Tracks S plan body db m s) (hi : s.workers i = .running held code)
    (ht : s.mem.threads (.inl i) = some p) (hr : (p.advance S s.mem.store).2 = .inr r)
    (hrest : Continues code r rest) {r' : Reply} (hdecided : p.decided = some r') :
    coarse m { s.put i (.running held rest) with
      mem := s.mem.advance (storeMachine S) (.inl i) p } = coarse m s := by
  obtain ⟨u, hu⟩ := exists_update hdecided
  have hissues := h.issues hi ht
  rw [hu] at hissues
  obtain ⟨k, v, next, rfl, -, -⟩ := hissues.write
  obtain rfl := hrest.write
  refine coarse_congr ?_ (fun j => ?_) rfl
  · rw [history_advance (decision_decided hdecided _), Option.toList_none, List.map_nil,
      List.append_nil]
  · rcases eq_or_ne j i with rfl | hj
    · rw [workers_coarse, workers_coarse, ht, settle_decided hdecided, hi]
      exact settle_resumed hr j _
    · exact workers_resumed hj p _

theorem Tracks.resume [Fintype ι] [Fintype o] (hstart : Refines S db m)
    (h : Tracks S plan body db m s) (hi : s.workers i = .running held code)
    (ht : s.mem.threads (.inl i) = some p) (hp : allowed s.mem.threads p)
    (hr : (p.advance S s.mem.store).2 = .inr r) (hrest : Continues code r rest) :
    Tracks S plan body db m
      { s.put i (.running held rest) with mem := s.mem.advance (storeMachine S) (.inl i) p } := by
  refine ⟨h.calls.tail (.advance ht hp), ?_, fun j q hj => ?_, fun j q hj => ?_⟩
  · cases hdecided : p.decided with
    | none => exact h.workers.tail (h.answer hstart hi ht hp hr hrest hdecided)
    | some r' =>
      rw [h.acknowledge hi ht hr hrest hdecided]
      exact h.workers
  · have hthread := (threads_advance (.inl i) p (.inl j)).symm.trans hj
    split_ifs at hthread with hji
    · rw [hr] at hthread
      cases hthread
    · obtain ⟨held', code', hj', hrest'⟩ := h.issued j q hthread
      have hne : j ≠ i := fun he => hji (congrArg Sum.inl he)
      exact ⟨held', code', ((s.workers_put i _ j).trans (if_neg hne)).trans hj', hrest'⟩
  · have hthread := (threads_advance (.inl i) p (.inr j)).symm.trans hj
    rw [if_neg Sum.inr_ne_inl] at hthread
    exact h.observing j q hthread

end Resume

theorem Reachable.tracks [Fintype ι] [Fintype o] (hstart : Refines S db m)
    (hbody : ∀ i, (body i).Covered fun k b => (k, b) ∈ plan i)
    (h : Reachable S plan body db s) : Tracks S plan body db m s := by
  induction h with
  | refl => exact .initial plan body db m
  | tail _ hstep ih =>
    cases hstep with
    | control hidle hcontrol => exact ih.control hidle hcontrol
    | issue hi hidle hx hencodable => exact ih.issue hbody hi hidle hx hencodable
    | observe hidle hx => exact ih.observe hidle hx
    | advance ht hp hgoes => exact ih.advance ht hp hgoes
    | resume hi ht hp hr hrest => exact ih.resume hstart hi ht hp hr hrest

end Tracking

end TrustNode.TxProcessor.Storage
