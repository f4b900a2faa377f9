import TrustNode.Base.Throughout
import TrustNode.Turbine.Propagate

namespace TrustNode.Turbine

def Shred.fields (s : Shred) : ShredId := ⟨s.slot, s.index, s.shredType⟩

namespace TurbinePropagator

variable (C : Crypto)

def Distinct (p : TurbinePropagator) : Prop := ∀ slot, ((p.buffered slot).map Shred.fields).Nodup

def RefusesDuplicate (p : TurbinePropagator) (now : UInt64) (shred : Shred) (sender : Bytes32) :
    Prop :=
  (p.receiveShred C now shred sender).2.stats.duplicateShreds ≠ p.stats.duplicateShreds

def Justified (p : TurbinePropagator) : Call → Prop
  | .receiveShred now shred sender => p.RefusesDuplicate C now shred sender →
      shred.fields ∈ (p.buffered shred.slot).map Shred.fields
  | _ => True

def IdsAgree (p : TurbinePropagator) : Call → Prop
  | .receiveShred _ shred _ => Admissible C shred →
      (shred.id ∈ (p.buffered shred.slot).map Shred.id ↔
        shred.fields ∈ (p.buffered shred.slot).map Shred.fields)
  | _ => True

def Honest (call : Call) : Prop :=
  ∀ now shred sender, call = .receiveShred now shred sender → shred.id = shred.fields

def next (p : TurbinePropagator) (call : Call) : Option TurbinePropagator := some (p.step C call)

section Step

variable {C} {p : TurbinePropagator}

theorem refusesDuplicate_iff {now : UInt64} {shred : Shred} {sender : Bytes32} :
    p.RefusesDuplicate C now shred sender ↔
      Admissible C shred ∧ shred.id ∈ (p.buffered shred.slot).map Shred.id := by
  unfold RefusesDuplicate
  obtain ⟨hno, he⟩ | ⟨hadmissible, ⟨hknown, he⟩ | ⟨hfresh, he⟩⟩ :=
    receiveShred_outcome C now shred sender p
  · rw [he]
    exact iff_of_false (fun h => h rfl) fun h => hno h.1
  · rw [he]
    refine iff_of_true (fun heq => ?_) ⟨hadmissible, hknown⟩
    exact absurd (UInt64.add_eq_left.mp heq) (by decide)
  · rw [he]
    exact iff_of_false (fun h => h rfl) fun h => hfresh h.2

theorem distinct_of_same {p' : TurbinePropagator} (hp : p.Distinct)
    (h : ∀ slot, p'.buffered slot = p.buffered slot) : p'.Distinct := fun slot => by
  rw [h slot]
  exact hp slot

theorem nodup_snoc_iff {l : List Shred} {s : Shred} (hl : (l.map Shred.fields).Nodup) :
    ((l ++ [s]).map Shred.fields).Nodup ↔ s.fields ∉ l.map Shred.fields := by
  rw [List.map_append, List.map_singleton, ← List.concat_eq_append, List.nodup_concat]
  exact and_iff_left hl

theorem step_pushed_iff (hp : p.Distinct) (now : UInt64) {shred : Shred} (sender : Bytes32)
    (hadmissible : Admissible C shred)
    (hfresh : shred.id ∉ (p.buffered shred.slot).map Shred.id) :
    (p.step C (.receiveShred now shred sender)).Distinct ↔
      shred.fields ∉ (p.buffered shred.slot).map Shred.fields := by
  have hbuffered := buffered_receiveShred C now shred sender p
  constructor
  · intro hnext
    rcases hbuffered shred.slot with ⟨hpushed, -⟩ | ⟨-, hknown⟩
    · have hnodup := hnext shred.slot
      rwa [step, hpushed, nodup_snoc_iff (hp shred.slot)] at hnodup
    · exact absurd (hknown hadmissible rfl) hfresh
  · intro hnew slot
    rcases hbuffered slot with ⟨hpushed, -, rfl, -⟩ | ⟨hsame, -⟩
    · rwa [step, hpushed, nodup_snoc_iff (hp shred.slot)]
    · rw [step, hsame]
      exact hp slot

theorem distinct_of_not_pushed (hp : p.Distinct) (now : UInt64) {shred : Shred} (sender : Bytes32)
    (h : ¬(Admissible C shred ∧ shred.id ∉ (p.buffered shred.slot).map Shred.id)) :
    (p.step C (.receiveShred now shred sender)).Distinct := by
  refine distinct_of_same hp fun slot => ?_
  rcases buffered_receiveShred C now shred sender p slot with ⟨-, hadmissible, rfl, hfresh⟩ | ⟨hsame, -⟩
  · exact absurd ⟨hadmissible, hfresh⟩ h
  · exact hsame

theorem step_receive_iff (hp : p.Distinct) (now : UInt64) (shred : Shred) (sender : Bytes32) :
    (p.Justified C (.receiveShred now shred sender) ∧
        (p.step C (.receiveShred now shred sender)).Distinct) ↔
      p.IdsAgree C (.receiveShred now shred sender) := by
  rw [Justified, IdsAgree, refusesDuplicate_iff]
  by_cases hpush : Admissible C shred ∧ shred.id ∉ (p.buffered shred.slot).map Shred.id
  · obtain ⟨hadmissible, hfresh⟩ := hpush
    rw [step_pushed_iff hp now sender hadmissible hfresh]
    constructor
    · exact fun hstep _ => iff_of_false hfresh hstep.2
    · exact fun hagree => ⟨fun hrefused => absurd hrefused.2 hfresh,
        fun hmem => hfresh ((hagree hadmissible).mpr hmem)⟩
  · have hknown := fun hadmissible => not_not.mp fun hfresh => hpush ⟨hadmissible, hfresh⟩
    rw [and_iff_left (distinct_of_not_pushed hp now sender hpush)]
    constructor
    · exact fun hjustified hadmissible =>
        iff_of_true (hknown hadmissible) (hjustified ⟨hadmissible, hknown hadmissible⟩)
    · exact fun hagree hrefused => (hagree hrefused.1).mp hrefused.2

theorem step_iff (hp : p.Distinct) (call : Call) :
    (p.Justified C call ∧ (p.step C call).Distinct) ↔ p.IdsAgree C call := by
  cases call with
  | receiveShred now shred sender => exact step_receive_iff hp now shred sender
  | pruneSlotsBelow below =>
    refine iff_of_true ⟨trivial, fun slot => ?_⟩ trivial
    rcases buffered_pruneSlotsBelow below p slot with hnil | hsame
    · rw [TurbinePropagator.step, hnil]
      exact List.nodup_nil
    · rw [TurbinePropagator.step, hsame]
      exact hp slot
  | tryReassemble other =>
    exact iff_of_true ⟨trivial, distinct_of_same hp fun slot => buffered_tryReassemble p slot other⟩
      trivial

theorem idsAgree_of_honest (hp : ∀ slot, ∀ s ∈ p.buffered slot, s.id = s.fields) {call : Call}
    (h : Honest call) : p.IdsAgree C call := by
  cases call with
  | receiveShred now shred sender =>
    intro _
    rw [h now shred sender rfl, List.map_congr_left (hp shred.slot)]
  | pruneSlotsBelow below => trivial
  | tryReassemble slot => trivial

theorem honest_step (hp : ∀ slot, ∀ s ∈ p.buffered slot, s.id = s.fields) {call : Call}
    (h : Honest call) : ∀ slot, ∀ s ∈ (p.step C call).buffered slot, s.id = s.fields := by
  intro slot
  cases call with
  | receiveShred now shred sender =>
    rw [step]
    rcases buffered_receiveShred C now shred sender p slot with ⟨hpushed, -⟩ | ⟨hsame, -⟩
    · rw [hpushed, List.forall_mem_append, List.forall_mem_singleton]
      exact ⟨hp slot, h now shred sender rfl⟩
    · rw [hsame]
      exact hp slot
  | pruneSlotsBelow below =>
    rw [step]
    rcases buffered_pruneSlotsBelow below p slot with hnil | hsame
    · rw [hnil]
      exact fun s hs => absurd hs List.not_mem_nil
    · rw [hsame]
      exact hp slot
  | tryReassemble other =>
    rw [step, buffered_tryReassemble]
    exact hp slot

theorem respects_of_honest {calls : List Call}
    (hp : ∀ slot, ∀ s ∈ p.buffered slot, s.id = s.fields) (h : ∀ call ∈ calls, Honest call) :
    Respects (next C) (fun q => q.IdsAgree C) p calls := by
  induction calls generalizing p with
  | nil => trivial
  | cons call rest ih =>
    obtain ⟨hcall, hrest⟩ := List.forall_mem_cons.mp h
    refine ⟨trivial, idsAgree_of_honest hp hcall, fun p' hp' => ?_⟩
    obtain rfl := Option.some.inj hp'
    exact ih (honest_step hp hcall) hrest

end Step

theorem dedup_by_fields_iff (C : Crypto) (calls : List Call) :
    (Throughout (next C) Distinct (fun p => p.Justified C) new calls ↔
        Respects (next C) (fun p => p.IdsAgree C) new calls) ∧
      ((∀ call ∈ calls, Honest call) →
        Throughout (next C) Distinct (fun p => p.Justified C) new calls) := by
  have hempty : new.Distinct := fun _ => List.nodup_nil
  have hiff : Throughout (next C) Distinct (fun p => p.Justified C) new calls ↔
      Respects (next C) (fun p => p.IdsAgree C) new calls := by
    refine Throughout.iff_respects (I := fun _ => True) (fun _ _ => trivial) (fun {p call} _ hp => ?_)
      trivial hempty
    rw [← step_iff hp call]
    refine and_congr_right fun _ => ⟨fun h => h _ rfl, fun h p' hp' => ?_⟩
    exact Option.some.inj hp' ▸ h
  refine ⟨hiff, fun h => hiff.mpr (respects_of_honest (fun slot s hs => ?_) h)⟩
  cases hs

def original : Shred := Shred.newData acceptingCrypto 7 0 [1]

def renamed : Shred := { original with id := ⟨7, 1, .data⟩ }

def impostor : Shred := { Shred.newData acceptingCrypto 7 5 [2] with id := original.id }

theorem dedup_misses_fields :
    let p := run acceptingCrypto (deliver [original, renamed])
    (p.buffered 7 = [original, renamed] ∧ original.fields = renamed.fields) ∧
      (run acceptingCrypto (deliver [original, impostor])).stats.duplicateShreds = 1 ∧
      impostor.fields ∉ ((run acceptingCrypto (deliver [original])).buffered 7).map Shred.fields := by
  decide +kernel

end TurbinePropagator

end TrustNode.Turbine
