import HdrHistogramC.AtomicRecording
import HdrHistogramC.Merging

/-!
# Concurrent recording

Any threads that run atomic recordings on one histogram. Between the atomic operations of a
call its four updates are partly made, so the histogram is described by the samples of which
each kind of update has been made; a lost race in a compare-and-exchange loop makes none. When
every call has returned all updates are made, and in no order that matters.
-/
namespace HdrHistogramC
open Threads

/-- The recording function that is not atomic. -/
def RecordCall.run (h : HdrHistogram) : RecordCall → Option (Bool × HdrHistogram)
  | recordValuesAtomic value count => h.hdrRecordValues value count
  | recordCorrectedValuesAtomic value count expectedInterval =>
      h.hdrRecordCorrectedValues value count expectedInterval

/-- Calls that run one after another, with what each answers. -/
def runCalls (h : HdrHistogram) : List RecordCall → Option (HdrHistogram × List (RecordCall × Bool))
  | [] => some (h, [])
  | c :: cs =>
      match c.run h with
      | none => none
      | some (answer, h) => (runCalls h cs).map fun r => (r.1, (c, answer) :: r.2)

/-- What a call answers. -/
def RecordCall.answer (l : BucketLayout) (c : RecordCall) : Bool := l.Recordable c.value

/-- The samples that a call leaves behind. -/
def RecordCall.accepted (l : BucketLayout) (c : RecordCall) : Multiset Sample :=
  if l.Recordable c.value then c.samples else 0

/-- A thread that runs a list of calls: those to come, the one under way, those that have
returned. -/
structure CallPc where
  calls : List RecordCall
  current : Option RecordWork
  returned : List (RecordCall × Bool)
deriving Repr, DecidableEq

/-- The call of `work` goes on, or has returned. -/
def CallPc.continued (p : CallPc) (call : RecordCall) : RecordWork ⊕ Bool → CallPc
  | .inl work => { p with current := some work }
  | .inr answer => { p with current := none, returned := p.returned ++ [(call, answer)] }

/-- A call begins, or makes its next atomic operation. -/
def recordStep (_ : Unit) (h : HdrHistogram) (p : CallPc) : Option (HdrHistogram × CallPc) :=
  match p.current with
  | none =>
      match p.calls with
      | [] => none
      | c :: calls => some (h, { p with calls := calls }.continued c (c.updateAction h))
  | some w => (w.operation h).map fun r => (r.1, p.continued w.call r.2)

/-- The states of threads that run `calls` on the histogram `base`, under any interleaving. -/
def RecordRuns {ι : Type} [DecidableEq ι] (base : HdrHistogram) (calls : ι → List RecordCall)
    (s : State ι HdrHistogram CallPc) : Prop :=
  Reachable recordStep (fun _ => True) ⟨base, fun t => ⟨calls t, none, []⟩⟩ s

/-- All calls have returned. -/
def CallPc.done (p : CallPc) : Prop := p.calls = [] ∧ p.current = none

/-- The samples of which the counts, the total and the two extremes have been updated. -/
abbrev Updates := Multiset Sample × Multiset Sample × Multiset Int64 × Multiset Int64

/-- All four updates of every sample. -/
def allUpdates (m : Multiset Sample) : Updates := (m, m, m.map Prod.fst, m.map Prod.fst)

@[simp] theorem allUpdates_add (m₁ m₂ : Multiset Sample) :
    allUpdates (m₁ + m₂) = allUpdates m₁ + allUpdates m₂ := by simp [allUpdates]

abbrev Updated (base h : HdrHistogram) (U : Updates) : Prop :=
  Gathered base h U.1 U.2.1 U.2.2.1 U.2.2.2

namespace RecordWork

/-- The updates that a recording under way has made. -/
def updates (w : RecordWork) : Updates :=
  let before : Multiset Int64 := w.added.dropLast.map Prod.fst
  match w.pc with
  | .countsAdd _ => allUpdates w.added
  | .totalAdd => (w.added, w.added.dropLast, before, before)
  | .loadMin | .exchangeMin _ => (w.added, w.added, before, before)
  | .loadMax | .exchangeMax _ => (w.added, w.added, w.added.map Prod.fst, before)

/-- After the update of the counts the present sample is the last that was added, and a
compare-and-exchange is only tried for a better extreme. -/
structure Staged (w : RecordWork) : Prop where
  last : (∀ i, w.pc ≠ .countsAdd i) → ∃ pre, w.added = pre ++ [(w.value, w.call.count)]
  lower : ∀ cur, w.pc = .exchangeMin cur → w.value ≠ 0 ∧ w.value < cur
  higher : ∀ cur, w.pc = .exchangeMax cur → cur < w.value

end RecordWork

/-- The updates of a call that has come to `r`. -/
def RecordCall.updates (c : RecordCall) : RecordWork ⊕ Bool → Updates
  | .inl w => w.updates
  | .inr true => allUpdates c.samples
  | .inr false => 0

def RecordCall.Staged : RecordWork ⊕ Bool → Prop
  | .inl w => w.Staged
  | .inr answer => answer = true

section Operation
variable {base h : HdrHistogram} {U : Updates} {c : RecordCall} {w : RecordWork}

/-- A recording that has ended goes on with the counts of the next value, or returns. -/
theorem recorded_cases (w : RecordWork) (h : HdrHistogram) :
    (∃ w' i, w.recorded h = .inl w' ∧ w'.pc = .countsAdd i) ∨
      ∃ answer, w.recorded h = .inr answer := by
  unfold RecordWork.recorded
  cases w.call with
  | recordValuesAtomic v k => exact .inr ⟨true, rfl⟩
  | recordCorrectedValuesAtomic v k e =>
      dsimp only
      split_ifs
      · exact .inr ⟨true, rfl⟩
      · cases h.recordIndex (w.value - e) with
        | none => exact .inr ⟨false, rfl⟩
        | some i => exact .inl ⟨_, i, rfl, rfl⟩
      · exact .inr ⟨true, rfl⟩

/-- After the last update of a value, everything that was added is updated. -/
theorem updates_recorded (V : w.Valid base.toBucketLayout c) (ok : base.Accepted)
    (hl : h.toBucketLayout = base.toBucketLayout) (hp : w.present = []) (hne : w.added ≠ []) :
    c.Valid base.toBucketLayout (w.recorded h) ∧ RecordCall.Staged (w.recorded h) ∧
      c.updates (w.recorded h) = allUpdates w.added := by
  obtain ⟨V', hadded⟩ := V.recorded ok hl hp
  rcases recorded_cases w h with ⟨w', i, hr, hpc⟩ | ⟨answer, hr⟩
  · rw [hr] at V' hadded ⊢
    refine ⟨V', ⟨fun hne => absurd hpc (hne i), fun cur hc => ?_, fun cur hc => ?_⟩, ?_⟩
    · rw [hpc] at hc
      cases hc
    · rw [hpc] at hc
      cases hc
    · simp only [RecordCall.updates, RecordWork.updates, hpc]
      exact congrArg allUpdates hadded
  · rw [hr] at V' hadded ⊢
    cases answer with
    | true => exact ⟨V', rfl, congrArg allUpdates hadded⟩
    | false =>
        have hnil : w.added = [] := by simpa [RecordCall.added] using hadded.symm
        exact absurd hnil hne

theorem add_coe_concat {α : Type} (m : Multiset α) (l : List α) (x : α) :
    m + (l ++ [x] : List α) = x ::ₘ (m + l) := by
  rw [← Multiset.coe_add, Multiset.coe_singleton, ← add_assoc, add_comm, Multiset.singleton_add]

/-- What an operation leaves: the updates that it says, and a recording as it should be. -/
def Operated (base : HdrHistogram) (U : Updates) (c : RecordCall)
    (result : Option (HdrHistogram × (RecordWork ⊕ Bool))) : Prop :=
  ∃ h r, result = some (h, r) ∧ Updated base h (U + c.updates r) ∧
    c.Valid base.toBucketLayout r ∧ RecordCall.Staged r

theorem operated_countsAdd (N : base.Normalised) (V : w.Valid base.toBucketLayout c) {i : Int32}
    (hpc : w.pc = .countsAdd i) (G : Updated base h (U + w.updates)) :
    Operated base U c (w.operation h) := by
  simp only [RecordWork.updates, hpc] at G
  obtain ⟨h', hadd, G'⟩ := G.countsAdd N V.recordable w.call.count
  refine ⟨h', .inl { w with
    pc := .totalAdd
    added := w.added ++ [(w.value, w.call.count)] }, ?_, ?_, V.stored hpc,
    ⟨fun _ => ⟨w.added, rfl⟩, fun _ hc => (by cases hc), fun _ hc => (by cases hc)⟩⟩
  · simp only [RecordWork.operation, hpc, V.index i hpc]
    rw [countsAdd_normalised, hadd]
    rfl
  · change Gathered base h' (U.1 + (w.added ++ [_] : List Sample))
      (U.2.1 + ((w.added ++ [_]).dropLast : List Sample))
      (U.2.2.1 + ((w.added ++ [_]).dropLast.map Prod.fst : List Int64))
      (U.2.2.2 + ((w.added ++ [_]).dropLast.map Prod.fst : List Int64))
    rw [List.dropLast_concat, add_coe_concat]
    exact G'

theorem present_of_quiet (hpc : ∀ i, w.pc ≠ .countsAdd i) : w.present = [] := by
  unfold RecordWork.present
  split
  · exact absurd ‹_› (hpc _)
  · rfl

/-- The recording goes on with another operation for the same sample. -/
theorem operated_next (V : w.Valid base.toBucketLayout c) (S : w.Staged)
    (hpc : ∀ i, w.pc ≠ .countsAdd i) {pc : RecordPc} (hnext : ∀ i, pc ≠ .countsAdd i)
    (hlower : ∀ cur, pc = .exchangeMin cur → w.value ≠ 0 ∧ w.value < cur)
    (hhigher : ∀ cur, pc = .exchangeMax cur → cur < w.value)
    (G : Updated base h (U + { w with pc := pc }.updates)) :
    Operated base U c (some (h, .inl { w with pc := pc })) :=
  ⟨h, _, rfl, G, V.next (present_of_quiet hpc) hnext, fun _ => S.last hpc, hlower, hhigher⟩

theorem operated_recorded {h' : HdrHistogram} (N : base.Normalised)
    (V : w.Valid base.toBucketLayout c) (S : w.Staged) (hpc : ∀ i, w.pc ≠ .countsAdd i)
    (hl : h.toBucketLayout = base.toBucketLayout) (G : Updated base h' (U + allUpdates w.added)) :
    Operated base U c (some (h', w.recorded h)) := by
  obtain ⟨pre, hpre⟩ := S.last hpc
  obtain ⟨hvalid, hstaged, hupdates⟩ :=
    updates_recorded V N.accepted hl (present_of_quiet hpc) (by rw [hpre]; simp)
  exact ⟨h', _, rfl, by rw [hupdates]; exact G, hvalid, hstaged⟩

section Updates
variable {pre : List Sample} (hpre : w.added = pre ++ [(w.value, w.call.count)])
include hpre

theorem added_samples (m : Multiset Sample) :
    m + w.added = (w.value, w.call.count) ::ₘ (m + pre) := by
  rw [hpre, add_coe_concat]

theorem added_values (m : Multiset Int64) : m + (w.added.map Prod.fst : List Int64) =
    w.value ::ₘ (m + (pre.map Prod.fst : List Int64)) := by
  rw [hpre, List.map_append, List.map_singleton, add_coe_concat]

theorem added_dropLast : w.added.dropLast = pre := by rw [hpre, List.dropLast_concat]

theorem updated_total (hw : w.pc = .totalAdd) (G : Updated base h (U + w.updates)) :
    Updated base { h with totalCount := h.totalCount + w.call.count }
      (U + { w with pc := .loadMin }.updates) := by
  simp only [RecordWork.updates, hw, added_dropLast hpre] at G ⊢
  have G' := G.totalAdd w.value w.call.count
  change Gathered base _ _ (U.2.1 + w.added) _ _
  rw [added_samples hpre]
  exact G'

theorem updated_lower (hw : w.pc = .loadMin ∨ ∃ cur, w.pc = .exchangeMin cur)
    (G : Updated base h (U + w.updates)) :
    Updated base { h with minValue := lowerMin w.value h.minValue }
      (U + { w with pc := .loadMax }.updates) := by
  have G' : Updated base h (U + { w with pc := .loadMin }.updates) := by
    rcases hw with hw | ⟨cur, hw⟩
    · simpa only [RecordWork.updates, hw] using G
    · simpa only [RecordWork.updates, hw] using G
  simp only [RecordWork.updates, added_dropLast hpre] at G' ⊢
  change Gathered base _ _ _ (U.2.2.1 + (w.added.map Prod.fst : List Int64)) _
  rw [added_values hpre]
  exact G'.lower w.value

theorem updated_raise (hw : w.pc = .loadMax ∨ ∃ cur, w.pc = .exchangeMax cur)
    (G : Updated base h (U + w.updates)) :
    Updated base { h with maxValue := raiseMax w.value h.maxValue } (U + allUpdates w.added) := by
  have G' : Updated base h (U + { w with pc := .loadMax }.updates) := by
    rcases hw with hw | ⟨cur, hw⟩
    · simpa only [RecordWork.updates, hw] using G
    · simpa only [RecordWork.updates, hw] using G
  simp only [RecordWork.updates, added_dropLast hpre] at G'
  change Gathered base _ _ _ _ (U.2.2.2 + (w.added.map Prod.fst : List Int64))
  rw [added_values hpre]
  exact G'.raise w.value

end Updates

/-- The extreme is read: it is low enough, or an exchange is tried next. -/
theorem operated_loadMin (V : w.Valid base.toBucketLayout c) (S : w.Staged)
    (hw : w.pc = .loadMin) (G : Updated base h (U + w.updates)) :
    Operated base U c (w.operation h) := by
  have hpc : ∀ i, w.pc ≠ .countsAdd i := by simp [hw]
  obtain ⟨pre, hpre⟩ := S.last hpc
  simp only [RecordWork.operation, hw]
  split_ifs with hle
  · refine operated_next V S hpc (by simp) (by simp) (by simp) ?_
    have G' := updated_lower hpre (.inl hw) G
    rw [lowerMin, if_neg] at G'
    · exact G'
    · rintro ⟨hne, hlt⟩
      rcases hle with h0 | hle
      · exact hne h0.symm
      · exact Int64.not_le.mpr hlt hle
  · push Not at hle
    refine operated_next V S hpc (by simp) (fun cur hcur => ?_) (by simp) ?_
    · cases hcur
      exact ⟨fun h0 => hle.1 h0.symm, Int64.not_le.mp hle.2⟩
    · simpa only [RecordWork.updates, hw] using G

theorem operated_exchangeMin (V : w.Valid base.toBucketLayout c) (S : w.Staged) {cur : Int64}
    (hw : w.pc = .exchangeMin cur) (G : Updated base h (U + w.updates)) :
    Operated base U c (w.operation h) := by
  have hpc : ∀ i, w.pc ≠ .countsAdd i := by simp [hw]
  obtain ⟨pre, hpre⟩ := S.last hpc
  obtain ⟨hne, hlt⟩ := S.lower cur hw
  simp only [RecordWork.operation, hw]
  split_ifs with heq
  · refine operated_next V S hpc (by simp) (by simp) (by simp) ?_
    have G' := updated_lower hpre (.inr ⟨cur, hw⟩) G
    rwa [lowerMin, if_pos ⟨hne, heq ▸ hlt⟩] at G'
  · refine operated_next V S hpc (by simp) (by simp) (by simp) ?_
    simpa only [RecordWork.updates, hw] using G

theorem operated_loadMax (N : base.Normalised) (V : w.Valid base.toBucketLayout c) (S : w.Staged)
    (hw : w.pc = .loadMax) (G : Updated base h (U + w.updates)) :
    Operated base U c (w.operation h) := by
  have hpc : ∀ i, w.pc ≠ .countsAdd i := by simp [hw]
  obtain ⟨pre, hpre⟩ := S.last hpc
  simp only [RecordWork.operation, hw]
  split_ifs with hle
  · refine operated_recorded N V S hpc G.layout ?_
    have G' := updated_raise hpre (.inl hw) G
    rwa [raiseMax, if_neg fun hlt => Int64.not_le.mpr hlt hle] at G'
  · refine operated_next V S hpc (by simp) (by simp) (fun cur hcur => ?_) ?_
    · cases hcur
      exact Int64.not_le.mp hle
    · simpa only [RecordWork.updates, hw] using G

theorem operated_exchangeMax (N : base.Normalised) (V : w.Valid base.toBucketLayout c)
    (S : w.Staged) {cur : Int64} (hw : w.pc = .exchangeMax cur)
    (G : Updated base h (U + w.updates)) : Operated base U c (w.operation h) := by
  have hpc : ∀ i, w.pc ≠ .countsAdd i := by simp [hw]
  obtain ⟨pre, hpre⟩ := S.last hpc
  have hlt := S.higher cur hw
  simp only [RecordWork.operation, hw]
  split_ifs with heq
  · refine operated_recorded N V S hpc G.layout ?_
    have G' := updated_raise hpre (.inr ⟨cur, hw⟩) G
    rwa [raiseMax, if_pos (heq ▸ hlt)] at G'
  · refine operated_next V S hpc (by simp) (by simp) (by simp) ?_
    simpa only [RecordWork.updates, hw] using G

/-- The step lemma: an atomic operation makes the updates that it says. -/
theorem operation_updated (N : base.Normalised) (V : w.Valid base.toBucketLayout c)
    (S : w.Staged) (G : Updated base h (U + w.updates)) : Operated base U c (w.operation h) := by
  cases hw : w.pc with
  | countsAdd i => exact operated_countsAdd N V hw G
  | totalAdd =>
      have hpc : ∀ i, w.pc ≠ .countsAdd i := by simp [hw]
      obtain ⟨pre, hpre⟩ := S.last hpc
      simp only [RecordWork.operation, hw]
      exact operated_next V S hpc (by simp) (by simp) (by simp) (updated_total hpre hw G)
  | loadMin => exact operated_loadMin V S hw G
  | exchangeMin cur => exact operated_exchangeMin V S hw G
  | loadMax => exact operated_loadMax N V S hw G
  | exchangeMax cur => exact operated_exchangeMax N V S hw G

theorem updateAction_updated (N : base.Normalised) (hl : h.toBucketLayout = base.toBucketLayout)
    (c : RecordCall) :
    (∃ w, base.Recordable c.value ∧ c.updateAction h = .inl w ∧ w.updates = 0 ∧
      w.Valid base.toBucketLayout c ∧ w.Staged) ∨
    (¬ base.Recordable c.value ∧ c.updateAction h = .inr false) := by
  by_cases hv : base.Recordable c.value
  · left
    obtain ⟨V, -⟩ := updateAction_valid N.accepted hl c
    unfold RecordCall.updateAction at V ⊢
    rw [recordIndex_accept N.accepted hl hv] at V ⊢
    exact ⟨_, hv, rfl, rfl, V, ⟨fun hpc => absurd rfl (hpc _), fun _ hc => (by cases hc),
      fun _ hc => (by cases hc)⟩⟩
  · right
    refine ⟨hv, ?_⟩
    unfold RecordCall.updateAction
    rw [recordIndex_reject (by rwa [hl])]

end Operation

/-- The updates that a thread has made: those of the calls that have returned, and of the one
under way. -/
def CallPc.updates (l : BucketLayout) (p : CallPc) : Updates :=
  allUpdates (p.returned.map fun r => r.1.accepted l).sum +
    (p.current.map RecordWork.updates).getD 0

/-- The histogram has the updates of all threads, and every call that has returned answered
as it does alone. -/
structure Recording {ι : Type} [Fintype ι] (base : HdrHistogram) (calls : ι → List RecordCall)
    (s : State ι HdrHistogram CallPc) : Prop where
  updated : Updated base s.shared (total (CallPc.updates base.toBucketLayout) s.pc)
  valid : ∀ t w, (s.pc t).current = some w →
    w.Valid base.toBucketLayout w.call ∧ w.Staged ∧ base.Recordable w.call.value
  answers : ∀ t, ∀ r ∈ (s.pc t).returned, r.2 = r.1.answer base.toBucketLayout
  order : ∀ t, (s.pc t).returned.map Prod.fst ++
    (((s.pc t).current.map RecordWork.call).toList ++ (s.pc t).calls) = calls t

section Runs
variable {ι : Type} [DecidableEq ι] {base : HdrHistogram} {calls : ι → List RecordCall}
  {s : State ι HdrHistogram CallPc} {t : ι}

/-- What a call that begins or goes on has come to. -/
structure Continued (base : HdrHistogram) (c : RecordCall) (r : RecordWork ⊕ Bool) : Prop where
  valid : ∀ w, r = .inl w → w.Valid base.toBucketLayout w.call ∧ w.Staged ∧
    base.Recordable w.call.value ∧ w.call = c
  answer : ∀ b, r = .inr b → b = c.answer base.toBucketLayout

theorem continued_updates {c : RecordCall} {r : RecordWork ⊕ Bool} (C : Continued base c r)
    (p : CallPc) : (p.continued c r).updates base.toBucketLayout =
      allUpdates (p.returned.map fun r => r.1.accepted base.toBucketLayout).sum +
        c.updates r := by
  cases r with
  | inl w => rfl
  | inr b =>
      have hb := C.answer b rfl
      unfold CallPc.continued CallPc.updates
      simp only [List.map_append, List.map_cons, List.map_nil, List.sum_append, List.sum_cons,
        List.sum_nil, add_zero, allUpdates_add, Option.map_none, Option.getD_none]
      congr 1
      unfold RecordCall.accepted
      by_cases hv : base.Recordable c.value
      · rw [hb, RecordCall.answer, decide_eq_true hv, if_pos hv]
        rfl
      · rw [hb, RecordCall.answer, decide_eq_false hv, if_neg hv]
        rfl

/-- The step lemma of runs, for a call that goes on to `r`. -/
theorem Recording.next [Fintype ι] (K : Recording base calls s) {p : CallPc} {h' : HdrHistogram}
    {c : RecordCall} {r : RecordWork ⊕ Bool} (C : Continued base c r)
    (hret : p.returned = (s.pc t).returned)
    (horder : p.returned.map Prod.fst ++ ([c] ++ p.calls) = calls t)
    (hup : ∀ rest, Updated base s.shared (rest + (s.pc t).updates base.toBucketLayout) →
      Updated base h' (rest + (p.continued c r).updates base.toBucketLayout)) :
    Recording base calls (s.moved t h' (p.continued c r)) := by
  have hview : ∀ u, (u = t ∧ p.continued c r = (s.moved t h' (p.continued c r)).pc u) ∨
      (u ≠ t ∧ s.pc u = (s.moved t h' (p.continued c r)).pc u) := fun u => moved_eq rfl
  refine ⟨?_, fun u w hw => ?_, fun u q hq => ?_, fun u => ?_⟩
  · obtain ⟨rest, hrest⟩ := exists_total_update (CallPc.updates base.toBucketLayout) s.pc t
    have hold := hrest (s.pc t)
    rw [Function.update_eq_self] at hold
    have hnew := hup rest (hold ▸ K.updated)
    rw [← hrest] at hnew
    exact hnew
  · rcases hview u with ⟨rfl, hq⟩ | ⟨-, hq⟩
    · rw [← hq] at hw
      cases r with
      | inl w' =>
          cases hw
          obtain ⟨h₁, h₂, h₃, -⟩ := C.valid _ rfl
          exact ⟨h₁, h₂, h₃⟩
      | inr b => cases hw
    · rw [← hq] at hw
      exact K.valid u w hw
  · rcases hview u with ⟨rfl, he⟩ | ⟨-, he⟩
    · rw [← he] at hq
      cases r with
      | inl w' =>
          change q ∈ p.returned at hq
          rw [hret] at hq
          exact K.answers u q hq
      | inr b =>
          rcases List.mem_append.mp hq with hq | hq
          · rw [hret] at hq
            exact K.answers u q hq
          · rw [List.mem_singleton.mp hq]
            exact C.answer b rfl
    · rw [← he] at hq
      exact K.answers u q hq
  · rcases hview u with ⟨rfl, he⟩ | ⟨-, he⟩
    · rw [← he]
      cases r with
      | inl w' =>
          obtain ⟨-, -, -, hcall⟩ := C.valid _ rfl
          change p.returned.map Prod.fst ++ ([w'.call] ++ p.calls) = calls u
          rw [hcall]
          exact horder
      | inr b =>
          change (p.returned ++ [(c, b)]).map Prod.fst ++ p.calls = calls u
          rw [List.map_append, List.append_assoc]
          exact horder
    · rw [← he]
      exact K.order u

/-- A thread that has calls left can take a step, and every step keeps the invariant. -/
theorem Recording.step [Fintype ι] (K : Recording base calls s) (N : base.Normalised)
    (ht : ¬ (s.pc t).done) : ∃ g l, recordStep () s.shared (s.pc t) = some (g, l) ∧
      Recording base calls (s.moved t g l) := by
  have horder := K.order t
  have hl := K.updated.layout
  cases hcur : (s.pc t).current with
  | none =>
      cases hcalls : (s.pc t).calls with
      | nil => exact absurd ⟨hcalls, hcur⟩ ht
      | cons c cs =>
          rw [hcur, hcalls] at horder
          have hstep : recordStep () s.shared (s.pc t) = some (s.shared,
              { s.pc t with calls := cs }.continued c (c.updateAction s.shared)) := by
            simp only [recordStep, hcur, hcalls]
          have hidle : (s.pc t).updates base.toBucketLayout =
              allUpdates ((s.pc t).returned.map fun r => r.1.accepted base.toBucketLayout).sum := by
            rw [CallPc.updates, hcur]
            exact add_zero _
          have C : Continued base c (c.updateAction s.shared) ∧
              c.updates (c.updateAction s.shared) = 0 := by
            rcases updateAction_updated N hl c with ⟨w, hv, hw, hup, V, S⟩ | ⟨hv, hw⟩
            · rw [hw]
              refine ⟨⟨fun w' h => ?_, fun b h => (by cases h)⟩, hup⟩
              cases h
              rw [V.call]
              exact ⟨V, S, hv, rfl⟩
            · rw [hw]
              refine ⟨⟨fun w' h => (by cases h), fun b h => ?_⟩, rfl⟩
              cases h
              exact (decide_eq_false hv).symm
          refine ⟨_, _, hstep, K.next C.1 rfl horder fun rest G => ?_⟩
          rwa [continued_updates C.1, C.2, add_zero, ← hidle]
  | some w =>
      rw [hcur] at horder
      obtain ⟨V, S, hv⟩ := K.valid t w hcur
      have hbusy : (s.pc t).updates base.toBucketLayout =
          allUpdates ((s.pc t).returned.map fun r => r.1.accepted base.toBucketLayout).sum +
            w.updates := by
        rw [CallPc.updates, hcur]
        rfl
      obtain ⟨rest, hrest⟩ := exists_total_update (CallPc.updates base.toBucketLayout) s.pc t
      have hall := K.updated
      rw [← Function.update_eq_self t s.pc, hrest, hbusy, ← add_assoc] at hall
      obtain ⟨g, r, hop, -, V', S'⟩ := operation_updated N V S hall
      have C : Continued base w.call r := by
        refine ⟨fun w' h => ?_, fun b h => ?_⟩
        · subst h
          rw [V'.call]
          exact ⟨V', S', hv, rfl⟩
        · subst h
          rw [show b = true from S']
          exact (decide_eq_true hv).symm
      have hstep : recordStep () s.shared (s.pc t) =
          some (g, (s.pc t).continued w.call r) := by
        simp only [recordStep, hcur, hop, Option.map_some]
      refine ⟨_, _, hstep, K.next C rfl horder fun rest' G => ?_⟩
      rw [hbusy, ← add_assoc] at G
      obtain ⟨g', r', hop', G', -⟩ := operation_updated N V S G
      rw [hop, Option.some.injEq, Prod.mk.injEq] at hop'
      obtain ⟨rfl, rfl⟩ := hop'
      rwa [continued_updates C, ← add_assoc]

/-- The run lemma. -/
theorem RecordRuns.recording [Fintype ι] (run : RecordRuns base calls s) (N : base.Normalised) :
    Recording base calls s := by
  refine run.invariant ⟨?_, fun _ _ h => (by cases h), fun _ _ h => absurd h List.not_mem_nil,
    fun _ => rfl⟩ fun s t _ g l _ K hstep _ => ?_
  · have hzero : total (CallPc.updates base.toBucketLayout)
        (fun t => (⟨calls t, none, []⟩ : CallPc)) = 0 := total_eq_zero fun _ => rfl
    dsimp only
    rw [hzero]
    exact collected_self base
  · have ht : ¬ (s.pc t).done := by
      rintro ⟨hcalls, hcur⟩
      simp only [recordStep, hcur, hcalls] at hstep
      cases hstep
    obtain ⟨g', l', hstep', K'⟩ := K.step N ht
    have hsame : some (g, l) = some (g', l') := hstep.symm.trans hstep'
    cases hsame
    exact K'

end Runs

section Sequential
variable {base h : HdrHistogram} {m : Multiset Sample}

theorem Gathered.runCall (K : Collected base h m) (N : base.Normalised) (c : RecordCall) :
    ∃ h', c.run h = some (c.answer base.toBucketLayout, h') ∧
      Collected base h' (c.accepted base.toBucketLayout + m) := by
  unfold RecordCall.answer RecordCall.accepted
  by_cases hv : base.Recordable c.value
  · rw [decide_eq_true hv, if_pos hv]
    cases c with
    | recordValuesAtomic v k =>
        obtain ⟨h', hrec, K'⟩ := K.record N hv k
        exact ⟨h', hrec, K'⟩
    | recordCorrectedValuesAtomic v k e => exact K.corrected N hv k e
  · rw [decide_eq_false hv, if_neg hv, zero_add]
    cases c with
    | recordValuesAtomic v k => exact ⟨h, K.reject hv k, K⟩
    | recordCorrectedValuesAtomic v k e =>
        exact ⟨h, hdrRecordCorrectedValues_reject (by rw [K.layout]; exact hv), K⟩

theorem Gathered.runCalls (K : Collected base h m) (N : base.Normalised) (cs : List RecordCall) :
    ∃ h', runCalls h cs = some (h', cs.map fun c => (c, c.answer base.toBucketLayout)) ∧
      Collected base h' ((cs.map (RecordCall.accepted base.toBucketLayout)).sum + m) := by
  induction cs generalizing h m with
  | nil => exact ⟨h, rfl, by simpa using K⟩
  | cons c cs ih =>
      obtain ⟨h₁, hrun, K₁⟩ := K.runCall N c
      obtain ⟨h₂, hall, K₂⟩ := ih K₁
      refine ⟨h₂, by simp only [HdrHistogramC.runCalls, hrun, hall]; rfl, ?_⟩
      rw [List.map_cons, List.sum_cons, add_assoc, add_left_comm]
      exact K₂

end Sequential

section Linear
variable {ι : Type} [Fintype ι] [DecidableEq ι] {base : HdrHistogram}
  {calls : ι → List RecordCall} {s : State ι HdrHistogram CallPc}

omit [DecidableEq ι] in
theorem allUpdates_sum (f : ι → Multiset Sample) :
    allUpdates (∑ t, f t) = ∑ t, allUpdates (f t) :=
  map_sum (⟨⟨allUpdates, rfl⟩, allUpdates_add⟩ : Multiset Sample →+ Updates) f Finset.univ

omit [DecidableEq ι] in
theorem sum_map_sum (f : RecordCall → Multiset Sample) (m : ι → Multiset RecordCall) :
    ((∑ t, m t).map f).sum = ∑ t, ((m t).map f).sum :=
  map_sum (Multiset.sumAddMonoidHom.comp (Multiset.mapAddMonoidHom f)) m Finset.univ

omit [DecidableEq ι] in
/-- The calls of a thread that is done are the ones that have returned. -/
theorem Recording.returned (K : Recording base calls s) {t : ι} (ht : (s.pc t).done) :
    (s.pc t).returned = (calls t).map fun c => (c, c.answer base.toBucketLayout) := by
  have horder := K.order t
  rw [ht.1, ht.2, Option.map_none, Option.toList_none, List.append_nil, List.append_nil] at horder
  rw [← horder, List.map_map]
  exact (List.map_id _).symm.trans
    (List.map_congr_left fun r hr => Prod.ext rfl (K.answers t r hr))

omit [DecidableEq ι] in
theorem Recording.collected (K : Recording base calls s) (hdone : ∀ t, (s.pc t).done) :
    Collected base s.shared
      (∑ t, ((calls t).map (RecordCall.accepted base.toBucketLayout)).sum) := by
  have htotal : total (CallPc.updates base.toBucketLayout) s.pc =
      allUpdates (∑ t, ((calls t).map (RecordCall.accepted base.toBucketLayout)).sum) := by
    rw [allUpdates_sum]
    refine Finset.sum_congr rfl fun t _ => ?_
    rw [CallPc.updates, (hdone t).2, K.returned (hdone t), List.map_map]
    exact add_zero _
  have hall := K.updated
  rw [htotal] at hall
  exact hall

/-- Atomic recordings are linear: no thread is ever stuck before its last call has returned;
and when all have, the histogram and the answers are those of the same calls made with the
functions that are not atomic, one after another in any order. -/
theorem atomicRecording_linear (N : base.Normalised) (run : RecordRuns base calls s) :
    (∀ t, ¬ (s.pc t).done → ∃ r, recordStep () s.shared (s.pc t) = some r) ∧
    ((∀ t, (s.pc t).done) → ∃ answer : RecordCall → Bool,
      (∀ cs : List RecordCall,
        (cs : Multiset RecordCall) = ∑ t, (calls t : Multiset RecordCall) →
          runCalls base cs = some (s.shared, cs.map fun c => (c, answer c))) ∧
      ∀ t, (s.pc t).returned = (calls t).map fun c => (c, answer c)) := by
  have K := run.recording N
  refine ⟨fun t ht => ?_, fun hdone =>
    ⟨RecordCall.answer base.toBucketLayout, fun cs hcs => ?_, fun t => K.returned (hdone t)⟩⟩
  · obtain ⟨g, l, hstep, -⟩ := K.step N ht
    exact ⟨_, hstep⟩
  · obtain ⟨h', hrun, K'⟩ := (collected_self base).runCalls N cs
    have hsum : (cs.map (RecordCall.accepted base.toBucketLayout)).sum =
        ∑ t, ((calls t).map (RecordCall.accepted base.toBucketLayout)).sum := by
      have := sum_map_sum (RecordCall.accepted base.toBucketLayout)
        fun t => (calls t : Multiset RecordCall)
      rw [← hcs] at this
      simpa only [Multiset.map_coe, Multiset.sum_coe] using this
    rw [hsum, add_zero] at K'
    rw [hrun, K'.eq (K.collected hdone)]

end Linear

/-- Two threads, the first of which loses the race for the maximum and retries. -/
def sampleCalls : Fin 2 → List RecordCall
  | 0 => [.recordValuesAtomic 7 3]
  | 1 => [.recordCorrectedValuesAtomic 90 1 30, .recordValuesAtomic (-1) 2]

def sampleCallSchedule : List (Fin 2 × Unit) :=
  List.replicate 6 (0, ()) ++ List.replicate 15 (1, ()) ++ List.replicate 2 (0, ())

theorem atomicRecording_linear_sample : ∃ s : State (Fin 2) HdrHistogram CallPc,
    schedule recordStep (fun _ => True) sampleCallSchedule
        ⟨sampleHistogram, fun t => ⟨sampleCalls t, none, []⟩⟩ = some s ∧
      (∀ t, (s.pc t).done) ∧
      (runCalls sampleHistogram (sampleCalls 1 ++ sampleCalls 0)).map Prod.fst =
        some s.shared := by
  have hrun : (schedule recordStep (fun _ => True) sampleCallSchedule
      ⟨sampleHistogram, fun t => ⟨sampleCalls t, none, []⟩⟩).map
        (fun s : State (Fin 2) HdrHistogram CallPc => ((s.pc 0).calls, (s.pc 0).current,
          (s.pc 1).calls, (s.pc 1).current)) = some ([], none, [], none) := by decide +kernel
  obtain ⟨s, hs, hpc⟩ := Option.map_eq_some_iff.mp hrun
  simp only [Prod.mk.injEq] at hpc
  have hdone : ∀ t, (s.pc t).done := by
    rw [Fin.forall_fin_two]
    exact ⟨⟨hpc.1, hpc.2.1⟩, ⟨hpc.2.2.1, hpc.2.2.2⟩⟩
  obtain ⟨-, hlinear⟩ := atomicRecording_linear sampleHistogram_wellFormed.toNormalised
    (show RecordRuns sampleHistogram sampleCalls s from Reachable.start.schedule hs)
  obtain ⟨answer, hall, -⟩ := hlinear hdone
  refine ⟨s, hs, hdone, ?_⟩
  rw [hall (sampleCalls 1 ++ sampleCalls 0) (by decide)]
  rfl

end HdrHistogramC
