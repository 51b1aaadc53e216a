import HdrHistogramC.LogFiles
import HdrHistogramC.PlainRecording
import HdrHistogramC.SampleBuffers

/-!
# The hiccup meter

A program of two threads. One sleeps for a millisecond, and records how much later it wakes up. The
other one takes a sample in every round, logs it, and gives it back for the next sample.
-/
namespace HdrHistogramC
open Threads

/-- The microseconds from `t0` to `t1`. -/
def diff (t0 t1 : HdrTimespec) : Int64 :=
  (t1.tvSec - t0.tvSec) * 1000000 + (t1.tvNsec - t0.tvNsec) / 1000

def deltaUs (t0 t1 : HdrTimespec) : Int64 :=
  let deltaUs := diff t0 t1 - 1000
  if deltaUs < 0 then 0 else deltaUs

/-- Where the main thread stands, with the variables that it uses from there on. -/
inductive HiccupMain where
  | starting
  | sleeping (inactive : Option ℕ) (startTimestamp : HdrTimespec)
  | sampling (startTimestamp : HdrTimespec) (call : Pc PlainWork RecordCall Bool)
  | sampled (inactive : ℕ) (startTimestamp : HdrTimespec)

namespace HiccupMain

def call : HiccupMain → Pc PlainWork RecordCall Bool
  | .sampling _ call => call
  | _ => .idle

/-- The sample call has gone from `l` to `l'`. -/
def continued (startTimestamp : HdrTimespec) (l l' : Pc PlainWork RecordCall Bool) : HiccupMain :=
  match l.returned with
  | none => .sampling startTimestamp l'
  | some old => .sampled old startTimestamp

end HiccupMain

/-- The recorder, the recording thread, the main thread and what that has written. -/
structure Hiccup where
  recorder : Recorder HdrHistogram RecordCall Bool
  recordHiccups : Pc PlainWork RecordCall Bool
  main : HiccupMain
  output : List UInt8

/-- What a thread does next, with the times that it reads. -/
inductive HiccupAction where
  | record (t0 t1 : HdrTimespec)
  | recording
  | start (startTimestamp timestamp : HdrTimespec)
  | sample
  | sampling
  | write (endTimestamp startTimestamp : HdrTimespec)
deriving Repr, DecidableEq

/-- The recording thread takes a step of the recorder. -/
def Hiccup.recorded (s : Hiccup) (a : Action RecordCall) : Option Hiccup :=
  (step plainCalls a s.recorder s.recordHiccups).map fun r =>
    { s with recorder := r.1, recordHiccups := r.2 }

section Program
variable (z : Zlib) (printSeconds : HdrTimespec → List UInt8)

/-- What the functions that write return is not looked at. No other thread reads or writes what
they do, so that they are one step. -/
def hiccupStep : HiccupAction → Hiccup → Option Hiccup
  | .record t0 t1, s => s.recorded (.record (.recordValuesAtomic (deltaUs t0 t1) 1))
  | .recording, s => s.recorded .proceed
  | .start startTimestamp timestamp, s =>
      match s.main with
      | .starting =>
          (hdrLogWriteHeader printSeconds s.output (some (ascii "foobar")) (some timestamp)).map
            fun r => { s with main := .sleeping none startTimestamp, output := r.2 }
      | _ => none
  | .sample, s =>
      match s.main with
      | .sleeping inactive startTimestamp =>
          (step plainCalls (.sampleAndRecycle inactive) s.recorder .idle).map fun r =>
            { s with recorder := r.1, main := .sampling startTimestamp r.2 }
      | _ => none
  | .sampling, s =>
      match s.main with
      | .sampling startTimestamp call =>
          (step plainCalls .proceed s.recorder call).map fun r =>
            { s with recorder := r.1, main := .continued startTimestamp call r.2 }
      | _ => none
  | .write endTimestamp startTimestamp, s =>
      match s.main with
      | .sampled inactive timestamp =>
          (hdrLogWrite z printSeconds s.output timestamp endTimestamp
            (s.recorder.heap inactive)).map fun r =>
              { s with main := .sleeping (some inactive) startTimestamp, output := r.2 }
      | _ => none

/-- A time that is printed as a number of seconds. -/
def ClockText (t : HdrTimespec) : Prop :=
  TimestampText 3 (printSeconds t) ∧ (printSeconds t).length ≤ 24

/-- The times that are read are printed as numbers, and that in the header is one of a year that an
`int` can count. -/
def HiccupAction.Timed (scanSeconds : List UInt8 → Option (Option HdrTimespec)) :
    HiccupAction → Prop
  | .start startTimestamp timestamp => ClockText printSeconds startTimestamp ∧
      SecondsText (printSeconds timestamp) ∧
      (-67768040609740800 ≤ timestamp.tvSec.toInt ∧ timestamp.tvSec.toInt ≤ 67768036191676799) ∧
      ∀ date ∈ dateText timestamp,
        NumbersFit scanSeconds (timeLine (printSeconds timestamp) date)
  | .write endTimestamp startTimestamp =>
      ClockText printSeconds endTimestamp ∧ ClockText printSeconds startTimestamp
  | _ => True

/-- Fewer than `2^63` hiccups, and fewer than `2^63` writer entries in every phase. -/
def Hiccup.Fits (s : Hiccup) : Prop :=
  s.recorder.EntriesFit ∧ Multiset.card s.recorder.exited < 2 ^ 63

instance Hiccup.decidableFits (s : Hiccup) : Decidable s.Fits :=
  inferInstanceAs (Decidable (_ ∧ _))

/-- The states of the program. Its recorder has the histogram `h` at first, and the output is what
it writes to `stdout` or to a new file: a file with a log is opened for appending, which is not
modelled. -/
inductive HiccupRuns (scanSeconds : List UInt8 → Option (Option HdrTimespec)) (h : HdrHistogram) :
    Hiccup → Prop
  | init : HiccupRuns scanSeconds h ⟨Recorder.initial h, .idle, .starting, []⟩
  | next {s s' : Hiccup} {a : HiccupAction} : HiccupRuns scanSeconds h s →
      hiccupStep z printSeconds a s = some s' → a.Timed printSeconds scanSeconds → s'.Fits →
        HiccupRuns scanSeconds h s'

/-- The state after some actions, if all of them can be taken. -/
def hiccupSchedule : List HiccupAction → Hiccup → Option Hiccup
  | [], s => some s
  | a :: as, s =>
      match hiccupStep z printSeconds a s with
      | none => none
      | some s' => if s'.Fits then hiccupSchedule as s' else none

end Program

theorem HiccupRuns.schedule {z : Zlib} {printSeconds : HdrTimespec → List UInt8}
    {scanSeconds : List UInt8 → Option (Option HdrTimespec)} {h : HdrHistogram} {s s' : Hiccup}
    {as : List HiccupAction} (run : HiccupRuns z printSeconds scanSeconds h s)
    (timed : ∀ a ∈ as, a.Timed printSeconds scanSeconds)
    (hs : hiccupSchedule z printSeconds as s = some s') :
    HiccupRuns z printSeconds scanSeconds h s' := by
  induction as generalizing s with
  | nil => exact Option.some.inj hs ▸ run
  | cons a as ih =>
      unfold hiccupSchedule at hs
      split at hs
      · cases hs
      next s₁ hstep =>
        split_ifs at hs with fits
        exact ih (run.next hstep (timed a (by simp)) fits)
          (fun b hb => timed b (List.mem_cons_of_mem _ hb)) hs

section Stepped
variable {H W C R : Type} {O : HistogramCalls H W C R} {g g' : Recorder H C R} {l l' : Pc W C R}

/-- The call that is being recorded. -/
def Pc.recorded : Pc W C R → Option C
  | .entered _ c | .updating _ _ c _ | .leaving _ _ c _ => some c
  | _ => none

theorem Stepped.records (h : Stepped O g l g' l') (hl : l.owns = none) (hl' : l'.owns = none) :
    g'.obtained = g.obtained ∧ g'.samples = g.samples := by
  cases h with
  | allocate | recycle => cases hl'
  | handOver => cases hl
  | _ => exact ⟨rfl, rfl⟩

/-- A call that leaves is the one that was being recorded. -/
theorem Stepped.exited (h : Stepped O g l g' l') {P : C → Prop} (hl : ∀ c ∈ l.recorded, P c)
    (hg : ∀ y ∈ g.exited, P y.1) : ∀ y ∈ g'.exited, P y.1 := by
  cases h with
  | exit =>
      intro y hy
      rcases Multiset.mem_add.mp hy with hy | hy
      · exact hg y hy
      · rw [Multiset.mem_singleton.mp hy]
        exact hl _ rfl
  | _ => exact hg

/-- A sample call lets no call leave, and hands a sample over in its last step only. -/
theorem Stepped.samples (h : Stepped O g l g' l') (hl : l.records = 0) :
    g'.exited = g.exited ∧ (l.returned = none → g'.samples = g.samples) := by
  cases h with
  | exit => cases hl
  | handOver => exact ⟨rfl, nofun⟩
  | _ => exact ⟨rfl, fun _ => rfl⟩

theorem step_record {c : C} (h : step O (.record c) g l = some (g', l')) :
    l = .idle ∧ l'.owns = none ∧ l'.recorded = some c := by
  cases l <;> cases h
  exact ⟨rfl, rfl, rfl⟩

/-- A call stays what it is until its end. -/
theorem step_proceed (h : step O .proceed g l = some (g', l')) :
    (l.owns = none → l'.owns = none) ∧ (l.records = 0 → l'.records = 0) ∧
      ∀ c ∈ l'.recorded, c ∈ l.recorded := by
  have hs := step_cases h
  cases hs with
  | enter | allocate | recycle => cases h
  | load | refuse | operate | finish => exact ⟨fun _ => rfl, nofun, fun c hc => hc⟩
  | exit | handOver => exact ⟨fun _ => rfl, fun _ => rfl, nofun⟩
  | _ => exact ⟨nofun, fun _ => rfl, nofun⟩

theorem step_sampleAndRecycle {x : Option ℕ}
    (h : step O (.sampleAndRecycle x) g .idle = some (g', l')) :
    l'.records = 0 ∧ l'.owns.isSome = true ∧ g'.exited = g.exited ∧ g'.samples = g.samples := by
  cases x with
  | none =>
      obtain ⟨k, -, he⟩ := Option.map_eq_some_iff.mp h
      cases he
      exact ⟨rfl, rfl, rfl, rfl⟩
  | some x =>
      rw [step] at h
      split_ifs at h
      cases h
      exact ⟨rfl, rfl, rfl, rfl⟩

theorem Pc.records_le_one (l : Pc W C R) : l.records ≤ 1 := by
  cases l <;> first | exact le_rfl | exact Nat.zero_le 1

end Stepped

/-- What a step of the program does. -/
inductive HiccupStepped (z : Zlib) (printSeconds : HdrTimespec → List UInt8) (s : Hiccup) :
    HiccupAction → Hiccup → Prop
  | record {t0 t1 : HdrTimespec} {g : Recorder HdrHistogram RecordCall Bool}
      {l : Pc PlainWork RecordCall Bool} :
      step plainCalls (.record (.recordValuesAtomic (deltaUs t0 t1) 1)) s.recorder
        s.recordHiccups = some (g, l) →
      HiccupStepped z printSeconds s (.record t0 t1) { s with recorder := g, recordHiccups := l }
  | recording {g : Recorder HdrHistogram RecordCall Bool} {l : Pc PlainWork RecordCall Bool} :
      step plainCalls .proceed s.recorder s.recordHiccups = some (g, l) →
      HiccupStepped z printSeconds s .recording { s with recorder := g, recordHiccups := l }
  | start {startTimestamp timestamp : HdrTimespec} {r : Int32 × List UInt8} :
      s.main = .starting →
      hdrLogWriteHeader printSeconds s.output (some (ascii "foobar")) (some timestamp) = some r →
      HiccupStepped z printSeconds s (.start startTimestamp timestamp)
        { s with main := .sleeping none startTimestamp, output := r.2 }
  | sample {inactive : Option ℕ} {startTimestamp : HdrTimespec}
      {g : Recorder HdrHistogram RecordCall Bool} {l : Pc PlainWork RecordCall Bool} :
      s.main = .sleeping inactive startTimestamp →
      step plainCalls (.sampleAndRecycle inactive) s.recorder .idle = some (g, l) →
      HiccupStepped z printSeconds s .sample
        { s with recorder := g, main := .sampling startTimestamp l }
  | sampling {startTimestamp : HdrTimespec} {g : Recorder HdrHistogram RecordCall Bool}
      {l l' : Pc PlainWork RecordCall Bool} :
      s.main = .sampling startTimestamp l →
      step plainCalls .proceed s.recorder l = some (g, l') →
      HiccupStepped z printSeconds s .sampling
        { s with recorder := g, main := .continued startTimestamp l l' }
  | write {inactive : ℕ} {timestamp endTimestamp startTimestamp : HdrTimespec}
      {r : Int32 × List UInt8} :
      s.main = .sampled inactive timestamp →
      hdrLogWrite z printSeconds s.output timestamp endTimestamp (s.recorder.heap inactive) =
        some r →
      HiccupStepped z printSeconds s (.write endTimestamp startTimestamp)
        { s with main := .sleeping (some inactive) startTimestamp, output := r.2 }

theorem hiccupStep_cases {z : Zlib} {printSeconds : HdrTimespec → List UInt8} {s s' : Hiccup}
    {a : HiccupAction} (h : hiccupStep z printSeconds a s = some s') :
    HiccupStepped z printSeconds s a s' := by
  cases a with
  | record t0 t1 =>
      obtain ⟨r, hr, rfl⟩ := Option.map_eq_some_iff.mp h
      exact .record hr
  | recording =>
      obtain ⟨r, hr, rfl⟩ := Option.map_eq_some_iff.mp h
      exact .recording hr
  | start startTimestamp timestamp =>
      cases hm : s.main with
      | starting =>
          rw [hiccupStep, hm] at h
          obtain ⟨r, hr, rfl⟩ := Option.map_eq_some_iff.mp h
          exact .start hm hr
      | _ =>
          rw [hiccupStep, hm] at h
          cases h
  | sample =>
      cases hm : s.main with
      | sleeping inactive startTimestamp =>
          rw [hiccupStep, hm] at h
          obtain ⟨r, hr, rfl⟩ := Option.map_eq_some_iff.mp h
          exact .sample hm hr
      | _ =>
          rw [hiccupStep, hm] at h
          cases h
  | sampling =>
      cases hm : s.main with
      | sampling startTimestamp call =>
          rw [hiccupStep, hm] at h
          obtain ⟨r, hr, rfl⟩ := Option.map_eq_some_iff.mp h
          exact .sampling hm hr
      | _ =>
          rw [hiccupStep, hm] at h
          cases h
  | write endTimestamp startTimestamp =>
      cases hm : s.main with
      | sampled inactive timestamp =>
          rw [hiccupStep, hm] at h
          obtain ⟨r, hr, rfl⟩ := Option.map_eq_some_iff.mp h
          exact .write hm hr
      | _ =>
          rw [hiccupStep, hm] at h
          cases h

inductive HiccupThread where
  | recordHiccups
  | main
deriving DecidableEq

instance HiccupThread.fintype : Fintype HiccupThread where
  elems := {.recordHiccups, .main}
  complete t := by cases t <;> decide

/-- A hiccup is recorded once. -/
def RecordCall.Unit (c : RecordCall) : Prop := ∃ value, c = .recordValuesAtomic value 1

namespace Hiccup

def pc (s : Hiccup) : HiccupThread → Pc PlainWork RecordCall Bool
  | .recordHiccups => s.recordHiccups
  | .main => s.main.call

/-- The recorder under the calls of the two threads. -/
def calls (s : Hiccup) : PlainState HiccupThread :=
  ⟨⟨s.recorder, s.recordHiccups.records⟩, s.pc⟩

/-- One thread only records, and the other only samples. -/
structure Roles (s : Hiccup) : Prop where
  recording : s.recordHiccups.owns = none
  main : s.main.call.records = 0
  recorded : ∀ c ∈ s.recordHiccups.recorded, c.Unit
  exited : ∀ y ∈ s.recorder.exited, y.1.Unit

section Calls
variable {s : Hiccup} {g : Recorder HdrHistogram RecordCall Bool}
  {l : Pc PlainWork RecordCall Bool} {m : HiccupMain} {a : Action RecordCall} {h : HdrHistogram}

theorem calls_recorded : ({ s with recorder := g, recordHiccups := l } : Hiccup).calls =
    s.calls.moved .recordHiccups ⟨g, l.records⟩ l := by
  unfold calls State.moved
  congr 1
  funext t
  cases t <;> rfl

theorem calls_sampled : ({ s with recorder := g, main := m } : Hiccup).calls =
    s.calls.moved .main ⟨g, s.recordHiccups.records⟩ m.call := by
  unfold calls State.moved
  congr 1
  funext t
  cases t <;> rfl

theorem calls_same {output : List UInt8} (hm : m.call = s.main.call) :
    ({ s with main := m, output := output } : Hiccup).calls = s.calls := by
  unfold calls
  congr 1
  funext t
  cases t with
  | recordHiccups => rfl
  | main => exact hm

theorem run_recorded (R : SoleRuns plainCalls h s.calls)
    (hstep : step plainCalls a s.recorder s.recordHiccups = some (g, l)) (hfit : g.EntriesFit) :
    SoleRuns plainCalls h ({ s with recorder := g, recordHiccups := l } : Hiccup).calls := by
  rw [calls_recorded]
  refine Reachable.next R (a := a) ?_ ⟨hfit, l.records_le_one⟩
  change soleStep plainCalls a ⟨s.recorder, s.recordHiccups.records⟩ s.recordHiccups = _
  rw [soleStep, hstep, Option.map_some, Nat.add_sub_cancel_left]

theorem run_sampled (R : SoleRuns plainCalls h s.calls)
    (hstep : step plainCalls a s.recorder s.main.call = some (g, l)) (hm : m.call = l)
    (h0 : s.main.call.records = 0) (hl : l.records = 0) (hfit : g.EntriesFit) :
    SoleRuns plainCalls h ({ s with recorder := g, main := m } : Hiccup).calls := by
  rw [calls_sampled, hm]
  refine Reachable.next R (a := a) ?_ ⟨hfit, s.recordHiccups.records_le_one⟩
  change soleStep plainCalls a ⟨s.recorder, s.recordHiccups.records⟩ s.main.call = _
  rw [soleStep, hstep, Option.map_some, h0, hl, Nat.add_zero, Nat.sub_zero]

end Calls

end Hiccup

section Runs
variable {z : Zlib} {printSeconds : HdrTimespec → List UInt8}
  {scanSeconds : List UInt8 → Option (Option HdrTimespec)} {h : HdrHistogram} {s : Hiccup}

theorem HiccupMain.continued_call {t : HdrTimespec} {l l' : Pc PlainWork RecordCall Bool}
    {g g' : Recorder HdrHistogram RecordCall Bool}
    (h : step plainCalls .proceed g l = some (g', l')) :
    (HiccupMain.continued t l l').call = l' := by
  cases l with
  | returning old =>
      cases h
      rfl
  | _ => rfl

/-- A run of the program is a run of the recorder with one record call at a time. -/
theorem HiccupRuns.calls (run : HiccupRuns z printSeconds scanSeconds h s) :
    SoleRuns plainCalls h s.calls ∧ s.Roles := by
  induction run with
  | init =>
      have hstart : (⟨Recorder.initial h, .idle, .starting, []⟩ : Hiccup).calls =
          ⟨⟨Recorder.initial h, 0⟩, fun _ => .idle⟩ := by
        unfold Hiccup.calls
        congr 1
        funext t
        cases t <;> rfl
      refine ⟨?_, rfl, rfl, nofun, nofun⟩
      rw [hstart]
      exact .start
  | @next s s' a _ hstep _ fits ih =>
      obtain ⟨R, K⟩ := ih
      cases hiccupStep_cases hstep with
      | record hs =>
          obtain ⟨-, howns, hrecorded⟩ := step_record hs
          refine ⟨Hiccup.run_recorded R hs fits.1, howns, K.main, fun c hc => ?_,
            (step_cases hs).exited K.recorded K.exited⟩
          rw [Option.mem_def, hrecorded] at hc
          cases hc
          exact ⟨_, rfl⟩
      | recording hs =>
          obtain ⟨howns, -, hrecorded⟩ := step_proceed hs
          exact ⟨Hiccup.run_recorded R hs fits.1, howns K.recording, K.main,
            fun c hc => K.recorded c (hrecorded c hc), (step_cases hs).exited K.recorded K.exited⟩
      | start hm =>
          rw [Hiccup.calls_same (by rw [hm]; rfl)]
          exact ⟨R, K.recording, rfl, K.recorded, K.exited⟩
      | sample hm hs =>
          obtain ⟨hl, -, hexited, -⟩ := step_sampleAndRecycle hs
          refine ⟨Hiccup.run_sampled R (by rw [hm]; exact hs) rfl K.main hl fits.1, K.recording, hl,
            K.recorded, fun y hy => K.exited y (hexited ▸ hy)⟩
      | @sampling t g l l' hm hs =>
          have hl : l.records = 0 := by
            have hmain := K.main
            rwa [hm] at hmain
          have hcall := HiccupMain.continued_call (t := t) hs
          have hl' := (step_proceed hs).2.1 hl
          refine ⟨Hiccup.run_sampled R (by rw [hm]; exact hs) hcall K.main hl' fits.1, K.recording,
            ?_, K.recorded, fun y hy => K.exited y (((step_cases hs).samples hl).1 ▸ hy)⟩
          rw [hcall]
          exact hl'
      | write hm =>
          rw [Hiccup.calls_same (by rw [hm]; rfl)]
          exact ⟨R, K.recording, rfl, K.recorded, K.exited⟩

end Runs

end HdrHistogramC
