import HdrHistogramC.RecordedIntervals

/-!
# Sampling into the other histogram

`hdr_interval_recorder_sample` keeps the histogram that it returns, and recycles it in its next
call. It is not made for calls that overlap. Where they do not, the recorder has two histograms at
most, and takes the steps of the recorder that is told what to recycle.
-/
namespace HdrHistogramC
open Threads

/-- The recorder with its field `inactive`, and the number of sample calls that are under way. -/
structure SampledRecorder (H C R : Type) where
  recorder : Recorder H C R
  inactive : Option ℕ
  sampling : ℕ

inductive SampledAction (C : Type) where
  | record (c : C)
  | sample
  | proceed

variable {H W C R : Type}

/-- The histogram that `hdr_interval_recorder_sample_and_recycle` returns with this step. -/
def Pc.returned : Pc W C R → Option ℕ
  | .returning old => some old
  | _ => none

/-- The histogram that is returned is stored in `inactive`. -/
def SampledRecorder.proceeded (g : SampledRecorder H C R) (recorder : Recorder H C R) :
    Option ℕ → SampledRecorder H C R
  | none => { g with recorder := recorder }
  | some old => ⟨recorder, some old, g.sampling - 1⟩

def sampledStep (O : HistogramCalls H W C R) : SampledAction C → SampledRecorder H C R →
    Pc W C R → Option (SampledRecorder H C R × Pc W C R)
  | .record c, g, l => (step O (.record c) g.recorder l).map fun r =>
      ({ g with recorder := r.1 }, r.2)
  | .sample, g, l => (step O (.sampleAndRecycle g.inactive) g.recorder l).map fun r =>
      ({ g with recorder := r.1, sampling := g.sampling + 1 }, r.2)
  | .proceed, g, l => (step O .proceed g.recorder l).map fun r =>
      (g.proceeded r.1 l.returned, r.2)

/-- `hdr_interval_recorder_init_all`, where the mutex can be made. -/
def hdrIntervalRecorderInitAll (lowest highest : Int64) (figures : Int32) :
    Option (Except Int32 (SampledRecorder HdrHistogram C R)) :=
  (hdrInit lowest highest figures).map fun r => r.map fun h => ⟨Recorder.initial h, none, 0⟩

/-- The histograms that `hdr_interval_recorder_destroy` closes. -/
def SampledRecorder.destroyed (g : SampledRecorder H C R) : List ℕ :=
  g.recorder.active :: g.inactive.toList

/-- Runs with fewer than `2^63` writer entries in every phase, and one sample call at a time. -/
def SampledRecorder.Apart (g : SampledRecorder H C R) : Prop :=
  g.recorder.EntriesFit ∧ g.sampling ≤ 1

instance (g : SampledRecorder H C R) : Decidable g.Apart := inferInstanceAs (Decidable (_ ∧ _))

abbrev SampledState (ι H W C R : Type) := State ι (SampledRecorder H C R) (Pc W C R)

/-- The states of a recorder under any interleaving of its calls. -/
def SampledRuns {ι : Type} [DecidableEq ι] (O : HistogramCalls H W C R)
    (g : SampledRecorder H C R) (s : SampledState ι H W C R) : Prop :=
  Reachable (sampledStep O) SampledRecorder.Apart ⟨g, fun _ => .idle⟩ s

variable {ι : Type} [DecidableEq ι] {O : HistogramCalls H W C R}

/-- A sample call starts with a new histogram or with the inactive one, and ends with the return
of another. No other step has to do with the two. -/
inductive SampledStepped (O : HistogramCalls H W C R) (g : SampledRecorder H C R) :
    Pc W C R → SampledRecorder H C R → Pc W C R → Prop
  | allocate {r : Recorder H C R} : g.inactive = none → r.obtained = g.recorder.obtained →
      r.allocated = g.recorder.allocated + 1 → SampledStepped O g .idle
        ⟨r, g.inactive, g.sampling + 1⟩ (.locking g.recorder.allocated)
  | recycle {r : Recorder H C R} {x : ℕ} : g.inactive = some x →
      r.obtained = g.recorder.obtained.erase x → r.allocated = g.recorder.allocated →
        SampledStepped O g .idle ⟨r, g.inactive, g.sampling + 1⟩ (.locking x)
  | handOver {old : ℕ} : SampledStepped O g (.returning old)
      ⟨{ g.recorder with
          obtained := insert old g.recorder.obtained
          live := g.recorder.live.erase old
          samples := g.recorder.samples ++
            [(g.recorder.heap old, g.recorder.left old)] },
        some old, g.sampling - 1⟩ .idle
  | other {r : Recorder H C R} {l l' : Pc W C R} : Stepped O g.recorder l r l' →
      l'.owns.isSome = l.owns.isSome → r.obtained = g.recorder.obtained →
        r.allocated = g.recorder.allocated → r.samples = g.recorder.samples →
          SampledStepped O g l { g with recorder := r } l'

theorem sampledStep_cases {a : SampledAction C} {g g' : SampledRecorder H C R} {l l' : Pc W C R}
    (h : sampledStep O a g l = some (g', l')) : SampledStepped O g l g' l' := by
  cases a with
  | record c =>
      obtain ⟨⟨r, l₁⟩, hstep, he⟩ := Option.map_eq_some_iff.mp h
      cases he
      cases l with
      | idle =>
          have hs := step_cases hstep
          cases hstep
          exact .other hs rfl rfl rfl rfl
      | _ => cases hstep
  | sample =>
      obtain ⟨⟨r, l₁⟩, hstep, he⟩ := Option.map_eq_some_iff.mp h
      cases he
      cases l with
      | idle =>
          cases hi : g.inactive with
          | none =>
              rw [hi] at hstep
              obtain ⟨x, hx, he⟩ := Option.map_eq_some_iff.mp hstep
              cases he
              rw [← hi]
              exact .allocate hi rfl rfl
          | some x =>
              rw [hi, step] at hstep
              split_ifs at hstep
              cases hstep
              rw [← hi]
              exact .recycle hi rfl rfl
      | _ =>
          cases hi : g.inactive <;> rw [hi] at hstep <;> cases hstep
  | proceed =>
      obtain ⟨⟨r, l₁⟩, hstep, he⟩ := Option.map_eq_some_iff.mp h
      cases he
      have hs := step_cases hstep
      cases l with
      | idle => cases hstep
      | returning old =>
          cases hstep
          exact .handOver
      | _ =>
          have hstepped := hs
          cases hs
          all_goals exact .other hstepped rfl rfl rfl rfl

theorem SampledRuns.recorder {h : H} {s : SampledState ι H W C R}
    (run : SampledRuns O ⟨Recorder.initial h, none, 0⟩ s) :
    Runs O h (s.view SampledRecorder.recorder) := by
  refine run.view SampledRecorder.recorder (fun a g l g' l' hstep => ?_) fun g hg => hg.1
  cases a with
  | record c =>
      obtain ⟨r, hr, he⟩ := Option.map_eq_some_iff.mp hstep
      cases he
      exact ⟨.record c, hr⟩
  | sample =>
      obtain ⟨r, hr, he⟩ := Option.map_eq_some_iff.mp hstep
      cases he
      exact ⟨.sampleAndRecycle g.inactive, hr⟩
  | proceed =>
      obtain ⟨r, hr, he⟩ := Option.map_eq_some_iff.mp hstep
      cases he
      refine ⟨.proceed, ?_⟩
      cases l <;> exact hr

section Buffered
variable [Fintype ι] {s : SampledState ι H W C R} {t : ι} {g : SampledRecorder H C R}
  {l : Pc W C R}

/-- Between two sample calls the inactive histogram is the last sample; within one it is in the
hands of the call. -/
structure Buffered (s : SampledState ι H W C R) : Prop where
  sampling : s.shared.sampling = count (fun l => l.owns.isSome) s.pc
  one : s.shared.sampling ≤ 1
  between : s.shared.sampling = 0 →
    (s.shared.inactive = none ∧ s.shared.recorder.obtained = ∅ ∧
      s.shared.recorder.allocated = 1) ∨
    ∃ x m, s.shared.inactive = some x ∧ s.shared.recorder.obtained = {x} ∧
      s.shared.recorder.allocated = 2 ∧
        s.shared.recorder.samples.getLast? = some (s.shared.recorder.heap x, m)
  within : s.shared.sampling ≠ 0 →
    s.shared.recorder.obtained = ∅ ∧ s.shared.recorder.allocated = 2

omit [DecidableEq ι] in
theorem Buffered.initial (h : H) :
    Buffered (⟨⟨Recorder.initial h, none, 0⟩, fun _ => .idle⟩ : SampledState ι H W C R) where
  sampling := (count_eq_zero_iff.mpr fun _ => by simp [Pc.owns]).symm
  one := Nat.zero_le 1
  between _ := .inl ⟨rfl, rfl, rfl⟩
  within h := absurd rfl h

theorem Buffered.begin (K : Buffered s) (hl : (s.pc t).owns.isSome = false)
    (hl' : l.owns.isSome = true) (hsampling : g.sampling = s.shared.sampling + 1)
    (ho : g.recorder.obtained = ∅) (ha : g.recorder.allocated = 2) (hg : g.Apart) :
    Buffered (s.moved t g l) where
  sampling := by
    have hcount : count (fun l => l.owns.isSome) (Function.update s.pc t l) = _ :=
      count_update_enter hl' (by rw [hl]; decide)
    rw [moved_shared, hsampling, K.sampling]
    exact hcount.symm
  one := hg.2
  between h := by
    rw [moved_shared, hsampling] at h
    omega
  within _ := ⟨ho, ha⟩

theorem Buffered.finish (K : Buffered s) {old : ℕ} (hl : s.pc t = .returning old)
    {m : Multiset (C × R)} (hsampling : g.sampling = s.shared.sampling - 1)
    (hi : g.inactive = some old) (ho : g.recorder.obtained = insert old s.shared.recorder.obtained)
    (ha : g.recorder.allocated = s.shared.recorder.allocated)
    (hlast : g.recorder.samples.getLast? = some (g.recorder.heap old, m)) :
    Buffered (s.moved t g .idle) := by
  have hcount : count (fun l => l.owns.isSome) (Function.update s.pc t .idle) + 1 = _ :=
    count_update_leave (by simp [Pc.owns]) (by rw [hl]; rfl)
  rw [← K.sampling] at hcount
  have hone := K.one
  obtain ⟨hobtained, hallocated⟩ := K.within (by omega)
  refine ⟨?_, ?_, fun _ => .inr ⟨old, m, hi, ?_, ha.trans hallocated, hlast⟩, fun h => ?_⟩
  · rw [moved_shared, hsampling]
    exact (Nat.sub_eq_of_eq_add hcount.symm)
  · rw [moved_shared]
    omega
  · rw [moved_shared, ho, hobtained, insert_empty_eq]
  · rw [moved_shared] at h
    omega

theorem Buffered.step (K : Buffered s) (S : Safe (s.view SampledRecorder.recorder))
    (h : SampledStepped O s.shared (s.pc t) g l) (hg : g.Apart) : Buffered (s.moved t g l) := by
  have hone := hg.2
  generalize hl : s.pc t = l₀ at h
  cases h with
  | allocate hi ho ha =>
      have h0 : s.shared.sampling = 0 := Nat.le_zero.mp (Nat.le_of_succ_le_succ hone)
      rcases K.between h0 with ⟨-, ho', ha'⟩ | ⟨x, m, hx, -⟩
      · exact K.begin (by rw [hl]; rfl) rfl rfl (ho.trans ho') (ha.trans (by rw [ha'])) hg
      · rw [hi] at hx
        cases hx
  | @recycle r x hi ho ha =>
      have h0 : s.shared.sampling = 0 := Nat.le_zero.mp (Nat.le_of_succ_le_succ hone)
      rcases K.between h0 with ⟨hnone, -⟩ | ⟨y, m, hy, ho', ha', -⟩
      · rw [hi] at hnone
        cases hnone
      · obtain rfl : y = x := Option.some.inj (hy.symm.trans hi)
        refine K.begin (by rw [hl]; rfl) rfl rfl (ho.trans ?_) (ha.trans ha') hg
        rw [ho', Finset.erase_singleton]
  | handOver => exact K.finish hl rfl rfl rfl rfl List.getLast?_concat
  | @other r l₀ l hstep howns ho ha hsamples =>
      have hcount : count (fun l => l.owns.isSome) (Function.update s.pc t l) = _ :=
        count_update_same (by rw [hl, howns])
      refine ⟨K.sampling.trans hcount.symm, K.one, fun h0 => ?_, fun h0 => ?_⟩
      · rcases K.between h0 with ⟨hi, ho', ha'⟩ | ⟨x, m, hi, ho', ha', hlast⟩
        · exact .inl ⟨hi, ho.trans ho', ha.trans ha'⟩
        · have hx : x ∈ s.shared.recorder.obtained := ho' ▸ Finset.mem_singleton_self x
          have hsame : r.heap x = s.shared.recorder.heap x := by
            refine S.untouched (O := O) (t := t) (l := l) ?_ hx (ho ▸ hx)
            rwa [show (s.view SampledRecorder.recorder).pc t = l₀ from hl]
          refine .inr ⟨x, m, hi, ho.trans ho', ha.trans ha', ?_⟩
          exact (congrArg List.getLast? hsamples).trans (hlast.trans (by rw [← hsame]; rfl))
      · obtain ⟨ho', ha'⟩ := K.within h0
        exact ⟨ho.trans ho', ha.trans ha'⟩

theorem SampledRuns.buffered {h : H} (run : SampledRuns O ⟨Recorder.initial h, none, 0⟩ s) :
    Buffered s :=
  run.invariant (Buffered.initial h) fun _ _ _ _ _ before K hstep hg =>
    K.step (SampledRuns.recorder before).safe (sampledStep_cases hstep) hg

end Buffered

abbrev SampledAtomicState (ι : Type) := SampledState ι HdrHistogram RecordWork RecordCall Bool

/-- What holds in a reachable state of a recorder that is sampled by one call at a time. There are
two histograms at most, and between the calls each of them is closed once when the recorder is
destroyed. The inactive one is then the last sample: it holds the calls of its interval and no
writer is in it. The next call can always be made. -/
structure TwoHistograms (l : BucketLayout) (s : SampledAtomicState ι) : Prop where
  allocated : s.shared.recorder.allocated ≤ 2
  destroyed : s.shared.sampling = 0 → s.shared.destroyed.Nodup ∧
    ∀ q, q ∈ s.shared.destroyed ↔ q < s.shared.recorder.allocated
  inactive : s.shared.sampling = 0 → ∀ x ∈ s.shared.inactive,
    Exclusive (s.view SampledRecorder.recorder) x ∧
      ∃ m, s.shared.recorder.samples.getLast? = some (s.shared.recorder.heap x, m) ∧
        HoldsSamples l (s.shared.recorder.heap x) (recordsOf m)
  starts : s.shared.sampling = 0 → ∃ r, sampledStep atomicCalls .sample s.shared .idle = some r

section Guarantees
variable [Fintype ι] {s : SampledAtomicState ι}

omit [DecidableEq ι] in
theorem Buffered.destroyed (K : Buffered s) (S : Safe (s.view SampledRecorder.recorder))
    (h0 : s.shared.sampling = 0) : s.shared.destroyed.Nodup ∧
      ∀ q, q ∈ s.shared.destroyed ↔ q < s.shared.recorder.allocated := by
  have hactive : s.shared.recorder.active < s.shared.recorder.allocated := S.owned.active_lt
  rcases K.between h0 with ⟨hi, -, ha⟩ | ⟨x, m, hi, ho, ha, -⟩
  · rw [SampledRecorder.destroyed, hi]
    refine ⟨List.nodup_singleton _, fun q => ?_⟩
    rw [Option.toList_none, List.mem_singleton]
    omega
  · have hx : x ∈ s.shared.recorder.obtained := ho ▸ Finset.mem_singleton_self x
    have hlt : x < s.shared.recorder.allocated := S.owned.obtained_lt x hx
    have hne : x ≠ s.shared.recorder.active := (S.exclusive_obtained hx).1
    rw [SampledRecorder.destroyed, hi, Option.toList_some]
    refine ⟨List.nodup_cons.mpr ⟨fun h => hne (List.mem_singleton.mp h).symm,
      List.nodup_singleton x⟩, fun q => ?_⟩
    rw [List.mem_pair]
    omega

/-- A recorder that is sampled by one call at a time alternates between two histograms, and is a
recorder that is told what to recycle. -/
theorem sample_twoHistograms {lowest highest : Int64} {figures : Int32}
    {g : SampledRecorder HdrHistogram RecordCall Bool}
    (init : hdrIntervalRecorderInitAll lowest highest figures = some (.ok g))
    (run : SampledRuns atomicCalls g s) :
    ∃ h₀, hdrInit lowest highest figures = some (.ok h₀) ∧
      Runs atomicCalls h₀ (s.view SampledRecorder.recorder) ∧
        TwoHistograms h₀.toBucketLayout s := by
  obtain ⟨r, hinit, hr⟩ := Option.map_eq_some_iff.mp init
  cases r with
  | error e => cases hr
  | ok h₀ =>
      cases hr
      have R := represents_hdrInit hinit
      have hempty : HoldsSamples h₀.toBucketLayout h₀ 0 := ⟨rfl, R.offset, R.counts⟩
      have recorder := SampledRuns.recorder run
      have K : Counted (recordingSpec R.accepted) _ := recorder.counted hempty
      have B := run.buffered
      have S := recorder.safe
      refine ⟨h₀, hinit, recorder, ?_, B.destroyed S, fun h0 x hx => ?_, fun h0 => ?_⟩
      · by_cases h0 : s.shared.sampling = 0
        · rcases B.between h0 with ⟨-, -, ha⟩ | ⟨-, -, -, -, ha, -⟩ <;> omega
        · exact (B.within h0).2.le
      · rcases B.between h0 with ⟨hi, -⟩ | ⟨y, m, hi, ho, -, hlast⟩
        · rw [hi] at hx
          cases hx
        · obtain rfl : y = x := Option.some.inj (hi.symm.trans hx)
          exact ⟨S.exclusive_obtained (ho ▸ Finset.mem_singleton_self y), m, hlast,
            K.samples _ (List.mem_of_getLast? hlast)⟩
      · rcases B.between h0 with ⟨hi, -⟩ | ⟨x, m, hi, ho, -⟩
        · obtain ⟨r, hr⟩ := recorder.allocates (D := recordingSpec R.accepted) hempty
          exact ⟨_, by rw [sampledStep, hi]; exact congrArg _ hr⟩
        · have hx : x ∈ s.shared.recorder.obtained := ho ▸ Finset.mem_singleton_self x
          exact ⟨_, by rw [sampledStep, hi, step, if_pos hx]; rfl⟩

end Guarantees

/-- Two samples, with records before, between and after them. -/
def sampledSchedule : List (Fin 2 × SampledAction RecordCall) :=
  [(0, .record (.recordValuesAtomic 77 3))] ++ List.replicate 8 (0, .proceed) ++
    [(1, .sample)] ++ List.replicate 9 (1, .proceed) ++
    [(0, .record (.recordValuesAtomic 12 1))] ++ List.replicate 8 (0, .proceed) ++
    [(1, .sample)] ++ List.replicate 9 (1, .proceed)

theorem sample_twoHistograms_sample : ∃ s : SampledAtomicState (Fin 2),
    s.shared.recorder.samples.length = 2 ∧ s.shared.inactive = some 1 ∧
      TwoHistograms sampleHistogram.toBucketLayout s := by
  have hinit : hdrIntervalRecorderInitAll 1 100 1 = some (.ok
      (⟨Recorder.initial sampleHistogram, none, 0⟩ :
        SampledRecorder HdrHistogram RecordCall Bool)) := by
    rw [hdrIntervalRecorderInitAll, sampleHistogram_init]
    rfl
  have hrun : (schedule (sampledStep atomicCalls) SampledRecorder.Apart sampledSchedule
      ⟨⟨Recorder.initial sampleHistogram, none, 0⟩, fun _ => .idle⟩).map
        (fun s => (s.shared.recorder.samples.length, s.shared.inactive)) = some (2, some 1) := by
    decide +kernel
  obtain ⟨s, hs, he⟩ := Option.map_eq_some_iff.mp hrun
  obtain ⟨h₀, hinit₀, -, T⟩ := sample_twoHistograms hinit (Reachable.start.schedule hs)
  rw [sampleHistogram_init] at hinit₀
  cases hinit₀
  exact ⟨s, (Prod.mk.inj he).1, (Prod.mk.inj he).2, T⟩

end HdrHistogramC
