import HdrHistogramC.RecordedIntervals

/-!
# The recorder comes to rest

From every state that a recorder can reach, the calls that are under way can be completed without
any new call. Writers wait for nobody. A flip waits for the writers that entered before it, and
once they have left its next poll succeeds. Sample calls that wait for the mutex follow one another.
-/
namespace HdrHistogramC
open Threads FixedWidth

variable {ι H W C R M : Type} [DecidableEq ι] [AddCancelCommMonoid M] {O : HistogramCalls H W C R}

def Pc.resting : Pc W C R → Bool
  | .idle => true
  | _ => false

theorem Pc.outside_of_resting {l : Pc W C R} (h : l.resting = true) :
    l.phase = none ∧ l.critical = false := by
  cases l <;> first | exact ⟨rfl, rfl⟩ | cases h

/-- In the update of a histogram. -/
def Pc.writing (l : Pc W C R) : Prop := l.phase ≠ none

instance (l : Pc W C R) : Decidable l.writing := inferInstanceAs (Decidable (_ ≠ _))

section Proceed
variable {s : RecorderState ι H W C R} {t : ι} {g : Recorder H C R} {l : Pc W C R}

theorem proceed_entries {g g' : Recorder H C R} {l l' : Pc W C R}
    (h : step O .proceed g l = some (g', l')) (hfit : g.EntriesFit) : g'.EntriesFit := by
  have hs := step_cases h
  cases hs with
  | enter c => cases h
  | exchange => exact Nat.two_pow_pos 63
  | _ => exact hfit

/-- The mutex is taken only by a call in the critical section. -/
def Occupied (s : RecorderState ι H W C R) : Prop :=
  s.shared.phaser.readerMutex = true → ∃ t, (s.pc t).critical = true

theorem Occupied.step (K : Occupied s) (h : Stepped O s.shared (s.pc t) g l) :
    Occupied (s.moved t g l) := by
  have hsame : l.critical = (s.pc t).critical →
      g.phaser.readerMutex = s.shared.phaser.readerMutex → Occupied (s.moved t g l) := by
    intro hc hm htaken
    obtain ⟨u, hu⟩ := K (hm ▸ htaken)
    exact ⟨u, by rwa [view_moved hc]⟩
  generalize hl : s.pc t = l₀ at h hsame
  cases h with
  | lock hm => exact fun _ => ⟨t, by rw [moved_pc_self]; rfl⟩
  | unlock => exact fun htaken => by cases htaken
  | _ => exact hsame rfl (by simp [HdrWriterReaderPhaser.writerEnter])

theorem Runs.occupied {h : H} (run : Runs O h s) : Occupied s :=
  run.invariant (P := Occupied) (fun htaken => by cases htaken) fun _ _ _ _ _ _ K hstep _ =>
    K.step (step_cases hstep)

omit [DecidableEq ι] in
theorem Phased.caught [Fintype ι] (K : Phased s) {old : ℕ} {even : Bool} {v : Int64}
    (hl : s.pc t = .polling old even v) (hquiet : ∀ u, ¬ (s.pc u).writing) :
    s.shared.phaser.polledEpoch even = v := by
  obtain ⟨-, hsum⟩ := K.polled t even v (by rw [hl]; rfl)
  have hnone : writersIn (!even) s.pc = 0 := by
    refine count_eq_zero_iff.mpr fun u hu => hquiet u ?_
    rw [Pc.writing, hu]
    exact Option.some_ne_none _
  rw [hnone] at hsum
  rw [polledEpoch_eq]
  exact Int64.toInt_inj.mp (by omega)

end Proceed

/-- The steps that a writer has left if no other thread moves. The parameter is the number of
operations that an update has left. -/
def Pc.writerLeft (O : HistogramCalls H W C R) (ν : W → H → ℕ) (g : Recorder H C R) : Pc W C R → ℕ
  | .entered _ c => (O.updateAction c (g.heap g.active)).elim
      (fun w => ν w (g.heap g.active)) (fun _ => 0) + 3
  | .updating _ active _ w => ν w (g.heap active) + 2
  | .leaving _ _ _ _ => 1
  | _ => 0

section Writers
variable [Fintype ι] {D : UpdateSpec O M} {h : H} {ν : W → H → ℕ}
  {s : RecorderState ι H W C R} {t : ι}

/-- A writer's next operation is there, and leaves it fewer. -/
theorem writer_step (run : Runs O h s) (hc : D.contains h 0)
    (ends : ∀ c w k k' w', D.valid c (.inl w) → O.operation w k = some (k', .inl w') →
      ν w' k' < ν w k) (hw : (s.pc t).writing) :
    ∃ g l, step O .proceed s.shared (s.pc t) = some (g, l) ∧ (l.writing ∨ l.resting = true) ∧
      l.writerLeft O ν g < (s.pc t).writerLeft O ν s.shared := by
  have K := run.counted hc
  cases hl : s.pc t with
  | entered val c =>
      cases hu : O.updateAction c (s.shared.heap s.shared.active) with
      | inl w =>
          refine ⟨s.shared, .updating val s.shared.active c w, by rw [step, hu],
            .inl (Option.some_ne_none _), ?_⟩
          rw [Pc.writerLeft, Pc.writerLeft, hu, Sum.elim_inl]
          omega
      | inr r =>
          refine ⟨s.shared, .leaving val s.shared.active c r, by rw [step, hu],
            .inl (Option.some_ne_none _), ?_⟩
          rw [Pc.writerLeft, Pc.writerLeft]
          omega
  | updating val p c w =>
      have hp := run.safe.held_lt (t := t) (v := val) (q := p) (by rw [hl]; rfl)
      have hvalid := K.valid t p c (.inl w) (by rw [hl]; rfl)
      obtain ⟨k, r, d, ho, -⟩ := D.operation (K.heap p hp) hvalid
      refine ⟨_, _, by rw [step, ho]; rfl, ?_⟩
      cases r with
      | inl w' =>
          refine ⟨.inl (Option.some_ne_none _), ?_⟩
          have hlt := ends c w _ k w' hvalid ho
          simp only [Pc.writerLeft, Function.update_self]
          omega
      | inr r =>
          refine ⟨.inl (Option.some_ne_none _), ?_⟩
          simp only [Pc.writerLeft]
          omega
  | leaving val p c r => exact ⟨_, _, rfl, .inr rfl, Nat.one_pos⟩
  | _ =>
      rw [hl] at hw
      exact absurd rfl hw

end Writers

/-- The steps that a sample call has left where nobody is in its way. -/
def Pc.readerLeft : Pc W C R → ℕ
  | .locking _ => 9
  | .loading _ => 8
  | .storing _ _ => 7
  | .readingEpoch _ => 6
  | .clearing _ _ => 5
  | .exchanging _ _ => 4
  | .polling _ _ _ => 3
  | .unlocking _ => 2
  | .returning _ => 1
  | _ => 0

section Readers
variable [Fintype ι] {h : H} {s : RecorderState ι H W C R} {t : ι}

/-- Without writers and other readers the next operation of a sample call brings it on. -/
theorem reader_step (run : Runs O h s) (hquiet : ∀ u, ¬ (s.pc u).writing)
    (halone : ∀ u, u ≠ t → (s.pc u).critical = false) (ht : (s.pc t).resting = false) :
    ∃ g l, step O .proceed s.shared (s.pc t) = some (g, l) ∧ ¬ l.writing ∧
      l.readerLeft < (s.pc t).readerLeft := by
  have hnone : ∀ l : Pc W C R, l.phase = none → ¬ l.writing := fun l hp hw => hw hp
  cases hl : s.pc t with
  | idle =>
      rw [hl] at ht
      cases ht
  | locking new =>
      have hfree : s.shared.phaser.readerMutex = false := by
        by_contra htaken
        obtain ⟨u, hu⟩ := run.occupied (by simpa using htaken)
        by_cases hut : u = t
        · rw [hut, hl] at hu
          cases hu
        · rw [halone u hut] at hu
          cases hu
      exact ⟨_, .loading new, by rw [step, hfree]; rfl, hnone _ rfl, Nat.lt_succ_self 8⟩
  | loading new => exact ⟨_, _, rfl, hnone _ rfl, Nat.lt_succ_self 7⟩
  | storing new old => exact ⟨_, _, rfl, hnone _ rfl, Nat.lt_succ_self 6⟩
  | readingEpoch old => exact ⟨_, _, rfl, hnone _ rfl, Nat.lt_succ_self 5⟩
  | clearing old even => exact ⟨_, _, rfl, hnone _ rfl, Nat.lt_succ_self 4⟩
  | exchanging old even => exact ⟨_, _, rfl, hnone _ rfl, Nat.lt_succ_self 3⟩
  | polling old even v =>
      have hcaught := run.safe.phased.caught hl hquiet
      exact ⟨_, .unlocking old, by rw [step, if_pos hcaught], hnone _ rfl, Nat.lt_succ_self 2⟩
  | unlocking old => exact ⟨_, _, rfl, hnone _ rfl, Nat.lt_succ_self 1⟩
  | returning old => exact ⟨_, _, rfl, hnone _ rfl, Nat.one_pos⟩
  | _ =>
      have hw := hquiet t
      rw [hl] at hw
      exact absurd (Option.some_ne_none _) hw

end Readers

section All
variable [Fintype ι] {D : UpdateSpec O M} {h : H} {ν : W → H → ℕ} {s : RecorderState ι H W C R}

/-- The steps of the calls that are under way. -/
def proceed (O : HistogramCalls H W C R) (_ : Unit) : Recorder H C R → Pc W C R →
    Option (Recorder H C R × Pc W C R) :=
  step O .proceed

theorem Runs.proceed (run : Runs O h s) {t : ι} {g : Recorder H C R} {l : Pc W C R}
    (hstep : step O .proceed s.shared (s.pc t) = some (g, l)) :
    g.EntriesFit ∧ Runs O h (s.moved t g l) :=
  have hfit := proceed_entries hstep run.safe.phased.fit
  ⟨hfit, Reachable.next run hstep hfit⟩

theorem writer_rests (run : Runs O h s) (hc : D.contains h 0)
    (ends : ∀ c w k k' w', D.valid c (.inl w) → O.operation w k = some (k', .inl w') →
      ν w' k' < ν w k) {t : ι} (hw : (s.pc t).writing) :
    ∃ s', Reachable (HdrHistogramC.proceed O) Recorder.EntriesFit s s' ∧ Runs O h s' ∧
      (s'.pc t).resting = true ∧ ∀ u, u ≠ t → s'.pc u = s.pc u := by
  have hadvance : Threads.Advances (HdrHistogramC.proceed O) Recorder.EntriesFit
      (fun l => l.resting = true) (fun s : RecorderState ι H W C R =>
        Runs O h s ∧ ((s.pc t).writing ∨ (s.pc t).resting = true))
      (fun g l => l.writerLeft O ν g) t := by
    rintro s ⟨run, hs⟩ hrest
    obtain ⟨g, l, hstep, hl, hlt⟩ := writer_step run hc ends (hs.resolve_right hrest)
    obtain ⟨hfit, run'⟩ := run.proceed hstep
    exact ⟨(), g, l, hstep, hfit, ⟨run', by rwa [moved_pc_self]⟩, hlt⟩
  obtain ⟨s', R, ⟨run', -⟩, hrest, hother⟩ := exists_rest hadvance ⟨run, .inl hw⟩
  exact ⟨s', R, run', hrest, hother⟩

theorem reader_rests (run : Runs O h s) (hquiet : ∀ u, ¬ (s.pc u).writing) {t : ι}
    (halone : ∀ u, u ≠ t → (s.pc u).critical = false) :
    ∃ s', Reachable (HdrHistogramC.proceed O) Recorder.EntriesFit s s' ∧ Runs O h s' ∧
      (s'.pc t).resting = true ∧ ∀ u, u ≠ t → s'.pc u = s.pc u := by
  have hadvance : Threads.Advances (HdrHistogramC.proceed O) Recorder.EntriesFit
      (fun l => l.resting = true) (fun s : RecorderState ι H W C R => Runs O h s ∧
        (∀ u, ¬ (s.pc u).writing) ∧ ∀ u, u ≠ t → (s.pc u).critical = false)
      (fun _ l => l.readerLeft) t := by
    rintro s ⟨run, hquiet, halone⟩ hrest
    obtain ⟨g, l, hstep, hl, hlt⟩ := reader_step run hquiet halone (by simpa using hrest)
    obtain ⟨hfit, run'⟩ := run.proceed hstep
    refine ⟨(), g, l, hstep, hfit, ⟨run', fun u => ?_, fun u hu => ?_⟩, hlt⟩
    · by_cases hu : u = t
      · rwa [hu, moved_pc_self]
      · rw [moved_pc_of_ne hu]
        exact hquiet u
    · rw [moved_pc_of_ne hu]
      exact halone u hu
  obtain ⟨s', R, ⟨run', -⟩, hrest, hother⟩ := exists_rest hadvance ⟨run, hquiet, halone⟩
  exact ⟨s', R, run', hrest, hother⟩

/-- Where updates end, all calls under way can be completed. -/
theorem Runs.completes (run : Runs O h s) (hc : D.contains h 0)
    (ends : ∀ c w k k' w', D.valid c (.inl w) → O.operation w k = some (k', .inl w') →
      ν w' k' < ν w k) :
    ∃ s', Reachable (HdrHistogramC.proceed O) Recorder.EntriesFit s s' ∧ Runs O h s' ∧
      ∀ t, (s'.pc t).resting = true := by
  refine exists_all_rest (p := fun l => l.resting = true) (I := fun s => Runs O h s)
    (fun s run ⟨t, ht⟩ => ?_) run
  by_cases hwriter : ∃ u, (s.pc u).writing
  · obtain ⟨u, hu⟩ := hwriter
    obtain ⟨s', hs'⟩ := writer_rests run hc ends hu
    exact ⟨u, s', fun hrest => hu (Pc.outside_of_resting hrest).1, hs'⟩
  · have hquiet := not_exists.mp hwriter
    by_cases hreader : ∃ u, (s.pc u).critical = true
    · obtain ⟨u, hu⟩ := hreader
      obtain ⟨s', hs'⟩ := reader_rests run hquiet fun v hv => run.safe.locked.other hu hv
      refine ⟨u, s', fun hrest => ?_, hs'⟩
      rw [(Pc.outside_of_resting hrest).2] at hu
      cases hu
    · obtain ⟨s', hs'⟩ := reader_rests run hquiet (t := t) fun v _ =>
        by simpa using not_exists.mp hreader v
      exact ⟨t, s', ht, hs'⟩

end All

section Atomic
variable {l : BucketLayout} {c : RecordCall} {w w' : RecordWork} {k k' : HdrHistogram}

/-- The operations after the last one on the counts. A failed exchange is followed by a load. -/
def RecordPc.rank (h : HdrHistogram) : RecordPc → ℕ
  | .countsAdd _ => 0
  | .totalAdd => 7
  | .loadMin => 5
  | .exchangeMin currentMinValue => if h.minValue = currentMinValue then 4 else 6
  | .loadMax => 2
  | .exchangeMax currentMaxValue => if h.maxValue = currentMaxValue then 1 else 3

/-- A bound on the operations that an update has left if nobody interferes. -/
def RecordWork.operationsLeft (w : RecordWork) (h : HdrHistogram) : ℕ :=
  8 * (w.call.samples.length - w.added.length) + w.pc.rank h

theorem recorded_left (h : w.recorded k = .inl w') :
    w'.operationsLeft k' = 8 * (w.call.samples.length - w.added.length) := by
  unfold RecordWork.recorded at h
  split at h
  · cases h
  · dsimp only at h
    split_ifs at h
    split at h
    · cases h
    · cases h
      rfl

theorem RecordWork.Valid.operationsLeft (V : w.Valid l c) (h : w.operation k = some (k', .inl w')) :
    w'.operationsLeft k' < w.operationsLeft k := by
  have hsamples := congrArg List.length V.samples
  rw [List.length_append, List.length_map, List.length_append, ← V.call] at hsamples
  unfold RecordWork.operation at h
  cases hpc : w.pc with
  | countsAdd i =>
      rw [hpc] at h
      obtain ⟨k₁, -, he⟩ := Option.map_eq_some_iff.mp h
      cases he
      rw [RecordWork.present, hpc, List.length_singleton] at hsamples
      simp only [RecordWork.operationsLeft, RecordPc.rank, hpc, List.length_append,
        List.length_singleton]
      omega
  | totalAdd =>
      rw [hpc] at h
      cases h
      simp only [RecordWork.operationsLeft, RecordPc.rank, hpc]
      omega
  | loadMin =>
      rw [hpc] at h
      dsimp only at h
      split_ifs at h <;> cases h <;>
        simp only [RecordWork.operationsLeft, RecordPc.rank, hpc, if_true] <;> omega
  | exchangeMin cur =>
      rw [hpc] at h
      dsimp only at h
      split_ifs at h with hcur <;> cases h <;>
        simp only [RecordWork.operationsLeft, RecordPc.rank, hpc, hcur, if_true, if_false] <;> omega
  | loadMax =>
      rw [hpc] at h
      dsimp only at h
      split_ifs at h
      · obtain ⟨rfl, hr⟩ := Prod.mk.inj (Option.some.inj h)
        rw [recorded_left hr, RecordWork.operationsLeft, hpc, RecordPc.rank]
        omega
      · cases h
        simp only [RecordWork.operationsLeft, RecordPc.rank, hpc, if_true]
        omega
  | exchangeMax cur =>
      rw [hpc] at h
      dsimp only at h
      split_ifs at h with hcur
      · obtain ⟨-, hr⟩ := Prod.mk.inj (Option.some.inj h)
        rw [recorded_left hr, RecordWork.operationsLeft, hpc, RecordPc.rank, if_pos hcur]
        omega
      · cases h
        simp only [RecordWork.operationsLeft, RecordPc.rank, hpc, hcur, if_false]
        omega

/-- No interleaving leads the recorder into a state in which a call cannot be completed: without
new calls, all that are under way come to an end. -/
theorem recorder_completes [Fintype ι] {lowest highest : Int64} {figures : Int32}
    {h₀ : HdrHistogram} {s : AtomicState ι}
    (init : hdrInit lowest highest figures = some (.ok h₀)) (run : Runs atomicCalls h₀ s) :
    ∃ s', Reachable (proceed atomicCalls) Recorder.EntriesFit s s' ∧ Runs atomicCalls h₀ s' ∧
      ∀ t, s'.pc t = .idle := by
  have R := represents_hdrInit init
  have hempty : HoldsSamples h₀.toBucketLayout h₀ 0 := ⟨rfl, R.offset, R.counts⟩
  have ends : ∀ c w k k' w', (recordingSpec R.accepted).valid c (.inl w) →
      atomicCalls.operation w k = some (k', .inl w') → w'.operationsLeft k' < w.operationsLeft k :=
    fun c w k k' w' V ho => V.operationsLeft ho
  obtain ⟨s', hreach, run', hrest⟩ := run.completes hempty ends
  refine ⟨s', hreach, run', fun t => ?_⟩
  have ht := hrest t
  cases hl : s'.pc t with
  | idle => rfl
  | _ =>
      rw [hl] at ht
      cases ht

/-- A writer inside, and a flip that waits for it. -/
def waitingSchedule : List (Fin 2 × Action RecordCall) :=
  [(0, .record (.recordCorrectedValuesAtomic 90 1 30)), (0, .proceed),
    (1, .sampleAndRecycle none)] ++ List.replicate 8 (1, .proceed)

theorem recorder_completes_sample : ∃ s s' : AtomicState (Fin 2),
    (s.pc 0).writing ∧ (s.pc 1).polls ≠ none ∧
      Reachable (proceed atomicCalls) Recorder.EntriesFit s s' ∧
        Runs atomicCalls sampleHistogram s' ∧ ∀ t, s'.pc t = .idle := by
  have hrun : (schedule (step atomicCalls) Recorder.EntriesFit waitingSchedule
      (RecorderState.initial sampleHistogram)).map
        (fun s => decide ((s.pc 0).writing ∧ (s.pc 1).polls ≠ none)) = some true := by
    decide +kernel
  obtain ⟨s, hs, he⟩ := Option.map_eq_some_iff.mp hrun
  obtain ⟨hwriting, hpolls⟩ := of_decide_eq_true he
  obtain ⟨s', hs'⟩ := recorder_completes sampleHistogram_init (Reachable.start.schedule hs)
  exact ⟨s, s', hwriting, hpolls, hs'⟩

end Atomic

end HdrHistogramC
