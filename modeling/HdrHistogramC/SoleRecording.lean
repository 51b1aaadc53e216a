import HdrHistogramC.IntervalConservation

/-!
# One record call at a time

A recording function that is not atomic reads and writes its histogram in many steps, and counts on
no other writer. Where record calls do not overlap, a run of the recorder is one of a recorder whose
updates take a single step. The sample calls that come in between meet the histogram of the writer
only in its configuration.
-/
namespace HdrHistogramC
open Threads

/-- The recorder, and the number of record calls that are under way. -/
structure SoleRecorder (H C R : Type) where
  recorder : Recorder H C R
  recording : ℕ

variable {H W C R : Type}

def Pc.records : Pc W C R → ℕ
  | .entered _ _ | .updating _ _ _ _ | .leaving _ _ _ _ => 1
  | _ => 0

def soleStep (O : HistogramCalls H W C R) (a : Action C) (g : SoleRecorder H C R) (l : Pc W C R) :
    Option (SoleRecorder H C R × Pc W C R) :=
  (step O a g.recorder l).map fun r => (⟨r.1, g.recording + r.2.records - l.records⟩, r.2)

/-- Runs with fewer than `2^63` writer entries in every phase, and one record call at a time. -/
def SoleRecorder.Apart (g : SoleRecorder H C R) : Prop :=
  g.recorder.EntriesFit ∧ g.recording ≤ 1

instance SoleRecorder.decidableApart (g : SoleRecorder H C R) : Decidable g.Apart :=
  inferInstanceAs (Decidable (_ ∧ _))

abbrev SoleState (ι H W C R : Type) := State ι (SoleRecorder H C R) (Pc W C R)

/-- The states of a recorder under any interleaving of its calls. -/
def SoleRuns {ι : Type} [DecidableEq ι] (O : HistogramCalls H W C R) (h : H)
    (s : SoleState ι H W C R) : Prop :=
  Reachable (soleStep O) SoleRecorder.Apart ⟨⟨Recorder.initial h, 0⟩, fun _ => .idle⟩ s

section Runs
variable {ι : Type} [DecidableEq ι] {O : HistogramCalls H W C R} {h : H} {s : SoleState ι H W C R}

theorem soleStep_cases {a : Action C} {g g' : SoleRecorder H C R} {l l' : Pc W C R}
    (h : soleStep O a g l = some (g', l')) : step O a g.recorder l = some (g'.recorder, l') ∧
      g'.recording = g.recording + l'.records - l.records := by
  obtain ⟨⟨r, l₁⟩, hstep, he⟩ := Option.map_eq_some_iff.mp h
  cases he
  exact ⟨hstep, rfl⟩

theorem SoleRuns.recorder (run : SoleRuns O h s) : Runs O h (s.view SoleRecorder.recorder) :=
  run.view SoleRecorder.recorder (fun a _ _ _ _ hstep => ⟨a, (soleStep_cases hstep).1⟩)
    fun _ hg => hg.1

variable [Fintype ι]

theorem SoleRuns.recording (run : SoleRuns O h s) :
    s.shared.recording = total Pc.records s.pc ∧ s.shared.recording ≤ 1 := by
  refine Reachable.invariant (P := fun s : SoleState ι H W C R =>
    s.shared.recording = total Pc.records s.pc ∧ s.shared.recording ≤ 1) run
    ⟨(total_eq_zero fun _ => rfl).symm, Nat.zero_le 1⟩ fun s t a g l _ K hstep hg => ⟨?_, hg.2⟩
  have htotal := total_update Pc.records s.pc t l
  rw [moved_shared, (soleStep_cases hstep).2, K.1, State.moved]
  dsimp only
  omega

theorem SoleRuns.sole (run : SoleRuns O h s) {t u : ι} (ht : (s.pc t).records = 1)
    (hu : (s.pc u).records = 1) : t = u := by
  obtain ⟨htotal, hone⟩ := run.recording
  exact eq_of_total_le_one (htotal ▸ hone) ht hu

end Runs

/-- The operations of an update from `r` on end with this result, where nothing comes between. -/
inductive Ends (operation : W → H → Option (H × (W ⊕ R))) : W ⊕ R → H → R × H → Prop
  | done (r : R) (h : H) : Ends operation (.inr r) h (r, h)
  | next {w : W} {h h' : H} {r : W ⊕ R} {x : R × H} : operation w h = some (h', r) →
      Ends operation r h' x → Ends operation (.inl w) h x

theorem Ends.step {operation : W → H → Option (H × (W ⊕ R))} {w : W} {h h' : H} {r : W ⊕ R}
    {x : R × H} (E : Ends operation (.inl w) h x) (ho : operation w h = some (h', r)) :
    Ends operation r h' x := by
  cases E with
  | next ho' E =>
      rw [ho] at ho'
      cases ho'
      exact E

theorem Ends.result {operation : W → H → Option (H × (W ⊕ R))} {r : R} {h : H} {x : R × H}
    (E : Ends operation (.inr r) h x) : x = (r, h) := by
  cases E
  rfl

/-- The calls with `run` for their update. -/
def HistogramCalls.whole (O : HistogramCalls H W C R) (run : H → C → Option (R × H)) :
    HistogramCalls H C C R where
  updateAction c _ := .inl c
  operation c h := (run h c).map fun r => (r.2, .inr r.1)
  init := O.init
  reset := O.reset

/-- The function `run` is the update without interruption, and an update keeps what a new histogram
is made from. -/
structure Sequential (O : HistogramCalls H W C R) (run : H → C → Option (R × H)) : Prop where
  ends : ∀ h c x, run h c = some x → Ends O.operation (O.updateAction c h) h x
  init : ∀ w h h' r, O.operation w h = some (h', r) → O.init h' = O.init h

/-- An update that is under way has not begun. -/
def Pc.whole : Pc W C R → Pc C C R
  | .idle => .idle
  | .entered val c => .entered val c
  | .updating val active c _ => .updating val active c c
  | .leaving val active c r => .leaving val active c r
  | .locking new => .locking new
  | .loading new => .loading new
  | .storing new old => .storing new old
  | .readingEpoch old => .readingEpoch old
  | .clearing old even => .clearing old even
  | .exchanging old even => .exchanging old even
  | .polling old even v => .polling old even v
  | .unlocking old => .unlocking old
  | .returning old => .returning old

/-- The histogram that is being written. -/
def Pc.writes : Pc W C R → Option ℕ
  | .updating _ active _ _ => some active
  | _ => none

section Simulation
variable {ι : Type} [DecidableEq ι] {O : HistogramCalls H W C R} {run : H → C → Option (R × H)}
  {h : H} {s : SoleState ι H W C R} {t : ι} {g : SoleRecorder H C R} {l : Pc W C R}
  {heap : ℕ → H}

/-- The state with `heap` for its histograms. -/
def wholeState (s : SoleState ι H W C R) (heap : ℕ → H) : RecorderState ι H C C R :=
  ⟨{ s.shared.recorder with heap := heap }, fun t => (s.pc t).whole⟩

/-- The histograms `heap` are those of the state without the update under way, which will do there
what `run` does at once. -/
structure Withheld (O : HistogramCalls H W C R) (run : H → C → Option (R × H))
    (s : SoleState ι H W C R) (heap : ℕ → H) : Prop where
  same : ∀ q, (∀ t, (s.pc t).writes ≠ some q) → heap q = s.shared.recorder.heap q
  init : ∀ q, O.init (heap q) = O.init (s.shared.recorder.heap q)
  ends : ∀ t val q c w, s.pc t = .updating val q c w → ∀ x, run (heap q) c = some x →
    Ends O.operation (.inl w) (s.shared.recorder.heap q) x

theorem whole_moved (heap' : ℕ → H) : wholeState (s.moved t g l) heap' =
    (wholeState s heap).moved t { g.recorder with heap := heap' } l.whole := by
  unfold wholeState State.moved
  congr 1
  exact funext fun u => Function.apply_update (fun _ => Pc.whole) s.pc t l u

/-- No step of the recorder with whole updates. -/
theorem Runs.stutter (R : Runs (O.whole run) h (wholeState s heap))
    (hl : l.whole = (s.pc t).whole)
    (hg : { g.recorder with heap := heap } = { s.shared.recorder with heap := heap }) :
    Runs (O.whole run) h (wholeState (s.moved t g l) heap) := by
  have hmoved : _ = (wholeState s heap).moved t _ _ := whole_moved (g := g) (l := l) heap
  rw [hmoved, hg, hl]
  exact (moved_eq_self (s := wholeState s heap) (t := t)).symm ▸ R

/-- The same step of the recorder with whole updates. -/
theorem Runs.follow {heap' : ℕ → H} {a : Action C} (R : Runs (O.whole run) h (wholeState s heap))
    (hstep : HdrHistogramC.step (O.whole run) a { s.shared.recorder with heap := heap }
      (s.pc t).whole = some ({ g.recorder with heap := heap' }, l.whole))
    (hfit : g.recorder.EntriesFit) : Runs (O.whole run) h (wholeState (s.moved t g l) heap') := by
  rw [whole_moved]
  exact R.next hstep hfit

theorem Runs.refused {val : Int64} {c : C} {r : R} (K : Runs (O.whole run) h (wholeState s heap))
    (hl : (s.pc t).whole = .entered val c)
    (hrun : run (heap s.shared.recorder.active) c = some (r, heap s.shared.recorder.active))
    (hg : g.recorder = s.shared.recorder) (hfit : g.recorder.EntriesFit) : Runs (O.whole run) h
      (wholeState (s.moved t g (.leaving val s.shared.recorder.active c r)) heap) := by
  have hload : HdrHistogramC.step (O.whole run) .proceed (wholeState s heap).shared
      ((wholeState s heap).pc t) = some ((wholeState s heap).shared,
        .updating val s.shared.recorder.active c c) := by
    rw [show (wholeState s heap).pc t = .entered val c from hl]
    rfl
  have hrefuse : HdrHistogramC.step (O.whole run) .proceed (wholeState s heap).shared
      (.updating val s.shared.recorder.active c c) = some ((wholeState s heap).shared,
        .leaving val s.shared.recorder.active c r) := by
    have ho : (O.whole run).operation c ((wholeState s heap).shared.heap s.shared.recorder.active) =
        some ((wholeState s heap).shared.heap s.shared.recorder.active, .inr r) := by
      simp only [HistogramCalls.whole, wholeState, hrun, Option.map_some]
    simp only [HdrHistogramC.step, ho, Option.map_some, updateStep, Function.update_eq_self]
  have hfit' : (wholeState s heap).shared.EntriesFit := by
    rw [hg] at hfit
    exact hfit
  have hleft := (Reachable.next K hload hfit').next (t := t)
    (by rw [moved_pc_self]; exact hrefuse) hfit'
  rw [moved_moved] at hleft
  rw [whole_moved, hg]
  exact hleft

theorem Pc.records_of_writes {q : ℕ} (h : l.writes = some q) : l.records = 1 := by
  cases l <;> cases h
  rfl

theorem Pc.holds_of_writes {q : ℕ} (h : l.writes = some q) : ∃ v, l.holds = some (v, q) := by
  cases l <;> cases h
  exact ⟨_, rfl⟩

theorem Withheld.quiet (K : Withheld O run s heap) (hw : (s.pc t).writes = none)
    (hl : l.writes = none) (hh : g.recorder.heap = s.shared.recorder.heap) :
    Withheld O run (s.moved t g l) heap where
  same q hq := by
    simp only [view_moved (hl.trans hw.symm)] at hq
    rw [moved_shared, hh]
    exact K.same q hq
  init q := by
    rw [moved_shared, hh]
    exact K.init q
  ends u val q c w hu := by
    rw [moved_shared, hh]
    rcases moved_eq hu with ⟨-, rfl⟩ | ⟨-, hu⟩
    · cases hl
    · exact K.ends u val q c w hu

theorem update_agrees {α : Type*} (φ : H → α) {heap heap' : ℕ → H} {x q : ℕ} (k : H)
    (hq : q ≠ x → φ (heap q) = φ (heap' q)) :
    φ (Function.update heap x k q) = φ (Function.update heap' x k q) := by
  by_cases hqx : q = x
  · rw [hqx, Function.update_self, Function.update_self]
  · rw [Function.update_of_ne hqx, Function.update_of_ne hqx]
    exact hq hqx

omit [DecidableEq ι] in
theorem unwritten_of_entered (sole : ∀ u, (s.pc u).records = 1 → u = t) {val : Int64} {c : C}
    (hl : s.pc t = .entered val c) (q : ℕ) (u : ι) : (s.pc u).writes ≠ some q := by
  intro hw
  obtain rfl := sole u (Pc.records_of_writes hw)
  rw [hl] at hw
  cases hw

theorem Withheld.made {x : ℕ} {k : H} (K : Withheld O run s heap)
    (hx : ∀ u, (s.pc u).writes ≠ some x) (hw : (s.pc t).writes = none) (hl : l.writes = none)
    (hh : g.recorder.heap = Function.update s.shared.recorder.heap x k) :
    Withheld O run (s.moved t g l) (Function.update heap x k) where
  same q hq := by
    simp only [view_moved (hl.trans hw.symm)] at hq
    rw [moved_shared, hh]
    exact update_agrees id k fun _ => K.same q hq
  init q := by
    rw [moved_shared, hh]
    exact update_agrees O.init k fun _ => K.init q
  ends u val q c w hu := by
    rcases moved_eq hu with ⟨-, rfl⟩ | ⟨-, hu⟩
    · cases hl
    · have hqx : q ≠ x := by
        rintro rfl
        exact hx u (by rw [hu]; rfl)
      rw [moved_shared, hh, Function.update_of_ne hqx, Function.update_of_ne hqx]
      exact K.ends u val q c w hu

/-- The update starts: both recorders have the same active histogram. -/
theorem Withheld.load (K : Withheld O run s heap) (Q : Sequential O run)
    (sole : ∀ u, (s.pc u).records = 1 → u = t) {val : Int64} {c : C} {w : W}
    (hl : s.pc t = .entered val c)
    (hu : O.updateAction c (s.shared.recorder.heap s.shared.recorder.active) = .inl w)
    (hh : g.recorder.heap = s.shared.recorder.heap) :
    Withheld O run (s.moved t g (.updating val s.shared.recorder.active c w)) heap := by
  have hfree := unwritten_of_entered sole hl
  refine ⟨fun q _ => ?_, fun q => ?_, fun u val' q c' w' hpc x hx => ?_⟩
  · rw [moved_shared, hh]
    exact K.same q (hfree q)
  · rw [moved_shared, hh]
    exact K.init q
  · rcases moved_eq hpc with ⟨-, he⟩ | ⟨-, hpc⟩
    · cases he
      rw [K.same _ (hfree _)] at hx
      have E := Q.ends _ c x hx
      rw [hu] at E
      rw [moved_shared, hh]
      exact E
    · exact absurd (by rw [hpc]; rfl) (hfree q u)

theorem Withheld.operate (K : Withheld O run s heap) (Q : Sequential O run)
    (sole : ∀ u, (s.pc u).records = 1 → u = t) {val : Int64} {p : ℕ} {c : C} {w w' : W} {k : H}
    (hl : s.pc t = .updating val p c w)
    (ho : O.operation w (s.shared.recorder.heap p) = some (k, .inl w'))
    (hh : g.recorder.heap = Function.update s.shared.recorder.heap p k) :
    Withheld O run (s.moved t g (.updating val p c w')) heap := by
  refine ⟨fun q hq => ?_, fun q => ?_, fun u val' q c' w₁ hpc x hx => ?_⟩
  · have hqp : q ≠ p := by
      rintro rfl
      exact hq t (by rw [moved_pc_self]; rfl)
    rw [moved_shared, hh, Function.update_of_ne hqp]
    refine K.same q fun u hw => ?_
    obtain rfl := sole u (Pc.records_of_writes hw)
    rw [hl] at hw
    cases hw
    exact hqp rfl
  · rw [moved_shared, hh]
    by_cases hqp : q = p
    · rw [hqp, Function.update_self, Q.init _ _ _ _ ho]
      exact K.init p
    · rw [Function.update_of_ne hqp]
      exact K.init q
  · rcases moved_eq hpc with ⟨-, he⟩ | ⟨hut, hpc⟩
    · cases he
      rw [moved_shared, hh, Function.update_self]
      exact (K.ends t val p c w hl x hx).step ho
    · exact absurd (sole u (by rw [hpc]; rfl)) hut

/-- The last operation of an update: both recorders have the same histogram again. -/
theorem Withheld.finish (K : Withheld O run s heap) (sole : ∀ u, (s.pc u).records = 1 → u = t)
    {val : Int64} {p : ℕ} {c : C} {w : W} {r : R} {k : H} (hl : s.pc t = .updating val p c w)
    (hh : g.recorder.heap = Function.update s.shared.recorder.heap p k) :
    Withheld O run (s.moved t g (.leaving val p c r)) (Function.update heap p k) := by
  have hother : ∀ u, u ≠ t → (s.pc u).writes = none := by
    intro u hut
    cases hw : (s.pc u).writes with
    | none => rfl
    | some q => exact absurd (sole u (Pc.records_of_writes hw)) hut
  refine ⟨fun q _ => ?_, fun q => ?_, fun u val' q c' w₁ hpc x hx => ?_⟩
  · rw [moved_shared, hh]
    refine update_agrees id k fun hqp => K.same q fun u hw => ?_
    by_cases hut : u = t
    · rw [hut, hl] at hw
      cases hw
      exact hqp rfl
    · rw [hother u hut] at hw
      cases hw
  · rw [moved_shared, hh]
    exact update_agrees O.init k fun _ => K.init q
  · rcases moved_eq hpc with ⟨-, he⟩ | ⟨hut, hpc⟩
    · cases he
    · exact absurd (hother u hut) (by rw [hpc]; rintro ⟨⟩)

omit [DecidableEq ι] in
theorem Withheld.wholeOperation (K : Withheld O run s heap) {val : Int64} {p : ℕ} {c : C} {w : W}
    {r : R} {k : H} (hl : s.pc t = .updating val p c w)
    (ho : O.operation w (s.shared.recorder.heap p) = some (k, .inr r)) {x : R × H}
    (hx : run (heap p) c = some x) : (O.whole run).operation c (heap p) = some (k, .inr r) := by
  have hend := ((K.ends t val p c w hl x hx).step ho).result
  rw [HistogramCalls.whole]
  dsimp only
  rw [hx, hend]
  rfl

/-- A step is one or two steps of the recorder with whole updates, or none. -/
theorem Withheld.step [Fintype ι] (K : Withheld O run s heap)
    (S : Safe (s.view SoleRecorder.recorder)) (Q : Sequential O run)
    (sole : ∀ u, (s.pc t).records = 1 → (s.pc u).records = 1 → u = t)
    (defined : ∀ q < s.shared.recorder.allocated, ∀ c, ∃ x, run (heap q) c = some x)
    (R : Runs (O.whole run) h (wholeState s heap))
    (hstep : Stepped O s.shared.recorder (s.pc t) g.recorder l) (hfit : g.recorder.EntriesFit) :
    ∃ heap', Runs (O.whole run) h (wholeState (s.moved t g l) heap') ∧
      Withheld O run (s.moved t g l) heap' := by
  have hunwritten : ∀ x, Exclusive (s.view SoleRecorder.recorder) x →
      ∀ u, (s.pc u).writes ≠ some x := by
    intro x E u hw
    obtain ⟨v, hv⟩ := Pc.holds_of_writes hw
    exact E.2 u v hv
  obtain ⟨g, n⟩ := g
  dsimp only at hstep hfit
  generalize hl : s.pc t = l₀ at hstep
  cases hstep with
  | enter c =>
      exact ⟨heap, R.follow (a := .record c) (by rw [hl]; rfl) hfit,
        K.quiet (by rw [hl]; rfl) rfl rfl⟩
  | @allocate k hinit =>
      refine ⟨Function.update heap s.shared.recorder.allocated k,
        R.follow (a := .sampleAndRecycle none) ?_ hfit,
        K.made (hunwritten _ S.exclusive_allocated) (by rw [hl]; rfl) rfl rfl⟩
      have hinit' : (O.whole run).init (heap s.shared.recorder.active) = some k :=
        (K.init _).trans hinit
      rw [hl, Pc.whole, HdrHistogramC.step, hinit']
      rfl
  | @recycle x hx =>
      have E := hunwritten x (S.exclusive_obtained hx)
      refine ⟨Function.update heap x (O.reset (heap x)),
        R.follow (a := .sampleAndRecycle (some x)) ?_ hfit,
        K.made E (by rw [hl]; rfl) rfl (by rw [K.same x E])⟩
      rw [hl, Pc.whole, HdrHistogramC.step, if_pos hx]
      rfl
  | load hu =>
      refine ⟨heap, R.follow (a := .proceed) (by rw [hl]; rfl) hfit,
        K.load Q (fun u hu => sole u (by rw [hl]; rfl) hu) hl hu rfl⟩
  | @refuse val c r hu =>
      refine ⟨heap, ?_, K.quiet (by rw [hl]; rfl) rfl rfl⟩
      obtain ⟨x, hx⟩ : ∃ x, run (heap s.shared.recorder.active) c = some x :=
        defined _ S.owned.active_lt c
      have hsame := K.same s.shared.recorder.active
        (unwritten_of_entered (fun u hu => sole u (by rw [hl]; rfl) hu) hl _)
      have hend := Q.ends _ c x hx
      rw [hsame, hu] at hend
      exact R.refused (by rw [hl]; rfl) (by rw [hx, hend.result, hsame]) rfl hfit
  | operate ho =>
      refine ⟨heap, ?_, K.operate Q (fun u hu => sole u (by rw [hl]; rfl) hu) hl ho rfl⟩
      exact R.stutter (by rw [hl]; rfl) rfl
  | @finish val p c w r k ho =>
      have hlt : p < s.shared.recorder.allocated :=
        S.held_lt (t := t) (v := val)
          (by rw [show (s.view SoleRecorder.recorder).pc t = _ from hl]; rfl)
      obtain ⟨x, hx⟩ := defined p hlt c
      refine ⟨Function.update heap p k, R.follow (a := .proceed) ?_ hfit,
        K.finish (fun u hu => sole u (by rw [hl]; rfl) hu) hl rfl⟩
      rw [hl, Pc.whole, HdrHistogramC.step, K.wholeOperation hl ho hx]
      rfl
  | @handOver old =>
      have E : Exclusive (s.view SoleRecorder.recorder) old :=
        S.exclusive_owned (t := t)
          (by rw [show (s.view SoleRecorder.recorder).pc t = _ from hl]; rfl)
          (by rw [show (s.view SoleRecorder.recorder).pc t = _ from hl]; rfl)
          (by rw [show (s.view SoleRecorder.recorder).pc t = _ from hl]; rfl)
      refine ⟨heap, R.follow (a := .proceed) ?_ hfit, K.quiet (by rw [hl]; rfl) rfl rfl⟩
      simp only [hl, Pc.whole, HdrHistogramC.step, K.same old (hunwritten old E)]
  | lock hm =>
      refine ⟨heap, R.follow (a := .proceed) ?_ hfit, K.quiet (by rw [hl]; rfl) rfl rfl⟩
      simp only [hl, Pc.whole, HdrHistogramC.step, hm, Bool.false_eq_true, if_false]
  | caughtUp hv =>
      refine ⟨heap, R.follow (a := .proceed) ?_ hfit, K.quiet (by rw [hl]; rfl) rfl rfl⟩
      simp only [hl, Pc.whole, HdrHistogramC.step, if_pos hv]
  | wait hv =>
      refine ⟨heap, R.follow (a := .proceed) ?_ hfit, K.quiet (by rw [hl]; rfl) rfl rfl⟩
      simp only [hl, Pc.whole, HdrHistogramC.step, if_neg hv]
  | _ =>
      exact ⟨heap, R.follow (a := .proceed) (by rw [hl]; rfl) hfit,
        K.quiet (by rw [hl]; rfl) rfl rfl⟩

end Simulation

section Whole
variable {ι : Type} [DecidableEq ι] [Fintype ι] {O : HistogramCalls H W C R}
  {run : H → C → Option (R × H)} {M : Type} [AddCancelCommMonoid M]
  {D : UpdateSpec (O.whole run) M} {h : H} {s : SoleState ι H W C R} {heap : ℕ → H}

omit [DecidableEq ι] in
theorem Counted.defined (K : Counted D (wholeState s heap)) {q : ℕ}
    (hq : q < s.shared.recorder.allocated) (c : C) : ∃ x, run (heap q) c = some x := by
  obtain ⟨hvalid, -⟩ := D.start c (K.heap q hq)
  obtain ⟨h', r, d, ho, -⟩ := D.operation (K.heap q hq) hvalid
  obtain ⟨x, hx, -⟩ := Option.map_eq_some_iff.mp ho
  exact ⟨x, hx⟩

/-- A run whose record calls do not overlap is a run of the recorder with whole updates. -/
theorem SoleRuns.withheld (Q : Sequential O run) (hc : D.contains h 0) (r : SoleRuns O h s) :
    ∃ heap, Runs (O.whole run) h (wholeState s heap) ∧ Withheld O run s heap := by
  refine Reachable.invariant (P := fun s : SoleState ι H W C R =>
    ∃ heap, Runs (O.whole run) h (wholeState s heap) ∧ Withheld O run s heap) r
    ⟨fun _ => h, .start, fun _ _ => rfl, fun _ => rfl, fun _ _ _ _ _ hu => by cases hu⟩ ?_
  rintro s t a g l before ⟨heap, R, K⟩ hstep hg
  have before : SoleRuns O h s := before
  have C := R.counted hc
  exact K.step before.recorder.safe Q (fun u ht hu => before.sole hu ht)
    (fun q hq c => C.defined hq c) R (step_cases (soleStep_cases hstep).1) hg.1

omit [Fintype ι] in
@[simp] theorem Pc.whole_holds (l : Pc W C R) : l.whole.holds = l.holds := by
  cases l <;> rfl

omit [DecidableEq ι] in
/-- A histogram that no writer holds has been given the calls of its tally. -/
theorem Withheld.contains (K : Withheld O run s heap) (C : Counted D (wholeState s heap)) {q : ℕ}
    (hq : q < s.shared.recorder.allocated) (hw : ∀ t v, (s.pc t).holds ≠ some (v, q)) :
    D.contains (s.shared.recorder.heap q) (D.recorded (s.shared.recorder.left q)) := by
  have hheap := C.heap q hq
  rw [UpdateSpec.content_unheld (by simpa [wholeState] using hw)] at hheap
  rw [← K.same q fun t ht => by
    obtain ⟨v, hv⟩ := Pc.holds_of_writes ht
    exact hw t v hv]
  exact hheap

omit [DecidableEq ι] in
theorem Withheld.proceeds (K : Withheld O run s heap) (C : Counted D (wholeState s heap))
    (S : Safe (s.view SoleRecorder.recorder)) (t : ι) :
    s.pc t = .idle ∨
      (∃ new, s.pc t = .locking new ∧ s.shared.recorder.phaser.readerMutex = true) ∨
        ∃ r, soleStep O .proceed s.shared (s.pc t) = some r := by
  cases hl : s.pc t with
  | idle => exact .inl rfl
  | updating v p c w =>
      have hp : p < s.shared.recorder.allocated := S.held_lt (t := t) (v := v)
        (by rw [show (s.view SoleRecorder.recorder).pc t = _ from hl]; rfl)
      obtain ⟨x, hx⟩ := C.defined hp c
      have hend := K.ends t v p c w hl x hx
      cases hend with
      | next ho _ => exact .inr (.inr ⟨_, by rw [soleStep, HdrHistogramC.step, ho]; rfl⟩)
  | locking new =>
      cases hm : s.shared.recorder.phaser.readerMutex with
      | true => exact .inr (.inl ⟨new, rfl, rfl⟩)
      | false => exact .inr (.inr ⟨_, by rw [soleStep, HdrHistogramC.step, hm]; rfl⟩)
  | _ => exact .inr (.inr ⟨_, rfl⟩)

end Whole

theorem Runs.exited_valid {ι : Type} [DecidableEq ι] [Fintype ι] {O : HistogramCalls H W C R}
    {M : Type} [AddCancelCommMonoid M] {D : UpdateSpec O M} {h : H} {s : RecorderState ι H W C R}
    (hc : D.contains h 0) (run : Runs O h s) : ∀ y ∈ s.shared.exited, D.valid y.1 (.inr y.2) := by
  refine Reachable.invariant (P := fun s : RecorderState ι H W C R =>
    ∀ y ∈ s.shared.exited, D.valid y.1 (.inr y.2)) run
    (fun y hy => absurd hy (Multiset.notMem_zero y)) ?_
  intro s t a g l before K hstep _
  have C := Runs.counted (D := D) hc before
  have hs := step_cases hstep
  generalize hl : s.pc t = l₀ at hs
  cases hs with
  | @exit val p c r =>
      intro y hy
      rcases Multiset.mem_add.mp hy with hy | hy
      · exact K y hy
      · obtain rfl := Multiset.mem_singleton.mp hy
        exact C.valid t p c (.inr r) (by rw [hl]; rfl)
  | _ => exact K

end HdrHistogramC
