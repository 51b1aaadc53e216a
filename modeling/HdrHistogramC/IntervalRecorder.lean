import HdrHistogramC.Threads

/-!
# The interval recorder

`hdr_writer_reader_phaser.c` and `hdr_interval_recorder.c` as threads that take one
atomic operation, or one lock or unlock of the mutex, at a time. As in the source the
update action is a parameter: `C` are the arguments of a record call, `R` its results,
`W` the local state of an update that is under way, and `H` the histograms.
-/
namespace HdrHistogramC
open Threads

structure HdrWriterReaderPhaser where
  startEpoch : Int64
  evenEndEpoch : Int64
  oddEndEpoch : Int64
  readerMutex : Bool
deriving Repr, DecidableEq

def hdrWriterReaderPhaserInit : HdrWriterReaderPhaser where
  startEpoch := 0
  evenEndEpoch := 0
  oddEndEpoch := Int64.minValue
  readerMutex := false

namespace HdrWriterReaderPhaser

def writerEnter (p : HdrWriterReaderPhaser) : HdrWriterReaderPhaser :=
  { p with startEpoch := p.startEpoch + 1 }

def writerExit (p : HdrWriterReaderPhaser) (criticalValueAtEnter : Int64) :
    HdrWriterReaderPhaser :=
  if criticalValueAtEnter < 0 then { p with oddEndEpoch := p.oddEndEpoch + 1 }
  else { p with evenEndEpoch := p.evenEndEpoch + 1 }

def initialStartValue (nextPhaseIsEven : Bool) : Int64 :=
  if nextPhaseIsEven then 0 else Int64.minValue

/-- The end epoch of the next phase is cleared. -/
def clearEndEpoch (p : HdrWriterReaderPhaser) (nextPhaseIsEven : Bool) : HdrWriterReaderPhaser :=
  if nextPhaseIsEven then { p with evenEndEpoch := initialStartValue nextPhaseIsEven }
  else { p with oddEndEpoch := initialStartValue nextPhaseIsEven }

/-- The end epoch of the phase that is left. -/
def polledEpoch (p : HdrWriterReaderPhaser) (nextPhaseIsEven : Bool) : Int64 :=
  if nextPhaseIsEven then p.oddEndEpoch else p.evenEndEpoch

end HdrWriterReaderPhaser

/-- What the recorder calls: the update action up to its first atomic operation, and
then one operation at a time, with the arithmetic that follows it; `hdr_init` for the
configuration of a histogram; and `hdr_reset`. -/
structure HistogramCalls (H W C R : Type) where
  updateAction : C → H → W ⊕ R
  operation : W → H → Option (H × (W ⊕ R))
  init : H → Option H
  reset : H → H

/-- Where a thread stands: in no call, in `hdr_interval_recorder_update`, or in
`hdr_interval_recorder_sample_and_recycle`. -/
inductive Pc (W C R : Type) where
  | idle
  | entered (val : Int64) (c : C)
  | updating (val : Int64) (active : ℕ) (c : C) (w : W)
  | leaving (val : Int64) (active : ℕ) (c : C) (r : R)
  | locking (toRecycle : ℕ)
  | loading (toRecycle : ℕ)
  | storing (toRecycle oldActive : ℕ)
  | readingEpoch (oldActive : ℕ)
  | clearing (oldActive : ℕ) (nextPhaseIsEven : Bool)
  | exchanging (oldActive : ℕ) (nextPhaseIsEven : Bool)
  | polling (oldActive : ℕ) (nextPhaseIsEven : Bool) (startValueAtFlip : Int64)
  | unlocking (oldActive : ℕ)
  | returning (oldActive : ℕ)

/-- A call that a thread starts, or its next operation. -/
inductive Action (C : Type) where
  | record (c : C)
  | sampleAndRecycle (histogramToRecycle : Option ℕ)
  | proceed

/-- The memory, and what has happened so far: the writer entries of this phase, the
histograms that a sample has returned and no later one was given, those that hold
recordings of no returned sample, the calls that left each histogram since it was made
empty, the samples as they were on return, and all calls that have left. Only the
caller's choice of a histogram to recycle depends on the history. -/
structure Recorder (H C R : Type) where
  active : ℕ
  phaser : HdrWriterReaderPhaser
  heap : ℕ → H
  allocated : ℕ
  entries : ℕ
  obtained : Finset ℕ
  live : Finset ℕ
  left : ℕ → Multiset (C × R)
  samples : List (H × Multiset (C × R))
  exited : Multiset (C × R)

/-- One empty histogram, and no call yet. -/
def Recorder.initial {H C R : Type} (h : H) : Recorder H C R where
  active := 0
  phaser := hdrWriterReaderPhaserInit
  heap := fun _ => h
  allocated := 1
  entries := 0
  obtained := ∅
  live := {0}
  left := fun _ => 0
  samples := []
  exited := 0

variable {H W C R : Type}

/-- An operation of the update on the histogram `active`. -/
def updateStep (g : Recorder H C R) (val : Int64) (active : ℕ) (c : C) (h : H) (r : W ⊕ R) :
    Recorder H C R × Pc W C R :=
  ({ g with heap := Function.update g.heap active h },
    match r with
    | .inl w => .updating val active c w
    | .inr r => .leaving val active c r)

def step (O : HistogramCalls H W C R) :
    Action C → Recorder H C R → Pc W C R → Option (Recorder H C R × Pc W C R)
  | .record c, g, .idle =>
      some ({ g with phaser := g.phaser.writerEnter, entries := g.entries + 1 },
        .entered (g.phaser.startEpoch + 1) c)
  | .sampleAndRecycle none, g, .idle =>
      (O.init (g.heap g.active)).map fun h =>
        ({ g with
            heap := Function.update g.heap g.allocated h
            allocated := g.allocated + 1
            left := Function.update g.left g.allocated 0 }, .locking g.allocated)
  | .sampleAndRecycle (some x), g, .idle =>
      if x ∈ g.obtained then
        some ({ g with
            heap := Function.update g.heap x (O.reset (g.heap x))
            obtained := g.obtained.erase x
            left := Function.update g.left x 0 }, .locking x)
      else none
  | .proceed, g, .entered val c =>
      some (g, match O.updateAction c (g.heap g.active) with
        | .inl w => .updating val g.active c w
        | .inr r => .leaving val g.active c r)
  | .proceed, g, .updating val active c w =>
      (O.operation w (g.heap active)).map fun r => updateStep g val active c r.1 r.2
  | .proceed, g, .leaving val active c r =>
      some ({ g with
          phaser := g.phaser.writerExit val
          left := Function.update g.left active (g.left active + {(c, r)})
          exited := g.exited + {(c, r)} }, .idle)
  | .proceed, g, .locking new =>
      if g.phaser.readerMutex then none
      else some ({ g with phaser := { g.phaser with readerMutex := true } }, .loading new)
  | .proceed, g, .loading new => some (g, .storing new g.active)
  | .proceed, g, .storing new old =>
      some ({ g with active := new, live := insert new g.live }, .readingEpoch old)
  | .proceed, g, .readingEpoch old => some (g, .clearing old (g.phaser.startEpoch < 0))
  | .proceed, g, .clearing old even =>
      some ({ g with phaser := g.phaser.clearEndEpoch even }, .exchanging old even)
  | .proceed, g, .exchanging old even =>
      some ({ g with
          phaser := { g.phaser with
            startEpoch := HdrWriterReaderPhaser.initialStartValue even }
          entries := 0 }, .polling old even g.phaser.startEpoch)
  | .proceed, g, .polling old even v =>
      some (g, if g.phaser.polledEpoch even = v then .unlocking old else .polling old even v)
  | .proceed, g, .unlocking old =>
      some ({ g with phaser := { g.phaser with readerMutex := false } }, .returning old)
  | .proceed, g, .returning old =>
      some ({ g with
          obtained := insert old g.obtained
          live := g.live.erase old
          samples := g.samples ++ [(g.heap old, g.left old)] }, .idle)
  | _, _, _ => none

/-- Runs with fewer than `2^63` writer entries in every phase. -/
def Recorder.EntriesFit (g : Recorder H C R) : Prop := g.entries < 2 ^ 63

instance (g : Recorder H C R) : Decidable g.EntriesFit := by
  unfold Recorder.EntriesFit; infer_instance

abbrev RecorderState (ι H W C R : Type) := State ι (Recorder H C R) (Pc W C R)

def RecorderState.initial {ι : Type} (h : H) : RecorderState ι H W C R :=
  ⟨Recorder.initial h, fun _ => .idle⟩

/-- The states of a recorder under any interleaving of its calls. -/
def Runs {ι : Type} [DecidableEq ι] (O : HistogramCalls H W C R) (h : H)
    (s : RecorderState ι H W C R) : Prop :=
  Reachable (step O) Recorder.EntriesFit (RecorderState.initial h) s

end HdrHistogramC
