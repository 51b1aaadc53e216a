import HdrHistogramC.SampleExclusion

/-!
# The phaser by itself

Writers that enter and exit the phaser of `hdr_writer_reader_phaser.c`, and readers that
lock it, flip the phase any number of times and unlock it, one atomic operation at a time.
The epochs and the mutex move as they do inside the recorder, so the invariants of the
recorder are used here; what is added are the numbers of the phases, which tell apart the
phases that share an end epoch.
-/
namespace HdrHistogramC
open Threads FixedWidth

/-- Where a thread stands: in no call, between the enter and the exit of a writer, or in a
reader that has the lock. A writer has the value that enter returned, and the number of the
phase it entered; a flip that polls has the number of the phase that its exchange began. -/
inductive PhaserPc where
  | outside
  | inside (criticalValueAtEnter : Int64) (entered : ℕ)
  | locked
  | clearing (nextPhaseIsEven : Bool)
  | exchanging (nextPhaseIsEven : Bool)
  | polling (nextPhaseIsEven : Bool) (startValueAtFlip : Int64) (begun : ℕ)
deriving Repr, DecidableEq

inductive PhaserAction where
  | writerEnter
  | writerExit
  | readerLock
  | readerUnlock
  | flipPhase
  | proceed
deriving Repr, DecidableEq

/-- The phaser, and what has happened so far: the number of exchanges of the start epoch, the
entries since the last one, for each phase the exits of the writers that entered it, and for
each end epoch the phase for which it was last cleared. No step depends on the history. -/
structure PhaserRun where
  phaser : HdrWriterReaderPhaser
  phase : ℕ
  entries : ℕ
  exits : ℕ → ℕ
  clearedFor : Bool → ℕ

def PhaserRun.initial : PhaserRun where
  phaser := hdrWriterReaderPhaserInit
  phase := 0
  entries := 0
  exits := fun _ => 0
  clearedFor := fun even => if even then 0 else 1

/-- The load of the start epoch is the first operation of a flip. -/
def phaserStep : PhaserAction → PhaserRun → PhaserPc → Option (PhaserRun × PhaserPc)
  | .writerEnter, g, .outside =>
      some ({ g with phaser := g.phaser.writerEnter, entries := g.entries + 1 },
        .inside (g.phaser.startEpoch + 1) g.phase)
  | .writerExit, g, .inside val entered =>
      some ({ g with
          phaser := g.phaser.writerExit val
          exits := Function.update g.exits entered (g.exits entered + 1) }, .outside)
  | .readerLock, g, .outside =>
      if g.phaser.readerMutex then none
      else some ({ g with phaser := { g.phaser with readerMutex := true } }, .locked)
  | .readerUnlock, g, .locked =>
      some ({ g with phaser := { g.phaser with readerMutex := false } }, .outside)
  | .flipPhase, g, .locked => some (g, .clearing (g.phaser.startEpoch < 0))
  | .proceed, g, .clearing even =>
      some ({ g with
          phaser := g.phaser.clearEndEpoch even
          clearedFor := Function.update g.clearedFor even (g.phase + 1) }, .exchanging even)
  | .proceed, g, .exchanging even =>
      some ({ g with
          phaser := { g.phaser with
            startEpoch := HdrWriterReaderPhaser.initialStartValue even }
          phase := g.phase + 1
          entries := 0 }, .polling even g.phaser.startEpoch (g.phase + 1))
  | .proceed, g, .polling even v begun =>
      some (g, if g.phaser.polledEpoch even = v then .locked else .polling even v begun)
  | _, _, _ => none

/-- Runs with fewer than `2^63` writer entries in every phase. -/
def PhaserRun.EntriesFit (g : PhaserRun) : Prop := g.entries < 2 ^ 63

instance (g : PhaserRun) : Decidable g.EntriesFit := by
  unfold PhaserRun.EntriesFit; infer_instance

abbrev PhaserState (ι : Type) := State ι PhaserRun PhaserPc

/-- The states of a phaser under any interleaving of its calls. -/
def PhaserRuns {ι : Type} [DecidableEq ι] (s : PhaserState ι) : Prop :=
  Reachable phaserStep PhaserRun.EntriesFit ⟨PhaserRun.initial, fun _ => .outside⟩ s

/-- Between the load of the start epoch and the return of a flip. -/
def PhaserPc.flipping : PhaserPc → Bool
  | .clearing _ | .exchanging _ | .polling _ _ _ => true
  | _ => false

/-- Between enter and exit. -/
def PhaserPc.isInside : PhaserPc → Bool
  | .inside _ _ => true
  | _ => false

inductive PhaserStepped (g : PhaserRun) : PhaserPc → PhaserRun → PhaserPc → Prop
  | enter : PhaserStepped g .outside
      { g with phaser := g.phaser.writerEnter, entries := g.entries + 1 }
      (.inside (g.phaser.startEpoch + 1) g.phase)
  | exit {val : Int64} {entered : ℕ} : PhaserStepped g (.inside val entered)
      { g with
        phaser := g.phaser.writerExit val
        exits := Function.update g.exits entered (g.exits entered + 1) } .outside
  | lock : g.phaser.readerMutex = false → PhaserStepped g .outside
      { g with phaser := { g.phaser with readerMutex := true } } .locked
  | unlock : PhaserStepped g .locked
      { g with phaser := { g.phaser with readerMutex := false } } .outside
  | flip : PhaserStepped g .locked g (.clearing (g.phaser.startEpoch < 0))
  | clear {even : Bool} : PhaserStepped g (.clearing even)
      { g with
        phaser := g.phaser.clearEndEpoch even
        clearedFor := Function.update g.clearedFor even (g.phase + 1) } (.exchanging even)
  | exchange {even : Bool} : PhaserStepped g (.exchanging even)
      { g with
        phaser := { g.phaser with startEpoch := HdrWriterReaderPhaser.initialStartValue even }
        phase := g.phase + 1
        entries := 0 } (.polling even g.phaser.startEpoch (g.phase + 1))
  | caughtUp {even : Bool} {v : Int64} {begun : ℕ} : g.phaser.polledEpoch even = v →
      PhaserStepped g (.polling even v begun) g .locked
  | wait {even : Bool} {v : Int64} {begun : ℕ} : g.phaser.polledEpoch even ≠ v →
      PhaserStepped g (.polling even v begun) g (.polling even v begun)

theorem phaserStep_cases {a : PhaserAction} {g g' : PhaserRun} {l l' : PhaserPc}
    (h : phaserStep a g l = some (g', l')) : PhaserStepped g l g' l' := by
  unfold phaserStep at h
  split at h
  case h_1 => cases h; exact .enter
  case h_2 => cases h; exact .exit
  case h_3 =>
    split_ifs at h with hm
    cases h
    exact .lock (by simpa using hm)
  case h_4 => cases h; exact .unlock
  case h_5 => cases h; exact .flip
  case h_6 => cases h; exact .clear
  case h_7 => cases h; exact .exchange
  case h_8 =>
    split_ifs at h with hv
    · cases h; exact .caughtUp hv
    · cases h; exact .wait hv
  case h_9 => cases h

/-- The same place in the recorder. -/
def PhaserPc.toPc : PhaserPc → Pc Unit Unit Unit
  | .outside => .idle
  | .inside val _ => .entered val ()
  | .locked => .unlocking 0
  | .clearing even => .clearing 0 even
  | .exchanging even => .exchanging 0 even
  | .polling even v _ => .polling 0 even v

def PhaserRun.toRecorder (g : PhaserRun) : Recorder Unit Unit Unit :=
  { Recorder.initial () with phaser := g.phaser, entries := g.entries }

section Runs
variable {ι : Type} [DecidableEq ι] {s : PhaserState ι} {t : ι} {g : PhaserRun} {l : PhaserPc}

def toRecorderState (s : PhaserState ι) : RecorderState ι Unit Unit Unit Unit :=
  ⟨s.shared.toRecorder, fun u => (s.pc u).toPc⟩

theorem toRecorderState_moved (s : PhaserState ι) (t : ι) (g : PhaserRun) (l : PhaserPc) :
    toRecorderState (s.moved t g l) = (toRecorderState s).moved t g.toRecorder l.toPc := by
  unfold toRecorderState State.moved
  congr 1
  exact Function.comp_update PhaserPc.toPc s.pc t l

/-- The mutex and the epochs, as in the recorder. -/
structure PhaserSafe [Fintype ι] (s : PhaserState ι) : Prop where
  locked : Locked (toRecorderState s)
  phased : Phased (toRecorderState s)

omit [DecidableEq ι] in
theorem phaserSafe_initial [Fintype ι] :
    PhaserSafe (⟨PhaserRun.initial, fun _ => .outside⟩ : PhaserState ι) where
  locked := (Safe.initial ()).locked
  phased := Phased.initial ()

/-- The step lemma: the operations of the phaser keep the invariants of the recorder. -/
theorem PhaserSafe.step [Fintype ι] (K : PhaserSafe s) (h : PhaserStepped s.shared (s.pc t) g l)
    (hfit : g.EntriesFit) : PhaserSafe (s.moved t g l) := by
  obtain ⟨L, P⟩ := K
  have hpc : (toRecorderState s).pc t = (s.pc t).toPc := rfl
  generalize hl : s.pc t = l₀ at h hpc
  have hL : Locked (toRecorderState (s.moved t g l)) := by
    rw [toRecorderState_moved]
    cases h with
    | lock hm => exact L.acquired hm rfl
    | unlock => exact L.released (by rw [hpc]; rfl) rfl
    | _ =>
        exact L.same (by simp [hpc, PhaserPc.toPc, Pc.critical])
          (by simp [PhaserRun.toRecorder, toRecorderState, HdrWriterReaderPhaser.writerEnter])
  refine ⟨hL, ?_⟩
  rw [toRecorderState_moved]
  cases h with
  | enter =>
      exact P.enter (by rw [hpc]; rfl) rfl (by rw [hpc]; rfl) (by rw [hpc]; rfl) (by rw [hpc]; rfl)
        rfl rfl rfl hfit
  | @exit val =>
      obtain ⟨he, he', hs⟩ := writerExit_endEpoch s.shared.phaser val
      exact P.exit L (isEven val) (by rw [hpc]; rfl) rfl (by rw [hpc]; rfl) (by rw [hpc]; rfl)
        (by rw [hpc]; rfl) hs he he' rfl
  | flip =>
      exact P.announce L (by rw [hpc]; rfl) (by rw [hpc]; rfl) (by rw [hpc]; rfl)
        (by rw [hpc]; rfl)
        (by simp [PhaserPc.toPc, Pc.nextPhase, isEven]; rfl)
  | @clear even =>
      obtain ⟨he, he', hs⟩ := clearEndEpoch_endEpoch s.shared.phaser even
      exact P.clear L (by rw [hpc]; rfl) (by rw [hpc]; rfl) (by rw [hpc]; rfl) (by rw [hpc]; rfl)
        (by rw [hpc]; rfl) (by rw [hpc]; rfl) hs he he' rfl rfl
  | exchange =>
      exact P.exchange L (by rw [hpc]; rfl) (by rw [hpc]; rfl) (by rw [hpc]; rfl) rfl rfl rfl rfl
        rfl rfl
  | caughtUp hv =>
      rw [polledEpoch_eq] at hv
      exact P.caughtUp L (by rw [hpc]; rfl) (by rw [hpc]; rfl) (by rw [hpc]; rfl) hv rfl rfl rfl
  | _ =>
      exact P.same (by simp [hpc, PhaserPc.toPc, Pc.phase]) (by simp [hpc, PhaserPc.toPc, Pc.polls])
        (by simp [hpc, PhaserPc.toPc, Pc.nextPhase]) (by simp [hpc, PhaserPc.toPc, Pc.cleared])
        rfl rfl rfl

/-- The end epoch of the current phase was cleared for it, and every writer that is inside
finds the end epoch of its own phase; an end epoch counts the exits of the phase for which it
was last cleared. -/
structure Numbered (s : PhaserState ι) : Prop where
  current : s.shared.clearedFor (isEven s.shared.phaser.startEpoch) = s.shared.phase
  inside : ∀ u val n, s.pc u = .inside val n →
    s.shared.clearedFor (isEven val) = n ∧ n ≤ s.shared.phase
  counted : ∀ even, (s.shared.phaser.endEpoch even).toInt =
    (HdrWriterReaderPhaser.initialStartValue even).toInt +
      s.shared.exits (s.shared.clearedFor even)
  later : ∀ n, s.shared.phase < n → s.shared.exits n = 0
  parity : ∀ even, s.shared.clearedFor even % 2 = if even then 0 else 1
  exchanging : ∀ u even, s.pc u = .exchanging even →
    s.shared.clearedFor even = s.shared.phase + 1
  begun : ∀ u even v n, s.pc u = .polling even v n → n = s.shared.phase

omit [DecidableEq ι] in
theorem numbered_initial :
    Numbered (⟨PhaserRun.initial, fun _ => .outside⟩ : PhaserState ι) where
  current := rfl
  inside _ _ _ hu := by cases hu
  counted even := by cases even <;> rfl
  later _ _ := rfl
  parity even := by cases even <;> rfl
  exchanging _ _ hu := by cases hu
  begun _ _ _ _ hu := by cases hu

theorem Numbered.kept (K : Numbered s) (hc : g.clearedFor = s.shared.clearedFor)
    (hp : g.phase = s.shared.phase) (hx : g.exits = s.shared.exits)
    (he : g.phaser.endEpoch = s.shared.phaser.endEpoch)
    (hs : isEven g.phaser.startEpoch = isEven s.shared.phaser.startEpoch)
    (hin : ∀ val n, l = .inside val n → isEven val = isEven s.shared.phaser.startEpoch ∧
      n = s.shared.phase)
    (hex : ∀ even, l ≠ .exchanging even)
    (hpoll : ∀ even v n, l = .polling even v n → n = s.shared.phase) :
    Numbered (s.moved t g l) := by
  refine ⟨?_, fun u val n hu => ?_, fun even => ?_, fun n hn => ?_, fun even => ?_,
    fun u even hu => ?_, fun u even v n hu => ?_⟩
  · rw [moved_shared, hc, hs, hp]
    exact K.current
  · rw [moved_shared, hc, hp]
    rcases moved_eq hu with ⟨-, hl⟩ | ⟨-, hold⟩
    · obtain ⟨heven, rfl⟩ := hin val n hl
      exact ⟨heven ▸ K.current, le_rfl⟩
    · exact K.inside u val n hold
  · rw [moved_shared, hc, hx, he]
    exact K.counted even
  · rw [moved_shared, hp] at hn
    rw [moved_shared, hx]
    exact K.later n hn
  · rw [moved_shared, hc]
    exact K.parity even
  · rw [moved_shared, hc, hp]
    rcases moved_eq hu with ⟨-, hl⟩ | ⟨-, hold⟩
    · exact absurd hl (hex even)
    · exact K.exchanging u even hold
  · rw [moved_shared, hp]
    rcases moved_eq hu with ⟨-, hl⟩ | ⟨-, hold⟩
    · exact hpoll even v n hl
    · exact K.begun u even v n hold

omit [DecidableEq ι] in
theorem PhaserSafe.alone [Fintype ι] (S : PhaserSafe s) (hc : (s.pc t).toPc.critical = true)
    {u : ι} (hu : u ≠ t) : (s.pc u).toPc.critical = false :=
  S.locked.other (t := t) hc hu

theorem Numbered.exit [Fintype ι] (K : Numbered s) (S : PhaserSafe s) {val : Int64} {n : ℕ}
    (hl : s.pc t = .inside val n) : Numbered (s.moved t { s.shared with
      phaser := s.shared.phaser.writerExit val
      exits := Function.update s.shared.exits n (s.shared.exits n + 1) } .outside) := by
  obtain ⟨he, he', hs⟩ := writerExit_endEpoch s.shared.phaser val
  obtain ⟨hown, hle⟩ := K.inside t val n hl
  have hphase : ((toRecorderState s).pc t).phase = some (isEven val) :=
    congrArg (fun l => l.toPc.phase) hl
  have hsucc : (s.shared.phaser.endEpoch (isEven val) + 1).toInt =
      (s.shared.phaser.endEpoch (isEven val)).toInt + 1 := by
    obtain ⟨v, hv⟩ := S.phased.exists_entries hphase
    have hpos : writersIn (isEven val) (toRecorderState s).pc ≠ 0 := fun h0 =>
      count_eq_zero_iff.mp h0 t hphase
    have hv' := endEpoch_succ hv (Nat.sub_add_cancel (Nat.pos_of_ne_zero hpos))
    change (s.shared.phaser.endEpoch (isEven val)).toInt + _ = _ at hv
    change (s.shared.phaser.endEpoch (isEven val) + 1).toInt + _ = _ at hv'
    omega
  refine ⟨?_, fun u w k hu => ?_, fun even => ?_, fun k hk => ?_, K.parity,
    fun u even hu => ?_, fun u even v k hu => ?_⟩
  · rw [moved_shared]
    dsimp only
    rw [hs]
    exact K.current
  · rcases moved_eq hu with ⟨-, h⟩ | ⟨-, h⟩
    · cases h
    · exact K.inside u w k h
  · rw [moved_shared]
    dsimp only
    by_cases heven : even = isEven val
    · rw [heven, he, hown, Function.update_self, hsucc, K.counted, hown]
      push_cast
      ring
    · have hne : s.shared.clearedFor even ≠ n := by
        intro h
        have h₁ := K.parity even
        have h₂ := K.parity (isEven val)
        rw [h] at h₁
        rw [hown, h₁] at h₂
        revert h₂ heven
        cases even <;> cases isEven val <;> simp
      rw [Function.update_of_ne hne, Bool.eq_not_of_ne heven, he']
      exact K.counted _
  · rw [moved_shared] at hk ⊢
    dsimp only at hk ⊢
    rw [Function.update_of_ne (by omega)]
    exact K.later k hk
  · rcases moved_eq hu with ⟨-, h⟩ | ⟨-, h⟩
    · cases h
    · exact K.exchanging u even h
  · rcases moved_eq hu with ⟨-, h⟩ | ⟨-, h⟩
    · cases h
    · exact K.begun u even v k h

/-- The end epoch that is cleared belongs to a phase that no writer is in. -/
theorem Numbered.clear [Fintype ι] (K : Numbered s) (S : PhaserSafe s) {even : Bool}
    (hl : s.pc t = .clearing even) : Numbered (s.moved t { s.shared with
      phaser := s.shared.phaser.clearEndEpoch even
      clearedFor := Function.update s.shared.clearedFor even (s.shared.phase + 1) }
        (.exchanging even)) := by
  obtain ⟨he, he', hs⟩ := clearEndEpoch_endEpoch s.shared.phaser even
  have hcrit : (s.pc t).toPc.critical = true := by rw [hl]; rfl
  have hnext : even = !isEven s.shared.phaser.startEpoch :=
    S.phased.next t even (congrArg (fun l => l.toPc.nextPhase) hl)
  have hcur : isEven s.shared.phaser.startEpoch ≠ even := by
    rw [hnext]
    simp
  have hempty : ∀ u val n, s.pc u = .inside val n → isEven val ≠ even := by
    intro u val n hu hval
    have hnone : ∀ w, ((toRecorderState s).pc w).polls = none := by
      intro w
      by_cases hw : w = t
      · rw [hw]
        exact congrArg (fun l => l.toPc.polls) hl
      · exact (Pc.outside (S.alone hcrit hw)).1
    have hzero := S.phased.previous hnone
    have hprev : (!isEven (toRecorderState s).shared.phaser.startEpoch) = even := hnext.symm
    rw [hprev] at hzero
    exact count_eq_zero_iff.mp hzero u
      ((congrArg (fun l => l.toPc.phase) hu).trans (congrArg some hval))
  refine ⟨?_, fun u val n hu => ?_, fun e => ?_, K.later, fun e => ?_, fun u e hu => ?_,
    fun u e v n hu => ?_⟩
  · rw [moved_shared]
    dsimp only
    rw [hs, Function.update_of_ne hcur]
    exact K.current
  · rcases moved_eq hu with ⟨-, h⟩ | ⟨-, h⟩
    · cases h
    · rw [moved_shared]
      dsimp only
      rw [Function.update_of_ne (hempty u val n h)]
      exact K.inside u val n h
  · rw [moved_shared]
    dsimp only
    by_cases h : e = even
    · rw [h, he, Function.update_self, K.later _ (Nat.lt_succ_self _)]
      simp
    · rw [Function.update_of_ne h, Bool.eq_not_of_ne h, he']
      exact K.counted _
  · rw [moved_shared]
    dsimp only
    by_cases h : e = even
    · have hpar := K.parity (isEven s.shared.phaser.startEpoch)
      rw [K.current] at hpar
      rw [h, Function.update_self, hnext]
      revert hpar
      cases isEven s.shared.phaser.startEpoch <;> simp <;> omega
    · rw [Function.update_of_ne h]
      exact K.parity e
  · rcases moved_eq hu with ⟨-, h⟩ | ⟨hne, h⟩
    · cases h
      exact Function.update_self ..
    · have := S.alone hcrit hne
      rw [h] at this
      cases this
  · rcases moved_eq hu with ⟨-, h⟩ | ⟨-, h⟩
    · cases h
    · exact K.begun u e v n h

theorem Numbered.exchange [Fintype ι] (K : Numbered s) (S : PhaserSafe s) {even : Bool}
    (hl : s.pc t = .exchanging even) : Numbered (s.moved t { s.shared with
      phaser := { s.shared.phaser with
        startEpoch := HdrWriterReaderPhaser.initialStartValue even }
      phase := s.shared.phase + 1
      entries := 0 } (.polling even s.shared.phaser.startEpoch (s.shared.phase + 1))) := by
  have hcrit : (s.pc t).toPc.critical = true := by rw [hl]; rfl
  refine ⟨?_, fun u val n hu => ?_, K.counted, fun n hn => ?_, K.parity, fun u e hu => ?_,
    fun u e v n hu => ?_⟩
  · rw [moved_shared]
    dsimp only
    rw [isEven_initialStartValue]
    exact K.exchanging t even hl
  · rcases moved_eq hu with ⟨-, h⟩ | ⟨-, h⟩
    · cases h
    · obtain ⟨hown, hle⟩ := K.inside u val n h
      exact ⟨hown, Nat.le_succ_of_le hle⟩
  · exact K.later n (Nat.lt_of_succ_lt hn)
  · rcases moved_eq hu with ⟨-, h⟩ | ⟨hne, h⟩
    · cases h
    · have := S.alone hcrit hne
      rw [h] at this
      cases this
  · rcases moved_eq hu with ⟨-, h⟩ | ⟨hne, h⟩
    · cases h
      rfl
    · have := S.alone hcrit hne
      rw [h] at this
      cases this

theorem Numbered.step [Fintype ι] (K : Numbered s) (S : PhaserSafe s)
    (h : PhaserStepped s.shared (s.pc t) g l) (hfit : g.EntriesFit) :
    Numbered (s.moved t g l) := by
  generalize hl : s.pc t = l₀ at h
  cases h with
  | enter =>
      obtain ⟨-, hsame⟩ := startEpoch_succ S.phased hfit
      refine K.kept rfl rfl rfl rfl hsame (fun val n h => ?_) (by simp) (by simp)
      cases h
      exact ⟨hsame, rfl⟩
  | exit => exact K.exit S hl
  | clear => exact K.clear S hl
  | exchange => exact K.exchange S hl
  | wait hv =>
      refine K.kept rfl rfl rfl rfl rfl (by simp) (by simp) fun e v n h => ?_
      exact K.begun t e v n (hl.trans h)
  | _ => exact K.kept rfl rfl rfl rfl rfl (by simp) (by simp) (by simp)

/-- What holds of the phaser in every state of a run. -/
structure Quiescent [Fintype ι] (s : PhaserState ι) : Prop where
  /-- When a flip returns, the writers that entered before its exchange have left. -/
  returns : ∀ t a g even v begun, s.pc t = .polling even v begun →
    phaserStep a s.shared (s.pc t) = some (g, .locked) →
      ∀ u val entered, s.pc u = .inside val entered → begun ≤ entered
  /-- Without a flip, the exits of the current phase and the writers inside are its entries. -/
  idle : (∀ u, (s.pc u).flipping = false) →
    (s.shared.phaser.endEpoch (isEven s.shared.phaser.startEpoch)).toInt +
        count (fun l => l.isInside = true) s.pc = s.shared.phaser.startEpoch.toInt ∧
      ∀ u val entered, s.pc u = .inside val entered →
        isEven val = isEven s.shared.phaser.startEpoch ∧ entered = s.shared.phase
  /-- The end epoch that the exit of a writer increments counts the phase of its enter. -/
  own : ∀ u val entered, s.pc u = .inside val entered →
    s.shared.clearedFor (isEven val) = entered
  counted : ∀ even, (s.shared.phaser.endEpoch even).toInt =
    (HdrWriterReaderPhaser.initialStartValue even).toInt +
      s.shared.exits (s.shared.clearedFor even)

omit [DecidableEq ι] in
/-- A flip that returns has found the phase before its own empty. -/
theorem Numbered.returns [Fintype ι] (K : Numbered s) (S : PhaserSafe s) {a : PhaserAction}
    {even : Bool} {v : Int64} {n : ℕ} (hl : s.pc t = .polling even v n)
    (h : phaserStep a s.shared (s.pc t) = some (g, .locked)) {u : ι} {val : Int64} {k : ℕ}
    (hu : s.pc u = .inside val k) : n ≤ k := by
  have hstep := phaserStep_cases h
  rw [hl] at hstep
  cases hstep with
  | caughtUp hv =>
      rw [polledEpoch_eq] at hv
      obtain ⟨heven, hempty⟩ := S.phased.drained
        (show ((toRecorderState s).pc t).polls = some (even, v) from
          congrArg (fun l => l.toPc.polls) hl) hv
      have hval : isEven val = even := by
        by_contra hne
        refine count_eq_zero_iff.mp hempty u ?_
        rw [← Bool.eq_not_of_ne hne]
        exact congrArg (fun l => l.toPc.phase) hu
      have hcur : even = isEven s.shared.phaser.startEpoch := heven
      rw [K.begun t even v n hl, ← K.current, ← hcur, ← hval, (K.inside u val k hu).1]

theorem PhaserPc.polls_of_flipping {l : PhaserPc} (h : l.flipping = false) :
    l.toPc.polls = none := by
  cases l <;> first | rfl | cases h

omit [DecidableEq ι] in
theorem Numbered.idle [Fintype ι] (K : Numbered s) (S : PhaserSafe s)
    (h : ∀ u, (s.pc u).flipping = false) :
    (s.shared.phaser.endEpoch (isEven s.shared.phaser.startEpoch)).toInt +
        count (fun l => l.isInside = true) s.pc = s.shared.phaser.startEpoch.toInt ∧
      ∀ u val entered, s.pc u = .inside val entered →
        isEven val = isEven s.shared.phaser.startEpoch ∧ entered = s.shared.phase := by
  have hempty := S.phased.previous fun u => PhaserPc.polls_of_flipping (h u)
  have hinside : ∀ u val n, s.pc u = .inside val n →
      isEven val = isEven s.shared.phaser.startEpoch := by
    intro u val n hu
    by_contra hne
    refine count_eq_zero_iff.mp hempty u ?_
    exact (congrArg (fun l => l.toPc.phase) hu).trans (congrArg some (Bool.eq_not_of_ne hne))
  constructor
  · have hcount : count (fun l => l.isInside = true) s.pc =
        writersIn (isEven s.shared.phaser.startEpoch) (toRecorderState s).pc := by
      refine Finset.sum_congr rfl fun u _ => if_congr ?_ rfl rfl
      change _ ↔ (s.pc u).toPc.phase = _
      cases hu : s.pc u with
      | inside val n => simp [PhaserPc.isInside, PhaserPc.toPc, Pc.phase, hinside u val n hu]
      | _ => simp [PhaserPc.isInside, PhaserPc.toPc, Pc.phase]
    rw [hcount]
    exact S.phased.current
  · intro u val n hu
    have hval := hinside u val n hu
    exact ⟨hval, by rw [← (K.inside u val n hu).1, hval, K.current]⟩

/-- The phaser is quiescent in every state, under any interleaving of any writers and readers. -/
theorem phaser_quiescent [Fintype ι] (run : PhaserRuns s) : Quiescent s := by
  obtain ⟨S, K⟩ := run.invariant (P := fun s => PhaserSafe s ∧ Numbered s)
    ⟨phaserSafe_initial, numbered_initial⟩ fun _ _ _ _ _ _ K hstep hfit =>
      ⟨K.1.step (phaserStep_cases hstep) hfit, K.2.step K.1 (phaserStep_cases hstep) hfit⟩
  exact
    { returns := fun t a g even v begun hl h u val entered hu => K.returns S hl h hu
      idle := K.idle S
      own := fun u val entered hu => (K.inside u val entered hu).1
      counted := K.counted }

end Runs

/-- A writer that enters between the load and the exchange of a flip, which waits for it. -/
def phaserSchedule : List (Fin 2 × PhaserAction) :=
  [(1, .readerLock), (1, .flipPhase), (0, .writerEnter), (1, .proceed), (1, .proceed),
    (1, .proceed), (0, .writerExit), (1, .proceed), (0, .writerEnter)]

theorem phaser_quiescent_sample : ∃ s : PhaserState (Fin 2),
    schedule phaserStep PhaserRun.EntriesFit phaserSchedule
        ⟨PhaserRun.initial, fun _ => .outside⟩ = some s ∧
      s.pc 1 = .locked ∧ s.pc 0 = .inside (Int64.minValue + 1) 1 ∧ Quiescent s := by
  have hrun : (schedule phaserStep PhaserRun.EntriesFit phaserSchedule
      ⟨PhaserRun.initial, fun _ => .outside⟩).map (fun s => (s.pc 1, s.pc 0)) =
        some (.locked, .inside (Int64.minValue + 1) 1) := by decide +kernel
  obtain ⟨s, hs, hpc⟩ := Option.map_eq_some_iff.mp hrun
  rw [Prod.mk.injEq] at hpc
  exact ⟨s, hs, hpc.1, hpc.2, phaser_quiescent (Reachable.start.schedule hs)⟩

end HdrHistogramC
