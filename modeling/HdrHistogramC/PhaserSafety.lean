import HdrHistogramC.FixedWidth
import HdrHistogramC.IntervalRecorder

/-!
# The mutex, the owners and the epochs

Three invariants of the interval recorder. The mutex excludes readers; every histogram
has at most one owner; and the exits of a phase and the writers still in it add up to
its entries, while outside the current phase there are writers only as long as a flip
polls for them.
-/
namespace HdrHistogramC
open Threads FixedWidth

variable {ι H W C R : Type} [DecidableEq ι] {O : HistogramCalls H W C R}

inductive Stepped (O : HistogramCalls H W C R) (g : Recorder H C R) :
    Pc W C R → Recorder H C R → Pc W C R → Prop
  | enter (c : C) : Stepped O g .idle
      { g with phaser := g.phaser.writerEnter, entries := g.entries + 1 }
      (.entered (g.phaser.startEpoch + 1) c)
  | allocate {h : H} : O.init (g.heap g.active) = some h → Stepped O g .idle
      { g with
        heap := Function.update g.heap g.allocated h
        allocated := g.allocated + 1
        left := Function.update g.left g.allocated 0 } (.locking g.allocated)
  | recycle {x : ℕ} : x ∈ g.obtained → Stepped O g .idle
      { g with
        heap := Function.update g.heap x (O.reset (g.heap x))
        obtained := g.obtained.erase x
        left := Function.update g.left x 0 } (.locking x)
  | load {val : Int64} {c : C} {w : W} : O.updateAction c (g.heap g.active) = .inl w →
      Stepped O g (.entered val c) g (.updating val g.active c w)
  | refuse {val : Int64} {c : C} {r : R} : O.updateAction c (g.heap g.active) = .inr r →
      Stepped O g (.entered val c) g (.leaving val g.active c r)
  | operate {val : Int64} {p : ℕ} {c : C} {w w' : W} {h : H} :
      O.operation w (g.heap p) = some (h, .inl w') → Stepped O g (.updating val p c w)
        { g with heap := Function.update g.heap p h } (.updating val p c w')
  | finish {val : Int64} {p : ℕ} {c : C} {w : W} {r : R} {h : H} :
      O.operation w (g.heap p) = some (h, .inr r) → Stepped O g (.updating val p c w)
        { g with heap := Function.update g.heap p h } (.leaving val p c r)
  | exit {val : Int64} {p : ℕ} {c : C} {r : R} : Stepped O g (.leaving val p c r)
      { g with
        phaser := g.phaser.writerExit val
        left := Function.update g.left p (g.left p + {(c, r)})
        exited := g.exited + {(c, r)} } .idle
  | lock {new : ℕ} : g.phaser.readerMutex = false → Stepped O g (.locking new)
      { g with phaser := { g.phaser with readerMutex := true } } (.loading new)
  | loadOld {new : ℕ} : Stepped O g (.loading new) g (.storing new g.active)
  | store {new old : ℕ} : Stepped O g (.storing new old)
      { g with active := new, live := insert new g.live } (.readingEpoch old)
  | readEpoch {old : ℕ} : Stepped O g (.readingEpoch old) g
      (.clearing old (g.phaser.startEpoch < 0))
  | clear {old : ℕ} {even : Bool} : Stepped O g (.clearing old even)
      { g with phaser := g.phaser.clearEndEpoch even } (.exchanging old even)
  | exchange {old : ℕ} {even : Bool} : Stepped O g (.exchanging old even)
      { g with
        phaser := { g.phaser with
          startEpoch := HdrWriterReaderPhaser.initialStartValue even }
        entries := 0 } (.polling old even g.phaser.startEpoch)
  | caughtUp {old : ℕ} {even : Bool} {v : Int64} : g.phaser.polledEpoch even = v →
      Stepped O g (.polling old even v) g (.unlocking old)
  | wait {old : ℕ} {even : Bool} {v : Int64} : g.phaser.polledEpoch even ≠ v →
      Stepped O g (.polling old even v) g (.polling old even v)
  | unlock {old : ℕ} : Stepped O g (.unlocking old)
      { g with phaser := { g.phaser with readerMutex := false } } (.returning old)
  | handOver {old : ℕ} : Stepped O g (.returning old)
      { g with
        obtained := insert old g.obtained
        live := g.live.erase old
        samples := g.samples ++ [(g.heap old, g.left old)] } .idle

theorem step_cases {a : Action C} {g g' : Recorder H C R} {l l' : Pc W C R}
    (h : step O a g l = some (g', l')) : Stepped O g l g' l' := by
  unfold step at h
  split at h
  case h_1 => cases h; exact .enter _
  case h_2 =>
    obtain ⟨x, hx, heq⟩ := Option.map_eq_some_iff.mp h
    cases heq
    exact .allocate hx
  case h_3 =>
    split_ifs at h with hx
    cases h
    exact .recycle hx
  case h_4 =>
    cases hu : O.updateAction _ _ with
    | inl w => rw [hu] at h; cases h; exact .load hu
    | inr r => rw [hu] at h; cases h; exact .refuse hu
  case h_5 =>
    obtain ⟨⟨h₁, r⟩, ho, heq⟩ := Option.map_eq_some_iff.mp h
    cases r with
    | inl w => cases heq; exact .operate ho
    | inr r => cases heq; exact .finish ho
  case h_6 => cases h; exact .exit
  case h_7 =>
    split_ifs at h with hm
    cases h
    exact .lock (by simpa using hm)
  case h_8 => cases h; exact .loadOld
  case h_9 => cases h; exact .store
  case h_10 => cases h; exact .readEpoch
  case h_11 => cases h; exact .clear
  case h_12 => cases h; exact .exchange
  case h_13 =>
    split_ifs at h with hv
    · cases h; exact .caughtUp hv
    · cases h; exact .wait hv
  case h_14 => cases h; exact .unlock
  case h_15 => cases h; exact .handOver
  case h_16 => cases h

/-- Between taking and releasing the mutex. -/
def Pc.critical : Pc W C R → Bool
  | .loading _ | .storing _ _ | .readingEpoch _ | .clearing _ _ | .exchanging _ _
  | .polling _ _ _ | .unlocking _ => true
  | _ => false

structure Locked (s : RecorderState ι H W C R) : Prop where
  exclusive : ∀ t u, (s.pc t).critical = true → (s.pc u).critical = true → t = u
  free : s.shared.phaser.readerMutex = false → ∀ t, (s.pc t).critical = false

section Locked
variable {s : RecorderState ι H W C R} {t : ι} {g : Recorder H C R} {l : Pc W C R}

@[simp] theorem writerExit_readerMutex (p : HdrWriterReaderPhaser) (v : Int64) :
    (p.writerExit v).readerMutex = p.readerMutex := by
  unfold HdrWriterReaderPhaser.writerExit
  split_ifs <;> rfl

@[simp] theorem clearEndEpoch_readerMutex (p : HdrWriterReaderPhaser) (even : Bool) :
    (p.clearEndEpoch even).readerMutex = p.readerMutex := by
  unfold HdrWriterReaderPhaser.clearEndEpoch
  split_ifs <;> rfl

theorem Locked.same (K : Locked s) (hc : l.critical = (s.pc t).critical)
    (hm : g.phaser.readerMutex = s.shared.phaser.readerMutex) : Locked (s.moved t g l) where
  exclusive u v hu hv := by
    rw [view_moved hc] at hu hv
    exact K.exclusive u v hu hv
  free hfree u := by
    rw [view_moved hc]
    exact K.free (hm ▸ hfree) u

theorem Locked.acquired (K : Locked s) (hfree : s.shared.phaser.readerMutex = false)
    (hm : g.phaser.readerMutex = true) : Locked (s.moved t g l) := by
  have hself : ∀ u, ((s.moved t g l).pc u).critical = true → u = t := by
    intro u hu
    by_contra hne
    rw [moved_pc_of_ne hne, K.free hfree u] at hu
    cases hu
  refine ⟨fun u v hu hv => by rw [hself u hu, hself v hv], fun h => ?_⟩
  rw [moved_shared, hm] at h
  cases h

theorem Locked.released (K : Locked s) (hc : (s.pc t).critical = true)
    (hl : l.critical = false) : Locked (s.moved t g l) := by
  have hout : ∀ u, ((s.moved t g l).pc u).critical = false := by
    intro u
    by_cases hu : u = t
    · rw [hu, moved_pc_self, hl]
    · rw [moved_pc_of_ne hu]
      by_contra h
      exact hu (K.exclusive u t (by simpa using h) hc)
  exact ⟨fun u v hu => absurd hu (by rw [hout u]; decide), fun _ => hout⟩

theorem Locked.step (K : Locked s) (h : Stepped O s.shared (s.pc t) g l) :
    Locked (s.moved t g l) := by
  generalize hl : s.pc t = l₀ at h
  cases h with
  | lock hm => exact K.acquired hm rfl
  | unlock => exact K.released (by rw [hl]; rfl) rfl
  | _ => exact K.same (by simp [hl, Pc.critical]) (by simp [HdrWriterReaderPhaser.writerEnter])

omit [DecidableEq ι] in
theorem Locked.other (K : Locked s) (hc : (s.pc t).critical = true) {u : ι} (hu : u ≠ t) :
    (s.pc u).critical = false := by
  by_contra h
  exact hu (K.exclusive u t (by simpa using h) hc)

end Locked

/-- The histogram that a sample call was given, or will return. -/
def Pc.owns : Pc W C R → Option ℕ
  | .locking new | .loading new | .storing new _ => some new
  | .readingEpoch old | .clearing old _ | .exchanging old _ | .polling old _ _
  | .unlocking old | .returning old => some old
  | _ => none

/-- The histogram that `r->active` pointed to before the swap. -/
def Pc.retires : Pc W C R → Option ℕ
  | .readingEpoch old | .clearing old _ | .exchanging old _ | .polling old _ _
  | .unlocking old | .returning old => some old
  | _ => none

theorem Pc.owns_of_retires {l : Pc W C R} {q : ℕ} (h : l.retires = some q) : l.owns = some q := by
  cases l <;> first | exact h | cases h

structure Owned (s : RecorderState ι H W C R) : Prop where
  active_lt : s.shared.active < s.shared.allocated
  active_obtained : s.shared.active ∉ s.shared.obtained
  obtained_lt : ∀ q ∈ s.shared.obtained, q < s.shared.allocated
  owns_lt : ∀ t q, (s.pc t).owns = some q → q < s.shared.allocated
  owns_active : ∀ t, (s.pc t).owns ≠ some s.shared.active
  owns_obtained : ∀ t q, (s.pc t).owns = some q → q ∉ s.shared.obtained
  unique : ∀ t u q, (s.pc t).owns = some q → (s.pc u).owns = some q → t = u
  stored : ∀ t new old, s.pc t = .storing new old → old = s.shared.active

section Owned
variable {s : RecorderState ι H W C R} {t : ι} {g : Recorder H C R} {l : Pc W C R}

/-- A step keeps the owners apart when it does so for the thread that moves, and leaves
to the others what they own. -/
theorem Owned.moved (K : Owned s) (ha : g.active < g.allocated) (hb : g.active ∉ g.obtained)
    (hn : s.shared.allocated ≤ g.allocated) (hlt : ∀ q ∈ g.obtained, q < g.allocated)
    (hl : ∀ q, l.owns = some q → q < g.allocated ∧ q ≠ g.active ∧ q ∉ g.obtained ∧
      ∀ u, u ≠ t → (s.pc u).owns ≠ some q)
    (hu : ∀ u q, u ≠ t → (s.pc u).owns = some q → q ≠ g.active ∧ q ∉ g.obtained)
    (hs : ∀ new old, l = .storing new old → old = g.active)
    (hs' : ∀ u new old, u ≠ t → s.pc u = .storing new old → old = g.active) :
    Owned (s.moved t g l) := by
  have howner : ∀ u q, ((s.moved t g l).pc u).owns = some q →
      (u = t ∧ l.owns = some q) ∨ (u ≠ t ∧ (s.pc u).owns = some q) := by
    intro u q h
    by_cases hut : u = t
    · rw [hut, moved_pc_self] at h
      exact .inl ⟨hut, h⟩
    · rw [moved_pc_of_ne hut] at h
      exact .inr ⟨hut, h⟩
  refine ⟨ha, hb, hlt, fun u q h => ?_, fun u h => ?_, fun u q h => ?_, fun u v q h h' => ?_,
    fun u new old h => ?_⟩
  · rcases howner u q h with ⟨-, ho⟩ | ⟨-, ho⟩
    · exact (hl q ho).1
    · exact (K.owns_lt u q ho).trans_le hn
  · rcases howner u _ h with ⟨-, ho⟩ | ⟨hut, ho⟩
    · exact (hl _ ho).2.1 rfl
    · exact (hu u _ hut ho).1 rfl
  · rcases howner u q h with ⟨-, ho⟩ | ⟨hut, ho⟩
    · exact (hl q ho).2.2.1
    · exact (hu u q hut ho).2
  · rcases howner u q h with ⟨hut, ho⟩ | ⟨hut, ho⟩ <;>
      rcases howner v q h' with ⟨hvt, ho'⟩ | ⟨hvt, ho'⟩
    · rw [hut, hvt]
    · exact absurd ho' ((hl q ho).2.2.2 v hvt)
    · exact absurd ho ((hl q ho').2.2.2 u hut)
    · exact K.unique u v q ho ho'
  · by_cases hut : u = t
    · rw [hut, moved_pc_self] at h
      exact hs new old h
    · rw [moved_pc_of_ne hut] at h
      exact hs' u new old hut h

omit [DecidableEq ι] in
theorem Owned.apart (K : Owned s) {q : ℕ} (h : (s.pc t).owns = some q) :
    q ≠ s.shared.active ∧ ∀ u, u ≠ t → (s.pc u).owns ≠ some q :=
  ⟨fun hq => K.owns_active t (hq ▸ h), fun u hu hq => hu (K.unique u t q hq h)⟩

theorem Owned.same (K : Owned s) (ho : l.owns = (s.pc t).owns)
    (hs : ∀ new old, l = .storing new old → old = s.shared.active)
    (ha : g.active = s.shared.active) (hn : g.allocated = s.shared.allocated)
    (hb : g.obtained = s.shared.obtained) : Owned (s.moved t g l) := by
  refine K.moved ?_ ?_ hn.ge ?_ (fun q hq => ?_) (fun u q _ hq => ?_) ?_ ?_
  · rw [ha, hn]
    exact K.active_lt
  · rw [ha, hb]
    exact K.active_obtained
  · rw [hb, hn]
    exact K.obtained_lt
  · rw [ho] at hq
    rw [ha, hb, hn]
    exact ⟨K.owns_lt t q hq, (K.apart hq).1, K.owns_obtained t q hq, (K.apart hq).2⟩
  · rw [ha, hb]
    exact ⟨(K.apart hq).1, K.owns_obtained u q hq⟩
  · rw [ha]
    exact hs
  · rw [ha]
    exact fun u new old _ h => K.stored u new old h

theorem Owned.taken (K : Owned s) {x : ℕ} (hl : l.owns = some x)
    (hs : ∀ new old, l ≠ .storing new old) (ha : g.active = s.shared.active)
    (hx : x < g.allocated) (hxa : x ≠ s.shared.active) (hxb : x ∉ g.obtained)
    (hn : s.shared.allocated ≤ g.allocated) (hb : g.obtained ⊆ s.shared.obtained)
    (hfree : ∀ u, (s.pc u).owns ≠ some x) : Owned (s.moved t g l) := by
  refine K.moved ?_ ?_ hn (fun q hq => (K.obtained_lt q (hb hq)).trans_le hn) (fun q hq => ?_)
    (fun u q _ hq => ?_) (fun new old h => absurd h (hs new old)) ?_
  · rw [ha]
    exact K.active_lt.trans_le hn
  · rw [ha]
    exact fun h => K.active_obtained (hb h)
  · rw [hl, Option.some.injEq] at hq
    rw [← hq, ha]
    exact ⟨hx, hxa, hxb, fun u _ => hfree u⟩
  · rw [ha]
    exact ⟨(K.apart hq).1, fun h => K.owns_obtained u q hq (hb h)⟩
  · rw [ha]
    exact fun u new old _ h => K.stored u new old h

/-- The swap: the new histogram becomes active, and the old one is owned. -/
theorem Owned.swapped (K : Owned s) (L : Locked s) {new old : ℕ}
    (hl : s.pc t = .storing new old) (ha : g.active = new)
    (hn : g.allocated = s.shared.allocated) (hb : g.obtained = s.shared.obtained) :
    Owned (s.moved t g (.readingEpoch old)) := by
  have hold := K.stored t new old hl
  have hnew : (s.pc t).owns = some new := by rw [hl]; rfl
  refine K.moved ?_ ?_ hn.ge ?_ (fun q hq => ?_) (fun u q hut hq => ?_)
    (fun new' old' h => by cases h) (fun u new' old' hut h => ?_)
  · rw [ha, hn]
    exact K.owns_lt t new hnew
  · rw [ha, hb]
    exact K.owns_obtained t new hnew
  · rw [hb, hn]
    exact K.obtained_lt
  · cases hq
    rw [ha, hb, hn, hold]
    exact ⟨K.active_lt, (K.apart hnew).1.symm, K.active_obtained, fun u _ => K.owns_active u⟩
  · rw [ha, hb]
    exact ⟨fun h => (K.apart hnew).2 u hut (h ▸ hq), K.owns_obtained u q hq⟩
  · have hc := L.other (by rw [hl]; rfl) hut
    rw [h] at hc
    cases hc

theorem Owned.returned (K : Owned s) {old : ℕ} (hown : (s.pc t).owns = some old)
    (ha : g.active = s.shared.active) (hn : g.allocated = s.shared.allocated)
    (hb : g.obtained = insert old s.shared.obtained) : Owned (s.moved t g .idle) := by
  refine K.moved ?_ ?_ hn.ge (fun q hq => ?_) (fun q hq => by cases hq) (fun u q hut hq => ?_)
    (fun new old h => by cases h) ?_
  · rw [ha, hn]
    exact K.active_lt
  · rw [ha, hb, Finset.mem_insert, not_or]
    exact ⟨(K.apart hown).1.symm, K.active_obtained⟩
  · rw [hb, Finset.mem_insert] at hq
    rw [hn]
    rcases hq with rfl | hq
    · exact K.owns_lt t q hown
    · exact K.obtained_lt q hq
  · rw [ha, hb, Finset.mem_insert, not_or]
    exact ⟨(K.apart hq).1, fun h => (K.apart hown).2 u hut (h ▸ hq), K.owns_obtained u q hq⟩
  · rw [ha]
    exact fun u new old _ h => K.stored u new old h

theorem Owned.step (K : Owned s) (L : Locked s) (h : Stepped O s.shared (s.pc t) g l) :
    Owned (s.moved t g l) := by
  generalize hl : s.pc t = l₀ at h
  cases h with
  | allocate hinit =>
      exact K.taken rfl (by simp) rfl (Nat.lt_succ_self _) K.active_lt.ne'
        (fun h => (K.obtained_lt _ h).false) (Nat.le_succ _) (fun _ h => h)
        fun u hu => (K.owns_lt u _ hu).false
  | recycle hx =>
      exact K.taken rfl (by simp) rfl (K.obtained_lt _ hx)
        (fun h => K.active_obtained (h ▸ hx)) (by simp) le_rfl (Finset.erase_subset _ _)
        fun u hu => K.owns_obtained u _ hu hx
  | loadOld =>
      refine K.same (by rw [hl]; rfl) (fun new old h => ?_) rfl rfl rfl
      cases h
      rfl
  | store => exact K.swapped L hl rfl rfl rfl
  | handOver => exact K.returned (by rw [hl]; rfl) rfl rfl rfl
  | _ => exact K.same (by simp [hl, Pc.owns]) (by simp) rfl rfl rfl

end Owned

/-- The phase of a critical value, or of the start epoch. -/
def isEven (v : Int64) : Bool := !decide (v < 0)

def HdrWriterReaderPhaser.endEpoch (p : HdrWriterReaderPhaser) (even : Bool) : Int64 :=
  if even then p.evenEndEpoch else p.oddEndEpoch

/-- The phase that a writer has entered and not left. -/
def Pc.phase : Pc W C R → Option Bool
  | .entered v _ | .updating v _ _ _ | .leaving v _ _ _ => some (isEven v)
  | _ => none

def Pc.polls : Pc W C R → Option (Bool × Int64)
  | .polling _ even v => some (even, v)
  | _ => none

def Pc.nextPhase : Pc W C R → Option Bool
  | .clearing _ even | .exchanging _ even => some even
  | _ => none

def Pc.cleared : Pc W C R → Option Bool
  | .exchanging _ even => some even
  | _ => none

/-- The writers that are in a phase. -/
def writersIn [Fintype ι] (even : Bool) (pc : ι → Pc W C R) : ℕ :=
  count (fun l => l.phase = some even) pc

/-- The exits of a phase and the writers still in it add up to its entries; outside the
current phase there are writers only while a flip polls for them. -/
structure Phased [Fintype ι] (s : RecorderState ι H W C R) : Prop where
  fit : s.shared.entries < 2 ^ 63
  start : s.shared.phaser.startEpoch.toInt = (HdrWriterReaderPhaser.initialStartValue
    (isEven s.shared.phaser.startEpoch)).toInt + s.shared.entries
  current : (s.shared.phaser.endEpoch (isEven s.shared.phaser.startEpoch)).toInt +
    writersIn (isEven s.shared.phaser.startEpoch) s.pc = s.shared.phaser.startEpoch.toInt
  previous : (∀ u, (s.pc u).polls = none) →
    writersIn (!isEven s.shared.phaser.startEpoch) s.pc = 0
  polled : ∀ u even v, (s.pc u).polls = some (even, v) →
    even = isEven s.shared.phaser.startEpoch ∧
      (s.shared.phaser.endEpoch (!even)).toInt + writersIn (!even) s.pc = v.toInt
  next : ∀ u even, (s.pc u).nextPhase = some even → even = !isEven s.shared.phaser.startEpoch
  cleared : ∀ u even, (s.pc u).cleared = some even →
    s.shared.phaser.endEpoch even = HdrWriterReaderPhaser.initialStartValue even

theorem isEven_eq (v : Int64) : isEven v = decide (0 ≤ v.toInt) := by
  rw [isEven, ← decide_not]
  congr 1
  rw [Int64.lt_iff_toInt_lt, Int64.toInt_zero, not_lt]

theorem initialStartValue_toInt (even : Bool) :
    (HdrWriterReaderPhaser.initialStartValue even).toInt = if even then 0 else -2 ^ 63 := by
  cases even <;> decide

theorem isEven_initialStartValue (even : Bool) :
    isEven (HdrWriterReaderPhaser.initialStartValue even) = even := by
  cases even <;> decide

theorem Pc.outside {l : Pc W C R} (h : l.critical = false) :
    l.polls = none ∧ l.nextPhase = none ∧ l.cleared = none := by
  cases l <;> first | exact ⟨rfl, rfl, rfl⟩ | cases h

theorem Pc.critical_of_polls {l : Pc W C R} (h : l.polls ≠ none) : l.critical = true := by
  by_contra hc
  exact h (Pc.outside (by simpa using hc)).1

theorem Pc.exchanging_of_cleared {l : Pc W C R} {even : Bool} (h : l.cleared = some even) :
    l.critical = true ∧ l.polls = none ∧ l.nextPhase = some even := by
  cases l with
  | exchanging old e => exact ⟨rfl, rfl, h⟩
  | _ => cases h

section Phased
variable [Fintype ι] {s : RecorderState ι H W C R} {t : ι} {g : Recorder H C R} {l : Pc W C R}

theorem Phased.same (K : Phased s) (hp : l.phase = (s.pc t).phase)
    (hpoll : l.polls = (s.pc t).polls) (hnext : l.nextPhase = (s.pc t).nextPhase)
    (hclear : l.cleared = (s.pc t).cleared)
    (hs : g.phaser.startEpoch = s.shared.phaser.startEpoch)
    (he : g.phaser.endEpoch = s.shared.phaser.endEpoch) (hn : g.entries = s.shared.entries) :
    Phased (s.moved t g l) := by
  have hw : ∀ even, writersIn even (s.moved t g l).pc = writersIn even s.pc :=
    fun even => count_update_same (by rw [hp])
  refine ⟨?_, ?_, ?_, fun h => ?_, fun u even v hu => ?_, fun u even hu => ?_,
    fun u even hu => ?_⟩
  · rw [moved_shared, hn]; exact K.fit
  · rw [moved_shared, hn, hs]; exact K.start
  · rw [moved_shared, hs, he, hw]; exact K.current
  · rw [moved_shared, hs, hw]
    exact K.previous fun u => by rw [← view_moved hpoll]; exact h u
  · rw [view_moved hpoll] at hu
    rw [moved_shared, hs, he, hw]
    exact K.polled u even v hu
  · rw [view_moved hnext] at hu
    rw [moved_shared, hs]
    exact K.next u even hu
  · rw [view_moved hclear] at hu
    rw [moved_shared, he]
    exact K.cleared u even hu

omit [DecidableEq ι] in
theorem startEpoch_succ (K : Phased s) (hfit : s.shared.entries + 1 < 2 ^ 63) :
    (s.shared.phaser.startEpoch + 1).toInt = s.shared.phaser.startEpoch.toInt + 1 ∧
      isEven (s.shared.phaser.startEpoch + 1) = isEven s.shared.phaser.startEpoch := by
  have hstart := K.start
  rw [initialStartValue_toInt] at hstart
  have hlow := s.shared.phaser.startEpoch.le_toInt
  have hhigh : s.shared.phaser.startEpoch.toInt + 1 < 2 ^ 63 := by split at hstart <;> omega
  have hsucc : (s.shared.phaser.startEpoch + 1).toInt =
      s.shared.phaser.startEpoch.toInt + 1 := by
    rw [add64] <;> rw [Int64.toInt_one] <;> omega
  refine ⟨hsucc, ?_⟩
  have hcur := isEven_eq s.shared.phaser.startEpoch
  rw [isEven_eq, hsucc, hcur]
  rw [hcur] at hstart
  simp only [decide_eq_true_eq] at hstart
  split at hstart <;> simp only [decide_eq_decide] <;> omega

theorem Phased.enter (K : Phased s) (hp : (s.pc t).phase = none)
    (hl : l.phase = some (isEven (s.shared.phaser.startEpoch + 1)))
    (hpoll : l.polls = (s.pc t).polls) (hnext : l.nextPhase = (s.pc t).nextPhase)
    (hclear : l.cleared = (s.pc t).cleared)
    (hs : g.phaser.startEpoch = s.shared.phaser.startEpoch + 1)
    (he : g.phaser.endEpoch = s.shared.phaser.endEpoch) (hn : g.entries = s.shared.entries + 1)
    (hfit : g.entries < 2 ^ 63) : Phased (s.moved t g l) := by
  obtain ⟨hsucc, hsame⟩ := startEpoch_succ K (hn ▸ hfit)
  have hcur : writersIn (isEven s.shared.phaser.startEpoch) (s.moved t g l).pc =
      writersIn (isEven s.shared.phaser.startEpoch) s.pc + 1 :=
    count_update_enter (by rw [hl, hsame]) (by rw [hp]; simp)
  have hother : writersIn (!isEven s.shared.phaser.startEpoch) (s.moved t g l).pc =
      writersIn (!isEven s.shared.phaser.startEpoch) s.pc := by
    apply count_update_same
    rw [hl, hp, hsame]
    simp
  have hcurrent := K.current
  have hstart := K.start
  refine ⟨hfit, ?_, ?_, fun h => ?_, fun u even v hu => ?_, fun u even hu => ?_,
    fun u even hu => ?_⟩
  · rw [moved_shared, hs, hsame, hsucc, hstart, hn]
    push_cast
    ring
  · rw [moved_shared, hs, hsame, hsucc, hcur, he, ← hcurrent]
    push_cast
    ring
  · rw [moved_shared, hs, hsame, hother]
    exact K.previous fun u => by rw [← view_moved hpoll]; exact h u
  · rw [view_moved hpoll] at hu
    obtain ⟨heven, hsum⟩ := K.polled u even v hu
    rw [moved_shared, hs, he, hsame]
    rw [heven] at hsum ⊢
    rw [hother]
    exact ⟨rfl, hsum⟩
  · rw [view_moved hnext] at hu
    rw [moved_shared, hs, hsame]
    exact K.next u even hu
  · rw [view_moved hclear] at hu
    rw [moved_shared, he]
    exact K.cleared u even hu

/-- One exit more and one writer less leave their sum, which is a 64-bit value. -/
theorem endEpoch_succ {e v : Int64} {n n' : ℕ} (h : e.toInt + n = v.toInt) (hn : n' + 1 = n) :
    (e + 1).toInt + n' = v.toInt := by
  have hlow := e.le_toInt
  have hhigh := v.toInt_lt
  rw [add64] <;> rw [Int64.toInt_one] <;> omega

omit [DecidableEq ι] in
/-- A phase that has writers is the current one, or a flip polls for it; either way its
exits and its writers add up to a 64-bit value. -/
theorem Phased.exists_entries (K : Phased s) {even : Bool} (hp : (s.pc t).phase = some even) :
    ∃ v : Int64, (s.shared.phaser.endEpoch even).toInt + writersIn even s.pc = v.toInt := by
  by_cases heven : isEven s.shared.phaser.startEpoch = even
  · exact ⟨_, heven ▸ K.current⟩
  · have hother : even = !isEven s.shared.phaser.startEpoch := Bool.eq_not_of_ne (Ne.symm heven)
    have hpolls : ∃ u, (s.pc u).polls ≠ none := by
      by_contra! hnone
      exact count_eq_zero_iff.mp (hother ▸ K.previous hnone) t hp
    obtain ⟨u, hu⟩ := hpolls
    obtain ⟨⟨e, v⟩, hev⟩ := Option.ne_none_iff_exists'.mp hu
    obtain ⟨he, hsum⟩ := K.polled u e v hev
    rw [he, ← hother] at hsum
    exact ⟨v, hsum⟩

theorem Phased.exit (K : Phased s) (L : Locked s) (even₀ : Bool)
    (hp : (s.pc t).phase = some even₀) (hl : l.phase = none)
    (hpoll : l.polls = (s.pc t).polls) (hnext : l.nextPhase = (s.pc t).nextPhase)
    (hclear : l.cleared = (s.pc t).cleared)
    (hs : g.phaser.startEpoch = s.shared.phaser.startEpoch)
    (he : g.phaser.endEpoch even₀ = s.shared.phaser.endEpoch even₀ + 1)
    (he' : g.phaser.endEpoch (!even₀) = s.shared.phaser.endEpoch (!even₀))
    (hn : g.entries = s.shared.entries) : Phased (s.moved t g l) := by
  have hleft : writersIn even₀ (s.moved t g l).pc + 1 = writersIn even₀ s.pc :=
    count_update_leave (by rw [hl]; simp) hp
  have hkept : writersIn (!even₀) (s.moved t g l).pc = writersIn (!even₀) s.pc := by
    apply count_update_same
    rw [hl, hp]
    simp
  have hsum : ∀ even, (g.phaser.endEpoch even).toInt + writersIn even (s.moved t g l).pc =
      (s.shared.phaser.endEpoch even).toInt + writersIn even s.pc := by
    intro even
    by_cases heven : even = even₀
    · obtain ⟨v, hv⟩ := K.exists_entries hp
      rw [heven, he, hv]
      exact endEpoch_succ hv hleft
    · rw [Bool.eq_not_of_ne heven, he', hkept]
  have hle : ∀ even, writersIn even (s.moved t g l).pc ≤ writersIn even s.pc := by
    intro even
    by_cases heven : even = even₀
    · rw [heven]
      omega
    · rw [Bool.eq_not_of_ne heven, hkept]
  refine ⟨by rw [moved_shared, hn]; exact K.fit, by rw [moved_shared, hn, hs]; exact K.start,
    ?_, fun h => ?_, fun u even v hu => ?_, fun u even hu => ?_, fun u even hu => ?_⟩
  · rw [moved_shared, hs, hsum]
    exact K.current
  · have hprevious := K.previous fun u => by rw [← view_moved hpoll]; exact h u
    rw [moved_shared, hs]
    exact Nat.le_zero.mp (hprevious ▸ hle _)
  · rw [view_moved hpoll] at hu
    rw [moved_shared, hs, hsum]
    exact K.polled u even v hu
  · rw [view_moved hnext] at hu
    rw [moved_shared, hs]
    exact K.next u even hu
  · rw [view_moved hclear] at hu
    rw [moved_shared]
    -- the phase that is cleared is empty: no flip polls for it
    obtain ⟨hcrit, hpoll₀, hnext₀⟩ := Pc.exchanging_of_cleared hu
    have hnone : ∀ w, (s.pc w).polls = none := by
      intro w
      by_contra hw
      obtain rfl := L.exclusive u w hcrit (Pc.critical_of_polls hw)
      exact hw hpoll₀
    have hempty := K.previous hnone
    rw [← K.next u even hnext₀] at hempty
    have hne : even = !even₀ := Bool.eq_not_of_ne fun h =>
      count_eq_zero_iff.mp (h ▸ hempty) t hp
    rw [hne, he', ← hne]
    exact K.cleared u even hu

omit [Fintype ι] in
theorem Locked.polls_moved (L : Locked s) (hc : (s.pc t).critical = true) {u : ι}
    (hu : u ≠ t) : ((s.moved t g l).pc u).polls = none ∧ ((s.moved t g l).pc u).nextPhase = none ∧
      ((s.moved t g l).pc u).cleared = none := by
  rw [moved_pc_of_ne hu]
  exact Pc.outside (L.other hc hu)

theorem Phased.announce (K : Phased s) (L : Locked s) (hc : (s.pc t).critical = true)
    (hp : l.phase = (s.pc t).phase) (hpoll : l.polls = (s.pc t).polls)
    (hclear : l.cleared = (s.pc t).cleared)
    (hnext : l.nextPhase = some (!isEven s.shared.phaser.startEpoch)) :
    Phased (s.moved t s.shared l) := by
  have hw : ∀ even, writersIn even (s.moved t s.shared l).pc = writersIn even s.pc :=
    fun even => count_update_same (by rw [hp])
  refine ⟨K.fit, K.start, ?_, fun h => ?_, fun u even v hu => ?_, fun u even hu => ?_,
    fun u even hu => ?_⟩
  · rw [moved_shared, hw]; exact K.current
  · rw [moved_shared, hw]
    exact K.previous fun u => by rw [← view_moved hpoll]; exact h u
  · rw [view_moved hpoll] at hu
    rw [moved_shared, hw]
    exact K.polled u even v hu
  · by_cases h : u = t
    · rw [h, moved_pc_self, hnext, Option.some.injEq] at hu
      exact hu.symm
    · rw [(L.polls_moved hc h).2.1] at hu
      cases hu
  · rw [view_moved hclear] at hu
    exact K.cleared u even hu

/-- A reader clears the end epoch of the next phase, which has no writers. -/
theorem Phased.clear (K : Phased s) (L : Locked s) (hc : (s.pc t).critical = true) {even : Bool}
    (hp : l.phase = (s.pc t).phase) (hpoll : l.polls = (s.pc t).polls)
    (hnext : l.nextPhase = (s.pc t).nextPhase) (hnext₀ : (s.pc t).nextPhase = some even)
    (hpoll₀ : (s.pc t).polls = none)
    (hs : g.phaser.startEpoch = s.shared.phaser.startEpoch)
    (he : g.phaser.endEpoch even = HdrWriterReaderPhaser.initialStartValue even)
    (he' : g.phaser.endEpoch (!even) = s.shared.phaser.endEpoch (!even))
    (hclear : l.cleared = some even) (hn : g.entries = s.shared.entries) :
    Phased (s.moved t g l) := by
  have hw : ∀ even, writersIn even (s.moved t g l).pc = writersIn even s.pc :=
    fun even => count_update_same (by rw [hp])
  have heven := K.next t even hnext₀
  have hcur : isEven s.shared.phaser.startEpoch = !even := by rw [heven, Bool.not_not]
  refine ⟨by rw [moved_shared, hn]; exact K.fit, by rw [moved_shared, hn, hs]; exact K.start,
    ?_, fun h => ?_, fun u e v hu => ?_, fun u e hu => ?_, fun u e hu => ?_⟩
  · have hcurrent := K.current
    rw [moved_shared, hs, hw]
    rw [hcur] at hcurrent ⊢
    rw [he']
    exact hcurrent
  · rw [moved_shared, hs, hw]
    exact K.previous fun u => by rw [← view_moved hpoll]; exact h u
  · by_cases h : u = t
    · rw [h, moved_pc_self, hpoll, hpoll₀] at hu
      cases hu
    · rw [(L.polls_moved hc h).1] at hu
      cases hu
  · rw [view_moved hnext] at hu
    rw [moved_shared, hs]
    exact K.next u e hu
  · by_cases h : u = t
    · rw [h, moved_pc_self, hclear, Option.some.injEq] at hu
      rw [moved_shared, ← hu]
      exact he
    · rw [(L.polls_moved hc h).2.2] at hu
      cases hu

theorem Phased.exchange (K : Phased s) (L : Locked s) (hc : (s.pc t).critical = true)
    {even : Bool} (hp : l.phase = (s.pc t).phase) (hclear₀ : (s.pc t).cleared = some even)
    (hpoll : l.polls = some (even, s.shared.phaser.startEpoch)) (hnext : l.nextPhase = none)
    (hclear : l.cleared = none)
    (hs : g.phaser.startEpoch = HdrWriterReaderPhaser.initialStartValue even)
    (he : g.phaser.endEpoch = s.shared.phaser.endEpoch) (hn : g.entries = 0) :
    Phased (s.moved t g l) := by
  have hw : ∀ even, writersIn even (s.moved t g l).pc = writersIn even s.pc :=
    fun even => count_update_same (by rw [hp])
  obtain ⟨-, hpoll₀, hnext₀⟩ := Pc.exchanging_of_cleared hclear₀
  have heven := K.next t even hnext₀
  have hcur : isEven s.shared.phaser.startEpoch = !even := by rw [heven, Bool.not_not]
  have hnone : ∀ u, (s.pc u).polls = none := by
    intro u
    by_cases h : u = t
    · rw [h, hpoll₀]
    · exact (Pc.outside (L.other hc h)).1
  have hempty := K.previous hnone
  rw [hcur, Bool.not_not] at hempty
  refine ⟨?_, ?_, ?_, fun h => ?_, fun u e v hu => ?_, fun u e hu => ?_, fun u e hu => ?_⟩
  · rw [moved_shared, hn]
    omega
  · rw [moved_shared, hs, hn, isEven_initialStartValue]
    simp
  · rw [moved_shared, hs, isEven_initialStartValue, hw, hempty, he, K.cleared t even hclear₀]
    simp
  · have := h t
    rw [moved_pc_self, hpoll] at this
    cases this
  · by_cases h : u = t
    · rw [h, moved_pc_self, hpoll, Option.some.injEq, Prod.mk.injEq] at hu
      obtain ⟨rfl, rfl⟩ := hu
      have hcurrent := K.current
      rw [hcur] at hcurrent
      rw [moved_shared, hs, isEven_initialStartValue, he, hw]
      exact ⟨rfl, hcurrent⟩
    · rw [(L.polls_moved hc h).1] at hu
      cases hu
  · by_cases h : u = t
    · rw [h, moved_pc_self, hnext] at hu
      cases hu
    · rw [(L.polls_moved hc h).2.1] at hu
      cases hu
  · by_cases h : u = t
    · rw [h, moved_pc_self, hclear] at hu
      cases hu
    · rw [(L.polls_moved hc h).2.2] at hu
      cases hu

omit [DecidableEq ι] in
/-- A poll that finds all exits has found the phase empty. -/
theorem Phased.drained (K : Phased s) {even : Bool} {v : Int64}
    (hpoll : (s.pc t).polls = some (even, v)) (hv : s.shared.phaser.endEpoch (!even) = v) :
    even = isEven s.shared.phaser.startEpoch ∧ writersIn (!even) s.pc = 0 := by
  obtain ⟨heven, hsum⟩ := K.polled t even v hpoll
  rw [hv] at hsum
  exact ⟨heven, by omega⟩

theorem Phased.caughtUp (K : Phased s) (L : Locked s) (hc : (s.pc t).critical = true)
    {even : Bool} {v : Int64} (hp : l.phase = (s.pc t).phase)
    (hpoll₀ : (s.pc t).polls = some (even, v)) (hv : s.shared.phaser.endEpoch (!even) = v)
    (hpoll : l.polls = none) (hnext : l.nextPhase = none) (hclear : l.cleared = none) :
    Phased (s.moved t s.shared l) := by
  have hw : ∀ even, writersIn even (s.moved t s.shared l).pc = writersIn even s.pc :=
    fun even => count_update_same (by rw [hp])
  obtain ⟨heven, hempty⟩ := K.drained hpoll₀ hv
  refine ⟨K.fit, K.start, ?_, fun h => ?_, fun u e v hu => ?_, fun u e hu => ?_,
    fun u e hu => ?_⟩
  · rw [moved_shared, hw]; exact K.current
  · rw [moved_shared, hw, ← heven]
    exact hempty
  · by_cases h : u = t
    · rw [h, moved_pc_self, hpoll] at hu
      cases hu
    · rw [(L.polls_moved hc h).1] at hu
      cases hu
  · by_cases h : u = t
    · rw [h, moved_pc_self, hnext] at hu
      cases hu
    · rw [(L.polls_moved hc h).2.1] at hu
      cases hu
  · by_cases h : u = t
    · rw [h, moved_pc_self, hclear] at hu
      cases hu
    · rw [(L.polls_moved hc h).2.2] at hu
      cases hu

theorem writerExit_endEpoch (p : HdrWriterReaderPhaser) (v : Int64) :
    (p.writerExit v).endEpoch (isEven v) = p.endEpoch (isEven v) + 1 ∧
      (p.writerExit v).endEpoch (!isEven v) = p.endEpoch (!isEven v) ∧
      (p.writerExit v).startEpoch = p.startEpoch := by
  unfold HdrWriterReaderPhaser.writerExit HdrWriterReaderPhaser.endEpoch isEven
  by_cases h : v < 0 <;> simp [h]

theorem clearEndEpoch_endEpoch (p : HdrWriterReaderPhaser) (even : Bool) :
    (p.clearEndEpoch even).endEpoch even = HdrWriterReaderPhaser.initialStartValue even ∧
      (p.clearEndEpoch even).endEpoch (!even) = p.endEpoch (!even) ∧
      (p.clearEndEpoch even).startEpoch = p.startEpoch := by
  cases even <;> exact ⟨rfl, rfl, rfl⟩

theorem polledEpoch_eq (p : HdrWriterReaderPhaser) (even : Bool) :
    p.polledEpoch even = p.endEpoch (!even) := by
  cases even <;> rfl

theorem Phased.step (K : Phased s) (L : Locked s) (h : Stepped O s.shared (s.pc t) g l)
    (hfit : g.EntriesFit) : Phased (s.moved t g l) := by
  generalize hl : s.pc t = l₀ at h
  cases h with
  | enter c =>
      exact K.enter (by rw [hl]; rfl) rfl (by rw [hl]; rfl) (by rw [hl]; rfl) (by rw [hl]; rfl) rfl
        rfl rfl hfit
  | @exit val =>
      obtain ⟨he, he', hs⟩ := writerExit_endEpoch s.shared.phaser val
      exact K.exit L (isEven val) (by rw [hl]; rfl) rfl (by rw [hl]; rfl) (by rw [hl]; rfl)
        (by rw [hl]; rfl) hs he he' rfl
  | readEpoch =>
      exact K.announce L (by rw [hl]; rfl) (by rw [hl]; rfl) (by rw [hl]; rfl) (by rw [hl]; rfl)
        (by simp [Pc.nextPhase, isEven])
  | @clear old even =>
      obtain ⟨he, he', hs⟩ := clearEndEpoch_endEpoch s.shared.phaser even
      exact K.clear L (by rw [hl]; rfl) (by rw [hl]; rfl) (by rw [hl]; rfl) (by rw [hl]; rfl)
        (by rw [hl]; rfl) (by rw [hl]; rfl) hs he he' rfl rfl
  | exchange =>
      exact K.exchange L (by rw [hl]; rfl) (by rw [hl]; rfl) (by rw [hl]; rfl) rfl rfl rfl rfl rfl
        rfl
  | caughtUp hv =>
      rw [polledEpoch_eq] at hv
      exact K.caughtUp L (by rw [hl]; rfl) (by rw [hl]; rfl) (by rw [hl]; rfl) hv rfl rfl rfl
  | _ =>
      exact K.same (by simp [hl, Pc.phase]) (by simp [hl, Pc.polls]) (by simp [hl, Pc.nextPhase])
        (by simp [hl, Pc.cleared]) rfl rfl rfl

end Phased

end HdrHistogramC
