import HdrHistogramC.PhaserSafety

/-!
# Exclusive samples

A writer holds the active histogram, or one whose swap waits for the writer's phase.
So nobody holds a histogram that a sample call returns, and nobody writes it before it
is recycled.
-/
namespace HdrHistogramC
open Threads

variable {ι H W C R : Type} [DecidableEq ι] {O : HistogramCalls H W C R}

/-- The histogram that an update is made on, with the critical value of its writer. -/
def Pc.holds : Pc W C R → Option (Int64 × ℕ)
  | .updating v active _ _ | .leaving v active _ _ => some (v, active)
  | _ => none

/-- The histogram that was swapped out of a phase that has not ended. -/
def Pc.swaps : Pc W C R → Option ℕ
  | .readingEpoch old | .clearing old _ | .exchanging old _ => some old
  | _ => none

/-- The histogram that was swapped out of the phase before `even`, which has ended. -/
def Pc.drains : Pc W C R → Option (ℕ × Bool)
  | .polling old even _ => some (old, even)
  | _ => none

/-- The histogram is in use by no writer, and no new writer will find it. -/
def Exclusive (s : RecorderState ι H W C R) (x : ℕ) : Prop :=
  x ≠ s.shared.active ∧ ∀ t v, (s.pc t).holds ≠ some (v, x)

/-- What a writer can hold. -/
def Held (s : RecorderState ι H W C R) : Prop :=
  ∀ t v q, (s.pc t).holds = some (v, q) → q = s.shared.active ∨
    (∃ u, (s.pc u).swaps = some q) ∨ ∃ u even, (s.pc u).drains = some (q, even) ∧ isEven v = !even

theorem Pc.phase_of_holds {l : Pc W C R} {v : Int64} {q : ℕ} (h : l.holds = some (v, q)) :
    l.phase = some (isEven v) := by
  cases l <;> cases h <;> rfl

theorem Pc.critical_of_swaps {l : Pc W C R} {q : ℕ} (h : l.swaps = some q) :
    l.critical = true := by
  cases l <;> first | rfl | cases h

theorem Pc.critical_of_drains {l : Pc W C R} {r : ℕ × Bool} (h : l.drains = some r) :
    l.critical = true := by
  cases l <;> first | rfl | cases h

theorem Pc.retires_of_swaps {l : Pc W C R} {q : ℕ} (h : l.swaps = some q) :
    l.retires = some q := by
  cases l <;> first | exact h | cases h

theorem Pc.retires_of_drains {l : Pc W C R} {q : ℕ} {even : Bool}
    (h : l.drains = some (q, even)) : l.retires = some q := by
  cases l <;> cases h
  rfl

section Held
variable {s : RecorderState ι H W C R} {t : ι} {g : Recorder H C R} {l : Pc W C R}

theorem Held.same (K : Held s) (ha : g.active = s.shared.active)
    (hs : l.swaps = (s.pc t).swaps) (hd : l.drains = (s.pc t).drains)
    (hh : ∀ v q, l.holds = some (v, q) → (s.pc t).holds = some (v, q) ∨ q = s.shared.active) :
    Held (s.moved t g l) := by
  intro u v q hu
  have hold : (s.pc u).holds = some (v, q) ∨ q = s.shared.active := by
    by_cases h : u = t
    · rw [h, moved_pc_self] at hu
      exact h ▸ hh v q hu
    · rw [moved_pc_of_ne h] at hu
      exact .inl hu
  rw [moved_shared, ha]
  rcases hold with hold | hq
  · rcases K u v q hold with hq | ⟨w, hw⟩ | ⟨w, even, hw, hv⟩
    · exact .inl hq
    · exact .inr (.inl ⟨w, by rw [view_moved hs, hw]⟩)
    · exact .inr (.inr ⟨w, even, by rw [view_moved hd, hw], hv⟩)
  · exact .inl hq

theorem Held.elsewhere (K : Held s) (L : Locked s) (hc : (s.pc t).critical = true)
    (hl : l.holds = none) {u : ι} {v : Int64} {q : ℕ}
    (hu : ((s.moved t g l).pc u).holds = some (v, q)) :
    (s.pc u).holds = some (v, q) ∧ (q = s.shared.active ∨ (s.pc t).swaps = some q ∨
      ∃ even, (s.pc t).drains = some (q, even) ∧ isEven v = !even) := by
  have hold : (s.pc u).holds = some (v, q) := by
    by_cases h : u = t
    · rw [h, moved_pc_self, hl] at hu
      cases hu
    · rwa [moved_pc_of_ne h] at hu
  refine ⟨hold, ?_⟩
  rcases K u v q hold with hq | ⟨w, hw⟩ | ⟨w, even, hw, hv⟩
  · exact .inl hq
  · obtain rfl := L.exclusive w t (Pc.critical_of_swaps hw) hc
    exact .inr (.inl hw)
  · obtain rfl := L.exclusive w t (Pc.critical_of_drains hw) hc
    exact .inr (.inr ⟨even, hw, hv⟩)

theorem Held.store (K : Held s) (L : Locked s) (B : Owned s) {new old : ℕ}
    (hl : s.pc t = .storing new old) : Held (s.moved t g (.readingEpoch old)) := by
  intro u v q hu
  obtain ⟨-, hq | hq | ⟨even, hq, -⟩⟩ := K.elsewhere L (by rw [hl]; rfl) rfl hu
  · right; left
    exact ⟨t, by rw [moved_pc_self, hq, ← B.stored t new old hl]; rfl⟩
  · rw [hl] at hq
    cases hq
  · rw [hl] at hq
    cases hq

/-- The writers of the phase that a flip leaves are all there are. -/
theorem Held.exchange [Fintype ι] (K : Held s) (L : Locked s) (P : Phased s) {old : ℕ}
    {even : Bool} {v₀ : Int64} (hl : s.pc t = .exchanging old even)
    (ha : g.active = s.shared.active) : Held (s.moved t g (.polling old even v₀)) := by
  intro u v q hu
  obtain ⟨hold, hq | hq | ⟨e, hq, -⟩⟩ := K.elsewhere L (by rw [hl]; rfl) rfl hu
  · left
    rw [hq, moved_shared, ha]
  · right; right
    rw [hl] at hq
    cases hq
    refine ⟨t, even, by rw [moved_pc_self]; rfl, ?_⟩
    have hnone : ∀ w, (s.pc w).polls = none := by
      intro w
      by_cases h : w = t
      · rw [h, hl]
        rfl
      · exact (Pc.outside (L.other (by rw [hl]; rfl) h)).1
    have hempty := count_eq_zero_iff.mp (P.previous hnone) u
    rw [← P.next t even (by rw [hl]; rfl), Pc.phase_of_holds hold, Option.some.injEq] at hempty
    exact Bool.eq_not_of_ne hempty
  · rw [hl] at hq
    cases hq

/-- A flip that has caught up has seen every writer leave. -/
theorem Held.caughtUp [Fintype ι] (K : Held s) (L : Locked s) (P : Phased s) {old : ℕ}
    {even : Bool} {v₀ : Int64} (hl : s.pc t = .polling old even v₀)
    (hv₀ : s.shared.phaser.polledEpoch even = v₀) :
    Held (s.moved t s.shared (.unlocking old)) := by
  intro u v q hu
  obtain ⟨hold, hq | hq | ⟨e, hq, hv⟩⟩ := K.elsewhere L (by rw [hl]; rfl) rfl hu
  · exact .inl hq
  · rw [hl] at hq
    cases hq
  · rw [hl] at hq
    cases hq
    rw [polledEpoch_eq] at hv₀
    obtain ⟨-, hempty⟩ := P.drained (t := t) (by rw [hl]; rfl) hv₀
    have hphase := Pc.phase_of_holds hold
    rw [hv] at hphase
    exact absurd hphase (count_eq_zero_iff.mp hempty u)

theorem Held.step [Fintype ι] (K : Held s) (L : Locked s) (B : Owned s) (P : Phased s)
    (h : Stepped O s.shared (s.pc t) g l) : Held (s.moved t g l) := by
  generalize hl : s.pc t = l₀ at h
  cases h with
  | load =>
      exact K.same rfl (by rw [hl]; rfl) (by rw [hl]; rfl) fun v q hh => by cases hh; exact .inr rfl
  | refuse =>
      exact K.same rfl (by rw [hl]; rfl) (by rw [hl]; rfl) fun v q hh => by cases hh; exact .inr rfl
  | exit => exact K.same rfl (by rw [hl]; rfl) (by rw [hl]; rfl) fun v q hh => by cases hh
  | store => exact K.store L B hl
  | exchange => exact K.exchange L P hl rfl
  | caughtUp hv => exact K.caughtUp L P hl hv
  | wait => exact K.same rfl (by rw [hl]) (by rw [hl]) fun v q hh => .inl (by rw [hl]; exact hh)
  | _ =>
      exact K.same rfl (by rw [hl]; rfl) (by rw [hl]; rfl) fun v q hh => .inl (by rw [hl]; exact hh)

end Held

structure Safe [Fintype ι] (s : RecorderState ι H W C R) : Prop where
  locked : Locked s
  owned : Owned s
  phased : Phased s
  held : Held s

variable [Fintype ι] {s : RecorderState ι H W C R} {t : ι} {g : Recorder H C R} {l : Pc W C R}

section Initial
omit [DecidableEq ι]
variable (h : H)

theorem writersIn_initial (even : Bool) :
    writersIn even (RecorderState.initial h : RecorderState ι H W C R).pc = 0 :=
  count_eq_zero_iff.mpr fun _ => by simp [RecorderState.initial, Pc.phase]

theorem Phased.initial : Phased (RecorderState.initial h : RecorderState ι H W C R) where
  fit := Nat.two_pow_pos 63
  start := rfl
  current := by
    rw [writersIn_initial]
    rfl
  previous _ := writersIn_initial h _
  polled _ _ _ hu := by cases hu
  next _ _ hu := by cases hu
  cleared _ _ hu := by cases hu

theorem Safe.initial : Safe (RecorderState.initial h : RecorderState ι H W C R) where
  locked :=
    { exclusive := fun _ _ hu => by cases hu
      free := fun _ _ => rfl }
  owned :=
    { active_lt := Nat.one_pos
      active_obtained := Finset.notMem_empty _
      obtained_lt := fun _ hq => absurd hq (Finset.notMem_empty _)
      owns_lt := fun _ _ hu => by cases hu
      owns_active := fun _ hu => by cases hu
      owns_obtained := fun _ _ hu => by cases hu
      unique := fun _ _ _ hu => by cases hu
      stored := fun _ _ _ hu => by cases hu }
  phased := Phased.initial h
  held _ _ _ hu := by cases hu

end Initial

theorem Safe.step (K : Safe s) (h : Stepped O s.shared (s.pc t) g l) (hfit : g.EntriesFit) :
    Safe (s.moved t g l) :=
  ⟨K.locked.step h, K.owned.step K.locked h, K.phased.step K.locked h hfit,
    K.held.step K.locked K.owned K.phased h⟩

theorem Runs.safe {h : H} (run : Runs O h s) : Safe s :=
  run.invariant (Safe.initial h) fun _ _ _ _ _ _ K hstep hfit => K.step (step_cases hstep) hfit

section Exclusive
omit [DecidableEq ι]

/-- A histogram that is neither active nor swapped out is in use by no writer. -/
theorem Safe.exclusive (K : Safe s) {x : ℕ} (ha : x ≠ s.shared.active)
    (hr : ∀ u, ((s.pc u).swaps ≠ some x) ∧ ∀ even, (s.pc u).drains ≠ some (x, even)) :
    Exclusive s x := by
  refine ⟨ha, fun t v h => ?_⟩
  rcases K.held t v x h with hx | ⟨u, hu⟩ | ⟨u, even, hu, -⟩
  · exact ha hx
  · exact (hr u).1 hu
  · exact (hr u).2 even hu

theorem Safe.exclusive_allocated (K : Safe s) : Exclusive s s.shared.allocated := by
  have hfree : ∀ u, (s.pc u).retires ≠ some s.shared.allocated := fun u hu =>
    (K.owned.owns_lt u _ (Pc.owns_of_retires hu)).false
  exact K.exclusive K.owned.active_lt.ne' fun u =>
    ⟨fun hu => hfree u (Pc.retires_of_swaps hu), fun _ hu => hfree u (Pc.retires_of_drains hu)⟩

theorem Safe.held_lt (K : Safe s) {v : Int64} {q : ℕ} (h : (s.pc t).holds = some (v, q)) :
    q < s.shared.allocated := by
  rcases K.held t v q h with hq | ⟨u, hu⟩ | ⟨u, even, hu, -⟩
  · exact hq ▸ K.owned.active_lt
  · exact K.owned.owns_lt u q (Pc.owns_of_retires (Pc.retires_of_swaps hu))
  · exact K.owned.owns_lt u q (Pc.owns_of_retires (Pc.retires_of_drains hu))

theorem Safe.exclusive_obtained (K : Safe s) {x : ℕ} (hx : x ∈ s.shared.obtained) :
    Exclusive s x := by
  have hfree : ∀ u, (s.pc u).retires ≠ some x := fun u hu =>
    K.owned.owns_obtained u x (Pc.owns_of_retires hu) hx
  exact K.exclusive (fun h => K.owned.active_obtained (h ▸ hx)) fun u =>
    ⟨fun hu => hfree u (Pc.retires_of_swaps hu), fun _ hu => hfree u (Pc.retires_of_drains hu)⟩

/-- What the owner of a histogram waits for is over before the call returns it. -/
theorem Safe.exclusive_owned (K : Safe s) {x : ℕ} (hx : (s.pc t).owns = some x)
    (hs : (s.pc t).swaps = none) (hd : (s.pc t).drains = none) : Exclusive s x := by
  have hfree : ∀ u, (s.pc u).owns = some x → u = t := fun u hu => K.owned.unique u t x hu hx
  refine K.exclusive (fun h => K.owned.owns_active t (h ▸ hx)) fun u => ⟨fun hu => ?_,
    fun even hu => ?_⟩
  · obtain rfl := hfree u (Pc.owns_of_retires (Pc.retires_of_swaps hu))
    rw [hs] at hu
    cases hu
  · obtain rfl := hfree u (Pc.owns_of_retires (Pc.retires_of_drains hu))
    rw [hd] at hu
    cases hu

/-- A step leaves a histogram alone that was returned and is not recycled. -/
theorem Safe.untouched (K : Safe s) (h : Stepped O s.shared (s.pc t) g l) {x : ℕ}
    (hx : x ∈ s.shared.obtained) (hx' : x ∈ g.obtained) : g.heap x = s.shared.heap x := by
  have hexcl := (K.exclusive_obtained hx).2
  generalize hl : s.pc t = l₀ at h
  cases h with
  | allocate => exact Function.update_of_ne (K.owned.obtained_lt x hx).ne _ _
  | recycle => exact Function.update_of_ne (Finset.ne_of_mem_erase hx') _ _
  | operate => exact Function.update_of_ne (fun he => hexcl t _ (by rw [hl, he]; rfl)) _ _
  | finish => exact Function.update_of_ne (fun he => hexcl t _ (by rw [hl, he]; rfl)) _ _
  | _ => rfl

end Exclusive

theorem Runs.untouched {h : H} {s' : RecorderState ι H W C R} (run : Runs O h s) {x : ℕ}
    (hx : x ∈ s.shared.obtained)
    (later : Reachable (step O) (fun g => g.EntriesFit ∧ x ∈ g.obtained) s s') :
    s'.shared.heap x = s.shared.heap x ∧ Exclusive s' x := by
  have K : Safe s' ∧ x ∈ s'.shared.obtained ∧ s'.shared.heap x = s.shared.heap x := by
    induction later with
    | start => exact ⟨run.safe, hx, rfl⟩
    | next _ hstep hok ih =>
        have hs := step_cases hstep
        exact ⟨ih.1.step hs hok.1, hok.2, (ih.1.untouched hs ih.2.1 hok.2).trans ih.2.2⟩
  exact ⟨K.2.2, K.1.exclusive_obtained K.2.1⟩

end HdrHistogramC
