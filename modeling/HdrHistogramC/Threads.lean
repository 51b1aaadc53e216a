import Mathlib

/-!
# Threads over shared state

Threads take turns. A step is taken by one thread, which reads and writes the shared
state and its own local state. What holds at the start and is kept by every step holds
in every reachable state; sums over the threads change in one summand.
-/
namespace HdrHistogramC.Threads

/-- The numerals `0` and `1` of two threads, by one instance in every module. -/
scoped instance twoThreads : NeZero 2 := ⟨two_ne_zero⟩

structure State (ι S L : Type) where
  shared : S
  pc : ι → L

variable {ι S L A : Type} [DecidableEq ι]

/-- Thread `t` has moved to the local state `l`. -/
def State.moved (s : State ι S L) (t : ι) (g : S) (l : L) : State ι S L :=
  ⟨g, Function.update s.pc t l⟩

/-- The states that are reached by steps into shared states that satisfy `ok`. -/
inductive Reachable (step : A → S → L → Option (S × L)) (ok : S → Prop) (start : State ι S L) :
    State ι S L → Prop
  | start : Reachable step ok start start
  | next {s : State ι S L} {t : ι} {a : A} {g : S} {l : L} : Reachable step ok start s →
      step a s.shared (s.pc t) = some (g, l) → ok g → Reachable step ok start (s.moved t g l)

/-- The induction over runs. -/
theorem Reachable.invariant {step : A → S → L → Option (S × L)} {ok : S → Prop}
    {start s : State ι S L} {P : State ι S L → Prop} (h : Reachable step ok start s)
    (hstart : P start) (hnext : ∀ s t a g l, Reachable step ok start s → P s →
      step a s.shared (s.pc t) = some (g, l) → ok g → P (s.moved t g l)) : P s := by
  induction h with
  | start => exact hstart
  | next hs hstep hok ih => exact hnext _ _ _ _ _ hs ih hstep hok

/-- The state after the steps of a schedule, if all of them can be taken. -/
def schedule (step : A → S → L → Option (S × L)) (ok : S → Prop) [DecidablePred ok] :
    List (ι × A) → State ι S L → Option (State ι S L)
  | [], s => some s
  | (t, a) :: as, s =>
      match step a s.shared (s.pc t) with
      | none => none
      | some (g, l) => if ok g then schedule step ok as (s.moved t g l) else none

theorem Reachable.schedule {step : A → S → L → Option (S × L)} {ok : S → Prop}
    [DecidablePred ok] {start s s' : State ι S L} {as : List (ι × A)}
    (h : Reachable step ok start s) (hs : schedule step ok as s = some s') :
    Reachable step ok start s' := by
  induction as generalizing s with
  | nil => exact Option.some.inj hs ▸ h
  | cons x as ih =>
      obtain ⟨t, a⟩ := x
      unfold Threads.schedule at hs
      split at hs
      · cases hs
      next g l hstep =>
        split_ifs at hs with hok
        exact ih (h.next hstep hok) hs

theorem Reachable.trans {step : A → S → L → Option (S × L)} {ok : S → Prop}
    {start s s' : State ι S L} (h : Reachable step ok start s) (h' : Reachable step ok s s') :
    Reachable step ok start s' := by
  induction h' with
  | start => exact h
  | next _ hstep hok ih => exact ih.next hstep hok

section View
variable {S' A' : Type} (f : S → S')

def State.view (s : State ι S L) : State ι S' L := ⟨f s.shared, s.pc⟩

/-- A system whose steps are steps of another in a view of its shared state. -/
theorem Reachable.view {step : A → S → L → Option (S × L)} {ok : S → Prop}
    {step' : A' → S' → L → Option (S' × L)} {ok' : S' → Prop} {start s : State ι S L}
    (hstep : ∀ a g l g' l', step a g l = some (g', l') → ∃ a', step' a' (f g) l = some (f g', l'))
    (hok : ∀ g, ok g → ok' (f g)) (h : Reachable step ok start s) :
    Reachable step' ok' (start.view f) (s.view f) := by
  induction h with
  | start => exact .start
  | next _ hs hg ih =>
      obtain ⟨a', ha'⟩ := hstep _ _ _ _ _ hs
      exact ih.next ha' (hok _ hg)

end View

section Moved
variable {s : State ι S L} {t u : ι} {g : S} {l : L}

@[simp] theorem moved_shared : (s.moved t g l).shared = g := rfl

@[simp] theorem moved_pc_self : (s.moved t g l).pc t = l := Function.update_self ..

theorem moved_pc_of_ne (h : u ≠ t) : (s.moved t g l).pc u = s.pc u := Function.update_of_ne h ..

theorem moved_eq_self : s.moved t s.shared (s.pc t) = s := by
  rw [State.moved, Function.update_eq_self]

theorem moved_moved {g' : S} {l' : L} : (s.moved t g l).moved t g' l' = s.moved t g' l' := by
  rw [State.moved, State.moved, State.moved, Function.update_idem]

theorem moved_eq {l' : L} (h : (s.moved t g l).pc u = l') :
    (u = t ∧ l = l') ∨ (u ≠ t ∧ s.pc u = l') := by
  by_cases hu : u = t
  · rw [hu, moved_pc_self] at h
    exact .inl ⟨hu, h⟩
  · rw [moved_pc_of_ne hu] at h
    exact .inr ⟨hu, h⟩

theorem view_moved {β : Type} {f : L → β} (h : f l = f (s.pc t)) (u : ι) :
    f ((s.moved t g l).pc u) = f (s.pc u) := by
  by_cases hu : u = t
  · rw [hu, moved_pc_self, h]
  · rw [moved_pc_of_ne hu]

end Moved

variable [Fintype ι] {M : Type} [AddCommMonoid M]

def total (f : L → M) (pc : ι → L) : M := ∑ t, f (pc t)

theorem total_update (f : L → M) (pc : ι → L) (t : ι) (l : L) :
    total f (Function.update pc t l) + f (pc t) = total f pc + f l := by
  unfold total
  rw [← Finset.add_sum_erase _ _ (Finset.mem_univ t), ← Finset.add_sum_erase _ (fun u => f (pc u))
    (Finset.mem_univ t), Function.update_self]
  have hrest : ∑ u ∈ Finset.univ.erase t, f (Function.update pc t l u) =
      ∑ u ∈ Finset.univ.erase t, f (pc u) :=
    Finset.sum_congr rfl fun u hu => by rw [Function.update_of_ne (Finset.ne_of_mem_erase hu)]
  rw [hrest]
  abel

/-- The local state of a thread is one summand. -/
theorem exists_total_update (f : L → M) (pc : ι → L) (t : ι) :
    ∃ rest, ∀ l, total f (Function.update pc t l) = rest + f l := by
  refine ⟨∑ u ∈ Finset.univ.erase t, f (pc u), fun l => ?_⟩
  unfold total
  rw [← Finset.sum_erase_add _ _ (Finset.mem_univ t), Function.update_self]
  congr 1
  exact Finset.sum_congr rfl fun u hu => by
    rw [Function.update_of_ne (Finset.ne_of_mem_erase hu)]

omit [DecidableEq ι] in
theorem total_eq_zero {f : L → M} {pc : ι → L} (h : ∀ t, f (pc t) = 0) : total f pc = 0 :=
  Finset.sum_eq_zero fun t _ => h t

theorem eq_of_total_le_one {f : L → ℕ} {pc : ι → L} {t u : ι} (h : total f pc ≤ 1)
    (ht : f (pc t) = 1) (hu : f (pc u) = 1) : t = u := by
  by_contra hne
  have hle := Finset.sum_le_univ_sum_of_nonneg (s := {t, u}) (f := fun t => f (pc t))
    fun _ => Nat.zero_le _
  rw [Finset.sum_pair hne, ht, hu] at hle
  exact absurd (hle.trans h) (by decide)

/-- The number of threads whose local state satisfies `p`. -/
def count (p : L → Prop) [DecidablePred p] (pc : ι → L) : ℕ :=
  total (fun l => if p l then 1 else 0) pc

section Count
variable {p : L → Prop} [DecidablePred p] {pc : ι → L} {t : ι} {l : L}

omit [DecidableEq ι] in
theorem count_eq_zero_iff : count p pc = 0 ↔ ∀ t, ¬ p (pc t) := by
  unfold count total
  simp

theorem count_update_same (h : p l ↔ p (pc t)) : count p (Function.update pc t l) = count p pc := by
  have hsum := total_update (fun l => if p l then 1 else 0) pc t l
  simp only [h] at hsum
  exact Nat.add_right_cancel hsum

theorem count_update_enter (h : p l) (h' : ¬ p (pc t)) :
    count p (Function.update pc t l) = count p pc + 1 := by
  have hsum := total_update (fun l => if p l then 1 else 0) pc t l
  rwa [if_neg h', if_pos h] at hsum

theorem count_update_leave (h : ¬ p l) (h' : p (pc t)) :
    count p (Function.update pc t l) + 1 = count p pc := by
  have hsum := total_update (fun l => if p l then 1 else 0) pc t l
  rwa [if_neg h, if_pos h'] at hsum

end Count

section Completion
variable {step : A → S → L → Option (S × L)} {ok : S → Prop} {p : L → Prop}
  {I : State ι S L → Prop}

/-- Where the thread is not at rest, it can take a step that lowers the measure. -/
def Advances (step : A → S → L → Option (S × L)) (ok : S → Prop) (p : L → Prop)
    (I : State ι S L → Prop) (μ : S → L → ℕ) (t : ι) : Prop :=
  ∀ s, I s → ¬ p (s.pc t) → ∃ a g l, step a s.shared (s.pc t) = some (g, l) ∧ ok g ∧
    I (s.moved t g l) ∧ μ g l < μ s.shared (s.pc t)

omit [Fintype ι] in
/-- A thread whose own steps lower a measure comes to rest if the others wait. -/
theorem exists_rest {t : ι} {μ : S → L → ℕ} (hadvance : Advances step ok p I μ t)
    {s : State ι S L} (hs : I s) :
    ∃ s', Reachable step ok s s' ∧ I s' ∧ p (s'.pc t) ∧ ∀ u, u ≠ t → s'.pc u = s.pc u := by
  induction hm : μ s.shared (s.pc t) using Nat.strong_induction_on generalizing s with
  | h m ih =>
      by_cases hrest : p (s.pc t)
      · exact ⟨s, .start, hs, hrest, fun u _ => rfl⟩
      · obtain ⟨a, g, l, ha, hok, hI, hlt⟩ := hadvance s hs hrest
        obtain ⟨s', R, hI', hrest', hother⟩ := ih (μ g l) (by omega) hI (by rw [moved_pc_self]; rfl)
        exact ⟨s', (Reachable.start.next ha hok).trans R, hI', hrest', fun u hu =>
          (hother u hu).trans (moved_pc_of_ne hu)⟩

/-- If there is always a thread that can come to rest while the others wait, then all can. -/
theorem exists_all_rest [DecidablePred p]
    (hone : ∀ s, I s → (∃ t, ¬ p (s.pc t)) → ∃ t s', ¬ p (s.pc t) ∧ Reachable step ok s s' ∧
      I s' ∧ p (s'.pc t) ∧ ∀ u, u ≠ t → s'.pc u = s.pc u) {s : State ι S L} (hs : I s) :
    ∃ s', Reachable step ok s s' ∧ I s' ∧ ∀ t, p (s'.pc t) := by
  induction hm : count (fun l => ¬ p l) s.pc generalizing s with
  | zero => exact ⟨s, .start, hs, fun t => not_not.mp (count_eq_zero_iff.mp hm t)⟩
  | succ m ih =>
      have hsome : ∃ t, ¬ p (s.pc t) := by
        by_contra hall
        have hzero : count (fun l => ¬ p l) s.pc = 0 := count_eq_zero_iff.mpr (not_exists.mp hall)
        omega
      obtain ⟨t, s', ht, R, hI, ht', hother⟩ := hone s hs hsome
      have hpc : s'.pc = Function.update s.pc t (s'.pc t) := by
        funext u
        by_cases hu : u = t
        · rw [hu, Function.update_self]
        · rw [Function.update_of_ne hu, hother u hu]
      have hcount : count (fun l => ¬ p l) (Function.update s.pc t (s'.pc t)) + 1 = _ :=
        count_update_leave (not_not.mpr ht') ht
      rw [← hpc] at hcount
      obtain ⟨s'', R', hI', hrest⟩ := ih hI (by omega)
      exact ⟨s'', R.trans R', hI', hrest⟩

end Completion

end HdrHistogramC.Threads
