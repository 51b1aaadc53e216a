import Mathlib

/-!
# Calling an iterator until it stops

An iterator is a step function that answers whether it has moved to a new state. The states
after its successful calls are listed until a call answers no; `Yields` says that one does,
and with which list. An iteration ends by a measure, and its list is then built from its end.
-/
namespace HdrHistogramC.Enumeration
variable {α : Type}

/-- The states after the successful calls, of which there are at most `n`. -/
def calls (next : α → Option (Bool × α)) : ℕ → α → Option (List α)
  | 0, _ => some []
  | n + 1, a =>
      match next a with
      | none => none
      | some (false, _) => some []
      | some (true, a') => (calls next n a').map (a' :: ·)

/-- The iteration ends, after the states `as`. -/
def Yields (next : α → Option (Bool × α)) (a : α) (as : List α) : Prop :=
  ∃ n, calls next n a = some as ∧ as.length < n

/-- No call of the iteration is undefined. -/
def Defined (next : α → Option (Bool × α)) (a : α) : Prop := ∀ n, calls next n a ≠ none

variable {next : α → Option (Bool × α)} {a a' : α} {as : List α} {n : ℕ}

theorem calls_stop (h : next a = some (false, a')) : calls next (n + 1) a = some [] := by
  simp only [calls, h]

theorem calls_more (h : next a = some (true, a')) :
    calls next (n + 1) a = (calls next n a').map (a' :: ·) := by
  simp only [calls, h]

theorem calls_undefined (h : next a = none) : calls next (n + 1) a = none := by
  simp only [calls, h]

theorem Defined.ne_none (F : Defined next a) : next a ≠ none := fun h => F 1 (calls_undefined h)

theorem Defined.more (F : Defined next a) (h : next a = some (true, a')) : Defined next a' :=
  fun n hn => F (n + 1) (by rw [calls_more h, hn, Option.map_none])

theorem Yields.stop (h : next a = some (false, a')) : Yields next a [] :=
  ⟨1, calls_stop h, Nat.zero_lt_one⟩

theorem Yields.more (h : next a = some (true, a')) (Y : Yields next a' as) :
    Yields next a (a' :: as) := by
  obtain ⟨n, hn, hlt⟩ := Y
  refine ⟨n + 1, ?_, Nat.succ_lt_succ hlt⟩
  rw [calls_more h, hn]
  rfl

/-- What the first call of an iteration that ends can be. -/
theorem Yields.cases (Y : Yields next a as) :
    (as = [] ∧ ∃ a', next a = some (false, a')) ∨
      ∃ a' as', as = a' :: as' ∧ next a = some (true, a') ∧ Yields next a' as' := by
  obtain ⟨n, hn, hlt⟩ := Y
  cases n with
  | zero => omega
  | succ n =>
      unfold calls at hn
      split at hn
      · cases hn
      next a' hnext => exact .inl ⟨(Option.some.inj hn).symm, a', hnext⟩
      next a' hnext =>
        obtain ⟨as', has, rfl⟩ := Option.map_eq_some_iff.mp hn
        exact .inr ⟨a', as', rfl, hnext, n, has, Nat.lt_of_succ_lt_succ hlt⟩

theorem Yields.ne_none (Y : Yields next a as) : next a ≠ none := by
  intro h
  rcases Y.cases with ⟨-, a', hnext⟩ | ⟨a', as', -, hnext, -⟩ <;>
  · rw [h] at hnext
    cases hnext

theorem Yields.eq_nil (Y : Yields next a as) (h : next a = some (false, a')) : as = [] := by
  rcases Y.cases with ⟨has, -⟩ | ⟨a', as', -, hnext, -⟩
  · exact has
  · rw [h] at hnext
    cases hnext

theorem Yields.eq_cons (Y : Yields next a as) (h : next a = some (true, a')) :
    ∃ as', as = a' :: as' ∧ Yields next a' as' := by
  rcases Y.cases with ⟨-, a', hnext⟩ | ⟨b, as', has, hnext, Y'⟩
  · rw [h] at hnext
    cases hnext
  · rw [h] at hnext
    cases hnext
    exact ⟨as', has, Y'⟩

theorem Yields.defined (Y : Yields next a as) : Defined next a := by
  intro n
  induction n generalizing a as with
  | zero => simp only [calls, ne_eq, reduceCtorEq, not_false_eq_true]
  | succ n ih =>
      rcases Y.cases with ⟨-, a', hnext⟩ | ⟨a', as', -, hnext, Y'⟩
      · rw [calls_stop hnext]
        exact Option.some_ne_none _
      · rw [calls_more hnext, ne_eq, Option.map_eq_none_iff]
        exact ih Y'

/-- An iteration ends when every further call lowers a measure. What holds of the list is
built up from its end. -/
theorem yields_of_variant {I : α → Prop} {P : α → List α → Prop} (μ : α → ℕ)
    (step : ∀ a, I a → (∃ a', next a = some (false, a') ∧ P a []) ∨
      ∃ a', next a = some (true, a') ∧ I a' ∧ μ a' < μ a ∧ ∀ as, P a' as → P a (a' :: as))
    (ha : I a) : ∃ as, Yields next a as ∧ P a as := by
  induction hk : μ a using Nat.strong_induction_on generalizing a with
  | h k ih =>
      rcases step a ha with ⟨a', hnext, hP⟩ | ⟨a', hnext, hI, hlt, hP⟩
      · exact ⟨[], .stop hnext, hP⟩
      · obtain ⟨as, Y, hP'⟩ := ih (μ a') (hk ▸ hlt) hI rfl
        exact ⟨a' :: as, Y.more hnext, hP as hP'⟩

/-- Every state meets the predicate of its number, from `k` on. -/
def Numbered (P : ℕ → α → Prop) (k : ℕ) (as : List α) : Prop :=
  ∀ (j : ℕ) (hj : j < as.length), P (k + j) as[j]

theorem numbered_nil (P : ℕ → α → Prop) (k : ℕ) : Numbered P k [] :=
  fun j hj => absurd hj (Nat.not_lt_zero j)

theorem numbered_cons {P : ℕ → α → Prop} {k : ℕ} :
    Numbered P k (a :: as) ↔ P k a ∧ Numbered P (k + 1) as := by
  constructor
  · intro N
    refine ⟨N 0 (Nat.zero_lt_succ _), fun j hj => ?_⟩
    have h := N (j + 1) (Nat.succ_lt_succ hj)
    rwa [show k + (j + 1) = k + 1 + j by omega] at h
  · rintro ⟨h₀, N⟩ j hj
    cases j with
    | zero => exact h₀
    | succ j =>
        have h := N j (Nat.lt_of_succ_lt_succ hj)
        rwa [show k + 1 + j = k + (j + 1) by omega] at h

end HdrHistogramC.Enumeration
