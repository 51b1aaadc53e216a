import Mathlib

/-!
# Loops with a step budget

A C loop is one execution of its body, iterated. The body either leaves the loop
with a result, goes round again with a new state, or has no defined result.
`run` gives up after a number of rounds, so that every loop can be evaluated;
`run_of_variant` is the rule by which an invariant and a decreasing measure show
that it does not give up, and what it returns.
-/
namespace HdrHistogramC.BoundedLoop

inductive Round (σ β : Type) where
  | again (s : σ)
  | leave (b : β)
deriving Repr, DecidableEq

/-- A property of the next state, or of the result. -/
def Round.Holds {σ β : Type} (I : σ → Prop) (Q : β → Prop) : Round σ β → Prop
  | .again s => I s
  | .leave b => Q b

variable {σ β : Type}

def run (body : σ → Option (Round σ β)) : ℕ → σ → Option β
  | 0, _ => none
  | n + 1, s =>
      match body s with
      | none => none
      | some (.again s') => run body n s'
      | some (.leave b) => some b

variable {body : σ → Option (Round σ β)} {s s' : σ} {b : β} {n : ℕ}

theorem run_again (h : body s = some (.again s')) : run body (n + 1) s = run body n s' := by
  simp only [run, h]

theorem run_leave (h : body s = some (.leave b)) : run body (n + 1) s = some b := by
  simp only [run, h]

/-- A number of rounds that go on lead from a state to another. -/
inductive Rounds (body : σ → Option (Round σ β)) : ℕ → σ → σ → Prop
  | done (s : σ) : Rounds body 0 s s
  | next {n : ℕ} {s t u : σ} : body s = some (.again t) → Rounds body n t u →
      Rounds body (n + 1) s u

theorem Rounds.trans {m : ℕ} {t u : σ} (R : Rounds body m s t) (R' : Rounds body n t u) :
    Rounds body (m + n) s u := by
  induction R with
  | done s => rwa [Nat.zero_add]
  | next h _ ih =>
      rw [Nat.succ_add]
      exact .next h (ih R')

/-- A loop that leaves after some rounds returns when its budget is larger. -/
theorem Rounds.run_leave {t : σ} {fuel : ℕ} (R : Rounds body n s t)
    (h : body t = some (.leave b)) (hn : n < fuel) : run body fuel s = some b := by
  induction R generalizing fuel with
  | done s =>
      obtain ⟨k, rfl⟩ := Nat.exists_eq_add_of_lt hn
      exact BoundedLoop.run_leave h
  | next hs _ ih =>
      obtain ⟨k, rfl⟩ : ∃ k, fuel = k + 1 := ⟨fuel - 1, by omega⟩
      rw [run_again hs]
      exact ih h (by omega)

theorem Rounds.run_none {t : σ} (R : Rounds body n s t) (h : body t = none) (fuel : ℕ) :
    run body fuel s = none := by
  induction R generalizing fuel with
  | done s =>
      cases fuel with
      | zero => rfl
      | succ fuel => simp only [run, h]
  | next hs _ ih =>
      cases fuel with
      | zero => rfl
      | succ fuel =>
          rw [run_again hs]
          exact ih h fuel

/-- Total correctness: a body that is defined under the invariant and lowers the
measure on every further round returns within the measure. -/
theorem run_of_variant {I : σ → Prop} {Q : β → Prop} (μ : σ → ℕ)
    (step : ∀ s, I s → ∃ r, body s = some r ∧ r.Holds (fun t => I t ∧ μ t < μ s) Q) :
    ∀ n s, I s → μ s < n → ∃ b, run body n s = some b ∧ Q b := by
  intro n
  induction n with
  | zero => intro s _ h; omega
  | succ n ih =>
      intro s hs hn
      obtain ⟨r, hr, hQ⟩ := step s hs
      cases r with
      | again t =>
          rw [run_again hr]
          exact ih t hQ.1 (by have := hQ.2; omega)
      | leave b => exact ⟨b, run_leave hr, hQ⟩

/-- Partial correctness: what a loop returns, where its rounds are defined. -/
theorem run_sound {I : σ → Prop} {Q : β → Prop}
    (step : ∀ s, I s → ∀ r, body s = some r → r.Holds I Q) :
    ∀ n s, I s → run body n s = some b → Q b := by
  intro n
  induction n with
  | zero => intro s _ h; cases h
  | succ n ih =>
      intro s hs h
      rcases hbody : body s with _ | ⟨t | c⟩
      · simp only [run, hbody] at h
        cases h
      · rw [run_again hbody] at h
        exact ih t (step s hs _ hbody) h
      · rw [run_leave hbody] at h
        cases h
        exact step s hs _ hbody

/-- A loop whose rounds lower a measure comes to a state from which no round goes on. -/
theorem exists_rounds_end {I : σ → Prop} (μ : σ → ℕ)
    (step : ∀ s t, I s → body s = some (.again t) → I t ∧ μ t < μ s) (hs : I s) :
    ∃ n t, n ≤ μ s ∧ Rounds body n s t ∧ I t ∧ ∀ u, body t ≠ some (.again u) := by
  induction hm : μ s using Nat.strong_induction_on generalizing s with
  | h m ih =>
      by_cases hagain : ∃ t, body s = some (.again t)
      · obtain ⟨t, ht⟩ := hagain
        obtain ⟨hI, hlt⟩ := step s t hs ht
        obtain ⟨n, u, hn, R, hend⟩ := ih (μ t) (by omega) hI rfl
        exact ⟨n + 1, u, by omega, .next ht R, hend⟩
      · exact ⟨0, s, Nat.zero_le _, .done s, hs, not_exists.mp hagain⟩

/-- Two bodies that agree under an invariant of the one make the same loop. -/
theorem run_congr {body' : σ → Option (Round σ β)} {I : σ → Prop}
    (step : ∀ s, I s → body' s = body s ∧ ∀ t, body s = some (.again t) → I t) :
    ∀ n s, I s → run body' n s = run body n s := by
  intro n
  induction n with
  | zero => intro s _; rfl
  | succ n ih =>
      intro s hs
      obtain ⟨heq, hI⟩ := step s hs
      rw [run, run, heq]
      split
      · rfl
      · exact ih _ (hI _ ‹_›)
      · rfl

end HdrHistogramC.BoundedLoop
