import Mathlib

/-!
# Log-linear tilings of the natural numbers

A log-linear layout cuts the naturals into cells. The first `2^(m+1)` cells are
`2^u` wide; after them every group of `2^m` cells is twice as wide as the group
before it. The cell of a number is read off its bit length, and the lowest
member of a cell is a shift of the cell number, so neither direction searches.

The cell number and the lowest member are adjoint. Monotonicity, the round trip
and the tiling of every initial segment follow from this adjunction and from one
recurrence, `lower_succ`. The last section bounds the width of a cell by its
lowest member, which is what a relative precision claim needs.
-/
namespace HdrHistogramC.LogLinear

section Layout
variable (u m : ℕ)

/-- How often the cell width has doubled at the number `v`. -/
def octave (v : ℕ) : ℕ := Nat.size v - (u + m + 1)

/-- Position of `v` inside its octave, counted in cells of that octave. -/
def slot (v : ℕ) : ℕ := v / 2 ^ (u + octave u m v)

/-- The number of the cell that holds `v`. -/
def index (v : ℕ) : ℕ := octave u m v * 2 ^ m + slot u m v

/-- How often the cell width has doubled at cell `i`. -/
def cellOctave (i : ℕ) : ℕ := i / 2 ^ m - 1

def width (i : ℕ) : ℕ := 2 ^ (u + cellOctave m i)

/-- The lowest member of cell `i`. -/
def lower (i : ℕ) : ℕ := (i - cellOctave m i * 2 ^ m) * 2 ^ (u + cellOctave m i)

end Layout

variable {u m : ℕ}

theorem width_pos (i : ℕ) : 0 < width u m i := Nat.two_pow_pos _

theorem cellOctave_eq {k s : ℕ} (hs : s < 2 * 2 ^ m) (hk : k = 0 ∨ 2 ^ m ≤ s) :
    cellOctave m (k * 2 ^ m + s) = k := by
  have hm : 0 < 2 ^ m := Nat.two_pow_pos m
  unfold cellOctave
  rw [Nat.add_comm, Nat.add_mul_div_right _ _ hm]
  rcases hk with rfl | hk
  · have h : s / 2 ^ m < 2 := by rwa [Nat.div_lt_iff_lt_mul hm]
    omega
  · have h : s / 2 ^ m = 1 := Nat.div_eq_of_lt_le (by omega) (by omega)
    omega

theorem lower_eq {k s : ℕ} (hs : s < 2 * 2 ^ m) (hk : k = 0 ∨ 2 ^ m ≤ s) :
    lower u m (k * 2 ^ m + s) = s * 2 ^ (u + k) := by
  unfold lower
  rw [cellOctave_eq hs hk, Nat.add_sub_cancel_left]

theorem width_eq {k s : ℕ} (hs : s < 2 * 2 ^ m) (hk : k = 0 ∨ 2 ^ m ≤ s) :
    width u m (k * 2 ^ m + s) = 2 ^ (u + k) := by
  rw [width, cellOctave_eq hs hk]

/-- Every cell number is an octave and a slot; only octave zero has slots below
`2^m`. -/
theorem exists_slot (m i : ℕ) :
    ∃ k s, i = k * 2 ^ m + s ∧ s < 2 * 2 ^ m ∧ (k = 0 ∨ 2 ^ m ≤ s) := by
  have hm : 0 < 2 ^ m := Nat.two_pow_pos m
  have hr := Nat.mod_lt i hm
  have hd := Nat.div_add_mod' i (2 ^ m)
  cases hq : i / 2 ^ m with
  | zero => exact ⟨0, i, by omega, by rw [hq] at hd; omega, .inl rfl⟩
  | succ q =>
      refine ⟨q, 2 ^ m + i % 2 ^ m, ?_, by omega, .inr (by omega)⟩
      rw [hq, Nat.add_mul] at hd
      omega

@[simp] theorem lower_zero : lower u m 0 = 0 := by
  simpa using lower_eq (u := u) (m := m) (k := 0) (s := 0) (by positivity) (.inl rfl)

/-- Consecutive cells meet: no gap and no overlap. -/
theorem lower_succ (i : ℕ) : lower u m (i + 1) = lower u m i + width u m i := by
  obtain ⟨k, s, rfl, hs, hk⟩ := exists_slot m i
  rw [lower_eq hs hk, width_eq hs hk]
  by_cases h : s + 1 < 2 * 2 ^ m
  · rw [Nat.add_assoc, lower_eq h (hk.imp id fun hs => by omega)]
    ring
  · have hs' : s + 1 = 2 * 2 ^ m := by omega
    have hi : k * 2 ^ m + s + 1 = (k + 1) * 2 ^ m + 2 ^ m := by
      rw [Nat.add_assoc, hs']; ring
    rw [hi, lower_eq (by have := Nat.two_pow_pos m; omega) (.inr le_rfl)]
    calc 2 ^ m * 2 ^ (u + (k + 1)) = 2 * 2 ^ m * 2 ^ (u + k) := by rw [← Nat.add_assoc]; ring
      _ = (s + 1) * 2 ^ (u + k) := by rw [hs']
      _ = s * 2 ^ (u + k) + 2 ^ (u + k) := by ring

theorem lower_strictMono : StrictMono (lower u m) :=
  strictMono_nat_of_lt_succ fun i => by
    rw [lower_succ]
    exact Nat.lt_add_of_pos_right (width_pos i)

theorem lt_two_pow_octave (v : ℕ) : v < 2 ^ (u + m + 1 + octave u m v) :=
  Nat.size_le.mp (by unfold octave; omega)

theorem two_pow_octave_le {v : ℕ} (h : octave u m v ≠ 0) :
    2 ^ (u + m + octave u m v) ≤ v :=
  Nat.lt_size.mp (by unfold octave at h ⊢; omega)

theorem slot_lt (v : ℕ) : slot u m v < 2 * 2 ^ m := by
  rw [slot, Nat.div_lt_iff_lt_mul (Nat.two_pow_pos _)]
  calc v < 2 ^ (u + m + 1 + octave u m v) := lt_two_pow_octave v
    _ = 2 * 2 ^ m * 2 ^ (u + octave u m v) := by ring

theorem le_slot (v : ℕ) : octave u m v = 0 ∨ 2 ^ m ≤ slot u m v := by
  by_cases h : octave u m v = 0
  · exact .inl h
  · right
    rw [slot, Nat.le_div_iff_mul_le (Nat.two_pow_pos _)]
    calc 2 ^ m * 2 ^ (u + octave u m v) = 2 ^ (u + m + octave u m v) := by ring
      _ ≤ v := two_pow_octave_le h

theorem lower_index (v : ℕ) :
    lower u m (index u m v) = slot u m v * 2 ^ (u + octave u m v) :=
  lower_eq (slot_lt v) (le_slot v)

theorem width_index (v : ℕ) : width u m (index u m v) = 2 ^ (u + octave u m v) :=
  width_eq (slot_lt v) (le_slot v)

theorem lower_index_le (v : ℕ) : lower u m (index u m v) ≤ v := by
  rw [lower_index]
  exact Nat.div_mul_le_self v _

theorem lt_lower_index_add_width (v : ℕ) :
    v < lower u m (index u m v) + width u m (index u m v) := by
  rw [lower_index, width_index]
  have h := Nat.lt_div_mul_add (a := v) (Nat.two_pow_pos (u + octave u m v))
  exact h

/-- The cell number and the lowest member are adjoint. -/
theorem galoisConnection : GaloisConnection (lower u m) (index u m) := by
  intro i v
  constructor
  · intro h
    by_contra hlt
    have hs : lower u m (index u m v + 1) ≤ lower u m i :=
      lower_strictMono.monotone (by omega)
    have hv := lt_lower_index_add_width (u := u) (m := m) v
    rw [lower_succ] at hs
    omega
  · intro h
    exact (lower_strictMono.monotone h).trans (lower_index_le v)

theorem index_mono : Monotone (index u m) := galoisConnection.monotone_u

@[simp] theorem index_lower (i : ℕ) : index u m (lower u m i) = i := by
  apply le_antisymm
  · exact lower_strictMono.le_iff_le.mp (lower_index_le _)
  · exact (galoisConnection _ _).mp le_rfl

@[simp] theorem index_zero : index u m 0 = 0 := by
  simpa using index_lower (u := u) (m := m) 0

theorem index_lt_iff (i v : ℕ) : index u m v < i ↔ v < lower u m i := by
  rw [← not_le, ← not_le, not_iff_not]
  exact (galoisConnection i v).symm

theorem index_eq_zero_iff (v : ℕ) : index u m v = 0 ↔ v < 2 ^ u := by
  have hfirst : lower u m 1 = 2 ^ u := by
    rw [← Nat.zero_add 1, lower_succ, lower_zero, width, cellOctave, Nat.zero_div, Nat.zero_sub,
      Nat.zero_add, Nat.add_zero]
  rw [← Nat.lt_one_iff, index_lt_iff, hfirst]

/-- The cells are exactly the intervals between consecutive lowest members. -/
theorem index_eq_iff (i v : ℕ) :
    index u m v = i ↔ lower u m i ≤ v ∧ v < lower u m i + width u m i := by
  rw [← lower_succ, ← index_lt_iff, galoisConnection i v]
  omega

theorem lower_octave (b : ℕ) : lower u m ((b + 1) * 2 ^ m) = 2 ^ (u + m + b) := by
  have h := lower_eq (u := u) (m := m) (k := b) (s := 2 ^ m)
    (by have := Nat.two_pow_pos m; omega) (.inr le_rfl)
  rw [Nat.add_mul, one_mul, h]
  ring

theorem index_lt_octave (b v : ℕ) :
    index u m v < (b + 1) * 2 ^ m ↔ v < 2 ^ (u + m + b) := by
  rw [index_lt_iff, lower_octave]

/-- A cell is either as wide as the first one or at most `2^-m` of its lowest
member wide. -/
theorem width_bound (i : ℕ) :
    width u m i = 2 ^ u ∨ 2 ^ m * width u m i ≤ lower u m i := by
  obtain ⟨k, s, rfl, hs, hk⟩ := exists_slot m i
  rw [width_eq hs hk, lower_eq hs hk]
  rcases hk with rfl | hk
  · exact .inl rfl
  · exact .inr (Nat.mul_le_mul_right _ hk)

/-- Relative precision: a member of a wide cell is more than `p` times as large
as its distance to any other member. -/
theorem precision {p v r : ℕ} (hp : p ≤ 2 ^ m) (hv : lower u m (index u m v) ≤ v)
    (hr : r < lower u m (index u m v) + width u m (index u m v)) :
    r - v < 2 ^ u ∨ p * (r - v) < v := by
  have hw := width_pos (u := u) (m := m) (index u m v)
  rcases width_bound (u := u) (m := m) (index u m v) with h | h
  · left; omega
  · right
    calc p * (r - v) ≤ 2 ^ m * (r - v) := Nat.mul_le_mul_right _ hp
      _ < 2 ^ m * width u m (index u m v) :=
        Nat.mul_lt_mul_of_pos_left (by omega) (Nat.two_pow_pos m)
      _ ≤ v := h.trans hv

/-- The middle of a cell is within half the first width of its members, or within a `2 * p`-th of
each of them. -/
theorem middle_near {p v : ℕ} (hp : p ≤ 2 ^ m) (hv : lower u m (index u m v) ≤ v)
    (hlt : v < lower u m (index u m v) + width u m (index u m v)) :
    |(lower u m (index u m v) + width u m (index u m v) / 2 : ℤ) - v| ≤ (2 ^ u / 2 : ℕ) ∨
      2 * p * |(lower u m (index u m v) + width u m (index u m v) / 2 : ℤ) - v| ≤ v := by
  have hhalf : width u m (index u m v) = 1 ∨
      width u m (index u m v) = 2 * (width u m (index u m v) / 2) := by
    rw [width]
    cases u + cellOctave m (index u m v) with
    | zero => exact .inl rfl
    | succ k => exact .inr (by omega)
  have hdist : |(lower u m (index u m v) + width u m (index u m v) / 2 : ℤ) - v| ≤
      (width u m (index u m v) / 2 : ℕ) := by
    rw [abs_le]
    constructor <;> omega
  rcases width_bound (u := u) (m := m) (index u m v) with hw | hw
  · left
    rwa [hw] at hdist ⊢
  · right
    calc 2 * p * |(lower u m (index u m v) + width u m (index u m v) / 2 : ℤ) - v|
        ≤ 2 * p * (width u m (index u m v) / 2 : ℕ) := by gcongr
      _ ≤ p * width u m (index u m v) := by
        rw [mul_comm 2, mul_assoc]
        exact_mod_cast Nat.mul_le_mul_left p (Nat.mul_div_le ..)
      _ ≤ 2 ^ m * width u m (index u m v) := by
        exact_mod_cast Nat.mul_le_mul_right _ hp
      _ ≤ v := by exact_mod_cast hw.trans hv

end HdrHistogramC.LogLinear
