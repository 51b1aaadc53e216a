import Mathlib

/-!
# The Gregorian calendar

Days are counted from the first of January of year one, a Monday, in both directions. The year of a
day is estimated from the mean length of a year and corrected by one at most.
-/
namespace HdrHistogramC.Calendar

/-- The days before the first of January. -/
def daysBefore (year : ℤ) : ℤ :=
  365 * (year - 1) + (year - 1) / 4 - (year - 1) / 100 + (year - 1) / 400

def IsLeap (year : ℤ) : Prop := year % 4 = 0 ∧ (year % 100 = 0 → year % 400 = 0)

instance (year : ℤ) : Decidable (IsLeap year) := inferInstanceAs (Decidable (_ ∧ _))

def yearOf (day : ℤ) : ℤ :=
  let estimate := day * 400 / 146097 + 1
  if day < daysBefore estimate then estimate - 1
  else if daysBefore (estimate + 1) ≤ day then estimate + 1
  else estimate

/-- The days before the first of February, of March, and so on, in a common year. -/
def monthEnds : List ℤ := [31, 59, 90, 120, 151, 181, 212, 243, 273, 304, 334]

/-- The months that are over, from zero to eleven. -/
def monthOf (day : ℤ) : ℕ :=
  let year := yearOf day
  let leapDay := if IsLeap year then 1 else 0
  monthEnds.countP fun days =>
    (if 59 ≤ days then days + leapDay else days) ≤ day - daysBefore year

/-- The days since a Sunday. -/
def weekdayOf (day : ℤ) : ℕ := ((day + 1) % 7).toNat

variable {year day : ℤ}

theorem daysBefore_succ (year : ℤ) :
    daysBefore (year + 1) = daysBefore year + if IsLeap year then 366 else 365 := by
  unfold daysBefore IsLeap
  split_ifs <;> omega

theorem daysBefore_strictMono : StrictMono daysBefore := by
  refine strictMono_int_of_lt_succ fun year => ?_
  rw [daysBefore_succ]
  split_ifs <;> omega

theorem yearOf_spec (day : ℤ) :
    daysBefore (yearOf day) ≤ day ∧ day < daysBefore (yearOf day + 1) := by
  unfold yearOf
  dsimp only
  split_ifs with hearly hlate
  · refine ⟨?_, by rwa [sub_add_cancel]⟩
    unfold daysBefore
    omega
  · refine ⟨hlate, ?_⟩
    unfold daysBefore
    omega
  · omega

/-- A year has begun when its first day is past. -/
theorem galoisConnection : GaloisConnection daysBefore yearOf := by
  intro year day
  obtain ⟨hle, hlt⟩ := yearOf_spec day
  constructor
  · intro hday
    have := daysBefore_strictMono.lt_iff_lt.mp (hday.trans_lt hlt)
    omega
  · intro hyear
    exact (daysBefore_strictMono.monotone hyear).trans hle

theorem yearOf_lt_iff : yearOf day < year ↔ day < daysBefore year :=
  galoisConnection.lt_iff_lt.symm

theorem monthOf_lt (day : ℤ) : monthOf day < 12 :=
  Nat.lt_succ_of_le (List.countP_le_length)

theorem weekdayOf_lt (day : ℤ) : weekdayOf day < 7 := by
  unfold weekdayOf
  omega

/-- The third of March 2024, a Sunday. -/
example : yearOf 738947 = 2024 ∧ monthOf 738947 = 2 ∧ weekdayOf 738947 = 0 := by decide

end HdrHistogramC.Calendar
