import HdrHistogramC.FixedWidth

/-!
# Machine arithmetic without overflow

An operation on signed words is checked when it returns a result only if the exact integer
result is a word again. Where it does, the machine operation returns the same word.
-/
namespace HdrHistogramC.Checked

/-- The word with the value `x`. -/
def int64 (x : ℤ) : Option Int64 :=
  if -2 ^ 63 ≤ x ∧ x < 2 ^ 63 then some (Int64.ofInt x) else none

def int32 (x : ℤ) : Option Int32 :=
  if -2 ^ 31 ≤ x ∧ x < 2 ^ 31 then some (Int32.ofInt x) else none

theorem int64_eq_some {x : ℤ} {a : Int64} : int64 x = some a ↔ a.toInt = x := by
  unfold int64
  constructor
  · intro h
    split_ifs at h with hx
    rw [← Option.some.inj h, Int64.toInt_ofInt_of_le hx.1 hx.2]
  · rintro rfl
    rw [if_pos ⟨a.le_toInt, a.toInt_lt⟩, Int64.ofInt_toInt]

theorem int32_eq_some {x : ℤ} {a : Int32} : int32 x = some a ↔ a.toInt = x := by
  unfold int32
  constructor
  · intro h
    split_ifs at h with hx
    rw [← Option.some.inj h, Int32.toInt_ofInt_of_le hx.1 hx.2]
  · rintro rfl
    rw [if_pos ⟨a.le_toInt, a.toInt_lt⟩, Int32.ofInt_toInt]

theorem int64_eq_none {x : ℤ} : int64 x = none ↔ ¬ (-2 ^ 63 ≤ x ∧ x < 2 ^ 63) := by
  unfold int64
  split_ifs with hx
  · exact ⟨fun h => (by cases h), fun h => absurd hx h⟩
  · exact ⟨fun _ => hx, fun _ => rfl⟩

theorem int32_eq_none {x : ℤ} : int32 x = none ↔ ¬ (-2 ^ 31 ≤ x ∧ x < 2 ^ 31) := by
  unfold int32
  split_ifs with hx
  · exact ⟨fun h => (by cases h), fun h => absurd hx h⟩
  · exact ⟨fun _ => hx, fun _ => rfl⟩

def add64 (a b : Int64) : Option Int64 := int64 (a.toInt + b.toInt)

def sub64 (a b : Int64) : Option Int64 := int64 (a.toInt - b.toInt)

def mul64 (a b : Int64) : Option Int64 := int64 (a.toInt * b.toInt)

/-- A shift by a count outside the width has no result. -/
def shl64 (a b : Int64) : Option Int64 :=
  if 0 ≤ b.toInt ∧ b.toInt < 64 then int64 (a.toInt * 2 ^ b.toInt.toNat) else none

def shr64 (a b : Int64) : Option Int64 :=
  if 0 ≤ b.toInt ∧ b.toInt < 64 then int64 (a.toInt / 2 ^ b.toInt.toNat) else none

def add32 (a b : Int32) : Option Int32 := int32 (a.toInt + b.toInt)

def sub32 (a b : Int32) : Option Int32 := int32 (a.toInt - b.toInt)

def shr32 (a b : Int32) : Option Int32 :=
  if 0 ≤ b.toInt ∧ b.toInt < 32 then int32 (a.toInt / 2 ^ b.toInt.toNat) else none

/-- The conversion to a narrower word. -/
def toInt32 (a : Int64) : Option Int32 := int32 a.toInt

section Exact
variable {k : ℕ}

theorem add64_eq {a b : Int64} (h₁ : -2 ^ 63 ≤ a.toInt + b.toInt)
    (h₂ : a.toInt + b.toInt < 2 ^ 63) : add64 a b = some (a + b) :=
  int64_eq_some.mpr (FixedWidth.add64 h₁ h₂)

theorem sub64_eq {a b : Int64} (h₁ : -2 ^ 63 ≤ a.toInt - b.toInt)
    (h₂ : a.toInt - b.toInt < 2 ^ 63) : sub64 a b = some (a - b) :=
  int64_eq_some.mpr (FixedWidth.sub64 h₁ h₂)

theorem shl64_eq {a b : Int64} (hb : b.toInt = k) (hk : k < 64)
    (h₁ : -2 ^ 63 ≤ a.toInt * 2 ^ k) (h₂ : a.toInt * 2 ^ k < 2 ^ 63) :
    shl64 a b = some (a <<< b) := by
  rw [shl64, if_pos (by omega), hb, Int.toNat_natCast]
  exact int64_eq_some.mpr (FixedWidth.shl64 hb hk h₁ h₂)

theorem shr64_eq {a b : Int64} (hb : b.toInt = k) (hk : k < 64) :
    shr64 a b = some (a >>> b) := by
  rw [shr64, if_pos (by omega), hb, Int.toNat_natCast]
  exact int64_eq_some.mpr (FixedWidth.shr64 hb hk)

theorem add32_eq {a b : Int32} (h₁ : -2 ^ 31 ≤ a.toInt + b.toInt)
    (h₂ : a.toInt + b.toInt < 2 ^ 31) : add32 a b = some (a + b) :=
  int32_eq_some.mpr (FixedWidth.add32 h₁ h₂)

theorem sub32_eq {a b : Int32} (h₁ : -2 ^ 31 ≤ a.toInt - b.toInt)
    (h₂ : a.toInt - b.toInt < 2 ^ 31) : sub32 a b = some (a - b) :=
  int32_eq_some.mpr (FixedWidth.sub32 h₁ h₂)

theorem shr32_eq {a b : Int32} (hb : b.toInt = k) (hk : k < 32) :
    shr32 a b = some (a >>> b) := by
  rw [shr32, if_pos (by omega), hb, Int.toNat_natCast]
  exact int32_eq_some.mpr (FixedWidth.shr32 hb hk)

theorem toInt32_eq {a : Int64} (h₁ : -2 ^ 31 ≤ a.toInt) (h₂ : a.toInt < 2 ^ 31) :
    toInt32 a = some a.toInt32 :=
  int32_eq_some.mpr (FixedWidth.toInt32 h₁ h₂)

end Exact

end HdrHistogramC.Checked
