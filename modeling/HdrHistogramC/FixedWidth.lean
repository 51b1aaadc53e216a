import Mathlib

/-!
# Signed machine words as integers

Words are compared and combined through their signed value. Each lemma says that
one machine operation returns the exact integer result, under the range condition
that the operation needs.
-/
namespace HdrHistogramC.FixedWidth

theorem bmod64 {x : ℤ} (h₁ : -2 ^ 63 ≤ x) (h₂ : x < 2 ^ 63) : x.bmod (2 ^ 64) = x :=
  Int.bmod_eq_of_le (by simpa using h₁) (by simpa using h₂)

theorem bmod32 {x : ℤ} (h₁ : -2 ^ 31 ≤ x) (h₂ : x < 2 ^ 31) : x.bmod (2 ^ 32) = x :=
  Int.bmod_eq_of_le (by simpa using h₁) (by simpa using h₂)

theorem eq_of_modEq64 {x y : ℤ} (h : x ≡ y [ZMOD 2 ^ 64]) (hx₁ : -2 ^ 63 ≤ x) (hx₂ : x < 2 ^ 63)
    (hy₁ : -2 ^ 63 ≤ y) (hy₂ : y < 2 ^ 63) : x = y := by
  obtain ⟨k, hk⟩ := h.symm.dvd
  omega

theorem toNat_smod {w k : ℕ} {x y : BitVec w} (hx : x.toInt = k) (hy : (k : ℤ) < y.toInt) :
    (x.smod y).toNat = k := by
  have h : (x.smod y).toInt = k := by
    rw [BitVec.toInt_smod, hx, Int.fmod_eq_emod_of_nonneg _ (by omega),
      Int.emod_eq_of_lt (by omega) hy]
  rw [BitVec.toInt_eq_toNat_cond] at h
  have hw := (x.smod y).isLt
  split at h <;> omega

theorem toInt_shl {w k : ℕ} (x : BitVec w) :
    (x <<< k).toInt = (x.toInt * 2 ^ k).bmod (2 ^ w) := by
  rw [BitVec.toInt_shiftLeft, Nat.shiftLeft_eq, BitVec.toInt_eq_toNat_bmod,
    Int.bmod_mul_bmod]
  push_cast
  rfl

section Word64
variable {a b : Int64} {k : ℕ}

theorem add64 (h₁ : -2 ^ 63 ≤ a.toInt + b.toInt) (h₂ : a.toInt + b.toInt < 2 ^ 63) :
    (a + b).toInt = a.toInt + b.toInt := by
  rw [Int64.toInt_add, bmod64 h₁ h₂]

theorem sub64 (h₁ : -2 ^ 63 ≤ a.toInt - b.toInt) (h₂ : a.toInt - b.toInt < 2 ^ 63) :
    (a - b).toInt = a.toInt - b.toInt := by
  rw [Int64.toInt_sub, bmod64 h₁ h₂]

theorem mul64 (h₁ : -2 ^ 63 ≤ a.toInt * b.toInt) (h₂ : a.toInt * b.toInt < 2 ^ 63) :
    (a * b).toInt = a.toInt * b.toInt := by
  rw [Int64.toInt_mul, bmod64 h₁ h₂]

/-- Arithmetic shift right is floor division. -/
theorem shr64 (hb : b.toInt = k) (hk : k < 64) : (a >>> b).toInt = a.toInt / 2 ^ k := by
  have hs : (b.toBitVec.smod 64).toNat = k :=
    toNat_smod hb (by change (k : ℤ) < 64; exact_mod_cast hk)
  rw [← Int64.toInt_toBitVec, Int64.toBitVec_shiftRight, BitVec.sshiftRight',
    BitVec.toInt_sshiftRight, hs, Int.shiftRight_eq_div_pow]
  simp

theorem shl64_bmod (hb : b.toInt = k) (hk : k < 64) :
    (a <<< b).toInt = (a.toInt * 2 ^ k).bmod (2 ^ 64) := by
  have hs : (b.toBitVec.smod 64).toNat = k :=
    toNat_smod hb (by change (k : ℤ) < 64; exact_mod_cast hk)
  rw [← Int64.toInt_toBitVec, Int64.toBitVec_shiftLeft, BitVec.shiftLeft_eq', hs, toInt_shl]
  rfl

theorem shl64 (hb : b.toInt = k) (hk : k < 64)
    (h₁ : -2 ^ 63 ≤ a.toInt * 2 ^ k) (h₂ : a.toInt * 2 ^ k < 2 ^ 63) :
    (a <<< b).toInt = a.toInt * 2 ^ k := by
  rw [shl64_bmod hb hk, bmod64 h₁ h₂]

theorem toInt32 (h₁ : -2 ^ 31 ≤ a.toInt) (h₂ : a.toInt < 2 ^ 31) : a.toInt32.toInt = a.toInt := by
  rw [Int64.toInt_toInt32, bmod32 h₁ h₂]

theorem toNat_toBitVec64 (h : 0 ≤ a.toInt) : a.toBitVec.toNat = a.toInt.toNat := by
  have hi : a.toBitVec.toInt = a.toInt := rfl
  have hw := a.toBitVec.isLt
  rw [BitVec.toInt_eq_toNat_cond] at hi
  split at hi <;> omega

theorem or64 (ha : 0 ≤ a.toInt) (hb : 0 ≤ b.toInt) :
    (a ||| b).toBitVec.toNat = a.toInt.toNat ||| b.toInt.toNat := by
  rw [Int64.toBitVec_or, BitVec.toNat_or, toNat_toBitVec64 ha, toNat_toBitVec64 hb]

end Word64

section Word32
variable {a b : Int32} {k : ℕ}

theorem add32 (h₁ : -2 ^ 31 ≤ a.toInt + b.toInt) (h₂ : a.toInt + b.toInt < 2 ^ 31) :
    (a + b).toInt = a.toInt + b.toInt := by
  rw [Int32.toInt_add, bmod32 h₁ h₂]

theorem sub32 (h₁ : -2 ^ 31 ≤ a.toInt - b.toInt) (h₂ : a.toInt - b.toInt < 2 ^ 31) :
    (a - b).toInt = a.toInt - b.toInt := by
  rw [Int32.toInt_sub, bmod32 h₁ h₂]

theorem mul32 (h₁ : -2 ^ 31 ≤ a.toInt * b.toInt) (h₂ : a.toInt * b.toInt < 2 ^ 31) :
    (a * b).toInt = a.toInt * b.toInt := by
  rw [Int32.toInt_mul, bmod32 h₁ h₂]

theorem shr32 (hb : b.toInt = k) (hk : k < 32) : (a >>> b).toInt = a.toInt / 2 ^ k := by
  have hs : (b.toBitVec.smod 32).toNat = k :=
    toNat_smod hb (by change (k : ℤ) < 32; exact_mod_cast hk)
  rw [← Int32.toInt_toBitVec, Int32.toBitVec_shiftRight, BitVec.sshiftRight',
    BitVec.toInt_sshiftRight, hs, Int.shiftRight_eq_div_pow]
  simp

theorem shl32 (hb : b.toInt = k) (hk : k < 32)
    (h₁ : -2 ^ 31 ≤ a.toInt * 2 ^ k) (h₂ : a.toInt * 2 ^ k < 2 ^ 31) :
    (a <<< b).toInt = a.toInt * 2 ^ k := by
  have hs : (b.toBitVec.smod 32).toNat = k :=
    toNat_smod hb (by change (k : ℤ) < 32; exact_mod_cast hk)
  rw [← Int32.toInt_toBitVec, Int32.toBitVec_shiftLeft, BitVec.shiftLeft_eq', hs, toInt_shl]
  exact bmod32 h₁ h₂

theorem toNat_toBitVec32 (h : 0 ≤ a.toInt) : a.toBitVec.toNat = a.toInt.toNat := by
  have hi : a.toBitVec.toInt = a.toInt := rfl
  have hw := a.toBitVec.isLt
  rw [BitVec.toInt_eq_toNat_cond] at hi
  split at hi <;> omega

theorem and32 (ha : 0 ≤ a.toInt) (hb : b.toInt = 2 ^ k - 1) :
    (a &&& b).toInt = a.toInt % 2 ^ k := by
  have hk : (0 : ℤ) < 2 ^ k := by positivity
  have hbn : b.toInt.toNat = 2 ^ k - 1 := by
    rw [hb]
    zify [Nat.one_le_two_pow (n := k)]
    rw [Int.toNat_of_nonneg (by omega)]
  have hn : (a &&& b).toBitVec.toNat = a.toInt.toNat % 2 ^ k := by
    rw [Int32.toBitVec_and, BitVec.toNat_and, toNat_toBitVec32 ha,
      toNat_toBitVec32 (by omega), hbn, Nat.and_two_pow_sub_one_eq_mod]
  have hle := Nat.mod_le a.toInt.toNat (2 ^ k)
  have hlt := a.toInt_lt
  rw [← Int32.toInt_toBitVec, BitVec.toInt_eq_toNat_of_lt (by rw [hn]; omega), hn]
  push_cast
  rw [Int.toNat_of_nonneg ha]

end Word32

/-- Bits of the leading one: `64 - clz` is the bit length. -/
theorem clz64 (x : BitVec 64) : (x.clz.toNat : ℤ) = 64 - (Nat.size x.toNat : ℤ) := by
  have hle : x.clz.toNat ≤ 64 := by
    have h := BitVec.clz_le (x := x)
    rw [BitVec.le_def] at h
    simpa using h
  have hlt := BitVec.toNat_lt_two_pow_sub_clz (x := x)
  have hs : Nat.size x.toNat ≤ 64 - x.clz.toNat := Nat.size_le.mpr hlt
  by_cases h0 : x = 0#64
  · subst h0
    simp
  · have h := BitVec.two_pow_sub_clz_le_toNat_of_ne_zero (x := x) (by omega) h0
    have := Nat.lt_size.mpr h
    omega

theorem size_or (x y : ℕ) : Nat.size (x ||| y) = max (Nat.size x) (Nat.size y) := by
  apply le_antisymm
  · rw [Nat.size_le]
    exact Nat.or_lt_two_pow (Nat.size_le.mp (le_max_left _ _)) (Nat.size_le.mp (le_max_right _ _))
  · exact max_le (Nat.size_le_size Nat.left_le_or) (Nat.size_le_size Nat.right_le_or)

end HdrHistogramC.FixedWidth
