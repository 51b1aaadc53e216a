import HdrHistogramC.Layout

/-!
# The bucket map of an accepted configuration

Each index function of the source, read through `toInt`, is the function of the
log-linear tiling that the configuration describes. The bucket map theorem then
says that the counts array tiles the trackable range.
-/
namespace HdrHistogramC
open FixedWidth LogLinear

theorem size_mask (u m : ℕ) : Nat.size ((2 * 2 ^ m - 1) * 2 ^ u) = u + m + 1 := by
  have hm := Nat.one_le_two_pow (n := m)
  have hu := Nat.two_pow_pos u
  apply le_antisymm
  · rw [Nat.size_le]
    calc (2 * 2 ^ m - 1) * 2 ^ u < 2 * 2 ^ m * 2 ^ u :=
          Nat.mul_lt_mul_of_pos_right (by omega) hu
      _ = 2 ^ (u + m + 1) := by ring
  · rw [Nat.succ_le_iff, Nat.lt_size]
    calc 2 ^ (u + m) = 2 ^ m * 2 ^ u := by ring
      _ ≤ (2 * 2 ^ m - 1) * 2 ^ u := Nat.mul_le_mul_right _ (by omega)

theorem countLeadingZeros64_toInt (x : Int64) :
    (countLeadingZeros64 x).toInt = 64 - (Nat.size x.toBitVec.toNat : ℤ) := by
  have h := clz64 x.toBitVec
  rw [countLeadingZeros64, Int32.toInt_ofNat_of_lt (by omega), h]

theorem valueFromIndex_toInt {k s unit : Int32} {j n u : ℕ} (hk : k.toInt = j) (hs : s.toInt = n)
    (hu : unit.toInt = u) (hj : u + j < 63) (hfit : n * 2 ^ (u + j) < 2 ^ 63) :
    (valueFromIndex k s unit).toInt = (n * 2 ^ (u + j) : ℕ) := by
  have hc : (k + unit).toInt64.toInt = (u + j : ℕ) := by
    rw [Int32.toInt_toInt64, add32] <;> rw [hk, hu] <;> push_cast <;> omega
  have hf : (n : ℤ) * 2 ^ (u + j) < 2 ^ 63 := by exact_mod_cast hfit
  have hp : (0 : ℤ) ≤ n * 2 ^ (u + j) := by positivity
  rw [valueFromIndex, shl64 hc (by omega)] <;> rw [Int32.toInt_toInt64, hs]
  · push_cast; rfl
  · omega
  · omega

namespace BucketLayout.Describes
variable {h : BucketLayout} {u m b : ℕ} {v : Int64}

theorem size_le_63 (v : Int64) : Nat.size v.toInt.toNat ≤ 63 :=
  Nat.size_le.mpr (by have := v.toInt_lt; omega)

theorem octave_le (D : h.Describes u m b) (v : Int64) :
    u + m + octave u m v.toInt.toNat ≤ 62 := by
  have hs := size_le_63 v
  have hu := D.unit_le
  unfold octave
  omega

/-- The leading zeros are those of the larger of the value and the mask. -/
theorem leadingZeros_toInt (D : h.Describes u m b) (hv : 0 ≤ v.toInt) :
    (countLeadingZeros64 (v ||| h.subBucketMask)).toInt =
      64 - (max (Nat.size v.toInt.toNat) (u + m + 1) : ℕ) := by
  have hmask : h.subBucketMask.toInt = ((2 * 2 ^ m - 1) * 2 ^ u : ℕ) := by
    rw [D.mask]
    push_cast [Nat.cast_sub (show 1 ≤ 2 * 2 ^ m by have := Nat.two_pow_pos m; omega)]
    rfl
  rw [countLeadingZeros64_toInt, or64 hv (by omega), size_or, hmask, Int.toNat_natCast, size_mask]

theorem getBucketIndex_toInt (D : h.Describes u m b) (hv : 0 ≤ v.toInt) :
    (h.getBucketIndex v).toInt = octave u m v.toInt.toNat := by
  have hs := size_le_63 v
  have hu := D.unit_le
  have hm := D.half_le
  have e64 : (64 : Int32).toInt = 64 := rfl
  have hclz := D.leadingZeros_toInt hv
  have hceil : (64 - countLeadingZeros64 (v ||| h.subBucketMask)).toInt =
      max (Nat.size v.toInt.toNat) (u + m + 1) := by
    rw [sub32] <;> rw [hclz, e64] <;> push_cast <;> omega
  have hhalf : (h.subBucketHalfCountMagnitude + 1).toInt = m + 1 := by
    rw [add32] <;> rw [D.halfCountMagnitude, Int32.toInt_one] <;> omega
  have hunit : (64 - countLeadingZeros64 (v ||| h.subBucketMask) - h.unitMagnitude).toInt =
      max (Nat.size v.toInt.toNat) (u + m + 1) - u := by
    rw [sub32] <;> rw [hceil, D.unitMagnitude] <;> push_cast <;> omega
  unfold getBucketIndex octave
  rw [sub32] <;> rw [hunit, hhalf] <;> omega

theorem getSubBucketIndex_toInt (D : h.Describes u m b) (hv : 0 ≤ v.toInt) :
    (getSubBucketIndex v (h.getBucketIndex v) h.unitMagnitude).toInt =
      slot u m v.toInt.toNat := by
  have hk := D.octave_le v
  have hshift : (h.getBucketIndex v + h.unitMagnitude).toInt64.toInt =
      (u + octave u m v.toInt.toNat : ℕ) := by
    rw [Int32.toInt_toInt64, add32] <;> rw [D.getBucketIndex_toInt hv, D.unitMagnitude]
      <;> push_cast <;> omega
  have hq : (v >>> (h.getBucketIndex v + h.unitMagnitude).toInt64).toInt =
      slot u m v.toInt.toNat := by
    rw [shr64 hshift (by omega), slot]
    push_cast
    rw [Int.toNat_of_nonneg hv]
  have hs := slot_lt (u := u) (m := m) v.toInt.toNat
  have hm : 2 ^ m ≤ 2 ^ 17 := Nat.pow_le_pow_right (by omega) D.half_le
  unfold getSubBucketIndex
  rw [toInt32] <;> rw [hq] <;> omega

theorem index_lt (D : h.Describes u m b) (v : Int64) :
    index u m v.toInt.toNat < 2 ^ 24 := by
  have hs := slot_lt (u := u) (m := m) v.toInt.toNat
  have hk := D.octave_le v
  have hm : 2 ^ m ≤ 2 ^ 17 := Nat.pow_le_pow_right (by omega) D.half_le
  have hkm : octave u m v.toInt.toNat * 2 ^ m ≤ 62 * 2 ^ 17 :=
    Nat.mul_le_mul (by omega) hm
  unfold index
  omega

theorem countsIndexFor_toInt (D : h.Describes u m b) (hv : 0 ≤ v.toInt) :
    (h.countsIndexFor v).toInt = index u m v.toInt.toNat := by
  have hk := D.octave_le v
  have hs := slot_lt (u := u) (m := m) v.toInt.toNat
  have hm : (2 : ℤ) ^ m ≤ 2 ^ 17 := pow_le_pow_right₀ (by omega) D.half_le
  have hm0 : (0 : ℤ) < 2 ^ m := by positivity
  have hsm : (slot u m v.toInt.toNat : ℤ) < 2 * 2 ^ m := by exact_mod_cast hs
  have hkm : (octave u m v.toInt.toNat : ℤ) * 2 ^ m ≤ 62 * 2 ^ 17 :=
    mul_le_mul (by omega) hm (by omega) (by omega)
  have hk1 : (h.getBucketIndex v + 1).toInt = octave u m v.toInt.toNat + 1 := by
    rw [add32] <;> rw [D.getBucketIndex_toInt hv, Int32.toInt_one] <;> omega
  have hk0 : (0 : ℤ) ≤ octave u m v.toInt.toNat * 2 ^ m := mul_nonneg (Int.natCast_nonneg _) hm0.le
  have hbase : ((h.getBucketIndex v + 1) <<< h.subBucketHalfCountMagnitude).toInt =
      octave u m v.toInt.toNat * 2 ^ m + 2 ^ m := by
    rw [shl32 D.halfCountMagnitude (by have := D.half_le; omega)] <;> rw [hk1, add_mul, one_mul]
      <;> omega
  have hoff : (getSubBucketIndex v (h.getBucketIndex v) h.unitMagnitude -
      h.subBucketHalfCount).toInt = slot u m v.toInt.toNat - 2 ^ m := by
    rw [sub32] <;> rw [D.getSubBucketIndex_toInt hv, D.halfCount] <;> omega
  unfold countsIndexFor countsIndex index
  dsimp only
  rw [add32] <;> rw [hbase, hoff] <;> push_cast <;> omega

theorem lowestEquivalentValue_toInt (D : h.Describes u m b) (hv : 0 ≤ v.toInt) :
    (h.lowestEquivalentValue v).toInt = lower u m (index u m v.toInt.toNat) := by
  have hk := D.octave_le v
  have hle := lower_index_le (u := u) (m := m) v.toInt.toNat
  have hlt := v.toInt_lt
  rw [lower_index] at hle ⊢
  exact valueFromIndex_toInt (D.getBucketIndex_toInt hv) (D.getSubBucketIndex_toInt hv)
    D.unitMagnitude (by omega) (by omega)

theorem hdrSizeOfEquivalentValueRange_toInt (D : h.Describes u m b) (hv : 0 ≤ v.toInt) :
    (h.hdrSizeOfEquivalentValueRange v).toInt = width u m (index u m v.toInt.toNat) := by
  have hk := D.octave_le v
  have hs := slot_lt (u := u) (m := m) v.toInt.toNat
  -- the adjustment for an oversized sub-bucket index is never made
  have hadj : ¬ getSubBucketIndex v (h.getBucketIndex v) h.unitMagnitude ≥ h.subBucketCount := by
    rw [ge_iff_le, Int32.le_iff_toInt_le, D.getSubBucketIndex_toInt hv, D.subBucketCount]
    have : (slot u m v.toInt.toNat : ℤ) < 2 * 2 ^ m := by exact_mod_cast hs
    omega
  have hc : (h.unitMagnitude + h.getBucketIndex v).toInt64.toInt =
      (u + octave u m v.toInt.toNat : ℕ) := by
    rw [Int32.toInt_toInt64, add32] <;> rw [D.getBucketIndex_toInt hv, D.unitMagnitude]
      <;> push_cast <;> omega
  have hp : (2 : ℤ) ^ (u + octave u m v.toInt.toNat) ≤ 2 ^ 62 :=
    pow_le_pow_right₀ (by omega) (by omega)
  have hp0 : (0 : ℤ) < 2 ^ (u + octave u m v.toInt.toNat) := by positivity
  unfold hdrSizeOfEquivalentValueRange
  simp only [hadj, if_false]
  rw [shl64 hc (by omega), width_index] <;> rw [Int64.toInt_one, one_mul]
  · push_cast; rfl
  · omega
  · omega

theorem two_pow_top (D : h.Describes u m b) : 2 ^ (u + m + b) ≤ 2 ^ 63 :=
  Nat.pow_le_pow_right (by omega) D.fits

theorem lower_lt_top {i : ℕ} (hi : i < (b + 1) * 2 ^ m) : lower u m i < 2 ^ (u + m + b) := by
  rw [← lower_octave]
  exact lower_strictMono hi

/-- The two halves into which the source splits a counts index. -/
theorem indexParts_toInt (D : h.Describes u m b) {i : Int32} {n : ℕ} (hi : i.toInt = n) :
    (i >>> h.subBucketHalfCountMagnitude).toInt = (n / 2 ^ m : ℕ) ∧
      (i &&& (h.subBucketHalfCount - 1)).toInt = (n % 2 ^ m : ℕ) := by
  have hm : (2 : ℤ) ^ m ≤ 2 ^ 17 := pow_le_pow_right₀ (by omega) D.half_le
  have hm0 : (0 : ℤ) < 2 ^ m := by positivity
  have hm17 := D.half_le
  have hhalf : (h.subBucketHalfCount - 1).toInt = 2 ^ m - 1 := by
    rw [sub32] <;> rw [D.halfCount, Int32.toInt_one] <;> omega
  constructor
  · rw [shr32 D.halfCountMagnitude (by omega), hi]
    push_cast; rfl
  · rw [and32 (by omega) hhalf, hi]
    push_cast; rfl

/-- The locals of `hdr_value_at_index`: the bucket and the index in it. In the lower half of bucket
zero the bucket comes out as `-1`. -/
theorem valueIndex_cases (D : h.Describes u m b) {i : Int32} {n : ℕ} (hi : i.toInt = n)
    (hn : n < (b + 1) * 2 ^ m) :
    (((i >>> h.subBucketHalfCountMagnitude) - 1).toInt = -1 ∧ n < 2 ^ m ∧
      ((i &&& (h.subBucketHalfCount - 1)) + h.subBucketHalfCount).toInt = (n + 2 ^ m : ℕ) ∧
      ((i &&& (h.subBucketHalfCount - 1)) + h.subBucketHalfCount -
        h.subBucketHalfCount).toInt = n ∧ lower u m n = n * 2 ^ (u + 0)) ∨
    ∃ q s : ℕ, ((i >>> h.subBucketHalfCountMagnitude) - 1).toInt = q ∧ q < b ∧
      ((i &&& (h.subBucketHalfCount - 1)) + h.subBucketHalfCount).toInt = s ∧
      lower u m n = s * 2 ^ (u + q) := by
  obtain ⟨hdiv, hmod⟩ := D.indexParts_toInt hi
  have hm17 : 2 ^ m ≤ 2 ^ 17 := Nat.pow_le_pow_right (by omega) D.half_le
  have hm0 : 0 < 2 ^ m := Nat.two_pow_pos m
  have hr := Nat.mod_lt n hm0
  have hd := Nat.div_add_mod' n (2 ^ m)
  have hq : n / 2 ^ m < b + 1 := by rwa [Nat.div_lt_iff_lt_mul hm0]
  have hub := D.fits
  have hhalf : h.subBucketHalfCount.toInt = (2 ^ m : ℕ) := by rw [D.halfCount]; push_cast; rfl
  generalize n / 2 ^ m = q at *
  generalize n % 2 ^ m = r at *
  have hbucket : ((i >>> h.subBucketHalfCountMagnitude) - 1).toInt = (q : ℤ) - 1 := by
    rw [sub32] <;> rw [hdiv, Int32.toInt_one] <;> omega
  have hsub : ((i &&& (h.subBucketHalfCount - 1)) + h.subBucketHalfCount).toInt =
      (r + 2 ^ m : ℕ) := by
    rw [add32] <;> rw [hmod, hhalf] <;> omega
  cases q with
  | zero =>
      -- the lower half of bucket zero: the cell number is the sub-bucket index
      rw [zero_mul, zero_add] at hd
      have hlow := lower_eq (u := u) (m := m) (k := 0) (s := n) (by omega) (.inl rfl)
      rw [zero_mul, zero_add] at hlow
      refine .inl ⟨by omega, by omega, by rw [hsub, hd], ?_, hlow⟩
      rw [sub32] <;> rw [hsub, hhalf] <;> omega
  | succ q =>
      have heq : n = q * 2 ^ m + (r + 2 ^ m) := by
        rw [Nat.add_mul, one_mul] at hd
        omega
      have hlow := lower_eq (u := u) (m := m) (k := q) (s := r + 2 ^ m)
        (by omega) (.inr (by omega))
      rw [← heq] at hlow
      exact .inr ⟨q, r + 2 ^ m, by omega, by omega, hsub, hlow⟩

theorem hdrValueAtIndex_toInt (D : h.Describes u m b) {i : Int32} {n : ℕ} (hi : i.toInt = n)
    (hn : n < (b + 1) * 2 ^ m) : (h.hdrValueAtIndex i).toInt = lower u m n := by
  have hfit := (lower_lt_top (u := u) hn).trans_le D.two_pow_top
  have hub := D.fits
  have hb1 := D.bucket_pos
  unfold hdrValueAtIndex
  dsimp only
  rcases D.valueIndex_cases hi hn with ⟨hbucket, -, -, hsmall, hlow⟩ |
      ⟨q, s, hbucket, hq, hsub, hlow⟩
  · have hneg : (i >>> h.subBucketHalfCountMagnitude) - 1 < 0 := by
      rw [Int32.lt_iff_toInt_lt, hbucket, Int32.toInt_zero]
      omega
    rw [hlow] at hfit ⊢
    rw [if_pos hneg]
    exact valueFromIndex_toInt rfl hsmall D.unitMagnitude (by omega) hfit
  · have hneg : ¬ (i >>> h.subBucketHalfCountMagnitude) - 1 < 0 := by
      rw [Int32.lt_iff_toInt_lt, hbucket, Int32.toInt_zero]
      omega
    rw [hlow] at hfit ⊢
    rw [if_neg hneg]
    exact valueFromIndex_toInt hbucket hsub D.unitMagnitude (by omega) hfit

theorem countsLen_toInt (D : h.Describes u m b) :
    h.countsLen.toInt = ((b + 1) * 2 ^ m : ℕ) := by
  rw [D.countsLen]
  push_cast; rfl

/-- The index past the array stands for the first value that the buckets do not cover; the
shift wraps when that value is `2^63`. -/
theorem hdrValueAtIndex_countsLen (D : h.Describes u m b) :
    (h.hdrValueAtIndex h.countsLen).toInt =
      if u + m + b < 63 then 2 ^ (u + m + b) else -2 ^ 63 := by
  obtain ⟨hdiv, hmod⟩ := D.indexParts_toInt D.countsLen_toInt
  have hm0 : 0 < 2 ^ m := Nat.two_pow_pos m
  have hm17 : (2 : ℤ) ^ m ≤ 2 ^ 17 := pow_le_pow_right₀ (by omega) D.half_le
  have hpos : (0 : ℤ) < 2 ^ m := by positivity
  have hub := D.fits
  have hm1 : 1 ≤ m := by
    by_contra hm
    have hprec := D.precise
    have hfig := Nat.pow_le_pow_right (show 0 < 10 by omega)
      (show 1 ≤ h.significantFigures.toInt.toNat by have := D.figures_pos; omega)
    rw [show m = 0 by omega] at hprec
    omega
  rw [Nat.mul_div_cancel _ hm0] at hdiv
  rw [Nat.mul_mod_left] at hmod
  have i0 : (0 : Int32).toInt = 0 := rfl
  have hbucket : ((h.countsLen >>> h.subBucketHalfCountMagnitude) - 1).toInt = b := by
    rw [sub32] <;> rw [hdiv, Int32.toInt_one] <;> omega
  have hsub : ((h.countsLen &&& (h.subBucketHalfCount - 1)) + h.subBucketHalfCount).toInt =
      2 ^ m := by
    rw [add32] <;> rw [hmod, D.halfCount] <;> omega
  have hneg : ¬ (h.countsLen >>> h.subBucketHalfCountMagnitude) - 1 < 0 := by
    rw [Int32.lt_iff_toInt_lt, hbucket, i0]
    omega
  have hshift : (((h.countsLen >>> h.subBucketHalfCountMagnitude) - 1) +
      h.unitMagnitude).toInt64.toInt = (u + b : ℕ) := by
    rw [Int32.toInt_toInt64, add32] <;> rw [hbucket, D.unitMagnitude] <;> push_cast <;> omega
  unfold hdrValueAtIndex
  dsimp only
  rw [if_neg hneg, valueFromIndex, shl64_bmod hshift (by omega), Int32.toInt_toInt64, hsub,
    show (2 : ℤ) ^ m * 2 ^ (u + b) = 2 ^ (u + m + b) by rw [← pow_add]; congr 1; omega]
  split_ifs with hfit
  · have hlt : (2 : ℤ) ^ (u + m + b) < 2 ^ 63 := pow_lt_pow_right₀ (by omega) hfit
    have hpos : (0 : ℤ) < 2 ^ (u + m + b) := by positivity
    exact bmod64 (by omega) hlt
  · rw [show u + m + b = 63 by omega]
    decide

/-- The rejection of an index past the array is never taken. -/
theorem index_lt_countsLen (D : h.Describes u m b) (hv : 0 ≤ v.toInt)
    (hle : v.toInt ≤ h.highestTrackableValue.toInt) :
    index u m v.toInt.toNat < (b + 1) * 2 ^ m := by
  rw [index_lt_octave]
  have hc := D.covers
  zify
  rw [Int.toNat_of_nonneg hv]
  omega

theorem hdrValueAtIndex_countsIndexFor (D : h.Describes u m b) (hv : 0 ≤ v.toInt)
    (hle : v.toInt ≤ h.highestTrackableValue.toInt) :
    h.hdrValueAtIndex (h.countsIndexFor v) = h.lowestEquivalentValue v := by
  rw [← Int64.toInt_inj, D.hdrValueAtIndex_toInt (D.countsIndexFor_toInt hv)
    (D.index_lt_countsLen hv hle), D.lowestEquivalentValue_toInt hv]

theorem countsIndexFor_hdrValueAtIndex (D : h.Describes u m b) {i : Int32} {n : ℕ}
    (hi : i.toInt = n) (hn : n < (b + 1) * 2 ^ m) :
    h.countsIndexFor (h.hdrValueAtIndex i) = i := by
  have hval := D.hdrValueAtIndex_toInt hi hn
  rw [← Int32.toInt_inj, D.countsIndexFor_toInt (by omega), hval, Int.toNat_natCast,
    index_lower, hi]

end BucketLayout.Describes

/-- The layouts that `hdr_calculate_bucket_config` produces. -/
def BucketLayout.Accepted (h : BucketLayout) : Prop :=
  ∃ lowest highest figures cfg,
    hdrCalculateBucketConfig lowest highest figures = some (.ok cfg) ∧ h = cfg.layout

theorem BucketLayout.Accepted.describes {h : BucketLayout} (ok : h.Accepted) :
    ∃ u m b, h.Describes u m b := by
  obtain ⟨lowest, highest, figures, cfg, hcfg, rfl⟩ := ok
  by_cases ha : Acceptable lowest highest figures
  · obtain ⟨cfg', m, b, hcfg', -, D, -⟩ := hdrCalculateBucketConfig_accept ha
    rw [hcfg] at hcfg'
    cases hcfg'
    exact ⟨_, m, b, D⟩
  · rw [hdrCalculateBucketConfig_reject ha] at hcfg
    cases hcfg

theorem BucketLayout.Accepted.config {h : BucketLayout} (ok : h.Accepted) :
    ∃ cfg, hdrCalculateBucketConfig h.lowestDiscernibleValue h.highestTrackableValue
      h.significantFigures = some (.ok cfg) ∧ h = cfg.layout := by
  obtain ⟨lowest, highest, figures, cfg, hcfg, rfl⟩ := ok
  by_cases ha : Acceptable lowest highest figures
  · obtain ⟨cfg', m, b, hcfg', -, -, hl, hh, hf⟩ := hdrCalculateBucketConfig_accept ha
    rw [hcfg] at hcfg'
    cases hcfg'
    refine ⟨cfg, ?_, rfl⟩
    rw [hf]
    change hdrCalculateBucketConfig cfg.lowestDiscernibleValue cfg.highestTrackableValue _ = _
    rw [hl, hh, hcfg]
  · rw [hdrCalculateBucketConfig_reject ha] at hcfg
    cases hcfg

/-- The bucket map is an order preserving map onto the counts array whose classes
are consecutive intervals. -/
structure BucketMapCorrect (h : BucketLayout) : Prop where
  in_range : ∀ v, 0 ≤ v → v ≤ h.highestTrackableValue →
    0 ≤ h.countsIndexFor v ∧ h.countsIndexFor v < h.countsLen
  value_at_index : ∀ v, 0 ≤ v → v ≤ h.highestTrackableValue →
    h.hdrValueAtIndex (h.countsIndexFor v) = h.hdrLowestEquivalentValue v
  lowest_le : ∀ v, 0 ≤ v → v ≤ h.highestTrackableValue → h.hdrLowestEquivalentValue v ≤ v
  lt_next : ∀ v, 0 ≤ v → v ≤ h.highestTrackableValue →
    v.toInt < (h.hdrLowestEquivalentValue v).toInt + (h.hdrSizeOfEquivalentValueRange v).toInt
  monotone : ∀ v w, 0 ≤ v → v ≤ w → w ≤ h.highestTrackableValue →
    h.countsIndexFor v ≤ h.countsIndexFor w
  same_index : ∀ v w, 0 ≤ v → v ≤ h.highestTrackableValue → 0 ≤ w →
    w ≤ h.highestTrackableValue →
    (h.countsIndexFor v = h.countsIndexFor w ↔ h.hdrValuesAreEquivalent v w = true)
  index_of_value : ∀ i, 0 ≤ i → i < h.countsLen → h.countsIndexFor (h.hdrValueAtIndex i) = i
  interval : ∀ i v, 0 ≤ i → i < h.countsLen → 0 ≤ v →
    (h.countsIndexFor v = i ↔ h.hdrValueAtIndex i ≤ v ∧ v.toInt < (h.hdrValueAtIndex i).toInt +
      (h.hdrSizeOfEquivalentValueRange (h.hdrValueAtIndex i)).toInt)
  first : h.hdrValueAtIndex 0 = 0
  consecutive : ∀ i, 0 ≤ i → i.toInt + 1 < h.countsLen.toInt →
    (h.hdrValueAtIndex (i + 1)).toInt = (h.hdrValueAtIndex i).toInt +
      (h.hdrSizeOfEquivalentValueRange (h.hdrValueAtIndex i)).toInt
  covers : h.highestTrackableValue.toInt < (h.hdrValueAtIndex (h.countsLen - 1)).toInt +
    (h.hdrSizeOfEquivalentValueRange (h.hdrValueAtIndex (h.countsLen - 1))).toInt

namespace BucketLayout.Describes
variable {h : BucketLayout} {u m b : ℕ} {v : Int64}

theorem nonneg_iff (v : Int64) : 0 ≤ v ↔ 0 ≤ v.toInt := by
  rw [Int64.le_iff_toInt_le, Int64.toInt_zero]

theorem exists_index (D : h.Describes u m b) {i : Int32} (h₀ : 0 ≤ i) (hi : i < h.countsLen) :
    ∃ n : ℕ, i.toInt = n ∧ n < (b + 1) * 2 ^ m := by
  rw [Int32.le_iff_toInt_le, Int32.toInt_zero] at h₀
  rw [Int32.lt_iff_toInt_lt, D.countsLen_toInt] at hi
  exact ⟨i.toInt.toNat, by omega, by omega⟩

theorem hdrValuesAreEquivalent_iff (D : h.Describes u m b) {w : Int64} (hv : 0 ≤ v.toInt)
    (hw : 0 ≤ w.toInt) : h.hdrValuesAreEquivalent v w = true ↔
      h.countsIndexFor v = h.countsIndexFor w := by
  rw [hdrValuesAreEquivalent, beq_iff_eq, ← Int64.toInt_inj, ← Int32.toInt_inj,
    D.lowestEquivalentValue_toInt hv, D.lowestEquivalentValue_toInt hw,
    D.countsIndexFor_toInt hv, D.countsIndexFor_toInt hw, Int.natCast_inj, Int.natCast_inj]
  exact lower_strictMono.injective.eq_iff

theorem size_hdrValueAtIndex (D : h.Describes u m b) {i : Int32} {n : ℕ} (hi : i.toInt = n)
    (hn : n < (b + 1) * 2 ^ m) :
    (h.hdrSizeOfEquivalentValueRange (h.hdrValueAtIndex i)).toInt = width u m n := by
  have hval := D.hdrValueAtIndex_toInt hi hn
  rw [D.hdrSizeOfEquivalentValueRange_toInt (by omega), hval, Int.toNat_natCast, index_lower]

/-- The end of the cell of a 64-bit value is at most `2^63`. -/
theorem next_le (D : h.Describes u m b) (v : Int64) :
    lower u m (index u m v.toInt.toNat) + width u m (index u m v.toInt.toNat) ≤ 2 ^ 63 := by
  have hu := D.unit_le
  have hv := v.toInt_lt
  have hi : index u m v.toInt.toNat < (63 - u - m + 1) * 2 ^ m := by
    rw [index_lt_octave, show u + m + (63 - u - m) = 63 by omega]
    omega
  rw [← lower_succ]
  calc lower u m (index u m v.toInt.toNat + 1) ≤ lower u m ((63 - u - m + 1) * 2 ^ m) :=
        lower_strictMono.monotone hi
    _ = 2 ^ 63 := by rw [lower_octave, show u + m + (63 - u - m) = 63 by omega]

/-- The last member of the cell; at the top of the range the sum in the source
wraps and the subtraction wraps back. -/
theorem highestEquivalentValue_toInt (D : h.Describes u m b) (hv : 0 ≤ v.toInt) :
    (h.highestEquivalentValue v).toInt =
      lower u m (index u m v.toInt.toNat) + width u m (index u m v.toInt.toNat) - 1 := by
  have hnext := D.next_le v
  have hw := width_pos (u := u) (m := m) (index u m v.toInt.toNat)
  unfold highestEquivalentValue hdrNextNonEquivalentValue
  rw [Int64.toInt_sub, Int64.toInt_add, Int.bmod_sub_bmod, D.lowestEquivalentValue_toInt hv,
    D.hdrSizeOfEquivalentValueRange_toInt hv, Int64.toInt_one]
  exact bmod64 (by omega) (by omega)

theorem hdrMedianEquivalentValue_toInt (D : h.Describes u m b) (hv : 0 ≤ v.toInt) :
    (h.hdrMedianEquivalentValue v).toInt =
      lower u m (index u m v.toInt.toNat) + (width u m (index u m v.toInt.toNat) : ℤ) / 2 := by
  have hlow := D.lowestEquivalentValue_toInt hv
  have hnext := D.next_le v
  have hw := width_pos (u := u) (m := m) (index u m v.toInt.toNat)
  have hhalf := shr64 (a := h.hdrSizeOfEquivalentValueRange v)
    (show (1 : Int64).toInt = (1 : ℕ) from rfl) (by omega)
  rw [D.hdrSizeOfEquivalentValueRange_toInt hv, pow_one] at hhalf
  unfold hdrMedianEquivalentValue
  rw [add64 (by omega) (by omega), hlow, hhalf]

theorem countsLen_lt (D : h.Describes u m b) : (b + 1) * 2 ^ m ≤ 2 ^ 24 := by
  have hf := D.fits
  calc (b + 1) * 2 ^ m ≤ 64 * 2 ^ 17 :=
        Nat.mul_le_mul (by omega) (Nat.pow_le_pow_right (by omega) D.half_le)
    _ ≤ 2 ^ 24 := by omega

end BucketLayout.Describes

open BucketLayout.Describes in
theorem bucketMap_correct {h : BucketLayout} (ok : h.Accepted) : BucketMapCorrect h := by
  obtain ⟨u, m, b, D⟩ := ok.describes
  have hlen := D.countsLen_lt
  have hpos : 0 < (b + 1) * 2 ^ m := by positivity
  have hlast : (h.countsLen - 1).toInt = ((b + 1) * 2 ^ m - 1 : ℕ) := by
    rw [sub32] <;> rw [D.countsLen_toInt, Int32.toInt_one] <;> omega
  refine ⟨?_, ?_, ?_, ?_, ?_, ?_, ?_, ?_, ?_, ?_, ?_⟩
  · intro v hv hle
    rw [nonneg_iff] at hv
    have hi := D.index_lt_countsLen hv (Int64.le_iff_toInt_le.mp hle)
    rw [Int32.le_iff_toInt_le, Int32.lt_iff_toInt_lt, D.countsIndexFor_toInt hv,
      D.countsLen_toInt, Int32.toInt_zero]
    omega
  · intro v hv hle
    exact D.hdrValueAtIndex_countsIndexFor ((nonneg_iff v).mp hv) (Int64.le_iff_toInt_le.mp hle)
  · intro v hv _
    rw [nonneg_iff] at hv
    have hl := lower_index_le (u := u) (m := m) v.toInt.toNat
    rw [Int64.le_iff_toInt_le, BucketLayout.hdrLowestEquivalentValue,
      D.lowestEquivalentValue_toInt hv]
    omega
  · intro v hv _
    rw [nonneg_iff] at hv
    have hl := lt_lower_index_add_width (u := u) (m := m) v.toInt.toNat
    rw [BucketLayout.hdrLowestEquivalentValue, D.lowestEquivalentValue_toInt hv,
      D.hdrSizeOfEquivalentValueRange_toInt hv]
    omega
  · intro v w hv hvw _
    rw [nonneg_iff] at hv
    rw [Int64.le_iff_toInt_le] at hvw
    rw [Int32.le_iff_toInt_le, D.countsIndexFor_toInt hv, D.countsIndexFor_toInt (by omega)]
    exact_mod_cast index_mono (by omega)
  · intro v w hv _ hw _
    exact (D.hdrValuesAreEquivalent_iff ((nonneg_iff v).mp hv) ((nonneg_iff w).mp hw)).symm
  · intro i h₀ hi
    obtain ⟨n, hn, hlt⟩ := D.exists_index h₀ hi
    exact D.countsIndexFor_hdrValueAtIndex hn hlt
  · intro i v h₀ hi hv
    rw [nonneg_iff] at hv
    obtain ⟨n, hn, hlt⟩ := D.exists_index h₀ hi
    rw [← Int32.toInt_inj, D.countsIndexFor_toInt hv, Int64.le_iff_toInt_le,
      D.size_hdrValueAtIndex hn hlt, D.hdrValueAtIndex_toInt hn hlt, hn, Int.natCast_inj,
      index_eq_iff]
    omega
  · rw [← Int64.toInt_inj, D.hdrValueAtIndex_toInt (n := 0) rfl hpos, lower_zero]
    rfl
  · intro i h₀ hi
    rw [D.countsLen_toInt] at hi
    rw [Int32.le_iff_toInt_le, Int32.toInt_zero] at h₀
    obtain ⟨n, hn⟩ := Int.eq_ofNat_of_zero_le h₀
    have hi1 : (i + 1).toInt = (n + 1 : ℕ) := by
      rw [add32] <;> rw [hn, Int32.toInt_one] <;> omega
    rw [D.hdrValueAtIndex_toInt hi1 (by omega), D.hdrValueAtIndex_toInt hn (by omega),
      D.size_hdrValueAtIndex hn (by omega), lower_succ]
    push_cast; rfl
  · have hcov := D.covers
    rw [D.hdrValueAtIndex_toInt hlast (by omega), D.size_hdrValueAtIndex hlast (by omega)]
    have hend := lower_succ (u := u) (m := m) ((b + 1) * 2 ^ m - 1)
    rw [Nat.sub_add_cancel hpos, lower_octave] at hend
    have : ((2 ^ (u + m + b) : ℕ) : ℤ) = 2 ^ (u + m + b) := by push_cast; rfl
    omega

/-- Values up to 100 at one significant figure. -/
def sampleLayout : BucketLayout where
  lowestDiscernibleValue := 1
  highestTrackableValue := 100
  unitMagnitude := 0
  significantFigures := 1
  subBucketHalfCountMagnitude := 4
  subBucketHalfCount := 16
  subBucketMask := 31
  subBucketCount := 32
  bucketCount := 3
  countsLen := 64

theorem sampleLayout_accepted : sampleLayout.Accepted := by
  refine ⟨1, 100, 1, ⟨1, 100, 0, 1, 4, 16, 31, 32, 3, 64⟩, ?_, ?_⟩
  · decide +kernel
  · decide +kernel

theorem bucketMap_correct_sample :
    sampleLayout.countsIndexFor 77 = 51 ∧ sampleLayout.hdrValueAtIndex 51 = 76 ∧
      BucketMapCorrect sampleLayout :=
  ⟨by decide +kernel, by decide +kernel, bucketMap_correct sampleLayout_accepted⟩

end HdrHistogramC
