import HdrHistogramC.LevelIteration

/-!
# The arithmetic of equivalent ranges

The functions that bound the range of a value, and `move_next`, with every operation checked.
On a recordable value every result is exact unless the range of the value ends at `2^63`: its
end is computed before one is taken off it, although `buckets_needed_to_cover_value` guards
the same bound.
-/
namespace HdrHistogramC
open FixedWidth LogLinear BucketLayout.Describes

namespace Checked

def getBucketIndex (h : BucketLayout) (value : Int64) : Option Int32 := do
  let pow2ceiling ← sub32 64 (countLeadingZeros64 (value ||| h.subBucketMask))
  let overUnit ← sub32 pow2ceiling h.unitMagnitude
  let halfCountBits ← add32 h.subBucketHalfCountMagnitude 1
  sub32 overUnit halfCountBits

def getSubBucketIndex (value : Int64) (bucketIndex unitMagnitude : Int32) : Option Int32 := do
  let count ← add32 bucketIndex unitMagnitude
  let shifted ← shr64 value count.toInt64
  toInt32 shifted

def valueFromIndex (bucketIndex subBucketIndex unitMagnitude : Int32) : Option Int64 := do
  let count ← add32 bucketIndex unitMagnitude
  shl64 subBucketIndex.toInt64 count.toInt64

def hdrValueAtIndex (h : BucketLayout) (index : Int32) : Option Int64 := do
  let bucketBase ← shr32 index h.subBucketHalfCountMagnitude
  let bucketIndex ← sub32 bucketBase 1
  let mask ← sub32 h.subBucketHalfCount 1
  let subBucketIndex ← add32 (index &&& mask) h.subBucketHalfCount
  if bucketIndex < 0 then
    let subBucketIndex ← sub32 subBucketIndex h.subBucketHalfCount
    valueFromIndex 0 subBucketIndex h.unitMagnitude
  else
    valueFromIndex bucketIndex subBucketIndex h.unitMagnitude

def sizeOfEquivalentValueRangeGivenBucketIndices (h : BucketLayout)
    (bucketIndex subBucketIndex : Int32) : Option Int64 := do
  let adjustedBucket ←
    if subBucketIndex ≥ h.subBucketCount then add32 bucketIndex 1 else some bucketIndex
  let count ← add32 h.unitMagnitude adjustedBucket
  shl64 1 count.toInt64

def hdrSizeOfEquivalentValueRange (h : BucketLayout) (value : Int64) : Option Int64 := do
  let bucketIndex ← getBucketIndex h value
  let subBucketIndex ← getSubBucketIndex value bucketIndex h.unitMagnitude
  sizeOfEquivalentValueRangeGivenBucketIndices h bucketIndex subBucketIndex

def lowestEquivalentValue (h : BucketLayout) (value : Int64) : Option Int64 := do
  let bucketIndex ← getBucketIndex h value
  let subBucketIndex ← getSubBucketIndex value bucketIndex h.unitMagnitude
  valueFromIndex bucketIndex subBucketIndex h.unitMagnitude

def hdrNextNonEquivalentValue (h : BucketLayout) (value : Int64) : Option Int64 := do
  let lowest ← lowestEquivalentValue h value
  let size ← hdrSizeOfEquivalentValueRange h value
  add64 lowest size

def highestEquivalentValue (h : BucketLayout) (value : Int64) : Option Int64 := do
  let next ← hdrNextNonEquivalentValue h value
  sub64 next 1

def hdrMedianEquivalentValue (h : BucketLayout) (value : Int64) : Option Int64 := do
  let lowest ← lowestEquivalentValue h value
  let size ← hdrSizeOfEquivalentValueRange h value
  let half ← shr64 size 1
  add64 lowest half

def normalizeIndex (h : HdrHistogram) (index : Int32) : Option Int32 :=
  if h.normalizingIndexOffset = 0 then some index
  else do
    let normalizedIndex ← sub32 index h.normalizingIndexOffset
    let adjustment ←
      if normalizedIndex < 0 then some h.countsLen
      else if normalizedIndex ≥ h.countsLen then sub32 0 h.countsLen
      else some 0
    add32 normalizedIndex adjustment

def moveNext {σ : Type} (h : HdrHistogram) (it : HdrIter σ) : Option (Bool × HdrIter σ) := do
  let countsIndex ← add32 it.countsIndex 1
  let it := { it with countsIndex := countsIndex }
  if !it.hasBuckets h then some (false, it)
  else
    let normalizedIndex ← normalizeIndex h it.countsIndex
    let count ← h.countsGetDirect normalizedIndex
    let cumulativeCount ← add64 it.cumulativeCount count
    let value ← hdrValueAtIndex h.toBucketLayout it.countsIndex
    let bucketIndex ← getBucketIndex h.toBucketLayout value
    let subBucketIndex ← getSubBucketIndex value bucketIndex h.unitMagnitude
    let leq ← valueFromIndex bucketIndex subBucketIndex h.unitMagnitude
    let size ←
      sizeOfEquivalentValueRangeGivenBucketIndices h.toBucketLayout bucketIndex subBucketIndex
    let next ← add64 leq size
    let highest ← sub64 next 1
    let half ← shr64 size 1
    let median ← add64 leq half
    some (true, { it with
      count := count
      cumulativeCount := cumulativeCount
      lowestEquivalentValue := leq
      value := value
      highestEquivalentValue := highest
      medianEquivalentValue := median })

end Checked

section Exact
variable {h : BucketLayout} {u m b n : ℕ} {v : Int64} {i : Int32}

theorem getBucketIndex_checked (D : h.Describes u m b) (hv : 0 ≤ v.toInt) :
    Checked.getBucketIndex h v = some (h.getBucketIndex v) := by
  have hs := size_le_63 v
  have hu := D.unit_le
  have hm := D.half_le
  have e64 : (64 : Int32).toInt = 64 := rfl
  have hclz := D.leadingZeros_toInt hv
  have hceil : (64 - countLeadingZeros64 (v ||| h.subBucketMask)).toInt =
      max (Nat.size v.toInt.toNat) (u + m + 1) := by
    rw [sub32] <;> rw [hclz, e64] <;> push_cast <;> omega
  have hhalf : (h.subBucketHalfCountMagnitude + 1).toInt = m + 1 := by
    rw [add32] <;> rw [D.halfCountMagnitude, Int32.toInt_one] <;> omega
  have hunit : (64 - countLeadingZeros64 (v ||| h.subBucketMask) - h.unitMagnitude).toInt =
      max (Nat.size v.toInt.toNat) (u + m + 1) - u := by
    rw [sub32] <;> rw [hceil, D.unitMagnitude] <;> push_cast <;> omega
  have cceil : Checked.sub32 64 (countLeadingZeros64 (v ||| h.subBucketMask)) = some _ :=
    Checked.sub32_eq (by rw [e64, hclz]; omega) (by rw [e64, hclz]; omega)
  have cunit : Checked.sub32 (64 - countLeadingZeros64 (v ||| h.subBucketMask)) h.unitMagnitude =
      some _ := Checked.sub32_eq (by rw [hceil, D.unitMagnitude]; omega)
    (by rw [hceil, D.unitMagnitude]; omega)
  have chalf : Checked.add32 h.subBucketHalfCountMagnitude 1 = some _ :=
    Checked.add32_eq (by rw [D.halfCountMagnitude, Int32.toInt_one]; omega)
      (by rw [D.halfCountMagnitude, Int32.toInt_one]; omega)
  simp only [Checked.getBucketIndex, cceil, cunit, chalf, Option.bind_eq_bind, Option.bind_some]
  exact Checked.sub32_eq (by rw [hunit, hhalf]; omega) (by rw [hunit, hhalf]; omega)

theorem getSubBucketIndex_checked (D : h.Describes u m b) (hv : 0 ≤ v.toInt) :
    Checked.getSubBucketIndex v (h.getBucketIndex v) h.unitMagnitude =
      some (getSubBucketIndex v (h.getBucketIndex v) h.unitMagnitude) := by
  have hk := D.octave_le v
  have hbucket := D.getBucketIndex_toInt hv
  have hshift : (h.getBucketIndex v + h.unitMagnitude).toInt64.toInt =
      (u + octave u m v.toInt.toNat : ℕ) := by
    rw [Int32.toInt_toInt64, add32] <;> rw [hbucket, D.unitMagnitude] <;> push_cast <;> omega
  have hq : (v >>> (h.getBucketIndex v + h.unitMagnitude).toInt64).toInt =
      slot u m v.toInt.toNat := by
    rw [shr64 hshift (by omega), slot]
    push_cast
    rw [Int.toNat_of_nonneg hv]
  have hs := slot_lt (u := u) (m := m) v.toInt.toNat
  have hm : 2 ^ m ≤ 2 ^ 17 := Nat.pow_le_pow_right (by omega) D.half_le
  have ccount : Checked.add32 (h.getBucketIndex v) h.unitMagnitude = some _ :=
    Checked.add32_eq (by rw [hbucket, D.unitMagnitude]; omega)
      (by rw [hbucket, D.unitMagnitude]; omega)
  have cshift : Checked.shr64 v (h.getBucketIndex v + h.unitMagnitude).toInt64 = some _ :=
    Checked.shr64_eq hshift (by omega)
  simp only [Checked.getSubBucketIndex, ccount, cshift, Option.bind_eq_bind, Option.bind_some]
  exact Checked.toInt32_eq (by omega) (by omega)

theorem valueFromIndex_checked {k s unit : Int32} {j n u : ℕ} (hk : k.toInt = j) (hs : s.toInt = n)
    (hu : unit.toInt = u) (hj : u + j < 63) (hfit : n * 2 ^ (u + j) < 2 ^ 63) :
    Checked.valueFromIndex k s unit = some (valueFromIndex k s unit) := by
  have hc : (k + unit).toInt64.toInt = (u + j : ℕ) := by
    rw [Int32.toInt_toInt64, add32] <;> rw [hk, hu] <;> push_cast <;> omega
  have hf : (n : ℤ) * 2 ^ (u + j) < 2 ^ 63 := by exact_mod_cast hfit
  have hp : (0 : ℤ) ≤ n * 2 ^ (u + j) := by positivity
  have ccount : Checked.add32 k unit = some _ :=
    Checked.add32_eq (by rw [hk, hu]; omega) (by rw [hk, hu]; omega)
  simp only [Checked.valueFromIndex, ccount, Option.bind_eq_bind, Option.bind_some]
  refine Checked.shl64_eq hc (by omega) ?_ ?_ <;> rw [Int32.toInt_toInt64, hs] <;> omega

theorem bucketValue_checked (D : h.Describes u m b) (hv : 0 ≤ v.toInt) :
    Checked.valueFromIndex (h.getBucketIndex v)
        (getSubBucketIndex v (h.getBucketIndex v) h.unitMagnitude) h.unitMagnitude =
      some (h.lowestEquivalentValue v) := by
  have hk := D.octave_le v
  have hle := lower_index_le (u := u) (m := m) v.toInt.toNat
  have hlt := v.toInt_lt
  rw [lower_index] at hle
  exact valueFromIndex_checked (D.getBucketIndex_toInt hv) (D.getSubBucketIndex_toInt hv)
    D.unitMagnitude (by omega) (by omega)

theorem lowestEquivalentValue_checked (D : h.Describes u m b) (hv : 0 ≤ v.toInt) :
    Checked.lowestEquivalentValue h v = some (h.lowestEquivalentValue v) := by
  simp only [Checked.lowestEquivalentValue, getBucketIndex_checked D hv,
    getSubBucketIndex_checked D hv, bucketValue_checked D hv, Option.bind_eq_bind,
    Option.bind_some]

theorem sizeOfEquivalentValueRange_checked (D : h.Describes u m b) (hv : 0 ≤ v.toInt) :
    Checked.sizeOfEquivalentValueRangeGivenBucketIndices h (h.getBucketIndex v)
      (getSubBucketIndex v (h.getBucketIndex v) h.unitMagnitude) =
        some (h.hdrSizeOfEquivalentValueRange v) := by
  have hk := D.octave_le v
  have hbucket := D.getBucketIndex_toInt hv
  have hs := slot_lt (u := u) (m := m) v.toInt.toNat
  have hadj : ¬ getSubBucketIndex v (h.getBucketIndex v) h.unitMagnitude ≥ h.subBucketCount := by
    rw [ge_iff_le, Int32.le_iff_toInt_le, D.getSubBucketIndex_toInt hv, D.subBucketCount]
    have : (slot u m v.toInt.toNat : ℤ) < 2 * 2 ^ m := by exact_mod_cast hs
    omega
  have hc : (h.unitMagnitude + h.getBucketIndex v).toInt64.toInt =
      (u + octave u m v.toInt.toNat : ℕ) := by
    rw [Int32.toInt_toInt64, add32] <;> rw [hbucket, D.unitMagnitude] <;> push_cast <;> omega
  have hp : (2 : ℤ) ^ (u + octave u m v.toInt.toNat) ≤ 2 ^ 62 :=
    pow_le_pow_right₀ (by omega) (by omega)
  have hp0 : (0 : ℤ) < 2 ^ (u + octave u m v.toInt.toNat) := by positivity
  have ccount : Checked.add32 h.unitMagnitude (h.getBucketIndex v) = some _ :=
    Checked.add32_eq (by rw [hbucket, D.unitMagnitude]; omega)
      (by rw [hbucket, D.unitMagnitude]; omega)
  simp only [Checked.sizeOfEquivalentValueRangeGivenBucketIndices, if_neg hadj, ccount,
    BucketLayout.hdrSizeOfEquivalentValueRange, Option.bind_eq_bind, Option.bind_some]
  refine Checked.shl64_eq hc (by omega) ?_ ?_ <;> rw [Int64.toInt_one] <;> omega

theorem hdrSizeOfEquivalentValueRange_checked (D : h.Describes u m b) (hv : 0 ≤ v.toInt) :
    Checked.hdrSizeOfEquivalentValueRange h v = some (h.hdrSizeOfEquivalentValueRange v) := by
  simp only [Checked.hdrSizeOfEquivalentValueRange, getBucketIndex_checked D hv,
    getSubBucketIndex_checked D hv, sizeOfEquivalentValueRange_checked D hv, Option.bind_eq_bind,
    Option.bind_some]

theorem hdrValueAtIndex_checked (D : h.Describes u m b) (hi : i.toInt = n)
    (hn : n < (b + 1) * 2 ^ m) : Checked.hdrValueAtIndex h i = some (h.hdrValueAtIndex i) := by
  obtain ⟨hdiv, hmod⟩ := D.indexParts_toInt hi
  have hfit := (lower_lt_top (u := u) hn).trans_le D.two_pow_top
  have hm17 : 2 ^ m ≤ 2 ^ 17 := Nat.pow_le_pow_right (by omega) D.half_le
  have hm17' := D.half_le
  have hr := Nat.mod_lt n (Nat.two_pow_pos m)
  have hub := D.fits
  have hb1 := D.bucket_pos
  have hhalf : h.subBucketHalfCount.toInt = (2 ^ m : ℕ) := by rw [D.halfCount]; push_cast; rfl
  have hcases := D.valueIndex_cases hi hn
  have cbase : Checked.shr32 i h.subBucketHalfCountMagnitude = some _ :=
    Checked.shr32_eq D.halfCountMagnitude (by omega)
  have cmask : Checked.sub32 h.subBucketHalfCount 1 = some _ :=
    Checked.sub32_eq (by rw [hhalf, Int32.toInt_one]; omega) (by rw [hhalf, Int32.toInt_one]; omega)
  have hword := (i >>> h.subBucketHalfCountMagnitude).toInt_lt
  generalize n / 2 ^ m = q at hdiv
  have cbucket : Checked.sub32 (i >>> h.subBucketHalfCountMagnitude) 1 = some _ :=
    Checked.sub32_eq (by rw [Int32.toInt_one]; omega) (by rw [Int32.toInt_one]; omega)
  have csub : Checked.add32 (i &&& (h.subBucketHalfCount - 1)) h.subBucketHalfCount = some _ :=
    Checked.add32_eq (by rw [hmod, hhalf]; omega) (by rw [hmod, hhalf]; omega)
  simp only [Checked.hdrValueAtIndex, BucketLayout.hdrValueAtIndex, cbase, cmask, cbucket, csub,
    Option.bind_eq_bind, Option.bind_some]
  rcases hcases with ⟨hbucket, hlt, hsub, hsmall, hlow⟩ | ⟨q, s, hbucket, hq, hsub, hlow⟩
  · have hneg : (i >>> h.subBucketHalfCountMagnitude) - 1 < 0 := by
      rw [Int32.lt_iff_toInt_lt, hbucket, Int32.toInt_zero]
      omega
    have csmall : Checked.sub32 ((i &&& (h.subBucketHalfCount - 1)) + h.subBucketHalfCount)
        h.subBucketHalfCount = some _ :=
      Checked.sub32_eq (by rw [hsub, hhalf]; omega) (by rw [hsub, hhalf]; omega)
    rw [hlow] at hfit
    rw [if_pos hneg, if_pos hneg, csmall, Option.bind_some]
    exact valueFromIndex_checked (j := 0) rfl hsmall D.unitMagnitude (by omega) hfit
  · have hneg : ¬ (i >>> h.subBucketHalfCountMagnitude) - 1 < 0 := by
      rw [Int32.lt_iff_toInt_lt, hbucket, Int32.toInt_zero]
      omega
    rw [hlow] at hfit
    rw [if_neg hneg, if_neg hneg]
    exact valueFromIndex_checked hbucket hsub D.unitMagnitude (by omega) hfit

/-- The end of a range overflows exactly when it is `2^63`. -/
theorem rangeEnd_checked (D : h.Describes u m b) (hv : 0 ≤ v.toInt) :
    Checked.add64 (h.lowestEquivalentValue v) (h.hdrSizeOfEquivalentValueRange v) =
      if lower u m (index u m v.toInt.toNat + 1) < 2 ^ 63 then some (h.hdrNextNonEquivalentValue v)
      else none := by
  have hlow := D.lowestEquivalentValue_toInt hv
  have hsize := D.hdrSizeOfEquivalentValueRange_toInt hv
  rw [lower_succ]
  split_ifs with hfit
  · exact Checked.add64_eq (by omega) (by omega)
  · exact Checked.int64_eq_none.mpr (by omega)

theorem rangeLast_checked (D : h.Describes u m b) (hv : 0 ≤ v.toInt)
    (hfit : lower u m (index u m v.toInt.toNat + 1) < 2 ^ 63) :
    Checked.sub64 (h.hdrNextNonEquivalentValue v) 1 = some (h.highestEquivalentValue v) := by
  have hlow := D.lowestEquivalentValue_toInt hv
  have hsize := D.hdrSizeOfEquivalentValueRange_toInt hv
  rw [lower_succ] at hfit
  have hnext := add64 (a := h.lowestEquivalentValue v) (b := h.hdrSizeOfEquivalentValueRange v)
    (by omega) (by omega)
  exact Checked.sub64_eq (show -2 ^ 63 ≤ (_ + _ : Int64).toInt - _ by rw [Int64.toInt_one]; omega)
    (show (_ + _ : Int64).toInt - _ < 2 ^ 63 by rw [Int64.toInt_one]; omega)

theorem hdrNextNonEquivalentValue_checked (D : h.Describes u m b) (hv : 0 ≤ v.toInt) :
    Checked.hdrNextNonEquivalentValue h v =
      if lower u m (index u m v.toInt.toNat + 1) < 2 ^ 63 then some (h.hdrNextNonEquivalentValue v)
      else none := by
  simp only [Checked.hdrNextNonEquivalentValue, lowestEquivalentValue_checked D hv,
    hdrSizeOfEquivalentValueRange_checked D hv, Option.bind_eq_bind, Option.bind_some]
  exact rangeEnd_checked D hv

theorem highestEquivalentValue_checked (D : h.Describes u m b) (hv : 0 ≤ v.toInt)
    (hfit : lower u m (index u m v.toInt.toNat + 1) < 2 ^ 63) :
    Checked.highestEquivalentValue h v = some (h.highestEquivalentValue v) := by
  rw [Checked.highestEquivalentValue, hdrNextNonEquivalentValue_checked D hv, if_pos hfit,
    Option.bind_eq_bind, Option.bind_some, rangeLast_checked D hv hfit]

/-- Half a range beyond its first value is still a member of it, or the value itself. -/
theorem median_checked (D : h.Describes u m b) (hv : 0 ≤ v.toInt) :
    Checked.shr64 (h.hdrSizeOfEquivalentValueRange v) 1 =
        some (h.hdrSizeOfEquivalentValueRange v >>> 1) ∧
      Checked.add64 (h.lowestEquivalentValue v) (h.hdrSizeOfEquivalentValueRange v >>> 1) =
        some (h.hdrMedianEquivalentValue v) := by
  have hlow := D.lowestEquivalentValue_toInt hv
  have hsize := D.hdrSizeOfEquivalentValueRange_toInt hv
  have hnext := D.next_le v
  have hw := width_pos (u := u) (m := m) (index u m v.toInt.toNat)
  have hone : (1 : Int64).toInt = (1 : ℕ) := rfl
  have hhalf := shr64 (a := h.hdrSizeOfEquivalentValueRange v) hone (by omega)
  rw [hsize, pow_one] at hhalf
  exact ⟨Checked.shr64_eq hone (by omega), Checked.add64_eq (by omega) (by omega)⟩

theorem hdrMedianEquivalentValue_checked (D : h.Describes u m b) (hv : 0 ≤ v.toInt) :
    Checked.hdrMedianEquivalentValue h v = some (h.hdrMedianEquivalentValue v) := by
  obtain ⟨chalf, cmedian⟩ := median_checked D hv
  simp only [Checked.hdrMedianEquivalentValue, lowestEquivalentValue_checked D hv,
    hdrSizeOfEquivalentValueRange_checked D hv, chalf, cmedian, Option.bind_eq_bind,
    Option.bind_some]

end Exact

section Move
variable {σ : Type} {h : HdrHistogram} {it : HdrIter σ} {u m b n : ℕ}

theorem normalizeIndex_checked (W : h.WellFormed) (D : h.Describes u m b) {i : Int32}
    (hi : i.toInt = n) (hn : n < h.counts.length) :
    Checked.normalizeIndex h i = some (h.normalizeIndex i) := by
  obtain ⟨h₁, h₂⟩ := (normalised_iff D).mp W.normalised
  have hlen := counts_length_nat D
  have hlt := D.countsLen_lt
  have hcounts := D.countsLen_toInt
  have i0 : (0 : Int32).toInt = 0 := rfl
  unfold Checked.normalizeIndex HdrHistogram.normalizeIndex
  split_ifs with hz
  · rfl
  have hsub : (i - h.normalizingIndexOffset).toInt = n - h.normalizingIndexOffset.toInt := by
    rw [sub32] <;> rw [hi] <;> omega
  have csub : Checked.sub32 i h.normalizingIndexOffset = some _ :=
    Checked.sub32_eq (by omega) (by omega)
  have hneg : (-h.countsLen).toInt = -h.countsLen.toInt := by
    rw [Int32.toInt_neg, bmod32] <;> omega
  have cneg : Checked.sub32 0 h.countsLen = some (-h.countsLen) :=
    Checked.int32_eq_some.mpr (by rw [hneg, i0]; omega)
  simp only [csub, cneg, Option.bind_eq_bind, Option.bind_some]
  split_ifs with hlow hhigh
  · exact Checked.add32_eq (by omega) (by omega)
  · rw [ge_iff_le, Int32.le_iff_toInt_le] at hhigh
    exact Checked.add32_eq (by omega) (by omega)
  · exact Checked.add32_eq (by omega) (by omega)

/-- A move to a bucket whose range ends at `2^63` overflows; every other move is exact. -/
theorem moveNext_checked (W : h.WellFormed) (D : h.Describes u m b) (A : At h it n)
    (hn : n < h.counts.length) :
    Checked.moveNext h it = if lower u m (n + 1) < 2 ^ 63 then it.moveNext h else none := by
  have hlen := counts_length_nat D
  have hlt := D.countsLen_lt
  have hcast := ofNat_index W.accepted hn.le
  have hidx := A.index
  obtain ⟨c, hc⟩ := countsGetNormalised_some W hn
  have hnext : it.countsIndex + 1 = Int32.ofNat n := by
    rw [← Int32.toInt_inj, hcast, add32] <;> rw [hidx, Int32.toInt_one] <;> omega
  have cindex : Checked.add32 it.countsIndex 1 = some (Int32.ofNat n) := by
    rw [← hnext]
    exact Checked.add32_eq (by rw [hidx, Int32.toInt_one]; omega)
      (by rw [hidx, Int32.toInt_one]; omega)
  have hin : Int32.ofNat n < h.countsLen := by
    rw [Int32.lt_iff_toInt_lt, hcast, D.countsLen_toInt]
    omega
  -- the running sum stays within the total
  have hcum := A.cumulative
  rw [entries_drop hn, sumCounts_cons, hc, Option.getD_some] at hcum
  have hrest : 0 ≤ sumCounts (h.entries.drop (n + 1)) :=
    sumCounts_nonneg fun r hr => entries_nonneg W r (List.mem_of_mem_drop hr)
  have hcount : 0 ≤ c.toInt := entries_nonneg W (h.hdrValueAtIndex (Int32.ofNat n), c)
    (List.mem_map.mpr ⟨n, List.mem_range.mpr hn, by rw [hc, Option.getD_some]⟩)
  have htotal := h.totalCount.toInt_lt
  have hlow := it.cumulativeCount.le_toInt
  dsimp only at hcum
  have ccum : Checked.add64 it.cumulativeCount c = some (it.cumulativeCount + c) :=
    Checked.add64_eq (by omega) (by omega)
  have cvalue := hdrValueAtIndex_checked D hcast (by omega)
  have hvalue := D.hdrValueAtIndex_toInt hcast (show n < (b + 1) * 2 ^ m by omega)
  have hv : 0 ≤ (h.hdrValueAtIndex (Int32.ofNat n)).toInt := by omega
  have cend := rangeEnd_checked D hv
  obtain ⟨chalf, cmedian⟩ := median_checked D hv
  have hindex : index u m (h.hdrValueAtIndex (Int32.ofNat n)).toInt.toNat = n := by
    rw [hvalue, Int.toNat_natCast, index_lower]
  rw [hindex] at cend
  have hget : h.countsGetDirect (h.normalizeIndex (Int32.ofNat n)) = some c := hc
  have hbuckets : ¬ (!{ it with countsIndex := Int32.ofNat n }.hasBuckets h) = true := by
    rw [HdrIter.hasBuckets, decide_eq_true hin]
    exact Bool.false_ne_true
  rw [Checked.moveNext, HdrIter.moveNext, cindex, hnext]
  dsimp only [Option.bind_eq_bind, Option.bind_some]
  rw [if_neg hbuckets, if_neg hbuckets, hc, Option.map_some, normalizeIndex_checked W D hcast hn,
    Option.bind_some, hget, Option.bind_some, ccum, Option.bind_some, cvalue, Option.bind_some,
    getBucketIndex_checked D hv, Option.bind_some, getSubBucketIndex_checked D hv,
    Option.bind_some, bucketValue_checked D hv, Option.bind_some,
    sizeOfEquivalentValueRange_checked D hv, Option.bind_some, cend]
  split_ifs with hfit
  · rw [Option.bind_some, rangeLast_checked D hv (by rw [hindex]; exact hfit), Option.bind_some,
      chalf, Option.bind_some, cmedian, Option.bind_some]
    rfl
  · rfl

end Move

/-- No operation on the range of `v` overflows, nor on a move of an iterator to its bucket. -/
structure RangeArithmeticExact (l : BucketLayout) (v : Int64) : Prop where
  size : Checked.hdrSizeOfEquivalentValueRange l v = some (l.hdrSizeOfEquivalentValueRange v)
  next : Checked.hdrNextNonEquivalentValue l v = some (l.hdrNextNonEquivalentValue v)
  highest : Checked.highestEquivalentValue l v = some (l.highestEquivalentValue v)
  median : Checked.hdrMedianEquivalentValue l v = some (l.hdrMedianEquivalentValue v)
  move : ∀ (σ : Type) (h : HdrHistogram) (it : HdrIter σ), h.WellFormed → h.toBucketLayout = l →
    At h it (l.countsIndexFor v).toInt.toNat → Checked.moveNext h it = it.moveNext h

/-- The arithmetic is exact unless the value lies in the last bucket and this ends at `2^63`. -/
theorem rangeArithmetic_exact_iff {l : BucketLayout} (ok : l.Accepted) {v : Int64}
    (hv : l.Recordable v) : RangeArithmeticExact l v ↔
      l.coveredEnd < 2 ^ 63 ∨ l.countsIndexFor v < l.countsLen - 1 := by
  obtain ⟨u, m, b, D⟩ := ok.describes
  have hlt := D.countsLen_lt
  have hv₀ := (nonneg_iff v).mp hv.1
  have hcell := D.index_lt_countsLen hv₀ (Int64.le_iff_toInt_le.mp hv.2)
  have hindex := D.countsIndexFor_toInt hv₀
  have hone : (l.countsLen - 1).toInt = l.countsLen.toInt - 1 := by
    rw [sub32] <;> rw [D.countsLen_toInt, Int32.toInt_one] <;> omega
  have hbefore : l.countsIndexFor v < l.countsLen - 1 ↔
      index u m v.toInt.toNat + 1 < (b + 1) * 2 ^ m := by
    rw [Int32.lt_iff_toInt_lt, hindex, hone, D.countsLen_toInt]
    omega
  have hend : l.coveredEnd < 2 ^ 63 ↔ lower u m ((b + 1) * 2 ^ m) < 2 ^ 63 := by
    rw [D.coveredEnd, lower_octave]
    exact_mod_cast Iff.rfl
  have htop : lower u m ((b + 1) * 2 ^ m) ≤ 2 ^ 63 := by
    rw [lower_octave]
    exact D.two_pow_top
  have hfits : lower u m (index u m v.toInt.toNat + 1) < 2 ^ 63 ↔
      l.coveredEnd < 2 ^ 63 ∨ l.countsIndexFor v < l.countsLen - 1 := by
    rw [hbefore, hend]
    rcases Nat.lt_or_ge (index u m v.toInt.toNat + 1) ((b + 1) * 2 ^ m) with hin | hlast
    · have hmono : lower u m _ < lower u m _ := lower_strictMono hin
      exact iff_of_true (by omega) (.inr hin)
    · rw [show index u m v.toInt.toNat + 1 = (b + 1) * 2 ^ m by omega]
      omega
  rw [← hfits]
  constructor
  · intro E
    have hnext := E.next
    rw [hdrNextNonEquivalentValue_checked D hv₀] at hnext
    split_ifs at hnext with hfit
    exact hfit
  · intro hfit
    refine ⟨hdrSizeOfEquivalentValueRange_checked D hv₀, ?_,
      highestEquivalentValue_checked D hv₀ hfit, hdrMedianEquivalentValue_checked D hv₀, ?_⟩
    · rw [hdrNextNonEquivalentValue_checked D hv₀, if_pos hfit]
    · rintro σ h it W rfl A
      rw [hindex, Int.toNat_natCast] at A
      rw [moveNext_checked W D A (by rw [counts_length_nat D]; exact hcell), if_pos hfit]

/-- Every positive word at one significant figure: the last bucket ends at `2^63`. -/
def topLayout : BucketLayout where
  lowestDiscernibleValue := 1
  highestTrackableValue := INT64_MAX
  unitMagnitude := 0
  significantFigures := 1
  subBucketHalfCountMagnitude := 4
  subBucketHalfCount := 16
  subBucketMask := 31
  subBucketCount := 32
  bucketCount := 59
  countsLen := 960

theorem topLayout_accepted : topLayout.Accepted :=
  ⟨1, INT64_MAX, 1, ⟨1, INT64_MAX, 0, 1, 4, 16, 31, 32, 59, 960⟩, by decide +kernel,
    by decide +kernel⟩

theorem rangeArithmetic_overflows :
    topLayout.Accepted ∧ topLayout.Recordable INT64_MAX ∧
      ¬ RangeArithmeticExact topLayout INT64_MAX := by
  refine ⟨topLayout_accepted, by decide +kernel, fun E => ?_⟩
  have hnone : Checked.hdrNextNonEquivalentValue topLayout INT64_MAX = none := by decide +kernel
  have hnext := E.next
  rw [hnone] at hnext
  cases hnext

theorem rangeArithmetic_exact_sample : RangeArithmeticExact topLayout 1000 :=
  (rangeArithmetic_exact_iff topLayout_accepted (by decide +kernel)).mpr (.inr (by decide +kernel))

end HdrHistogramC
