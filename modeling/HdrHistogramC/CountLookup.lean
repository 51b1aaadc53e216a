import HdrHistogramC.LevelIteration

/-!
# Counts by value

`hdr_count_at_value` takes any word. It does not check the index that it computes: a value behind
the last bucket leads out of the array, and a negative one to the cell of a quarter of it above
`2^62`, whether the array has that cell or not.
-/
namespace HdrHistogramC
open FixedWidth LogLinear BucketLayout.Describes

def HdrHistogram.hdrCountAtValue (h : HdrHistogram) (value : Int64) : Option Int64 :=
  h.countsGetNormalised (h.countsIndexFor value)

/-- The exact sum of the counts recorded for the values equivalent to `v`. -/
def equivalentCounts (l : BucketLayout) (rs : List Sample) (v : Int64) : ℤ :=
  sumCounts (rs.filter fun r => l.hdrValuesAreEquivalent r.1 v)

/-- The value whose cell a negative one is looked up in. -/
def aliasedValue (v : Int64) : Int64 := Int64.ofInt (2 ^ 62 + v.toInt / 4)

section Negative
variable {h : BucketLayout} {u m b : ℕ} {v : Int64}

theorem aliasedValue_toInt (hv : v.toInt < 0) :
    (aliasedValue v).toInt = 2 ^ 62 + v.toInt / 4 ∧ 2 ^ 61 ≤ (aliasedValue v).toInt ∧
      (aliasedValue v).toInt < 2 ^ 62 := by
  have hle := v.le_toInt
  have htoInt : (aliasedValue v).toInt = 2 ^ 62 + v.toInt / 4 :=
    Int64.toInt_ofInt_of_le (by omega) (by omega)
  omega

theorem leadingZeros_negative (hv : v.toInt < 0) (mask : Int64) :
    (countLeadingZeros64 (v ||| mask)).toInt = 0 := by
  have hword : v.toBitVec.toInt = v.toInt := rfl
  have hbits : 2 ^ 63 ≤ v.toBitVec.toNat := by
    rw [BitVec.toInt_eq_toNat_cond] at hword
    split_ifs at hword <;> omega
  have hor : v.toBitVec.toNat ≤ (v ||| mask).toBitVec.toNat := by
    rw [Int64.toBitVec_or, BitVec.toNat_or]
    exact Nat.left_le_or
  have hlow : 63 < Nat.size (v ||| mask).toBitVec.toNat := Nat.lt_size.mpr (by omega)
  have hhigh : Nat.size (v ||| mask).toBitVec.toNat ≤ 64 := Nat.size_le.mpr (BitVec.isLt _)
  rw [countLeadingZeros64_toInt]
  omega

theorem getBucketIndex_negative (D : h.Describes u m b) (hv : v.toInt < 0) :
    (h.getBucketIndex v).toInt = 63 - u - m := by
  have hu := D.unit_le
  have hm := D.half_le
  have e64 : (64 : Int32).toInt = 64 := rfl
  have hclz := leadingZeros_negative hv h.subBucketMask
  have hceil : (64 - countLeadingZeros64 (v ||| h.subBucketMask)).toInt = 64 := by
    rw [sub32] <;> rw [hclz, e64] <;> omega
  have hhalf : (h.subBucketHalfCountMagnitude + 1).toInt = m + 1 := by
    rw [add32] <;> rw [D.halfCountMagnitude, Int32.toInt_one] <;> omega
  have hunit : (64 - countLeadingZeros64 (v ||| h.subBucketMask) - h.unitMagnitude).toInt =
      64 - u := by
    rw [sub32] <;> rw [hceil, D.unitMagnitude] <;> omega
  unfold BucketLayout.getBucketIndex
  rw [sub32] <;> rw [hunit, hhalf] <;> omega

theorem negativeShift_toInt (D : h.Describes u m b) (hv : v.toInt < 0) :
    (h.getBucketIndex v + h.unitMagnitude).toInt64.toInt = (63 - m : ℕ) := by
  have hu := D.unit_le
  have hm := D.half_le
  rw [Int32.toInt_toInt64, add32] <;> rw [getBucketIndex_negative D hv, D.unitMagnitude] <;> omega

theorem negativeSlot_bounds (D : h.Describes u m b) (hv : v.toInt < 0) :
    -2 ^ m ≤ v.toInt / 2 ^ (63 - m) ∧ v.toInt / 2 ^ (63 - m) < 0 := by
  have hm := D.half_le
  have hle := v.le_toInt
  have hpos : (0 : ℤ) < 2 ^ (63 - m) := by positivity
  have hsplit : -(2 : ℤ) ^ m * 2 ^ (63 - m) = -2 ^ 63 := by
    rw [neg_mul, ← pow_add, Nat.add_sub_cancel' (by omega)]
  refine ⟨?_, Int.ediv_neg_of_neg_of_pos hv hpos⟩
  rw [Int.le_ediv_iff_mul_le hpos, hsplit]
  exact hle

theorem getSubBucketIndex_negative (D : h.Describes u m b) (hv : v.toInt < 0) :
    (getSubBucketIndex v (h.getBucketIndex v) h.unitMagnitude).toInt = v.toInt / 2 ^ (63 - m) := by
  have hbounds := negativeSlot_bounds D hv
  have hm : (2 : ℤ) ^ m ≤ 2 ^ 17 := pow_le_pow_right₀ (by omega) D.half_le
  have hq := shr64 (a := v) (negativeShift_toInt D hv) (by omega)
  unfold getSubBucketIndex
  rw [toInt32] <;> rw [hq] <;> omega

theorem countsIndexFor_negative (D : h.Describes u m b) (hv : v.toInt < 0) :
    (h.countsIndexFor v).toInt = (63 - u - m) * 2 ^ m + v.toInt / 2 ^ (63 - m) := by
  have hbounds := negativeSlot_bounds D hv
  have hu := D.unit_le
  have hm : (2 : ℤ) ^ m ≤ 2 ^ 17 := pow_le_pow_right₀ (by omega) D.half_le
  have hm0 : (0 : ℤ) < 2 ^ m := by positivity
  have hk1 : (h.getBucketIndex v + 1).toInt = 64 - u - m := by
    rw [add32] <;> rw [getBucketIndex_negative D hv, Int32.toInt_one] <;> omega
  have hprod : (64 - u - m : ℤ) * 2 ^ m ≤ 64 * 2 ^ 17 :=
    mul_le_mul (by omega) hm (by omega) (by omega)
  have hprod0 : 0 ≤ (64 - u - m : ℤ) * 2 ^ m := mul_nonneg (by omega) (by omega)
  have hbase : ((h.getBucketIndex v + 1) <<< h.subBucketHalfCountMagnitude).toInt =
      (64 - u - m) * 2 ^ m := by
    rw [shl32 D.halfCountMagnitude (by have := D.half_le; omega)] <;> rw [hk1] <;> omega
  have hoff : (getSubBucketIndex v (h.getBucketIndex v) h.unitMagnitude -
      h.subBucketHalfCount).toInt = v.toInt / 2 ^ (63 - m) - 2 ^ m := by
    rw [sub32] <;> rw [getSubBucketIndex_negative D hv, D.halfCount] <;> omega
  have hsum : (64 - u - m : ℤ) * 2 ^ m + (v.toInt / 2 ^ (63 - m) - 2 ^ m) =
      (63 - u - m) * 2 ^ m + v.toInt / 2 ^ (63 - m) := by
    ring
  unfold BucketLayout.countsIndexFor BucketLayout.countsIndex
  dsimp only
  rw [add32] <;> rw [hbase, hoff]
  · exact hsum
  · omega
  · omega

/-- A negative value has the index of the value it is taken for. -/
theorem countsIndexFor_aliasedValue (D : h.Describes u m b) (hv : v.toInt < 0) :
    h.countsIndexFor v = h.countsIndexFor (aliasedValue v) := by
  obtain ⟨halias, hlow, hhigh⟩ := aliasedValue_toInt hv
  have hu := D.unit_le
  have hm := D.half_le
  have hsize : Nat.size (aliasedValue v).toInt.toNat = 62 := by
    apply le_antisymm
    · exact Nat.size_le.mpr (by omega)
    · exact Nat.lt_size.mpr (by omega)
  have hoctave : octave u m (aliasedValue v).toInt.toNat = 61 - u - m := by
    rw [octave, hsize]
    omega
  have hslot : (slot u m (aliasedValue v).toInt.toNat : ℤ) =
      2 * 2 ^ m + v.toInt / 2 ^ (63 - m) := by
    have hpow : (2 : ℤ) ^ (63 - m) = 4 * 2 ^ (61 - m) := by
      rw [show 63 - m = 61 - m + 2 by omega, pow_add]
      ring
    have htop : (2 : ℤ) ^ 62 = 2 * 2 ^ m * 2 ^ (61 - m) := by
      rw [mul_assoc, ← pow_add, Nat.add_sub_cancel' (by omega)]
      norm_num
    rw [slot, hoctave, show u + (61 - u - m) = 61 - m by omega]
    push_cast
    rw [Int.toNat_of_nonneg (by omega), halias, htop, Int.mul_add_ediv_right _ _ (by positivity),
      Int.ediv_ediv_of_nonneg (by omega), ← hpow]
  have hindex : (h.countsIndexFor (aliasedValue v)).toInt =
      (61 - u - m : ℕ) * 2 ^ m + (2 * 2 ^ m + v.toInt / 2 ^ (63 - m)) := by
    rw [D.countsIndexFor_toInt (by omega), index, hoctave]
    push_cast
    rw [hslot]
  rw [← Int32.toInt_inj, countsIndexFor_negative D hv, hindex,
    show ((61 - u - m : ℕ) : ℤ) = 61 - u - m by omega]
  ring

theorem lowestEquivalentValue_negative (D : h.Describes u m b) (hv : v.toInt < 0) :
    (h.lowestEquivalentValue v).toInt < 0 := by
  have hbounds := negativeSlot_bounds D hv
  have hm := D.half_le
  have hpos : (0 : ℤ) < 2 ^ (63 - m) := by positivity
  have hneg : v.toInt / 2 ^ (63 - m) * 2 ^ (63 - m) < 0 := mul_neg_of_neg_of_pos hbounds.2 hpos
  have hlow : -2 ^ 63 ≤ v.toInt / 2 ^ (63 - m) * 2 ^ (63 - m) := by
    calc (-2 : ℤ) ^ 63 = -2 ^ m * 2 ^ (63 - m) := by
          rw [neg_mul, ← pow_add, Nat.add_sub_cancel' (by omega)]
          rfl
      _ ≤ v.toInt / 2 ^ (63 - m) * 2 ^ (63 - m) := by gcongr; exact hbounds.1
  unfold BucketLayout.lowestEquivalentValue valueFromIndex
  dsimp only
  rw [shl64 (negativeShift_toInt D hv) (by omega)] <;>
    rw [Int32.toInt_toInt64, getSubBucketIndex_negative D hv] <;> omega

end Negative

section Lookup
variable {h : HdrHistogram} {rs : List Sample} {u m b : ℕ} {v : Int64}

theorem equivalentCounts_eq (R : Represents h rs) (D : h.Describes u m b) (hv : 0 ≤ v.toInt) :
    equivalentCounts h.toBucketLayout rs v =
      sumCountsAt h.toBucketLayout rs (index u m v.toInt.toNat) := by
  refine congrArg sumCounts (List.filter_congr fun r hr => ?_)
  have hr₀ := (nonneg_iff r.1).mp (R.recordable r hr).1
  rw [Bool.eq_iff_iff, D.hdrValuesAreEquivalent_iff hr₀ hv, decide_eq_true_iff, ← Int32.toInt_inj,
    D.countsIndexFor_toInt hv]

theorem equivalentCounts_outside (R : Represents h rs) (D : h.Describes u m b)
    (hv : ¬ (0 ≤ v.toInt ∧ v.toInt < h.coveredEnd)) :
    equivalentCounts h.toBucketLayout rs v = 0 := by
  have hnone : rs.filter (fun r => h.hdrValuesAreEquivalent r.1 v) = [] := by
    rw [List.filter_eq_nil_iff]
    intro r hr hequiv
    have hr₀ := (nonneg_iff r.1).mp (R.recordable r hr).1
    have hcell := D.index_lt_countsLen hr₀ (Int64.le_iff_toInt_le.mp (R.recordable r hr).2)
    rcases lt_or_ge v.toInt 0 with hneg | hv₀
    · have hlow := lowestEquivalentValue_negative D hneg
      rw [BucketLayout.hdrValuesAreEquivalent, beq_iff_eq] at hequiv
      rw [← hequiv, D.lowestEquivalentValue_toInt hr₀] at hlow
      omega
    · rw [D.hdrValuesAreEquivalent_iff hr₀ hv₀, ← Int32.toInt_inj, D.countsIndexFor_toInt hr₀,
        D.countsIndexFor_toInt hv₀] at hequiv
      have hrange := index_lt_length_iff D v.toInt.toNat
      rw [counts_length_nat D] at hrange
      omega
  rw [equivalentCounts, hnone, sumCounts_nil]

/-- A value that is not negative finds its count modulo `2^64`, or leads out of the array. -/
theorem hdrCountAtValue_cases (R : Represents h rs) (D : h.Describes u m b) (hv : 0 ≤ v.toInt) :
    (v.toInt < h.coveredEnd ∧ ∃ c, h.hdrCountAtValue v = some c ∧
      c.toInt ≡ equivalentCounts h.toBucketLayout rs v [ZMOD 2 ^ 64]) ∨
    (h.coveredEnd ≤ v.toInt ∧ h.hdrCountAtValue v = none) := by
  have hlookup : h.hdrCountAtValue v = h.counts[index u m v.toInt.toNat]? := by
    rw [HdrHistogram.hdrCountAtValue, HdrHistogram.countsGetNormalised,
      HdrHistogram.normalizeIndex, if_pos R.offset, countsGetDirect_eq (D.countsIndexFor_toInt hv)]
  have hrange := index_lt_length_iff D v.toInt.toNat
  rw [Int.toNat_of_nonneg hv] at hrange
  rcases lt_or_ge v.toInt h.coveredEnd with hlt | hge
  · have hget := List.getElem?_eq_getElem (hrange.mpr hlt)
    refine .inl ⟨hlt, _, hlookup.trans hget, ?_⟩
    rw [equivalentCounts_eq R D hv]
    exact R.counts _ _ hget
  · refine .inr ⟨hge, hlookup.trans (List.getElem?_eq_none ?_)⟩
    omega

/-- The lookup stays inside the array, and returns the sum of the counts recorded for equivalent
values, which is zero outside the buckets. -/
def CountExact (h : HdrHistogram) (rs : List Sample) (v : Int64) : Prop :=
  ∃ c, h.hdrCountAtValue v = some c ∧ c.toInt = equivalentCounts h.toBucketLayout rs v ∧
    (¬ (0 ≤ v.toInt ∧ v.toInt < h.coveredEnd) → c = 0)

theorem countExact_inside (R : Represents h rs) (D : h.Describes u m b) (hv : 0 ≤ v.toInt) :
    CountExact h rs v ↔ v.toInt < h.coveredEnd ∧
      -2 ^ 63 ≤ equivalentCounts h.toBucketLayout rs v ∧
        equivalentCounts h.toBucketLayout rs v < 2 ^ 63 := by
  rcases hdrCountAtValue_cases R D hv with ⟨hlt, c, hc, hmod⟩ | ⟨hge, hnone⟩
  · have hle := c.le_toInt
    have hlt' := c.toInt_lt
    constructor
    · rintro ⟨c', hc', heq, -⟩
      obtain rfl : c = c' := Option.some.inj (hc.symm.trans hc')
      omega
    · rintro ⟨-, hlow, hhigh⟩
      exact ⟨c, hc, eq_of_modEq64 hmod hle hlt' hlow hhigh, fun hout => absurd ⟨hv, hlt⟩ hout⟩
  · refine iff_of_false ?_ (by omega)
    rintro ⟨c, hc, -⟩
    rw [hnone] at hc
    cases hc

theorem countExact_negative (R : Represents h rs) (D : h.Describes u m b) (hv : v.toInt < 0) :
    CountExact h rs v ↔ 2 ^ 62 ≤ h.coveredEnd ∧
      2 ^ 64 ∣ equivalentCounts h.toBucketLayout rs (aliasedValue v) := by
  obtain ⟨-, hlow, hhigh⟩ := aliasedValue_toInt hv
  have hout : ¬ (0 ≤ v.toInt ∧ v.toInt < h.coveredEnd) := by omega
  have hsame : h.hdrCountAtValue v = h.hdrCountAtValue (aliasedValue v) := by
    rw [HdrHistogram.hdrCountAtValue, countsIndexFor_aliasedValue D hv]
    rfl
  -- the buckets end at a power of two, hence not inside the cells of the aliases
  have hend : (aliasedValue v).toInt < h.coveredEnd ↔ 2 ^ 62 ≤ h.coveredEnd := by
    rw [D.coveredEnd]
    rcases Nat.lt_or_ge (u + m + b) 62 with hlt | hge
    · have : (2 : ℤ) ^ (u + m + b) ≤ 2 ^ 61 := pow_le_pow_right₀ (by omega) (by omega)
      omega
    · have : (2 : ℤ) ^ 62 ≤ 2 ^ (u + m + b) := pow_le_pow_right₀ (by omega) hge
      omega
  rw [← hend]
  rcases hdrCountAtValue_cases R D (v := aliasedValue v) (by omega) with
    ⟨hlt, c, hc, hmod⟩ | ⟨hge, hnone⟩
  · have hzero : 2 ^ 64 ∣ equivalentCounts h.toBucketLayout rs (aliasedValue v) ↔ c.toInt = 0 := by
      have hle := c.le_toInt
      have hlt' := c.toInt_lt
      obtain ⟨k, hk⟩ := hmod.dvd
      constructor
      · rintro ⟨j, hj⟩
        omega
      · intro hc₀
        exact ⟨k, by omega⟩
    rw [hzero, iff_true_intro hlt, true_and]
    constructor
    · rintro ⟨c', hc', heq, -⟩
      obtain rfl : c = c' := Option.some.inj (hc.symm.trans (hsame.symm.trans hc'))
      rw [heq, equivalentCounts_outside R D hout]
    · intro hc₀
      refine ⟨c, hsame.trans hc, ?_, fun _ => ?_⟩
      · rw [hc₀, equivalentCounts_outside R D hout]
      · rwa [← Int64.toInt_inj, Int64.toInt_zero]
  · refine iff_of_false ?_ (by omega)
    rintro ⟨c, hc, -⟩
    rw [hsame, hnone] at hc
    cases hc

end Lookup

/-- After any history of accepted recordings the lookup is exact for the values that the buckets
cover, unless the count itself has left the word. For a negative value it is right by accident,
where the array has the cell that is read and nothing is recorded there. -/
theorem countAtValue_exact_iff {lowest highest : Int64} {figures : Int32} {h₀ h : HdrHistogram}
    {rs : List Sample} (hi : hdrInit lowest highest figures = some (.ok h₀))
    (hr : ∀ r ∈ rs, h₀.Recordable r.1) (hall : h₀.recordAll rs = some h) (v : Int64) :
    CountExact h rs v ↔
      (0 ≤ v.toInt ∧ v.toInt < h.coveredEnd ∧
        -2 ^ 63 ≤ equivalentCounts h.toBucketLayout rs v ∧
          equivalentCounts h.toBucketLayout rs v < 2 ^ 63) ∨
      (v.toInt < 0 ∧ 2 ^ 62 ≤ h.coveredEnd ∧
        2 ^ 64 ∣ equivalentCounts h.toBucketLayout rs (aliasedValue v)) := by
  obtain ⟨h', hall', R, -⟩ := (represents_hdrInit hi).recordAll hr
  rw [List.nil_append] at R
  obtain rfl : h = h' := Option.some.inj (hall.symm.trans hall')
  obtain ⟨u, m, b, D⟩ := R.accepted.describes
  rcases lt_or_ge v.toInt 0 with hneg | hv
  · rw [countExact_negative R D hneg]
    constructor
    · exact fun hcond => .inr ⟨hneg, hcond⟩
    · rintro (⟨hv, -⟩ | ⟨-, hcond⟩)
      · omega
      · exact hcond
  · rw [countExact_inside R D hv]
    constructor
    · exact fun hcond => .inl ⟨hv, hcond⟩
    · rintro (⟨-, hcond⟩ | ⟨hneg, -⟩)
      · exact hcond
      · omega

/-- A negative value, and the first one behind the buckets, are read past the end of the array. -/
theorem countAtValue_outOfBounds :
    hdrInit 1 100 1 = some (.ok sampleHistogram) ∧
    (∀ r ∈ [((50 : Int64), (3 : Int64))], sampleHistogram.Recordable r.1) ∧
    ∃ h, sampleHistogram.recordAll [(50, 3)] = some h ∧ h.hdrCountAtValue (-1) = none ∧
      h.hdrCountAtValue 128 = none ∧ ¬ CountExact h [(50, 3)] (-1) := by
  refine ⟨sampleHistogram_init, List.forall_iff_forall_mem.mp (by decide +kernel), ?_⟩
  have hrun : (sampleHistogram.recordAll [(50, 3)]).map (fun h =>
      (h.hdrCountAtValue (-1), h.hdrCountAtValue 128)) = some (none, none) := by
    decide +kernel
  obtain ⟨h, hall, hvals⟩ := Option.map_eq_some_iff.mp hrun
  obtain ⟨hneg, hpast⟩ := Prod.mk.inj hvals
  refine ⟨h, hall, hneg, hpast, ?_⟩
  rintro ⟨c, hc, -⟩
  rw [hneg] at hc
  cases hc

theorem countAtValue_exact_sample : ∃ h, sampleHistogram.recordAll [(50, 3), (90, 2), (51, 1)] =
    some h ∧ CountExact h [(50, 3), (90, 2), (51, 1)] 51 := by
  have hrun : (sampleHistogram.recordAll [(50, 3), (90, 2), (51, 1)]).map (fun h =>
      decide ((51 : Int64).toInt < h.coveredEnd ∧
        equivalentCounts h.toBucketLayout [(50, 3), (90, 2), (51, 1)] 51 = 4)) = some true := by
    decide +kernel
  obtain ⟨h, hall, hcond⟩ := Option.map_eq_some_iff.mp hrun
  obtain ⟨hlt, hcount⟩ := of_decide_eq_true hcond
  refine ⟨h, hall, (countAtValue_exact_iff sampleHistogram_init
    (List.forall_iff_forall_mem.mp (by decide +kernel)) hall 51).mpr ?_⟩
  rw [hcount]
  exact .inl ⟨by decide, hlt, by decide, by decide⟩

end HdrHistogramC
