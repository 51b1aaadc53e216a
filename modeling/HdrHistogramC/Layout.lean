import HdrHistogramC.LogLinear
import HdrHistogramC.FixedWidth
import HdrHistogramC.BoundedLoop

/-!
# Bucket configuration and the bucket map

The configuration computation of `hdr_calculate_bucket_config` and the index
functions of `hdr_histogram.c`, on the machine words of the source. The double
expressions `ceil(log(x) / log(2))`, `log(x) / log(2)` and `pow(2, n)` are taken
at their exact value. An accepted configuration is a log-linear tiling: `Describes`
names its three exponents, and each index function is then the corresponding
function of `LogLinear`.
-/
namespace HdrHistogramC
open FixedWidth BoundedLoop

def EINVAL : Int32 := 22
def ENOMEM : Int32 := 12

def INT64_MAX : Int64 := Int64.maxValue
def INT32_MAX : Int32 := Int32.maxValue

/-- The fields of `struct hdr_histogram` that fix the bucket layout. -/
structure BucketLayout where
  lowestDiscernibleValue : Int64
  highestTrackableValue : Int64
  unitMagnitude : Int32
  significantFigures : Int32
  subBucketHalfCountMagnitude : Int32
  subBucketHalfCount : Int32
  subBucketMask : Int64
  subBucketCount : Int32
  bucketCount : Int32
  countsLen : Int32
deriving Repr, DecidableEq

/-- `struct hdr_histogram_bucket_config`, with its wider integer fields. -/
structure HdrHistogramBucketConfig where
  lowestDiscernibleValue : Int64
  highestTrackableValue : Int64
  unitMagnitude : Int64
  significantFigures : Int64
  subBucketHalfCountMagnitude : Int32
  subBucketHalfCount : Int32
  subBucketMask : Int64
  subBucketCount : Int32
  bucketCount : Int32
  countsLen : Int32
deriving Repr, DecidableEq

/-- The narrowing copies made by `hdr_init_preallocated`. -/
def HdrHistogramBucketConfig.layout (cfg : HdrHistogramBucketConfig) : BucketLayout where
  lowestDiscernibleValue := cfg.lowestDiscernibleValue
  highestTrackableValue := cfg.highestTrackableValue
  unitMagnitude := cfg.unitMagnitude.toInt32
  significantFigures := cfg.significantFigures.toInt32
  subBucketHalfCountMagnitude := cfg.subBucketHalfCountMagnitude
  subBucketHalfCount := cfg.subBucketHalfCount
  subBucketMask := cfg.subBucketMask
  subBucketCount := cfg.subBucketCount
  bucketCount := cfg.bucketCount
  countsLen := cfg.countsLen

def countLeadingZeros64 (value : Int64) : Int32 := Int32.ofNat value.toBitVec.clz.toNat

def getSubBucketIndex (value : Int64) (bucketIndex unitMagnitude : Int32) : Int32 :=
  (value >>> (bucketIndex + unitMagnitude).toInt64).toInt32

def valueFromIndex (bucketIndex subBucketIndex unitMagnitude : Int32) : Int64 :=
  subBucketIndex.toInt64 <<< (bucketIndex + unitMagnitude).toInt64

namespace BucketLayout

def getBucketIndex (h : BucketLayout) (value : Int64) : Int32 :=
  let pow2ceiling := 64 - countLeadingZeros64 (value ||| h.subBucketMask)
  pow2ceiling - h.unitMagnitude - (h.subBucketHalfCountMagnitude + 1)

def countsIndex (h : BucketLayout) (bucketIndex subBucketIndex : Int32) : Int32 :=
  let bucketBaseIndex := (bucketIndex + 1) <<< h.subBucketHalfCountMagnitude
  let offsetInBucket := subBucketIndex - h.subBucketHalfCount
  bucketBaseIndex + offsetInBucket

def countsIndexFor (h : BucketLayout) (value : Int64) : Int32 :=
  let bucketIndex := h.getBucketIndex value
  let subBucketIndex := getSubBucketIndex value bucketIndex h.unitMagnitude
  h.countsIndex bucketIndex subBucketIndex

def hdrValueAtIndex (h : BucketLayout) (index : Int32) : Int64 :=
  let bucketIndex := (index >>> h.subBucketHalfCountMagnitude) - 1
  let subBucketIndex := (index &&& (h.subBucketHalfCount - 1)) + h.subBucketHalfCount
  if bucketIndex < 0 then
    valueFromIndex 0 (subBucketIndex - h.subBucketHalfCount) h.unitMagnitude
  else
    valueFromIndex bucketIndex subBucketIndex h.unitMagnitude

def sizeOfEquivalentValueRangeGivenBucketIndices (h : BucketLayout)
    (bucketIndex subBucketIndex : Int32) : Int64 :=
  let adjustedBucket := if subBucketIndex ≥ h.subBucketCount then bucketIndex + 1 else bucketIndex
  1 <<< (h.unitMagnitude + adjustedBucket).toInt64

def hdrSizeOfEquivalentValueRange (h : BucketLayout) (value : Int64) : Int64 :=
  let bucketIndex := h.getBucketIndex value
  let subBucketIndex := getSubBucketIndex value bucketIndex h.unitMagnitude
  let adjustedBucket := if subBucketIndex ≥ h.subBucketCount then bucketIndex + 1 else bucketIndex
  1 <<< (h.unitMagnitude + adjustedBucket).toInt64

def lowestEquivalentValueGivenBucketIndices (h : BucketLayout)
    (bucketIndex subBucketIndex : Int32) : Int64 :=
  valueFromIndex bucketIndex subBucketIndex h.unitMagnitude

def lowestEquivalentValue (h : BucketLayout) (value : Int64) : Int64 :=
  let bucketIndex := h.getBucketIndex value
  let subBucketIndex := getSubBucketIndex value bucketIndex h.unitMagnitude
  valueFromIndex bucketIndex subBucketIndex h.unitMagnitude

def hdrLowestEquivalentValue (h : BucketLayout) (value : Int64) : Int64 :=
  h.lowestEquivalentValue value

def hdrNextNonEquivalentValue (h : BucketLayout) (value : Int64) : Int64 :=
  h.lowestEquivalentValue value + h.hdrSizeOfEquivalentValueRange value

def highestEquivalentValue (h : BucketLayout) (value : Int64) : Int64 :=
  h.hdrNextNonEquivalentValue value - 1

def hdrMedianEquivalentValue (h : BucketLayout) (value : Int64) : Int64 :=
  h.lowestEquivalentValue value + (h.hdrSizeOfEquivalentValueRange value >>> 1)

def hdrValuesAreEquivalent (h : BucketLayout) (a b : Int64) : Bool :=
  h.lowestEquivalentValue a == h.lowestEquivalentValue b

end BucketLayout

/-- `while (exp)` runs once for every unit of `exp`, read as an unsigned word. -/
def powerLoop (base : Int64) : ℕ → Int64 → Int64
  | 0, result => result
  | n + 1, result => powerLoop base n (result * base)

def power (base exp : Int64) : Int64 := powerLoop base exp.toBitVec.toNat 1

/-- `(int32_t) ceil(log(x) / log(2))`, with exact logarithms. It is taken of `2 * 10 ^ figures`, for
which doubles give the same, and of a value to compare it with `INT32_MAX`. -/
def ceilLog2 (x : Int64) : Int32 := Int32.ofNat (Nat.clog 2 x.toInt.toNat)

/-- `(int32_t) (log(x) / log(2))`, with exact logarithms. In doubles the quotient is rounded up to
`k` for `x = 2 ^ k - 1` from `k = 48` on, and the result is `k` instead of `k - 1`. -/
def truncLog2 (x : Int64) : Int32 := Int32.ofNat (Nat.log 2 x.toInt.toNat)

/-- `(int32_t) pow(2, n)`, which is exact in doubles as well. -/
def pow2 (n : Int32) : Int32 := Int32.ofNat (2 ^ n.toInt.toNat)

def halfCountMagnitude (significantFigures : Int32) : Int32 :=
  let largestValueWithSingleUnitResolution := 2 * power 10 significantFigures.toInt64
  let subBucketCountMagnitude := ceilLog2 largestValueWithSingleUnitResolution
  (if subBucketCountMagnitude > 1 then subBucketCountMagnitude else 1) - 1

def bucketsNeededBody (value : Int64) :
    Int64 × Int32 → Option (Round (Int64 × Int32) Int32)
  | (smallestUntrackableValue, bucketsNeeded) =>
      if smallestUntrackableValue ≤ value then
        if smallestUntrackableValue > INT64_MAX / 2 then
          some (.leave (bucketsNeeded + 1))
        else
          some (.again (smallestUntrackableValue <<< 1, bucketsNeeded + 1))
      else some (.leave bucketsNeeded)

/-- A positive word can be doubled less than 64 times. -/
def bucketsNeededToCoverValue (value : Int64) (subBucketCount unitMagnitude : Int32) :
    Option Int32 :=
  run (bucketsNeededBody value) 64 (subBucketCount.toInt64 <<< unitMagnitude.toInt64, 1)

/-- Outer `none` is a doubling loop that does not end. -/
def hdrCalculateBucketConfig (lowestDiscernibleValue highestTrackableValue : Int64)
    (significantFigures : Int32) : Option (Except Int32 HdrHistogramBucketConfig) :=
  if lowestDiscernibleValue < 1 ∨ significantFigures < 1 ∨ 5 < significantFigures ∨
      lowestDiscernibleValue * 2 > highestTrackableValue then
    some (.error EINVAL)
  else
    let subBucketHalfCountMagnitude := halfCountMagnitude significantFigures
    -- the comparison is made on the untruncated double, hence the upper logarithm
    if INT32_MAX < ceilLog2 lowestDiscernibleValue then some (.error EINVAL)
    else
      let unitMagnitude := (truncLog2 lowestDiscernibleValue).toInt64
      let subBucketCount := pow2 (subBucketHalfCountMagnitude + 1)
      let subBucketMask := (subBucketCount.toInt64 - 1) <<< unitMagnitude
      if unitMagnitude + subBucketHalfCountMagnitude.toInt64 > 61 then some (.error EINVAL)
      else
        match bucketsNeededToCoverValue highestTrackableValue subBucketCount
            unitMagnitude.toInt32 with
        | none => none
        | some bucketCount => some (.ok
            { lowestDiscernibleValue := lowestDiscernibleValue
              highestTrackableValue := highestTrackableValue
              unitMagnitude := unitMagnitude
              significantFigures := significantFigures.toInt64
              subBucketHalfCountMagnitude := subBucketHalfCountMagnitude
              subBucketHalfCount := subBucketCount / 2
              subBucketMask := subBucketMask
              subBucketCount := subBucketCount
              bucketCount := bucketCount
              countsLen := (bucketCount + 1) * (subBucketCount / 2) })

example : (hdrCalculateBucketConfig 1 3600000000 3).map
    (Except.map fun cfg => (cfg.bucketCount, cfg.subBucketCount, cfg.countsLen)) =
      some (.ok (22, 2048, 23552)) := by decide +kernel

/-- The exponents behind the fields: cells of the first bucket are `2^u` wide,
half a bucket has `2^m` cells, and there are `b` buckets. -/
structure BucketLayout.Describes (h : BucketLayout) (u m b : ℕ) : Prop where
  unitMagnitude : h.unitMagnitude.toInt = u
  halfCountMagnitude : h.subBucketHalfCountMagnitude.toInt = m
  halfCount : h.subBucketHalfCount.toInt = 2 ^ m
  subBucketCount : h.subBucketCount.toInt = 2 * 2 ^ m
  mask : h.subBucketMask.toInt = (2 * 2 ^ m - 1) * 2 ^ u
  bucketCount : h.bucketCount.toInt = b
  countsLen : h.countsLen.toInt = (b + 1) * 2 ^ m
  half_le : m ≤ 17
  fits : u + m + b ≤ 63
  unit_le : u + m ≤ 61
  bucket_pos : 1 ≤ b
  covers : h.highestTrackableValue.toInt < 2 ^ (u + m + b)
  least : b = 1 ∨ 2 ^ (u + m + b - 1) ≤ h.highestTrackableValue.toInt
  figures_pos : 1 ≤ h.significantFigures.toInt
  precise : 10 ^ h.significantFigures.toInt.toNat ≤ 2 ^ m
  lowest : 2 ^ u ≤ h.lowestDiscernibleValue.toInt
  lowest_lt : h.lowestDiscernibleValue.toInt < 2 * 2 ^ u
  highest : 2 * h.lowestDiscernibleValue.toInt ≤ h.highestTrackableValue.toInt

section BucketsNeeded
variable {value : Int64} {u m : ℕ}

/-- `b` buckets are as few as possible for `value`, apart from the last doubling. -/
def LeastBuckets (value : Int64) (u m b : ℕ) : Prop :=
  b = 1 ∨ 2 ^ (u + m + b - 1) ≤ value.toInt

/-- The loop holds the first value that the buckets counted so far leave out. -/
def BucketsCounted (value : Int64) (u m : ℕ) (s : Int64 × Int32) : Prop :=
  ∃ b : ℕ, s.2.toInt = b ∧ 1 ≤ b ∧ u + m + b ≤ 62 ∧ s.1.toInt = 2 ^ (u + m + b) ∧
    LeastBuckets value u m b

def BucketsCover (value : Int64) (u m : ℕ) (n : Int32) : Prop :=
  ∃ b : ℕ, n.toInt = b ∧ 1 ≤ b ∧ u + m + b ≤ 63 ∧ value.toInt < 2 ^ (u + m + b) ∧
    LeastBuckets value u m b

theorem toInt_shl_one {s : Int64} {k : ℕ} (hs : s.toInt = 2 ^ k) (hk : k ≤ 61) :
    (s <<< 1).toInt = 2 ^ (k + 1) := by
  have hp : (2 : ℤ) ^ k * 2 ^ 1 = 2 ^ (k + 1) := by ring
  have hlt : (2 : ℤ) ^ (k + 1) < 2 ^ 63 := pow_lt_pow_right₀ (by omega) (by omega)
  have hpos : (0 : ℤ) < 2 ^ (k + 1) := by positivity
  rw [shl64 (k := 1) rfl (by omega)]
  all_goals rw [hs, hp]
  all_goals omega

/-- One round: the buckets cover the value, or the last doubling would overflow, or the
first value left out doubles. -/
theorem bucketsNeededBody_step {s : Int64 × Int32} (I : BucketsCounted value u m s) :
    ∃ r, bucketsNeededBody value s = some r ∧ r.Holds
      (fun t => BucketsCounted value u m t ∧ 63 - t.2.toInt.toNat < 63 - s.2.toInt.toNat)
      (BucketsCover value u m) := by
  obtain ⟨s, n⟩ := s
  obtain ⟨b, hb, hb1, hfit, hs, hleast⟩ := I
  simp only at hb hs
  have hhalf : (INT64_MAX / 2).toInt = 2 ^ 62 - 1 := by decide
  have hn : (n + 1).toInt = (b + 1 : ℕ) := by
    rw [add32] <;> rw [hb] <;> simp <;> omega
  unfold bucketsNeededBody
  by_cases hle : s ≤ value
  · have hle' := Int64.le_iff_toInt_le.mp hle
    rw [hs] at hle'
    have hnext : LeastBuckets value u m (b + 1) := .inr (by
      simpa only [← Nat.add_assoc, Nat.add_sub_cancel] using hle')
    by_cases hbig : s > INT64_MAX / 2
    · have hbig' := Int64.lt_iff_toInt_lt.mp hbig
      rw [hs, hhalf] at hbig'
      have htop : u + m + b = 62 := by
        by_contra hne
        have : (2 : ℤ) ^ (u + m + b) ≤ 2 ^ 61 := pow_le_pow_right₀ (by omega) (by omega)
        omega
      refine ⟨.leave (n + 1), by simp only [hle, hbig, if_true], b + 1, hn, by omega, by omega,
        ?_, hnext⟩
      rw [← Nat.add_assoc, htop]
      exact value.toInt_lt
    · have hsmall : s.toInt ≤ 2 ^ 62 - 1 := by
        rw [← hhalf]
        exact Int.not_lt.mp fun h => hbig (Int64.lt_iff_toInt_lt.mpr h)
      have htop : u + m + b ≤ 61 := by
        by_contra hne
        have : (2 : ℤ) ^ 62 ≤ 2 ^ (u + m + b) := pow_le_pow_right₀ (by omega) (by omega)
        omega
      refine ⟨.again (s <<< 1, n + 1), by simp only [hle, hbig, if_true, if_false],
        ⟨b + 1, hn, by omega, by omega, toInt_shl_one hs htop, hnext⟩, ?_⟩
      simp only [hn, hb]
      omega
  · have hlt : value.toInt < 2 ^ (u + m + b) := by
      rw [← hs]
      exact Int.not_le.mp fun h => hle (Int64.le_iff_toInt_le.mpr h)
    exact ⟨.leave n, by simp only [hle, if_false], b, hb, hb1, by omega, hlt, hleast⟩

theorem smallestUntrackable_toInt {count unit : Int32} (hc : count.toInt = 2 * 2 ^ m)
    (hu : unit.toInt = u) (hum : u + m ≤ 61) :
    (count.toInt64 <<< unit.toInt64).toInt = 2 ^ (u + m + 1) := by
  have hp : (2 : ℤ) * 2 ^ m * 2 ^ u = 2 ^ (u + m + 1) := by ring
  have hlt : (2 : ℤ) ^ (u + m + 1) < 2 ^ 63 := pow_lt_pow_right₀ (by omega) (by omega)
  have hpos : (0 : ℤ) < 2 ^ (u + m + 1) := by positivity
  rw [shl64 (k := u) (by rw [Int32.toInt_toInt64, hu]) (by omega)]
  all_goals rw [Int32.toInt_toInt64, hc, hp]
  all_goals omega

theorem bucketsCounted_start (value : Int64) {count unit : Int32} (hc : count.toInt = 2 * 2 ^ m)
    (hu : unit.toInt = u) (hum : u + m ≤ 61) :
    BucketsCounted value u m (count.toInt64 <<< unit.toInt64, 1) :=
  ⟨1, rfl, le_rfl, by omega, smallestUntrackable_toInt hc hu hum, .inl rfl⟩

theorem bucketsNeededToCoverValue_spec (value : Int64) {count unit : Int32}
    (hc : count.toInt = 2 * 2 ^ m) (hu : unit.toInt = u) (hum : u + m ≤ 61) :
    ∃ n, bucketsNeededToCoverValue value count unit = some n ∧ BucketsCover value u m n :=
  run_of_variant _ (fun _ => bucketsNeededBody_step) 64 _ (bucketsCounted_start value hc hu hum)
    (by change 63 - 1 < 64; omega)

end BucketsNeeded

theorem halfCountMagnitude_spec {f : Int32} (h₁ : 1 ≤ f.toInt) (h₅ : f.toInt ≤ 5) :
    ∃ m : ℕ, (halfCountMagnitude f).toInt = m ∧ m ≤ 17 ∧ 10 ^ f.toInt.toNat ≤ 2 ^ m ∧
      (pow2 (halfCountMagnitude f + 1)).toInt = 2 * 2 ^ m ∧
      (pow2 (halfCountMagnitude f + 1) / 2).toInt = 2 ^ m := by
  have hf : f = 1 ∨ f = 2 ∨ f = 3 ∨ f = 4 ∨ f = 5 := by
    simp only [← Int32.toInt_inj]
    change f.toInt = 1 ∨ f.toInt = 2 ∨ f.toInt = 3 ∨ f.toInt = 4 ∨ f.toInt = 5
    omega
  rcases hf with rfl | rfl | rfl | rfl | rfl
  · exact ⟨4, by decide +kernel⟩
  · exact ⟨7, by decide +kernel⟩
  · exact ⟨10, by decide +kernel⟩
  · exact ⟨14, by decide +kernel⟩
  · exact ⟨17, by decide +kernel⟩

theorem truncLog2_spec {x : Int64} (hx : 1 ≤ x.toInt) :
    (truncLog2 x).toInt = Nat.log 2 x.toInt.toNat ∧ Nat.log 2 x.toInt.toNat ≤ 62 ∧
      2 ^ Nat.log 2 x.toInt.toNat ≤ x.toInt ∧ x.toInt < 2 * 2 ^ Nat.log 2 x.toInt.toNat := by
  have hlt := x.toInt_lt
  have hle := Nat.pow_log_le_self 2 (x := x.toInt.toNat) (by omega)
  have hgt := Nat.lt_pow_succ_log_self (b := 2) (by omega) x.toInt.toNat
  have hlog : Nat.log 2 x.toInt.toNat < 63 := Nat.log_lt_of_lt_pow (by omega) (by omega)
  rw [Nat.pow_succ] at hgt
  refine ⟨?_, by omega, ?_, ?_⟩
  · rw [truncLog2, Int32.toInt_ofNat_of_lt (by omega)]
  · zify at hle; rwa [Int.toNat_of_nonneg (by omega)] at hle
  · zify at hgt; rw [Int.toNat_of_nonneg (by omega)] at hgt; omega

/-- The double comparison with `INT32_MAX` never holds for a 64-bit value. -/
theorem ceilLog2_le (x : Int64) : ¬ INT32_MAX < ceilLog2 x := by
  have hlt := x.toInt_lt
  have h : Nat.clog 2 x.toInt.toNat ≤ 63 := Nat.clog_le_of_le_pow (by omega)
  rw [Int32.lt_iff_toInt_lt, ceilLog2, Int32.toInt_ofNat_of_lt (by omega)]
  change ¬ 2147483647 < (_ : ℤ)
  omega

/-- The arguments that `hdr_calculate_bucket_config` accepts. -/
def Acceptable (lowest highest : Int64) (figures : Int32) : Prop :=
  1 ≤ lowest.toInt ∧ 1 ≤ figures.toInt ∧ figures.toInt ≤ 5 ∧
    2 * lowest.toInt ≤ highest.toInt ∧
    (Nat.log 2 lowest.toInt.toNat : ℤ) + (halfCountMagnitude figures).toInt ≤ 61

theorem toInt_double {x : Int64} (h₀ : 0 ≤ x.toInt) (h : x.toInt < 2 ^ 62) :
    (x * 2).toInt = 2 * x.toInt := by
  have h2 : (2 : Int64).toInt = 2 := rfl
  rw [mul64] <;> rw [h2] <;> omega

theorem magnitudes_toInt {lowest : Int64} {figures : Int32} (hl : 1 ≤ lowest.toInt)
    (h₁ : 1 ≤ figures.toInt) (h₅ : figures.toInt ≤ 5) :
    ((truncLog2 lowest).toInt64 + (halfCountMagnitude figures).toInt64).toInt =
      Nat.log 2 lowest.toInt.toNat + (halfCountMagnitude figures).toInt := by
  obtain ⟨m, hm, hm17, -⟩ := halfCountMagnitude_spec h₁ h₅
  obtain ⟨hu, hu62, -⟩ := truncLog2_spec hl
  rw [add64] <;> rw [Int32.toInt_toInt64, Int32.toInt_toInt64, hu, hm]
  all_goals omega

/-- The two checks of `hdr_calculate_bucket_config` that can fail. -/
theorem acceptable_iff {lowest highest : Int64} {figures : Int32} :
    Acceptable lowest highest figures ↔
      ¬ (lowest < 1 ∨ figures < 1 ∨ 5 < figures ∨ lowest * 2 > highest) ∧
        ¬ (truncLog2 lowest).toInt64 + (halfCountMagnitude figures).toInt64 > 61 := by
  have e1 : (1 : Int64).toInt = 1 := rfl
  have e61 : (61 : Int64).toInt = 61 := rfl
  have f1 : (1 : Int32).toInt = 1 := rfl
  have f5 : (5 : Int32).toInt = 5 := rfl
  simp only [Int64.lt_iff_toInt_lt, Int32.lt_iff_toInt_lt, e1, e61, f1, f5, not_or, not_lt,
    gt_iff_lt]
  -- the magnitude check leaves no room for the doubling of `lowest` to wrap
  have hdouble : 1 ≤ lowest.toInt → 1 ≤ figures.toInt → figures.toInt ≤ 5 →
      (Nat.log 2 lowest.toInt.toNat : ℤ) + (halfCountMagnitude figures).toInt ≤ 61 →
      (lowest * 2).toInt = 2 * lowest.toInt := by
    intro hl h₁ h₅ hmag
    obtain ⟨m, hm, -⟩ := halfCountMagnitude_spec h₁ h₅
    obtain ⟨-, -, -, hlt⟩ := truncLog2_spec hl
    have hpow : (2 : ℤ) ^ Nat.log 2 lowest.toInt.toNat ≤ 2 ^ 61 :=
      pow_le_pow_right₀ (by omega) (by omega)
    exact toInt_double (by omega) (by omega)
  constructor
  · rintro ⟨hl, h₁, h₅, hh, hmag⟩
    rw [magnitudes_toInt hl h₁ h₅, hdouble hl h₁ h₅ hmag]
    exact ⟨⟨hl, h₁, h₅, hh⟩, hmag⟩
  · rintro ⟨⟨hl, h₁, h₅, hh⟩, hmag⟩
    rw [magnitudes_toInt hl h₁ h₅] at hmag
    rw [hdouble hl h₁ h₅ hmag] at hh
    exact ⟨hl, h₁, h₅, hh, hmag⟩

theorem hdrCalculateBucketConfig_reject {lowest highest : Int64} {figures : Int32}
    (h : ¬ Acceptable lowest highest figures) :
    hdrCalculateBucketConfig lowest highest figures = some (.error EINVAL) := by
  rw [acceptable_iff, not_and_or, not_not, not_not] at h
  unfold hdrCalculateBucketConfig
  by_cases hguard : lowest < 1 ∨ figures < 1 ∨ 5 < figures ∨ lowest * 2 > highest
  · simp only [hguard, if_true]
  · simp only [hguard, ceilLog2_le, h.resolve_left hguard, if_true, if_false]

theorem subBucketMask_toInt {u m : ℕ} {count magnitude : Int32} (hcount : count.toInt = 2 * 2 ^ m)
    (hm : m ≤ 17) (hmag : magnitude.toInt = u) (hfit : u + m ≤ 61) :
    ((count.toInt64 - 1) <<< magnitude.toInt64).toInt = (2 * 2 ^ m - 1) * 2 ^ u := by
  have hm2 : (2 : ℤ) ^ m ≤ 2 ^ 17 := pow_le_pow_right₀ (by omega) hm
  have hm0 : (0 : ℤ) < 2 ^ m := by positivity
  have hupos : (0 : ℤ) < 2 ^ u := by positivity
  have hone : (count.toInt64 - 1).toInt = 2 * 2 ^ m - 1 := by
    rw [sub64] <;> rw [Int32.toInt_toInt64, hcount, Int64.toInt_one] <;> omega
  have htop : (2 : ℤ) * 2 ^ m * 2 ^ u ≤ 2 ^ 62 := by
    calc (2 : ℤ) * 2 ^ m * 2 ^ u = 2 ^ (u + m + 1) := by ring
      _ ≤ 2 ^ 62 := pow_le_pow_right₀ (by omega) (by omega)
  rw [shl64 (k := u) (by rw [Int32.toInt_toInt64, hmag]) (by omega)] <;> rw [hone] <;> nlinarith

theorem countsLen_product {m b : ℕ} {n half : Int32} (hn : n.toInt = b) (hb : b ≤ 63)
    (hhalf : half.toInt = 2 ^ m) (hm : m ≤ 17) :
    ((n + 1) * half).toInt = (b + 1) * 2 ^ m := by
  have hm2 : (2 : ℤ) ^ m ≤ 2 ^ 17 := pow_le_pow_right₀ (by omega) hm
  have hlen : (n + 1).toInt = b + 1 := by rw [add32] <;> rw [hn, Int32.toInt_one] <;> omega
  have hprod : ((b : ℤ) + 1) * 2 ^ m ≤ 64 * 2 ^ 17 :=
    mul_le_mul (by omega) hm2 (by positivity) (by omega)
  have hpos : (0 : ℤ) ≤ ((b : ℤ) + 1) * 2 ^ m := by positivity
  rw [mul32] <;> rw [hlen, hhalf] <;> omega

theorem hdrCalculateBucketConfig_accept {lowest highest : Int64} {figures : Int32}
    (h : Acceptable lowest highest figures) :
    ∃ cfg m b, hdrCalculateBucketConfig lowest highest figures = some (.ok cfg) ∧
      (halfCountMagnitude figures).toInt = (m : ℕ) ∧
      cfg.layout.Describes (Nat.log 2 lowest.toInt.toNat) m b ∧
      cfg.lowestDiscernibleValue = lowest ∧ cfg.highestTrackableValue = highest ∧
      cfg.layout.significantFigures = figures := by
  obtain ⟨hguard, hmag⟩ := acceptable_iff.mp h
  obtain ⟨hl, h₁, h₅, hh, hsum⟩ := h
  obtain ⟨m, hm, hm17, hprec, hcount, hhalf⟩ := halfCountMagnitude_spec h₁ h₅
  obtain ⟨hu, hu62, hge, hlt⟩ := truncLog2_spec hl
  set u := Nat.log 2 lowest.toInt.toNat with hudef
  have hunit : (truncLog2 lowest).toInt64.toInt32 = truncLog2 lowest := by simp
  obtain ⟨n, hn, b, hb, hb1, hfit, hcov, hleast⟩ :=
    bucketsNeededToCoverValue_spec highest hcount
      (show (truncLog2 lowest).toInt64.toInt32.toInt = u by rw [hunit, hu]) (by omega)
  unfold hdrCalculateBucketConfig
  simp only [hguard, ceilLog2_le, hmag, hn, if_false]
  refine ⟨_, m, b, rfl, hm, ?_, rfl, rfl, by simp [HdrHistogramBucketConfig.layout]⟩
  exact
    { unitMagnitude := (congrArg Int32.toInt hunit).trans hu
      halfCountMagnitude := hm
      halfCount := hhalf
      subBucketCount := hcount
      mask := subBucketMask_toInt hcount hm17 hu (by omega)
      bucketCount := hb
      countsLen := countsLen_product hb (by omega) hhalf hm17
      half_le := hm17
      fits := hfit
      unit_le := by omega
      bucket_pos := hb1
      covers := hcov
      least := hleast
      figures_pos := by simpa [HdrHistogramBucketConfig.layout] using h₁
      precise := by simpa [HdrHistogramBucketConfig.layout] using hprec
      lowest := hge
      lowest_lt := hlt
      highest := hh }

end HdrHistogramC
