import HdrHistogramC.BucketMap
import HdrHistogramC.CheckedArithmetic

/-!
# The acceptance of a configuration

Which arguments `hdr_calculate_bucket_config` accepts, over the integers, and that the sizes of
an accepted configuration are exact. The loop that counts the buckets stops one doubling before
its bound overflows, and still covers the largest word.
-/
namespace HdrHistogramC
open FixedWidth BoundedLoop

namespace Checked

/-- The doubling loop with every operation checked. -/
def bucketsNeededBody (value : Int64) :
    Int64 × Int32 → Option (Round (Int64 × Int32) Int32)
  | (smallestUntrackableValue, bucketsNeeded) =>
      if smallestUntrackableValue ≤ value then
        if smallestUntrackableValue > INT64_MAX / 2 then
          (add32 bucketsNeeded 1).map .leave
        else do
          let doubled ← shl64 smallestUntrackableValue 1
          let counted ← add32 bucketsNeeded 1
          some (.again (doubled, counted))
      else some (.leave bucketsNeeded)

def bucketsNeededToCoverValue (value : Int64) (subBucketCount unitMagnitude : Int32) :
    Option Int32 :=
  (shl64 subBucketCount.toInt64 unitMagnitude.toInt64).bind fun smallestUntrackableValue =>
    run (bucketsNeededBody value) 64 (smallestUntrackableValue, 1)

end Checked

section Loop
variable {value : Int64} {u m : ℕ}

theorem bucketsNeededBody_checked {s : Int64 × Int32} (I : BucketsCounted value u m s) :
    Checked.bucketsNeededBody value s = bucketsNeededBody value s ∧
      ∀ t, bucketsNeededBody value s = some (.again t) → BucketsCounted value u m t := by
  obtain ⟨r, hr, hnext⟩ := bucketsNeededBody_step I
  refine ⟨?_, fun t ht => ?_⟩
  · obtain ⟨s, n⟩ := s
    obtain ⟨b, hb, hb1, hfit, hs, hleast⟩ := I
    simp only at hb hs
    have hhalf : (INT64_MAX / 2).toInt = 2 ^ 62 - 1 := by decide
    have hpos : (0 : ℤ) < 2 ^ (u + m + b) := by positivity
    have ccount : Checked.add32 n 1 = some (n + 1) :=
      Checked.add32_eq (by rw [Int32.toInt_one]; omega) (by rw [Int32.toInt_one]; omega)
    unfold Checked.bucketsNeededBody bucketsNeededBody
    dsimp only
    split_ifs with hle hbig
    · rw [ccount, Option.map_some]
    · rw [Int64.not_lt, Int64.le_iff_toInt_le, hhalf] at hbig
      have cdouble : Checked.shl64 s 1 = some (s <<< 1) :=
        Checked.shl64_eq (k := 1) rfl (by omega) (by omega) (by omega)
      simp only [cdouble, ccount, Option.bind_eq_bind, Option.bind_some]
    · rfl
  · rw [ht] at hr
    cases hr
    exact hnext.1

theorem bucketsNeededToCoverValue_checked (value : Int64) {count unit : Int32}
    (hc : count.toInt = 2 * 2 ^ m) (hu : unit.toInt = u) (hum : u + m ≤ 61) :
    Checked.bucketsNeededToCoverValue value count unit =
      bucketsNeededToCoverValue value count unit := by
  have hlt : (2 : ℤ) ^ (u + m + 1) < 2 ^ 63 := pow_lt_pow_right₀ (by omega) (by omega)
  have hpos : (0 : ℤ) < 2 ^ (u + m + 1) := by positivity
  have hp : (2 : ℤ) * 2 ^ m * 2 ^ u = 2 ^ (u + m + 1) := by ring
  have cshift : Checked.shl64 count.toInt64 unit.toInt64 =
      some (count.toInt64 <<< unit.toInt64) :=
    Checked.shl64_eq (k := u) (by rw [Int32.toInt_toInt64, hu]) (by omega)
      (by rw [Int32.toInt_toInt64, hc, hp]; omega) (by rw [Int32.toInt_toInt64, hc, hp]; omega)
  rw [Checked.bucketsNeededToCoverValue, cshift, Option.bind_some]
  exact run_congr (fun _ => bucketsNeededBody_checked) 64 _ (bucketsCounted_start value hc hu hum)

end Loop

/-- The sizes that an accepted configuration derives. -/
structure BucketSizesExact (highest : Int64) (cfg : HdrHistogramBucketConfig) : Prop where
  bucketCount : ∃ b : ℕ, cfg.bucketCount.toInt = b ∧
    IsLeast {b : ℕ | 1 ≤ b ∧
      highest.toInt < cfg.subBucketCount.toInt * 2 ^ (cfg.unitMagnitude.toInt.toNat + b - 1)} b
  doubling : Checked.bucketsNeededToCoverValue highest cfg.subBucketCount
    cfg.unitMagnitude.toInt32 = some cfg.bucketCount
  countsLen : cfg.countsLen.toInt = (cfg.bucketCount.toInt + 1) * cfg.subBucketHalfCount.toInt

theorem halfCountMagnitude_eq {figures : Int32} (h₁ : 1 ≤ figures.toInt) (h₅ : figures.toInt ≤ 5) :
    (halfCountMagnitude figures).toInt = Nat.clog 2 (2 * 10 ^ figures.toInt.toNat) - 1 := by
  have hf : figures = 1 ∨ figures = 2 ∨ figures = 3 ∨ figures = 4 ∨ figures = 5 := by
    simp only [← Int32.toInt_inj]
    change figures.toInt = 1 ∨ figures.toInt = 2 ∨ figures.toInt = 3 ∨ figures.toInt = 4 ∨
      figures.toInt = 5
    omega
  rcases hf with rfl | rfl | rfl | rfl | rfl <;> decide +kernel

theorem isLeast_bucketCount {value : ℤ} {u m b : ℕ} (hb : 1 ≤ b) (hcovers : value < 2 ^ (u + m + b))
    (hleast : b = 1 ∨ 2 ^ (u + m + b - 1) ≤ value) :
    IsLeast {b : ℕ | 1 ≤ b ∧ value < 2 * 2 ^ m * 2 ^ (u + b - 1)} b := by
  have hpow : ∀ b : ℕ, 1 ≤ b → (2 : ℤ) * 2 ^ m * 2 ^ (u + b - 1) = 2 ^ (u + m + b) := by
    intro b hb
    rw [show u + m + b = 1 + m + (u + b - 1) by omega]
    ring
  refine ⟨⟨hb, by rwa [hpow b hb]⟩, fun c hc => ?_⟩
  by_contra hlt
  have hle : (2 : ℤ) ^ (u + m + c) ≤ 2 ^ (u + m + b - 1) :=
    pow_le_pow_right₀ (by omega) (by omega)
  have hvalue := hc.2
  rw [hpow c hc.1] at hvalue
  have hone := hc.1
  omega

/-- The fields that the source computes by a logarithm and by the loop. -/
theorem derivedFields_eq {lowest highest : Int64} {figures : Int32}
    {cfg : HdrHistogramBucketConfig} (ha : Acceptable lowest highest figures)
    (hcfg : hdrCalculateBucketConfig lowest highest figures = some (.ok cfg)) :
    cfg.unitMagnitude = (truncLog2 lowest).toInt64 ∧
      bucketsNeededToCoverValue highest cfg.subBucketCount cfg.unitMagnitude.toInt32 =
        some cfg.bucketCount := by
  obtain ⟨hguard, hmag⟩ := acceptable_iff.mp ha
  unfold hdrCalculateBucketConfig at hcfg
  simp only [hguard, ceilLog2_le, hmag, if_false] at hcfg
  split at hcfg
  · cases hcfg
  next hneeded =>
    cases hcfg
    exact ⟨rfl, hneeded⟩

theorem bucketSizesExact {lowest highest : Int64} {figures : Int32}
    {cfg : HdrHistogramBucketConfig} (ha : Acceptable lowest highest figures)
    (hcfg : hdrCalculateBucketConfig lowest highest figures = some (.ok cfg)) :
    BucketSizesExact highest cfg := by
  obtain ⟨cfg', m, b, hcfg', -, D, -, hh, -⟩ := hdrCalculateBucketConfig_accept ha
  obtain rfl : cfg = cfg' := by
    rw [hcfg] at hcfg'
    cases hcfg'
    rfl
  obtain ⟨hunit, hneeded⟩ := derivedFields_eq ha hcfg
  obtain ⟨hu, -, -, -⟩ := truncLog2_spec ha.1
  have hcount : cfg.subBucketCount.toInt = 2 * 2 ^ m := D.subBucketCount
  have hbuckets : cfg.bucketCount.toInt = b := D.bucketCount
  have hcovers := D.covers
  have hleast := D.least
  have hhighest : cfg.layout.highestTrackableValue = highest := hh
  rw [hhighest] at hcovers hleast
  refine ⟨⟨b, hbuckets, ?_⟩, ?_, ?_⟩
  · rw [hunit, Int32.toInt_toInt64, hu, Int.toNat_natCast, hcount]
    exact isLeast_bucketCount D.bucket_pos hcovers hleast
  · rwa [bucketsNeededToCoverValue_checked highest hcount
      (show cfg.unitMagnitude.toInt32.toInt = _ from D.unitMagnitude) D.unit_le]
  · rw [hbuckets, show cfg.subBucketHalfCount.toInt = 2 ^ m from D.halfCount]
    exact D.countsLen

/-- A configuration is accepted exactly under the bounds on its arguments, and is rejected
otherwise; the sizes of an accepted one are exact. -/
theorem bucketConfig_correct (lowest highest : Int64) (figures : Int32) :
    (∃ r, hdrCalculateBucketConfig lowest highest figures = some r) ∧
    ((∃ cfg, hdrCalculateBucketConfig lowest highest figures = some (.ok cfg)) ↔
      1 ≤ lowest.toInt ∧ 1 ≤ figures.toInt ∧ figures.toInt ≤ 5 ∧
        2 * lowest.toInt ≤ highest.toInt ∧
        (Nat.log 2 lowest.toInt.toNat : ℤ) +
          (Nat.clog 2 (2 * 10 ^ figures.toInt.toNat) - 1) ≤ 61) ∧
    ∀ cfg, hdrCalculateBucketConfig lowest highest figures = some (.ok cfg) →
      BucketSizesExact highest cfg := by
  have haccept : Acceptable lowest highest figures ↔ 1 ≤ lowest.toInt ∧ 1 ≤ figures.toInt ∧
      figures.toInt ≤ 5 ∧ 2 * lowest.toInt ≤ highest.toInt ∧
      (Nat.log 2 lowest.toInt.toNat : ℤ) +
        (Nat.clog 2 (2 * 10 ^ figures.toInt.toNat) - 1) ≤ 61 := by
    refine and_congr_right fun _ => and_congr_right fun h₁ => and_congr_right fun h₅ => ?_
    rw [halfCountMagnitude_eq h₁ h₅]
  rw [← haccept]
  by_cases ha : Acceptable lowest highest figures
  · obtain ⟨cfg, m, b, hcfg, -⟩ := hdrCalculateBucketConfig_accept ha
    exact ⟨⟨_, hcfg⟩, iff_of_true ⟨cfg, hcfg⟩ ha, fun _ hcfg' => bucketSizesExact ha hcfg'⟩
  · have hreject := hdrCalculateBucketConfig_reject ha
    refine ⟨⟨_, hreject⟩, iff_of_false ?_ ha, fun cfg hcfg => ?_⟩
    · rintro ⟨cfg, hcfg⟩
      rw [hreject] at hcfg
      cases hcfg
    · rw [hreject] at hcfg
      cases hcfg

theorem bucketConfig_correct_sample : ∃ cfg,
    hdrCalculateBucketConfig 1 3600000000 3 = some (.ok cfg) ∧
      BucketSizesExact 3600000000 cfg := by
  obtain ⟨-, hiff, hsizes⟩ := bucketConfig_correct 1 3600000000 3
  obtain ⟨cfg, hcfg⟩ := hiff.mpr (by decide +kernel)
  exact ⟨cfg, hcfg, hsizes cfg hcfg⟩

end HdrHistogramC
