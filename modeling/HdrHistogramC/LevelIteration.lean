import HdrHistogramC.CheckedArithmetic
import HdrHistogramC.Enumeration
import HdrHistogramC.Iterator

/-!
# Iteration in reporting levels

The linear and the logarithmic iterator of `hdr_histogram.c` are one loop, in which only the
next reporting level is computed differently: each call moves the cursor up to the bucket of
the level, reports, and raises the level. An overflow of the level has no defined result.
-/
namespace HdrHistogramC
open FixedWidth BoundedLoop LogLinear BucketLayout.Describes Enumeration

/-- The fields that `struct hdr_iter_linear` and `struct hdr_iter_log` share; what a level is
raised by is the parameter. -/
structure HdrIterLevels (π : Type) where
  parameter : π
  countAddedInThisIterationStep : Int64
  nextValueReportingLevel : Int64
  nextValueReportingLevelLowestEquivalent : Int64
deriving Repr, DecidableEq

namespace HdrIter
variable {σ : Type}

def peekNextValueFromIndex (h : HdrHistogram) (it : HdrIter σ) : Int64 :=
  h.hdrValueAtIndex (it.countsIndex + 1)

def nextValueGreaterThanReportingLevelUpperBound (h : HdrHistogram) (it : HdrIter σ)
    (reportingLevelUpperBound : Int64) : Bool :=
  if it.countsIndex ≥ h.countsLen then false
  else it.peekNextValueFromIndex h > reportingLevelUpperBound

end HdrIter

section Model
variable {π : Type} (raise : π → Int64 → Option Int64)

def levelBody (h : HdrHistogram) (it : HdrIter (HdrIterLevels π)) :
    Option (Round (HdrIter (HdrIterLevels π)) (Bool × HdrIter (HdrIterLevels π))) :=
  let levels := it.specifics
  if it.value ≥ levels.nextValueReportingLevelLowestEquivalent then
    (raise levels.parameter levels.nextValueReportingLevel).map fun level =>
      let it := it.updateIteratedValues levels.nextValueReportingLevel
      .leave (true, { it with specifics := { levels with
        nextValueReportingLevel := level
        nextValueReportingLevelLowestEquivalent := h.lowestEquivalentValue level } })
  else
    (it.moveNext h).map fun r =>
      if r.1 then
        .again { r.2 with specifics := { levels with
          countAddedInThisIterationStep :=
            levels.countAddedInThisIterationStep + r.2.count } }
      else .leave (true, r.2)

/-- Every round but the last moves the cursor. -/
def levelIterNext (h : HdrHistogram) (it : HdrIter (HdrIterLevels π)) :
    Option (Bool × HdrIter (HdrIterLevels π)) :=
  let it := { it with specifics := { it.specifics with countAddedInThisIterationStep := 0 } }
  if it.hasNext || it.nextValueGreaterThanReportingLevelUpperBound h
      it.specifics.nextValueReportingLevelLowestEquivalent then
    run (levelBody raise h) (h.countsLen.toInt.toNat + 2) it
  else some (false, it)

def levelIterInit (h : HdrHistogram) (parameter : π) (level : Int64) :
    HdrIter (HdrIterLevels π) :=
  HdrIter.hdrIterInit h
    { parameter := parameter
      countAddedInThisIterationStep := 0
      nextValueReportingLevel := level
      nextValueReportingLevelLowestEquivalent := h.lowestEquivalentValue level }

end Model

/-- The first value that the buckets do not cover. -/
def BucketLayout.coveredEnd (h : BucketLayout) : ℤ :=
  h.subBucketCount.toInt * 2 ^ (h.unitMagnitude.toInt + h.bucketCount.toInt - 1).toNat

/-- The counts from index `n` on. -/
def HdrHistogram.restCounts (h : HdrHistogram) (n : ℕ) : ℤ := sumCounts (h.entries.drop n)

section Range
variable {h : HdrHistogram} {u m b n n' v : ℕ}

theorem BucketLayout.Describes.coveredEnd {h : BucketLayout} (D : h.Describes u m b) :
    h.coveredEnd = 2 ^ (u + m + b) := by
  have hb := D.bucket_pos
  have hexp : (h.unitMagnitude.toInt + h.bucketCount.toInt - 1).toNat = u + (b - 1) := by
    rw [D.unitMagnitude, D.bucketCount]
    omega
  rw [BucketLayout.coveredEnd, hexp, D.subBucketCount]
  calc (2 : ℤ) * 2 ^ m * 2 ^ (u + (b - 1)) = 2 ^ (u + m + (b - 1 + 1)) := by ring
    _ = 2 ^ (u + m + b) := by rw [Nat.sub_add_cancel hb]

theorem BucketLayout.Describes.coveredEnd_le {h : BucketLayout} (D : h.Describes u m b) :
    h.coveredEnd ≤ 2 ^ 63 := by
  rw [D.coveredEnd]
  exact_mod_cast D.two_pow_top

theorem index_lt_length_iff (D : h.Describes u m b) (v : ℕ) :
    index u m v < h.counts.length ↔ (v : ℤ) < h.coveredEnd := by
  rw [counts_length_nat D, index_lt_octave, D.coveredEnd]
  exact_mod_cast Iff.rfl

theorem restCounts_zero (W : h.WellFormed) : h.restCounts 0 = h.totalCount.toInt :=
  sumCounts_entries W

theorem restCounts_nonneg (W : h.WellFormed) (n : ℕ) : 0 ≤ h.restCounts n :=
  sumCounts_nonneg fun r hr => entries_nonneg W r (List.mem_of_mem_drop hr)

theorem restCounts_end (h : HdrHistogram) (hn : h.counts.length ≤ n) : h.restCounts n = 0 := by
  rw [HdrHistogram.restCounts, List.drop_eq_nil_of_le (by rwa [entries_length]), sumCounts_nil]

theorem lt_length_of_restCounts_pos (hrest : 0 < h.restCounts n) : n < h.counts.length := by
  by_contra hn
  rw [restCounts_end h (by omega)] at hrest
  omega

theorem restCounts_succ (hn : n < h.counts.length) : h.restCounts n =
    ((h.countsGetNormalised (Int32.ofNat n)).getD 0).toInt + h.restCounts (n + 1) := by
  rw [HdrHistogram.restCounts, entries_drop hn, sumCounts_cons]
  rfl

theorem restCounts_anti (W : h.WellFormed) (hn : n ≤ n') :
    h.restCounts n' ≤ h.restCounts n := by
  obtain ⟨k, rfl⟩ := Nat.exists_eq_add_of_le hn
  have hsplit := List.take_append_drop k (h.entries.drop n)
  rw [List.drop_drop] at hsplit
  have htake : 0 ≤ sumCounts ((h.entries.drop n).take k) := sumCounts_nonneg fun r hr =>
    entries_nonneg W r (List.mem_of_mem_drop (List.mem_of_mem_take hr))
  unfold HdrHistogram.restCounts
  rw [← hsplit, sumCounts_append]
  omega

theorem restCounts_eq_zero_iff (W : h.WellFormed) (D : h.Describes u m b) (v : ℕ) :
    h.restCounts (index u m v + 1) = 0 ↔ ∀ r ∈ h.recordedSamples, r.1.toInt ≤ v := by
  have hlen := counts_length_nat D
  have hcounts := D.countsLen_lt
  have hval : ∀ i < h.counts.length, (h.hdrValueAtIndex (Int32.ofNat i)).toInt = lower u m i :=
    fun i hi => D.hdrValueAtIndex_toInt (Int32.toInt_ofNat_of_lt (by omega)) (by omega)
  have hnonneg : ∀ r ∈ h.entries.drop (index u m v + 1), 0 ≤ r.2.toInt :=
    fun r hr => entries_nonneg W r (List.mem_of_mem_drop hr)
  constructor
  · intro hz r hr
    obtain ⟨hmem, hne⟩ := List.mem_filter.mp hr
    obtain ⟨i, hi, rfl⟩ := List.mem_map.mp hmem
    rw [hval i (List.mem_range.mp hi), Int.ofNat_le, galoisConnection i v]
    by_contra hgt
    have hdrop : (h.hdrValueAtIndex (Int32.ofNat i),
        (h.countsGetNormalised (Int32.ofNat i)).getD 0) ∈ h.entries.drop (index u m v + 1) := by
      rw [List.mem_drop_iff_getElem]
      refine ⟨i - (index u m v + 1), by
        rw [entries_length]
        have := List.mem_range.mp hi
        omega, ?_⟩
      simp only [HdrHistogram.entries, List.getElem_map, List.getElem_range]
      rw [show index u m v + 1 + (i - (index u m v + 1)) = i by omega]
    have hkept := List.mem_filter (p := fun r => r.2 ≠ 0).mpr ⟨hdrop, hne⟩
    rw [filter_eq_nil hnonneg hz] at hkept
    cases hkept
  · intro hall
    have hnil : (h.entries.drop (index u m v + 1)).filter (fun r => r.2 ≠ 0) = [] := by
      rw [List.filter_eq_nil_iff]
      intro r hr hne
      have hle := hall r (List.mem_filter.mpr ⟨List.mem_of_mem_drop hr, hne⟩)
      obtain ⟨i, hi, rfl⟩ := List.mem_drop_iff_getElem.mp hr
      rw [entries_length] at hi
      simp only [HdrHistogram.entries, List.getElem_map, List.getElem_range] at hle
      rw [hval _ (by omega), Int.ofNat_le, galoisConnection _ v] at hle
      omega
    have hsum := sum_filter_nonzero (fun r => r.2.toInt) (fun _ => rfl)
      (h.entries.drop (index u m v + 1))
    rw [hnil] at hsum
    exact hsum.symm

end Range

section Call
variable {π : Type} (raise : π → Int64 → Option Int64) {h : HdrHistogram} {u m b : ℕ}
  {it it₁ it₂ : HdrIter (HdrIterLevels π)} {n n₁ n₂ v : ℕ}

/-- The cursor has consumed the first `n` entries, and has left the array when `n` is one more
than there are; the next level is `v`. -/
structure LevelAt (h : HdrHistogram) (u m : ℕ) (it : HdrIter (HdrIterLevels π)) (n v : ℕ) :
    Prop where
  cursor : it.countsIndex.toInt = n - 1
  le : n ≤ h.counts.length + 1
  total : it.totalCount = h.totalCount
  cumulative : it.cumulativeCount.toInt + h.restCounts n = h.totalCount.toInt
  value : n ≤ h.counts.length → it.value.toInt = lower u m (n - 1)
  level : it.specifics.nextValueReportingLevel.toInt = v
  lowest : it.specifics.nextValueReportingLevelLowestEquivalent.toInt = lower u m (index u m v)

/-- What the cursor carries from index `n` to index `n₁`. -/
structure Carried (h : HdrHistogram) (it it₁ : HdrIter (HdrIterLevels π)) (n n₁ : ℕ) : Prop where
  parameter : it₁.specifics.parameter = it.specifics.parameter
  iteratedFrom : it₁.valueIteratedFrom = it.valueIteratedFrom
  iteratedTo : it₁.valueIteratedTo = it.valueIteratedTo
  added : it₁.specifics.countAddedInThisIterationStep.toInt =
    it.specifics.countAddedInThisIterationStep.toInt + (h.restCounts n - h.restCounts n₁)

theorem Carried.refl (h : HdrHistogram) (it : HdrIter (HdrIterLevels π)) (n : ℕ) :
    Carried h it it n n := ⟨rfl, rfl, rfl, by omega⟩

theorem Carried.trans (C : Carried h it it₁ n n₁) (C' : Carried h it₁ it₂ n₁ n₂) :
    Carried h it it₂ n n₂ :=
  ⟨C'.parameter.trans C.parameter, C'.iteratedFrom.trans C.iteratedFrom,
    C'.iteratedTo.trans C.iteratedTo, by rw [C'.added, C.added]; omega⟩

/-- The cursor after a call for a level in cell `j`. Before the first entry is consumed it
stands at the value zero. -/
def levelCursor (n j : ℕ) : ℕ := if j ≤ n - 1 then n else j + 1

/-- The entries that the calls up to level `v` consume: none while the level stays in the first
bucket, where the cursor starts. -/
def consumedUpTo (u m v : ℕ) : ℕ := if index u m v = 0 then 0 else index u m v + 1

theorem consumedUpTo_zero (u m : ℕ) : consumedUpTo u m 0 = 0 := if_pos index_zero

theorem consumedUpTo_mono (u m : ℕ) {v v₁ : ℕ} (hv : v ≤ v₁) :
    consumedUpTo u m v ≤ consumedUpTo u m v₁ := by
  have hmono : index u m v ≤ index u m v₁ := index_mono hv
  unfold consumedUpTo
  split_ifs <;> omega

theorem levelCursor_consumedUpTo (u m : ℕ) {v v₁ : ℕ} (hv : v ≤ v₁) :
    levelCursor (consumedUpTo u m v) (index u m v₁) = consumedUpTo u m v₁ := by
  have hmono : index u m v ≤ index u m v₁ := index_mono hv
  unfold levelCursor consumedUpTo
  split_ifs <;> omega

/-- The cell `j` of the level is behind the cursor, and the source notices it: not when the
value after the last index wraps. -/
def Overtaken (h : HdrHistogram) (n j : ℕ) : Prop :=
  j < n ∧ j < h.counts.length ∧ n ≤ h.counts.length ∧
    (n = h.counts.length → h.coveredEnd < 2 ^ 63)

/-- The level is reached when its cell is not ahead of the cursor. -/
theorem LevelAt.reached_iff (A : LevelAt h u m it n v) (hn : n ≤ h.counts.length) :
    it.value ≥ it.specifics.nextValueReportingLevelLowestEquivalent ↔ index u m v ≤ n - 1 := by
  rw [ge_iff_le, Int64.le_iff_toInt_le, A.value hn, A.lowest, Int.ofNat_le]
  exact lower_strictMono.le_iff_le

theorem LevelAt.hasNext_iff (A : LevelAt h u m it n v) :
    it.hasNext = true ↔ 0 < h.restCounts n := by
  have hcum := A.cumulative
  rw [HdrIter.hasNext, decide_eq_true_iff, Int64.lt_iff_toInt_lt, A.total]
  omega

theorem LevelAt.overtaken_iff (A : LevelAt h u m it n v) (D : h.Describes u m b) :
    it.nextValueGreaterThanReportingLevelUpperBound h
      it.specifics.nextValueReportingLevelLowestEquivalent = true ↔
        Overtaken h n (index u m v) := by
  have hlen := counts_length_nat D
  have hle := A.le
  have hlt := D.countsLen_lt
  have hidx := A.cursor
  have hlast : it.countsIndex ≥ h.countsLen ↔ n = h.counts.length + 1 := by
    rw [ge_iff_le, Int32.le_iff_toInt_le, D.countsLen_toInt]
    omega
  unfold HdrIter.nextValueGreaterThanReportingLevelUpperBound Overtaken
  by_cases hend : n = h.counts.length + 1
  · rw [if_pos (hlast.mpr hend)]
    simp only [Bool.false_eq_true, false_iff]
    omega
  rw [if_neg (mt hlast.mp hend), decide_eq_true_iff, gt_iff_lt, Int64.lt_iff_toInt_lt, A.lowest,
    HdrIter.peekNextValueFromIndex]
  have hnext : (it.countsIndex + 1).toInt = n := by
    rw [add32] <;> rw [hidx, Int32.toInt_one] <;> omega
  rcases Nat.lt_or_ge n h.counts.length with hn | hn
  · rw [D.hdrValueAtIndex_toInt hnext (by omega), Int.ofNat_lt, lower_strictMono.lt_iff_lt]
    omega
  · have hlen' : it.countsIndex + 1 = h.countsLen := by
      rw [← Int32.toInt_inj, hnext, D.countsLen_toInt]
      omega
    rw [hlen', D.hdrValueAtIndex_countsLen, D.coveredEnd]
    have hfits := D.fits
    have hmono : lower u m (index u m v) < 2 ^ (u + m + b) ↔ index u m v < h.counts.length := by
      rw [hlen, ← lower_octave, lower_strictMono.lt_iff_lt]
    split_ifs with hfit
    · have hsmall : (2 : ℤ) ^ (u + m + b) < 2 ^ 63 := pow_lt_pow_right₀ (by omega) hfit
      have hcast : ((lower u m (index u m v) : ℕ) : ℤ) < 2 ^ (u + m + b) ↔
          lower u m (index u m v) < 2 ^ (u + m + b) := by exact_mod_cast Iff.rfl
      rw [hcast, hmono]
      omega
    · rw [show u + m + b = 63 by omega]
      omega

theorem LevelAt.moved (A : LevelAt h u m it n v) (W : h.WellFormed) (D : h.Describes u m b)
    (hn : n < h.counts.length) (hadded : 0 ≤ it.specifics.countAddedInThisIterationStep.toInt)
    (hfit : it.specifics.countAddedInThisIterationStep.toInt + h.restCounts n < 2 ^ 63)
    (hv : ¬ index u m v ≤ n - 1) :
    ∃ it₁, levelBody raise h it = some (.again it₁) ∧ LevelAt h u m it₁ (n + 1) v ∧
      Carried h it it₁ n (n + 1) := by
  obtain ⟨it', hmove, M⟩ := moveNext_lt W A.cursor hn
  have hlen := counts_length_nat D
  have hcast := ofNat_index W.accepted hn.le
  have hcum := A.cumulative
  have hrest := restCounts_nonneg W (n + 1)
  have hstep : h.restCounts n = it'.count.toInt + h.restCounts (n + 1) := by
    rw [restCounts_succ hn, M.count, Option.getD_some]
  have hcount : 0 ≤ it'.count.toInt := by
    have hmono := restCounts_anti W (show n ≤ n + 1 by omega)
    omega
  have hbody : levelBody raise h it = some (.again { it' with specifics := { it.specifics with
      countAddedInThisIterationStep :=
        it.specifics.countAddedInThisIterationStep + it'.count } }) := by
    simp only [levelBody, if_neg (mt (A.reached_iff hn.le).mp hv), hmove, Option.map_some, if_true]
  have htotal := h.totalCount.toInt_lt
  have hlow := it.cumulativeCount.le_toInt
  refine ⟨_, hbody, ⟨?_, by omega, M.total.trans A.total, ?_, fun _ => ?_, A.level, A.lowest⟩,
    ⟨rfl, M.iteratedFrom, M.iteratedTo, ?_⟩⟩
  · have := M.index
    push_cast
    omega
  · dsimp only
    rw [M.cumulative, add64] <;> omega
  · dsimp only
    rw [M.value, D.hdrValueAtIndex_toInt hcast (by omega), Nat.add_sub_cancel]
  · dsimp only
    rw [add64] <;> omega

theorem LevelAt.left (A : LevelAt h u m it h.counts.length v) (W : h.WellFormed)
    (hv : ¬ index u m v ≤ h.counts.length - 1) :
    ∃ it₁, levelBody raise h it = some (.leave (true, it₁)) ∧
      LevelAt h u m it₁ (h.counts.length + 1) v ∧
        Carried h it it₁ h.counts.length (h.counts.length + 1) := by
  obtain ⟨u', m', b', D⟩ := W.accepted.describes
  have hlen := counts_length_nat D
  have hlt := D.countsLen_lt
  have hidx := A.cursor
  have hend := moveNext_end W.accepted A.cursor
  have hcum := A.cumulative
  have hrest := restCounts_end h le_rfl
  have hrest' := restCounts_end h (show h.counts.length ≤ h.counts.length + 1 by omega)
  refine ⟨{ it with countsIndex := it.countsIndex + 1 }, ?_,
    ⟨?_, le_rfl, A.total, ?_, fun hn => by omega, A.level, A.lowest⟩, ⟨rfl, rfl, rfl, ?_⟩⟩
  · simp only [levelBody, if_neg (mt (A.reached_iff le_rfl).mp hv), hend, Option.map_some,
      Bool.false_eq_true, if_false]
  · dsimp only
    rw [add32] <;> rw [hidx, Int32.toInt_one] <;> push_cast <;> omega
  · dsimp only
    omega
  · dsimp only
    omega

/-- A call that goes on has entries left, or finds the level behind the cursor. -/
theorem LevelAt.goesOn_iff (A : LevelAt h u m it n v) (D : h.Describes u m b) :
    (it.hasNext || it.nextValueGreaterThanReportingLevelUpperBound h
      it.specifics.nextValueReportingLevelLowestEquivalent) = true ↔
        (0 < h.restCounts n ∨ Overtaken h n (index u m v)) := by
  rw [Bool.or_eq_true, A.hasNext_iff, A.overtaken_iff D]

theorem le_length_of_goesOn {j : ℕ} (hgo : 0 < h.restCounts n ∨ Overtaken h n j) :
    n ≤ h.counts.length := by
  rcases hgo with hrest | hover
  · exact (lt_length_of_restCounts_pos hrest).le
  · exact hover.2.2.1

/-- What a report writes. -/
def HdrIter.reported (h : HdrHistogram) (it : HdrIter (HdrIterLevels π)) (level : Int64) :
    HdrIter (HdrIterLevels π) :=
  { it.updateIteratedValues it.specifics.nextValueReportingLevel with
    specifics := { it.specifics with
      nextValueReportingLevel := level
      nextValueReportingLevelLowestEquivalent := h.lowestEquivalentValue level } }

theorem LevelAt.report (A : LevelAt h u m it n v) (hn : n ≤ h.counts.length)
    (hv : index u m v ≤ n - 1) (fuel : ℕ) :
    BoundedLoop.run (levelBody raise h) (fuel + 1) it =
      (raise it.specifics.parameter it.specifics.nextValueReportingLevel).map
        fun level => (true, it.reported h level) := by
  have hbody : levelBody raise h it =
      (raise it.specifics.parameter it.specifics.nextValueReportingLevel).map
        fun level => .leave (true, it.reported h level) := by
    simp only [levelBody, if_pos ((A.reached_iff hn).mpr hv)]
    rfl
  cases hraise : raise it.specifics.parameter it.specifics.nextValueReportingLevel with
  | none =>
      rw [hraise] at hbody
      rw [BoundedLoop.run, hbody]
      rfl
  | some level =>
      rw [hraise] at hbody
      exact run_leave hbody

/-- The loop moves to the bucket of the level and reports, or moves past the last bucket. -/
theorem LevelAt.run (W : h.WellFormed) (D : h.Describes u m b) :
    ∀ (fuel n : ℕ) (it : HdrIter (HdrIterLevels π)), LevelAt h u m it n v →
      n ≤ h.counts.length → h.counts.length - n + 1 < fuel →
      0 ≤ it.specifics.countAddedInThisIterationStep.toInt →
      it.specifics.countAddedInThisIterationStep.toInt + h.restCounts n < 2 ^ 63 →
      (index u m v < h.counts.length → ∃ it₁,
        LevelAt h u m it₁ (levelCursor n (index u m v)) v ∧
        Carried h it it₁ n (levelCursor n (index u m v)) ∧
        BoundedLoop.run (levelBody raise h) fuel it =
          (raise it.specifics.parameter it.specifics.nextValueReportingLevel).map
            fun level => (true, it₁.reported h level)) ∧
      (h.counts.length ≤ index u m v → ∃ it₁, LevelAt h u m it₁ (h.counts.length + 1) v ∧
        Carried h it it₁ n (h.counts.length + 1) ∧
        BoundedLoop.run (levelBody raise h) fuel it = some (true, it₁)) := by
  intro fuel
  induction fuel with
  | zero => intro n it _ _ hf; omega
  | succ fuel ih =>
      intro n it A hn hf hadded hfit
      by_cases hv : index u m v ≤ n - 1
      · refine ⟨fun _ => ⟨it, ?_, ?_, A.report raise hn hv fuel⟩, fun hge => ?_⟩
        · rwa [levelCursor, if_pos hv]
        · rw [levelCursor, if_pos hv]
          exact .refl h it n
        · have hpos := h.counts_length
          have := D.countsLen_toInt
          have : 0 < (b + 1) * 2 ^ m := by positivity
          omega
      · rcases Nat.lt_or_ge n h.counts.length with hlt | hge
        · obtain ⟨it₁, hbody, A₁, C⟩ := A.moved raise W D hlt hadded hfit hv
          have hmono := restCounts_anti W (show n ≤ n + 1 by omega)
          have hadd := C.added
          obtain ⟨hin, hout⟩ := ih (n + 1) it₁ A₁ hlt (by omega) (by omega) (by omega)
          rw [run_again hbody]
          have hcursor : levelCursor (n + 1) (index u m v) = levelCursor n (index u m v) := by
            unfold levelCursor
            split_ifs <;> omega
          have hlevel : it₁.specifics.nextValueReportingLevel =
              it.specifics.nextValueReportingLevel := by
            rw [← Int64.toInt_inj, A₁.level, A.level]
          rw [hcursor, C.parameter, hlevel] at hin
          refine ⟨fun hv' => ?_, fun hv' => ?_⟩
          · obtain ⟨it₂, A₂, C₂, hrun⟩ := hin hv'
            exact ⟨it₂, A₂, C.trans C₂, hrun⟩
          · obtain ⟨it₂, A₂, C₂, hrun⟩ := hout hv'
            exact ⟨it₂, A₂, C.trans C₂, hrun⟩
        · obtain rfl : n = h.counts.length := by omega
          obtain ⟨it₁, hbody, A₁, C⟩ := A.left raise W hv
          exact ⟨fun hv' => by omega, fun _ => ⟨it₁, A₁, C, run_leave hbody⟩⟩

/-- What a call that reports its level answers, from index `n` to index `n₁`. -/
structure Levelled (h : HdrHistogram) (it it₁ : HdrIter (HdrIterLevels π)) (n n₁ : ℕ) : Prop where
  parameter : it₁.specifics.parameter = it.specifics.parameter
  iteratedFrom : it₁.valueIteratedFrom = it.valueIteratedTo
  iteratedTo : it₁.valueIteratedTo = it.specifics.nextValueReportingLevel
  added : it₁.specifics.countAddedInThisIterationStep.toInt = h.restCounts n - h.restCounts n₁

/-- What a call that leaves the array answers. -/
structure RanOff (h : HdrHistogram) (it it₁ : HdrIter (HdrIterLevels π)) (n : ℕ) : Prop where
  iteratedTo : it₁.valueIteratedTo = it.valueIteratedTo
  added : it₁.specifics.countAddedInThisIterationStep.toInt = h.restCounts n

theorem Carried.levelled (C : Carried h it it₁ n n₁) (A : LevelAt h u m it n v)
    (A₁ : LevelAt h u m it₁ n₁ v) (hzero : it.specifics.countAddedInThisIterationStep.toInt = 0)
    (level : Int64) : Levelled h it (it₁.reported h level) n n₁ where
  parameter := C.parameter
  iteratedFrom := C.iteratedTo
  iteratedTo := by
    change it₁.specifics.nextValueReportingLevel = it.specifics.nextValueReportingLevel
    rw [← Int64.toInt_inj, A₁.level, A.level]
  added := by
    have hadd := C.added
    rw [hzero, zero_add] at hadd
    exact hadd

theorem LevelAt.reported (A : LevelAt h u m it n v) (D : h.Describes u m b) {level : Int64} {v₁ : ℕ}
    (hv₁ : level.toInt = v₁) : LevelAt h u m (it.reported h level) n v₁ where
  cursor := A.cursor
  le := A.le
  total := A.total
  cumulative := A.cumulative
  value := A.value
  level := hv₁
  lowest := by
    dsimp only [HdrIter.reported]
    rw [D.lowestEquivalentValue_toInt (by omega), hv₁, Int.toNat_natCast]

/-- The calls that stop, that report a level of the range, and that leave the array. A call
reports when there are counts left, and when the level is behind the cursor. -/
theorem LevelAt.next (A : LevelAt h u m it n v) (W : h.WellFormed) (D : h.Describes u m b) :
    (h.restCounts n = 0 ∧ ¬ Overtaken h n (index u m v) ∧
      ∃ it₁, levelIterNext raise h it = some (false, it₁)) ∨
    ((0 < h.restCounts n ∨ Overtaken h n (index u m v)) ∧ index u m v < h.counts.length ∧
      ((raise it.specifics.parameter it.specifics.nextValueReportingLevel = none ∧
        levelIterNext raise h it = none) ∨
      ∃ level it₁, raise it.specifics.parameter it.specifics.nextValueReportingLevel =
          some level ∧ levelIterNext raise h it = some (true, it₁) ∧
        Levelled h it it₁ n (levelCursor n (index u m v)) ∧
        ∀ v₁ : ℕ, level.toInt = v₁ → LevelAt h u m it₁ (levelCursor n (index u m v)) v₁)) ∨
    (0 < h.restCounts n ∧ h.counts.length ≤ index u m v ∧
      ∃ it₁, levelIterNext raise h it = some (true, it₁) ∧
        LevelAt h u m it₁ (h.counts.length + 1) v ∧ RanOff h it it₁ n) := by
  set it₀ : HdrIter (HdrIterLevels π) :=
    { it with specifics := { it.specifics with countAddedInThisIterationStep := 0 } } with hit₀
  have A₀ : LevelAt h u m it₀ n v :=
    ⟨A.cursor, A.le, A.total, A.cumulative, A.value, A.level, A.lowest⟩
  have hzero : it₀.specifics.countAddedInThisIterationStep.toInt = 0 := rfl
  have hnonneg := restCounts_nonneg W n
  have htotal := h.totalCount.toInt_lt
  have hle := restCounts_anti W (Nat.zero_le n)
  rw [restCounts_zero W] at hle
  have hcond := A₀.goesOn_iff D
  by_cases hgo : 0 < h.restCounts n ∨ Overtaken h n (index u m v)
  · have hn := le_length_of_goesOn hgo
    have hlen := h.counts_length
    have hnext : levelIterNext raise h it =
        BoundedLoop.run (levelBody raise h) (h.countsLen.toInt.toNat + 2) it₀ := by
      rw [levelIterNext, if_pos (hcond.mpr hgo)]
    obtain ⟨hin, hout⟩ := LevelAt.run raise W D (h.countsLen.toInt.toNat + 2) n it₀ A₀
      hn (by omega) (by rw [hzero]) (by rw [hzero]; omega)
    rw [← hnext] at hin hout
    rcases Nat.lt_or_ge (index u m v) h.counts.length with hv | hv
    · obtain ⟨it₁, A₁, C, hrun⟩ := hin hv
      refine .inr (.inl ⟨hgo, hv, ?_⟩)
      cases hraise : raise it.specifics.parameter it.specifics.nextValueReportingLevel with
      | none =>
          rw [hit₀] at hrun
          dsimp only at hrun
          rw [hraise] at hrun
          exact .inl ⟨rfl, hrun⟩
      | some level =>
          rw [hit₀] at hrun
          dsimp only at hrun
          rw [hraise] at hrun
          obtain ⟨hp, hfrom, hto, hadded⟩ := C.levelled A₀ A₁ hzero level
          exact .inr ⟨level, _, rfl, hrun, ⟨hp, hfrom, hto, hadded⟩,
            fun v₁ hv₁ => A₁.reported D hv₁⟩
    · obtain ⟨it₁, A₁, C, hrun⟩ := hout hv
      have hrest : 0 < h.restCounts n := hgo.resolve_right fun hover => by
        have := hover.2.1
        omega
      refine .inr (.inr ⟨hrest, hv, it₁, hrun, A₁, ⟨C.iteratedTo, ?_⟩⟩)
      have hadd := C.added
      rw [hzero, restCounts_end h (show h.counts.length ≤ h.counts.length + 1 by omega)] at hadd
      omega
  · refine .inl ⟨?_, fun hover => hgo (.inr hover), it₀, ?_⟩
    · have : ¬ 0 < h.restCounts n := fun hrest => hgo (.inl hrest)
      omega
    · rw [levelIterNext, if_neg (mt hcond.mp hgo)]

theorem levelAt_init (W : h.WellFormed) (D : h.Describes u m b) (parameter : π) {level : Int64}
    (hv : level.toInt = v) : LevelAt h u m (levelIterInit h parameter level) 0 v where
  cursor := rfl
  le := Nat.zero_le _
  total := rfl
  cumulative := by
    rw [restCounts_zero W]
    change (0 : Int64).toInt + _ = _
    rw [Int64.toInt_zero, zero_add]
  value _ := by
    rw [Nat.zero_sub, lower_zero]
    rfl
  level := hv
  lowest := by
    dsimp only [levelIterInit, HdrIter.hdrIterInit]
    rw [D.lowestEquivalentValue_toInt (by omega), hv, Int.toNat_natCast]

end Call

/-- The sum of what the calls report. -/
def addedCounts {π : Type} (its : List (HdrIter (HdrIterLevels π))) : ℤ :=
  (its.map fun it => it.specifics.countAddedInThisIterationStep.toInt).sum

theorem addedCounts_cons {π : Type} (it : HdrIter (HdrIterLevels π))
    (its : List (HdrIter (HdrIterLevels π))) : addedCounts (it :: its) =
      it.specifics.countAddedInThisIterationStep.toInt + addedCounts its := rfl

section Run
variable {π : Type} {raise : π → Int64 → Option Int64} {h : HdrHistogram} {u m b n v : ℕ}
  {it it₁ : HdrIter (HdrIterLevels π)}

/-- A call that reports raises the level, and `I` holds again. -/
def Raises (raise : π → Int64 → Option Int64) (h : HdrHistogram) (u m : ℕ)
    (I : HdrIter (HdrIterLevels π) → ℕ → ℕ → Prop) : Prop :=
  ∀ it n v, I it n v → LevelAt h u m it n v →
    0 < h.restCounts n ∨ Overtaken h n (index u m v) → index u m v < h.counts.length →
    ∃ (level : Int64) (v₁ : ℕ),
      raise it.specifics.parameter it.specifics.nextValueReportingLevel = some level ∧
      level.toInt = v₁ ∧ v < v₁ ∧
      ∀ it₁, levelIterNext raise h it = some (true, it₁) →
        Levelled h it it₁ n (levelCursor n (index u m v)) →
        I it₁ (levelCursor n (index u m v)) v₁

theorem levelCursor_le {len j : ℕ} (hn : n ≤ len) (hj : j < len) : levelCursor n j ≤ len := by
  unfold levelCursor
  split_ifs <;> omega

/-- When levels are only raised the iteration ends, and all counts have been reported. -/
theorem LevelAt.yields {I : HdrIter (HdrIterLevels π) → ℕ → ℕ → Prop} (W : h.WellFormed)
    (D : h.Describes u m b) (up : Raises raise h u m I) (A : LevelAt h u m it n v)
    (hn : n ≤ h.counts.length) (hI : I it n v) :
    ∃ its, Yields (levelIterNext raise h) it its ∧ addedCounts its = h.restCounts n := by
  -- an iteration that has left the array stops; before that the level comes nearer to the end
  let J : HdrIter (HdrIterLevels π) → Prop := fun it => ∃ n v, LevelAt h u m it n v ∧
    (n = h.counts.length + 1 ∨ n ≤ h.counts.length ∧ I it n v)
  let μ : HdrIter (HdrIterLevels π) → ℕ := fun it =>
    if it.countsIndex.toInt = h.counts.length then 0
    else (h.coveredEnd - it.specifics.nextValueReportingLevel.toInt).toNat + 1
  let P : HdrIter (HdrIterLevels π) → List (HdrIter (HdrIterLevels π)) → Prop := fun it its =>
    addedCounts its = h.restCounts (it.countsIndex.toInt + 1).toNat
  have hcursor : ∀ (it : HdrIter (HdrIterLevels π)) n v, LevelAt h u m it n v →
      (it.countsIndex.toInt + 1).toNat = n := fun it n v A => by rw [A.cursor]; omega
  have hμ : ∀ it, it.countsIndex.toInt ≠ (h.counts.length : ℤ) →
      μ it = (h.coveredEnd - it.specifics.nextValueReportingLevel.toInt).toNat + 1 :=
    fun it hne => if_neg hne
  have step : ∀ it, J it → (∃ it₁, levelIterNext raise h it = some (false, it₁) ∧ P it []) ∨
      ∃ it₁, levelIterNext raise h it = some (true, it₁) ∧ J it₁ ∧ μ it₁ < μ it ∧
        ∀ its, P it₁ its → P it (it₁ :: its) := by
    rintro it ⟨n, v, A, hJ⟩
    have hidx := A.cursor
    rcases A.next raise W D with ⟨hrest, -, it₁, hnext⟩ |
        ⟨hgo, hv, hcall⟩ | ⟨hrest, hv, it₁, hnext, A₁, R⟩
    · refine .inl ⟨it₁, hnext, ?_⟩
      change addedCounts [] = _
      rw [hcursor it n v A, hrest]
      rfl
    · have hn := le_length_of_goesOn hgo
      obtain ⟨-, hI⟩ := hJ.resolve_left (by omega)
      obtain ⟨level, v₁, hraise, hlevel, hlt, hI₁⟩ := up it n v hI A hgo hv
      rcases hcall with ⟨hnone, -⟩ | ⟨level', it₁, hraise', hnext, R, hA₁⟩
      · rw [hraise] at hnone
        cases hnone
      obtain rfl : level = level' := Option.some.inj (hraise.symm.trans hraise')
      have A₁ := hA₁ v₁ hlevel
      have hn₁ := levelCursor_le hn hv
      have hlevel₁ := A₁.level
      have hlevel₀ := A.level
      have hidx₁ := A₁.cursor
      have hend := (index_lt_length_iff D v).mp hv
      refine .inr ⟨it₁, hnext, ⟨_, v₁, A₁, .inr ⟨hn₁, hI₁ it₁ hnext R⟩⟩, ?_, fun its hP => ?_⟩
      · rw [hμ it₁ (by omega), hμ it (by omega)]
        omega
      · change addedCounts (it₁ :: its) = _
        change addedCounts its = _ at hP
        rw [hcursor it₁ _ _ A₁] at hP
        rw [hcursor it n v A, addedCounts_cons, hP, R.added]
        omega
    · have hn := lt_length_of_restCounts_pos hrest
      have hidx₁ := A₁.cursor
      refine .inr ⟨it₁, hnext, ⟨_, v, A₁, .inl rfl⟩, ?_, fun its hP => ?_⟩
      · rw [hμ it (by omega), show μ it₁ = 0 from if_pos (by omega)]
        omega
      · change addedCounts (it₁ :: its) = _
        change addedCounts its = _ at hP
        rw [hcursor it₁ _ _ A₁, restCounts_end h (by omega)] at hP
        rw [hcursor it n v A, addedCounts_cons, hP, R.added]
        omega
  obtain ⟨its, Y, hP⟩ := yields_of_variant μ step ⟨n, v, A, .inr ⟨hn, hI⟩⟩
  refine ⟨its, Y, ?_⟩
  change addedCounts its = _ at hP
  rw [hP, hcursor it n v A]

end Run

end HdrHistogramC
