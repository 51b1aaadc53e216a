import HdrHistogramC.Extremes
import HdrHistogramC.LevelIteration

/-!
# The accumulators of the mean

`hdr_mean` adds up the counts, and the counts times the median of their bucket, in 64-bit
words, and stops when every count has been added. The second sum is exact as long as it is
below `2^63`, which bounds neither the values nor the counts that recording accepts.
-/
namespace HdrHistogramC
open FixedWidth BoundedLoop LogLinear BucketLayout.Describes

/-- The locals of the loop in `hdr_mean`. -/
structure MeanScan where
  total : Int64
  count : Int64
  iter : HdrIter Unit

def meanBody (h : HdrHistogram) (s : MeanScan) : Option (Round MeanScan (Int64 × Int64)) :=
  (hdrIterNext h s.iter).map fun r =>
    if r.1 ∧ s.count < h.totalCount then
      if 0 ≠ r.2.count then
        .again
          { count := s.count + r.2.count
            total := s.total + r.2.count * h.hdrMedianEquivalentValue r.2.value
            iter := r.2 }
      else .again { s with iter := r.2 }
    else .leave (s.count, s.total)

/-- The variables `count` and `total` when `hdr_mean` leaves its loop. -/
def HdrHistogram.hdrMeanSums (h : HdrHistogram) : Option (Int64 × Int64) :=
  run (meanBody h) (h.countsLen.toInt.toNat + 2) ⟨0, 0, HdrIter.hdrIterInit h ()⟩

/-- A division of an empty histogram has no result here. -/
def HdrHistogram.hdrMean (h : HdrHistogram) : Option ℚ :=
  if h.totalCount = 0 then none
  else h.hdrMeanSums.map fun s => s.2.toInt / h.totalCount.toInt

/-- The sum of `counts[i] * hdr_median_equivalent_value(h, hdr_value_at_index(h, i))`. -/
def HdrHistogram.medianSum (h : HdrHistogram) : ℤ :=
  ∑ i ∈ Finset.range h.counts.length, (h.counts.getD i 0).toInt *
    (h.hdrMedianEquivalentValue (h.hdrValueAtIndex (Int32.ofNat i))).toInt

/-- What a sample adds to the sum of the medians. -/
def HdrHistogram.medianShare (h : HdrHistogram) (r : Sample) : ℤ :=
  r.2.toInt * (h.hdrMedianEquivalentValue r.1).toInt

section Loop
variable {h : HdrHistogram} {u m b n : ℕ} {s : MeanScan}

/-- The sums are those of the entries that the cursor has passed. -/
structure MeanAt (h : HdrHistogram) (s : MeanScan) (n : ℕ) : Prop where
  cursor : At h s.iter n
  count : s.count.toInt + h.restCounts n = h.totalCount.toInt
  total : s.total.toInt + ((h.entries.drop n).map h.medianShare).sum ≡
    (h.entries.map h.medianShare).sum [ZMOD 2 ^ 64]

theorem medianShare_zero (h : HdrHistogram) (v : Int64) : h.medianShare (v, 0) = 0 := by
  rw [HdrHistogram.medianShare, Int64.toInt_zero, zero_mul]

theorem toInt_mul_modEq (a b : Int64) : (a * b).toInt ≡ a.toInt * b.toInt [ZMOD 2 ^ 64] := by
  rw [Int64.toInt_mul]
  exact Int.bmod_emod ..

theorem medianShares_rest (W : h.WellFormed) (hz : h.restCounts n = 0) :
    ((h.entries.drop n).map h.medianShare).sum = 0 := by
  have hnil := filter_eq_nil
    (fun r hr => entries_nonneg W r (List.mem_of_mem_drop hr)) hz
  rw [← sum_filter_nonzero h.medianShare (medianShare_zero h), hnil]
  rfl

theorem MeanAt.moved (W : h.WellFormed) (A : MeanAt h s n) (hn : n < h.counts.length)
    (hlt : s.count < h.totalCount) :
    ∃ s', meanBody h s = some (.again s') ∧ MeanAt h s' (n + 1) := by
  obtain ⟨it', hmove, M⟩ := moveNext_lt W A.cursor.index hn
  have hnext : hdrIterNext h s.iter = some (true, it'.updateIteratedValues it'.value) := by
    simp only [hdrIterNext, HdrIterKind.nextFp, allValuesIterNext, hmove, Option.map_some, if_true]
  have A' := A.cursor.moved W hn M
  have hstep := restCounts_succ hn
  have hcount := A.count
  have htotal := A.total
  have hrest := restCounts_nonneg W (n + 1)
  have hsum := h.totalCount.toInt_lt
  have hlow := s.count.le_toInt
  have hpos : 0 ≤ it'.count.toInt := by
    have hmono := restCounts_anti W (show n ≤ n + 1 by omega)
    rw [M.count, Option.getD_some] at hstep
    omega
  rw [entries_drop hn, List.map_cons, List.sum_cons, ← M.value] at htotal
  rw [M.count, Option.getD_some] at hstep htotal
  have hcursor : At h (it'.updateIteratedValues it'.value) (n + 1) :=
    ⟨A'.index, A'.le, A'.total, A'.cumulative⟩
  by_cases hz : 0 = it'.count
  · refine ⟨{ s with iter := it'.updateIteratedValues it'.value }, ?_, hcursor, ?_, ?_⟩
    · simp only [meanBody, hnext, Option.map_some, hlt, and_self, if_true,
        HdrIter.updateIteratedValues, ← hz, ne_eq, not_true, if_false]
    · rw [← hz, Int64.toInt_zero] at hstep
      dsimp only
      omega
    · rwa [← hz, medianShare_zero, zero_add] at htotal
  · refine ⟨⟨s.total + it'.count * h.hdrMedianEquivalentValue it'.value, s.count + it'.count,
      it'.updateIteratedValues it'.value⟩, ?_, hcursor, ?_, ?_⟩
    · simp only [meanBody, hnext, Option.map_some, hlt, and_self, if_true,
        HdrIter.updateIteratedValues, ne_eq, hz, not_false_eq_true]
    · dsimp only
      rw [add64] <;> omega
    · dsimp only
      refine Int.ModEq.trans ?_ htotal
      rw [← add_assoc]
      exact ((toInt_add_modEq _ _).trans ((toInt_mul_modEq _ _).add_left _)).add_right _

/-- The loop adds every count, and the products up to a multiple of the word size. -/
theorem hdrMeanSums_spec (W : h.WellFormed) :
    ∃ count total, h.hdrMeanSums = some (count, total) ∧ count = h.totalCount ∧
      total.toInt ≡ (h.entries.map h.medianShare).sum [ZMOD 2 ^ 64] := by
  let I : MeanScan → Prop := fun s => ∃ n, MeanAt h s n
  let Q : Int64 × Int64 → Prop := fun r => r.1 = h.totalCount ∧
    r.2.toInt ≡ (h.entries.map h.medianShare).sum [ZMOD 2 ^ 64]
  let μ : MeanScan → ℕ := fun s => (h.counts.length - s.iter.countsIndex.toInt).toNat
  have done : ∀ s n, MeanAt h s n → h.restCounts n = 0 → Q (s.count, s.total) := by
    intro s n A hz
    have hcount := A.count
    have htotal := A.total
    rw [medianShares_rest W hz, add_zero] at htotal
    exact ⟨Int64.toInt_inj.mp (show s.count.toInt = _ by omega), htotal⟩
  have step : ∀ s, I s → ∃ r, meanBody h s = some r ∧ r.Holds (fun t => I t ∧ μ t < μ s) Q := by
    rintro s ⟨n, A⟩
    have hle := A.cursor.le
    have hidx := A.cursor.index
    have hcount := A.count
    have hrest := restCounts_nonneg W n
    rcases hle.lt_or_eq with hn | rfl
    · by_cases hlt : s.count < h.totalCount
      · obtain ⟨s', hbody, A'⟩ := A.moved W hn hlt
        have hidx' := A'.cursor.index
        refine ⟨.again s', hbody, ⟨n + 1, A'⟩, ?_⟩
        change (_ : ℤ).toNat < (_ : ℤ).toNat
        omega
      · -- every count has been added, and the entries that are left have none
        obtain ⟨it', hmove, -⟩ := moveNext_lt W hidx hn
        refine ⟨.leave (s.count, s.total), ?_, done s n A ?_⟩
        · simp only [meanBody, hdrIterNext, HdrIterKind.nextFp, allValuesIterNext, hmove,
            Option.map_some, if_true, hlt, and_false, if_false]
        · rw [Int64.lt_iff_toInt_lt] at hlt
          omega
    · have hend := moveNext_end W.accepted hidx
      refine ⟨.leave (s.count, s.total), ?_, done s _ A (restCounts_end h le_rfl)⟩
      simp only [meanBody, hdrIterNext, HdrIterKind.nextFp, allValuesIterNext, hend,
        Option.map_some, Bool.false_eq_true, if_false, false_and]
  have start : MeanAt h ⟨0, 0, HdrIter.hdrIterInit h ()⟩ 0 := by
    refine ⟨at_init W _, ?_, ?_⟩
    · rw [restCounts_zero W, Int64.toInt_zero, zero_add]
    · rw [Int64.toInt_zero, zero_add, List.drop_zero]
  have hlen := h.counts_length
  have hidx := start.cursor.index
  obtain ⟨⟨count, total⟩, hrun, hQ⟩ := run_of_variant μ step (h.countsLen.toInt.toNat + 2) _
    ⟨0, start⟩ (show (_ : ℤ).toNat < _ by omega)
  exact ⟨count, total, hrun, hQ⟩

end Loop

section Samples
variable {h : HdrHistogram} {rs : List Sample} {u m b : ℕ}

theorem sum_sumCountsAt_mul (l : BucketLayout) (rs : List Sample) (len : ℕ) (f : ℕ → ℤ)
    (hi : ∀ r ∈ rs, ∃ n < len, (l.countsIndexFor r.1).toInt = (n : ℕ)) :
    ∑ n ∈ Finset.range len, sumCountsAt l rs n * f n =
      (rs.map fun r => r.2.toInt * f (l.countsIndexFor r.1).toInt.toNat).sum := by
  induction rs with
  | nil => simp
  | cons r rs ih =>
      obtain ⟨k, hk, hr⟩ := hi r (by simp)
      simp only [sumCountsAt_cons, add_mul, ite_mul, zero_mul, Finset.sum_add_distrib,
        List.map_cons, List.sum_cons, hr, Int.natCast_inj, Int.toNat_natCast]
      rw [ih fun s hs => hi s (by simp [hs]), Finset.sum_ite_eq, if_pos (by simpa using hk)]

theorem medianShares_entries (off : h.normalizingIndexOffset = 0) (W : h.WellFormed) :
    (h.entries.map h.medianShare).sum = h.medianSum := by
  rw [HdrHistogram.entries, List.map_map]
  change _ = ((List.range h.counts.length).map _).sum
  refine congrArg List.sum (List.map_congr_left fun i hi => ?_)
  have hcast := ofNat_index W.accepted (List.mem_range.mp hi).le
  have hsame : h.normalizeIndex (Int32.ofNat i) = Int32.ofNat i := if_pos off
  rw [Function.comp_apply, HdrHistogram.medianShare, HdrHistogram.countsGetNormalised, hsame,
    countsGetDirect_eq hcast, List.getD_eq_getElem?_getD]

theorem hdrMedianEquivalentValue_bucket (D : h.Describes u m b) {v : Int64} (hv : h.Recordable v) :
    h.hdrMedianEquivalentValue
        (h.hdrValueAtIndex (Int32.ofNat (h.countsIndexFor v).toInt.toNat)) =
      h.hdrMedianEquivalentValue v := by
  have hv₀ := (nonneg_iff v).mp hv.1
  have hcell := D.index_lt_countsLen hv₀ (Int64.le_iff_toInt_le.mp hv.2)
  have hlt := D.countsLen_lt
  have hvalue := D.hdrValueAtIndex_toInt
    (i := Int32.ofNat (h.countsIndexFor v).toInt.toNat) (n := index u m v.toInt.toNat) (by
      rw [D.countsIndexFor_toInt hv₀, Int.toNat_natCast]
      exact Int32.toInt_ofNat_of_lt (by omega)) hcell
  rw [← Int64.toInt_inj, D.hdrMedianEquivalentValue_toInt (by omega),
    D.hdrMedianEquivalentValue_toInt hv₀, hvalue, Int.toNat_natCast, index_lower]

theorem medianSum_eq (R : Represents h rs) (B : Bounded rs) :
    h.medianSum = (rs.map h.medianShare).sum := by
  obtain ⟨u, m, b, D⟩ := R.accepted.describes
  have hcounts : ∀ i ∈ Finset.range h.counts.length,
      (h.counts.getD i 0).toInt = sumCountsAt h.toBucketLayout rs i := by
    intro i hi
    have hget := List.getElem?_eq_getElem (Finset.mem_range.mp hi)
    rw [List.getD_eq_getElem?_getD, hget, Option.getD_some]
    exact R.count_eq B hget
  rw [HdrHistogram.medianSum, Finset.sum_congr rfl fun i hi => by rw [hcounts i hi],
    sum_sumCountsAt_mul h.toBucketLayout rs h.counts.length
      (fun i => (h.hdrMedianEquivalentValue (h.hdrValueAtIndex (Int32.ofNat i))).toInt)
      (R.index_lt _ rfl)]
  refine congrArg List.sum (List.map_congr_left fun r hr => ?_)
  rw [hdrMedianEquivalentValue_bucket D (R.recordable r hr), HdrHistogram.medianShare]

theorem medianShares_nonneg (R : Represents h rs) (B : Bounded rs) :
    0 ≤ (rs.map h.medianShare).sum := by
  obtain ⟨u, m, b, D⟩ := R.accepted.describes
  refine List.sum_nonneg fun x hx => ?_
  obtain ⟨r, hr, rfl⟩ := List.mem_map.mp hx
  have hmedian := D.hdrMedianEquivalentValue_toInt ((nonneg_iff r.1).mp (R.recordable r hr).1)
  have hhalf : (0 : ℤ) ≤ (width u m (index u m r.1.toInt.toNat) : ℤ) / 2 :=
    Int.ediv_nonneg (by omega) (by omega)
  exact mul_nonneg (B.nonneg r hr) (by omega)

end Samples

/-- After any history of accepted recordings the sums are exact precisely when the medians of the
samples add up to a word. -/
theorem meanAccumulator_exact_iff {lowest highest : Int64} {figures : Int32}
    {h₀ h : HdrHistogram} {rs : List Sample} (hi : hdrInit lowest highest figures = some (.ok h₀))
    (hr : ∀ r ∈ rs, h₀.Recordable r.1) (P : PositiveCounts rs) (hs : sumCounts rs < 2 ^ 63)
    (hall : h₀.recordAll rs = some h) :
    ∃ count total, h.hdrMeanSums = some (count, total) ∧
      ((count.toInt = (h.counts.map Int64.toInt).sum ∧ total.toInt = h.medianSum) ↔
        (rs.map h.medianShare).sum < 2 ^ 63) := by
  obtain ⟨h', hall', R, -⟩ := (represents_hdrInit hi).recordAll hr
  rw [List.nil_append] at R
  obtain rfl : h = h' := Option.some.inj (hall.symm.trans hall')
  have B := P.bounded hs
  have W := R.wellFormed B
  obtain ⟨count, total, hsums, hcount, htotal⟩ := hdrMeanSums_spec W
  refine ⟨count, total, hsums, ?_⟩
  rw [medianShares_entries R.offset W] at htotal
  rw [hcount, W.total, iff_true_intro rfl, true_and, ← medianSum_eq R B]
  have hnonneg := medianShares_nonneg R B
  rw [← medianSum_eq R B] at hnonneg
  have hlt := total.toInt_lt
  have hle := total.le_toInt
  constructor
  · intro heq
    omega
  · intro hfit
    exact eq_of_modEq64 htotal hle hlt (by omega) hfit

/-- Half a quintillion recordings of one hundred: the sum wraps. -/
theorem meanAccumulator_overflows :
    hdrInit 1 100 1 = some (.ok sampleHistogram) ∧
    (∀ r ∈ [((100 : Int64), (2 ^ 59 : Int64))], sampleHistogram.Recordable r.1 ∧ 1 ≤ r.2) ∧
    ∃ h count total, sampleHistogram.recordAll [(100, 2 ^ 59)] = some h ∧
      h.totalCount = 2 ^ 59 ∧ h.hdrMeanSums = some (count, total) ∧
      ¬ total.toInt = h.medianSum := by
  refine ⟨sampleHistogram_init, List.forall_iff_forall_mem.mp (by decide +kernel), ?_⟩
  have hrun : (sampleHistogram.recordAll [(100, 2 ^ 59)]).map (fun h => (h.totalCount,
      h.hdrMeanSums.map fun s => decide (s.2.toInt = h.medianSum))) =
      some (2 ^ 59, some false) := by decide +kernel
  obtain ⟨h, hall, hvals⟩ := Option.map_eq_some_iff.mp hrun
  obtain ⟨htotal, hsums⟩ := Prod.mk.inj hvals
  obtain ⟨⟨count, total⟩, hmean, hdiffer⟩ := Option.map_eq_some_iff.mp hsums
  exact ⟨h, count, total, hall, htotal, hmean, of_decide_eq_false hdiffer⟩

theorem meanAccumulator_exact_sample : ∃ h count total,
    sampleHistogram.recordAll [(100, 3), (40, 2)] = some h ∧
      h.hdrMeanSums = some (count, total) ∧ total.toInt = h.medianSum := by
  have hrun : (sampleHistogram.recordAll [(100, 3), (40, 2)]).map (fun h =>
      decide (([(100, 3), (40, 2)].map h.medianShare).sum < 2 ^ 63)) = some true := by
    decide +kernel
  obtain ⟨h, hall, hfit⟩ := Option.map_eq_some_iff.mp hrun
  obtain ⟨count, total, hsums, hiff⟩ := meanAccumulator_exact_iff sampleHistogram_init
    (List.forall_iff_forall_mem.mp (by decide +kernel))
    (List.forall_iff_forall_mem.mp (by decide +kernel)) (by decide +kernel) hall
  exact ⟨h, count, total, hall, hsums, (hiff.mpr (of_decide_eq_true hfit)).2⟩

end HdrHistogramC
