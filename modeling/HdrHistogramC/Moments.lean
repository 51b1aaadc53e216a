import HdrHistogramC.MeanAccumulator
import HdrHistogramC.WeightedSamples

/-!
# The mean and the standard deviation

`hdr_stddev`, in exact arithmetic. Both functions put every sample at the median of its bucket,
so both are as near to those of the samples as the medians are.
-/
namespace HdrHistogramC
open FixedWidth BoundedLoop LogLinear BucketLayout.Describes WeightedSamples

/-- The locals of the loop in `hdr_stddev`. -/
structure StddevScan where
  geometricDevTotal : ℚ
  iter : HdrIter Unit

def stddevBody (h : HdrHistogram) (mean : ℚ) (s : StddevScan) : Option (Round StddevScan ℚ) :=
  (hdrIterNext h s.iter).map fun r =>
    if r.1 then
      if 0 ≠ r.2.count then
        let dev : ℚ := (h.hdrMedianEquivalentValue r.2.value).toInt * 1 - mean
        .again
          { geometricDevTotal := s.geometricDevTotal + dev * dev * r.2.count.toInt
            iter := r.2 }
      else .again { s with iter := r.2 }
    else .leave s.geometricDevTotal

/-- What `hdr_stddev` takes the root of. -/
def HdrHistogram.hdrVariance (h : HdrHistogram) : Option ℚ :=
  h.hdrMean.bind fun mean =>
    (run (stddevBody h mean) (h.countsLen.toInt.toNat + 2)
      ⟨0, HdrIter.hdrIterInit h ()⟩).map fun geometricDevTotal =>
        geometricDevTotal / h.totalCount.toInt

noncomputable def HdrHistogram.hdrStddev (h : HdrHistogram) : Option ℝ :=
  h.hdrVariance.map fun (variance : ℚ) => √(variance : ℝ)

/-- What a sample adds to `geometric_dev_total`. -/
def HdrHistogram.squareShare (h : HdrHistogram) (mean : ℚ) (r : Sample) : ℚ :=
  r.2.toInt * ((h.hdrMedianEquivalentValue r.1).toInt - mean) ^ 2

section Loop
variable {h : HdrHistogram} {n : ℕ} {s : StddevScan} {mean : ℚ}

/-- The total is that of the entries that the cursor has passed. -/
structure StddevAt (h : HdrHistogram) (mean : ℚ) (s : StddevScan) (n : ℕ) : Prop where
  cursor : At h s.iter n
  total : s.geometricDevTotal + ((h.entries.drop n).map (h.squareShare mean)).sum =
    (h.entries.map (h.squareShare mean)).sum

theorem squareShare_zero (h : HdrHistogram) (mean : ℚ) (v : Int64) :
    h.squareShare mean (v, 0) = 0 := by
  rw [HdrHistogram.squareShare, Int64.toInt_zero, Int.cast_zero, zero_mul]

theorem StddevAt.moved (W : h.WellFormed) (A : StddevAt h mean s n) (hn : n < h.counts.length) :
    ∃ s', stddevBody h mean s = some (.again s') ∧ StddevAt h mean s' (n + 1) := by
  obtain ⟨it', hmove, M⟩ := moveNext_lt W A.cursor.index hn
  have hnext : hdrIterNext h s.iter = some (true, it'.updateIteratedValues it'.value) := by
    simp only [hdrIterNext, HdrIterKind.nextFp, allValuesIterNext, hmove, Option.map_some, if_true]
  have A' := A.cursor.moved W hn M
  have hcursor : At h (it'.updateIteratedValues it'.value) (n + 1) :=
    ⟨A'.index, A'.le, A'.total, A'.cumulative⟩
  have htotal := A.total
  rw [entries_drop hn, List.map_cons, List.sum_cons, ← M.value, M.count, Option.getD_some] at htotal
  by_cases hz : 0 = it'.count
  · refine ⟨{ s with iter := it'.updateIteratedValues it'.value }, ?_, hcursor, ?_⟩
    · simp only [stddevBody, hnext, Option.map_some, if_true, HdrIter.updateIteratedValues, ← hz,
        ne_eq, not_true, if_false]
    · rwa [← hz, squareShare_zero, zero_add] at htotal
  · refine ⟨⟨s.geometricDevTotal + h.squareShare mean (it'.value, it'.count),
      it'.updateIteratedValues it'.value⟩, ?_, hcursor, ?_⟩
    · simp only [stddevBody, hnext, Option.map_some, if_true, HdrIter.updateIteratedValues, ne_eq,
        hz, not_false_eq_true, mul_one, HdrHistogram.squareShare]
      ring_nf
    · rw [← htotal, add_assoc]

theorem stddev_total (W : h.WellFormed) (mean : ℚ) :
    run (stddevBody h mean) (h.countsLen.toInt.toNat + 2) ⟨0, HdrIter.hdrIterInit h ()⟩ =
      some (h.entries.map (h.squareShare mean)).sum := by
  let I : StddevScan → Prop := fun s => ∃ n, StddevAt h mean s n
  let Q : ℚ → Prop := fun total => total = (h.entries.map (h.squareShare mean)).sum
  let μ : StddevScan → ℕ := fun s => (h.counts.length - s.iter.countsIndex.toInt).toNat
  have step : ∀ s, I s →
      ∃ r, stddevBody h mean s = some r ∧ r.Holds (fun t => I t ∧ μ t < μ s) Q := by
    rintro s ⟨n, A⟩
    have hidx := A.cursor.index
    rcases A.cursor.le.lt_or_eq with hn | rfl
    · obtain ⟨s', hbody, A'⟩ := A.moved W hn
      have hidx' := A'.cursor.index
      refine ⟨.again s', hbody, ⟨n + 1, A'⟩, ?_⟩
      change (_ : ℤ).toNat < (_ : ℤ).toNat
      omega
    · have hend := moveNext_end W.accepted hidx
      refine ⟨.leave s.geometricDevTotal, ?_, ?_⟩
      · simp only [stddevBody, hdrIterNext, HdrIterKind.nextFp, allValuesIterNext, hend,
          Option.map_some, Bool.false_eq_true, if_false]
      · have htotal := A.total
        rwa [List.drop_eq_nil_of_le (by rw [entries_length]), List.map_nil, List.sum_nil,
          add_zero] at htotal
  have start : StddevAt h mean ⟨0, HdrIter.hdrIterInit h ()⟩ 0 :=
    ⟨at_init W _, by rw [zero_add, List.drop_zero]⟩
  have hlen := h.counts_length
  have hidx := start.cursor.index
  obtain ⟨total, hrun, hQ⟩ := run_of_variant μ step (h.countsLen.toInt.toNat + 2) _
    ⟨0, start⟩ (show (_ : ℤ).toNat < _ by omega)
  rw [hrun, hQ]

end Loop

section Samples
variable {h : HdrHistogram} {rs : List Sample} {u m b : ℕ}

noncomputable def sampleWeights (rs : List Sample) (i : Fin rs.length) : ℝ := rs[i].2.toInt

noncomputable def sampleValues (rs : List Sample) (i : Fin rs.length) : ℝ := rs[i].1.toInt

/-- The values that the samples are put at. -/
noncomputable def sampleMedians (l : BucketLayout) (rs : List Sample) (i : Fin rs.length) : ℝ :=
  (l.hdrMedianEquivalentValue rs[i].1).toInt

/-- The distance between the median of a bucket and one of its values. -/
noncomputable def BucketLayout.medianDistance (l : BucketLayout) (x : ℝ) : ℝ :=
  (2 ^ l.unitMagnitude.toInt.toNat / 2 : ℕ) + x / (2 * 10 ^ l.significantFigures.toInt.toNat)

theorem sampleWeights_sum (rs : List Sample) : ∑ i, sampleWeights rs i = sumCounts rs := by
  rw [sumCounts, Int.cast_list_sum, List.map_map]
  exact Fin.sum_univ_fun_getElem rs fun r => (r.2.toInt : ℝ)

theorem mean_samples (rs : List Sample) (G : Sample → ℝ) :
    mean (sampleWeights rs) (fun i => G rs[i]) =
      (rs.map fun r => r.2.toInt * G r).sum / sumCounts rs := by
  rw [mean, sampleWeights_sum]
  exact congrArg (· / _) (Fin.sum_univ_fun_getElem rs fun r => r.2.toInt * G r)

theorem PositiveCounts.weights (P : PositiveCounts rs) (hne : rs ≠ []) :
    Weights (sampleWeights rs) where
  nonneg i := Int.cast_nonneg (Int.le_trans Int.one_nonneg (P _ (List.getElem_mem i.2)))
  pos := by
    rw [sampleWeights_sum]
    exact Int.cast_pos.mpr (P.sum_pos hne)

theorem median_near (D : h.Describes u m b) {v : Int64} (hv : h.Recordable v) :
    |((h.hdrMedianEquivalentValue v).toInt : ℝ) - v.toInt| ≤ h.medianDistance v.toInt := by
  have hv₀ := (nonneg_iff v).mp hv.1
  have hnear := middle_near D.precise (lower_index_le (u := u) v.toInt.toNat)
    (lt_lower_index_add_width (u := u) (m := m) v.toInt.toNat)
  rw [← D.hdrMedianEquivalentValue_toInt hv₀, Int.toNat_of_nonneg hv₀] at hnear
  have hv' : (0 : ℝ) ≤ v.toInt := by exact_mod_cast hv₀
  have hunit : h.unitMagnitude.toInt.toNat = u := by rw [D.unitMagnitude, Int.toNat_natCast]
  rw [BucketLayout.medianDistance, hunit]
  rcases hnear with hnear | hnear
  · have hcast := (Int.cast_le (R := ℝ)).mpr hnear
    rw [Int.cast_abs, Int.cast_sub, Int.cast_natCast] at hcast
    exact hcast.trans (le_add_of_nonneg_right (by positivity))
  · have hcast : 2 * 10 ^ h.significantFigures.toInt.toNat *
        |((h.hdrMedianEquivalentValue v).toInt : ℝ) - v.toInt| ≤ v.toInt := by
      exact_mod_cast hnear
    refine le_trans ?_ (le_add_of_nonneg_left (Nat.cast_nonneg _))
    rw [le_div_iff₀ (by positivity), mul_comm]
    exact hcast

theorem sum_sumCountsAt_cast (l : BucketLayout) (rs : List Sample) (len : ℕ) (f : ℕ → ℚ)
    (hi : ∀ r ∈ rs, ∃ n < len, (l.countsIndexFor r.1).toInt = (n : ℕ)) :
    ∑ n ∈ Finset.range len, (sumCountsAt l rs n : ℚ) * f n =
      (rs.map fun r => r.2.toInt * f (l.countsIndexFor r.1).toInt.toNat).sum := by
  induction rs with
  | nil => simp
  | cons r rs ih =>
      obtain ⟨k, hk, hr⟩ := hi r (by simp)
      simp only [sumCountsAt_cons, Int.cast_add, Int.cast_ite, Int.cast_zero, add_mul, ite_mul,
        zero_mul, Finset.sum_add_distrib, List.map_cons, List.sum_cons, hr, Int.natCast_inj,
        Int.toNat_natCast]
      rw [ih fun s hs => hi s (by simp [hs]), Finset.sum_ite_eq, if_pos (by simpa using hk)]

/-- The entries hold the samples, at the medians of their buckets. -/
theorem sum_entries_medians (R : Represents h rs) (B : Bounded rs) (F : Int64 → ℚ) :
    (h.entries.map fun r => r.2.toInt * F (h.hdrMedianEquivalentValue r.1)).sum =
      (rs.map fun r => r.2.toInt * F (h.hdrMedianEquivalentValue r.1)).sum := by
  obtain ⟨u, m, b, D⟩ := R.accepted.describes
  have hentries : (h.entries.map fun r => r.2.toInt * F (h.hdrMedianEquivalentValue r.1)).sum =
      ∑ i ∈ Finset.range h.counts.length, (sumCountsAt h.toBucketLayout rs i : ℚ) *
        F (h.hdrMedianEquivalentValue (h.hdrValueAtIndex (Int32.ofNat i))) := by
    rw [HdrHistogram.entries, List.map_map]
    change _ = ((List.range h.counts.length).map _).sum
    refine congrArg List.sum (List.map_congr_left fun i hi => ?_)
    have hlt := List.mem_range.mp hi
    have hget := List.getElem?_eq_getElem hlt
    have hsame : h.normalizeIndex (Int32.ofNat i) = Int32.ofNat i := if_pos R.offset
    rw [Function.comp_apply, HdrHistogram.countsGetNormalised, hsame,
      countsGetDirect_eq (ofNat_index R.accepted hlt.le), hget, Option.getD_some,
      R.count_eq B hget]
  rw [hentries, sum_sumCountsAt_cast h.toBucketLayout rs h.counts.length
    (fun i => F (h.hdrMedianEquivalentValue (h.hdrValueAtIndex (Int32.ofNat i))))
    (R.index_lt _ rfl)]
  refine congrArg List.sum (List.map_congr_left fun r hr => ?_)
  rw [hdrMedianEquivalentValue_bucket D (R.recordable r hr)]

theorem hdrMean_medians (R : Represents h rs) (P : PositiveCounts rs) (hs : sumCounts rs < 2 ^ 63)
    (hne : rs ≠ []) (hfit : (rs.map h.medianShare).sum < 2 ^ 63) :
    ∃ q, h.hdrMean = some q ∧
      (q : ℝ) = mean (sampleWeights rs) (sampleMedians h.toBucketLayout rs) := by
  have B := P.bounded hs
  have W := R.wellFormed B
  obtain ⟨count, total, hsums, -, htotal⟩ := hdrMeanSums_spec W
  rw [medianShares_entries R.offset W, medianSum_eq R B] at htotal
  have hnonneg := medianShares_nonneg R B
  have hexact := eq_of_modEq64 htotal total.le_toInt total.toInt_lt (by omega) hfit
  have hcount : h.totalCount ≠ 0 := fun h0 => by
    have hpos := P.sum_pos hne
    rw [← R.total_eq B, h0, Int64.toInt_zero] at hpos
    exact hpos.false
  refine ⟨_, by rw [HdrHistogram.hdrMean, if_neg hcount, hsums, Option.map_some], ?_⟩
  have hmean := mean_samples rs fun r => (h.hdrMedianEquivalentValue r.1).toInt
  refine Eq.trans ?_ hmean.symm
  dsimp only
  rw [hexact, R.total_eq B, Rat.cast_div, Rat.cast_intCast, Rat.cast_intCast, Int.cast_list_sum,
    List.map_map]
  refine congrArg (fun l : List ℝ => l.sum / _) (List.map_congr_left fun r _ => ?_)
  exact Int.cast_mul ..

theorem hdrStddev_medians (R : Represents h rs) (P : PositiveCounts rs)
    (hs : sumCounts rs < 2 ^ 63) (hne : rs ≠ []) (hfit : (rs.map h.medianShare).sum < 2 ^ 63) :
    h.hdrStddev = some (deviation (sampleWeights rs) (sampleMedians h.toBucketLayout rs)) := by
  have B := P.bounded hs
  obtain ⟨q, hmean, hq⟩ := hdrMean_medians R P hs hne hfit
  have htotal := (stddev_total (R.wellFormed B) q).trans
    (congrArg some (sum_entries_medians R B fun v => (v.toInt - q) ^ 2))
  rw [HdrHistogram.hdrStddev, HdrHistogram.hdrVariance, hmean, Option.bind_some, htotal,
    Option.map_some, Option.map_some, deviation, rootMeanSquare, ← hq, R.total_eq B]
  refine congrArg (fun x => some √x) ?_
  have hsquares := mean_samples rs fun r => ((h.hdrMedianEquivalentValue r.1).toInt - (q : ℝ)) ^ 2
  refine Eq.trans ?_ hsquares.symm
  rw [Rat.cast_div, Rat.cast_intCast, Rat.cast_list_sum, List.map_map]
  refine congrArg (fun l : List ℝ => l.sum / _) (List.map_congr_left fun r _ => ?_)
  simp only [Function.comp_apply]
  push_cast
  rfl

end Samples

section Accuracy
variable {lowest highest : Int64} {figures : Int32} {h₀ : HdrHistogram} {rs : List Sample}

noncomputable def sampleMean (rs : List Sample) : ℝ := mean (sampleWeights rs) (sampleValues rs)

noncomputable def sampleQuadraticMean (rs : List Sample) : ℝ :=
  rootMeanSquare (sampleWeights rs) (sampleValues rs)

noncomputable def sampleDeviation (rs : List Sample) : ℝ :=
  deviation (sampleWeights rs) (sampleValues rs)

theorem recordAll_medians (init : hdrInit lowest highest figures = some (.ok h₀))
    (recordable : ∀ r ∈ rs, h₀.Recordable r.1) (medians : (rs.map h₀.medianShare).sum < 2 ^ 63) :
    ∃ h, h₀.recordAll rs = some h ∧ Represents h rs ∧ h.toBucketLayout = h₀.toBucketLayout ∧
      (rs.map h.medianShare).sum < 2 ^ 63 := by
  obtain ⟨h, hall, R, hl⟩ := (represents_hdrInit init).recordAll recordable
  have hshare : h.medianShare = h₀.medianShare := funext fun r => by
    rw [HdrHistogram.medianShare, HdrHistogram.medianShare, hl]
  exact ⟨h, hall, R, hl, by rwa [hshare]⟩

theorem sampleMedians_near {h : HdrHistogram} (R : Represents h rs) (i : Fin rs.length) :
    |sampleMedians h.toBucketLayout rs i - sampleValues rs i| ≤
      h.medianDistance (sampleValues rs i) := by
  obtain ⟨u, m, b, D⟩ := R.accepted.describes
  exact median_near D (R.recordable _ (List.getElem_mem i.2))

/-- The mean of a recorded history is as near to that of the samples as the configured precision
allows at it, unless the sum of the medians overflows. -/
theorem hdrMean_accurate (init : hdrInit lowest highest figures = some (.ok h₀))
    (recordable : ∀ r ∈ rs, h₀.Recordable r.1) (positive : PositiveCounts rs) (nonempty : rs ≠ [])
    (fits : sumCounts rs < 2 ^ 63) (medians : (rs.map h₀.medianShare).sum < 2 ^ 63) :
    ∃ h q, h₀.recordAll rs = some h ∧ h.hdrMean = some q ∧
      |(q : ℝ) - sampleMean rs| ≤ h₀.medianDistance (sampleMean rs) := by
  obtain ⟨h, hall, R, hl, hfit⟩ := recordAll_medians init recordable medians
  obtain ⟨q, hmean, hq⟩ := hdrMean_medians R positive fits nonempty hfit
  have W := positive.weights nonempty
  refine ⟨h, q, hall, hmean, ?_⟩
  rw [hq, sampleMean, ← hl]
  calc |mean (sampleWeights rs) (sampleMedians h.toBucketLayout rs) -
        mean (sampleWeights rs) (sampleValues rs)|
      ≤ mean (sampleWeights rs)
        (fun i => |sampleMedians h.toBucketLayout rs i - sampleValues rs i|) :=
        abs_mean_sub_le W _ _
    _ ≤ mean (sampleWeights rs) (fun i => h.medianDistance (sampleValues rs i)) :=
        mean_mono W (sampleMedians_near R)
    _ = h.medianDistance (mean (sampleWeights rs) (sampleValues rs)) := by
        simp only [BucketLayout.medianDistance, div_eq_inv_mul, mean_add, mean_const W,
          mean_const_mul]

theorem hdrMean_accurate_sample : ∃ h q,
    sampleHistogram.recordAll [(100, 3), (40, 2)] = some h ∧ h.hdrMean = some q ∧
      |(q : ℝ) - 76| ≤ 19 / 5 := by
  obtain ⟨h, q, hall, hmean, hnear⟩ := hdrMean_accurate sampleHistogram_init
    (show ∀ r ∈ [(100, 3), (40, 2)], sampleHistogram.Recordable r.1 from
      List.forall_iff_forall_mem.mp (by decide +kernel))
    (List.forall_iff_forall_mem.mp (by decide +kernel)) (List.cons_ne_nil _ _) (by decide +kernel)
    (by decide +kernel)
  have hvalue : sampleMean [(100, 3), (40, 2)] = 76 := by
    refine (mean_samples _ fun r => r.1.toInt).trans ?_
    have h100 : (100 : Int64).toInt = 100 := by decide
    have h40 : (40 : Int64).toInt = 40 := by decide
    have h3 : (3 : Int64).toInt = 3 := by decide
    have h2 : (2 : Int64).toInt = 2 := by decide
    simp only [List.map_cons, List.map_nil, List.sum_cons, List.sum_nil, sumCounts, h100, h40, h3,
      h2]
    norm_num
  have hdistance : sampleHistogram.medianDistance 76 = 19 / 5 := by
    have hunit : sampleHistogram.unitMagnitude.toInt.toNat = 0 := by decide
    have hfigures : sampleHistogram.significantFigures.toInt.toNat = 1 := by decide
    rw [BucketLayout.medianDistance, hunit, hfigures]
    norm_num
  rw [hvalue, hdistance] at hnear
  exact ⟨h, q, hall, hmean, hnear⟩

/-- So is the standard deviation, at the quadratic mean of the samples. -/
theorem hdrStddev_accurate (init : hdrInit lowest highest figures = some (.ok h₀))
    (recordable : ∀ r ∈ rs, h₀.Recordable r.1) (positive : PositiveCounts rs) (nonempty : rs ≠ [])
    (fits : sumCounts rs < 2 ^ 63) (medians : (rs.map h₀.medianShare).sum < 2 ^ 63) :
    ∃ h s, h₀.recordAll rs = some h ∧ h.hdrStddev = some s ∧
      |s - sampleDeviation rs| ≤ h₀.medianDistance (sampleQuadraticMean rs) := by
  obtain ⟨h, hall, R, hl, hfit⟩ := recordAll_medians init recordable medians
  have W := positive.weights nonempty
  refine ⟨h, _, hall, hdrStddev_medians R positive fits nonempty hfit, ?_⟩
  rw [sampleDeviation, ← hl]
  calc |deviation (sampleWeights rs) (sampleMedians h.toBucketLayout rs) -
        deviation (sampleWeights rs) (sampleValues rs)|
      ≤ rootMeanSquare (sampleWeights rs)
        (fun i => sampleMedians h.toBucketLayout rs i - sampleValues rs i) :=
        abs_deviation_sub_le W _ _
    _ ≤ rootMeanSquare (sampleWeights rs) (fun i => h.medianDistance (sampleValues rs i)) :=
        rootMeanSquare_mono W (sampleMedians_near R)
    _ ≤ h.medianDistance (sampleQuadraticMean rs) := by
        refine (rootMeanSquare_add_le W _ _).trans (le_of_eq ?_)
        simp only [div_eq_inv_mul]
        rw [rootMeanSquare_const W (Nat.cast_nonneg _), rootMeanSquare_const_mul (by positivity),
          BucketLayout.medianDistance, sampleQuadraticMean, div_eq_inv_mul]

theorem hdrStddev_accurate_sample : ∃ h s,
    sampleHistogram.recordAll [(100, 3), (40, 2)] = some h ∧ h.hdrStddev = some s ∧
      |s - sampleDeviation [(100, 3), (40, 2)]| ≤
        sampleHistogram.medianDistance (sampleQuadraticMean [(100, 3), (40, 2)]) :=
  hdrStddev_accurate sampleHistogram_init (List.forall_iff_forall_mem.mp (by decide +kernel))
    (List.forall_iff_forall_mem.mp (by decide +kernel)) (List.cons_ne_nil _ _) (by decide +kernel)
    (by decide +kernel)

end Accuracy

end HdrHistogramC
