import HdrHistogramC.Merging
import HdrHistogramC.RoundTrip

/-!
# Holding samples

A merge records the value that stands for a bucket, and decoding recomputes the extremes, so
afterwards a histogram has recorded none of the samples that it holds. What recordings, merges and
decoding keep is the count of every bucket, and the buckets of the extremes.
-/
namespace HdrHistogramC
open FixedWidth LogLinear BucketLayout.Describes

/-- Samples that a histogram of the layout can hold. -/
structure Admissible (l : BucketLayout) (ss : List Sample) : Prop where
  recordable : ∀ r ∈ ss, l.Recordable r.1
  positive : PositiveCounts ss
  fits : sumCounts ss < 2 ^ 63

def BucketLayout.slot (l : BucketLayout) (v : Int64) : ℕ := (l.countsIndexFor v).toInt.toNat

/-- The tracked maximum is in the last bucket with a count. -/
structure TopTracked (l : BucketLayout) (maxValue : Int64) (ss : List Sample) : Prop where
  nonneg : 0 ≤ maxValue
  mem : maxValue = 0 ∨ 0 < sumCountsAt l ss (l.slot maxValue)
  le : ∀ n, 0 < sumCountsAt l ss n → n ≤ l.slot maxValue

/-- The tracked minimum is in the first bucket with a count, apart from that of zero. -/
structure BottomTracked (l : BucketLayout) (minValue : Int64) (ss : List Sample) : Prop where
  mem : minValue = INT64_MAX ∨
    l.Recordable minValue ∧ 0 < l.slot minValue ∧ 0 < sumCountsAt l ss (l.slot minValue)
  le : ∀ n, 0 < n → 0 < sumCountsAt l ss n → minValue ≠ INT64_MAX ∧ l.slot minValue ≤ n

/-- The first bucket holds zero alone, and no value is the sentinel of the minimum. -/
def BucketLayout.Fine (l : BucketLayout) : Prop :=
  l.unitMagnitude = 0 ∧ l.highestTrackableValue ≠ INT64_MAX

/-- The histogram holds the samples, if not under the values that they were recorded with. -/
structure Aggregates (l : BucketLayout) (h : HdrHistogram) (ss : List Sample) : Prop where
  layout : h.toBucketLayout = l
  offset : h.normalizingIndexOffset = 0
  ratio : h.conversionRatio = conversionRatioOne
  counts : ∀ (n : ℕ) (c : Int64), h.counts[n]? = some c → c.toInt = sumCountsAt l ss n
  total : h.totalCount.toInt = sumCounts ss
  top : TopTracked l h.maxValue ss
  bottom : l.Fine → BottomTracked l h.minValue ss

section Slots
variable {l : BucketLayout} {u m b : ℕ} {v w : Int64} {ss : List Sample}

theorem slot_eq (D : l.Describes u m b) (hv : 0 ≤ v) : l.slot v = index u m v.toInt.toNat := by
  rw [BucketLayout.slot, D.countsIndexFor_toInt ((nonneg_iff v).mp hv), Int.toNat_natCast]

theorem slot_mono (D : l.Describes u m b) (hv : 0 ≤ v) (hle : v ≤ w) : l.slot v ≤ l.slot w := by
  rw [slot_eq D hv, slot_eq D (Int64.le_trans hv hle)]
  exact index_mono (Int.toNat_le_toNat (Int64.le_iff_toInt_le.mp hle))

theorem slot_zero (D : l.Describes u m b) : l.slot 0 = 0 := by
  rw [slot_eq D (Int64.le_refl 0), Int64.toInt_zero, Int.toNat_zero, index_zero]

theorem BucketLayout.Fine.slot_pos (F : l.Fine) (D : l.Describes u m b) (hv : 0 ≤ v)
    (hne : v ≠ 0) : 0 < l.slot v := by
  have hu := D.unitMagnitude
  rw [F.1, Int32.toInt_zero] at hu
  obtain rfl : u = 0 := by omega
  have h0 := (nonneg_iff v).mp hv
  have hpos : v.toInt ≠ 0 := fun hz => hne (Int64.toInt_inj.mp (hz.trans Int64.toInt_zero.symm))
  rw [slot_eq D hv, Nat.pos_iff_ne_zero, Ne, index_eq_zero_iff, pow_zero]
  omega

theorem sumCountsAt_concat (D : l.Describes u m b) (hv : l.Recordable v) (ss : List Sample)
    (c : Int64) (n : ℕ) : sumCountsAt l (ss ++ [(v, c)]) n =
      sumCountsAt l ss n + if l.slot v = n then c.toInt else 0 := by
  have h0 := D.countsIndexFor_toInt ((nonneg_iff v).mp hv.1)
  simp only [sumCountsAt_append, sumCountsAt_cons, sumCountsAt_nil, add_zero, slot_eq D hv.1, h0,
    Nat.cast_inj]

theorem PositiveCounts.sumCountsAt_nonneg (P : PositiveCounts ss) (l : BucketLayout) (n : ℕ) :
    0 ≤ sumCountsAt l ss n :=
  (sumCountsAt_le l (fun r hr => by have := P r hr; omega) n).1

theorem sumCountsAt_slot (D : l.Describes u m b) (P : PositiveCounts ss)
    (hs : ∀ r ∈ ss, l.Recordable r.1) (n : ℕ) :
    0 < sumCountsAt l ss n ↔ ∃ r ∈ ss, l.slot r.1 = n := by
  rw [sumCountsAt_pos_iff l P]
  refine exists_congr fun r => and_congr_right fun hr => ?_
  rw [slot_eq D (hs r hr).1, D.countsIndexFor_toInt ((nonneg_iff _).mp (hs r hr).1), Nat.cast_inj]

end Slots

theorem PositiveCounts.sum_nonneg {ss : List Sample} (P : PositiveCounts ss) :
    0 ≤ sumCounts ss :=
  sumCounts_nonneg fun r hr => by have := P r hr; omega

section Tracking
variable {l : BucketLayout} {u m b : ℕ} {v c x y : Int64} {ss : List Sample}

theorem TopTracked.record (T : TopTracked l x ss) (D : l.Describes u m b) (hv : l.Recordable v)
    (hc : 1 ≤ c.toInt) (P : PositiveCounts ss) :
    TopTracked l (if v > x then v else x) (ss ++ [(v, c)]) := by
  have hsum := sumCountsAt_concat D hv ss c
  have h0 := P.sumCountsAt_nonneg l
  by_cases hlt : v > x
  · rw [if_pos hlt]
    refine ⟨hv.1, .inr ?_, fun n hn => ?_⟩
    · rw [hsum, if_pos rfl]
      have := h0 (l.slot v)
      omega
    · rw [hsum] at hn
      have hmono := slot_mono D T.nonneg (Int64.le_of_lt hlt)
      split_ifs at hn with heq
      · omega
      · exact (T.le n (by omega)).trans hmono
  · rw [if_neg hlt]
    refine ⟨T.nonneg, T.mem.imp_right fun hpos => ?_, fun n hn => ?_⟩
    · rw [hsum]
      split_ifs <;> omega
    · rw [hsum] at hn
      split_ifs at hn with heq
      · rw [← heq]
        exact slot_mono D hv.1 (Int64.not_lt.mp hlt)
      · exact T.le n (by omega)

/-- The samples determine the bucket of the maximum. -/
theorem TopTracked.slot_le (T : TopTracked l x ss) (T' : TopTracked l y ss)
    (D : l.Describes u m b) : l.slot x ≤ l.slot y := by
  rcases T.mem with rfl | hpos
  · rw [slot_zero D]
    exact Nat.zero_le _
  · exact T'.le _ hpos

theorem BottomTracked.record (T : BottomTracked l x ss) (D : l.Describes u m b) (F : l.Fine)
    (hv : l.Recordable v) (hc : 1 ≤ c.toInt) (P : PositiveCounts ss) :
    BottomTracked l (if v ≠ 0 ∧ v < x then v else x) (ss ++ [(v, c)]) := by
  have hsum := sumCountsAt_concat D hv ss c
  have h0 := P.sumCountsAt_nonneg l
  by_cases hlt : v ≠ 0 ∧ v < x
  · rw [if_pos hlt]
    have hsentinel : v ≠ INT64_MAX := fun he => by
      have hle := Int64.le_maxValue x
      rw [he] at hlt
      exact absurd hlt.2 (Int64.not_lt.mpr hle)
    refine ⟨.inr ⟨hv, F.slot_pos D hv.1 hlt.1, ?_⟩, fun n hn hpos => ⟨hsentinel, ?_⟩⟩
    · rw [hsum, if_pos rfl]
      have := h0 (l.slot v)
      omega
    · rw [hsum] at hpos
      split_ifs at hpos with heq
      · exact heq.le
      · obtain ⟨hne, hle⟩ := T.le n hn (by omega)
        obtain ⟨hx, -⟩ := T.mem.resolve_left hne
        exact (slot_mono D hv.1 (Int64.le_of_lt hlt.2)).trans hle
  · rw [if_neg hlt]
    refine ⟨T.mem.imp_right ?_, fun n hn hpos => ?_⟩
    · rintro ⟨hx, hpos, hat⟩
      refine ⟨hx, hpos, ?_⟩
      rw [hsum]
      split_ifs <;> omega
    · rw [hsum] at hpos
      split_ifs at hpos with heq
      · have hle : x ≤ v := by
          refine Int64.not_lt.mp fun h => hlt ⟨fun hz => ?_, h⟩
          rw [hz, slot_zero D] at heq
          omega
        -- the sentinel is above every value that can be recorded
        have hne : x ≠ INT64_MAX := fun he => by
          rw [he] at hle
          exact F.2 (Int64.le_antisymm (Int64.le_maxValue _) (Int64.le_trans hle hv.2))
        obtain ⟨hx, -⟩ := T.mem.resolve_left hne
        exact ⟨hne, heq ▸ slot_mono D hx.1 hle⟩
      · exact T.le n hn (by omega)

/-- The samples determine the bucket of the minimum, and whether there is one. -/
theorem BottomTracked.unique (T : BottomTracked l x ss) (T' : BottomTracked l y ss) :
    (x = INT64_MAX ↔ y = INT64_MAX) ∧ (x ≠ INT64_MAX → l.slot x = l.slot y) := by
  rcases T.mem with hx | ⟨-, hpos, hat⟩ <;> rcases T'.mem with hy | ⟨-, hpos', hat'⟩
  · exact ⟨iff_of_true hx hy, fun hne => absurd hx hne⟩
  · exact absurd hx (T.le _ hpos' hat').1
  · exact absurd hy (T'.le _ hpos hat).1
  · obtain ⟨hx, hle⟩ := T.le _ hpos' hat'
    obtain ⟨hy, hle'⟩ := T'.le _ hpos hat
    exact ⟨iff_of_false hx hy, fun _ => Nat.le_antisymm hle hle'⟩

end Tracking

/-- Lists of samples that fill the buckets of a layout alike. -/
structure SameCells (l : BucketLayout) (rs ss : List Sample) : Prop where
  at_index : ∀ n : ℕ, sumCountsAt l rs n = sumCountsAt l ss n
  sum : sumCounts rs = sumCounts ss

theorem SameCells.append_left {l : BucketLayout} {rs ss : List Sample} (S : SameCells l rs ss)
    (ts : List Sample) : SameCells l (ts ++ rs) (ts ++ ss) where
  at_index n := by rw [sumCountsAt_append, sumCountsAt_append, S.at_index]
  sum := by rw [sumCounts_append, sumCounts_append, S.sum]

section Invariant
variable {l : BucketLayout} {h h' g : HdrHistogram} {u m b : ℕ} {v c : Int64}
  {rs ss ts : List Sample}

theorem Aggregates.congr (A : Aggregates l h ss) (S : SameCells l ss ts) : Aggregates l h ts where
  layout := A.layout
  offset := A.offset
  ratio := A.ratio
  counts n c hc := (A.counts n c hc).trans (S.at_index n)
  total := A.total.trans S.sum
  top := ⟨A.top.nonneg, by rw [← S.at_index]; exact A.top.mem,
    fun n hn => A.top.le n (by rwa [S.at_index])⟩
  bottom F := ⟨by rw [← S.at_index]; exact (A.bottom F).mem,
    fun n h0 hn => (A.bottom F).le n h0 (by rwa [S.at_index])⟩

theorem Represents.aggregates (R : Represents h rs) (P : PositiveCounts rs)
    (fits : sumCounts rs < 2 ^ 63) : Aggregates h.toBucketLayout h rs := by
  obtain ⟨u, m, b, D⟩ := R.accepted.describes
  have B := P.bounded fits
  refine ⟨rfl, R.offset, R.ratio, fun n c hc => R.count_eq B hc, R.total_eq B,
    ⟨(nonneg_iff _).mpr (maxValue_nonneg R), ?_, ?_⟩, fun F => ⟨?_, ?_⟩⟩
  · refine R.max_mem.imp_right ?_
    rintro ⟨r, hr, he⟩
    exact (sumCountsAt_slot D P R.recordable _).mpr ⟨r, hr, by rw [he]⟩
  · intro n hn
    obtain ⟨r, hr, rfl⟩ := (sumCountsAt_slot D P R.recordable n).mp hn
    exact slot_mono D (R.recordable r hr).1 (R.le_max r hr)
  · refine R.min_mem.imp_right ?_
    rintro ⟨r, hr, hne, he⟩
    rw [← he]
    exact ⟨R.recordable r hr, F.slot_pos D (R.recordable r hr).1 hne,
      (sumCountsAt_slot D P R.recordable _).mpr ⟨r, hr, rfl⟩⟩
  · intro n h0 hn
    obtain ⟨r, hr, rfl⟩ := (sumCountsAt_slot D P R.recordable n).mp hn
    have hne : r.1 ≠ 0 := fun hz => by
      rw [hz, slot_zero D] at h0
      exact absurd h0 (Nat.lt_irrefl 0)
    have hle := R.min_le r hr hne
    have hsentinel : h.minValue ≠ INT64_MAX := fun he => by
      rw [he] at hle
      exact F.2 (Int64.le_antisymm (Int64.le_maxValue _)
        (Int64.le_trans hle (R.recordable r hr).2))
    refine ⟨hsentinel, ?_⟩
    obtain ⟨s, hs, -, he⟩ := R.min_mem.resolve_left hsentinel
    rw [← he] at hle ⊢
    exact slot_mono D (R.recordable s hs).1 hle

/-- The step lemma. -/
theorem Aggregates.record (A : Aggregates l h ss) (D : l.Describes u m b) (P : PositiveCounts ss)
    (hv : l.Recordable v) (hc : 1 ≤ c.toInt) (fits : sumCounts ss + c.toInt < 2 ^ 63)
    (S : Recorded h v c h') : Aggregates l h' (ss ++ [(v, c)]) := by
  have hnat : (h.countsIndexFor v).toInt.toNat = l.slot v := by rw [A.layout]; rfl
  refine ⟨S.layout.trans A.layout, S.offset.trans A.offset, S.ratio.trans A.ratio, ?_, ?_, ?_, ?_⟩
  · intro n c' hc'
    rw [S.counts, hnat, List.getElem?_modify] at hc'
    obtain ⟨a, ha, rfl⟩ := Option.map_eq_some_iff.mp hc'
    have hcount := A.counts n a ha
    have hle := sumCountsAt_le l (fun r hr => by have := P r hr; omega) n
    rw [sumCountsAt_concat D hv]
    split_ifs
    · rw [add64] <;> omega
    · rw [add_zero]
      exact hcount
  · have hsum := P.sum_nonneg
    rw [S.total, sumCounts_append, sumCounts_cons, sumCounts_nil, add_zero, ← A.total]
    have htotal := A.total
    rw [add64] <;> omega
  · rw [S.max]
    exact A.top.record D hv hc P
  · intro F
    rw [S.min]
    exact (A.bottom F).record D F hv hc P

/-- The run lemma. -/
theorem Aggregates.recordAll (A : Aggregates l h ss) (D : l.Describes u m b)
    (S : Admissible l (ss ++ rs)) :
    ∃ h', h.recordAll rs = some h' ∧ Aggregates l h' (ss ++ rs) := by
  induction rs generalizing h ss with
  | nil => exact ⟨h, rfl, by rwa [List.append_nil]⟩
  | cons r rs ih =>
      have hr : l.Recordable r.1 := S.recordable r (by simp)
      have hc := S.positive r (by simp)
      have D' : h.Describes u m b := by rwa [A.layout]
      have hsplit : ss ++ r :: rs = ss ++ [r] ++ rs := by rw [List.append_assoc]; rfl
      have P : PositiveCounts ss := fun t ht => S.positive t (List.mem_append_left _ ht)
      have P' : PositiveCounts rs := fun t ht =>
        S.positive t (List.mem_append_right _ (List.mem_cons_of_mem _ ht))
      have hsum := S.fits
      rw [sumCounts_append, sumCounts_cons] at hsum
      have hrest := P'.sum_nonneg
      obtain ⟨h₁, hrec, R⟩ := hdrRecordValues_accept D' A.offset (by rwa [A.layout]) r.2
      rw [hsplit] at S ⊢
      obtain ⟨h₂, hall, A₂⟩ := ih (A.record D P hr hc (by omega) R) S
      exact ⟨h₂, by simp only [HdrHistogram.recordAll, hrec, hall], A₂⟩

theorem Admissible.left (S : Admissible l (ss ++ ts)) : Admissible l ss where
  recordable r hr := S.recordable r (List.mem_append_left _ hr)
  positive r hr := S.positive r (List.mem_append_left _ hr)
  fits := by
    have P : PositiveCounts ts := fun r hr => S.positive r (List.mem_append_right _ hr)
    have hsum := P.sum_nonneg
    have hfits := S.fits
    rw [sumCounts_append] at hfits
    omega

theorem Admissible.right (S : Admissible l (ss ++ ts)) : Admissible l ts where
  recordable r hr := S.recordable r (List.mem_append_right _ hr)
  positive r hr := S.positive r (List.mem_append_right _ hr)
  fits := by
    have P : PositiveCounts ss := fun r hr => S.positive r (List.mem_append_left _ hr)
    have hsum := P.sum_nonneg
    have hfits := S.fits
    rw [sumCounts_append] at hfits
    omega

theorem Admissible.index_lt (S : Admissible l ss) (D : l.Describes u m b) :
    ∀ r ∈ ss, ∃ n < (b + 1) * 2 ^ m, (l.countsIndexFor r.1).toInt = (n : ℕ) := by
  intro r hr
  have hv := S.recordable r hr
  have h0 := (nonneg_iff r.1).mp hv.1
  exact ⟨_, D.index_lt_countsLen h0 (Int64.le_iff_toInt_le.mp hv.2), D.countsIndexFor_toInt h0⟩

theorem Aggregates.wellFormed (A : Aggregates l h ss) (ok : l.Accepted) (S : Admissible l ss) :
    h.WellFormed := by
  obtain ⟨u, m, b, D⟩ := ok.describes
  have D' : h.Describes u m b := by rwa [A.layout]
  have hlen := D'.countsLen_toInt
  refine ⟨by rwa [A.layout], ?_, ?_, ?_⟩
  · rw [normalised_iff D', A.offset, hlen, Int32.toInt_zero]
    omega
  · intro c hc
    obtain ⟨n, hn⟩ := List.mem_iff_getElem?.mp hc
    rw [nonneg_iff, A.counts n c hn]
    exact S.positive.sumCountsAt_nonneg l n
  · rw [A.total, sum_eq_of_getElem _ _ A.counts, counts_length_nat D',
      sum_sumCountsAt _ _ _ (S.index_lt D)]

theorem Aggregates.sumCountsAt_recordedSamples (A : Aggregates l h ss) (ok : l.Accepted)
    (S : Admissible l ss) (n : ℕ) :
    sumCountsAt l h.recordedSamples n = sumCountsAt l ss n := by
  obtain ⟨u, m, b, D⟩ := ok.describes
  have D' : h.Describes u m b := by rwa [A.layout]
  have W := A.wellFormed ok S
  have hlen := counts_length_nat D'
  have hindex : ∀ i : Fin h.counts.length,
      (l.countsIndexFor (h.bucketValue i)).toInt = ((i : ℕ) : ℤ) := by
    intro i
    have hcast := ofNat_index W.accepted i.isLt.le
    rw [HdrHistogram.bucketValue, ← A.layout, D'.countsIndexFor_hdrValueAtIndex hcast (by omega),
      hcast]
  have hsum : sumCountsAt l h.recordedSamples n =
      ∑ i : Fin h.counts.length, if (i : ℕ) = n then h.counts[i].toInt else 0 := by
    rw [sumCountsAt, sumCounts, sum_filter_ite,
      sum_recordedSamples W.accepted A.offset _ fun v => by simp]
    refine Finset.sum_congr rfl fun i _ => ?_
    simp only [hindex, Nat.cast_inj]
  rw [hsum]
  by_cases hn : n < h.counts.length
  · rw [Finset.sum_eq_single ⟨n, hn⟩ (fun i _ hi => if_neg fun he => hi (Fin.ext he))
      fun hmem => absurd (Finset.mem_univ _) hmem, if_pos rfl]
    exact A.counts n _ (List.getElem?_eq_getElem hn)
  · -- no sample has an index outside of the array
    rw [Finset.sum_eq_zero fun i _ => if_neg (by omega)]
    refine (sumCountsAt_eq_zero fun r hr => ?_).symm
    obtain ⟨k, hk, he⟩ := S.index_lt D r hr
    omega

theorem Admissible.hdrValueAtIndex (S : Admissible l ss) (D : l.Describes u m b) {n : ℕ}
    (hn : 0 < sumCountsAt l ss n) : l.Recordable (l.hdrValueAtIndex (Int32.ofNat n)) ∧
      l.slot (l.hdrValueAtIndex (Int32.ofNat n)) = n ∧ n < (b + 1) * 2 ^ m := by
  obtain ⟨s, hs, rfl⟩ := (sumCountsAt_slot D S.positive S.recordable n).mp hn
  have hv := S.recordable s hs
  have hle := Int64.le_iff_toInt_le.mp hv.2
  have h0 := (nonneg_iff s.1).mp hv.1
  have hlt := D.index_lt_countsLen h0 hle
  have hlen := D.countsLen_lt
  have hlow := lower_index_le (u := u) (m := m) s.1.toInt.toNat
  rw [slot_eq D hv.1]
  have hcast : (Int32.ofNat (index u m s.1.toInt.toNat)).toInt = index u m s.1.toInt.toNat :=
    Int32.toInt_ofNat_of_lt (by omega)
  have hval := D.hdrValueAtIndex_toInt hcast hlt
  -- the value of the bucket is not above the sample
  have hpos : 0 ≤ l.hdrValueAtIndex (Int32.ofNat (index u m s.1.toInt.toNat)) := by
    rw [nonneg_iff, hval]
    exact Int.natCast_nonneg _
  refine ⟨⟨hpos, ?_⟩, ?_, hlt⟩
  · rw [Int64.le_iff_toInt_le, hval]
    omega
  · rw [slot_eq D hpos, hval, Int.toNat_natCast, index_lower]

theorem Aggregates.recordedSamples_recordable (A : Aggregates l h ss) (ok : l.Accepted)
    (S : Admissible l ss) : ∀ r ∈ h.recordedSamples, l.Recordable r.1 := by
  obtain ⟨u, m, b, D⟩ := ok.describes
  have W := A.wellFormed ok S
  intro r hr
  obtain ⟨hmem, hne⟩ := List.mem_filter.mp hr
  obtain ⟨i, hi, rfl⟩ := List.mem_map.mp hmem
  rw [List.mem_range] at hi
  have hc := List.getElem?_eq_getElem hi
  have hne : h.counts[i].toInt ≠ 0 := by
    rw [HdrHistogram.countsGetNormalised, HdrHistogram.normalizeIndex, if_pos A.offset,
      countsGetDirect_eq (ofNat_index W.accepted hi.le), hc] at hne
    rw [← Int64.toInt_zero, Ne, Int64.toInt_inj]
    exact of_decide_eq_true hne
  have hpos := S.positive.sumCountsAt_nonneg l i
  rw [A.counts i _ hc] at hne
  have hval := (S.hdrValueAtIndex D (show 0 < sumCountsAt l ss i by omega)).1
  rwa [← A.layout] at hval ⊢

theorem recordedSamples_positive (W : h.WellFormed) : PositiveCounts h.recordedSamples := by
  intro r hr
  have h0 := recordedSamples_nonneg W r hr
  have hne : r.2.toInt ≠ 0 := by
    rw [← Int64.toInt_zero, Ne, Int64.toInt_inj]
    exact of_decide_eq_true (List.mem_filter.mp hr).2
  omega

theorem droppedFrom_zero (hs : ∀ r ∈ rs, l.Recordable r.1) (d : Int64) :
    droppedFrom l d rs = d := by
  induction rs with
  | nil => rfl
  | cons r rs ih =>
      rw [droppedFrom, List.foldl_cons, if_pos (hs r (by simp))]
      exact ih fun t ht => hs t (List.mem_cons_of_mem _ ht)

/-- A merge of two histograms of one configuration drops nothing. -/
theorem Aggregates.add (A : Aggregates l h ss) (A' : Aggregates l g ts) (ok : l.Accepted)
    (S : Admissible l (ss ++ ts)) :
    ∃ h', h.hdrAdd g = some (0, h') ∧ Aggregates l h' (ss ++ ts) := by
  obtain ⟨u, m, b, D⟩ := ok.describes
  have D' : h.Describes u m b := by rwa [A.layout]
  have W := A'.wellFormed ok S.right
  have hrecordable := A'.recordedSamples_recordable ok S.right
  have C : SameCells l g.recordedSamples ts :=
    ⟨A'.sumCountsAt_recordedSamples ok S.right, by rw [sumCounts_recordedSamples W, A'.total]⟩
  have S' : Admissible l (ss ++ g.recordedSamples) :=
    ⟨List.forall_mem_append.mpr ⟨S.left.recordable, hrecordable⟩,
      List.forall_mem_append.mpr ⟨S.left.positive, recordedSamples_positive W⟩,
      by rw [(C.append_left ss).sum]; exact S.fits⟩
  obtain ⟨h', hall, A₂⟩ := A.recordAll D S'
  refine ⟨h', ?_, A₂.congr (C.append_left ss)⟩
  rw [hdrAdd_eq D' A.offset W, hall, A.layout, droppedFrom_zero hrecordable]
  rfl

end Invariant

section Decoding
variable {l : BucketLayout} {h g : HdrHistogram} {u m b : ℕ} {ss ts : List Sample}

theorem mem_positiveAt_counts (D : l.Describes u m b) (S : Admissible l ss)
    (hl : h.toBucketLayout = l)
    (hcounts : ∀ (n : ℕ) (c : Int64), h.counts[n]? = some c → c.toInt = sumCountsAt l ss n)
    (n : ℕ) : n ∈ positiveAt h.counts ↔ 0 < sumCountsAt l ss n := by
  have D' : h.Describes u m b := by rwa [hl]
  constructor
  · rintro ⟨c, hc, hpos⟩
    rwa [Int64.lt_iff_toInt_lt, Int64.toInt_zero, hcounts n c hc] at hpos
  · intro hpos
    obtain ⟨r, hr, hslot⟩ := (sumCountsAt_pos_iff l S.positive n).mp hpos
    obtain ⟨k, hk, he⟩ := S.index_lt D r hr
    have hlt : n < h.counts.length := by
      rw [counts_length_nat D']
      omega
    have hc := List.getElem?_eq_getElem hlt
    refine ⟨_, hc, ?_⟩
    rwa [Int64.lt_iff_toInt_lt, Int64.toInt_zero, hcounts n _ hc]

theorem minValue_reset (D : h.Describes u m b) :
    (positiveAt h.counts \ {0} = ∅ → h.hdrResetInternalCounters.minValue = INT64_MAX) ∧
    ∀ i, IsLeast (positiveAt h.counts \ {0}) i → h.hdrResetInternalCounters.minValue =
      h.hdrValueAtIndex (Int32.ofNat i) := by
  have hlen := D.countsLen_lt
  have F := (found_counts D).min
  constructor
  · intro hempty
    have hm := F.eq_neg_one (fun i hi => hi.1) hempty
    simp only [HdrHistogram.hdrResetInternalCounters, hm, if_true]
  · intro i hi
    obtain ⟨hm, hm'⟩ := F.eq_of (fun i hi => by have := positiveAt_lt D hi.1; omega)
      (fun i hi => hi.1) (fun i k hi hk => hi.unique hk) hi
    rw [hm'] at hm
    simp only [HdrHistogram.hdrResetInternalCounters, hm', hm, if_false]

/-- Recomputing the counters of an array that holds the samples. -/
theorem aggregates_reset (ok : l.Accepted) (S : Admissible l ss) (hl : h.toBucketLayout = l)
    (off : h.normalizingIndexOffset = 0) (hratio : h.conversionRatio = conversionRatioOne)
    (hcounts : ∀ (n : ℕ) (c : Int64), h.counts[n]? = some c → c.toInt = sumCountsAt l ss n) :
    Aggregates l h.hdrResetInternalCounters ss := by
  obtain ⟨u, m, b, D⟩ := ok.describes
  have D' : h.Describes u m b := by rwa [hl]
  have hmem := mem_positiveAt_counts D S hl hcounts
  have hnonneg : ∀ c ∈ h.counts, 0 ≤ c := by
    intro c hc
    obtain ⟨n, hn⟩ := List.mem_iff_getElem?.mp hc
    rw [nonneg_iff, hcounts n c hn]
    exact S.positive.sumCountsAt_nonneg l n
  refine ⟨hl, off, hratio, hcounts, ?_, ?_, fun F => ?_⟩
  · have hreset := hdrResetInternalCounters_counts h hnonneg (by rwa [hl])
    rw [sum_eq_of_getElem _ _ hcounts, counts_length_nat D', sum_sumCountsAt _ _ _ (S.index_lt D)]
      at hreset
    have hsum := S.positive.sum_nonneg
    have hfits := S.fits
    exact eq_of_modEq64 hreset (Int64.le_toInt _) (Int64.toInt_lt _) (by omega) (by omega)
  · obtain ⟨hnone, hsome⟩ := maxValue_reset D'
    rcases (found_counts D').max with ⟨-, hempty⟩ | ⟨j, -, hj⟩
    · rw [hnone hempty]
      refine ⟨Int64.le_refl 0, .inl rfl, fun n hn => ?_⟩
      rw [← hmem, hempty] at hn
      exact hn.elim
    · have hlt := positiveAt_lt D' hj.1
      obtain ⟨h0, hindex⟩ := index_highest D' hlt
      rw [hl] at h0 hindex
      rw [hsome j hj, hl]
      have hslot : l.slot (l.highestEquivalentValue (l.hdrValueAtIndex (Int32.ofNat j))) = j := by
        rw [slot_eq D ((nonneg_iff _).mpr h0), hindex]
      refine ⟨(nonneg_iff _).mpr h0, .inr ?_, fun n hn => ?_⟩
      · rw [hslot]
        exact (hmem j).mp hj.1
      · rw [hslot]
        exact hj.2 ((hmem n).mpr hn)
  · obtain ⟨hnone, hsome⟩ := minValue_reset D'
    rcases (found_counts D').min with ⟨-, hempty⟩ | ⟨i, -, hi⟩
    · rw [hnone hempty]
      refine ⟨.inl rfl, fun n h0 hn => ?_⟩
      have hn : n ∈ positiveAt h.counts \ {0} := ⟨(hmem n).mpr hn, by simp; omega⟩
      rw [hempty] at hn
      exact hn.elim
    · have hat := (hmem i).mp hi.1.1
      obtain ⟨hv, hslot, -⟩ := S.hdrValueAtIndex D hat
      rw [hsome i hi, hl]
      refine ⟨.inr ⟨hv, ?_, ?_⟩, fun n h0 hn => ⟨?_, ?_⟩⟩
      · rw [hslot]
        exact Nat.pos_of_ne_zero hi.1.2
      · rwa [hslot]
      · exact fun he => F.2 (Int64.le_antisymm (Int64.le_maxValue _) (he ▸ hv.2))
      · rw [hslot]
        exact hi.2 ⟨(hmem n).mpr hn, by simp; omega⟩

theorem Aggregates.encodable (A : Aggregates l h ss) (ok : l.Accepted) (S : Admissible l ss) :
    ∃ n, Encodable h n ∧ h.counts.drop n = List.replicate (h.counts.length - n) 0 := by
  obtain ⟨u, m, b, D⟩ := ok.describes
  have D' : h.Describes u m b := by rwa [A.layout]
  have hmax := A.top.nonneg
  refine ⟨_, encodable_of_maxValue (by rwa [A.layout]) D' ((nonneg_iff _).mp hmax), ?_⟩
  rw [← slot_eq D' hmax, List.eq_replicate_iff]
  refine ⟨List.length_drop, fun c hc => ?_⟩
  obtain ⟨k, hk⟩ := List.mem_iff_getElem?.mp hc
  rw [List.getElem?_drop] at hk
  have hlt := (List.getElem?_eq_some_iff.mp hk).1
  have hslot : h.slot h.maxValue = l.slot h.maxValue := by rw [A.layout]
  have hle := A.top.le (min (h.slot h.maxValue + 1) h.counts.length + k)
  have h0 := S.positive.sumCountsAt_nonneg l (min (h.slot h.maxValue + 1) h.counts.length + k)
  rw [← Int64.toInt_inj, Int64.toInt_zero, A.counts _ c hk]
  omega

theorem Aggregates.logDecode {z : Zlib} (A : Aggregates l h ss) (ok : l.Accepted)
    (S : Admissible l ss) (Z : z.RoundTrips) (stack : ℕ → UInt8) :
    ∃ text g, h.hdrLogEncode z = some (.ok text) ∧ Aggregates l g ss ∧
      ∀ target, hdrLogDecode z stack text target = handOver target (.ok g) := by
  obtain ⟨n, E, hdrop⟩ := A.encodable ok S
  obtain ⟨data, hc, henc⟩ := hdrEncodeCompressed_eq Z E
  have hne : compressedBytes data ≠ [] := by
    rw [← List.length_pos_iff, compressedBytes, List.length_append,
      CompressionFlyweight.bytes_length, SIZEOF_COMPRESSION_FLYWEIGHT]
    omega
  obtain ⟨text, htext, hbytes⟩ := hdrBase64Decode_encode hne
  have h0 : ∀ c ∈ h.counts.take n, 0 ≤ c :=
    fun c hc => (A.wellFormed ok S).nonneg c (List.mem_of_mem_take hc)
  obtain ⟨g, T, hdec⟩ := E.decode_fit Z stack (slotsFit_of_nonneg h0 (List.length_take_le' ..)) hc
    (show (List.replicate ((3 - (compressedBytes data).length % 3) % 3) 0).length < 3 by
      rw [List.length_replicate]; omega)
  rw [flatMap_slotsOf_of_nonneg h0, List.length_take_of_le E.le, ← hdrop,
    List.take_append_drop] at T
  refine ⟨text, _, by simp only [HdrHistogram.hdrLogEncode, henc, htext],
    aggregates_reset (h := { g with
      normalizingIndexOffset := h.normalizingIndexOffset
      conversionRatio := h.conversionRatio }) ok S (T.layout.trans A.layout) A.offset A.ratio
      fun n c hn => A.counts n c (T.counts ▸ hn), fun target => ?_⟩
  simp only [hdrLogDecode, hbytes, hdrDecodeCompressed_compressedBytes, hdec, Option.bind_some]

end Decoding

end HdrHistogramC
