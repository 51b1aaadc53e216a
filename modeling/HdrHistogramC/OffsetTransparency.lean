import HdrHistogramC.BatchPercentile
import HdrHistogramC.ReadBack

/-!
# Whether the normalizing offset shows

Recording and the reading of single counts go through the rotation; the recomputed
counters, the percentile scan and the encoder read the array as it lies. They see the
same histogram only when the rotation leaves the array as it is, and the encoder, which
cuts the array off behind the largest value, only when nothing is cut off.
-/
namespace HdrHistogramC
open FixedWidth LogLinear BucketLayout.Describes

section Scan
variable {cs cs' : List Int64}

/-- Arrays with one total, of which every rank is found at one index, are equal. -/
theorem counts_eq_of_accumulate (A : Addable 0 cs) (A' : Addable 0 cs')
    (hlen : cs.length = cs'.length) (hsum : sumWords cs = sumWords cs')
    (hscan : ∀ t : Int64, 1 ≤ t.toInt → t.toInt ≤ sumWords cs →
      accumulate t 0 0 cs = accumulate t 0 0 cs') : cs = cs' := by
  have hreach : ∀ k, ∀ x : ℤ, 1 ≤ x → x ≤ sumWords cs →
      (x ≤ sumWords (cs.take k) ↔ x ≤ sumWords (cs'.take k)) := by
    intro k x h1 hx
    have hlt := A.lt
    rw [Int64.toInt_zero, zero_add] at hlt
    have hcast : (Int64.ofInt x).toInt = x := Int64.toInt_ofInt_of_le (by omega) (by omega)
    obtain ⟨i, -, hi, hik⟩ := accumulate_index A (t := Int64.ofInt x) (by omega) (by omega)
    obtain ⟨j, -, hj, hjk⟩ := accumulate_index A' (t := Int64.ofInt x) (by omega) (by omega)
    rw [hscan _ (by omega) (by omega), hj, BoundedLoop.Round.leave.injEq] at hi
    rw [← hcast, ← hik, ← hjk, hi]
  have htake : ∀ k, sumWords (cs.take k) = sumWords (cs'.take k) := by
    intro k
    have h0 := sumWords_nonneg fun c hm => A.nonneg c (List.mem_of_mem_take (i := k) hm)
    have h0' := sumWords_nonneg fun c hm => A'.nonneg c (List.mem_of_mem_take (i := k) hm)
    have hle : sumWords (cs.take k) ≤ sumWords cs := by
      have := sumWords_take_mono A.nonneg (Nat.le_max_left k cs.length)
      rwa [List.take_of_length_le (Nat.le_max_right k cs.length)] at this
    have hle' : sumWords (cs'.take k) ≤ sumWords cs' := by
      have := sumWords_take_mono A'.nonneg (Nat.le_max_left k cs'.length)
      rwa [List.take_of_length_le (Nat.le_max_right k cs'.length)] at this
    have hup := hreach k (sumWords (cs.take k))
    have hdown := hreach k (sumWords (cs'.take k))
    omega
  apply List.ext_getElem hlen
  intro n hn hn'
  have hnext := htake (n + 1)
  have hsplit : ∀ (xs : List Int64) (hx : n < xs.length),
      sumWords (xs.take (n + 1)) = sumWords (xs.take n) + xs[n].toInt := by
    intro xs hx
    rw [List.take_succ_eq_append_getElem hx, sumWords, List.map_append, List.sum_append]
    simp [sumWords]
  rw [hsplit cs hn, hsplit cs' hn', htake n] at hnext
  exact Int64.toInt_inj.mp (by omega)

end Scan

/-- The offset does not show: the histogram and the one that holds its counts in logical order,
under offset zero, agree in the recomputed counters, in every percentile afterwards, and in what
is read back after any recordings on both. -/
structure OffsetTransparent (countAt : ℚ → Int64 → Int64) (z : Zlib) (stack : ℕ → UInt8)
    (h : HdrHistogram) : Prop where
  total : h.withoutOffset.hdrResetInternalCounters.totalCount =
    h.hdrResetInternalCounters.totalCount
  min : h.withoutOffset.hdrResetInternalCounters.minValue = h.hdrResetInternalCounters.minValue
  max : h.withoutOffset.hdrResetInternalCounters.maxValue = h.hdrResetInternalCounters.maxValue
  percentiles : ∀ avx2 p,
    HdrHistogram.hdrValueAtPercentile countAt avx2 h.hdrResetInternalCounters p =
      HdrHistogram.hdrValueAtPercentile countAt avx2 h.withoutOffset.hdrResetInternalCounters p
  reencoded : ∀ rs, ∃ h₁ h₁' g g', h.hdrResetInternalCounters.recordAll rs = some h₁ ∧
    h.withoutOffset.hdrResetInternalCounters.recordAll rs = some h₁' ∧
    reencode z stack h₁ = some g ∧ reencode z stack h₁' = some g' ∧ Option.Rel SameCounts g g'

/-- The rotation leaves the array as it is, and its last count is positive. -/
def OffsetInvisible (h : HdrHistogram) : Prop :=
  h.normalizingIndexOffset = 0 ∨
    (h.logicalCounts = h.counts ∧ ∃ c, h.counts.getLast? = some c ∧ 0 < c)

section Transparent
variable {countAt : ℚ → Int64 → Int64} {z : Zlib} {stack : ℕ → UInt8} {h h₁ : HdrHistogram}
  {m : Multiset Sample}

theorem HdrHistogram.Normalised.reset (N : h.Normalised) : h.hdrResetInternalCounters.Normalised :=
  ⟨N.accepted, N.inside⟩

theorem reset_withoutOffset
    (htotal : h.withoutOffset.hdrResetInternalCounters.totalCount =
      h.hdrResetInternalCounters.totalCount)
    (hmin : h.withoutOffset.hdrResetInternalCounters.minValue =
      h.hdrResetInternalCounters.minValue)
    (hmax : h.withoutOffset.hdrResetInternalCounters.maxValue =
      h.hdrResetInternalCounters.maxValue) :
    h.withoutOffset.hdrResetInternalCounters = h.hdrResetInternalCounters.withoutOffset := by
  change HdrHistogram.mk _ _ _ _ _ _ _ _ = HdrHistogram.mk _ _ _ _ _ _ _ _
  simp only [HdrHistogram.mk.injEq]
  exact ⟨rfl, hmin, hmax, rfl, rfl, htotal, rfl⟩

theorem hdrValueAtPercentile_congr {a b : HdrHistogram}
    (hlayout : a.toBucketLayout = b.toBucketLayout) (hcounts : a.counts = b.counts)
    (htotal : a.totalCount = b.totalCount) (avx2 : Bool) (p : ℚ) :
    HdrHistogram.hdrValueAtPercentile countAt avx2 a p =
      HdrHistogram.hdrValueAtPercentile countAt avx2 b p := by
  unfold HdrHistogram.hdrValueAtPercentile HdrHistogram.getValueFromIdxUpToCount
    HdrHistogram.getValueFromIdxUpToCountAvx2 HdrHistogram.getValueFromIdxUpToCountScalar
  have hscan : ∀ r, a.valueOfScan r = b.valueOfScan r := by
    intro r
    cases r <;> simp only [HdrHistogram.valueOfScan, hlayout]
  simp only [hlayout, hcounts, htotal, hscan]

theorem Gathered.le_maxValue {base : HdrHistogram} (K : Collected base h m) :
    base.maxValue.toInt ≤ h.maxValue.toInt := by
  rw [K.max]
  generalize m.map Prod.fst = vs
  induction vs using Multiset.induction with
  | empty => exact le_rfl
  | cons v vs ih =>
      rw [Multiset.foldr_cons, raiseMax]
      split_ifs with hv
      · rw [gt_iff_lt, Int64.lt_iff_toInt_lt] at hv
        omega
      · exact ih

theorem maxValue_reset_nonneg (ok : h.Accepted) :
    0 ≤ h.hdrResetInternalCounters.maxValue.toInt := by
  obtain ⟨u, k, b, D⟩ := ok.describes
  obtain ⟨hnone, hsome⟩ := maxValue_reset D
  rcases (found_counts D).max with ⟨-, hempty⟩ | ⟨j, -, hj⟩
  · rw [hnone hempty]
    exact le_rfl
  · rw [hsome j hj]
    exact (index_highest D (positiveAt_lt D hj.1)).1

/-- The encoder writes all counts, whatever was recorded, when the last one is positive. -/
theorem encodable_last (ok : h.Accepted) (K : Collected h.hdrResetInternalCounters h₁ m)
    {c : Int64} (hc : h.counts.getLast? = some c) (hpos : 0 < c) :
    Encodable h₁ h₁.counts.length := by
  obtain ⟨u, k, b, D⟩ := ok.describes
  have hlen : h.counts.length = (b + 1) * 2 ^ k := counts_length_nat D
  have hlen₁ : h₁.counts.length = h.counts.length := K.length
  have hlast : IsGreatest (positiveAt h.counts) (h.counts.length - 1) :=
    ⟨⟨c, by rwa [← List.getLast?_eq_getElem?], hpos⟩, fun i hi => by
      have := lt_of_positiveAt hi
      omega⟩
  have hmem := positiveAt_lt D hlast.1
  obtain ⟨h0, hindex⟩ := index_highest D hmem
  have hle := K.le_maxValue
  rw [(maxValue_reset D).2 _ hlast] at hle
  have hmono := index_mono (u := u) (m := k) (Int.toNat_le_toNat hle)
  rw [hindex] at hmono
  have ok₁ : h₁.Accepted := by
    rw [K.layout]
    exact ok
  have D₁ : h₁.Describes u k b := by
    rw [K.layout]
    exact D
  have E := encodable_of_maxValue ok₁ D₁ (h0.trans hle)
  rwa [min_eq_right (by omega)] at E

/-- Nothing is cut off, so what is read back differs by the rotation. -/
theorem Encodable.sameCounts (E : Encodable h h.counts.length) (N : h.Normalised)
    (Z : z.RoundTrips) (stack : ℕ → UInt8) :
    ∃ g g', reencode z stack h = some g ∧ reencode z stack h.withoutOffset = some g' ∧
      Option.Rel SameCounts g g' := by
  have hperm := N.logicalCounts_perm
  have hlen := logicalCounts_length h
  have E' := E.withoutOffset
  by_cases F : SlotsFit h.counts.length h.counts
  · have F' := F.perm hperm.symm
    obtain ⟨g, hg, B⟩ := E.reencode_fit Z stack (by rwa [List.take_length])
    obtain ⟨g', hg', B'⟩ := E'.reencode_fit Z stack (by
      change SlotsFit h.logicalCounts.length (h.logicalCounts.take h.counts.length)
      rwa [← hlen, List.take_length, hlen])
    refine ⟨some g, some g', hg, hg', .some ((ReadsBack.sameCounts_iff N B B').mpr ?_)⟩
    intro k hk
    rw [← hlen] at F'
    have hfull := readBack_full F'
    rw [hlen] at hfull
    rw [readBack_full F, hfull, List.getElem?_map, List.getElem?_map, N.logicalCounts_eq,
      List.getElem?_rotate hk]
  · refine ⟨none, none, E.reencode_unfit Z stack (by rwa [List.take_length]),
      E'.reencode_unfit Z stack ?_, .none⟩
    change ¬ SlotsFit h.logicalCounts.length (h.logicalCounts.take h.counts.length)
    rw [← hlen, List.take_length, hlen]
    exact fun F' => F (F'.perm hperm)

theorem OffsetInvisible.transparent (V : OffsetInvisible h) (N : h.Normalised) (Z : z.RoundTrips) :
    OffsetTransparent countAt z stack h := by
  have hcounts : h.logicalCounts = h.counts := by
    rcases V with hz | ⟨hfix, -⟩
    · rw [N.logicalCounts_eq, rotation_of_zero hz, List.rotate_zero]
    · exact hfix
  have htotal : h.withoutOffset.hdrResetInternalCounters.totalCount =
      h.hdrResetInternalCounters.totalCount := by
    simp only [HdrHistogram.hdrResetInternalCounters, HdrHistogram.withoutOffset, hcounts]
  have hmin : h.withoutOffset.hdrResetInternalCounters.minValue =
      h.hdrResetInternalCounters.minValue := by
    simp only [HdrHistogram.hdrResetInternalCounters, HdrHistogram.withoutOffset, hcounts]
  have hmax : h.withoutOffset.hdrResetInternalCounters.maxValue =
      h.hdrResetInternalCounters.maxValue := by
    simp only [HdrHistogram.hdrResetInternalCounters, HdrHistogram.withoutOffset, hcounts]
  refine ⟨htotal, hmin, hmax, fun avx2 p => ?_, fun rs => ?_⟩
  · exact hdrValueAtPercentile_congr (a := h.hdrResetInternalCounters)
      (b := h.withoutOffset.hdrResetInternalCounters) rfl hcounts.symm htotal.symm avx2 p
  · obtain ⟨h₁, hall, hall', K⟩ := N.reset.recordAll_withoutOffset rs
    rw [reset_withoutOffset htotal hmin hmax]
    have N₁ := K.normalised N.reset
    rcases V with hz | ⟨-, c, hc, hpos⟩
    · obtain ⟨u, k, b, D⟩ := N₁.accepted.describes
      have E := encodable_of_maxValue N₁.accepted D
        ((maxValue_reset_nonneg N.accepted).trans K.le_maxValue)
      obtain ⟨g, hg⟩ := E.reencode_some Z stack
      have hself : h₁.withoutOffset = h₁ := N₁.withoutOffset_of_zero (K.offset.trans hz)
      refine ⟨h₁, h₁.withoutOffset, g, g, hall, hall', hg, by rw [hself, hg], ?_⟩
      cases g with
      | none => exact .none
      | some g => exact .some ⟨rfl, fun i _ _ => rfl⟩
    · obtain ⟨g, g', hg, hg', hsame⟩ := (encodable_last N.accepted K hc hpos).sameCounts N₁ Z stack
      exact ⟨h₁, h₁.withoutOffset, g, g', hall, hall', hg, hg', hsame⟩

end Transparent

/-- Every rank is the target of some percentile. -/
def RanksReached (countAt : ℚ → Int64 → Int64) (total : Int64) : Prop :=
  ∀ t : Int64, 1 ≤ t → t ≤ total → ∃ p : ℚ, p ≠ 0 ∧ countAt (requestedPercentile p) total = t

section Shows
variable {countAt : ℚ → Int64 → Int64} {z : Zlib} {stack : ℕ → UInt8} {h : HdrHistogram}

theorem totalCount_reset_eq (ok : h.Accepted) (nonneg : ∀ c ∈ h.counts, 0 ≤ c)
    (A : Addable 0 h.counts) :
    h.hdrResetInternalCounters.totalCount.toInt = sumWords h.counts := by
  have hmod := hdrResetInternalCounters_counts h nonneg ok
  have hlt := A.lt
  have h0 := sumWords_nonneg A.nonneg
  rw [Int64.toInt_zero, zero_add] at hlt
  exact eq_of_modEq64 hmod (Int64.le_toInt _) (Int64.toInt_lt _) (by omega) hlt

/-- A percentile that asks for rank `t` reports the cell at which the scan stops. -/
theorem hdrValueAtPercentile_rank {a : HdrHistogram} {p : ℚ} {t : Int64} (hp : p ≠ 0)
    (ht : 1 ≤ t.toInt) (htarget : countAt (requestedPercentile p) a.totalCount = t) :
    HdrHistogram.hdrValueAtPercentile countAt false a p =
      a.highestEquivalentValue (a.valueOfScan (accumulate t 0 0 a.counts)) := by
  have hpos : t > 0 := by
    rw [gt_iff_lt, Int64.lt_iff_toInt_lt, Int64.toInt_zero]
    omega
  rw [HdrHistogram.hdrValueAtPercentile, if_neg hp, htarget,
    HdrHistogram.getValueFromIdxUpToCount, if_pos hpos]
  rfl

theorem OffsetTransparent.logicalCounts_eq (T : OffsetTransparent countAt z stack h)
    (N : h.Normalised) (nonneg : ∀ c ∈ h.counts, 0 ≤ c) (A : Addable 0 h.counts)
    (ranks : RanksReached countAt h.hdrResetInternalCounters.totalCount) :
    h.logicalCounts = h.counts := by
  obtain ⟨u, m, b, D⟩ := N.accepted.describes
  have hlen := counts_length_nat D
  have hperm := N.logicalCounts_perm
  have hsum : sumWords h.counts = sumWords h.logicalCounts := ((hperm.map _).sum_eq).symm
  have A' : Addable 0 h.logicalCounts :=
    ⟨fun c hc => A.nonneg c (hperm.mem_iff.mp hc), A.running_nonneg, hsum ▸ A.lt⟩
  have htotal := totalCount_reset_eq N.accepted nonneg A
  refine (counts_eq_of_accumulate A A' (logicalCounts_length h).symm hsum fun t h1 ht => ?_).symm
  obtain ⟨p, hp, htarget⟩ := ranks t ((one_le_iff t).mpr h1)
    (by rw [Int64.le_iff_toInt_le]; omega)
  obtain ⟨i, hi, hscan, -⟩ := accumulate_index A h1 ht
  obtain ⟨j, hj, hscan', -⟩ := accumulate_index A' h1 (hsum ▸ ht)
  have hvalue := T.percentiles false p
  rw [hdrValueAtPercentile_rank hp h1 htarget,
    hdrValueAtPercentile_rank hp h1 (by rw [T.total]; exact htarget)] at hvalue
  change h.highestEquivalentValue (h.valueOfScan (accumulate t 0 0 h.counts)) =
    h.highestEquivalentValue (h.valueOfScan (accumulate t 0 0 h.logicalCounts)) at hvalue
  rw [logicalCounts_length] at hj
  rw [hscan, hscan', HdrHistogram.valueOfScan, HdrHistogram.valueOfScan] at hvalue
  have hij := (index_highest D (show i < _ by omega)).2
  rw [hvalue, (index_highest D (show j < _ by omega)).2] at hij
  rw [hscan, hscan', hij]

theorem rotation_pos (hz : h.normalizingIndexOffset ≠ 0)
    (above : -h.countsLen.toInt < h.normalizingIndexOffset.toInt)
    (below : h.normalizingIndexOffset.toInt < h.countsLen.toInt) :
    1 ≤ h.rotation ∧ h.rotation < h.counts.length := by
  have hlen := h.counts_length
  have hne : h.normalizingIndexOffset.toInt ≠ 0 := fun h0 =>
    hz (Int32.toInt_inj.mp (h0.trans Int32.toInt_zero.symm))
  have hpos := Int.emod_nonneg (-h.normalizingIndexOffset.toInt)
    (show (h.counts.length : ℤ) ≠ 0 by omega)
  have hlt := Int.emod_lt_of_pos (-h.normalizingIndexOffset.toInt)
    (show (0 : ℤ) < h.counts.length by omega)
  have hdvd : -h.normalizingIndexOffset.toInt % h.counts.length ≠ 0 := by
    intro hmod
    have := Int.eq_zero_of_abs_lt_dvd (Int.dvd_of_emod_eq_zero hmod) (by rw [abs_lt]; omega)
    omega
  unfold HdrHistogram.rotation
  omega

theorem encodable_reset_empty (ok : h.Accepted) (hempty : positiveAt h.counts = ∅) :
    Encodable h.hdrResetInternalCounters 1 := by
  obtain ⟨u, m, b, D⟩ := ok.describes
  have hlen : h.counts.length = (b + 1) * 2 ^ m := counts_length_nat D
  have hpos : 0 < (b + 1) * 2 ^ m := by positivity
  have E := encodable_of_maxValue (h := h.hdrResetInternalCounters) ok D
    (maxValue_reset_nonneg ok)
  rw [(maxValue_reset D).1 hempty] at E
  have hle : 1 ≤ h.hdrResetInternalCounters.counts.length := by
    change 1 ≤ h.counts.length
    omega
  rwa [Int64.toInt_zero, Int.toNat_zero, index_zero, zero_add, min_eq_left hle] at E

theorem encodable_reset_greatest (ok : h.Accepted) {M : ℕ}
    (hM : IsGreatest (positiveAt h.counts) M) : Encodable h.hdrResetInternalCounters (M + 1) := by
  obtain ⟨u, m, b, D⟩ := ok.describes
  have hlt := lt_of_positiveAt hM.1
  have E := encodable_of_maxValue (h := h.hdrResetInternalCounters) ok D
    (maxValue_reset_nonneg ok)
  rw [(maxValue_reset D).2 M hM, (index_highest D (positiveAt_lt D hM.1)).2] at E
  have hle : M + 1 ≤ h.hdrResetInternalCounters.counts.length := hlt
  rwa [min_eq_left hle] at E

/-- Zero is recorded at the rotated first cell, and at the first cell without the offset. -/
theorem OffsetTransparent.readBack_zero (T : OffsetTransparent countAt z stack h)
    (N : h.Normalised) (Z : z.RoundTrips) (hfix : h.logicalCounts = h.counts)
    (hrotation : h.rotation < h.counts.length) {n k : ℕ}
    (E : Encodable h.hdrResetInternalCounters n) (c : Int64) (hk : k < h.counts.length)
    (F : SlotsFit h.counts.length ((h.counts.modify h.rotation (· + c)).take n))
    (F' : SlotsFit h.counts.length ((h.counts.modify 0 (· + c)).take n)) :
    (readBack n (h.counts.modify h.rotation (· + c)))[(k + h.rotation) % h.counts.length]? =
      (readBack n (h.counts.modify 0 (· + c)))[k]? := by
  obtain ⟨u, m, b, D⟩ := N.accepted.describes
  have hzero : h.Recordable 0 := by
    have h₁ := D.lowest
    have h₂ := D.highest
    have hu : (0 : ℤ) < 2 ^ u := by positivity
    refine ⟨Int64.le_refl 0, ?_⟩
    rw [Int64.le_iff_toInt_le, Int64.toInt_zero]
    omega
  obtain ⟨h₁, h₁', g, g', hall, hall', hg, hg', hsame⟩ := T.reencoded [(0, c)]
  obtain ⟨h₂, hview, hview', hlayout, hoffset, hmax, hx, hy⟩ :=
    N.reset.recordZero hzero (maxValue_reset_nonneg N.accepted) hrotation c
  rw [reset_withoutOffset T.total T.min T.max, hview', Option.some.injEq] at hall'
  rw [hview, Option.some.injEq] at hall
  subst hall hall'
  have hx : h₂.counts = h.counts.modify h.rotation (· + c) := hx
  have hy : h₂.logicalCounts = h.counts.modify 0 (· + c) := hfix ▸ hy
  have hlen : h₂.counts.length = h.counts.length := by rw [hx, List.length_modify]
  have hrotation₂ : h₂.rotation = h.rotation := rotation_congr hlayout hoffset
  have E₂ : Encodable h₂ n := by
    refine ⟨by rw [hlayout]; exact N.accepted, ?_, E.pos, by rw [hlen]; exact E.le⟩
    unfold HdrHistogram.encodedCountsLimit
    rw [hlayout, hmax]
    exact E.limit
  obtain ⟨g₂, hg₂, B⟩ := E₂.reencode_fit Z stack (by rwa [hlen, hx])
  obtain ⟨g₂', hg₂', B'⟩ := E₂.withoutOffset.reencode_fit Z stack (by
    change SlotsFit h₂.logicalCounts.length (h₂.logicalCounts.take n)
    rwa [logicalCounts_length, hlen, hy])
  rw [hg₂, Option.some.injEq] at hg
  rw [hg₂', Option.some.injEq] at hg'
  subst hg hg'
  cases hsame with
  | some hsame =>
      have hat := (ReadsBack.sameCounts_iff (N.reset.congr hlayout hoffset) B B').mp hsame k
        (by omega)
      rwa [hrotation₂, hlen, hx, hy] at hat

theorem modify_add {cs : List Int64} {k : ℕ} {a : Int64} (hk : cs[k]? = some a) (c : Int64) :
    cs.modify k (· + c) = cs.set k (a + c) := by
  rw [List.modify_eq_set, hk]
  rfl

theorem OffsetTransparent.positiveAt_nonempty (T : OffsetTransparent countAt z stack h)
    (N : h.Normalised) (Z : z.RoundTrips) (hfix : h.logicalCounts = h.counts)
    (nonneg : ∀ c ∈ h.counts, 0 ≤ c) (h1 : 1 ≤ h.rotation)
    (hlt : h.rotation < h.counts.length) : positiveAt h.counts ≠ ∅ := by
  intro hempty
  have hzero : ∀ k < h.counts.length, h.counts[k]? = some 0 := by
    intro k hk
    have hmem : k ∉ positiveAt h.counts := by simp [hempty]
    have h0 := nonneg _ (List.getElem_mem hk)
    have hle : ¬ 0 < h.counts[k] := fun hpos => hmem ⟨_, List.getElem?_eq_getElem hk, hpos⟩
    rw [List.getElem?_eq_getElem hk, Option.some.injEq]
    exact Int64.le_antisymm (Int64.not_lt.mp hle) h0
  have hset : ∀ k < h.counts.length, h.counts.modify k (· + 1) = h.counts.set k 1 := fun k hk => by
    rw [modify_add (hzero k hk), Int64.zero_add]
  have hnonneg : ∀ k, ∀ c ∈ (h.counts.set k 1).take 1, 0 ≤ c := by
    intro k c hc
    rcases List.mem_or_eq_of_mem_set (List.mem_of_mem_take hc) with hc | rfl
    · exact nonneg c hc
    · decide
  have hfit : ∀ k < h.counts.length,
      SlotsFit h.counts.length ((h.counts.modify k (· + 1)).take 1) := fun k hk => by
    rw [hset k hk]
    exact slotsFit_of_nonneg (hnonneg k) (by rw [List.length_take]; omega)
  have hat := T.readBack_zero N Z hfix hlt (encodable_reset_empty N.accepted hempty) 1
    (show 0 < h.counts.length by omega) (hfit _ hlt) (hfit 0 (by omega))
  have hone : ∀ k, ((h.counts.set k 1).take 1).length = 1 := fun k => by
    rw [List.length_take, List.length_set]
    omega
  rw [hset _ hlt, hset 0 (by omega), zero_add, Nat.mod_eq_of_lt hlt, readBack, readBack,
    flatMap_slotsOf_of_nonneg (hnonneg _), flatMap_slotsOf_of_nonneg (hnonneg _),
    List.getElem?_append_right (by rw [hone]; omega),
    List.getElem?_append_left (by rw [hone]; omega),
    List.getElem?_replicate, if_pos (by rw [hone, List.length_set]; omega),
    List.getElem?_take_of_lt (by omega), List.getElem?_set_self (by omega)] at hat
  exact absurd hat (by decide)

theorem OffsetTransparent.greatest_eq (T : OffsetTransparent countAt z stack h)
    (N : h.Normalised) (Z : z.RoundTrips) (hfix : h.logicalCounts = h.counts)
    (nonneg : ∀ c ∈ h.counts, 0 ≤ c) (h1 : 1 ≤ h.rotation)
    (hlt : h.rotation < h.counts.length) {M : ℕ} (hM : IsGreatest (positiveAt h.counts) M) :
    M + 1 = h.counts.length := by
  by_contra hne
  have hMlt := lt_of_positiveAt hM.1
  have hcut : M + 1 < h.counts.length := by omega
  have hrotate : ∀ k < h.counts.length,
      h.counts[(k + h.rotation) % h.counts.length]? = h.counts[k]? := by
    intro k hk
    rw [← List.getElem?_rotate hk, ← N.logicalCounts_eq, hfix]
  -- the rotation takes the greatest cell back by its amount
  have hle : h.rotation ≤ M := by
    by_contra hgt
    have hback := hrotate (M + h.counts.length - h.rotation) (by omega)
    rw [Nat.sub_add_cancel (by omega), Nat.add_mod_right, Nat.mod_eq_of_lt hMlt] at hback
    obtain ⟨c, hc, hpos⟩ := hM.1
    have := hM.2 ⟨c, hback ▸ hc, hpos⟩
    omega
  obtain ⟨a, ha⟩ : ∃ a, h.counts[0]? = some a := ⟨_, List.getElem?_eq_getElem (by omega)⟩
  have ha' : h.counts[h.rotation]? = some a := by
    rw [← ha, ← hrotate 0 (by omega), zero_add, Nat.mod_eq_of_lt hlt]
  have hgap : a + (-2 - a) = -2 := by grind
  have hat := T.readBack_zero N Z hfix hlt (encodable_reset_greatest N.accepted hM) (-2 - a) hcut
    (by rw [modify_add ha', hgap]; exact slotsFit_gap nonneg hle hcut)
    (by rw [modify_add ha, hgap]; exact slotsFit_gap nonneg (Nat.zero_le M) hcut)
  rw [modify_add ha', modify_add ha, hgap,
    (readBack_gap nonneg (Nat.zero_le M) hcut).2.1 (by omega) le_rfl, Nat.add_sub_cancel] at hat
  obtain ⟨c, hc, hpos⟩ := hM.1
  rw [hc] at hat
  by_cases hwrap : M + 1 + h.rotation < h.counts.length
  · rw [Nat.mod_eq_of_lt hwrap, (readBack_gap nonneg hle hcut).2.2 (by omega) hwrap,
      Option.some.injEq] at hat
    rw [← hat] at hpos
    exact absurd hpos (by decide)
  · have hmod : (M + 1 + h.rotation) % h.counts.length =
        M + 1 + h.rotation - h.counts.length := by
      rw [Nat.mod_eq_sub_mod (by omega), Nat.mod_eq_of_lt (by omega)]
    rw [(readBack_gap nonneg hle hcut).1 (by omega), hrotate _ hcut] at hat
    have := hM.2 ⟨c, hat, hpos⟩
    omega

/-- A nonnegative array of an accepted layout with an offset smaller than its length: an invisible
offset does not show, and when the percentiles reach every rank any other offset does. -/
theorem offsetTransparent_iff (Z : z.RoundTrips) (ok : h.Accepted)
    (nonneg : ∀ c ∈ h.counts, 0 ≤ c) (fits : (h.counts.map Int64.toInt).sum < 2 ^ 63)
    (above : -h.countsLen.toInt < h.normalizingIndexOffset.toInt)
    (below : h.normalizingIndexOffset.toInt < h.countsLen.toInt) :
    (OffsetInvisible h → OffsetTransparent countAt z stack h) ∧
    (RanksReached countAt h.hdrResetInternalCounters.totalCount →
      OffsetTransparent countAt z stack h → OffsetInvisible h) := by
  obtain ⟨u, m, b, D⟩ := ok.describes
  have N : h.Normalised := ⟨ok, (normalised_iff D).mpr ⟨by omega, by omega⟩⟩
  have A : Addable 0 h.counts := addable_of_nonneg nonneg fits
  refine ⟨fun V => V.transparent N Z, fun ranks T => ?_⟩
  by_cases hz : h.normalizingIndexOffset = 0
  · exact .inl hz
  obtain ⟨h1, hlt⟩ := rotation_pos hz above below
  have hfix := T.logicalCounts_eq N nonneg A ranks
  rcases (found_counts D).max with ⟨-, hempty⟩ | ⟨M, -, hM⟩
  · exact absurd hempty (T.positiveAt_nonempty N Z hfix nonneg h1 hlt)
  · have hlast := T.greatest_eq N Z hfix nonneg h1 hlt hM
    obtain ⟨c, hc, hpos⟩ := hM.1
    refine .inr ⟨hfix, c, ?_, hpos⟩
    rw [List.getLast?_eq_getElem?, ← hlast, Nat.add_sub_cancel, hc]

end Shows

/-- Two equal halves, the offset of one half, and a positive last count. -/
def halvesSample : HdrHistogram where
  toBucketLayout := sampleLayout
  minValue := INT64_MAX
  maxValue := 0
  normalizingIndexOffset := 32
  conversionRatio := conversionRatioOne
  totalCount := 0
  counts := List.replicate 31 0 ++ [1] ++ List.replicate 31 0 ++ [1]
  counts_length := by decide

/-- One count, for the value `6`, in the cell before its own. -/
def shiftedSample : HdrHistogram where
  toBucketLayout := sampleLayout
  minValue := INT64_MAX
  maxValue := 0
  normalizingIndexOffset := 1
  conversionRatio := conversionRatioOne
  totalCount := 0
  counts := List.replicate 5 0 ++ [1] ++ List.replicate 58 0
  counts_length := by decide

theorem exactCountAt_ranks (total : Int64) : RanksReached exactCountAt total := by
  intro t h1 hle
  rw [one_le_iff] at h1
  rw [Int64.le_iff_toInt_le] at hle
  have h1q : (1 : ℚ) ≤ t.toInt := by exact_mod_cast h1
  have hleq : (t.toInt : ℚ) ≤ total.toInt := by exact_mod_cast hle
  have hpos : (0 : ℚ) < total.toInt := by linarith
  have hp : (100 * t.toInt / total.toInt : ℚ) ≤ 100 := by
    rw [div_le_iff₀ hpos]
    linarith
  refine ⟨100 * t.toInt / total.toInt, by positivity, ?_⟩
  have hrequested : requestedPercentile (100 * t.toInt / total.toInt) =
      100 * t.toInt / total.toInt := by
    rw [requestedPercentile]
    split_ifs with hlt
    · rfl
    · exact le_antisymm (not_lt.mp hlt) hp
  have hrank : (100 * t.toInt / total.toInt / 100 * total.toInt + 1 / 2 : ℚ) =
      t.toInt + 1 / 2 := by
    field_simp
  rw [hrequested, ← Int64.toInt_inj, (exactCountAt_toInt (by positivity) hp (by omega)).1, hrank,
    Int.floor_eq_iff]
  constructor <;> norm_num

theorem offsetTransparent_iff_sample :
    OffsetTransparent exactCountAt storedZlib (fun _ => 0) halvesSample ∧
      ¬ OffsetTransparent exactCountAt storedZlib (fun _ => 0) shiftedSample := by
  have ok := sampleHistogram_wellFormed.accepted
  constructor
  · refine (offsetTransparent_iff (h := halvesSample) storedZlib_roundTrips ok
      (List.forall_iff_forall_mem.mp (by decide +kernel)) (by decide +kernel) (by decide +kernel)
      (by decide +kernel)).1 (.inr ⟨by decide +kernel, 1, by decide +kernel, by decide⟩)
  · intro T
    have V := (offsetTransparent_iff (h := shiftedSample) storedZlib_roundTrips ok
      (List.forall_iff_forall_mem.mp (by decide +kernel)) (by decide +kernel) (by decide +kernel)
      (by decide +kernel)).2 (exactCountAt_ranks _) T
    rcases V with hz | ⟨hfix, -⟩
    · exact absurd hz (by decide)
    · exact absurd hfix (by decide +kernel)

/-- The recomputed maximum is `5`, and `6` without the offset. -/
theorem offsetTransparent_fails : shiftedSample.Accepted ∧ (∀ c ∈ shiftedSample.counts, 0 ≤ c) ∧
    (shiftedSample.counts.map Int64.toInt).sum = 1 ∧
    -shiftedSample.countsLen.toInt < shiftedSample.normalizingIndexOffset.toInt ∧
    shiftedSample.normalizingIndexOffset.toInt < shiftedSample.countsLen.toInt ∧
    shiftedSample.hdrResetInternalCounters.maxValue = 5 ∧
    shiftedSample.withoutOffset.hdrResetInternalCounters.maxValue = 6 ∧
    ∀ countAt z stack, ¬ OffsetTransparent countAt z stack shiftedSample := by
  have hmax : shiftedSample.hdrResetInternalCounters.maxValue = 5 := by decide +kernel
  have hmax' : shiftedSample.withoutOffset.hdrResetInternalCounters.maxValue = 6 := by
    decide +kernel
  refine ⟨sampleHistogram_wellFormed.accepted, List.forall_iff_forall_mem.mp (by decide +kernel),
    by decide +kernel, by decide +kernel, by decide +kernel, hmax, hmax', ?_⟩
  intro countAt z stack T
  have hsame := T.max
  rw [hmax, hmax'] at hsame
  exact absurd hsame (by decide)

end HdrHistogramC
