import HdrHistogramC.Histogram

/-!
# What a sequence of recordings leaves behind

`Represents h rs` says that the histogram is the result of recording the samples
`rs`, each a value with its count, into an empty histogram: the array and the
total hold the sums of the counts modulo `2^64`, and the two tracked extremes are
the extremes of the recorded values. One accepted recording appends one sample;
everything else the mutators do is a list of recordings.
-/
namespace HdrHistogramC
open FixedWidth LogLinear BucketLayout.Describes

/-- A value and how many times it is recorded. -/
abbrev Sample := Int64 × Int64

def BucketLayout.Recordable (h : BucketLayout) (v : Int64) : Prop :=
  0 ≤ v ∧ v ≤ h.highestTrackableValue

instance (h : BucketLayout) (v : Int64) : Decidable (h.Recordable v) := by
  unfold BucketLayout.Recordable; infer_instance

/-- The exact sum of all counts. -/
def sumCounts (rs : List Sample) : ℤ := (rs.map fun r => r.2.toInt).sum

/-- The exact sum of the counts of the samples whose index is `n`. -/
def sumCountsAt (h : BucketLayout) (rs : List Sample) (n : ℕ) : ℤ :=
  sumCounts (rs.filter fun r => (h.countsIndexFor r.1).toInt = n)

@[simp] theorem sumCounts_nil : sumCounts [] = 0 := rfl

@[simp] theorem sumCounts_cons (r : Sample) (rs : List Sample) :
    sumCounts (r :: rs) = r.2.toInt + sumCounts rs := by simp [sumCounts]

@[simp] theorem sumCounts_append (rs ss : List Sample) :
    sumCounts (rs ++ ss) = sumCounts rs + sumCounts ss := by simp [sumCounts]

@[simp] theorem sumCountsAt_nil (h : BucketLayout) (n : ℕ) : sumCountsAt h [] n = 0 := rfl

theorem sumCountsAt_cons (h : BucketLayout) (r : Sample) (rs : List Sample) (n : ℕ) :
    sumCountsAt h (r :: rs) n =
      (if (h.countsIndexFor r.1).toInt = n then r.2.toInt else 0) + sumCountsAt h rs n := by
  unfold sumCountsAt
  rw [List.filter_cons]
  split_ifs <;> simp_all

@[simp] theorem sumCountsAt_append (h : BucketLayout) (rs ss : List Sample) (n : ℕ) :
    sumCountsAt h (rs ++ ss) n = sumCountsAt h rs n + sumCountsAt h ss n := by
  simp [sumCountsAt]

/-- Every sample falls into exactly one cell of an array that covers its index. -/
theorem sum_sumCountsAt (h : BucketLayout) (rs : List Sample) (len : ℕ)
    (hi : ∀ r ∈ rs, ∃ n < len, (h.countsIndexFor r.1).toInt = (n : ℕ)) :
    ∑ n ∈ Finset.range len, sumCountsAt h rs n = sumCounts rs := by
  induction rs with
  | nil => simp
  | cons r rs ih =>
      obtain ⟨k, hk, hr⟩ := hi r (by simp)
      simp only [sumCountsAt_cons, Finset.sum_add_distrib, sumCounts_cons, hr, Int.natCast_inj]
      rw [ih fun s hs => hi s (by simp [hs]), Finset.sum_ite_eq, if_pos (by simpa using hk)]

section Access
variable {h : HdrHistogram} {u m b : ℕ} {i : Int32} {n : ℕ}

theorem counts_length_nat (D : h.Describes u m b) : h.counts.length = (b + 1) * 2 ^ m := by
  have hl := h.counts_length
  rw [D.countsLen_toInt] at hl
  exact_mod_cast hl

theorem countsGetDirect_eq (hi : i.toInt = n) : h.countsGetDirect i = h.counts[n]? := by
  have h0 : 0 ≤ i := by rw [Int32.le_iff_toInt_le, Int32.toInt_zero]; omega
  rw [HdrHistogram.countsGetDirect, if_pos h0, hi, Int.toNat_natCast]

theorem countsAdd_eq (hi : i.toInt = n) (hn : n < h.counts.length) (c : Int64) :
    h.countsAdd i c = some { h with
      counts := h.counts.modify n (· + c)
      counts_length := by rw [List.length_modify, h.counts_length] } := by
  obtain rfl : i.toInt.toNat = n := by omega
  have h0 : 0 ≤ i := by rw [Int32.le_iff_toInt_le, Int32.toInt_zero]; omega
  rw [HdrHistogram.countsAdd, if_pos ⟨h0, hn⟩]

end Access

/-- What one accepted recording changes. -/
structure Recorded (h : HdrHistogram) (v c : Int64) (h' : HdrHistogram) : Prop where
  layout : h'.toBucketLayout = h.toBucketLayout
  offset : h'.normalizingIndexOffset = h.normalizingIndexOffset
  ratio : h'.conversionRatio = h.conversionRatio
  total : h'.totalCount = h.totalCount + c
  counts : h'.counts = h.counts.modify (h.countsIndexFor v).toInt.toNat (· + c)
  max : h'.maxValue = if v > h.maxValue then v else h.maxValue
  min : h'.minValue = if v ≠ 0 ∧ v < h.minValue then v else h.minValue

section Record
variable {h h' : HdrHistogram} {u m b : ℕ} {v c : Int64}

theorem recordable_iff (l : BucketLayout) (v : Int64) :
    l.Recordable v ↔ ¬ (v < 0 ∨ l.highestTrackableValue < v) := by
  simp only [BucketLayout.Recordable, Int64.le_iff_toInt_le, Int64.lt_iff_toInt_lt]
  omega

theorem hdrRecordValues_reject (hv : ¬ h.Recordable v) :
    h.hdrRecordValues v c = some (false, h) := by
  rw [recordable_iff, not_not] at hv
  rw [HdrHistogram.hdrRecordValues, if_pos hv]

theorem not_countsLen_le (D : h.Describes u m b) (hv : h.Recordable v) :
    ¬ (h.countsIndexFor v).toUInt32 ≥ h.countsLen.toUInt32 := by
  have h0 := (nonneg_iff v).mp hv.1
  have hi := D.index_lt_countsLen h0 (Int64.le_iff_toInt_le.mp hv.2)
  have hidx := D.countsIndexFor_toInt h0
  have hlen := D.countsLen_toInt
  have e1 := toNat_toBitVec32 (a := h.countsIndexFor v) (by omega)
  have e2 := toNat_toBitVec32 (a := h.countsLen) (by omega)
  rw [ge_iff_le, UInt32.le_iff_toNat_le]
  change ¬ h.countsLen.toBitVec.toNat ≤ (h.countsIndexFor v).toBitVec.toNat
  omega

theorem updateMinMax_eq (h : HdrHistogram) (v : Int64) : h.updateMinMax v =
    { h with
      maxValue := if v > h.maxValue then v else h.maxValue
      minValue := if v ≠ 0 ∧ v < h.minValue then v else h.minValue } := by
  unfold HdrHistogram.updateMinMax
  by_cases hmax : v > h.maxValue <;> by_cases hmin : v ≠ 0 ∧ v < h.minValue
    <;> simp only [hmax, hmin, if_true, if_false, not_false_eq_true, ne_eq, and_self]

theorem hdrRecordValues_accept (D : h.Describes u m b) (off : h.normalizingIndexOffset = 0)
    (hv : h.Recordable v) (c : Int64) :
    ∃ h', h.hdrRecordValues v c = some (true, h') ∧ Recorded h v c h' := by
  have h0 := (nonneg_iff v).mp hv.1
  have hi := D.index_lt_countsLen h0 (Int64.le_iff_toInt_le.mp hv.2)
  have hidx := D.countsIndexFor_toInt h0
  have hadd := countsAdd_eq (h := h) hidx (by rwa [counts_length_nat D]) c
  have hguard := (recordable_iff h.toBucketLayout v).mp hv
  have hrec : h.hdrRecordValues v c = some (true, HdrHistogram.updateMinMax { h with
      counts := h.counts.modify (index u m v.toInt.toNat) (· + c)
      counts_length := by rw [List.length_modify, h.counts_length]
      totalCount := h.totalCount + c } v) := by
    unfold HdrHistogram.hdrRecordValues HdrHistogram.countsIncNormalised
    simp only [hguard, not_countsLen_le D hv, off, hadd, if_false, if_true, Option.map_some]
  refine ⟨_, hrec, ?_⟩
  rw [updateMinMax_eq]
  exact
    { layout := rfl
      offset := rfl
      ratio := rfl
      total := rfl
      counts := by rw [hidx, Int.toNat_natCast]
      max := rfl
      min := rfl }

/-- A recording is accepted exactly when the value is in the trackable range. -/
theorem hdrRecordValues_cases (D : h.Describes u m b) (off : h.normalizingIndexOffset = 0)
    (v c : Int64) :
    (h.Recordable v ∧ ∃ h', h.hdrRecordValues v c = some (true, h') ∧ Recorded h v c h') ∨
    (¬ h.Recordable v ∧ h.hdrRecordValues v c = some (false, h)) := by
  by_cases hv : h.Recordable v
  · exact .inl ⟨hv, hdrRecordValues_accept D off hv c⟩
  · exact .inr ⟨hv, hdrRecordValues_reject hv⟩

end Record

/-- The histogram after recording the samples `rs` into an empty one. -/
structure Represents (h : HdrHistogram) (rs : List Sample) : Prop where
  accepted : h.Accepted
  offset : h.normalizingIndexOffset = 0
  ratio : h.conversionRatio = conversionRatioOne
  recordable : ∀ r ∈ rs, h.Recordable r.1
  counts : ∀ (n : ℕ) (c : Int64), h.counts[n]? = some c →
    c.toInt ≡ sumCountsAt h.toBucketLayout rs n [ZMOD 2 ^ 64]
  total : h.totalCount.toInt ≡ sumCounts rs [ZMOD 2 ^ 64]
  le_max : ∀ r ∈ rs, r.1 ≤ h.maxValue
  max_mem : h.maxValue = 0 ∨ ∃ r ∈ rs, r.1 = h.maxValue
  min_le : ∀ r ∈ rs, r.1 ≠ 0 → h.minValue ≤ r.1
  min_mem : h.minValue = INT64_MAX ∨ ∃ r ∈ rs, r.1 ≠ 0 ∧ r.1 = h.minValue

theorem toInt_add_modEq (a b : Int64) : (a + b).toInt ≡ a.toInt + b.toInt [ZMOD 2 ^ 64] := by
  rw [Int64.toInt_add]
  exact Int.bmod_emod ..

theorem represents_empty {h : HdrHistogram} (ok : h.Accepted)
    (off : h.normalizingIndexOffset = 0) (ratio : h.conversionRatio = conversionRatioOne)
    (hc : ∀ c ∈ h.counts, c = 0) (ht : h.totalCount = 0) (hmax : h.maxValue = 0)
    (hmin : h.minValue = INT64_MAX) : Represents h [] where
  accepted := ok
  offset := off
  ratio := ratio
  recordable := by simp
  counts n c hn := by
    rw [hc c (List.mem_of_getElem? hn)]
    simp
  total := by rw [ht]; simp
  le_max := by simp
  max_mem := .inl hmax
  min_le := by simp
  min_mem := .inl hmin

theorem represents_hdrReset {h : HdrHistogram} {rs : List Sample} (R : Represents h rs) :
    Represents h.hdrReset [] :=
  represents_empty R.accepted R.offset R.ratio
    (fun _ hc => (List.mem_replicate.mp hc).2) rfl rfl rfl

theorem represents_hdrInit {lowest highest : Int64} {figures : Int32} {h : HdrHistogram}
    (hi : hdrInit lowest highest figures = some (.ok h)) : Represents h [] := by
  unfold hdrInit at hi
  split at hi
  · cases hi
  · cases hi
  next cfg hcfg =>
    unfold hdrCalloc at hi
    split_ifs at hi with hn
    · simp only [Option.some.injEq, Except.ok.injEq] at hi
      subst h
      exact represents_empty ⟨_, _, _, cfg, hcfg, rfl⟩ rfl rfl
        (fun _ hc => (List.mem_replicate.mp hc).2) rfl rfl rfl
    · cases hi

/-- An accepted layout is initialised again from its own parameters. -/
theorem hdrInit_of_accepted {h : HdrHistogram} (ok : h.Accepted) :
    ∃ g, hdrInit h.lowestDiscernibleValue h.highestTrackableValue h.significantFigures =
        some (.ok g) ∧ g.toBucketLayout = h.toBucketLayout ∧
      g.counts = List.replicate h.counts.length 0 := by
  obtain ⟨cfg, hcfg, hlayout⟩ := ok.config
  have hlen := h.counts_length
  have hl : h.countsLen = cfg.countsLen := congrArg BucketLayout.countsLen hlayout
  rw [hl] at hlen
  refine ⟨hdrInitPreallocated cfg ⟨List.replicate cfg.countsLen.toInt.toNat 0, by
    rw [List.length_replicate]; omega⟩, ?_, hlayout.symm, ?_⟩
  · simp only [hdrInit, hcfg, hdrCalloc, dif_pos (show 0 ≤ cfg.countsLen.toInt by omega)]
  · change List.replicate _ 0 = _
    congr 1
    omega

/-- The step lemma of all recording: one sample more. -/
theorem Represents.step {h h' : HdrHistogram} {rs : List Sample} {v c : Int64}
    (R : Represents h rs) (hv : h.Recordable v) (S : Recorded h v c h') :
    Represents h' (rs ++ [(v, c)]) := by
  obtain ⟨u, m, b, D⟩ := R.accepted.describes
  have h0 := (nonneg_iff v).mp hv.1
  refine ⟨by rw [S.layout]; exact R.accepted, by rw [S.offset, R.offset],
    by rw [S.ratio, R.ratio], ?_, ?_, ?_, ?_, ?_, ?_, ?_⟩
  · rw [S.layout]
    intro r hr
    rcases List.mem_append.mp hr with hr | hr
    · exact R.recordable r hr
    · rw [List.mem_singleton.mp hr]; exact hv
  · intro n c' hn
    rw [S.counts, List.getElem?_modify] at hn
    rw [S.layout, sumCountsAt_append, sumCountsAt_cons, sumCountsAt_nil, add_zero]
    obtain ⟨a, ha, rfl⟩ := Option.map_eq_some_iff.mp hn
    have hidx := D.countsIndexFor_toInt h0
    by_cases hk : (h.countsIndexFor v).toInt = n
    · have hk' : (h.countsIndexFor v).toInt.toNat = n := by omega
      rw [if_pos hk, if_pos hk']
      exact (toInt_add_modEq a c).trans ((R.counts n a ha).add_right _)
    · have hk' : (h.countsIndexFor v).toInt.toNat ≠ n := by omega
      rw [if_neg hk, if_neg hk', add_zero]
      exact R.counts n a ha
  · rw [S.total, sumCounts_append, sumCounts_cons, sumCounts_nil, add_zero]
    exact (toInt_add_modEq _ _).trans (R.total.add_right _)
  · intro r hr
    rw [S.max]
    rcases List.mem_append.mp hr with hr | hr
    · have hle := R.le_max r hr
      split_ifs with hgt
      · exact Int64.le_trans hle (Int64.le_of_lt hgt)
      · exact hle
    · rw [List.mem_singleton.mp hr]
      split_ifs with hgt
      · exact Int64.le_refl _
      · exact Int64.not_lt.mp hgt
  · rw [S.max]
    split_ifs with hgt
    · exact .inr ⟨(v, c), by simp, rfl⟩
    · rcases R.max_mem with hm | ⟨r, hr, hm⟩
      · exact .inl hm
      · exact .inr ⟨r, by simp [hr], hm⟩
  · intro r hr hne
    rw [S.min]
    rcases List.mem_append.mp hr with hr | hr
    · have hle := R.min_le r hr hne
      split_ifs with hlt
      · exact Int64.le_trans (Int64.le_of_lt hlt.2) hle
      · exact hle
    · rw [List.mem_singleton.mp hr] at hne ⊢
      split_ifs with hlt
      · exact Int64.le_refl _
      · exact Int64.not_lt.mp fun h => hlt ⟨hne, h⟩
  · rw [S.min]
    split_ifs with hlt
    · exact .inr ⟨(v, c), by simp, hlt.1, rfl⟩
    · rcases R.min_mem with hm | ⟨r, hr, hm⟩
      · exact .inl hm
      · exact .inr ⟨r, by simp [hr], hm⟩

/-- Recording samples one call after the other, whatever each call answers. -/
def HdrHistogram.recordAll (h : HdrHistogram) : List Sample → Option HdrHistogram
  | [] => some h
  | r :: rs =>
      match h.hdrRecordValues r.1 r.2 with
      | none => none
      | some (_, h) => h.recordAll rs

theorem Represents.recordAll {h : HdrHistogram} {rs ss : List Sample} (R : Represents h rs)
    (hs : ∀ r ∈ ss, h.Recordable r.1) :
    ∃ h', h.recordAll ss = some h' ∧ Represents h' (rs ++ ss) ∧
      h'.toBucketLayout = h.toBucketLayout := by
  induction ss generalizing h rs with
  | nil => exact ⟨h, rfl, by simpa using R, rfl⟩
  | cons r ss ih =>
      obtain ⟨u, m, b, D⟩ := R.accepted.describes
      have hr := hs r (by simp)
      obtain ⟨h₁, hrec, S⟩ := hdrRecordValues_accept D R.offset hr r.2
      obtain ⟨h₂, hall, R₂, hl⟩ := ih (R.step hr S) (by
        rw [S.layout]
        exact fun s hs' => hs s (by simp [hs']))
      refine ⟨h₂, ?_, by simpa using R₂, hl.trans S.layout⟩
      simp only [HdrHistogram.recordAll, hrec]
      exact hall

/-- The values `v`, `v - e`, `v - 2 * e` and so on, `k` of them. -/
def descending (v e : Int64) (k : ℕ) : List Int64 :=
  (List.range k).map fun i => v - Int64.ofNat i * e

/-- The values that a corrected recording of `v` stands for. -/
def correctedValues (v e : Int64) : List Int64 :=
  if e ≤ 0 ∨ v ≤ e then [v] else descending v e (v.toInt / e.toInt).toNat

def correctedSamples (v c e : Int64) : List Sample := (correctedValues v e).map fun x => (x, c)

theorem descending_succ (v e : Int64) (k : ℕ) :
    descending v e (k + 1) = v :: descending (v - e) e k := by
  unfold descending
  rw [List.range_succ_eq_map, List.map_cons, List.map_map]
  congr 1
  · simp
  · apply List.map_congr_left
    intro i _
    simp only [Function.comp, Nat.succ_eq_add_one, Int64.ofNat_add]
    grind

theorem toNat_ediv_step {x e : ℤ} (he : 0 < e) (hx : e ≤ x) :
    (x / e).toNat = ((x - e) / e).toNat + 1 := by
  have h := Int.add_ediv_of_dvd_right (a := x - e) (dvd_refl e)
  rw [Int.sub_add_cancel, Int.ediv_self (by omega)] at h
  have := Int.ediv_nonneg (show 0 ≤ x - e by omega) he.le
  omega

/-- The recorded value comes first, and the backfilled ones follow. -/
theorem correctedValues_eq (v e : Int64) : correctedValues v e = v :: if e ≤ 0 ∨ v ≤ e then []
    else descending (v - e) e ((v - e).toInt / e.toInt).toNat := by
  unfold correctedValues
  split_ifs with hearly
  · rfl
  · simp only [Int64.le_iff_toInt_le, Int64.toInt_zero] at hearly
    have hv := v.toInt_lt
    have hsub : (v - e).toInt = v.toInt - e.toInt := by rw [sub64] <;> omega
    rw [hsub, toNat_ediv_step (by omega) (by omega), descending_succ]

theorem mem_descending {v e x : Int64} (he : 0 < e.toInt)
    (hx : x ∈ descending v e (v.toInt / e.toInt).toNat) :
    e.toInt ≤ x.toInt ∧ x.toInt ≤ v.toInt := by
  obtain ⟨i, hi, rfl⟩ := List.mem_map.mp hx
  rw [List.mem_range] at hi
  have hv := v.toInt_lt
  have hmul : (i : ℤ) * e.toInt + e.toInt ≤ v.toInt := by
    have hdiv := Int.ediv_mul_le v.toInt (b := e.toInt) (by omega)
    have : ((i : ℤ) + 1) * e.toInt ≤ v.toInt / e.toInt * e.toInt :=
      mul_le_mul_of_nonneg_right (by omega) (by omega)
    linarith
  have hi0 : (0 : ℤ) ≤ i * e.toInt := by positivity
  have hilt : (i : ℤ) ≤ i * e.toInt := by nlinarith
  have hcast : (Int64.ofNat i).toInt = i := Int64.toInt_ofNat_of_lt (by omega)
  have hprod : (Int64.ofNat i * e).toInt = i * e.toInt := by
    rw [mul64] <;> rw [hcast] <;> omega
  rw [sub64] <;> rw [hprod] <;> omega

section Corrected
variable {h : HdrHistogram} {u m b : ℕ} {v c e : Int64}
open BoundedLoop

/-- Histograms of which every recordable value is accepted, which keeps them so. -/
def Accepting (I : HdrHistogram → Prop) (c : Int64) : Prop :=
  ∀ h v, I h → h.Recordable v →
    ∃ h', h.hdrRecordValues v c = some (true, h') ∧ I h' ∧ h'.toBucketLayout = h.toBucketLayout

theorem accepting_describes (u m b : ℕ) (c : Int64) :
    Accepting (fun h => h.Describes u m b ∧ h.normalizingIndexOffset = 0) c := by
  rintro h v ⟨D, off⟩ hv
  obtain ⟨h', hrec, S⟩ := hdrRecordValues_accept D off hv c
  exact ⟨h', hrec, ⟨by rw [S.layout]; exact D, by rw [S.offset, off]⟩, S.layout⟩

/-- The backfill loop records the descending values and cannot fail half-way. -/
theorem run_backfillBody {I : HdrHistogram → Prop} (A : Accepting I c) (hI : I h)
    (he : 0 < e.toInt) : ∀ (n : ℕ) (x : Int64), h.Recordable x → x.toInt < n →
    run (HdrHistogram.backfillBody c e) n (x, h) =
      (h.recordAll ((descending x e (x.toInt / e.toInt).toNat).map fun y => (y, c))).map
        fun h => (true, h) := by
  intro n
  induction n generalizing h with
  | zero =>
      intro x hx hn
      have := (nonneg_iff x).mp hx.1
      omega
  | succ n ih =>
      intro x hx hn
      have hx0 := (nonneg_iff x).mp hx.1
      by_cases hge : x ≥ e
      · have hge' := Int64.le_iff_toInt_le.mp hge
        have hlt := x.toInt_lt
        have hsub : (x - e).toInt = x.toInt - e.toInt := by rw [sub64] <;> omega
        obtain ⟨h₁, hrec, hI₁, hl⟩ := A h x hI hx
        have hk : (x.toInt / e.toInt).toNat = ((x - e).toInt / e.toInt).toNat + 1 := by
          rw [hsub, toNat_ediv_step he hge']
        have hbody : HdrHistogram.backfillBody c e (x, h) = some (.again (x - e, h₁)) := by
          simp only [HdrHistogram.backfillBody, if_pos hge, hrec]
        have hx' : h₁.Recordable (x - e) := by
          rw [hl]
          refine ⟨(nonneg_iff _).mpr (by omega), ?_⟩
          have := Int64.le_iff_toInt_le.mp hx.2
          rw [Int64.le_iff_toInt_le]
          omega
        rw [run_again hbody, ih hI₁ _ hx' (by omega), hk, descending_succ]
        simp only [List.map_cons, HdrHistogram.recordAll, hrec]
      · have hlt : x.toInt < e.toInt := by
          rw [ge_iff_le, Int64.le_iff_toInt_le] at hge
          omega
        have hbody : HdrHistogram.backfillBody c e (x, h) = some (.leave (true, h)) := by
          simp only [HdrHistogram.backfillBody, if_neg hge]
        rw [run_leave hbody, Int.ediv_eq_zero_of_lt hx0 hlt]
        rfl

theorem hdrRecordCorrectedValues_reject (hv : ¬ h.Recordable v) :
    h.hdrRecordCorrectedValues v c e = some (false, h) := by
  simp only [HdrHistogram.hdrRecordCorrectedValues, hdrRecordValues_reject hv]

/-- An accepted corrected recording is the recording of its values, all of which
are accepted. -/
theorem Accepting.correctedValues {I : HdrHistogram → Prop} (A : Accepting I c) (hI : I h)
    (hv : h.Recordable v) : h.hdrRecordCorrectedValues v c e =
      (h.recordAll (correctedSamples v c e)).map fun h => (true, h) := by
  have hv0 := (nonneg_iff v).mp hv.1
  have hlt := v.toInt_lt
  obtain ⟨h₁, hrec, hI₁, hl⟩ := A h v hI hv
  unfold HdrHistogram.hdrRecordCorrectedValues correctedSamples
  simp only [hrec, correctedValues_eq]
  by_cases hearly : e ≤ 0 ∨ v ≤ e
  · simp only [if_pos hearly, List.map_cons, List.map_nil, HdrHistogram.recordAll, hrec,
      Option.map_some]
  · have he : 0 < e.toInt ∧ e.toInt < v.toInt := by
      simp only [Int64.le_iff_toInt_le, Int64.toInt_zero] at hearly
      omega
    have hsub : (v - e).toInt = v.toInt - e.toInt := by rw [sub64] <;> omega
    have hv' : h₁.Recordable (v - e) := by
      rw [hl]
      refine ⟨(nonneg_iff _).mpr (by omega), ?_⟩
      have := Int64.le_iff_toInt_le.mp hv.2
      rw [Int64.le_iff_toInt_le]
      omega
    rw [if_neg hearly, if_neg hearly, run_backfillBody A hI₁ he.1 _ _ hv' (by omega)]
    simp only [List.map_cons, HdrHistogram.recordAll, hrec]

theorem hdrRecordCorrectedValues_accept (D : h.Describes u m b)
    (off : h.normalizingIndexOffset = 0) (hv : h.Recordable v) :
    h.hdrRecordCorrectedValues v c e =
      (h.recordAll (correctedSamples v c e)).map fun h => (true, h) :=
  (accepting_describes u m b c).correctedValues ⟨D, off⟩ hv

theorem correctedSamples_recordable (hv : h.Recordable v) :
    ∀ r ∈ correctedSamples v c e, h.Recordable r.1 := by
  intro r hr
  obtain ⟨x, hx, rfl⟩ := List.mem_map.mp hr
  unfold correctedValues at hx
  split_ifs at hx with hearly
  · rw [List.mem_singleton.mp hx]
    exact hv
  · simp only [Int64.le_iff_toInt_le, Int64.toInt_zero] at hearly
    have hle := mem_descending (by omega) hx
    have hhi := Int64.le_iff_toInt_le.mp hv.2
    refine ⟨(nonneg_iff _).mpr (by dsimp only; omega), ?_⟩
    rw [Int64.le_iff_toInt_le]
    dsimp only
    omega

end Corrected

end HdrHistogramC
