import HdrHistogramC.Gathering

/-!
# Merging histograms

A merge walks the recorded values of the source and records each, plainly or corrected for
coordinated omission, in the target. The bucket map of the target alone decides where a
sample goes and whether it is dropped; the layout of the source decides the values only.
-/
namespace HdrHistogramC
open FixedWidth LogLinear BucketLayout.Describes

/-- A way of recording an entry of the source that records the samples `expand` names. -/
structure Records (base : HdrHistogram) (expand : Sample → List Sample)
    (record : HdrHistogram → Int64 → Int64 → Option (Bool × HdrHistogram)) : Prop where
  accept : ∀ (h : HdrHistogram) (m : Multiset Sample) (r : Sample), Collected base h m →
    base.Recordable r.1 →
    ∃ h', record h r.1 r.2 = some (true, h') ∧ Collected base h' (expand r + m)
  reject : ∀ (h : HdrHistogram) (m : Multiset Sample) (r : Sample), Collected base h m →
    ¬ base.Recordable r.1 → record h r.1 r.2 = some (false, h)

/-- The samples that a merge records. -/
def mergedSamples (l : BucketLayout) (expand : Sample → List Sample) (rs : List Sample) :
    List Sample :=
  (rs.filter fun r => l.Recordable r.1).flatMap expand

section Merge
variable {base h source : HdrHistogram} {m : Multiset Sample} {c e : Int64}
  {expand : Sample → List Sample}
  {record : HdrHistogram → Int64 → Int64 → Option (Bool × HdrHistogram)}

theorem records_values (N : base.Normalised) :
    Records base (fun r => [r]) HdrHistogram.hdrRecordValues where
  accept _ _ r K hr := K.record N hr r.2
  reject _ _ r K hr := K.reject hr r.2

/-- A corrected recording in the trackable range records its values, in any order. -/
theorem Gathered.corrected (K : Collected base h m) (N : base.Normalised) {v : Int64}
    (hv : base.Recordable v) (c e : Int64) :
    ∃ h', h.hdrRecordCorrectedValues v c e = some (true, h') ∧
      Collected base h' (correctedSamples v c e + m) := by
  obtain ⟨h', hall, K'⟩ := K.recordAll N (correctedSamples_recordable (c := c) (e := e) hv)
  refine ⟨h', ?_, K'⟩
  rw [(accepting_collected N c).correctedValues ⟨m, K⟩ (by rwa [K.layout]), hall]
  rfl

theorem records_corrected (N : base.Normalised) (e : Int64) :
    Records base (fun r => correctedSamples r.1 r.2 e)
      fun h value count => h.hdrRecordCorrectedValues value count e where
  accept _ _ r K hr := K.corrected N hr r.2 e
  reject _ _ _ K hr := hdrRecordCorrectedValues_reject (by rwa [K.layout])

/-- The run lemma of merges. -/
theorem Records.mergeAll (R : Records base expand record) (K : Collected base h m)
    (rs : List Sample) (d : Int64) :
    ∃ h', mergeAll record rs (d, h) = some (droppedFrom base.toBucketLayout d rs, h') ∧
      Collected base h' (mergedSamples base.toBucketLayout expand rs + m) := by
  induction rs generalizing h m d with
  | nil => exact ⟨h, rfl, by simpa [mergedSamples] using K⟩
  | cons r rs ih =>
      by_cases hr : base.Recordable r.1
      · obtain ⟨h₁, hrec, K₁⟩ := R.accept h m r K hr
        obtain ⟨h₂, hall, K₂⟩ := ih K₁ d
        refine ⟨h₂, ?_, ?_⟩
        · simp only [HdrHistogramC.mergeAll, hrec, if_true, hall, droppedFrom, List.foldl_cons,
            if_pos hr]
        · rw [← add_assoc, add_comm (Multiset.ofList (mergedSamples ..)), Multiset.coe_add] at K₂
          rwa [mergedSamples, List.filter_cons, if_pos (by simpa using hr), List.flatMap_cons]
      · obtain ⟨h₂, hall, K₂⟩ := ih K (d + r.2)
        refine ⟨h₂, ?_, ?_⟩
        · simp only [HdrHistogramC.mergeAll, R.reject h m r K hr, Bool.false_eq_true, if_false,
            hall, droppedFrom, List.foldl_cons, if_neg hr]
        · rwa [mergedSamples, List.filter_cons, if_neg (by simpa using hr)]

/-- The counts of the samples that a layout cannot record. -/
def droppedCounts (l : BucketLayout) (rs : List Sample) : ℤ :=
  sumCounts (rs.filter fun r => ¬ l.Recordable r.1)

theorem sumCounts_filter (p : Sample → Bool) (rs : List Sample) :
    sumCounts (rs.filter p) + sumCounts (rs.filter fun r => !p r) = sumCounts rs := by
  induction rs with
  | nil => rfl
  | cons r rs ih =>
      rw [List.filter_cons, List.filter_cons]
      cases p r <;> simp only [Bool.not_true, Bool.not_false, if_true, sumCounts_cons,
        Bool.false_eq_true, if_false] <;> omega

theorem droppedFrom_toInt (l : BucketLayout) {rs : List Sample} {d : Int64}
    (hd : 0 ≤ d.toInt) (hr : ∀ r ∈ rs, 0 ≤ r.2.toInt) (hsum : d.toInt + sumCounts rs < 2 ^ 63) :
    (droppedFrom l d rs).toInt = d.toInt + droppedCounts l rs := by
  induction rs generalizing d with
  | nil => simp [droppedFrom, droppedCounts]
  | cons r rs ih =>
      have h0 := hr r (by simp)
      have hrest := sumCounts_nonneg fun s hs => hr s (List.mem_cons_of_mem r hs)
      rw [sumCounts_cons] at hsum
      have ih' := @ih
      simp only [droppedFrom, droppedCounts, List.foldl_cons, List.filter_cons] at ih' ⊢
      by_cases hv : l.Recordable r.1
      · simp only [hv, if_true, not_true, decide_false, Bool.false_eq_true, if_false]
        exact ih' hd (fun s hs => hr s (by simp [hs])) (by omega)
      · have hadd : (d + r.2).toInt = d.toInt + r.2.toInt := by
          have := d.le_toInt
          rw [add64] <;> omega
        simp only [hv, if_false, not_false_eq_true, decide_true, if_true, sumCounts_cons]
        rw [ih' (by omega) (fun s hs => hr s (by simp [hs])) (by omega), hadd]
        omega

end Merge

/-- The value that stands for bucket `i`. -/
def HdrHistogram.bucketValue (h : HdrHistogram) (i : Fin h.counts.length) : Int64 :=
  h.hdrValueAtIndex (Int32.ofNat i)

section Entries
variable {source : HdrHistogram}

theorem bucketValue_nonneg (ok : source.Accepted) (i : Fin source.counts.length) :
    0 ≤ source.bucketValue i := by
  obtain ⟨u, k, b, D⟩ := ok.describes
  have hlen := counts_length_nat D
  rw [nonneg_iff, HdrHistogram.bucketValue,
    D.hdrValueAtIndex_toInt (ofNat_index ok i.isLt.le) (by omega)]
  omega

theorem recordable_bucketValue (ok : source.Accepted) (l : BucketLayout)
    (i : Fin source.counts.length) :
    l.Recordable (source.bucketValue i) ↔ source.bucketValue i ≤ l.highestTrackableValue :=
  ⟨fun h => h.2, fun h => ⟨bucketValue_nonneg ok i, h⟩⟩

theorem sum_recordedSamples (ok : source.Accepted) (off : source.normalizingIndexOffset = 0)
    (f : Sample → ℤ) (hf : ∀ v, f (v, 0) = 0) :
    (source.recordedSamples.map f).sum =
      ∑ i : Fin source.counts.length, f (source.bucketValue i, source.counts[i]) := by
  obtain ⟨u, k, b, D⟩ := ok.describes
  have hlen := counts_length_nat D
  rw [HdrHistogram.recordedSamples, sum_filter_nonzero f hf, HdrHistogram.entries, List.map_map]
  change ∑ i ∈ Finset.range _, _ = _
  rw [Finset.sum_range]
  refine Finset.sum_congr rfl fun i _ => ?_
  have hget : source.countsGetNormalised (Int32.ofNat i) = some source.counts[i] := by
    rw [HdrHistogram.countsGetNormalised, HdrHistogram.normalizeIndex, if_pos off,
      countsGetDirect_eq (ofNat_index ok i.isLt.le)]
    exact List.getElem?_eq_getElem i.isLt
  rw [Function.comp, hget]
  rfl

theorem sum_filter_ite (p : Sample → Prop) [DecidablePred p] (f : Sample → ℤ)
    (rs : List Sample) :
    ((rs.filter fun r => p r).map f).sum = (rs.map fun r => if p r then f r else 0).sum := by
  induction rs with
  | nil => rfl
  | cons r rs ih =>
      rw [List.filter_cons]
      by_cases hr : p r <;> simp [hr, ih]

/-- What a merge returns: the counts of the buckets whose value is out of range. -/
theorem droppedCounts_recordedSamples (ok : source.Accepted)
    (off : source.normalizingIndexOffset = 0) (l : BucketLayout) :
    droppedCounts l source.recordedSamples =
      ∑ i : Fin source.counts.length with l.highestTrackableValue < source.bucketValue i,
        source.counts[i].toInt := by
  rw [droppedCounts, sumCounts, sum_filter_ite, sum_recordedSamples ok off _ (fun v => by simp),
    Finset.sum_filter]
  refine Finset.sum_congr rfl fun i _ => ?_
  simp only [recordable_bucketValue ok, Int64.not_le]

theorem droppedFrom_recordedSamples (S : source.WellFormed)
    (off : source.normalizingIndexOffset = 0) (l : BucketLayout) :
    (droppedFrom l 0 source.recordedSamples).toInt =
      ∑ i : Fin source.counts.length with l.highestTrackableValue < source.bucketValue i,
        source.counts[i].toInt := by
  have hsum := sumCounts_recordedSamples S
  have hlt := source.totalCount.toInt_lt
  rw [droppedFrom_toInt l (by simp) (recordedSamples_nonneg S) (by rw [Int64.toInt_zero]; omega),
    droppedCounts_recordedSamples S.accepted off, Int64.toInt_zero, zero_add]

theorem mergedSamples_values (l : BucketLayout) (rs : List Sample) :
    mergedSamples l (fun r => [r]) rs = rs.filter fun r => l.Recordable r.1 := by
  simp [mergedSamples]

end Entries

section Values
variable {h source : HdrHistogram}

theorem merged_add_dropped (S : source.WellFormed) (l : BucketLayout) :
    sumCounts (mergedSamples l (fun r => [r]) source.recordedSamples) +
      droppedCounts l source.recordedSamples = source.totalCount.toInt := by
  rw [mergedSamples_values, ← sumCounts_recordedSamples S,
    ← sumCounts_filter (fun r => l.Recordable r.1) source.recordedSamples]
  simp only [droppedCounts, decide_not]

theorem fitting_mergedValues (S : source.WellFormed)
    (fits : h.totalCount.toInt + source.totalCount.toInt < 2 ^ 63) :
    Fitting h (mergedSamples h.toBucketLayout (fun r => [r]) source.recordedSamples) := by
  have hsum := merged_add_dropped S h.toBucketLayout
  have hdrop : 0 ≤ droppedCounts h.toBucketLayout source.recordedSamples :=
    sumCounts_nonneg fun r hr => recordedSamples_nonneg S r (List.mem_of_mem_filter hr)
  refine ⟨?_, ?_, ?_⟩
  · rw [mergedSamples_values]
    intro r hr
    simpa using (List.mem_filter.mp hr).2
  · rw [mergedSamples_values]
    intro r hr
    exact recordedSamples_nonneg S r (List.mem_of_mem_filter hr)
  · rw [countSum_coe]
    omega

theorem cellCount_mergedValues (W : h.WellFormed) (off : h.normalizingIndexOffset = 0)
    (ok : source.Accepted) (offS : source.normalizingIndexOffset = 0) (j : ℕ) :
    cellCount h.cell j (mergedSamples h.toBucketLayout (fun r => [r]) source.recordedSamples) =
      ∑ i : Fin source.counts.length with
          source.bucketValue i ≤ h.highestTrackableValue ∧
            (h.countsIndexFor (source.bucketValue i)).toInt = j,
        source.counts[i].toInt := by
  rw [mergedSamples_values, cellCount, Multiset.map_coe, Multiset.sum_coe, sum_filter_ite,
    sum_recordedSamples ok offS _ (fun v => by simp), Finset.sum_filter]
  refine Finset.sum_congr rfl fun i _ => ?_
  rw [← ite_and]
  refine if_congr ?_ rfl rfl
  rw [recordable_bucketValue ok]
  refine and_congr_right fun hle => ?_
  obtain ⟨hcell, -⟩ := W.toNormalised.cell ⟨bucketValue_nonneg ok i, hle⟩
  rw [HdrHistogram.normalizeIndex, if_pos off] at hcell
  dsimp only
  omega

/-- A merge across configurations conserves the samples: each bucket of the source goes, with
its whole count, into the bucket of its value, or into the result. The source is only read. -/
theorem hdrAdd_conserves (W : h.WellFormed) (S : source.WellFormed)
    (off : h.normalizingIndexOffset = 0) (offS : source.normalizingIndexOffset = 0)
    (fits : h.totalCount.toInt + source.totalCount.toInt < 2 ^ 63) :
    ∃ dropped h', h.hdrAdd source = some (dropped, h') ∧
      (∀ j : Fin h.counts.length, ∃ c, h'.counts[(j : ℕ)]? = some c ∧
        c.toInt = h.counts[j].toInt +
          ∑ i : Fin source.counts.length with
              source.bucketValue i ≤ h.highestTrackableValue ∧
                (h.countsIndexFor (source.bucketValue i)).toInt = j,
            source.counts[i].toInt) ∧
      dropped.toInt =
        ∑ i : Fin source.counts.length with h.highestTrackableValue < source.bucketValue i,
          source.counts[i].toInt ∧
      h'.totalCount.toInt + dropped.toInt = h.totalCount.toInt + source.totalCount.toInt := by
  have F := fitting_mergedValues S fits
  obtain ⟨h', hall, K⟩ := (records_values W.toNormalised).mergeAll (collected_self h)
    source.recordedSamples 0
  rw [add_zero] at K
  have hdropped := droppedFrom_recordedSamples S offS h.toBucketLayout
  refine ⟨_, h', (hdrAdd_eq_mergeAll S h).trans hall, ?_, hdropped, ?_⟩
  · intro j
    obtain ⟨c, hc, he⟩ := K.count_eq W F (List.getElem?_eq_getElem j.isLt)
    exact ⟨c, hc, by rw [he, cellCount_mergedValues W off S.accepted offS]; rfl⟩
  · rw [K.total_eq F, countSum_coe, hdropped, ← droppedCounts_recordedSamples S.accepted offS,
      add_assoc, merged_add_dropped S]

/-- An empty histogram of a wider layout than the sample. -/
def wideHistogram : HdrHistogram :=
  ((hdrInit 1 1000 1).bind Except.toOption).getD sampleHistogram

/-- Two values, one of which is out of range for the sample layout. -/
def wideSource : HdrHistogram :=
  (wideHistogram.recordAll [(50, 3), (900, 2)]).getD wideHistogram

theorem represents_wideSource : Represents wideSource [(50, 3), (900, 2)] := by
  have hinit : hdrInit 1 1000 1 = some (.ok wideHistogram) := by decide +kernel
  have hrec : wideHistogram.recordAll [(50, 3), (900, 2)] = some wideSource := by decide +kernel
  obtain ⟨h, hall, R, -⟩ := (represents_hdrInit hinit).recordAll
    (List.forall_iff_forall_mem.mp (by decide +kernel) :
      ∀ r ∈ [((50 : Int64), (3 : Int64)), (900, 2)], wideHistogram.Recordable r.1)
  rw [hrec, Option.some.injEq] at hall
  rwa [hall]

theorem wideSource_wellFormed : wideSource.WellFormed :=
  represents_wideSource.wellFormed
    ⟨List.forall_iff_forall_mem.mp (by decide +kernel), by decide +kernel⟩

theorem hdrAdd_conserves_sample : ∃ dropped h',
    sampleHistogram.hdrAdd wideSource = some (dropped, h') ∧
      h'.totalCount.toInt + dropped.toInt = 5 := by
  obtain ⟨dropped, h', hadd, -, -, htotal⟩ := hdrAdd_conserves sampleHistogram_wellFormed
    wideSource_wellFormed rfl represents_wideSource.offset (by decide +kernel)
  exact ⟨dropped, h', hadd, htotal.trans (by decide +kernel)⟩

end Values

section Corrected
variable {h h' source : HdrHistogram} {m : Multiset Sample} {v c e : Int64}

theorem correctedValues_length (he : 0 < e) (v : Int64) :
    ((correctedValues v e).length : ℤ) = max 1 (v.toInt / e.toInt) := by
  rw [Int64.lt_iff_toInt_lt, Int64.toInt_zero] at he
  unfold correctedValues
  split_ifs with hearly
  · simp only [Int64.le_iff_toInt_le, Int64.toInt_zero] at hearly
    have hle : v.toInt / e.toInt ≤ 1 := by
      rw [← Int.ediv_self (show e.toInt ≠ 0 by omega)]
      exact Int.ediv_le_ediv he (by omega)
    rw [List.length_singleton, max_eq_left hle]
    rfl
  · simp only [Int64.le_iff_toInt_le, Int64.toInt_zero] at hearly
    have hge : 1 ≤ v.toInt / e.toInt := by
      rw [← Int.ediv_self (show e.toInt ≠ 0 by omega)]
      exact Int.ediv_le_ediv he (by omega)
    rw [descending, List.length_map, List.length_range, max_eq_right hge]
    omega

theorem sumCounts_correctedSamples (v c e : Int64) :
    sumCounts (correctedSamples v c e) = c.toInt * (correctedValues v e).length := by
  simp [sumCounts, correctedSamples, Function.comp_def, mul_comm]

/-- The effect of an accepted corrected recording: that of its values, `count` times each, in
any order. -/
structure RecordsCorrected (h h' : HdrHistogram) (v c e : Int64) : Prop where
  values : ∀ rs : List Sample,
    (rs : Multiset Sample) = (correctedValues v e : Multiset Int64).map (fun x => (x, c)) →
      h.recordAll rs = some h'
  units : 0 < c → ∀ rs : List Sample,
    (rs : Multiset Sample) = unitSamples c.toInt.toNat (correctedValues v e) →
      h.recordAll rs = some h'
  total : 0 < e → -2 ^ 63 ≤ h.totalCount.toInt + c.toInt * max 1 (v.toInt / e.toInt) →
    h.totalCount.toInt + c.toInt * max 1 (v.toInt / e.toInt) < 2 ^ 63 →
      h'.totalCount.toInt = h.totalCount.toInt + c.toInt * max 1 (v.toInt / e.toInt)

theorem mem_unitSamples {n : ℕ} {values : Multiset Int64} {r : Sample}
    (hr : r ∈ unitSamples n values) : r.1 ∈ values := by
  obtain ⟨x, hx, hr⟩ := Multiset.mem_bind.mp hr
  rw [Multiset.eq_of_mem_replicate hr]
  exact hx

theorem correctedValues_recordable (hv : h.Recordable v) {x : Int64}
    (hx : x ∈ correctedValues v e) : h.Recordable x :=
  correctedSamples_recordable (c := 0) hv (x, 0) (List.mem_map_of_mem hx)

theorem recordsCorrected (N : h.Normalised) (hv : h.Recordable v)
    (K : Collected h h' (correctedSamples v c e)) : RecordsCorrected h h' v c e where
  values rs hrs := by
    have hsame : (rs : Multiset Sample) = correctedSamples v c e := hrs
    rw [N.recordAll_perm (Multiset.coe_eq_coe.mp hsame) fun r hr => ?_]
    · obtain ⟨h₁, hall, K₁⟩ := (collected_self h).recordAll N (correctedSamples_recordable hv)
      rw [add_zero] at K₁
      rw [hall, K.eq K₁]
    · exact correctedSamples_recordable hv r ((Multiset.coe_eq_coe.mp hsame).mem_iff.mp hr)
  units hc rs hrs := by
    rw [Int64.lt_iff_toInt_lt, Int64.toInt_zero] at hc
    obtain ⟨h₁, hall, K₁⟩ := (collected_self h).recordAll N fun r hr => by
      rw [← Multiset.mem_coe, hrs] at hr
      exact correctedValues_recordable hv (mem_unitSamples hr)
    rw [add_zero, hrs] at K₁
    have K₂ := K₁.units (by omega)
    have hcount : Int64.ofNat c.toInt.toNat = c := by
      rw [← Int64.toInt_inj, Int64.toInt_ofNat_of_lt (by have := c.toInt_lt; omega)]
      omega
    rw [hcount] at K₂
    rw [hall, K.eq K₂]
  total he h₁ h₂ := by
    have hmod := foldr_addTotal h.totalCount (correctedSamples v c e)
    rw [← K.total, countSum_coe, sumCounts_correctedSamples,
      correctedValues_length he] at hmod
    exact eq_of_modEq64 hmod (Int64.le_toInt _) (Int64.toInt_lt _) h₁ h₂

theorem sumCounts_mergedCorrected (ok : source.Accepted)
    (off : source.normalizingIndexOffset = 0) (l : BucketLayout) (he : 0 < e) :
    sumCounts (mergedSamples l (fun r => correctedSamples r.1 r.2 e) source.recordedSamples) =
      ∑ i : Fin source.counts.length with source.bucketValue i ≤ l.highestTrackableValue,
        source.counts[i].toInt * max 1 ((source.bucketValue i).toInt / e.toInt) := by
  have hflat : ∀ rs : List Sample,
      sumCounts (mergedSamples l (fun r => correctedSamples r.1 r.2 e) rs) =
        ((rs.filter fun r => l.Recordable r.1).map fun r =>
          r.2.toInt * max 1 (r.1.toInt / e.toInt)).sum := by
    intro rs
    induction rs with
    | nil => rfl
    | cons r rs ih =>
        unfold mergedSamples at ih ⊢
        rw [List.filter_cons]
        split_ifs with hr
        · rw [List.flatMap_cons, sumCounts_append, ih, sumCounts_correctedSamples,
            correctedValues_length he, List.map_cons, List.sum_cons]
        · exact ih
  rw [hflat, sum_filter_ite, sum_recordedSamples ok off _ (fun v => by simp), Finset.sum_filter]
  refine Finset.sum_congr rfl fun i _ => ?_
  simp only [recordable_bucketValue ok]

theorem fitting_mergedCorrected (S : source.WellFormed)
    (off : source.normalizingIndexOffset = 0) (he : 0 < e)
    (fits : h.totalCount.toInt + ∑ i : Fin source.counts.length with
      source.bucketValue i ≤ h.highestTrackableValue,
        source.counts[i].toInt * max 1 ((source.bucketValue i).toInt / e.toInt) < 2 ^ 63) :
    Fitting h (mergedSamples h.toBucketLayout (fun r => correctedSamples r.1 r.2 e)
      source.recordedSamples) := by
  refine ⟨?_, ?_, ?_⟩
  · intro r hr
    obtain ⟨s, hs, hr⟩ := List.mem_flatMap.mp hr
    exact correctedSamples_recordable (by simpa using (List.mem_filter.mp hs).2) r hr
  · intro r hr
    obtain ⟨s, hs, hr⟩ := List.mem_flatMap.mp hr
    obtain ⟨x, -, rfl⟩ := List.mem_map.mp hr
    exact recordedSamples_nonneg S s (List.mem_of_mem_filter hs)
  · rwa [countSum_coe, sumCounts_mergedCorrected S.accepted off _ he]

/-- The correction for coordinated omission is exact, on one value and on a merge. -/
theorem coordinatedOmission_exact (N : h.Normalised) :
    (∀ v c e, ∃ accepted h', h.hdrRecordCorrectedValues v c e = some (accepted, h') ∧
      (accepted = true ↔ 0 ≤ v ∧ v ≤ h.highestTrackableValue) ∧
      (accepted = true → RecordsCorrected h h' v c e) ∧ (accepted = false → h' = h)) ∧
    ∀ source e, source.WellFormed → source.normalizingIndexOffset = 0 → 0 < e →
      h.totalCount.toInt + ∑ i : Fin source.counts.length with
          source.bucketValue i ≤ h.highestTrackableValue,
        source.counts[i].toInt * max 1 ((source.bucketValue i).toInt / e.toInt) < 2 ^ 63 →
      ∃ dropped h', h.hdrAddWhileCorrectingForCoordinatedOmission source e = some (dropped, h') ∧
        h'.totalCount.toInt = h.totalCount.toInt + ∑ i : Fin source.counts.length with
            source.bucketValue i ≤ h.highestTrackableValue,
          source.counts[i].toInt * max 1 ((source.bucketValue i).toInt / e.toInt) ∧
        dropped.toInt =
          ∑ i : Fin source.counts.length with h.highestTrackableValue < source.bucketValue i,
            source.counts[i].toInt := by
  constructor
  · intro v c e
    by_cases hv : h.Recordable v
    · obtain ⟨h', hrec, K⟩ := (collected_self h).corrected N hv c e
      rw [add_zero] at K
      exact ⟨true, h', hrec, iff_of_true rfl hv, fun _ => recordsCorrected N hv K,
        fun hf => Bool.noConfusion hf⟩
    · exact ⟨false, h, hdrRecordCorrectedValues_reject hv, iff_of_false Bool.noConfusion hv,
        fun hf => Bool.noConfusion hf, fun _ => rfl⟩
  · intro source e S off he fits
    obtain ⟨h', hall, K⟩ := (records_corrected N e).mergeAll (collected_self h)
      source.recordedSamples 0
    rw [add_zero] at K
    refine ⟨_, h', (run_mergeBody_init S h).trans hall, ?_,
      droppedFrom_recordedSamples S off h.toBucketLayout⟩
    rw [K.total_eq (fitting_mergedCorrected S off he fits), countSum_coe,
      sumCounts_mergedCorrected S.accepted off _ he]

theorem coordinatedOmission_exact_sample : ∃ dropped h',
    sampleHistogram.hdrAddWhileCorrectingForCoordinatedOmission wideSource 10 =
      some (dropped, h') ∧ h'.totalCount.toInt = 15 ∧ dropped.toInt = 2 := by
  obtain ⟨dropped, h', hadd, htotal, hdropped⟩ :=
    (coordinatedOmission_exact sampleHistogram_wellFormed.toNormalised).2 wideSource 10
      wideSource_wellFormed represents_wideSource.offset (by decide) (by decide +kernel)
  exact ⟨dropped, h', hadd, htotal.trans (by decide +kernel), hdropped.trans (by decide +kernel)⟩

end Corrected

end HdrHistogramC
