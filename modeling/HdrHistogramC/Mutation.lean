import HdrHistogramC.Iterator

/-!
# Runs of the mutators

A run is a list of recordings, corrected recordings, merges and resets. Its
history is the list of the single recordings that were accepted since the last
reset, and the state it reaches represents that history.
-/
namespace HdrHistogramC
open FixedWidth LogLinear BucketLayout.Describes

inductive Mutation where
  | recordValues (value count : Int64)
  | recordCorrectedValues (value count expectedInterval : Int64)
  | add (source : HdrHistogram)
  | reset

namespace Mutation

/-- The state after one mutator; what the call answers is dropped. -/
def apply (h : HdrHistogram) : Mutation → Option HdrHistogram
  | recordValues v c => (h.hdrRecordValues v c).map Prod.snd
  | recordCorrectedValues v c e => (h.hdrRecordCorrectedValues v c e).map Prod.snd
  | add source => (h.hdrAdd source).map Prod.snd
  | reset => some h.hdrReset

/-- The state after a whole run. -/
def applyAll (h : HdrHistogram) : List Mutation → Option HdrHistogram
  | [] => some h
  | a :: as => (a.apply h).bind fun h => applyAll h as

/-- The single recordings of a mutator that a layout accepts. -/
def accepted (l : BucketLayout) : Mutation → List Sample
  | recordValues v c => if l.Recordable v then [(v, c)] else []
  | recordCorrectedValues v c e => if l.Recordable v then correctedSamples v c e else []
  | add source => source.recordedSamples.filter fun r => l.Recordable r.1
  | reset => []

/-- The history after one more mutator. -/
def extend (l : BucketLayout) (rs : List Sample) : Mutation → List Sample
  | reset => []
  | a => rs ++ a.accepted l

def history (l : BucketLayout) (as : List Mutation) : List Sample := as.foldl (extend l) []

/-- Only well-formed histograms are merged. -/
def SourceWellFormed : Mutation → Prop
  | add source => source.WellFormed
  | _ => True

end Mutation

theorem Represents.recordAll_filter {h : HdrHistogram} {rs : List Sample}
    (R : Represents h rs) (ss : List Sample) :
    ∃ h', h.recordAll ss = some h' ∧
      Represents h' (rs ++ ss.filter fun r => h.Recordable r.1) ∧
      h'.toBucketLayout = h.toBucketLayout := by
  induction ss generalizing h rs with
  | nil => exact ⟨h, rfl, by simpa using R, rfl⟩
  | cons r ss ih =>
      obtain ⟨u, m, b, D⟩ := R.accepted.describes
      rcases hdrRecordValues_cases D R.offset r.1 r.2 with ⟨hr, h₁, hrec, S⟩ | ⟨hr, hrec⟩
      · obtain ⟨h₂, hall, R₂, hl⟩ := ih (R.step hr S)
        refine ⟨h₂, ?_, ?_, hl.trans S.layout⟩
        · simp only [HdrHistogram.recordAll, hrec]
          exact hall
        · rw [S.layout] at R₂
          rw [List.filter_cons, if_pos (by simpa using hr)]
          simpa using R₂
      · obtain ⟨h₂, hall, R₂, hl⟩ := ih R
        refine ⟨h₂, ?_, ?_, hl⟩
        · simp only [HdrHistogram.recordAll, hrec]
          exact hall
        · rw [List.filter_cons, if_neg (by simpa using hr)]
          exact R₂

/-- The step lemma of runs. -/
theorem Represents.apply {h : HdrHistogram} {rs : List Sample} (R : Represents h rs)
    {a : Mutation} (ha : a.SourceWellFormed) :
    ∃ h', a.apply h = some h' ∧ Represents h' (a.extend h.toBucketLayout rs) ∧
      h'.toBucketLayout = h.toBucketLayout := by
  obtain ⟨u, m, b, D⟩ := R.accepted.describes
  cases a with
  | recordValues v c =>
      rcases hdrRecordValues_cases D R.offset v c with ⟨hv, h₁, hrec, S⟩ | ⟨hv, hrec⟩
      · refine ⟨h₁, by simp only [Mutation.apply, hrec, Option.map_some], ?_, S.layout⟩
        simpa only [Mutation.extend, Mutation.accepted, if_pos hv] using R.step hv S
      · refine ⟨h, by simp only [Mutation.apply, hrec, Option.map_some], ?_, rfl⟩
        simpa only [Mutation.extend, Mutation.accepted, if_neg hv, List.append_nil] using R
  | recordCorrectedValues v c e =>
      by_cases hv : h.Recordable v
      · obtain ⟨h₁, hall, R₁, hl⟩ := R.recordAll (correctedSamples_recordable (c := c) (e := e) hv)
        refine ⟨h₁, ?_, ?_, hl⟩
        · simp only [Mutation.apply, hdrRecordCorrectedValues_accept D R.offset hv, hall,
            Option.map_some]
        · simpa only [Mutation.extend, Mutation.accepted, if_pos hv] using R₁
      · refine ⟨h, ?_, ?_, rfl⟩
        · simp only [Mutation.apply, hdrRecordCorrectedValues_reject hv, Option.map_some]
        · simpa only [Mutation.extend, Mutation.accepted, if_neg hv, List.append_nil] using R
  | add source =>
      obtain ⟨h₁, hall, R₁, hl⟩ := R.recordAll_filter source.recordedSamples
      refine ⟨h₁, ?_, R₁, hl⟩
      simp only [Mutation.apply, hdrAdd_eq D R.offset ha, hall, Option.map_some]
  | reset => exact ⟨h.hdrReset, rfl, represents_hdrReset R, rfl⟩

/-- The run lemma: every run is defined, and its state represents its history. -/
theorem Represents.applyAll {h : HdrHistogram} {rs : List Sample} (R : Represents h rs)
    {as : List Mutation} (ha : ∀ a ∈ as, a.SourceWellFormed) :
    ∃ h', Mutation.applyAll h as = some h' ∧
      Represents h' (as.foldl (Mutation.extend h.toBucketLayout) rs) ∧
      h'.toBucketLayout = h.toBucketLayout := by
  induction as generalizing h rs with
  | nil => exact ⟨h, rfl, R, rfl⟩
  | cons a as ih =>
      obtain ⟨h₁, hap, R₁, hl₁⟩ := R.apply (ha a (by simp))
      obtain ⟨h₂, hall, R₂, hl₂⟩ := ih R₁ fun a' ha' => ha a' (by simp [ha'])
      refine ⟨h₂, ?_, ?_, hl₂.trans hl₁⟩
      · simp only [Mutation.applyAll, hap, Option.bind_some, hall]
      · rw [hl₁] at R₂
        exact R₂

theorem sum_modEq (l : List Int64) (f : ℕ → ℤ)
    (hf : ∀ (n : ℕ) (c : Int64), l[n]? = some c → c.toInt ≡ f n [ZMOD 2 ^ 64]) :
    (l.map Int64.toInt).sum ≡ ∑ n ∈ Finset.range l.length, f n [ZMOD 2 ^ 64] := by
  induction l generalizing f with
  | nil => simp
  | cons c l ih =>
      rw [List.map_cons, List.sum_cons, List.length_cons, Finset.sum_range_succ', add_comm]
      exact (ih (fun n => f (n + 1)) fun n d hd => hf (n + 1) d (by simpa using hd)).add
        (hf 0 c (by simp))

section Conservation
variable {h : HdrHistogram} {rs : List Sample}

theorem Represents.index_lt (R : Represents h rs) (l : BucketLayout) (hl : l = h.toBucketLayout) :
    ∀ r ∈ rs, ∃ n < h.counts.length, (l.countsIndexFor r.1).toInt = (n : ℕ) := by
  subst hl
  obtain ⟨u, m, b, D⟩ := R.accepted.describes
  intro r hr
  have hv := R.recordable r hr
  have h0 := (nonneg_iff r.1).mp hv.1
  refine ⟨_, ?_, D.countsIndexFor_toInt h0⟩
  rw [counts_length_nat D]
  exact D.index_lt_countsLen h0 (Int64.le_iff_toInt_le.mp hv.2)

theorem Represents.sum_counts (R : Represents h rs) :
    h.totalCount.toInt ≡ (h.counts.map Int64.toInt).sum [ZMOD 2 ^ 64] := by
  have hs := sum_modEq h.counts _ R.counts
  rw [sum_sumCountsAt _ _ _ (R.index_lt _ rfl)] at hs
  exact R.total.trans hs.symm

end Conservation

/-- The array and the total hold what the history recorded, modulo `2^64`; a call
is accepted exactly in the trackable range, and a rejected call changes nothing. -/
structure CountsConserved (h : HdrHistogram) (rs : List Sample) : Prop where
  total : h.totalCount.toInt ≡ (h.counts.map Int64.toInt).sum [ZMOD 2 ^ 64]
  bucket : ∀ i (hi : i < h.counts.length),
    h.counts[i].toInt ≡ sumCountsAt h.toBucketLayout rs i [ZMOD 2 ^ 64]
  accepts : ∀ v c, ∃ h', h.hdrRecordValues v c =
    some (decide (0 ≤ v ∧ v ≤ h.highestTrackableValue), h')
  index_accepted : ∀ v, 0 ≤ v → v ≤ h.highestTrackableValue →
    ¬ (h.countsIndexFor v).toUInt32 ≥ h.countsLen.toUInt32
  corrected_defined : ∀ v c e, ∃ r, h.hdrRecordCorrectedValues v c e = some r
  rejected : ∀ v c h', h.hdrRecordValues v c = some (false, h') → h' = h
  corrected_rejected : ∀ v c e h', h.hdrRecordCorrectedValues v c e = some (false, h') → h' = h

theorem Represents.countsConserved {h : HdrHistogram} {rs : List Sample} (R : Represents h rs) :
    CountsConserved h rs := by
  obtain ⟨u, m, b, D⟩ := R.accepted.describes
  refine ⟨R.sum_counts, ?_, ?_, ?_, ?_, ?_, ?_⟩
  · intro i hi
    exact R.counts i _ (List.getElem?_eq_getElem hi)
  · intro v c
    rcases hdrRecordValues_cases D R.offset v c with ⟨hv, h₁, hrec, -⟩ | ⟨hv, hrec⟩
    · exact ⟨h₁, by rw [hrec, decide_eq_true (show 0 ≤ v ∧ _ from hv)]⟩
    · exact ⟨h, by rw [hrec, decide_eq_false (show ¬ (0 ≤ v ∧ _) from hv)]⟩
  · intro v hv hle
    exact not_countsLen_le D ⟨hv, hle⟩
  · intro v c e
    by_cases hv : h.Recordable v
    · obtain ⟨h₁, hall, -⟩ := R.recordAll (correctedSamples_recordable (c := c) (e := e) hv)
      exact ⟨_, by rw [hdrRecordCorrectedValues_accept D R.offset hv, hall]; rfl⟩
    · exact ⟨_, hdrRecordCorrectedValues_reject hv⟩
  · intro v c h' hf
    rcases hdrRecordValues_cases D R.offset v c with ⟨-, h₁, hrec, -⟩ | ⟨-, hrec⟩
    · rw [hrec] at hf
      cases hf
    · rw [hrec] at hf
      cases hf
      rfl
  · intro v c e h' hf
    by_cases hv : h.Recordable v
    · obtain ⟨h₁, hall, -⟩ := R.recordAll (correctedSamples_recordable (c := c) (e := e) hv)
      rw [hdrRecordCorrectedValues_accept D R.offset hv, hall] at hf
      cases hf
    · rw [hdrRecordCorrectedValues_reject hv] at hf
      cases hf
      rfl

/-- Every run of the mutators conserves the accepted recordings. -/
theorem count_conservation {lowest highest : Int64} {figures : Int32} {h₀ : HdrHistogram}
    (init : hdrInit lowest highest figures = some (.ok h₀)) (as : List Mutation)
    (sources : ∀ a ∈ as, a.SourceWellFormed) :
    ∃ h, Mutation.applyAll h₀ as = some h ∧ h.toBucketLayout = h₀.toBucketLayout ∧
      CountsConserved h (Mutation.history h₀.toBucketLayout as) := by
  obtain ⟨h, hrun, R, hl⟩ := (represents_hdrInit init).applyAll sources
  exact ⟨h, hrun, hl, R.countsConserved⟩

/-- Samples with nonnegative counts whose sum is a 64-bit total. -/
structure Bounded (rs : List Sample) : Prop where
  nonneg : ∀ r ∈ rs, 0 ≤ r.2.toInt
  sum_lt : sumCounts rs < 2 ^ 63

theorem sumCountsAt_le (l : BucketLayout) {rs : List Sample} (hr : ∀ r ∈ rs, 0 ≤ r.2.toInt)
    (n : ℕ) : 0 ≤ sumCountsAt l rs n ∧ sumCountsAt l rs n ≤ sumCounts rs := by
  induction rs with
  | nil => simp
  | cons r rs ih =>
      have h0 := hr r (by simp)
      have hi := ih fun s hs => hr s (by simp [hs])
      rw [sumCountsAt_cons, sumCounts_cons]
      split_ifs <;> omega

section Exact
variable {h : HdrHistogram} {rs : List Sample} {n : ℕ} {c : Int64}

theorem Represents.count_eq (R : Represents h rs) (B : Bounded rs) (hc : h.counts[n]? = some c) :
    c.toInt = sumCountsAt h.toBucketLayout rs n := by
  have hs := sumCountsAt_le h.toBucketLayout B.nonneg n
  have := B.sum_lt
  exact eq_of_modEq64 (R.counts n c hc) c.le_toInt c.toInt_lt (by omega) (by omega)

theorem Represents.total_eq (R : Represents h rs) (B : Bounded rs) :
    h.totalCount.toInt = sumCounts rs := by
  have := B.sum_lt
  have := sumCounts_nonneg B.nonneg
  exact eq_of_modEq64 R.total (Int64.le_toInt _) (Int64.toInt_lt _) (by omega) (by omega)

theorem sum_eq_of_getElem (l : List Int64) (f : ℕ → ℤ)
    (hf : ∀ (n : ℕ) (c : Int64), l[n]? = some c → c.toInt = f n) :
    (l.map Int64.toInt).sum = ∑ n ∈ Finset.range l.length, f n := by
  induction l generalizing f with
  | nil => simp
  | cons c l ih =>
      rw [List.map_cons, List.sum_cons, List.length_cons, Finset.sum_range_succ', add_comm,
        ih (fun n => f (n + 1)) fun n d hd => hf (n + 1) d (by simpa using hd), hf 0 c (by simp)]

theorem Represents.wellFormed (R : Represents h rs) (B : Bounded rs) : h.WellFormed := by
  obtain ⟨u, m, b, D⟩ := R.accepted.describes
  have hlen := D.countsLen_toInt
  refine ⟨R.accepted, ?_, ?_, ?_⟩
  · rw [normalised_iff D, R.offset, hlen]
    change _ ≤ (0 : ℤ) ∧ (0 : ℤ) ≤ _
    omega
  · intro c hc
    obtain ⟨n, hn⟩ := List.mem_iff_getElem?.mp hc
    rw [nonneg_iff, R.count_eq B hn]
    exact (sumCountsAt_le _ B.nonneg n).1
  · rw [R.total_eq B, sum_eq_of_getElem _ _ fun n c hn => R.count_eq B hn,
      sum_sumCountsAt _ _ _ (R.index_lt _ rfl)]

end Exact

theorem sampleHistogram_wellFormed : sampleHistogram.WellFormed :=
  (represents_hdrInit sampleHistogram_init).wellFormed ⟨by simp, by simp⟩

theorem count_conservation_sample : ∃ h, Mutation.applyAll sampleHistogram
    [.recordValues 77 3, .recordCorrectedValues 40 2 10, .add sampleHistogram, .reset,
      .recordValues (-1) 5, .recordCorrectedValues 90 1 30] = some h ∧
    CountsConserved h [(90, 1), (60, 1), (30, 1)] := by
  obtain ⟨h, hrun, -, hc⟩ := count_conservation sampleHistogram_init
    [.recordValues 77 3, .recordCorrectedValues 40 2 10, .add sampleHistogram, .reset,
      .recordValues (-1) 5, .recordCorrectedValues 90 1 30]
    (by simp [Mutation.SourceWellFormed, sampleHistogram_wellFormed])
  exact ⟨h, hrun, hc⟩

end HdrHistogramC
