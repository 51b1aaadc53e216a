import HdrHistogramC.BatchPercentile
import HdrHistogramC.HeldSamples
import HdrHistogramC.MeanAccumulator

/-!
# Aggregating histograms

Histograms that were recorded apart are merged, and sent, and merged again. What can be read at
the end does not depend on how the recordings were spread, or on the order of the merges.
-/
namespace HdrHistogramC
open FixedWidth LogLinear BucketLayout.Describes

/-- The sources are merged one after the other, and the dropped counts added up. -/
def HdrHistogram.addAll (h : HdrHistogram) : List HdrHistogram → Option (Int64 × HdrHistogram)
  | [] => some (0, h)
  | source :: sources =>
      (h.hdrAdd source).bind fun r =>
        (r.2.addAll sources).map fun s => (r.1 + s.1, s.2)

/-- What one source adds to the dropped counts. -/
def addDropped (l : BucketLayout) (source : HdrHistogram) (dropped : Int64) : Int64 :=
  droppedFrom l 0 source.recordedSamples + dropped

instance (l : BucketLayout) : LeftCommutative (addDropped l) where
  left_comm g g' d := by
    unfold addDropped
    rw [← Int64.add_assoc, ← Int64.add_assoc, Int64.add_comm (droppedFrom l 0 g.recordedSamples)]

section Sequence
variable {base h : HdrHistogram} {m : Multiset Sample} {sources sources' : List HdrHistogram}

/-- The samples of all sources that the target has room for. -/
def mergedSources (l : BucketLayout) (sources : List HdrHistogram) : Multiset Sample :=
  (sources : Multiset HdrHistogram).bind fun g => mergedSamples l (fun r => [r]) g.recordedSamples

/-- The run lemma of a sequence of merges. -/
theorem Gathered.addAll (K : Collected base h m) (N : base.Normalised)
    (S : ∀ g ∈ sources, g.WellFormed) :
    ∃ h', h.addAll sources = some
        ((sources : Multiset HdrHistogram).foldr (addDropped base.toBucketLayout) 0, h') ∧
      Collected base h' (mergedSources base.toBucketLayout sources + m) := by
  induction sources generalizing h m with
  | nil => exact ⟨h, rfl, by simpa [mergedSources] using K⟩
  | cons g sources ih =>
      obtain ⟨h₁, hall, K₁⟩ := (records_values N).mergeAll K g.recordedSamples 0
      obtain ⟨h₂, hsources, K₂⟩ := ih K₁ fun g' hg => S g' (List.mem_cons_of_mem _ hg)
      refine ⟨h₂, ?_, ?_⟩
      · rw [HdrHistogram.addAll, hdrAdd_eq_mergeAll (S g List.mem_cons_self), hall,
          Option.bind_some, hsources]
        rfl
      · rw [mergedSources, ← Multiset.cons_coe, Multiset.cons_bind, add_assoc, add_left_comm]
        exact K₂

/-- The order of the merges does not matter, neither for the target nor for what is dropped. -/
theorem addAll_perm (N : h.Normalised) (S : ∀ g ∈ sources, g.WellFormed)
    (hp : sources.Perm sources') :
    ∃ r, h.addAll sources = some r ∧ h.addAll sources' = some r := by
  have S' : ∀ g ∈ sources', g.WellFormed := fun g hg => S g (hp.mem_iff.mpr hg)
  obtain ⟨h₁, hall₁, K₁⟩ := (collected_self h).addAll N S
  obtain ⟨h₂, hall₂, K₂⟩ := (collected_self h).addAll N S'
  rw [mergedSources, Multiset.coe_eq_coe.mpr hp] at K₁
  rw [Multiset.coe_eq_coe.mpr hp, K₁.eq K₂] at hall₁
  exact ⟨_, hall₁, hall₂⟩

theorem addAll_perm_sample : ∃ r, sampleHistogram.addAll [wideSource, sampleHistogram] = some r ∧
    sampleHistogram.addAll [sampleHistogram, wideSource] = some r :=
  addAll_perm sampleHistogram_wellFormed.toNormalised
    (by simp [wideSource_wellFormed, sampleHistogram_wellFormed]) (.swap ..)

end Sequence

/-- Histograms that differ in the values that the extremes were tracked with, and read alike. -/
structure SameReports (h d : HdrHistogram) : Prop where
  state : d = { h with minValue := d.minValue, maxValue := d.maxValue }
  encoded : ∀ z : Zlib, d.hdrEncodeCompressed z = h.hdrEncodeCompressed z
  percentile : ∀ countAt avx2 p,
    d.hdrValueAtPercentile countAt avx2 p = h.hdrValueAtPercentile countAt avx2 p
  percentiles : ∀ countAt ps values,
    d.hdrValueAtPercentiles countAt ps values = h.hdrValueAtPercentiles countAt ps values
  mean : d.hdrMean = h.hdrMean
  extremes : h.Fine → d.hdrMax = h.hdrMax ∧ d.hdrMin = h.hdrMin

section Reports
variable {l : BucketLayout} {h d : HdrHistogram} {ss : List Sample}

theorem hdrMean_congr (W : h.WellFormed) (W' : d.WellFormed)
    (state : d = { h with minValue := d.minValue, maxValue := d.maxValue }) :
    d.hdrMean = h.hdrMean := by
  obtain ⟨c, t, hsums, hc, ht⟩ := hdrMeanSums_spec W
  obtain ⟨c', t', hsums', hc', ht'⟩ := hdrMeanSums_spec W'
  have htotal : d.totalCount = h.totalCount := by rw [state]
  have hshares : d.entries.map d.medianShare = h.entries.map h.medianShare := by rw [state]; rfl
  rw [hshares] at ht'
  have he : t' = t := Int64.toInt_inj.mp
    (eq_of_modEq64 (ht'.trans ht.symm) t'.le_toInt t'.toInt_lt t.le_toInt t.toInt_lt)
  rw [HdrHistogram.hdrMean, HdrHistogram.hdrMean, hsums, hsums', hc, hc', he, htotal]

theorem hdrMax_congr (ok : l.Accepted) (F : l.Fine) (hl : h.toBucketLayout = l)
    (hl' : d.toBucketLayout = l) (T : TopTracked l h.maxValue ss)
    (T' : TopTracked l d.maxValue ss) : d.hdrMax = h.hdrMax := by
  obtain ⟨u, m, b, D⟩ := ok.describes
  have hslot := Nat.le_antisymm (T'.slot_le T D) (T.slot_le T' D)
  have hzero : ∀ {x : Int64}, 0 ≤ x → (0 = x ↔ l.slot x = 0) := by
    intro x hx
    refine ⟨fun he => by rw [← he, slot_zero D], fun he => ?_⟩
    by_contra hne
    have hpos := F.slot_pos D hx fun h => hne h.symm
    omega
  rw [HdrHistogram.hdrMax, HdrHistogram.hdrMax]
  by_cases hmax : 0 = h.maxValue
  · rw [if_pos hmax, if_pos ((hzero T'.nonneg).mpr (hslot.trans ((hzero T.nonneg).mp hmax)))]
  · rw [if_neg hmax, if_neg fun h' => hmax ((hzero T.nonneg).mpr
      (hslot.symm.trans ((hzero T'.nonneg).mp h'))), hl, hl', ← Int64.toInt_inj,
      D.highestEquivalentValue_toInt ((nonneg_iff _).mp T.nonneg),
      D.highestEquivalentValue_toInt ((nonneg_iff _).mp T'.nonneg), ← slot_eq D T.nonneg,
      ← slot_eq D T'.nonneg, hslot]

theorem nonZeroMin_congr (ok : l.Accepted) (hl : h.toBucketLayout = l)
    (hl' : d.toBucketLayout = l) (T : BottomTracked l h.minValue ss)
    (T' : BottomTracked l d.minValue ss) : d.nonZeroMin = h.nonZeroMin := by
  obtain ⟨u, m, b, D⟩ := ok.describes
  obtain ⟨hiff, hslot⟩ := T.unique T'
  rw [HdrHistogram.nonZeroMin, HdrHistogram.nonZeroMin]
  by_cases hmin : h.minValue = INT64_MAX
  · rw [if_pos hmin.symm, if_pos (hiff.mp hmin).symm]
  · have hmin' : d.minValue ≠ INT64_MAX := fun h' => hmin (hiff.mpr h')
    obtain ⟨hv, -⟩ := T.mem.resolve_left hmin
    obtain ⟨hv', -⟩ := T'.mem.resolve_left hmin'
    rw [if_neg (Ne.symm hmin), if_neg (Ne.symm hmin'), hl, hl', ← Int64.toInt_inj,
      D.lowestEquivalentValue_toInt ((nonneg_iff _).mp hv.1),
      D.lowestEquivalentValue_toInt ((nonneg_iff _).mp hv'.1), ← slot_eq D hv.1,
      ← slot_eq D hv'.1, hslot hmin]

theorem Aggregates.sameReports (A : Aggregates l h ss) (A' : Aggregates l d ss)
    (ok : l.Accepted) (S : Admissible l ss) : SameReports h d := by
  obtain ⟨u, m, b, D⟩ := ok.describes
  have hl : d.toBucketLayout = h.toBucketLayout := A'.layout.trans A.layout.symm
  have hlen : d.counts.length = h.counts.length := by
    have h₁ := h.counts_length
    have h₂ := d.counts_length
    rw [hl] at h₂
    omega
  have hcounts : d.counts = h.counts := by
    refine List.ext_getElem hlen fun n h₁ h₂ => Int64.toInt_inj.mp ?_
    rw [A'.counts n _ (List.getElem?_eq_getElem h₁), A.counts n _ (List.getElem?_eq_getElem h₂)]
  have htotal : d.totalCount = h.totalCount := by
    rw [← Int64.toInt_inj, A'.total, A.total]
  have state : d = { h with minValue := d.minValue, maxValue := d.maxValue } := by
    have hoff := A'.offset.trans A.offset.symm
    have hratio := A'.ratio.trans A.ratio.symm
    cases h
    cases d
    simp only at hl hcounts htotal hoff hratio
    subst hl hcounts htotal hoff hratio
    rfl
  refine ⟨state, fun z => ?_, fun countAt avx2 p => by rw [state]; rfl,
    fun countAt ps values => by rw [state]; rfl,
    hdrMean_congr (A.wellFormed ok S) (A'.wellFormed ok S) state, fun F => ?_⟩
  · have hslot := Nat.le_antisymm (A'.top.slot_le A.top D) (A.top.slot_le A'.top D)
    have hindex : d.countsIndexFor d.maxValue = h.countsIndexFor h.maxValue := by
      have h₁ := D.countsIndexFor_toInt ((nonneg_iff _).mp A'.top.nonneg)
      have h₂ := D.countsIndexFor_toInt ((nonneg_iff _).mp A.top.nonneg)
      rw [slot_eq D A'.top.nonneg, slot_eq D A.top.nonneg] at hslot
      rw [A'.layout, A.layout, ← Int32.toInt_inj, h₁, h₂, hslot]
    have hlimit : d.encodedCountsLimit = h.encodedCountsLimit := by
      rw [HdrHistogram.encodedCountsLimit, HdrHistogram.encodedCountsLimit, hindex, hl]
    have hflyweight : d.encodingFlyweight = h.encodingFlyweight := by rw [state]; rfl
    rw [HdrHistogram.hdrEncodeCompressed, HdrHistogram.hdrEncodeCompressed, hlimit, hcounts,
      hflyweight]
  · rw [A.layout] at F
    refine ⟨hdrMax_congr ok F A.layout A'.layout A.top A'.top, ?_⟩
    have hget : d.hdrCountAtIndex 0 = h.hdrCountAtIndex 0 := by rw [state]; rfl
    rw [HdrHistogram.hdrMin, HdrHistogram.hdrMin, hget,
      nonZeroMin_congr ok A.layout A'.layout (A.bottom F) (A'.bottom F)]

end Reports

section Trees
variable (z : Zlib) (stack : ℕ → UInt8)

/-- The text of one histogram is decoded into another, or into a new one. -/
def transfer (source : HdrHistogram) (target : Option HdrHistogram) : Option HdrHistogram :=
  match source.hdrLogEncode z with
  | some (.ok text) =>
      (hdrLogDecode z stack text target).bind fun r => if r.1 = 0 then r.2 else none
  | _ => none

/-- A way of recording samples into histograms of one configuration, and of bringing these
together, directly or as texts. -/
inductive Aggregation where
  | init
  | recordValues (a : Aggregation) (value count : Int64)
  | recordCorrectedValues (a : Aggregation) (value count expectedInterval : Int64)
  | add (a source : Aggregation)
  | decode (source : Aggregation)
  | decodeInto (a source : Aggregation)

namespace Aggregation

/-- Every histogram of the tree is a new one, like `h`, at first. -/
def eval (h : HdrHistogram) : Aggregation → Option HdrHistogram
  | init => some h
  | recordValues a v c => (a.eval h).bind fun h => Mutation.apply h (.recordValues v c)
  | recordCorrectedValues a v c e =>
      (a.eval h).bind fun h => Mutation.apply h (.recordCorrectedValues v c e)
  | add a source =>
      (a.eval h).bind fun g => (source.eval h).bind fun s => Mutation.apply g (.add s)
  | decode source => (source.eval h).bind fun s => transfer z stack s none
  | decodeInto a source =>
      (a.eval h).bind fun g => (source.eval h).bind fun s => transfer z stack s (some g)

/-- All samples that are recorded, wherever that is. -/
def samples (l : BucketLayout) : Aggregation → List Sample
  | init => []
  | recordValues a v c => a.samples l ++ Mutation.accepted l (.recordValues v c)
  | recordCorrectedValues a v c e =>
      a.samples l ++ Mutation.accepted l (.recordCorrectedValues v c e)
  | add a source => a.samples l ++ source.samples l
  | decode source => source.samples l
  | decodeInto a source => a.samples l ++ source.samples l

def CountsPositive : Aggregation → Prop
  | init => True
  | recordValues a _ c => a.CountsPositive ∧ 1 ≤ c
  | recordCorrectedValues a _ c _ => a.CountsPositive ∧ 1 ≤ c
  | add a source => a.CountsPositive ∧ source.CountsPositive
  | decode source => source.CountsPositive
  | decodeInto a source => a.CountsPositive ∧ source.CountsPositive

end Aggregation

variable {z stack} {h₀ h g : HdrHistogram} {l : BucketLayout} {ss ts : List Sample}

theorem Mutation.accepted_recordable (h : HdrHistogram) (a : Mutation) :
    ∀ r ∈ a.accepted h.toBucketLayout, h.Recordable r.1 := by
  intro r hr
  cases a with
  | recordValues v c =>
      by_cases hv : h.Recordable v
      · rw [Mutation.accepted, if_pos hv, List.mem_singleton] at hr
        rwa [hr]
      · rw [Mutation.accepted, if_neg hv] at hr
        exact absurd hr List.not_mem_nil
  | recordCorrectedValues v c e =>
      by_cases hv : h.Recordable v
      · rw [Mutation.accepted, if_pos hv] at hr
        exact correctedSamples_recordable (c := c) (e := e) hv r hr
      · rw [Mutation.accepted, if_neg hv] at hr
        exact absurd hr List.not_mem_nil
  | add source => exact of_decide_eq_true (List.mem_filter.mp hr).2
  | reset => exact absurd hr List.not_mem_nil

theorem Aggregation.samples_recordable (h : HdrHistogram) (a : Aggregation) :
    ∀ r ∈ a.samples h.toBucketLayout, h.Recordable r.1 := by
  induction a with
  | init => exact fun r hr => absurd hr List.not_mem_nil
  | recordValues a v c ih =>
      exact List.forall_mem_append.mpr ⟨ih, Mutation.accepted_recordable h _⟩
  | recordCorrectedValues a v c e ih =>
      exact List.forall_mem_append.mpr ⟨ih, Mutation.accepted_recordable h _⟩
  | add a source iha ihs => exact List.forall_mem_append.mpr ⟨iha, ihs⟩
  | decode source ih => exact ih
  | decodeInto a source iha ihs => exact List.forall_mem_append.mpr ⟨iha, ihs⟩

theorem Aggregation.samples_positive {a : Aggregation} (P : a.CountsPositive) (l : BucketLayout) :
    PositiveCounts (a.samples l) := by
  induction a with
  | init => exact fun r hr => absurd hr List.not_mem_nil
  | recordValues a v c ih =>
      exact List.forall_mem_append.mpr
        ⟨ih P.1, Mutation.accepted_positive (a := .recordValues v c) trivial P.2⟩
  | recordCorrectedValues a v c e ih =>
      exact List.forall_mem_append.mpr
        ⟨ih P.1, Mutation.accepted_positive (a := .recordCorrectedValues v c e) trivial P.2⟩
  | add a source iha ihs => exact List.forall_mem_append.mpr ⟨iha P.1, ihs P.2⟩
  | decode source ih => exact ih P
  | decodeInto a source iha ihs => exact List.forall_mem_append.mpr ⟨iha P.1, ihs P.2⟩

theorem Aggregates.recordValues (A : Aggregates l h ss) (ok : l.Accepted) (v c : Int64)
    (S : Admissible l (ss ++ Mutation.accepted l (.recordValues v c))) :
    ∃ h', Mutation.apply h (.recordValues v c) = some h' ∧
      Aggregates l h' (ss ++ Mutation.accepted l (.recordValues v c)) := by
  obtain ⟨u, m, b, D⟩ := ok.describes
  have D' : h.Describes u m b := by rwa [A.layout]
  obtain ⟨h', hall, A'⟩ := A.recordAll D S
  refine ⟨h', ?_, A'⟩
  rw [Mutation.accepted, ← A.layout] at hall
  rw [Mutation.apply]
  by_cases hv : h.Recordable v
  · obtain ⟨h₁, hrec, -⟩ := hdrRecordValues_accept D' A.offset hv c
    rw [if_pos hv, HdrHistogram.recordAll, hrec] at hall
    rw [hrec]
    exact hall
  · rw [if_neg hv] at hall
    rw [hdrRecordValues_reject hv]
    exact hall

theorem Aggregates.recordCorrectedValues (A : Aggregates l h ss) (ok : l.Accepted) (v c e : Int64)
    (S : Admissible l (ss ++ Mutation.accepted l (.recordCorrectedValues v c e))) :
    ∃ h', Mutation.apply h (.recordCorrectedValues v c e) = some h' ∧
      Aggregates l h' (ss ++ Mutation.accepted l (.recordCorrectedValues v c e)) := by
  obtain ⟨u, m, b, D⟩ := ok.describes
  have D' : h.Describes u m b := by rwa [A.layout]
  obtain ⟨h', hall, A'⟩ := A.recordAll D S
  refine ⟨h', ?_, A'⟩
  rw [Mutation.accepted, ← A.layout] at hall
  rw [Mutation.apply]
  by_cases hv : h.Recordable v
  · rw [if_pos hv] at hall
    rw [hdrRecordCorrectedValues_accept D' A.offset hv, hall]
    rfl
  · rw [if_neg hv] at hall
    rw [hdrRecordCorrectedValues_reject hv]
    exact hall

theorem Aggregates.transfer_none (A : Aggregates l h ss) (ok : l.Accepted) (S : Admissible l ss)
    (Z : z.RoundTrips) (stack : ℕ → UInt8) :
    ∃ g, transfer z stack h none = some g ∧ Aggregates l g ss := by
  obtain ⟨text, g, henc, G, hdec⟩ := A.logDecode ok S Z stack
  exact ⟨g, by simp only [transfer, henc, hdec, handOver, Option.bind_some, if_true], G⟩

theorem Aggregates.transfer_some (A : Aggregates l h ss) (A' : Aggregates l g ts)
    (ok : l.Accepted) (S : Admissible l (ss ++ ts)) (Z : z.RoundTrips) (stack : ℕ → UInt8) :
    ∃ h', transfer z stack g (some h) = some h' ∧ Aggregates l h' (ss ++ ts) := by
  obtain ⟨text, g', henc, G, hdec⟩ := A'.logDecode ok S.right Z stack
  obtain ⟨h', hadd, H⟩ := A.add G ok S
  exact ⟨h', by simp only [transfer, henc, hdec, handOver, hadd, Option.map_some,
    Option.bind_some, if_true], H⟩

/-- Every aggregation is defined, and holds the samples that were recorded in all its parts. -/
theorem Aggregation.aggregates (Z : z.RoundTrips) (stack : ℕ → UInt8) (ok : h₀.Accepted)
    (A₀ : Aggregates h₀.toBucketLayout h₀ []) (a : Aggregation)
    (S : Admissible h₀.toBucketLayout (a.samples h₀.toBucketLayout)) :
    ∃ h, a.eval z stack h₀ = some h ∧
      Aggregates h₀.toBucketLayout h (a.samples h₀.toBucketLayout) := by
  induction a with
  | init => exact ⟨h₀, rfl, A₀⟩
  | recordValues a v c ih =>
      obtain ⟨h, heval, A⟩ := ih S.left
      obtain ⟨h', happly, A'⟩ := A.recordValues ok v c S
      exact ⟨h', by rw [eval, heval, Option.bind_some, happly], A'⟩
  | recordCorrectedValues a v c e ih =>
      obtain ⟨h, heval, A⟩ := ih S.left
      obtain ⟨h', happly, A'⟩ := A.recordCorrectedValues ok v c e S
      exact ⟨h', by rw [eval, heval, Option.bind_some, happly], A'⟩
  | add a source iha ihs =>
      obtain ⟨h, heval, A⟩ := iha S.left
      obtain ⟨s, hsource, A'⟩ := ihs S.right
      obtain ⟨h', hadd, A''⟩ := A.add A' ok S
      refine ⟨h', ?_, A''⟩
      rw [eval, heval, Option.bind_some, hsource, Option.bind_some, Mutation.apply, hadd]
      rfl
  | decode source ih =>
      obtain ⟨s, hsource, A⟩ := ih S
      obtain ⟨g, htransfer, A'⟩ := A.transfer_none ok S Z stack
      exact ⟨g, by rw [eval, hsource, Option.bind_some, htransfer], A'⟩
  | decodeInto a source iha ihs =>
      obtain ⟨h, heval, A⟩ := iha S.left
      obtain ⟨s, hsource, A'⟩ := ihs S.right
      obtain ⟨h', htransfer, A''⟩ := A.transfer_some A' ok S Z stack
      exact ⟨h', by rw [eval, heval, Option.bind_some, hsource, Option.bind_some, htransfer], A''⟩

/-- Histograms that are recorded apart, and brought together in any way, read like the one that
records all samples itself. -/
theorem aggregation_agrees (Z : z.RoundTrips) (stack : ℕ → UInt8) {lowest highest : Int64}
    {figures : Int32} (init : hdrInit lowest highest figures = some (.ok h₀)) (a : Aggregation)
    (counts : a.CountsPositive) (fits : sumCounts (a.samples h₀.toBucketLayout) < 2 ^ 63) :
    ∃ h d, a.eval z stack h₀ = some h ∧ h.toBucketLayout = h₀.toBucketLayout ∧
      h₀.recordAll (a.samples h₀.toBucketLayout) = some d ∧ SameReports h d := by
  have R₀ := represents_hdrInit init
  have ok := R₀.accepted
  have P := a.samples_positive counts h₀.toBucketLayout
  have S : Admissible h₀.toBucketLayout (a.samples h₀.toBucketLayout) :=
    ⟨a.samples_recordable h₀, P, fits⟩
  obtain ⟨h, heval, A⟩ := a.aggregates Z stack ok
    (R₀.aggregates (fun r hr => absurd hr List.not_mem_nil) (by simp)) S
  obtain ⟨d, hall, R, hl⟩ := R₀.recordAll (a.samples_recordable h₀)
  have A' := R.aggregates P fits
  rw [hl] at A'
  exact ⟨h, d, heval, A.layout, hall, A.sameReports A' ok S⟩

/-- A value is recorded in one histogram, and one with its correction in another, whose text is
decoded into the first. -/
def sampleAggregation : Aggregation :=
  .decodeInto (.recordValues .init 50 3) (.recordCorrectedValues .init 90 2 30)

theorem aggregation_agrees_sample : ∃ h d,
    sampleAggregation.eval storedZlib (fun _ => 0) sampleHistogram = some h ∧
    sampleHistogram.recordAll [(50, 3), (90, 2), (60, 2), (30, 2)] = some d ∧
    d.hdrMean = h.hdrMean ∧ d.hdrMax = h.hdrMax := by
  obtain ⟨h, d, heval, hl, hall, hsame⟩ := aggregation_agrees storedZlib_roundTrips (fun _ => 0)
    sampleHistogram_init sampleAggregation ⟨⟨trivial, by decide⟩, trivial, by decide⟩
    (by decide +kernel)
  have hfine : h.Fine := by
    rw [hl]
    exact ⟨rfl, by decide⟩
  exact ⟨h, d, heval, hall, hsame.mean, (hsame.extremes hfine).1⟩

end Trees

end HdrHistogramC
