import HdrHistogramC.Merging
import HdrHistogramC.RoundTrip

/-!
# Decoding into an existing histogram

When the caller passes a histogram, the decoder merges what it decoded into it and answers
zero. The merge counts the samples that are out of range for the target, and that count is
thrown away, so the answer says nothing about them.
-/
namespace HdrHistogramC
open FixedWidth LogLinear BucketLayout.Describes

/-- The buffer is a `V2` encoding, which decodes to the histogram `g`. -/
structure EncodesV2 (z : Zlib) (stack : ℕ → UInt8) (buffer : List UInt8) (g : HdrHistogram) :
    Prop where
  cookie : getCookieBase (CompressionFlyweight.read buffer).cookie = V2_COMPRESSION_COOKIE
  decode : hdrDecodeCompressed z stack buffer none = some (0, some g)

/-- Decoding into `t` either fails and leaves it alone, or adds the whole of `g`. -/
def AllOrNothing (z : Zlib) (stack : ℕ → UInt8) (buffer : List UInt8) (g t : HdrHistogram) :
    Prop :=
  ∃ rc t', hdrDecodeCompressed z stack buffer (some t) = some (rc, some t') ∧
    ((rc ≠ 0 ∧ t'.counts = t.counts ∧ t'.totalCount = t.totalCount ∧ t'.minValue = t.minValue ∧
        t'.maxValue = t.maxValue) ∨
      (rc = 0 ∧ t'.totalCount.toInt = t.totalCount.toInt + g.totalCount.toInt))

section Aggregation
variable {z : Zlib} {stack : ℕ → UInt8} {buffer : List UInt8} {g t : HdrHistogram}

theorem EncodesV2.decodeV2 (E : EncodesV2 z stack buffer g) :
    SIZEOF_COMPRESSION_FLYWEIGHT ≤ buffer.length ∧
      hdrDecodeCompressedV2 z stack buffer = some (.ok g) := by
  have hd := E.decode
  have hlen : SIZEOF_COMPRESSION_FLYWEIGHT ≤ buffer.length := by
    by_contra hshort
    rw [hdrDecodeCompressed, if_pos (by omega)] at hd
    cases hd
  refine ⟨hlen, ?_⟩
  rw [hdrDecodeCompressed_eq stack hlen E.cookie] at hd
  obtain ⟨decoded, hdec, hover⟩ := Option.bind_eq_some_iff.mp hd
  cases decoded with
  | error r => cases hover
  | ok h =>
      cases hover
      exact hdec

/-- A target given, the decoder merges and answers zero, whatever is dropped. -/
theorem EncodesV2.decodeInto (E : EncodesV2 z stack buffer g) (G : g.WellFormed)
    (T : t.WellFormed) :
    ∃ t', hdrDecodeCompressed z stack buffer (some t) = some (0, some t') ∧
      Collected t t' (mergedSamples t.toBucketLayout (fun r => [r]) g.recordedSamples) := by
  obtain ⟨hlen, hdec⟩ := E.decodeV2
  obtain ⟨t', hall, K⟩ := (records_values T.toNormalised).mergeAll (collected_self t)
    g.recordedSamples 0
  rw [add_zero] at K
  refine ⟨t', ?_, K⟩
  rw [hdrDecodeCompressed_eq stack hlen E.cookie, hdec, Option.bind_some, handOver,
    hdrAdd_eq_mergeAll G, hall]
  rfl

theorem droppedCounts_eq_zero_iff (G : g.WellFormed) (l : BucketLayout) :
    droppedCounts l g.recordedSamples = 0 ↔ ∀ r ∈ g.recordedSamples, l.Recordable r.1 := by
  constructor
  · intro hz r hr
    by_contra hv
    have hdropped : ∀ s ∈ g.recordedSamples.filter fun r => ¬ l.Recordable r.1, 0 ≤ s.2.toInt :=
      fun s hs => recordedSamples_nonneg G s (List.mem_of_mem_filter hs)
    have hnil := filter_eq_nil hdropped hz
    have hmem : r ∈ (g.recordedSamples.filter fun r => ¬ l.Recordable r.1).filter
        fun r => r.2 ≠ 0 :=
      List.mem_filter.mpr ⟨List.mem_filter.mpr ⟨hr, by simpa using hv⟩, (List.mem_filter.mp hr).2⟩
    rw [hnil] at hmem
    exact absurd hmem List.not_mem_nil
  · intro hall
    have hnone : g.recordedSamples.filter (fun r => ¬ l.Recordable r.1) = [] :=
      List.filter_eq_nil_iff.mpr fun r hr => by simpa using hall r hr
    rw [droppedCounts, hnone]
    rfl

/-- The recorded values of `g` that are out of range for `t` have no counts. -/
def FitsInto (g : HdrHistogram) (t : BucketLayout) : Prop :=
  ∀ (i : Fin g.counts.length) (c : Int64), g.hdrCountAtIndex (Int32.ofNat i) = some c → c ≠ 0 →
    g.bucketValue i ≤ t.highestTrackableValue

theorem fitsInto_iff (G : g.WellFormed) (l : BucketLayout) :
    FitsInto g l ↔ ∀ r ∈ g.recordedSamples, l.Recordable r.1 := by
  constructor
  · intro F r hr
    obtain ⟨hmem, hne⟩ := List.mem_filter.mp hr
    obtain ⟨i, hi, rfl⟩ := List.mem_map.mp hmem
    rw [List.mem_range] at hi
    have hv := recordable_bucketValue G.accepted l ⟨i, hi⟩
    cases hget : g.countsGetNormalised (Int32.ofNat i) with
    | none => simp [hget] at hne
    | some c => exact hv.mpr (F ⟨i, hi⟩ c hget (by simpa [hget] using hne))
  · intro hall i c hc hne
    have hc' : g.countsGetNormalised (Int32.ofNat i) = some c := hc
    refine (hall (g.bucketValue i, c) (List.mem_filter.mpr ⟨?_, by simpa using hne⟩)).2
    refine List.mem_map.mpr ⟨i, List.mem_range.mpr i.isLt, ?_⟩
    rw [hc', Option.getD_some]
    rfl

/-- Decoding into a histogram is all or nothing exactly when every recorded value is in the
range of the target, and the two totals together are a 64-bit total. -/
theorem decodeInto_allOrNothing_iff (E : EncodesV2 z stack buffer g) (G : g.WellFormed)
    (T : t.WellFormed) :
    AllOrNothing z stack buffer g t ↔
      FitsInto g t.toBucketLayout ∧ t.totalCount.toInt + g.totalCount.toInt < 2 ^ 63 := by
  obtain ⟨t', hdec, K⟩ := E.decodeInto G T
  have hsplit := merged_add_dropped G t.toBucketLayout
  have hdrop : 0 ≤ droppedCounts t.toBucketLayout g.recordedSamples :=
    sumCounts_nonneg fun r hr => recordedSamples_nonneg G r (List.mem_of_mem_filter hr)
  have hmod := foldr_addTotal t.totalCount
    (mergedSamples t.toBucketLayout (fun r => [r]) g.recordedSamples)
  rw [← K.total, countSum_coe] at hmod
  rw [fitsInto_iff G, ← droppedCounts_eq_zero_iff G]
  constructor
  · rintro ⟨rc, t'', hdec', hcases⟩
    rw [hdec] at hdec'
    cases hdec'
    rcases hcases with ⟨hne, -⟩ | ⟨-, htotal⟩
    · exact absurd rfl hne
    · -- the grown total is a word, so a difference of less than `2^63` is visible
      have hlt := t'.totalCount.toInt_lt
      have hglt := g.totalCount.toInt_lt
      obtain ⟨k, hk⟩ := hmod.dvd
      have hmerged : 0 ≤ sumCounts
          (mergedSamples t.toBucketLayout (fun r => [r]) g.recordedSamples) := by
        rw [mergedSamples_values]
        exact sumCounts_nonneg fun r hr => recordedSamples_nonneg G r (List.mem_of_mem_filter hr)
      omega
  · rintro ⟨hz, fits⟩
    have F := fitting_mergedValues G fits
    refine ⟨0, t', hdec, .inr ⟨rfl, ?_⟩⟩
    rw [K.total_eq F, countSum_coe]
    omega

end Aggregation

/-- A wider histogram, encoded. -/
def wideBuffer : List UInt8 :=
  match wideSource.hdrEncodeCompressed storedZlib with
  | some (.ok buffer) => buffer
  | _ => []

/-- What the buffer holds. -/
def wideDecoded : HdrHistogram :=
  ((hdrDecodeCompressed storedZlib (fun _ => 0) wideBuffer none).bind Prod.snd).getD wideSource

theorem encodesV2_wideBuffer : EncodesV2 storedZlib (fun _ => 0) wideBuffer wideDecoded where
  cookie := by decide +kernel
  decode := by decide +kernel

theorem wideDecoded_wellFormed : wideDecoded.WellFormed := by
  have hlayout : wideDecoded.toBucketLayout = wideSource.toBucketLayout := by decide +kernel
  have hcounts : wideDecoded.counts = wideSource.counts := by decide +kernel
  have htotal : wideDecoded.totalCount = wideSource.totalCount := by decide +kernel
  have hoff : wideDecoded.normalizingIndexOffset = wideSource.normalizingIndexOffset := by
    decide +kernel
  have W := wideSource_wellFormed
  refine ⟨by rw [hlayout]; exact W.accepted, ?_, by rw [hcounts]; exact W.nonneg,
    by rw [htotal, hcounts]; exact W.total⟩
  intro i
  have hn : wideDecoded.normalizeIndex i = wideSource.normalizeIndex i := by
    unfold HdrHistogram.normalizeIndex
    rw [hoff, hlayout]
  rw [hn, hlayout]
  exact W.normalised i

/-- The answer is zero, and two of the five samples are gone. -/
theorem decodeInto_drops : EncodesV2 storedZlib (fun _ => 0) wideBuffer wideDecoded ∧
    wideDecoded.WellFormed ∧ sampleHistogram.WellFormed ∧
    ¬ AllOrNothing storedZlib (fun _ => 0) wideBuffer wideDecoded sampleHistogram := by
  refine ⟨encodesV2_wideBuffer, wideDecoded_wellFormed, sampleHistogram_wellFormed, ?_⟩
  rintro ⟨rc, t', hdec, hcases⟩
  have hrun : (hdrDecodeCompressed storedZlib (fun _ => 0) wideBuffer (some sampleHistogram)).map
      (fun r => (r.1, r.2.map HdrHistogram.totalCount)) = some (0, some 3) := by decide +kernel
  have hg : wideDecoded.totalCount = 5 := by decide +kernel
  rw [hdec] at hrun
  simp only [Option.map_some, Option.some.injEq, Prod.mk.injEq] at hrun
  obtain ⟨hrc, htotal⟩ := hrun
  rcases hcases with ⟨hne, -⟩ | ⟨-, hsum⟩
  · exact hne hrc
  · rw [htotal, hg] at hsum
    exact absurd hsum (by decide)

theorem decodeInto_allOrNothing_sample :
    AllOrNothing storedZlib (fun _ => 0) wideBuffer wideDecoded wideSource :=
  (decodeInto_allOrNothing_iff encodesV2_wideBuffer wideDecoded_wellFormed
    wideSource_wellFormed).mpr
      ⟨(fitsInto_iff wideDecoded_wellFormed _).mpr
        (List.forall_iff_forall_mem.mp (by decide +kernel)), by decide +kernel⟩

end HdrHistogramC
