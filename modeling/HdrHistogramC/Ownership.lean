import HdrHistogramC.Blocks
import HdrHistogramC.ReaderProgress

/-!
# Who frees what

The functions that allocate, with the blocks that they allocate and free. Every one of them can be
refused a block. What they compute is what the functions without blocks compute, or `ENOMEM`; where
a null pointer is used without a check there is no result.
-/
namespace HdrHistogramC.Owned
open Blocks

/-- A histogram, with the block of the structure and that of its counts. -/
structure Histogram where
  value : HdrHistogram
  block : ℕ
  counts : ℕ

/-- The blocks of the histogram behind a pointer. -/
def blocks : Option Histogram → Multiset ℕ
  | none => 0
  | some h => h.counts ::ₘ {h.block}

def hdrInit (lowestDiscernibleValue highestTrackableValue : Int64) (significantFigures : Int32) :
    Alloc (Option (Except Int32 Histogram)) :=
  match hdrCalculateBucketConfig lowestDiscernibleValue highestTrackableValue
      significantFigures with
  | none => pure none
  | some (.error r) => pure (some (.error r))
  | some (.ok cfg) =>
      match hdrCalloc cfg.countsLen with
      | none => pure (some (.error ENOMEM))
      | some zeros => do
          let some counts ← malloc | return some (.error ENOMEM)
          let some histogram ← malloc | do
            free (some counts)
            return some (.error ENOMEM)
          return some (.ok ⟨hdrInitPreallocated cfg zeros, histogram, counts⟩)

def hdrClose : Option Histogram → Alloc Unit
  | none => pure ()
  | some h => do
      free (some h.counts)
      free (some h.block)

/-- What the three decoders do differently: how they open the buffer, what they return when
`hdr_init` fails, how long the array is and how much room `inflate` is given, and how they store the
counts. -/
structure Decoder (z : Zlib) where
  Header : Type
  opened : Except Int32 (Header × z.Stream)
  lowestDiscernibleValue : Header → Int64
  highestTrackableValue : Header → Int64
  significantFigures : Header → Int32
  initResult : Int32 → Int32
  size : Header → HdrHistogram → UInt64
  room : Header → HdrHistogram → UInt32
  store : Header → HdrHistogram → List UInt8 → Option (Except Int32 HdrHistogram)

section Decoders
variable (z : Zlib) (stack : ℕ → UInt8) (buffer : List UInt8)

def hdrDecodeCompressedV0 : Decoder z where
  Header := EncodingFlyweightV0
  opened := openFlyweightV0 z stack buffer
  lowestDiscernibleValue := (·.lowestDiscernibleValue)
  highestTrackableValue := (·.highestTrackableValue)
  significantFigures := (·.significantFigures)
  initResult _ := ENOMEM
  size fly h := sizeT (h.countsLen * (wordSizeFromCookie fly.cookie).toInt32)
  room fly h := (h.countsLen * (wordSizeFromCookie fly.cookie).toInt32).toUInt32
  store fly h countsArray :=
    (h.applyToCounts (wordSizeFromCookie fly.cookie) countsArray h.countsLen).map fun r =>
      .ok { r.2.hdrResetInternalCounters with
        normalizingIndexOffset := 0
        conversionRatio := conversionRatioOne }

/-- The counts of a buffer of version 1. -/
def countsLimitV1 (fly : EncodingFlyweightV1) : Int32 :=
  (fly.payloadLen / wordSizeFromCookie fly.cookie).toInt32

def hdrDecodeCompressedV1 : Decoder z where
  Header := EncodingFlyweightV1
  opened :=
    match openFlyweightV1 z stack buffer V1_ENCODING_COOKIE with
    | .error r => .error r
    | .ok (fly, strm) =>
        if wordSizeFromCookie fly.cookie = 0 then .error HDR_INVALID_WORD_SIZE else .ok (fly, strm)
  lowestDiscernibleValue := (·.lowestDiscernibleValue)
  highestTrackableValue := (·.highestTrackableValue)
  significantFigures := (·.significantFigures)
  initResult _ := ENOMEM
  size fly _ := sizeT (countsLimitV1 fly * (wordSizeFromCookie fly.cookie).toInt32)
  room fly _ := (countsLimitV1 fly * (wordSizeFromCookie fly.cookie).toInt32).toUInt32
  store fly h countsArray :=
    (h.applyToCounts (wordSizeFromCookie fly.cookie) countsArray (countsLimitV1 fly)).map fun r =>
      .ok (HdrHistogram.hdrResetInternalCounters { r.2 with
        normalizingIndexOffset := fly.normalizingIndexOffset
        conversionRatio := fly.conversionRatioBits })

def hdrDecodeCompressedV2 : Decoder z where
  Header := EncodingFlyweightV1
  opened := openFlyweightV1 z stack buffer V2_ENCODING_COOKIE
  lowestDiscernibleValue := (·.lowestDiscernibleValue)
  highestTrackableValue := (·.highestTrackableValue)
  significantFigures := (·.significantFigures)
  initResult rc := rc
  size fly _ := sizeT fly.payloadLen.toInt32 + 9
  room fly _ := fly.payloadLen.toInt32.toUInt32
  store fly h countsArray :=
    (h.applyToCountsZz countsArray fly.payloadLen.toInt32).map fun r =>
      if r.1 ≠ 0 then .error r.1
      else .ok (HdrHistogram.hdrResetInternalCounters { r.2 with
        normalizingIndexOffset := fly.normalizingIndexOffset
        conversionRatio := fly.conversionRatioBits })

end Decoders

namespace Decoder
variable {z : Zlib} (D : Decoder z)

/-- The decoders without blocks. -/
def decoded : Option (Except Int32 HdrHistogram) :=
  match D.opened with
  | .error r => some (.error r)
  | .ok (fly, strm) =>
      match HdrHistogramC.hdrInit (D.lowestDiscernibleValue fly) (D.highestTrackableValue fly)
          (D.significantFigures fly) with
      | none => none
      | some (.error rc) => some (.error (D.initResult rc))
      | some (.ok h) =>
          match inflateCounts z strm (D.size fly h) (D.room fly h) with
          | none => none
          | some (.error r) => some (.error r)
          | some (.ok countsArray) => D.store fly h countsArray

/-- What the decoders do last: they free the array, and hand the histogram over, or merge it, or
close it. After a merge they free the structure, and not the counts. -/
def cleanup (h : Option Histogram) (countsArray : Option ℕ) (result : Int32)
    (histogram : Option Histogram) : Alloc (Option (Int32 × Option Histogram)) := do
  free countsArray
  if result ≠ 0 then
    hdrClose h
    return some (result, histogram)
  else
    match h, histogram with
    | none, none => return some (0, none)
    | some h, none => return some (0, some h)
    | none, some _ => return none
    | some h, some g =>
        match g.value.hdrAdd h.value with
        | none => return none
        | some r =>
            free (some h.block)
            return some (0, some { g with value := r.2 })

/-- The array for the counts. -/
def hdrCalloc (size : ℕ) : Alloc (Option (List UInt8 × ℕ)) :=
  match hdrCallocBytes size with
  | none => pure none
  | some zeros => do
      let some block ← malloc | return none
      return some (zeros, block)

def decode (histogram : Option Histogram) : Alloc (Option (Int32 × Option Histogram)) :=
  match D.opened with
  | .error r => cleanup none none r histogram
  | .ok (fly, strm) => do
      match ← hdrInit (D.lowestDiscernibleValue fly) (D.highestTrackableValue fly)
          (D.significantFigures fly) with
      | none => return none
      | some (.error rc) => cleanup none none (D.initResult rc) histogram
      | some (.ok h) =>
          match ← hdrCalloc (D.size fly h.value).toNat with
          | none => cleanup (some h) none ENOMEM histogram
          | some (zeros, countsArray) =>
              if (D.room fly h.value).toNat ≤ zeros.length then
                match z.inflate strm (D.room fly h.value).toNat .finish with
                | (.streamEnd, out, _) =>
                    match D.store fly h.value (out ++ zeros.drop out.length) with
                    | none => return none
                    | some (.error rc) => cleanup (some h) (some countsArray) rc histogram
                    | some (.ok k) =>
                        cleanup (some { h with value := k }) (some countsArray) 0 histogram
                | _ => cleanup (some h) (some countsArray) HDR_INFLATE_FAIL histogram
              else return none

end Decoder

section Decoded
variable (z : Zlib) (stack : ℕ → UInt8) (buffer : List UInt8)

/-! They are the decoders of the buffer. -/

theorem decoded_v0 : (hdrDecodeCompressedV0 z stack buffer).decoded =
    HdrHistogramC.hdrDecodeCompressedV0 z stack buffer := by
  simp only [Decoder.decoded, HdrHistogramC.hdrDecodeCompressedV0, hdrDecodeCompressedV0]
  rcases hopen : openFlyweightV0 z stack buffer with r | ⟨fly, strm⟩
  · simp only
  rcases hinit : HdrHistogramC.hdrInit fly.lowestDiscernibleValue fly.highestTrackableValue
    fly.significantFigures with _ | _ | h
  · simp only [hinit]
  · simp only [hinit]
  rcases hcounts : inflateCounts z strm
    (sizeT (h.countsLen * (wordSizeFromCookie fly.cookie).toInt32))
    (h.countsLen * (wordSizeFromCookie fly.cookie).toInt32).toUInt32 with _ | _ | _ <;>
    simp only [hinit, hcounts]

theorem decoded_v1 : (hdrDecodeCompressedV1 z stack buffer).decoded =
    HdrHistogramC.hdrDecodeCompressedV1 z stack buffer := by
  simp only [Decoder.decoded, HdrHistogramC.hdrDecodeCompressedV1, hdrDecodeCompressedV1]
  rcases hopen : openFlyweightV1 z stack buffer V1_ENCODING_COOKIE with r | ⟨fly, strm⟩
  · simp only
  by_cases hw : wordSizeFromCookie fly.cookie = 0
  · simp only [hw, if_true]
  rcases hinit : HdrHistogramC.hdrInit fly.lowestDiscernibleValue fly.highestTrackableValue
    fly.significantFigures with _ | _ | h
  · simp only [hw, if_false, hinit]
  · simp only [hw, if_false, hinit]
  rcases hcounts : inflateCounts z strm
    (sizeT (countsLimitV1 fly * (wordSizeFromCookie fly.cookie).toInt32))
    (countsLimitV1 fly * (wordSizeFromCookie fly.cookie).toInt32).toUInt32 with _ | _ | _ <;>
    rw [countsLimitV1] at hcounts <;> simp only [hw, if_false, hinit, countsLimitV1, hcounts]

theorem decoded_v2 : (hdrDecodeCompressedV2 z stack buffer).decoded =
    HdrHistogramC.hdrDecodeCompressedV2 z stack buffer := by
  simp only [Decoder.decoded, HdrHistogramC.hdrDecodeCompressedV2, hdrDecodeCompressedV2]
  rcases hopen : openFlyweightV1 z stack buffer V2_ENCODING_COOKIE with r | ⟨fly, strm⟩
  · simp only
  rcases hinit : HdrHistogramC.hdrInit fly.lowestDiscernibleValue fly.highestTrackableValue
    fly.significantFigures with _ | _ | h
  · simp only [hinit]
  · simp only [hinit]
  rcases hcounts : inflateCounts z strm (sizeT fly.payloadLen.toInt32 + 9)
    fly.payloadLen.toInt32.toUInt32 with _ | _ | _ <;>
    simp only [hinit, hcounts]

end Decoded

section Specs
variable {refused : ℕ → Bool} {histogram : Option Histogram}

theorem hdrInit_spec (lowest highest : Int64) (figures : Int32) :
    Triple refused 0 (hdrInit lowest highest figures) fun r o =>
      (∃ h, r = some (.ok h) ∧ o = blocks (some h) ∧
        HdrHistogramC.hdrInit lowest highest figures = some (.ok h.value)) ∨
      (∃ e, r = some (.error e) ∧ o = 0 ∧
        (HdrHistogramC.hdrInit lowest highest figures = some (.error e) ∨
          (e = ENOMEM ∧ Refusing refused))) ∨
      (r = none ∧ HdrHistogramC.hdrInit lowest highest figures = none) := by
  rw [hdrInit, HdrHistogramC.hdrInit]
  rcases hdrCalculateBucketConfig lowest highest figures with _ | e | cfg
  · exact .ret (.inr (.inr ⟨rfl, rfl⟩))
  · exact .ret (.inr (.inl ⟨e, rfl, rfl, .inl rfl⟩))
  dsimp only
  rcases HdrHistogramC.hdrCalloc cfg.countsLen with _ | zeros
  · exact .ret (.inr (.inl ⟨ENOMEM, rfl, rfl, .inl rfl⟩))
  dsimp only
  refine Triple.malloc.bind ?_
  rintro r o (⟨rfl, rfl, hrefusing⟩ | ⟨counts, rfl, rfl⟩)
  · exact .ret (.inr (.inl ⟨ENOMEM, rfl, rfl, .inr ⟨rfl, hrefusing⟩⟩))
  have hmalloc : Triple refused _ _ _ := Triple.malloc.frame {counts}
  rw [zero_add] at hmalloc
  refine hmalloc.bind ?_
  rintro r o ⟨o', rfl, ⟨rfl, rfl, hrefusing⟩ | ⟨block, rfl, rfl⟩⟩
  · rw [zero_add]
    have hfree : Triple refused {counts} _ _ := Triple.free_some counts
    refine hfree.bind ?_
    rintro - o rfl
    exact .ret (.inr (.inl ⟨ENOMEM, rfl, rfl, .inr ⟨rfl, hrefusing⟩⟩))
  · exact .ret (.inl ⟨_, rfl, Multiset.add_comm .., rfl⟩)

theorem hdrClose_spec (h : Option Histogram) (more : Multiset ℕ) :
    Triple refused (blocks h + more) (hdrClose h) fun _ o => o = more := by
  cases h with
  | none => exact .ret (zero_add more)
  | some h =>
      rw [blocks, Multiset.cons_add, Multiset.singleton_add]
      refine (Triple.free_some h.counts).bind ?_
      rintro - o rfl
      exact Triple.free_some h.block

/-- The block of an array. -/
def block : Option ℕ → Multiset ℕ
  | none => 0
  | some b => {b}

theorem free_spec (b : Option ℕ) (more : Multiset ℕ) :
    Triple refused (block b + more) (free b) fun _ o => o = more := by
  cases b with
  | none =>
      rw [block, zero_add]
      exact Triple.free_none
  | some b => exact Triple.free_some b

namespace Decoder

/-- A decoder that fails frees all that it has allocated. -/
theorem cleanup_failed (h : Option Histogram) (countsArray : Option ℕ) {result : Int32}
    (hresult : result ≠ 0) (histogram : Option Histogram) :
    Triple refused (block countsArray + (blocks h + blocks histogram))
      (cleanup h countsArray result histogram) fun r o =>
        r = some (result, histogram) ∧ o = blocks histogram := by
  refine (free_spec countsArray _).bind ?_
  rintro - o rfl
  rw [if_pos hresult]
  refine (hdrClose_spec h _).bind ?_
  rintro - o rfl
  exact .ret ⟨rfl, rfl⟩

/-- The values behind the pointers. -/
def values (r : Int32 × Option Histogram) : Int32 × Option HdrHistogram :=
  (r.1, r.2.map Histogram.value)

/-- A decoder that merges loses the block of the counts. -/
theorem cleanup_done (h : Histogram) (countsArray : ℕ) (histogram : Option Histogram) :
    Triple refused (block (some countsArray) + (blocks (some h) + blocks histogram))
      (cleanup (some h) (some countsArray) 0 histogram) fun r o =>
        r.map values = handOver (histogram.map Histogram.value) (.ok h.value) ∧
          ∀ result g, r = some (result, g) → result = 0 ∧
            o = blocks g + if histogram = none then 0 else {h.counts} := by
  refine (free_spec (some countsArray) _).bind ?_
  rintro - o rfl
  rw [if_neg (not_not.mpr rfl)]
  cases histogram with
  | none =>
      refine .ret ⟨rfl, fun result g hr => ?_⟩
      cases hr
      exact ⟨rfl, rfl⟩
  | some g =>
      dsimp only
      rcases hadd : g.value.hdrAdd h.value with _ | ⟨dropped, k⟩
      · refine .ret ⟨?_, fun result g' hr => by cases hr⟩
        simp only [Option.map_some, Option.map_none, handOver, hadd]
      · dsimp only
        have howned : blocks (some h) + blocks (some g) =
            h.block ::ₘ (blocks (some g) + {h.counts}) := by
          simp only [blocks, ← Multiset.singleton_add]
          abel
        rw [howned]
        refine (Triple.free_some h.block).bind ?_
        rintro - o rfl
        refine .ret ⟨?_, fun result g' hr => ?_⟩
        · simp only [Option.map_some, handOver, hadd]
          rfl
        · cases hr
          exact ⟨rfl, rfl⟩

/-- A call computes what it computes without blocks, or is refused a block and fails; and it keeps
the blocks of the histogram, except that one is lost in a merge. -/
structure Outcome (refused : ℕ → Bool) (computed : Option (Int32 × Option HdrHistogram))
    (histogram : Option Histogram) (r : Option (Int32 × Option Histogram)) (owned : Multiset ℕ) :
    Prop where
  value : r.map values = computed ∨ (Refusing refused ∧ r = some (ENOMEM, histogram))
  blocks : ∀ result g, r = some (result, g) → ∃ lost, owned = Owned.blocks g + lost ∧
    lost.card = if result = 0 ∧ histogram ≠ none then 1 else 0

/-- Errors are not zero. -/
structure Lawful {z : Zlib} (D : Decoder z) : Prop where
  opened : ∀ r, D.opened = .error r → r ≠ 0
  init : ∀ r ∈ decodeErrors, D.initResult r ≠ 0
  nomem : D.initResult ENOMEM = ENOMEM
  store : ∀ fly h countsArray r, D.store fly h countsArray = some (.error r) → r ≠ 0

theorem ne_zero_of_mem {r : Int32} (h : r ∈ decodeErrors) : r ≠ 0 :=
  fun h0 => absurd (h0 ▸ h : 0 ∈ decodeErrors) (by decide)

section Decode
variable {z : Zlib} {D : Decoder z}

theorem outcome_failed {computed : Option (Int32 × Option HdrHistogram)} {result : Int32}
    {r : Option (Int32 × Option Histogram)} {o : Multiset ℕ} (hresult : result ≠ 0)
    (hvalue : computed = some (result, histogram.map Histogram.value) ∨
      (Refusing refused ∧ result = ENOMEM))
    (h : r = some (result, histogram) ∧ o = Owned.blocks histogram) :
    Outcome refused computed histogram r o := by
  obtain ⟨rfl, rfl⟩ := h
  refine ⟨?_, fun result' g hr => ?_⟩
  · rcases hvalue with rfl | ⟨hrefusing, rfl⟩
    · exact .inl rfl
    · exact .inr ⟨hrefusing, rfl⟩
  · cases hr
    exact ⟨0, (add_zero _).symm, by rw [if_neg fun h => hresult h.1]; rfl⟩

theorem hdrCalloc_spec (size : ℕ) : Triple refused 0 (hdrCalloc size) fun r o =>
    (r = none ∧ o = 0 ∧ (hdrCallocBytes size = none ∨ Refusing refused)) ∨
      ∃ zeros b, r = some (zeros, b) ∧ o = block (some b) ∧ hdrCallocBytes size = some zeros := by
  rw [hdrCalloc]
  rcases hdrCallocBytes size with _ | zeros
  · exact .ret (.inl ⟨rfl, rfl, .inl rfl⟩)
  · refine Triple.malloc.bind ?_
    rintro r o (⟨rfl, rfl, hrefusing⟩ | ⟨b, rfl, rfl⟩)
    · exact .ret (.inl ⟨rfl, rfl, .inr hrefusing⟩)
    · exact .ret (.inr ⟨zeros, b, rfl, rfl, rfl⟩)

theorem cleanup_outcome (h : Option Histogram) (countsArray : Option ℕ)
    (histogram : Option Histogram) {result : Int32} (hresult : result ≠ 0)
    (hcomputed : D.decoded = some (.error result) ∨ (Refusing refused ∧ result = ENOMEM)) :
    Triple refused (block countsArray + (Owned.blocks h + Owned.blocks histogram))
      (cleanup h countsArray result histogram)
      (Outcome refused (D.decoded.bind (handOver (histogram.map Histogram.value))) histogram) := by
  refine (cleanup_failed h countsArray hresult histogram).conseq fun r o hr => ?_
  refine outcome_failed hresult (hcomputed.imp_left fun hd => ?_) hr
  rw [hd]
  rfl

theorem cleanup_first (histogram : Option Histogram) {result : Int32} (hresult : result ≠ 0)
    (hcomputed : D.decoded = some (.error result) ∨ (Refusing refused ∧ result = ENOMEM)) :
    Triple refused (Owned.blocks histogram) (cleanup none none result histogram)
      (Outcome refused (D.decoded.bind (handOver (histogram.map Histogram.value))) histogram) := by
  have hfailed := cleanup_outcome none none histogram hresult hcomputed
  rwa [block, Owned.blocks, zero_add, zero_add] at hfailed

theorem cleanup_stored (h : Histogram) (countsArray : ℕ) (histogram : Option Histogram)
    (hcomputed : D.decoded = some (.ok h.value)) :
    Triple refused (block (some countsArray) + (Owned.blocks (some h) + Owned.blocks histogram))
      (cleanup (some h) (some countsArray) 0 histogram)
      (Outcome refused (D.decoded.bind (handOver (histogram.map Histogram.value))) histogram) := by
  refine (cleanup_done h countsArray histogram).conseq
    fun r o ⟨hr, hblocks⟩ => ⟨.inl (by rw [hr, hcomputed]; rfl), fun result g hrg => ?_⟩
  obtain ⟨rfl, ho⟩ := hblocks result g hrg
  refine ⟨_, ho, ?_⟩
  by_cases hg : histogram = none
  · rw [if_pos hg, if_neg fun hn => hn.2 hg]
    rfl
  · rw [if_neg hg, if_pos ⟨rfl, hg⟩]
    rfl

theorem decode_spec (L : D.Lawful) (histogram : Option Histogram) :
    Triple refused (Owned.blocks histogram) (D.decode histogram)
      (Outcome refused (D.decoded.bind (handOver (histogram.map Histogram.value))) histogram) := by
  rw [decode]
  rcases hopen : D.opened with e | ⟨fly, strm⟩
  · exact cleanup_first histogram (L.opened e hopen) (.inl (by rw [decoded, hopen]))
  dsimp only
  have hinit : Triple refused _ _ _ := (hdrInit_spec (D.lowestDiscernibleValue fly)
    (D.highestTrackableValue fly) (D.significantFigures fly)).frame (Owned.blocks histogram)
  rw [zero_add] at hinit
  refine hinit.bind ?_
  rintro r o ⟨o', rfl, ⟨h, rfl, rfl, hpure⟩ | ⟨e, rfl, rfl, hpure⟩ | ⟨rfl, hpure⟩⟩
  · have hdecoded : D.decoded = match inflateCounts z strm (D.size fly h.value)
        (D.room fly h.value) with
        | none => none
        | some (.error r) => some (.error r)
        | some (.ok countsArray) => D.store fly h.value countsArray := by
      simp only [decoded, hopen, hpure]
    have hcalloc : Triple refused _ _ _ :=
      (hdrCalloc_spec (D.size fly h.value).toNat).frame
        (Owned.blocks (some h) + Owned.blocks histogram)
    rw [zero_add] at hcalloc
    refine hcalloc.bind ?_
    rintro r o ⟨o', rfl, ⟨rfl, rfl, hnone⟩ | ⟨zeros, b, rfl, rfl, hzeros⟩⟩
    · refine cleanup_outcome (some h) none histogram (by decide)
        (hnone.imp (fun hn => ?_) fun hr => ⟨hr, rfl⟩)
      rw [hdecoded, inflateCounts, hn]
    · dsimp only
      split_ifs with hroom
      · rw [inflateCounts, hzeros] at hdecoded
        dsimp only at hdecoded
        rw [if_pos hroom] at hdecoded
        rcases hinflate : z.inflate strm (D.room fly h.value).toNat .finish with
          ⟨status, out, strm'⟩
        rw [hinflate] at hdecoded
        cases status with
        | streamEnd =>
            dsimp only at hdecoded ⊢
            rcases hstore : D.store fly h.value (out ++ zeros.drop out.length) with _ | e | k
            · rw [hstore] at hdecoded
              exact .ret ⟨.inl (by rw [hdecoded]; rfl), fun result g hr => by cases hr⟩
            · rw [hstore] at hdecoded
              exact cleanup_outcome (some h) (some b) histogram (L.store _ _ _ _ hstore)
                (.inl hdecoded)
            · rw [hstore] at hdecoded
              exact cleanup_stored { h with value := k } b histogram hdecoded
        | ok => exact cleanup_outcome (some h) (some b) histogram (by decide) (.inl hdecoded)
        | failed => exact cleanup_outcome (some h) (some b) histogram (by decide) (.inl hdecoded)
      · refine .ret ⟨.inl ?_, fun result g hr => by cases hr⟩
        rw [hdecoded, inflateCounts, hzeros]
        dsimp only
        rw [if_neg hroom]
        rfl
  · have hmem : e ∈ decodeErrors := by
      rcases hpure with hpure | ⟨rfl, -⟩
      · exact hdrInit_error hpure
      · decide
    rw [zero_add]
    refine cleanup_first histogram (L.init e hmem)
      (hpure.imp (fun hp => ?_) fun ⟨he, hr⟩ => ?_)
    · simp only [decoded, hopen, hp]
    · exact ⟨hr, by rw [he, L.nomem]⟩
  · refine .ret ⟨.inl ?_, fun result g hr => by cases hr⟩
    simp only [decoded, hopen, hpure]
    rfl

end Decode

end Decoder

section Buffers
variable (z : Zlib) (stack : ℕ → UInt8) (buffer : List UInt8)

theorem lawful_v0 : (hdrDecodeCompressedV0 z stack buffer).Lawful where
  opened _ hr := Decoder.ne_zero_of_mem (openFlyweightV0_error hr)
  init _ _ := show ENOMEM ≠ 0 by decide
  nomem := rfl
  store fly h countsArray r hr := by
    obtain ⟨k, -, he⟩ := Option.map_eq_some_iff.mp hr
    cases he

theorem lawful_v1 : (hdrDecodeCompressedV1 z stack buffer).Lawful where
  opened r hr := by
    dsimp only [hdrDecodeCompressedV1] at hr
    split at hr
    next e hopen =>
      cases hr
      exact Decoder.ne_zero_of_mem (openFlyweightV1_error hopen)
    · split_ifs at hr
      cases hr
      decide
  init _ _ := show ENOMEM ≠ 0 by decide
  nomem := rfl
  store fly h countsArray r hr := by
    obtain ⟨k, -, he⟩ := Option.map_eq_some_iff.mp hr
    cases he

theorem lawful_v2 : (hdrDecodeCompressedV2 z stack buffer).Lawful where
  opened _ hr := Decoder.ne_zero_of_mem (openFlyweightV1_error hr)
  init _ hr := Decoder.ne_zero_of_mem hr
  nomem := rfl
  store fly h countsArray r hr := by
    obtain ⟨k, -, he⟩ := Option.map_eq_some_iff.mp hr
    dsimp only at he
    split_ifs at he with hk
    cases he
    exact hk

def hdrDecodeCompressed (histogram : Option Histogram) :
    Alloc (Option (Int32 × Option Histogram)) :=
  if buffer.length < SIZEOF_COMPRESSION_FLYWEIGHT then pure (some (EINVAL, histogram))
  else
    let compressionCookie := getCookieBase (CompressionFlyweight.read buffer).cookie
    if V0_COMPRESSION_COOKIE = compressionCookie then
      (hdrDecodeCompressedV0 z stack buffer).decode histogram
    else if V1_COMPRESSION_COOKIE = compressionCookie then
      (hdrDecodeCompressedV1 z stack buffer).decode histogram
    else if V2_COMPRESSION_COOKIE = compressionCookie then
      (hdrDecodeCompressedV2 z stack buffer).decode histogram
    else pure (some (HDR_COMPRESSION_COOKIE_MISMATCH, histogram))

/-- Whatever the buffer holds and whichever allocations are refused. -/
theorem hdrDecodeCompressed_spec (histogram : Option Histogram) :
    Triple refused (blocks histogram) (hdrDecodeCompressed z stack buffer histogram)
      (Decoder.Outcome refused (HdrHistogramC.hdrDecodeCompressed z stack buffer
        (histogram.map Histogram.value)) histogram) := by
  rw [hdrDecodeCompressed, HdrHistogramC.hdrDecodeCompressed]
  dsimp only
  split_ifs
  · exact .ret (Decoder.outcome_failed (by decide) (.inl rfl) ⟨rfl, rfl⟩)
  · rw [← decoded_v0]
    exact Decoder.decode_spec (lawful_v0 z stack buffer) histogram
  · rw [← decoded_v1]
    exact Decoder.decode_spec (lawful_v1 z stack buffer) histogram
  · rw [← decoded_v2]
    exact Decoder.decode_spec (lawful_v2 z stack buffer) histogram
  · exact .ret (Decoder.outcome_failed (by decide) (.inl rfl) ⟨rfl, rfl⟩)

end Buffers

end Specs

end HdrHistogramC.Owned
