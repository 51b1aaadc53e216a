import HdrHistogramC.BucketMap

/-!
# The histogram and its recording functions

`struct hdr_histogram` with its counts array, and the functions that write it.
The array is allocated with `counts_len` entries; the structure carries that as a
field, so an access is either inside the array or `none`, which stands for an
access the source must not make. Doubles are only copied, so the conversion ratio
is its bit pattern.
-/
namespace HdrHistogramC
open FixedWidth BoundedLoop

structure HdrHistogram extends BucketLayout where
  minValue : Int64
  maxValue : Int64
  normalizingIndexOffset : Int32
  conversionRatio : UInt64
  totalCount : Int64
  counts : List Int64
  counts_length : (counts.length : ℤ) = countsLen.toInt
deriving Repr, DecidableEq

/-- The bit pattern of the double `1.0`. -/
def conversionRatioOne : UInt64 := 0x3FF0000000000000

/-- An array of `n` zero words. A negative length, converted to `size_t`, is more
than an allocator can give. -/
def hdrCalloc (n : Int32) : Option { l : List Int64 // (l.length : ℤ) = n.toInt } :=
  if h : 0 ≤ n.toInt then
    some ⟨List.replicate n.toInt.toNat 0, by rw [List.length_replicate]; omega⟩
  else none

def hdrInitPreallocated (cfg : HdrHistogramBucketConfig)
    (counts : { l : List Int64 // (l.length : ℤ) = cfg.countsLen.toInt }) : HdrHistogram where
  toBucketLayout := cfg.layout
  minValue := INT64_MAX
  maxValue := 0
  normalizingIndexOffset := 0
  conversionRatio := conversionRatioOne
  totalCount := 0
  counts := counts.1
  counts_length := counts.2

def hdrInit (lowestDiscernibleValue highestTrackableValue : Int64) (significantFigures : Int32) :
    Option (Except Int32 HdrHistogram) :=
  match hdrCalculateBucketConfig lowestDiscernibleValue highestTrackableValue
      significantFigures with
  | none => none
  | some (.error r) => some (.error r)
  | some (.ok cfg) =>
      match hdrCalloc cfg.countsLen with
      | none => some (.error ENOMEM)
      | some counts => some (.ok (hdrInitPreallocated cfg counts))

/-- The empty histogram of the sample layout. -/
def sampleHistogram : HdrHistogram where
  toBucketLayout := sampleLayout
  minValue := INT64_MAX
  maxValue := 0
  normalizingIndexOffset := 0
  conversionRatio := conversionRatioOne
  totalCount := 0
  counts := List.replicate 64 0
  counts_length := by decide

theorem sampleHistogram_init : hdrInit 1 100 1 = some (.ok sampleHistogram) := by decide +kernel

namespace HdrHistogram

def hdrReset (h : HdrHistogram) : HdrHistogram :=
  { h with
    totalCount := 0
    minValue := INT64_MAX
    maxValue := 0
    counts := List.replicate h.counts.length 0
    counts_length := by rw [List.length_replicate, h.counts_length] }

def normalizeIndex (h : HdrHistogram) (index : Int32) : Int32 :=
  if h.normalizingIndexOffset = 0 then index
  else
    let normalizedIndex := index - h.normalizingIndexOffset
    let adjustment :=
      if normalizedIndex < 0 then h.countsLen
      else if normalizedIndex ≥ h.countsLen then -h.countsLen
      else 0
    normalizedIndex + adjustment

def countsGetDirect (h : HdrHistogram) (index : Int32) : Option Int64 :=
  if 0 ≤ index then h.counts[index.toInt.toNat]? else none

def countsGetNormalised (h : HdrHistogram) (index : Int32) : Option Int64 :=
  h.countsGetDirect (h.normalizeIndex index)

/-- `h->counts[index] += value` -/
def countsAdd (h : HdrHistogram) (index : Int32) (value : Int64) : Option HdrHistogram :=
  if 0 ≤ index ∧ index.toInt.toNat < h.counts.length then
    some { h with
      counts := h.counts.modify index.toInt.toNat (· + value)
      counts_length := by rw [List.length_modify, h.counts_length] }
  else none

def countsIncNormalised (h : HdrHistogram) (index : Int32) (value : Int64) :
    Option HdrHistogram :=
  let stored :=
    if h.normalizingIndexOffset = 0 then h.countsAdd index value
    else h.countsAdd (h.normalizeIndex index) value
  stored.map fun h => { h with totalCount := h.totalCount + value }

def updateMinMax (h : HdrHistogram) (value : Int64) : HdrHistogram :=
  let h := if value > h.maxValue then { h with maxValue := value } else h
  if value ≠ 0 ∧ value < h.minValue then { h with minValue := value } else h

def hdrRecordValues (h : HdrHistogram) (value count : Int64) : Option (Bool × HdrHistogram) :=
  if value < 0 ∨ h.highestTrackableValue < value then some (false, h)
  else
    let countsIndex := h.countsIndexFor value
    if countsIndex.toUInt32 ≥ h.countsLen.toUInt32 then some (false, h)
    else (h.countsIncNormalised countsIndex count).map fun h => (true, h.updateMinMax value)

/-- One round of the backfill loop, on `missing_value` and the histogram. -/
def backfillBody (count expectedInterval : Int64) :
    Int64 × HdrHistogram → Option (Round (Int64 × HdrHistogram) (Bool × HdrHistogram))
  | (missingValue, h) =>
      if missingValue ≥ expectedInterval then
        match h.hdrRecordValues missingValue count with
        | none => none
        | some (false, h) => some (.leave (false, h))
        | some (true, h) => some (.again (missingValue - expectedInterval, h))
      else some (.leave (true, h))

/-- `missing_value` falls by at least one a round, which bounds the rounds. -/
def hdrRecordCorrectedValues (h : HdrHistogram) (value count expectedInterval : Int64) :
    Option (Bool × HdrHistogram) :=
  match h.hdrRecordValues value count with
  | none => none
  | some (false, h) => some (false, h)
  | some (true, h) =>
      if expectedInterval ≤ 0 ∨ value ≤ expectedInterval then some (true, h)
      else run (backfillBody count expectedInterval) (value.toInt.toNat + 1)
        (value - expectedInterval, h)

end HdrHistogram
end HdrHistogramC
