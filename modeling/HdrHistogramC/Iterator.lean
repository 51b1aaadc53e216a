import HdrHistogramC.Recording

/-!
# Iteration and merging

The basic iterator of `hdr_histogram.c`, the all-values and the recorded-values
iterators over it, and the merge `hdr_add`. The iterator of the source points at
its histogram; here the histogram it points at is an argument of every step, so a
histogram that changes between two steps needs no second model. The union of
specific states is a type parameter, and the function pointer is its instance.
-/
namespace HdrHistogramC
open FixedWidth BoundedLoop LogLinear BucketLayout.Describes

structure HdrIter (σ : Type) where
  countsIndex : Int32
  totalCount : Int64
  count : Int64
  cumulativeCount : Int64
  value : Int64
  highestEquivalentValue : Int64
  lowestEquivalentValue : Int64
  medianEquivalentValue : Int64
  valueIteratedFrom : Int64
  valueIteratedTo : Int64
  specifics : σ
deriving Repr, DecidableEq

namespace HdrIter
variable {σ : Type}

def hasBuckets (it : HdrIter σ) (h : HdrHistogram) : Bool := it.countsIndex < h.countsLen

def hasNext (it : HdrIter σ) : Bool := it.cumulativeCount < it.totalCount

def moveNext (h : HdrHistogram) (it : HdrIter σ) : Option (Bool × HdrIter σ) :=
  let it := { it with countsIndex := it.countsIndex + 1 }
  if !it.hasBuckets h then some (false, it)
  else (h.countsGetNormalised it.countsIndex).map fun count =>
    let value := h.hdrValueAtIndex it.countsIndex
    let bucketIndex := h.getBucketIndex value
    let subBucketIndex := getSubBucketIndex value bucketIndex h.unitMagnitude
    let leq := h.lowestEquivalentValueGivenBucketIndices bucketIndex subBucketIndex
    let size := h.sizeOfEquivalentValueRangeGivenBucketIndices bucketIndex subBucketIndex
    (true, { it with
      count := count
      cumulativeCount := it.cumulativeCount + count
      lowestEquivalentValue := leq
      value := value
      highestEquivalentValue := leq + size - 1
      medianEquivalentValue := leq + (size >>> 1) })

/-- The result of `move_next` is ignored by the source. -/
def basicIterNext (h : HdrHistogram) (it : HdrIter σ) : Option (Bool × HdrIter σ) :=
  if !it.hasNext || it.countsIndex ≥ h.countsLen then some (false, it)
  else (it.moveNext h).map fun r => (true, r.2)

def updateIteratedValues (it : HdrIter σ) (newValueIteratedTo : Int64) : HdrIter σ :=
  { it with valueIteratedFrom := it.valueIteratedTo, valueIteratedTo := newValueIteratedTo }

/-- The fields that the source leaves uninitialised are zero here; `move_next`
writes them before anything reads them. -/
def hdrIterInit (h : HdrHistogram) (specifics : σ) : HdrIter σ where
  countsIndex := -1
  totalCount := h.totalCount
  count := 0
  cumulativeCount := 0
  value := 0
  highestEquivalentValue := 0
  lowestEquivalentValue := 0
  medianEquivalentValue := 0
  valueIteratedFrom := 0
  valueIteratedTo := 0
  specifics := specifics

end HdrIter

/-- The kind of an iterator fixes the function that `_next_fp` points to. -/
class HdrIterKind (σ : Type) where
  nextFp : HdrHistogram → HdrIter σ → Option (Bool × HdrIter σ)

def hdrIterNext {σ : Type} [HdrIterKind σ] (h : HdrHistogram) (it : HdrIter σ) :
    Option (Bool × HdrIter σ) := HdrIterKind.nextFp h it

def allValuesIterNext (h : HdrHistogram) (it : HdrIter Unit) : Option (Bool × HdrIter Unit) :=
  (it.moveNext h).map fun r =>
    if r.1 then (true, r.2.updateIteratedValues r.2.value) else (false, r.2)

instance : HdrIterKind Unit := ⟨allValuesIterNext⟩

structure HdrIterRecorded where
  countAddedInThisIterationStep : Int64
deriving Repr, DecidableEq

def recordedBody (h : HdrHistogram) (it : HdrIter HdrIterRecorded) :
    Option (Round (HdrIter HdrIterRecorded) (Bool × HdrIter HdrIterRecorded)) :=
  (it.basicIterNext h).map fun r =>
    if r.1 then
      if r.2.count ≠ 0 then
        let it := r.2.updateIteratedValues r.2.value
        .leave (true, { it with specifics := ⟨it.count⟩ })
      else .again r.2
    else .leave (false, r.2)

/-- Every round moves the cursor, which starts at `-1` and stops at the array
length. -/
def recordedIterNext (h : HdrHistogram) (it : HdrIter HdrIterRecorded) :
    Option (Bool × HdrIter HdrIterRecorded) :=
  run (recordedBody h) (h.countsLen.toInt.toNat + 2) it

instance : HdrIterKind HdrIterRecorded := ⟨recordedIterNext⟩

def hdrIterRecordedInit (h : HdrHistogram) : HdrIter HdrIterRecorded := HdrIter.hdrIterInit h ⟨0⟩

/-- One round of the merges, for their way of recording an entry. -/
def mergeBody (record : HdrHistogram → Int64 → Int64 → Option (Bool × HdrHistogram))
    (source : HdrHistogram) :
    Int64 × HdrHistogram × HdrIter HdrIterRecorded →
      Option (Round (Int64 × HdrHistogram × HdrIter HdrIterRecorded) (Int64 × HdrHistogram))
  | (dropped, h, it) =>
      match hdrIterNext source it with
      | none => none
      | some (false, _) => some (.leave (dropped, h))
      | some (true, it) =>
          (record h it.value it.count).map fun r =>
            .again (if r.1 then dropped else dropped + it.count, r.2, it)

/-- The histogram `from` of the source is `source` here. -/
def HdrHistogram.hdrAdd (h source : HdrHistogram) : Option (Int64 × HdrHistogram) :=
  run (mergeBody HdrHistogram.hdrRecordValues source) (source.countsLen.toInt.toNat + 2)
    (0, h, hdrIterRecordedInit source)

def HdrHistogram.hdrAddWhileCorrectingForCoordinatedOmission (h source : HdrHistogram)
    (expectedInterval : Int64) : Option (Int64 × HdrHistogram) :=
  run (mergeBody (fun h value count => h.hdrRecordCorrectedValues value count expectedInterval)
    source) (source.countsLen.toInt.toNat + 2) (0, h, hdrIterRecordedInit source)

/-- The counts in index order, through the normalizing offset. -/
def HdrHistogram.logicalCounts (h : HdrHistogram) : List Int64 :=
  (List.range h.counts.length).map fun i => (h.countsGetNormalised (Int32.ofNat i)).getD 0

/-- What every reader of a histogram relies on. -/
structure HdrHistogram.WellFormed (h : HdrHistogram) : Prop where
  accepted : h.Accepted
  normalised : ∀ i, 0 ≤ i → i < h.countsLen →
    0 ≤ h.normalizeIndex i ∧ h.normalizeIndex i < h.countsLen
  nonneg : ∀ c ∈ h.counts, 0 ≤ c
  total : h.totalCount.toInt = (h.counts.map Int64.toInt).sum

section Normalise
variable {h : HdrHistogram} {u m b : ℕ}

theorem normalizeIndex_cases (h : HdrHistogram) (i : Int32) :
    (h.normalizingIndexOffset = 0 ∧ h.normalizeIndex i = i) ∨
    (i - h.normalizingIndexOffset < 0 ∧
      h.normalizeIndex i = i - h.normalizingIndexOffset + h.countsLen) ∨
    (¬ i - h.normalizingIndexOffset < 0 ∧ i - h.normalizingIndexOffset ≥ h.countsLen ∧
      h.normalizeIndex i = i - h.normalizingIndexOffset + -h.countsLen) ∨
    (¬ i - h.normalizingIndexOffset < 0 ∧ ¬ i - h.normalizingIndexOffset ≥ h.countsLen ∧
      h.normalizeIndex i = i - h.normalizingIndexOffset + 0) := by
  unfold HdrHistogram.normalizeIndex
  by_cases hz : h.normalizingIndexOffset = 0
  · exact .inl ⟨hz, if_pos hz⟩
  · rw [if_neg hz]
    dsimp only
    split_ifs with hneg hbig
    · exact .inr (.inl ⟨hneg, rfl⟩)
    · exact .inr (.inr (.inl ⟨hneg, hbig, rfl⟩))
    · exact .inr (.inr (.inr ⟨hneg, hbig, rfl⟩))

theorem normalizeIndex_toInt (D : h.Describes u m b) {i : Int32} {n : ℕ} (hi : i.toInt = n)
    (hn : n < (b + 1) * 2 ^ m)
    (h₁ : -h.countsLen.toInt ≤ h.normalizingIndexOffset.toInt)
    (h₂ : h.normalizingIndexOffset.toInt ≤ h.countsLen.toInt) :
    (h.normalizeIndex i).toInt =
      (n - h.normalizingIndexOffset.toInt) % ((b + 1) * 2 ^ m : ℕ) := by
  have hlen := D.countsLen_toInt
  have hlt := D.countsLen_lt
  have i0 : (0 : Int32).toInt = 0 := rfl
  rw [hlen] at h₁ h₂
  have hsub : (i - h.normalizingIndexOffset).toInt = n - h.normalizingIndexOffset.toInt := by
    rw [sub32] <;> rw [hi] <;> omega
  have hnegl : (-h.countsLen).toInt = -h.countsLen.toInt := by
    rw [Int32.toInt_neg, bmod32] <;> omega
  have hcases := normalizeIndex_cases h i
  generalize (b + 1) * 2 ^ m = L at *
  simp only [ge_iff_le, Int32.lt_iff_toInt_lt, Int32.le_iff_toInt_le, hsub, hlen, i0] at hcases
  rcases hcases with ⟨hz, hval⟩ | ⟨hneg, hval⟩ | ⟨hneg, hbig, hval⟩ | ⟨hneg, hbig, hval⟩
  · rw [hval, hz, i0, hi, sub_zero, Int.emod_eq_of_lt (by omega) (by omega)]
  · have hadd : (h.normalizeIndex i).toInt = n - h.normalizingIndexOffset.toInt + L := by
      rw [hval, add32] <;> rw [hsub, hlen] <;> omega
    rw [hadd, ← Int.add_emod_right, Int.emod_eq_of_lt (by omega) (by omega)]
  · have hadd : (h.normalizeIndex i).toInt = n - h.normalizingIndexOffset.toInt - L := by
      rw [hval, add32] <;> rw [hsub, hnegl, hlen] <;> omega
    rw [hadd, Int.emod_eq_sub_self_emod, Int.emod_eq_of_lt (by omega) (by omega)]
  · rw [hval, add32] <;> rw [hsub, i0]
    · rw [add_zero, Int.emod_eq_of_lt (by omega) (by omega)]
    · omega
    · omega

theorem normalizeIndex_zero_lt (D : h.Describes u m b)
    (hbig : h.countsLen.toInt < h.normalizingIndexOffset.toInt) :
    (h.normalizeIndex 0).toInt < 0 := by
  have hlen := D.countsLen_toInt
  have hoff := h.normalizingIndexOffset.toInt_lt
  have i0 : (0 : Int32).toInt = 0 := rfl
  have hsub : (0 - h.normalizingIndexOffset).toInt = -h.normalizingIndexOffset.toInt := by
    rw [sub32] <;> rw [i0] <;> omega
  have hcases := normalizeIndex_cases h 0
  simp only [ge_iff_le, Int32.lt_iff_toInt_lt, hsub, i0] at hcases
  rcases hcases with ⟨hz, -⟩ | ⟨-, hval⟩ | ⟨hneg, -⟩ | ⟨hneg, -⟩
  · rw [hz, i0] at hbig
    omega
  · rw [hval, add32] <;> rw [hsub] <;> omega
  · omega
  · omega

theorem normalizeIndex_last_out (D : h.Describes u m b)
    (hsmall : h.normalizingIndexOffset.toInt < -h.countsLen.toInt) :
    ¬ (0 ≤ (h.normalizeIndex (h.countsLen - 1)).toInt ∧
      (h.normalizeIndex (h.countsLen - 1)).toInt < h.countsLen.toInt) := by
  have hlen := D.countsLen_toInt
  have hpos : 0 < (b + 1) * 2 ^ m := by positivity
  have hoff := h.normalizingIndexOffset.le_toInt
  have i0 : (0 : Int32).toInt = 0 := rfl
  have hlast : (h.countsLen - 1).toInt = h.countsLen.toInt - 1 := by
    have := h.countsLen.toInt_lt
    rw [sub32] <;> rw [Int32.toInt_one] <;> omega
  have hnegl : (-h.countsLen).toInt = -h.countsLen.toInt := by
    have := h.countsLen.toInt_lt
    rw [Int32.toInt_neg, bmod32] <;> omega
  have hcases := normalizeIndex_cases h (h.countsLen - 1)
  simp only [ge_iff_le, Int32.lt_iff_toInt_lt, Int32.le_iff_toInt_le, i0] at hcases
  by_cases hover : h.countsLen.toInt - 1 - h.normalizingIndexOffset.toInt < 2 ^ 31
  · have hsub : (h.countsLen - 1 - h.normalizingIndexOffset).toInt =
        h.countsLen.toInt - 1 - h.normalizingIndexOffset.toInt := by
      rw [sub32] <;> rw [hlast] <;> omega
    rw [hsub] at hcases
    rcases hcases with ⟨hz, -⟩ | ⟨hneg, -⟩ | ⟨-, -, hval⟩ | ⟨-, hbig, -⟩
    · rw [hz, i0] at hsmall
      omega
    · omega
    · have hadd : (h.normalizeIndex (h.countsLen - 1)).toInt =
          -1 - h.normalizingIndexOffset.toInt := by
        rw [hval, add32] <;> rw [hsub, hnegl] <;> omega
      omega
    · omega
  · -- the subtraction wraps to a negative word
    have hsub : (h.countsLen - 1 - h.normalizingIndexOffset).toInt =
        h.countsLen.toInt - 1 - h.normalizingIndexOffset.toInt - 2 ^ 32 := by
      have := D.countsLen_lt
      rw [Int32.toInt_sub, hlast, ← Int.sub_bmod_right]
      exact bmod32 (by push_cast; omega) (by push_cast; omega)
    rw [hsub] at hcases
    have hlt := D.countsLen_lt
    rcases hcases with ⟨hz, -⟩ | ⟨-, hval⟩ | ⟨hneg, -⟩ | ⟨hneg, -⟩
    · rw [hz, i0] at hsmall
      omega
    · have hadd : (h.normalizeIndex (h.countsLen - 1)).toInt = h.countsLen.toInt - 1 -
          h.normalizingIndexOffset.toInt - 2 ^ 32 + h.countsLen.toInt := by
        rw [hval, add32] <;> rw [hsub] <;> omega
      omega
    · omega
    · omega

/-- Exactly the offsets up to the array length keep every index in range. -/
theorem normalised_iff (D : h.Describes u m b) :
    (∀ i, 0 ≤ i → i < h.countsLen → 0 ≤ h.normalizeIndex i ∧ h.normalizeIndex i < h.countsLen) ↔
      -h.countsLen.toInt ≤ h.normalizingIndexOffset.toInt ∧
        h.normalizingIndexOffset.toInt ≤ h.countsLen.toInt := by
  have hlen := D.countsLen_toInt
  have hpos : 0 < (b + 1) * 2 ^ m := by positivity
  have i0 : (0 : Int32).toInt = 0 := rfl
  simp only [Int32.le_iff_toInt_le, Int32.lt_iff_toInt_lt, i0]
  constructor
  · intro hall
    constructor <;> by_contra hout
    · have hlast : (h.countsLen - 1).toInt = h.countsLen.toInt - 1 := by
        have := h.countsLen.toInt_lt
        rw [sub32] <;> rw [Int32.toInt_one] <;> omega
      exact normalizeIndex_last_out D (by omega) (hall (h.countsLen - 1) (by omega) (by omega))
    · have hzero := normalizeIndex_zero_lt D (by omega)
      have := (hall 0 (by omega) (by omega)).1
      omega
  · rintro ⟨h₁, h₂⟩ i hi0 hi
    obtain ⟨n, hn⟩ := Int.eq_ofNat_of_zero_le hi0
    rw [normalizeIndex_toInt D hn (by omega) h₁ h₂, hlen]
    exact ⟨Int.emod_nonneg _ (by omega), Int.emod_lt_of_pos _ (by omega)⟩

theorem logicalCounts_length (h : HdrHistogram) : h.logicalCounts.length = h.counts.length := by
  rw [HdrHistogram.logicalCounts, List.length_map, List.length_range]

/-- How far the normalizing offset rotates the array. -/
def HdrHistogram.rotation (h : HdrHistogram) : ℕ :=
  (-h.normalizingIndexOffset.toInt % (h.counts.length : ℤ)).toNat

theorem normalizeIndex_rotation (D : h.Describes u m b) {i : Int32} {n : ℕ} (hi : i.toInt = n)
    (hn : n < h.counts.length)
    (h₁ : -h.countsLen.toInt ≤ h.normalizingIndexOffset.toInt)
    (h₂ : h.normalizingIndexOffset.toInt ≤ h.countsLen.toInt) :
    (h.normalizeIndex i).toInt = ((n + h.rotation) % h.counts.length : ℕ) := by
  have hlen := counts_length_nat D
  have hr := Int.emod_nonneg (-h.normalizingIndexOffset.toInt)
    (show (h.counts.length : ℤ) ≠ 0 by omega)
  rw [normalizeIndex_toInt D hi (by omega) h₁ h₂, ← hlen]
  push_cast
  rw [HdrHistogram.rotation, Int.toNat_of_nonneg hr, Int.add_emod_emod, Int.sub_eq_add_neg]

theorem countsGetNormalised_eq (D : h.Describes u m b) {i : Int32} {n : ℕ} (hi : i.toInt = n)
    (hn : n < h.counts.length)
    (h₁ : -h.countsLen.toInt ≤ h.normalizingIndexOffset.toInt)
    (h₂ : h.normalizingIndexOffset.toInt ≤ h.countsLen.toInt) :
    h.countsGetNormalised i = h.counts[(n + h.rotation) % h.counts.length]? :=
  countsGetDirect_eq (normalizeIndex_rotation D hi hn h₁ h₂)

/-- The logical view of the array is a rotation. -/
theorem logicalCounts_eq_rotate (D : h.Describes u m b)
    (h₁ : -h.countsLen.toInt ≤ h.normalizingIndexOffset.toInt)
    (h₂ : h.normalizingIndexOffset.toInt ≤ h.countsLen.toInt) :
    h.logicalCounts = h.counts.rotate h.rotation := by
  have hlen := counts_length_nat D
  have hlt := D.countsLen_lt
  apply List.ext_getElem
  · rw [logicalCounts_length, List.length_rotate]
  · intro n hn hn'
    rw [logicalCounts_length] at hn
    have hcast : (Int32.ofNat n).toInt = n := Int32.toInt_ofNat_of_lt (by omega)
    rw [List.getElem_rotate]
    simp only [HdrHistogram.logicalCounts, List.getElem_map, List.getElem_range]
    rw [countsGetNormalised_eq D hcast hn h₁ h₂, List.getElem?_eq_getElem, Option.getD_some]

theorem logicalCounts_perm (W : h.WellFormed) : h.logicalCounts.Perm h.counts := by
  obtain ⟨u, m, b, D⟩ := W.accepted.describes
  obtain ⟨h₁, h₂⟩ := (normalised_iff D).mp W.normalised
  rw [logicalCounts_eq_rotate D h₁ h₂]
  exact List.rotate_perm _ _

end Normalise

/-- The value and the count of every index, in index order. -/
def HdrHistogram.entries (h : HdrHistogram) : List Sample :=
  (List.range h.counts.length).map fun i =>
    (h.hdrValueAtIndex (Int32.ofNat i), (h.countsGetNormalised (Int32.ofNat i)).getD 0)

/-- The entries that a recorded-values iterator reports. -/
def HdrHistogram.recordedSamples (h : HdrHistogram) : List Sample :=
  h.entries.filter fun r => r.2 ≠ 0

/-- What one successful `move_next` to index `n` writes. -/
structure Moved {σ : Type} (h : HdrHistogram) (n : ℕ) (it it' : HdrIter σ) : Prop where
  index : it'.countsIndex.toInt = n
  count : h.countsGetNormalised (Int32.ofNat n) = some it'.count
  value : it'.value = h.hdrValueAtIndex (Int32.ofNat n)
  cumulative : it'.cumulativeCount = it.cumulativeCount + it'.count
  lowest : it'.lowestEquivalentValue = h.hdrLowestEquivalentValue it'.value
  highest : it'.highestEquivalentValue = h.highestEquivalentValue it'.value
  median : it'.medianEquivalentValue = h.hdrMedianEquivalentValue it'.value
  total : it'.totalCount = it.totalCount
  iteratedFrom : it'.valueIteratedFrom = it.valueIteratedFrom
  iteratedTo : it'.valueIteratedTo = it.valueIteratedTo
  specifics : it'.specifics = it.specifics

/-- The cursor has consumed the first `n` entries. -/
structure At {σ : Type} (h : HdrHistogram) (it : HdrIter σ) (n : ℕ) : Prop where
  index : it.countsIndex.toInt = n - 1
  le : n ≤ h.counts.length
  total : it.totalCount = h.totalCount
  cumulative : it.cumulativeCount.toInt + sumCounts (h.entries.drop n) = h.totalCount.toInt

section Cursor
variable {σ : Type} {h : HdrHistogram} {it it' : HdrIter σ} {n : ℕ}

theorem ofNat_index (D : h.Accepted) (hn : n ≤ h.counts.length) : (Int32.ofNat n).toInt = n := by
  obtain ⟨u, m, b, D⟩ := D.describes
  have hlen := counts_length_nat D
  have hlt := D.countsLen_lt
  exact Int32.toInt_ofNat_of_lt (by omega)

theorem countsGetNormalised_some (W : h.WellFormed) (hn : n < h.counts.length) :
    ∃ c, h.countsGetNormalised (Int32.ofNat n) = some c := by
  obtain ⟨u, m, b, D⟩ := W.accepted.describes
  obtain ⟨h₁, h₂⟩ := (normalised_iff D).mp W.normalised
  rw [countsGetNormalised_eq D (ofNat_index W.accepted hn.le) hn h₁ h₂,
    List.getElem?_eq_getElem (Nat.mod_lt _ (by omega))]
  exact ⟨_, rfl⟩

theorem moveNext_lt (W : h.WellFormed) (hi : it.countsIndex.toInt = n - 1)
    (hn : n < h.counts.length) :
    ∃ it', it.moveNext h = some (true, it') ∧ Moved h n it it' := by
  obtain ⟨u, m, b, D⟩ := W.accepted.describes
  have hlen := counts_length_nat D
  have hlt := D.countsLen_lt
  have hcast := ofNat_index W.accepted hn.le
  have hnext : it.countsIndex + 1 = Int32.ofNat n := by
    rw [← Int32.toInt_inj, hcast, add32] <;> rw [hi, Int32.toInt_one] <;> omega
  have hin : (Int32.ofNat n < h.countsLen) := by
    rw [Int32.lt_iff_toInt_lt, hcast, D.countsLen_toInt]
    omega
  obtain ⟨c, hc⟩ := countsGetNormalised_some W hn
  have hmove : it.moveNext h = some (true, { it with
      countsIndex := Int32.ofNat n
      count := c
      cumulativeCount := it.cumulativeCount + c
      lowestEquivalentValue := h.hdrLowestEquivalentValue (h.hdrValueAtIndex (Int32.ofNat n))
      value := h.hdrValueAtIndex (Int32.ofNat n)
      highestEquivalentValue := h.highestEquivalentValue (h.hdrValueAtIndex (Int32.ofNat n))
      medianEquivalentValue :=
        h.hdrMedianEquivalentValue (h.hdrValueAtIndex (Int32.ofNat n)) }) := by
    unfold HdrIter.moveNext HdrIter.hasBuckets
    simp only [hnext, hin, decide_true, Bool.not_true, Bool.false_eq_true, if_false, hc,
      Option.map_some]
    rfl
  exact ⟨_, hmove, ⟨hcast, hc, rfl, rfl, rfl, rfl, rfl, rfl, rfl, rfl, rfl⟩⟩

theorem moveNext_end (ok : h.Accepted) (hi : it.countsIndex.toInt = h.counts.length - 1) :
    it.moveNext h = some (false, { it with countsIndex := it.countsIndex + 1 }) := by
  obtain ⟨u, m, b, D⟩ := ok.describes
  have hlen := counts_length_nat D
  have hlt := D.countsLen_lt
  have hout : ¬ it.countsIndex + 1 < h.countsLen := by
    rw [Int32.lt_iff_toInt_lt, D.countsLen_toInt, add32] <;> rw [hi, Int32.toInt_one] <;> omega
  unfold HdrIter.moveNext HdrIter.hasBuckets
  simp only [hout, decide_false, Bool.not_false, if_true]

theorem entries_length (h : HdrHistogram) : h.entries.length = h.counts.length := by
  rw [HdrHistogram.entries, List.length_map, List.length_range]

theorem entries_drop (hn : n < h.counts.length) : h.entries.drop n =
    (h.hdrValueAtIndex (Int32.ofNat n), (h.countsGetNormalised (Int32.ofNat n)).getD 0) ::
      h.entries.drop (n + 1) := by
  rw [List.drop_eq_getElem_cons (by rwa [entries_length])]
  simp [HdrHistogram.entries]

theorem sumCounts_entries (W : h.WellFormed) : sumCounts h.entries = h.totalCount.toInt := by
  rw [W.total, ← ((logicalCounts_perm W).map Int64.toInt).sum_eq]
  simp [sumCounts, HdrHistogram.entries, HdrHistogram.logicalCounts, Function.comp_def]

theorem entries_nonneg (W : h.WellFormed) : ∀ r ∈ h.entries, 0 ≤ r.2.toInt := by
  intro r hr
  have hmem : r.2 ∈ h.logicalCounts := by
    obtain ⟨i, hi, rfl⟩ := List.mem_map.mp hr
    exact List.mem_map.mpr ⟨i, hi, rfl⟩
  exact (nonneg_iff _).mp (W.nonneg _ ((logicalCounts_perm W).mem_iff.mp hmem))

theorem sumCounts_nonneg {rs : List Sample} (hr : ∀ r ∈ rs, 0 ≤ r.2.toInt) : 0 ≤ sumCounts rs :=
  List.sum_nonneg fun x hx => by
    obtain ⟨r, hr', rfl⟩ := List.mem_map.mp hx
    exact hr r hr'

theorem sum_filter_nonzero (f : Sample → ℤ) (hf : ∀ v, f (v, 0) = 0) (rs : List Sample) :
    ((rs.filter fun r => r.2 ≠ 0).map f).sum = (rs.map f).sum := by
  induction rs with
  | nil => rfl
  | cons r rs ih =>
      rw [List.filter_cons]
      by_cases hr : r.2 = 0
      · have hz : f r = 0 := by
          rw [← hf r.1, ← hr]
        simpa [hr, hz] using ih
      · simpa [hr] using ih

theorem recordedSamples_nonneg (W : h.WellFormed) :
    ∀ r ∈ h.recordedSamples, 0 ≤ r.2.toInt :=
  fun r hr => entries_nonneg W r (List.mem_of_mem_filter hr)

theorem sumCounts_recordedSamples (W : h.WellFormed) :
    sumCounts h.recordedSamples = h.totalCount.toInt := by
  rw [← sumCounts_entries W]
  exact sum_filter_nonzero (fun r => r.2.toInt) (fun _ => rfl) h.entries

theorem filter_eq_nil {rs : List Sample} (hr : ∀ r ∈ rs, 0 ≤ r.2.toInt) (hz : sumCounts rs = 0) :
    rs.filter (fun r => r.2 ≠ 0) = [] := by
  induction rs with
  | nil => rfl
  | cons r rs ih =>
      have hrest := sumCounts_nonneg fun s hs => hr s (List.mem_cons_of_mem r hs)
      have h0 := hr r List.mem_cons_self
      rw [sumCounts_cons] at hz
      have hr0 : r.2 = 0 := by rw [← Int64.toInt_inj, Int64.toInt_zero]; omega
      rw [List.filter_cons, if_neg (by simp [hr0])]
      exact ih (fun s hs => hr s (List.mem_cons_of_mem r hs)) (by omega)

theorem at_init (W : h.WellFormed) (s : σ) : At h (HdrIter.hdrIterInit h s) 0 where
  index := rfl
  le := Nat.zero_le _
  total := rfl
  cumulative := by
    rw [List.drop_zero, sumCounts_entries W]
    change (0 : Int64).toInt + _ = _
    simp

/-- The step lemma of iteration: the running sum stays exact. -/
theorem At.moved (W : h.WellFormed) (A : At h it n) (hn : n < h.counts.length)
    (M : Moved h n it it') : At h it' (n + 1) := by
  have hd := A.cumulative
  rw [entries_drop hn, sumCounts_cons, M.count, Option.getD_some] at hd
  dsimp only at hd
  have hrest : 0 ≤ sumCounts (h.entries.drop (n + 1)) :=
    sumCounts_nonneg fun r hr => entries_nonneg W r (List.mem_of_mem_drop hr)
  have hc : 0 ≤ it'.count.toInt := entries_nonneg W (_, it'.count) (by
    have : (h.hdrValueAtIndex (Int32.ofNat n), it'.count) ∈ h.entries := by
      refine List.mem_map.mpr ⟨n, List.mem_range.mpr hn, ?_⟩
      rw [M.count, Option.getD_some]
    exact this)
  have htot := h.totalCount.toInt_lt
  have hcum := it.cumulativeCount.le_toInt
  refine ⟨?_, hn, by rw [M.total, A.total], ?_⟩
  · rw [M.index]; push_cast; omega
  · rw [M.cumulative, add64] <;> omega

end Cursor

section Recorded
variable {h : HdrHistogram} {it : HdrIter HdrIterRecorded} {n : ℕ}

theorem basicIterNext_stop {σ : Type} {it : HdrIter σ}
    (hlt : ¬ it.cumulativeCount < it.totalCount) (h : HdrHistogram) :
    it.basicIterNext h = some (false, it) := by
  unfold HdrIter.basicIterNext HdrIter.hasNext
  simp only [hlt, decide_false, Bool.not_false, Bool.true_or, if_true]

theorem basicIterNext_move {σ : Type} {it : HdrIter σ} (W : h.WellFormed)
    (hi : it.countsIndex.toInt = n - 1) (hn : n < h.counts.length)
    (hlt : it.cumulativeCount < it.totalCount) :
    ∃ it', it.basicIterNext h = some (true, it') ∧ Moved h n it it' := by
  obtain ⟨it', hm, M⟩ := moveNext_lt W hi hn
  have hidx : ¬ it.countsIndex ≥ h.countsLen := by
    have := h.counts_length
    rw [ge_iff_le, Int32.le_iff_toInt_le]
    omega
  refine ⟨it', ?_, M⟩
  unfold HdrIter.basicIterNext HdrIter.hasNext
  simp only [hlt, hidx, hm, decide_true, Bool.not_true, decide_false, Bool.or_false,
    Bool.false_eq_true, if_false, Option.map_some]

/-- The basic iterator stops exactly when no count is left. -/
theorem basicIterNext_cases {σ : Type} {it : HdrIter σ} (W : h.WellFormed) (A : At h it n) :
    (sumCounts (h.entries.drop n) = 0 ∧ it.basicIterNext h = some (false, it)) ∨
    (n < h.counts.length ∧ ∃ it', it.basicIterNext h = some (true, it') ∧ Moved h n it it' ∧
      At h it' (n + 1)) := by
  have hrest : 0 ≤ sumCounts (h.entries.drop n) :=
    sumCounts_nonneg fun r hr => entries_nonneg W r (List.mem_of_mem_drop hr)
  have hcum := A.cumulative
  by_cases hlt : it.cumulativeCount < it.totalCount
  · right
    have hlt' := Int64.lt_iff_toInt_lt.mp hlt
    rw [A.total] at hlt'
    have hn : n < h.counts.length := by
      by_contra hge
      rw [List.drop_eq_nil_of_le (by rw [entries_length]; omega), sumCounts_nil] at hcum
      omega
    obtain ⟨it', hb, M⟩ := basicIterNext_move W A.index hn hlt
    exact ⟨hn, it', hb, M, A.moved W hn M⟩
  · left
    refine ⟨?_, basicIterNext_stop hlt h⟩
    rw [Int64.lt_iff_toInt_lt, A.total] at hlt
    omega

/-- The entries that the iterator skips have no counts. Its rounds keep an invariant `I` of
the cursor, which either moves or is `Done`. -/
theorem recordedIterNext_cases {I Done : HdrIter HdrIterRecorded → ℕ → Prop}
    (hmove : ∀ it n, I it n → (Done it n ∧ it.basicIterNext h = some (false, it)) ∨
      (n < h.counts.length ∧ ∃ it', it.basicIterNext h = some (true, it') ∧ Moved h n it it' ∧
        I it' (n + 1)))
    (hI : I it n) :
    ∃ it₁ k, I it₁ k ∧ n ≤ k ∧ it₁.cumulativeCount = it.cumulativeCount ∧
      (h.entries.drop n).filter (fun r => r.2 ≠ 0) =
        (h.entries.drop k).filter (fun r => r.2 ≠ 0) ∧
      ((Done it₁ k ∧ recordedIterNext h it = some (false, it₁)) ∨
        (k < h.counts.length ∧ ∃ it₂, Moved h k it₁ it₂ ∧ I it₂ (k + 1) ∧ it₂.count ≠ 0 ∧
          recordedIterNext h it = some (true,
            { it₂.updateIteratedValues it₂.value with specifics := ⟨it₂.count⟩ }))) := by
  have main : ∀ (fuel : ℕ) (it : HdrIter HdrIterRecorded) (n : ℕ), I it n →
      h.counts.length - n < fuel →
      ∃ it₁ k, I it₁ k ∧ n ≤ k ∧ it₁.cumulativeCount = it.cumulativeCount ∧
        (h.entries.drop n).filter (fun r => r.2 ≠ 0) =
          (h.entries.drop k).filter (fun r => r.2 ≠ 0) ∧
        ((Done it₁ k ∧ run (recordedBody h) fuel it = some (false, it₁)) ∨
          (k < h.counts.length ∧ ∃ it₂, Moved h k it₁ it₂ ∧ I it₂ (k + 1) ∧ it₂.count ≠ 0 ∧
            run (recordedBody h) fuel it = some (true,
              { it₂.updateIteratedValues it₂.value with specifics := ⟨it₂.count⟩ }))) := by
    intro fuel
    induction fuel with
    | zero => intro it n _ hf; omega
    | succ fuel ih =>
        intro it n hI hf
        rcases hmove it n hI with ⟨hd, hb⟩ | ⟨hn, it', hb, M, hI'⟩
        · refine ⟨it, n, hI, le_rfl, rfl, rfl, .inl ⟨hd, run_leave ?_⟩⟩
          simp only [recordedBody, hb, Option.map_some, Bool.false_eq_true, if_false]
        · by_cases hc : it'.count = 0
          · have hbody : recordedBody h it = some (.again it') := by
              simp only [recordedBody, hb, Option.map_some, hc, if_true, ne_eq, not_true, if_false]
            obtain ⟨it₁, k, hI₁, hk, hcum, hfilter, hend⟩ := ih it' (n + 1) hI' (by omega)
            refine ⟨it₁, k, hI₁, by omega, ?_, ?_, ?_⟩
            · rw [hcum, M.cumulative, hc, Int64.add_zero]
            · rw [← hfilter, entries_drop hn, M.count, Option.getD_some, List.filter_cons]
              simp only [hc, ne_eq, not_true, decide_false, Bool.false_eq_true, if_false]
            · rwa [run_again hbody]
          · have hbody : recordedBody h it = some (.leave (true,
                { it'.updateIteratedValues it'.value with specifics := ⟨it'.count⟩ })) := by
              simp only [recordedBody, hb, Option.map_some, hc, if_true, ne_eq, not_false_eq_true]
              rfl
            exact ⟨it, n, hI, le_rfl, rfl, rfl, .inr ⟨hn, it', M, hI', hc, run_leave hbody⟩⟩
  have hlen := h.counts_length
  exact main _ it n hI (by omega)

/-- What one call of `recorded_iter_next` reports: the next entry with a count. -/
theorem recordedIterNext_spec (W : h.WellFormed) (A : At h it n) :
    match (h.entries.drop n).filter fun r => r.2 ≠ 0 with
    | [] => ∃ it', recordedIterNext h it = some (false, it')
    | r :: more => ∃ it' k, recordedIterNext h it = some (true, it') ∧ it'.value = r.1 ∧
        it'.count = r.2 ∧ At h it' k ∧ (h.entries.drop k).filter (fun r => r.2 ≠ 0) = more := by
  obtain ⟨it₁, k, A₁, -, -, hfilter, hend⟩ :=
    recordedIterNext_cases (fun _ _ A => basicIterNext_cases W A) A
  rw [hfilter]
  rcases hend with ⟨hz, hnext⟩ | ⟨hk, it₂, M, A₂, hc, hnext⟩
  · have hnil : (h.entries.drop k).filter (fun r => r.2 ≠ 0) = [] :=
      filter_eq_nil (fun r hr => entries_nonneg W r (List.mem_of_mem_drop hr)) hz
    rw [hnil]
    exact ⟨it₁, hnext⟩
  · rw [entries_drop hk, M.count, Option.getD_some, List.filter_cons]
    simp only [hc, ne_eq, not_false_eq_true, decide_true, if_true]
    exact ⟨_, k + 1, hnext, M.value, rfl, ⟨A₂.index, A₂.le, A₂.total, A₂.cumulative⟩, rfl⟩

end Recorded

/-- Recording samples one after the other, and adding up the counts of the refused ones. -/
def mergeAll (record : HdrHistogram → Int64 → Int64 → Option (Bool × HdrHistogram)) :
    List Sample → Int64 × HdrHistogram → Option (Int64 × HdrHistogram)
  | [], s => some s
  | r :: rs, (dropped, h) =>
      match record h r.1 r.2 with
      | none => none
      | some (ok, h) => mergeAll record rs (if ok then dropped else dropped + r.2, h)

theorem run_mergeBody {record : HdrHistogram → Int64 → Int64 → Option (Bool × HdrHistogram)}
    {source : HdrHistogram} (W : source.WellFormed) :
    ∀ (rs : List Sample) (fuel n : ℕ) (d : Int64) (h : HdrHistogram)
      (it : HdrIter HdrIterRecorded), At source it n →
      (source.entries.drop n).filter (fun r => r.2 ≠ 0) = rs → rs.length < fuel →
      run (mergeBody record source) fuel (d, h, it) = mergeAll record rs (d, h) := by
  intro rs
  induction rs with
  | nil =>
      intro fuel n d h it A hrs hf
      obtain ⟨fuel, rfl⟩ : ∃ k, fuel = k + 1 := ⟨fuel - 1, by simp at hf; omega⟩
      have hnext := recordedIterNext_spec W A
      rw [hrs] at hnext
      obtain ⟨it', hnext⟩ := hnext
      have hbody : mergeBody record source (d, h, it) = some (.leave (d, h)) := by
        simp only [mergeBody, hdrIterNext, HdrIterKind.nextFp, hnext]
      rw [run_leave hbody]
      rfl
  | cons r rs ih =>
      intro fuel n d h it A hrs hf
      obtain ⟨fuel, rfl⟩ : ∃ k, fuel = k + 1 := ⟨fuel - 1, by simp at hf; omega⟩
      have hnext := recordedIterNext_spec W A
      rw [hrs] at hnext
      obtain ⟨it', k, hnext, hv, hc, A', hrs'⟩ := hnext
      rw [mergeAll]
      cases hrec : record h r.1 r.2 with
      | none =>
          have hbody : mergeBody record source (d, h, it) = none := by
            simp only [mergeBody, hdrIterNext, HdrIterKind.nextFp, hnext, hv, hc, hrec,
              Option.map_none]
          rw [run, hbody]
      | some s =>
          have hbody : mergeBody record source (d, h, it) =
              some (.again (if s.1 then d else d + r.2, s.2, it')) := by
            simp only [mergeBody, hdrIterNext, HdrIterKind.nextFp, hnext, hv, hc, hrec,
              Option.map_some]
          rw [run_again hbody]
          exact ih fuel k _ s.2 it' A' hrs' (by simp at hf; omega)

/-- A merge records the entries of the source in index order. -/
theorem run_mergeBody_init {record : HdrHistogram → Int64 → Int64 → Option (Bool × HdrHistogram)}
    {source : HdrHistogram} (W : source.WellFormed) (h : HdrHistogram) :
    run (mergeBody record source) (source.countsLen.toInt.toNat + 2)
      (0, h, hdrIterRecordedInit source) = mergeAll record source.recordedSamples (0, h) := by
  have hlen := source.counts_length
  have hle : source.recordedSamples.length ≤ source.counts.length := by
    rw [← entries_length]
    exact List.length_filter_le ..
  exact run_mergeBody W _ _ 0 0 h _ (at_init W _) rfl (by omega)

theorem hdrAdd_eq_mergeAll {source : HdrHistogram} (W : source.WellFormed) (h : HdrHistogram) :
    h.hdrAdd source = mergeAll HdrHistogram.hdrRecordValues source.recordedSamples (0, h) :=
  run_mergeBody_init W h

/-- The running count of the samples that a layout cannot record. -/
def droppedFrom (h : BucketLayout) (d : Int64) (rs : List Sample) : Int64 :=
  rs.foldl (fun d r => if h.Recordable r.1 then d else d + r.2) d

theorem mergeAll_recordAll {u m b : ℕ} (rs : List Sample) : ∀ (d : Int64) (h : HdrHistogram),
    h.Describes u m b → h.normalizingIndexOffset = 0 →
    mergeAll HdrHistogram.hdrRecordValues rs (d, h) =
      (h.recordAll rs).map fun h' => (droppedFrom h.toBucketLayout d rs, h') := by
  induction rs with
  | nil => intro d h _ _; rfl
  | cons r rs ih =>
      intro d h D off
      rcases hdrRecordValues_cases D off r.1 r.2 with ⟨hr, h₁, hrec, S⟩ | ⟨hr, hrec⟩
      · simp only [mergeAll, HdrHistogram.recordAll, hrec, droppedFrom, List.foldl_cons, if_pos hr,
          if_true]
        rw [ih d h₁ (by rw [S.layout]; exact D) (by rw [S.offset, off]), S.layout]
        rfl
      · simp only [mergeAll, HdrHistogram.recordAll, hrec, droppedFrom, List.foldl_cons, if_neg hr,
          Bool.false_eq_true, if_false]
        exact ih (d + r.2) h D off

/-- Merging records the entries of the source that fit, and adds up the others. -/
theorem hdrAdd_eq {h source : HdrHistogram} {u m b : ℕ} (D : h.Describes u m b)
    (off : h.normalizingIndexOffset = 0) (W : source.WellFormed) :
    h.hdrAdd source = (h.recordAll source.recordedSamples).map fun h' =>
      (droppedFrom h.toBucketLayout 0 source.recordedSamples, h') := by
  rw [hdrAdd_eq_mergeAll W, mergeAll_recordAll _ _ _ D off]

end HdrHistogramC
