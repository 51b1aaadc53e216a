import HdrHistogramC.Percentile

/-!
# Batch percentile queries

`hdr_value_at_percentiles` stores the target counts in its output array and
replaces them while one all-values iterator walks the histogram. For ascending
percentiles it reports for each target what the scan of the single query finds; it
differs from the single query where that one treats percentile zero apart, and in
an empty histogram, where the targets stay in the output.
-/
namespace HdrHistogramC
open FixedWidth BoundedLoop LogLinear BucketLayout.Describes

namespace HdrHistogram

/-- The target that the batch query stores in the output array. -/
def targetCount (countAt : ℚ → Int64 → Int64) (h : HdrHistogram) (percentile : ℚ) : Int64 :=
  let countAtPercentile := countAt (requestedPercentile percentile) h.totalCount
  if countAtPercentile > 1 then countAtPercentile else 1

/-- The inner loop: every target that the total has reached is replaced. -/
def replaceBody (total reported : Int64) :
    List Int64 × ℕ → Option (Round (List Int64 × ℕ) (List Int64 × ℕ))
  | (values, atPos) =>
      match values[atPos]? with
      | none => some (.leave (values, atPos))
      | some target =>
          if total ≥ target then some (.again (values.set atPos reported, atPos + 1))
          else some (.leave (values, atPos))

def percentilesBody (h : HdrHistogram) :
    HdrIter Unit × Int64 × List Int64 × ℕ →
      Option (Round (HdrIter Unit × Int64 × List Int64 × ℕ) (List Int64))
  | (iter, total, values, atPos) =>
      match hdrIterNext h iter with
      | none => none
      | some (false, _) => some (.leave values)
      | some (true, iter) =>
          if atPos < values.length then
            let total := total + iter.count
            (run (replaceBody total (h.highestEquivalentValue iter.value)) (values.length + 1)
              (values, atPos)).map fun r => .again (iter, total, r.1, r.2)
          else some (.leave values)

/-- A null pointer is `none`. The output array has as many entries as there are
percentiles, all of which are written before any is read. -/
def hdrValueAtPercentiles (countAt : ℚ → Int64 → Int64) (h : HdrHistogram)
    (percentiles : Option (List ℚ)) (values : Option (List Int64)) : Option (Int32 × List Int64) :=
  match percentiles, values with
  | some percentiles, some _ =>
      (run h.percentilesBody (h.countsLen.toInt.toNat + 2)
        (HdrIter.hdrIterInit h (), 0, percentiles.map (h.targetCount countAt), 0)).map
          fun values => (0, values)
  | _, _ => some (EINVAL, values.getD [])

end HdrHistogram

theorem run_replaceBody (total reported : Int64) : ∀ (pending done : List Int64) (fuel : ℕ),
    pending.length < fuel →
    run (HdrHistogram.replaceBody total reported) fuel (done ++ pending, done.length) =
      some (done ++ (pending.takeWhile fun t => t ≤ total).map (fun _ => reported) ++
          pending.dropWhile fun t => t ≤ total,
        done.length + (pending.takeWhile fun t => t ≤ total).length) := by
  intro pending
  induction pending with
  | nil =>
      intro done fuel hf
      obtain ⟨fuel, rfl⟩ : ∃ k, fuel = k + 1 := ⟨fuel - 1, by simp at hf; omega⟩
      have hbody : HdrHistogram.replaceBody total reported (done ++ [], done.length) =
          some (.leave (done ++ [], done.length)) := by
        simp [HdrHistogram.replaceBody]
      rw [run_leave hbody]
      simp
  | cons t pending ih =>
      intro done fuel hf
      obtain ⟨fuel, rfl⟩ : ∃ k, fuel = k + 1 := ⟨fuel - 1, by simp at hf; omega⟩
      by_cases ht : t ≤ total
      · have hbody : HdrHistogram.replaceBody total reported (done ++ t :: pending, done.length) =
            some (.again ((done ++ [reported]) ++ pending, (done ++ [reported]).length)) := by
          simp [HdrHistogram.replaceBody, ht]
        rw [run_again hbody, ih _ fuel (by simp at hf; omega)]
        simp [ht, Nat.add_assoc, Nat.add_comm 1]
      · have hbody : HdrHistogram.replaceBody total reported (done ++ t :: pending, done.length) =
            some (.leave (done ++ t :: pending, done.length)) := by
          simp [HdrHistogram.replaceBody, ht]
        rw [run_leave hbody]
        simp [ht]

section Walk
variable {h : HdrHistogram} {it : HdrIter Unit} {n : ℕ}

theorem allValuesIterNext_lt (W : h.WellFormed) (off : h.normalizingIndexOffset = 0)
    (A : At h it n) (hn : n < h.counts.length) :
    ∃ it', allValuesIterNext h it = some (true, it') ∧ At h it' (n + 1) ∧
      it'.count = h.counts[n] ∧ it'.value = h.hdrValueAtIndex (Int32.ofNat n) := by
  obtain ⟨it', hmove, M⟩ := moveNext_lt W A.index hn
  have A' := A.moved W hn M
  have hc := M.count
  rw [HdrHistogram.countsGetNormalised, HdrHistogram.normalizeIndex, if_pos off,
    countsGetDirect_eq (ofNat_index W.accepted hn.le), List.getElem?_eq_getElem hn] at hc
  refine ⟨it'.updateIteratedValues it'.value, ?_, ⟨A'.index, A'.le, A'.total, A'.cumulative⟩,
    ?_, M.value⟩
  · simp only [allValuesIterNext, hmove, Option.map_some, if_true]
  · exact (Option.some.inj hc).symm

theorem allValuesIterNext_end (W : h.WellFormed) (A : At h it n) (hn : n = h.counts.length) :
    ∃ it', allValuesIterNext h it = some (false, it') := by
  have hi := A.index
  rw [hn] at hi
  refine ⟨{ it with countsIndex := it.countsIndex + 1 }, ?_⟩
  simp only [allValuesIterNext, moveNext_end W.accepted hi, Option.map_some, Bool.false_eq_true,
    if_false]

/-- What the batch query leaves for a target, from index `n` on. -/
def batchValue (h : HdrHistogram) (n : ℕ) (total : Int64) (cs : List Int64) (t : Int64) : Int64 :=
  match accumulate t n total cs with
  | .leave i => h.highestEquivalentValue (h.hdrValueAtIndex (Int32.ofNat i))
  | .again _ => t

/-- On ascending targets one step of the walk serves a first part of them. -/
theorem map_batchValue (h : HdrHistogram) (n : ℕ) (total c : Int64) (cs : List Int64)
    {pending : List Int64} (sorted : pending.Pairwise (· ≤ ·)) :
    (pending.takeWhile fun t => t ≤ total + c).map
        (fun _ => h.highestEquivalentValue (h.hdrValueAtIndex (Int32.ofNat n))) ++
      (pending.dropWhile fun t => t ≤ total + c).map (batchValue h (n + 1) (total + c) cs) =
    pending.map (batchValue h n total (c :: cs)) := by
  induction pending with
  | nil => rfl
  | cons t pending ih =>
      obtain ⟨hall, hrest⟩ := List.pairwise_cons.mp sorted
      by_cases ht : t ≤ total + c
      · have hval : batchValue h n total (c :: cs) t =
            h.highestEquivalentValue (h.hdrValueAtIndex (Int32.ofNat n)) := by
          rw [batchValue, accumulate, if_pos ht]
        rw [List.takeWhile_cons_of_pos (by simpa using ht),
          List.dropWhile_cons_of_pos (by simpa using ht), List.map_cons, List.map_cons,
          List.cons_append, ih hrest, hval]
      · have hval : ∀ s ∈ t :: pending,
            batchValue h (n + 1) (total + c) cs s = batchValue h n total (c :: cs) s := by
          intro s hs
          have hlt : ¬ total + c ≥ s := by
            intro hle
            rcases List.mem_cons.mp hs with rfl | hs
            · exact ht hle
            · exact ht (Int64.le_trans (hall s hs) hle)
          rw [batchValue, batchValue, accumulate, if_neg hlt]
        rw [List.takeWhile_cons_of_neg (by simpa using ht),
          List.dropWhile_cons_of_neg (by simpa using ht), List.map_nil, List.nil_append]
        exact List.map_congr_left hval

theorem run_percentilesBody (W : h.WellFormed) (off : h.normalizingIndexOffset = 0) :
    ∀ (cs : List Int64) (n fuel : ℕ) (total : Int64) (done pending : List Int64)
      (it : HdrIter Unit), h.counts.drop n = cs → At h it n → pending.Pairwise (· ≤ ·) →
      cs.length < fuel →
      run h.percentilesBody fuel (it, total, done ++ pending, done.length) =
        some (done ++ pending.map (batchValue h n total cs)) := by
  intro cs
  induction cs with
  | nil =>
      intro n fuel total done pending it hcs A _ hf
      obtain ⟨fuel, rfl⟩ : ∃ k, fuel = k + 1 := ⟨fuel - 1, by simp at hf; omega⟩
      have hn : n = h.counts.length := le_antisymm A.le (List.drop_eq_nil_iff.mp hcs)
      obtain ⟨it', hnext⟩ := allValuesIterNext_end W A hn
      have hbody : h.percentilesBody (it, total, done ++ pending, done.length) =
          some (.leave (done ++ pending)) := by
        simp only [HdrHistogram.percentilesBody, hdrIterNext, HdrIterKind.nextFp, hnext]
      have hid : pending.map (batchValue h n total []) = pending :=
        (List.map_congr_left fun t _ => rfl).trans (List.map_id pending)
      rw [run_leave hbody, hid]
  | cons c cs ih =>
      intro n fuel total done pending it hcs A sorted hf
      obtain ⟨fuel, rfl⟩ : ∃ k, fuel = k + 1 := ⟨fuel - 1, by simp at hf; omega⟩
      have hn : n < h.counts.length := by
        by_contra hge
        rw [List.drop_eq_nil_of_le (by omega)] at hcs
        cases hcs
      rw [List.drop_eq_getElem_cons hn, List.cons.injEq] at hcs
      obtain ⟨it', hnext, A', hc, hv⟩ := allValuesIterNext_lt W off A hn
      rw [hcs.1] at hc
      cases pending with
      | nil =>
          have hbody : h.percentilesBody (it, total, done ++ [], done.length) =
              some (.leave (done ++ [])) := by
            simp [HdrHistogram.percentilesBody, hdrIterNext, HdrIterKind.nextFp, hnext]
          rw [run_leave hbody]
          rfl
      | cons t pending =>
          let reported := h.highestEquivalentValue (h.hdrValueAtIndex (Int32.ofNat n))
          let served := (t :: pending).takeWhile fun t => t ≤ total + c
          let rest := (t :: pending).dropWhile fun t => t ≤ total + c
          have hbody := run_replaceBody (total + c) reported (t :: pending) done
            ((done ++ t :: pending).length + 1) (by simp)
          have hround : h.percentilesBody (it, total, done ++ t :: pending, done.length) =
              some (.again (it', total + c, done ++ served.map (fun _ => reported) ++ rest,
                done.length + served.length)) := by
            simp only [HdrHistogram.percentilesBody, hdrIterNext, HdrIterKind.nextFp, hnext, hc,
              hv]
            rw [if_pos (by simp), hbody]
            rfl
          have hdone := ih (n + 1) fuel (total + c) (done ++ served.map (fun _ => reported)) rest
            it' hcs.2 A' (sorted.sublist (List.dropWhile_sublist _)) (by simp at hf; omega)
          rw [List.length_append, List.length_map] at hdone
          rw [run_again hround, hdone, List.append_assoc, map_batchValue h n total c cs sorted]

end Walk

/-- What the source relies on in the double expression for the target count: it grows
with the percentile and stays between zero and the total. -/
structure TargetExpression (countAt : ℚ → Int64 → Int64) (total : Int64) : Prop where
  nonneg : ∀ p, 0 ≤ p → p ≤ 100 → 0 ≤ countAt p total
  le_total : ∀ p, 0 ≤ p → p ≤ 100 → countAt p total ≤ total
  mono : ∀ p q, 0 ≤ p → p ≤ q → q ≤ 100 → countAt p total ≤ countAt q total

/-- An ascending array of percentiles in `[0, 100]`. -/
structure Ascending (ps : List ℚ) : Prop where
  sorted : ps.Pairwise (· ≤ ·)
  nonneg : ∀ p ∈ ps, 0 ≤ p
  le : ∀ p ∈ ps, p ≤ 100

/-- The batch query succeeds with the answers of the single query. -/
def PercentilesAgree (countAt : ℚ → Int64 → Int64) (avx2 : Bool) (h : HdrHistogram)
    (ps : List ℚ) : Prop :=
  ∀ values, h.hdrValueAtPercentiles countAt (some ps) (some values) =
    some (0, ps.map (HdrHistogram.hdrValueAtPercentile countAt avx2 h))

/-- The cumulative count reaches `t` at index `i`. -/
structure Reached (h : HdrHistogram) (t : Int64) (i : ℕ) : Prop where
  lt : i < h.counts.length
  before : sumWords (h.counts.take i) < t.toInt
  reached : t.toInt ≤ sumWords (h.counts.take (i + 1))

section Agreement
variable {countAt : ℚ → Int64 → Int64} {h : HdrHistogram} {ps : List ℚ} {p : ℚ}

theorem requestedPercentile_eq (hp : p ≤ 100) : requestedPercentile p = p := by
  rw [requestedPercentile]
  split_ifs with hlt
  · rfl
  · exact le_antisymm (not_lt.mp hlt) hp

/-- The two lower bounds on the target, `> 0` and `> 1`, are the same. -/
theorem clamp_eq (c : Int64) : (if c > 0 then c else 1) = if c > 1 then c else 1 := by
  by_cases h1 : c > 1
  · have h0 : c > 0 := Int64.lt_trans (by decide) h1
    rw [if_pos h0, if_pos h1]
  · rw [if_neg h1]
    split_ifs with h0
    · change 0 < c at h0
      change ¬ 1 < c at h1
      rw [Int64.lt_iff_toInt_lt, Int64.toInt_zero] at h0
      rw [Int64.lt_iff_toInt_lt, Int64.toInt_one] at h1
      rw [← Int64.toInt_inj, Int64.toInt_one]
      omega
    · rfl

theorem targetCount_pos : 1 ≤ (h.targetCount countAt p).toInt := by
  unfold HdrHistogram.targetCount
  dsimp only
  split_ifs with h1
  · change 1 < _ at h1
    rw [Int64.lt_iff_toInt_lt, Int64.toInt_one] at h1
    omega
  · rfl

theorem targetCount_le (T : TargetExpression countAt h.totalCount) (h0 : 0 ≤ p) (h100 : p ≤ 100)
    (hpos : 0 < h.totalCount.toInt) : (h.targetCount countAt p).toInt ≤ h.totalCount.toInt := by
  have hle := Int64.le_iff_toInt_le.mp (T.le_total p h0 h100)
  unfold HdrHistogram.targetCount
  rw [requestedPercentile_eq h100]
  dsimp only
  split_ifs
  · exact hle
  · rw [Int64.toInt_one]; omega

theorem targetCount_mono (T : TargetExpression countAt h.totalCount) (A : Ascending ps) :
    (ps.map (h.targetCount countAt)).Pairwise (· ≤ ·) := by
  rw [List.pairwise_map]
  apply A.sorted.imp_of_mem
  intro p q hp hq hpq
  have hmono := T.mono p q (A.nonneg p hp) hpq (A.le q hq)
  unfold HdrHistogram.targetCount
  rw [requestedPercentile_eq (A.le p hp), requestedPercentile_eq (A.le q hq)]
  rw [Int64.le_iff_toInt_le] at hmono ⊢
  dsimp only
  split_ifs with h₁ h₂ h₂
  · exact hmono
  · change 1 < _ at h₁
    change ¬ 1 < _ at h₂
    rw [Int64.lt_iff_toInt_lt] at h₁ h₂
    omega
  · exact Int.le_of_lt (Int64.lt_iff_toInt_lt.mp h₂)
  · exact le_rfl

/-- The single query, by the scalar loop and the target that the batch query uses. -/
theorem hdrValueAtPercentile_eq (W : h.WellFormed) (avx2 : Bool) :
    HdrHistogram.hdrValueAtPercentile countAt avx2 h p =
      if p = 0 then h.lowestEquivalentValue
        (h.valueOfScan (accumulate (h.targetCount countAt p) 0 0 h.counts))
      else h.highestEquivalentValue
        (h.valueOfScan (accumulate (h.targetCount countAt p) 0 0 h.counts)) := by
  unfold HdrHistogram.hdrValueAtPercentile HdrHistogram.getValueFromIdxUpToCount
    HdrHistogram.getValueFromIdxUpToCountAvx2 HdrHistogram.getValueFromIdxUpToCountScalar
    HdrHistogram.targetCount
  dsimp only
  rw [clamp_eq, accumulateChunks_eq W.addable, ite_self]

theorem hdrValueAtPercentiles_eq (W : h.WellFormed) (off : h.normalizingIndexOffset = 0)
    (T : TargetExpression countAt h.totalCount) (A : Ascending ps) (values : List Int64) :
    h.hdrValueAtPercentiles countAt (some ps) (some values) =
      some (0, ps.map fun p => batchValue h 0 0 h.counts (h.targetCount countAt p)) := by
  have hlen := h.counts_length
  have hrun := run_percentilesBody W off h.counts 0 (h.countsLen.toInt.toNat + 2) 0 []
    (ps.map (h.targetCount countAt)) (HdrIter.hdrIterInit h ()) rfl (at_init W ())
    (targetCount_mono T A) (by omega)
  simp only [List.nil_append, List.length_nil, List.map_map] at hrun
  simp only [HdrHistogram.hdrValueAtPercentiles, hrun, Option.map_some, Function.comp_def]

theorem exists_reached (W : h.WellFormed) {t : Int64} (h₁ : 1 ≤ t.toInt)
    (ht : t.toInt ≤ h.totalCount.toInt) : ∃ i, Reached h t i := by
  obtain ⟨i, hi, -, hreach⟩ := accumulate_index W.addable h₁ (by rwa [sumWords, ← W.total])
  exact ⟨i, hi, not_le.mp (mt (hreach i).mpr (lt_irrefl i)), (hreach (i + 1)).mp (by omega)⟩

theorem Reached.accumulate_eq {t : Int64} {i : ℕ} (W : h.WellFormed) (H : Reached h t i) :
    accumulate t 0 0 h.counts = .leave i := by
  simpa using accumulate_leave (k := 0) W.addable H.lt
    (by rw [Int64.toInt_zero, zero_add]; exact H.before)
    (by rw [Int64.toInt_zero, zero_add]; exact H.reached)

theorem lowest_eq_highest_iff (ok : h.Accepted) {i : ℕ} (hi : i < h.counts.length) :
    h.highestEquivalentValue (h.hdrValueAtIndex (Int32.ofNat i)) =
      h.lowestEquivalentValue (h.hdrValueAtIndex (Int32.ofNat i)) ↔
    h.hdrSizeOfEquivalentValueRange (h.hdrValueAtIndex (Int32.ofNat i)) = 1 := by
  obtain ⟨u, m, b, D⟩ := ok.describes
  rw [counts_length_nat D] at hi
  have hlen := D.countsLen_lt
  have hcast : (Int32.ofNat i).toInt = i := Int32.toInt_ofNat_of_lt (by omega)
  have hval := D.hdrValueAtIndex_toInt hcast hi
  have hw := width_pos (u := u) (m := m) i
  rw [← Int64.toInt_inj, ← Int64.toInt_inj, highest_hdrValueAtIndex D hi,
    D.lowestEquivalentValue_toInt (by omega), hval, Int.toNat_natCast, index_lower,
    D.size_hdrValueAtIndex hcast hi, Int64.toInt_one]
  omega

theorem agree_iff_of_pos (W : h.WellFormed) (T : TargetExpression countAt h.totalCount)
    (avx2 : Bool) (h0 : 0 ≤ p) (h100 : p ≤ 100) (hpos : 0 < h.totalCount.toInt) :
    batchValue h 0 0 h.counts (h.targetCount countAt p) =
        HdrHistogram.hdrValueAtPercentile countAt avx2 h p ↔
      (p = 0 → ∀ i, Reached h (h.targetCount countAt p) i →
        h.hdrSizeOfEquivalentValueRange (h.hdrValueAtIndex (Int32.ofNat i)) = 1) := by
  obtain ⟨i, H⟩ := exists_reached W targetCount_pos (targetCount_le T h0 h100 hpos)
  have hacc := H.accumulate_eq W
  have huniq : ∀ j, Reached h (h.targetCount countAt p) j → j = i := by
    intro j Hj
    have := (Hj.accumulate_eq W).symm.trans hacc
    simpa using this
  rw [hdrValueAtPercentile_eq W, batchValue, hacc]
  simp only [HdrHistogram.valueOfScan]
  by_cases hp : p = 0
  · rw [if_pos hp, lowest_eq_highest_iff W.accepted H.lt]
    constructor
    · intro hsize _ j Hj
      rw [huniq j Hj]
      exact hsize
    · exact fun hall => hall hp i H
  · rw [if_neg hp]
    exact iff_of_true rfl fun hz => absurd hz hp

theorem equivalentValues_zero {u m b : ℕ} (D : h.Describes u m b) :
    (h.lowestEquivalentValue 0).toInt = 0 ∧ (h.highestEquivalentValue 0).toInt = 2 ^ u - 1 := by
  have hidx := index_lower (u := u) (m := m) 0
  have hw := width_eq (u := u) (m := m) (k := 0) (s := 0) (by positivity) (.inl rfl)
  simp only [lower_zero, zero_mul, add_zero] at hidx hw
  constructor
  · rw [D.lowestEquivalentValue_toInt le_rfl, Int64.toInt_zero, Int.toNat_zero, hidx, lower_zero]
    rfl
  · rw [D.highestEquivalentValue_toInt le_rfl, Int64.toInt_zero, Int.toNat_zero, hidx, lower_zero,
      hw]
    push_cast
    omega

/-- The target count of an empty histogram is one, which no scan reaches. -/
theorem targetCount_empty (T : TargetExpression countAt h.totalCount) (h0 : 0 ≤ p)
    (h100 : p ≤ 100) (hzero : h.totalCount.toInt ≤ 0) : h.targetCount countAt p = 1 := by
  have hle := Int64.le_iff_toInt_le.mp (T.le_total p h0 h100)
  unfold HdrHistogram.targetCount
  rw [requestedPercentile_eq h100]
  dsimp only
  rw [if_neg]
  change ¬ 1 < _
  rw [Int64.lt_iff_toInt_lt, Int64.toInt_one]
  omega

theorem unit_highest_iff (u : ℕ) : (1 : ℤ) = 2 ^ u - 1 ↔ u = 1 := by
  constructor
  · intro he
    have : (2 : ℤ) ^ u = 2 ^ 1 := by omega
    exact Int.pow_right_injective (by decide) this
  · rintro rfl
    rfl

theorem agree_iff_of_empty (W : h.WellFormed) (T : TargetExpression countAt h.totalCount)
    (avx2 : Bool) (h0 : 0 ≤ p) (h100 : p ≤ 100) (hzero : h.totalCount.toInt ≤ 0) :
    batchValue h 0 0 h.counts (h.targetCount countAt p) =
        HdrHistogram.hdrValueAtPercentile countAt avx2 h p ↔ p ≠ 0 ∧ h.unitMagnitude = 1 := by
  obtain ⟨u, m, b, D⟩ := W.accepted.describes
  obtain ⟨hlow, hhigh⟩ := equivalentValues_zero D
  obtain ⟨w, hacc, -⟩ := accumulate_again (t := 1) (k := 0) W.addable (by
    have htotal : sumWords h.counts = h.totalCount.toInt := by rw [W.total, sumWords]
    rw [htotal, Int64.toInt_zero, Int64.toInt_one]
    omega)
  have hunit : h.unitMagnitude = 1 ↔ u = 1 := by
    rw [← Int32.toInt_inj, D.unitMagnitude, Int32.toInt_one]
    omega
  rw [hdrValueAtPercentile_eq W, targetCount_empty T h0 h100 hzero, batchValue, hacc, hunit]
  simp only [HdrHistogram.valueOfScan]
  by_cases hp : p = 0
  · rw [if_pos hp, ← Int64.toInt_inj, hlow]
    simp [hp]
  · rw [if_neg hp, ← Int64.toInt_inj, hhigh, Int64.toInt_one, unit_highest_iff]
    simp [hp]

/-- Exactly when the batch query answers like the single query. -/
theorem percentiles_agree_iff (W : h.WellFormed) (off : h.normalizingIndexOffset = 0)
    (T : TargetExpression countAt h.totalCount) (A : Ascending ps) (avx2 : Bool) :
    PercentilesAgree countAt avx2 h ps ↔
      ∀ p ∈ ps, (0 < h.totalCount → p = 0 → ∀ i, Reached h (h.targetCount countAt p) i →
          h.hdrSizeOfEquivalentValueRange (h.hdrValueAtIndex (Int32.ofNat i)) = 1) ∧
        (h.totalCount = 0 → p ≠ 0 ∧ h.unitMagnitude = 1) := by
  have hmap : PercentilesAgree countAt avx2 h ps ↔ ∀ p ∈ ps,
      batchValue h 0 0 h.counts (h.targetCount countAt p) =
        HdrHistogram.hdrValueAtPercentile countAt avx2 h p := by
    simp only [PercentilesAgree, hdrValueAtPercentiles_eq W off T A, Option.some.injEq,
      Prod.mk.injEq, true_and, forall_const, List.map_inj_left]
  have hnonneg : 0 ≤ h.totalCount.toInt := by
    have hs := sumWords_nonneg fun c hc => (nonneg_iff c).mp (W.nonneg c hc)
    rwa [sumWords, ← W.total] at hs
  rw [hmap, Int64.lt_iff_toInt_lt, ← Int64.toInt_inj, Int64.toInt_zero]
  refine forall₂_congr fun p hp => ?_
  by_cases hpos : 0 < h.totalCount.toInt
  · rw [agree_iff_of_pos W T avx2 (A.nonneg p hp) (A.le p hp) hpos]
    simp only [hpos, forall_const, hpos.ne', false_implies, and_true]
  · rw [agree_iff_of_empty W T avx2 (A.nonneg p hp) (A.le p hp) (by omega)]
    simp only [show h.totalCount.toInt = 0 by omega, lt_irrefl, false_implies, forall_const,
      true_and]

end Agreement

/-- The target count without rounding errors. -/
def exactCountAt (percentile : ℚ) (total : Int64) : Int64 :=
  Int64.ofInt ⌊percentile / 100 * total.toInt + 1 / 2⌋

theorem exactCountAt_toInt {p : ℚ} {total : Int64} (h0 : 0 ≤ p) (h100 : p ≤ 100)
    (ht : 0 ≤ total.toInt) :
    (exactCountAt p total).toInt = ⌊p / 100 * total.toInt + 1 / 2⌋ ∧
      0 ≤ ⌊p / 100 * total.toInt + 1 / 2⌋ ∧ ⌊p / 100 * total.toInt + 1 / 2⌋ ≤ total.toInt := by
  have htq : (0 : ℚ) ≤ total.toInt := by exact_mod_cast ht
  have hlow : 0 ≤ ⌊p / 100 * total.toInt + 1 / 2⌋ := Int.floor_nonneg.mpr (by positivity)
  have hhigh : ⌊p / 100 * total.toInt + 1 / 2⌋ ≤ total.toInt := by
    rw [← Int.lt_add_one_iff, Int.floor_lt]
    have : p / 100 * total.toInt ≤ 1 * total.toInt :=
      mul_le_mul_of_nonneg_right (by rw [div_le_one (by norm_num)]; exact h100) htq
    push_cast
    linarith
  have := total.toInt_lt
  exact ⟨by rw [exactCountAt, Int64.toInt_ofInt]; exact bmod64 (by omega) (by omega), hlow, hhigh⟩

theorem exactCountAt_target {total : Int64} (ht : 0 ≤ total.toInt) :
    TargetExpression exactCountAt total where
  nonneg p h0 h100 := by
    obtain ⟨he, hlow, -⟩ := exactCountAt_toInt h0 h100 ht
    rw [nonneg_iff, he]
    exact hlow
  le_total p h0 h100 := by
    obtain ⟨he, -, hhigh⟩ := exactCountAt_toInt h0 h100 ht
    rw [Int64.le_iff_toInt_le, he]
    exact hhigh
  mono p q h0 hpq h100 := by
    have htq : (0 : ℚ) ≤ total.toInt := by exact_mod_cast ht
    rw [Int64.le_iff_toInt_le, (exactCountAt_toInt h0 (hpq.trans h100) ht).1,
      (exactCountAt_toInt (h0.trans hpq) h100 ht).1]
    apply Int.floor_le_floor
    gcongr

theorem ascending_sample : Ascending [50, 100] where
  sorted := by norm_num
  nonneg := by norm_num
  le := by norm_num

theorem percentiles_agree_sample : ∃ h, sampleHistogram.recordAll [(77, 3), (5, 1)] = some h ∧
    PercentilesAgree exactCountAt true h [50, 100] := by
  have B : Bounded [(77, 3), (5, 1)] := ⟨by simp, by decide +kernel⟩
  obtain ⟨h, hrun, R, -⟩ :=
    (represents_hdrInit sampleHistogram_init).recordAll sample_recordable
  rw [List.nil_append] at R
  have htotal : h.totalCount.toInt = 4 := (R.total_eq B).trans (by decide +kernel)
  have T : TargetExpression exactCountAt h.totalCount := exactCountAt_target (by omega)
  refine ⟨h, hrun,
    (percentiles_agree_iff (R.wellFormed B) R.offset T ascending_sample true).mpr ?_⟩
  intro p hp
  refine ⟨fun _ hz => ?_, fun hz => ?_⟩
  · rw [hz] at hp
    norm_num at hp
  · rw [hz] at htotal
    exact absurd htotal (by decide)

/-- Percentile zero of a cell of four values, and any percentile of nothing. -/
theorem percentiles_disagree_zero : ∃ h, sampleHistogram.recordAll [(77, 1)] = some h ∧
    h.WellFormed ∧ h.normalizingIndexOffset = 0 ∧
    HdrHistogram.hdrValueAtPercentile exactCountAt false h 0 = 76 ∧
    h.hdrValueAtPercentiles exactCountAt (some [0]) (some [0]) = some (0, [79]) ∧
    HdrHistogram.hdrValueAtPercentile exactCountAt false sampleHistogram 50 = 0 ∧
    sampleHistogram.hdrValueAtPercentiles exactCountAt (some [50]) (some [0]) =
      some (0, [1]) := by
  have B : Bounded [(77, 1)] := ⟨by simp, by decide +kernel⟩
  have hrec : ∀ r ∈ [((77 : Int64), (1 : Int64))], sampleHistogram.Recordable r.1 := by
    simpa using sample_recordable (77, 3) (by simp)
  obtain ⟨h, hrun, R, -⟩ := (represents_hdrInit sampleHistogram_init).recordAll hrec
  rw [List.nil_append] at R
  have hvals : (sampleHistogram.recordAll [(77, 1)]).map (fun h =>
      (HdrHistogram.hdrValueAtPercentile exactCountAt false h 0,
        h.hdrValueAtPercentiles exactCountAt (some [0]) (some [0]))) =
      some (76, some (0, [79])) := by decide +kernel
  rw [hrun, Option.map_some, Option.some.injEq, Prod.mk.injEq] at hvals
  exact ⟨h, hrun, R.wellFormed B, R.offset, hvals.1, hvals.2, by decide +kernel,
    by decide +kernel⟩

end HdrHistogramC
