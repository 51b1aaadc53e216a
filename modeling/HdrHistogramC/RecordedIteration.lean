import HdrHistogramC.Gathering

/-!
# Iteration while recording

A recorded-values iterator whose histogram is recorded into between its steps. The iterator
compares a sum of counts as it found them with the total of the histogram it was made for, and
does not look whether its last move succeeded. Counts only grow, so the sum has caught up with
that total when the cursor comes to the end of the array, and the iteration ends there at the
latest.
-/
namespace HdrHistogramC
open FixedWidth BoundedLoop LogLinear BucketLayout.Describes

/-- What one call of `hdr_iter_next` answers, with the histogram and the iterator after it. -/
structure IterStep where
  answer : Bool
  histogram : HdrHistogram
  it : HdrIter HdrIterRecorded
deriving Repr, DecidableEq

/-- Each call of `hdr_iter_next` comes after the recordings of one batch. -/
def iterateRecorded : List (List Sample) → HdrHistogram → HdrIter HdrIterRecorded →
    Option (List IterStep)
  | [], _, _ => some []
  | batch :: batches, h, it =>
      match h.recordAll batch with
      | none => none
      | some h =>
          match hdrIterNext h it with
          | none => none
          | some (answer, it) =>
              (iterateRecorded batches h it).map fun steps => ⟨answer, h, it⟩ :: steps

/-- The count at an index. -/
def HdrHistogram.countAtIndex (h : HdrHistogram) (n : ℕ) : ℤ :=
  ((h.countsGetNormalised (Int32.ofNat n)).getD 0).toInt

/-- The layout is the same, and no count is smaller. -/
structure Grown (h h' : HdrHistogram) : Prop where
  layout : h'.toBucketLayout = h.toBucketLayout
  length : h'.counts.length = h.counts.length
  le : ∀ n < h.counts.length, h.countAtIndex n ≤ h'.countAtIndex n

section Grown
variable {h h' h'' : HdrHistogram} {m : Multiset Sample}

theorem Grown.refl (h : HdrHistogram) : Grown h h := ⟨rfl, rfl, fun _ _ => le_rfl⟩

theorem Grown.trans (G : Grown h h') (G' : Grown h' h'') : Grown h h'' :=
  ⟨G'.layout.trans G.layout, G'.length.trans G.length,
    fun n hn => (G.le n hn).trans (G'.le n (by rwa [G.length]))⟩

theorem Gathered.grown (K : Collected h h' m) (W : h.WellFormed) (F : Fitting h m) :
    Grown h h' where
  layout := K.layout
  length := K.length
  le n hn := by
    have hcast := ofNat_index W.accepted hn.le
    have hlen := h.counts_length
    have hin := W.normalised (Int32.ofNat n)
      (by rw [Int32.le_iff_toInt_le, hcast, Int32.toInt_zero]; omega)
      (by rw [Int32.lt_iff_toInt_lt, hcast]; omega)
    simp only [Int32.le_iff_toInt_le, Int32.lt_iff_toInt_lt, Int32.toInt_zero] at hin
    obtain ⟨j, hj⟩ := Int.eq_ofNat_of_zero_le hin.1
    have hget : h.counts[j]? = some (h.counts.get ⟨j, by omega⟩) :=
      List.getElem?_eq_getElem (by omega)
    obtain ⟨c, hc, he⟩ := K.count_eq W F hget
    have hcell := (cellCount_bounds h.cell j F.nonneg).1
    unfold HdrHistogram.countAtIndex HdrHistogram.countsGetNormalised
    rw [K.normalizeIndex, countsGetDirect_eq hj, countsGetDirect_eq hj, hc, hget,
      Option.getD_some, Option.getD_some]
    omega

theorem countAtIndex_nonneg (W : h.WellFormed) {n : ℕ} (hn : n < h.counts.length) :
    0 ≤ h.countAtIndex n :=
  entries_nonneg W (h.hdrValueAtIndex (Int32.ofNat n), _)
    (List.mem_map.mpr ⟨n, List.mem_range.mpr hn, rfl⟩)

theorem sum_countAtIndex_drop (W : h.WellFormed) {n : ℕ} (hn : n ≤ h.counts.length) :
    ∑ i ∈ Finset.range n, h.countAtIndex i + sumCounts (h.entries.drop n) =
      h.totalCount.toInt := by
  induction n with
  | zero => rw [Finset.sum_range_zero, List.drop_zero, sumCounts_entries W, zero_add]
  | succ n ih =>
      have hsum := ih (by omega)
      rw [entries_drop (by omega), sumCounts_cons] at hsum
      rw [Finset.sum_range_succ, ← hsum, HdrHistogram.countAtIndex, add_assoc]

theorem sum_countAtIndex_le (W : h.WellFormed) {n : ℕ} (hn : n ≤ h.counts.length) :
    ∑ i ∈ Finset.range n, h.countAtIndex i ≤ h.totalCount.toInt := by
  have hsum := sum_countAtIndex_drop W hn
  have hrest := sumCounts_nonneg fun r hr => entries_nonneg W r
    (List.mem_of_mem_drop (i := n) hr)
  omega

end Grown

/-- The cursor has consumed the first `n` entries: it has seen at least the counts that `h₀`
had there, and at most those that `h` has. -/
structure Ahead (h₀ h : HdrHistogram) (it : HdrIter HdrIterRecorded) (n : ℕ) : Prop where
  index : it.countsIndex.toInt = n - 1
  le : n ≤ h₀.counts.length
  total : it.totalCount = h₀.totalCount
  enough : ∑ i ∈ Finset.range n, h₀.countAtIndex i ≤ it.cumulativeCount.toInt
  seen : it.cumulativeCount.toInt ≤ ∑ i ∈ Finset.range n, h.countAtIndex i

section Cursor
variable {h₀ h h' : HdrHistogram} {it it' : HdrIter HdrIterRecorded} {n : ℕ}

theorem ahead_init (h₀ : HdrHistogram) : Ahead h₀ h₀ (hdrIterRecordedInit h₀) 0 where
  index := rfl
  le := Nat.zero_le _
  total := rfl
  enough := by
    rw [Finset.sum_range_zero]
    exact le_rfl
  seen := by
    rw [Finset.sum_range_zero]
    exact le_rfl

theorem Ahead.grown (A : Ahead h₀ h it n) (G : Grown h₀ h) (G' : Grown h h') :
    Ahead h₀ h' it n where
  index := A.index
  le := A.le
  total := A.total
  enough := A.enough
  seen := by
    refine A.seen.trans (Finset.sum_le_sum fun i hi => G'.le i ?_)
    have := A.le
    have := Finset.mem_range.mp hi
    rw [G.length]
    omega

/-- The step lemma of the cursor. -/
theorem Ahead.moved (A : Ahead h₀ h it n) (G : Grown h₀ h) (W₀ : h₀.WellFormed)
    (W : h.WellFormed) (hn : n < h.counts.length) (M : Moved h n it it') :
    Ahead h₀ h it' (n + 1) ∧
      it'.cumulativeCount.toInt = it.cumulativeCount.toInt + it'.count.toInt := by
  have hcount : h.countAtIndex n = it'.count.toInt := by
    rw [HdrHistogram.countAtIndex, M.count, Option.getD_some]
  have hn₀ : n < h₀.counts.length := by rwa [← G.length]
  have hle := G.le n hn₀
  have h0 := countAtIndex_nonneg W₀ hn₀
  have hseen := A.seen
  have henough := A.enough
  have hsum := sum_countAtIndex_le W (n := n + 1) hn
  rw [Finset.sum_range_succ] at hsum
  have htotal := h.totalCount.toInt_lt
  have hcum := it.cumulativeCount.le_toInt
  have hadd : it'.cumulativeCount.toInt = it.cumulativeCount.toInt + it'.count.toInt := by
    rw [M.cumulative, add64] <;> omega
  refine ⟨⟨?_, hn₀, by rw [M.total, A.total], ?_, ?_⟩, hadd⟩
  · rw [M.index]
    push_cast
    omega
  · rw [Finset.sum_range_succ, hadd]
    omega
  · rw [Finset.sum_range_succ, hadd]
    omega

/-- The sum has caught up when all entries are consumed, so the cursor never leaves the array. -/
theorem Ahead.basicIterNext (A : Ahead h₀ h it n) (G : Grown h₀ h) (W₀ : h₀.WellFormed)
    (W : h.WellFormed) :
    (h₀.totalCount.toInt ≤ it.cumulativeCount.toInt ∧ it.basicIterNext h = some (false, it)) ∨
    (n < h.counts.length ∧ ∃ it', it.basicIterNext h = some (true, it') ∧ Moved h n it it' ∧
      Ahead h₀ h it' (n + 1)) := by
  by_cases hlt : it.cumulativeCount < it.totalCount
  · right
    have hlt' := Int64.lt_iff_toInt_lt.mp hlt
    rw [A.total] at hlt'
    have hn : n < h.counts.length := by
      by_contra hge
      have hall : n = h₀.counts.length := by
        have := A.le
        have := G.length
        omega
      have henough := A.enough
      have hsum := sum_countAtIndex_drop W₀ le_rfl
      rw [List.drop_eq_nil_of_le (by rw [entries_length]), sumCounts_nil, add_zero] at hsum
      rw [hall, hsum] at henough
      omega
    obtain ⟨it', hb, M⟩ := basicIterNext_move W A.index hn hlt
    exact ⟨hn, it', hb, M, (A.moved G W₀ W hn M).1⟩
  · left
    rw [Int64.lt_iff_toInt_lt, A.total] at hlt
    exact ⟨by omega, basicIterNext_stop (by rwa [Int64.lt_iff_toInt_lt, A.total]) h⟩

/-- A cursor over a histogram that nothing is recorded into has seen its counts exactly. -/
theorem Ahead.exhausted (A : Ahead h h it n) (W : h.WellFormed)
    (hle : h.totalCount.toInt ≤ it.cumulativeCount.toInt) :
    (h.entries.drop n).filter (fun r => r.2 ≠ 0) = [] := by
  have hsum := sum_countAtIndex_drop W A.le
  have hseen := A.seen
  have hrest : ∀ r ∈ h.entries.drop n, 0 ≤ r.2.toInt := fun r hr =>
    entries_nonneg W r (List.mem_of_mem_drop hr)
  have hnonneg := sumCounts_nonneg hrest
  exact filter_eq_nil hrest (by omega)

/-- What a returned entry says about the histogram. -/
structure Reported (h : HdrHistogram) (it : HdrIter HdrIterRecorded) : Prop where
  inside : 0 ≤ it.countsIndex ∧ it.countsIndex < h.countsLen
  nonzero : it.count ≠ 0
  count : h.countsGetNormalised it.countsIndex = some it.count
  value : it.value = h.hdrValueAtIndex it.countsIndex
  lowest : it.lowestEquivalentValue = h.hdrLowestEquivalentValue it.value
  highest : it.highestEquivalentValue = h.highestEquivalentValue it.value
  median : it.medianEquivalentValue = h.hdrMedianEquivalentValue it.value
  added : it.specifics.countAddedInThisIterationStep = it.count

/-- What one call of `hdr_iter_next` does: an entry is returned exactly when the sum has not
caught up. -/
theorem Ahead.next (A : Ahead h₀ h it n) (G : Grown h₀ h) (W₀ : h₀.WellFormed)
    (W : h.WellFormed) :
    (h₀.totalCount.toInt ≤ it.cumulativeCount.toInt ∧ hdrIterNext h it = some (false, it)) ∨
    (it.cumulativeCount.toInt < h₀.totalCount.toInt ∧ ∃ it' k,
      hdrIterNext h it = some (true, it') ∧ Ahead h₀ h it' (k + 1) ∧ n ≤ k ∧
      it'.countsIndex.toInt = k ∧ Reported h it' ∧
      it'.cumulativeCount.toInt = it.cumulativeCount.toInt + it'.count.toInt ∧
      (h.entries.drop n).filter (fun r => r.2 ≠ 0) =
        (it'.value, it'.count) :: (h.entries.drop (k + 1)).filter fun r => r.2 ≠ 0) := by
  by_cases hcaught : h₀.totalCount.toInt ≤ it.cumulativeCount.toInt
  · left
    have hstop : it.basicIterNext h = some (false, it) :=
      basicIterNext_stop (by rw [Int64.lt_iff_toInt_lt, A.total]; omega) h
    refine ⟨hcaught, run_leave ?_⟩
    simp only [recordedBody, hstop, Option.map_some, Bool.false_eq_true, if_false]
  · right
    obtain ⟨it₁, k, A₁, hk, hcum, hfilter, hend⟩ :=
      recordedIterNext_cases (fun it n A => A.basicIterNext G W₀ W) A
    rw [← hcum] at hcaught ⊢
    rcases hend with ⟨hdone, -⟩ | ⟨hlen, it₂, M, A₂, hc, hnext⟩
    · exact absurd hdone hcaught
    have hindex : it₂.countsIndex = Int32.ofNat k := by
      rw [← Int32.toInt_inj, M.index, ofNat_index W.accepted hlen.le]
    have hcounts := h.counts_length
    refine ⟨by omega, _, k, hnext, ⟨A₂.index, A₂.le, A₂.total, A₂.enough, A₂.seen⟩, hk, M.index,
      ⟨⟨?_, ?_⟩, hc, ?_, ?_, M.lowest, M.highest, M.median, rfl⟩, (A₁.moved G W₀ W hlen M).2, ?_⟩
    · rw [Int32.le_iff_toInt_le]
      exact M.index ▸ Int.natCast_nonneg k
    · rw [Int32.lt_iff_toInt_lt]
      have := M.index
      dsimp only [HdrIter.updateIteratedValues]
      omega
    · exact hindex ▸ M.count
    · exact hindex ▸ M.value
    · rw [hfilter, entries_drop hlen, M.count, Option.getD_some, List.filter_cons,
        if_pos (by simpa using hc)]
      exact congrArg (· :: _) (Prod.ext M.value.symm rfl)

end Cursor

/-- The steps of a run from a cursor at `n` that has seen `seen` counts: first those that
return an entry, then those that do not. -/
structure Enumerated (h₀ : HdrHistogram) (n : ℕ) (seen : ℤ) (returned rest : List IterStep) :
    Prop where
  reported : ∀ s ∈ returned, s.answer = true ∧ Reported s.histogram s.it
  stopped : ∀ s ∈ rest, s.answer = false
  inside : ∀ s ∈ returned ++ rest, s.it.countsIndex.toInt < h₀.counts.length
  start : ∀ s ∈ returned, n ≤ s.it.countsIndex.toInt
  increasing : returned.Pairwise fun s t => s.it.countsIndex < t.it.countsIndex
  length : returned.length + n ≤ h₀.counts.length
  caught : rest ≠ [] →
    h₀.totalCount.toInt ≤ seen + (returned.map fun s => s.it.count.toInt).sum
  pending : h₀.totalCount.toInt ≤ seen → returned = []

section Run
variable {h₀ h : HdrHistogram} {it : HdrIter HdrIterRecorded} {n : ℕ} {seen : ℤ}
  {returned rest : List IterStep}

theorem Ahead.enumerated_nil (A : Ahead h₀ h it n) : Enumerated h₀ n it.cumulativeCount.toInt [] []
    where
  reported := by simp
  stopped := by simp
  inside := by simp
  start := by simp
  increasing := .nil
  length := by simpa using A.le
  caught hne := absurd rfl hne
  pending _ := rfl

theorem Ahead.enumerated_stop (A : Ahead h₀ h it n)
    (hcaught : h₀.totalCount.toInt ≤ it.cumulativeCount.toInt)
    (E : Enumerated h₀ n it.cumulativeCount.toInt returned rest) :
    returned = [] ∧
      Enumerated h₀ n it.cumulativeCount.toInt [] (⟨false, h, it⟩ :: rest) := by
  have hnil := E.pending hcaught
  have hindex := A.index
  have hle := A.le
  have hinside := E.inside
  subst hnil
  refine ⟨rfl, by simp, ?_, ?_, by simp, .nil, E.length, ?_, fun _ => rfl⟩
  · simpa using E.stopped
  · intro s hs
    rcases List.mem_cons.mp hs with rfl | hs
    · dsimp only
      omega
    · exact hinside s hs
  · intro _
    rwa [List.map_nil, List.sum_nil, add_zero]

theorem Enumerated.cons {it' : HdrIter HdrIterRecorded} {k : ℕ}
    (E : Enumerated h₀ (k + 1) it'.cumulativeCount.toInt returned rest) (hk : n ≤ k)
    (hlt : it.cumulativeCount.toInt < h₀.totalCount.toInt) (hindex : it'.countsIndex.toInt = k)
    (R : Reported h it')
    (hcum : it'.cumulativeCount.toInt = it.cumulativeCount.toInt + it'.count.toInt) :
    Enumerated h₀ n it.cumulativeCount.toInt (⟨true, h, it'⟩ :: returned) rest := by
  have hlen := E.length
  refine ⟨?_, E.stopped, ?_, ?_, ?_, ?_, ?_, fun hcaught => absurd hcaught (by omega)⟩
  · intro s hs
    rcases List.mem_cons.mp hs with rfl | hs
    · exact ⟨rfl, R⟩
    · exact E.reported s hs
  · intro s hs
    rcases List.mem_cons.mp hs with rfl | hs
    · dsimp only
      omega
    · exact E.inside s hs
  · intro s hs
    rcases List.mem_cons.mp hs with rfl | hs
    · dsimp only
      omega
    · have := E.start s hs
      omega
  · refine List.pairwise_cons.mpr ⟨fun s hs => ?_, E.increasing⟩
    have := E.start s hs
    rw [Int32.lt_iff_toInt_lt]
    dsimp only
    omega
  · rw [List.length_cons]
    omega
  · intro hne
    rw [List.map_cons, List.sum_cons, ← add_assoc, ← hcum]
    exact E.caught hne

/-- The run lemma: recordings that fit, of samples with nonnegative counts, before every call. -/
theorem Ahead.run (A : Ahead h₀ h it n) (G : Grown h₀ h) (W₀ : h₀.WellFormed) (W : h.WellFormed)
    {batches : List (List Sample)} (F : Fitting h (batches.flatten : List Sample)) :
    ∃ returned rest, iterateRecorded batches h it = some (returned ++ rest) ∧
      Enumerated h₀ n it.cumulativeCount.toInt returned rest := by
  induction batches generalizing h it n with
  | nil => exact ⟨[], [], rfl, A.enumerated_nil⟩
  | cons batch batches ih =>
      rw [List.flatten_cons, ← Multiset.coe_add] at F
      obtain ⟨h', hall, K⟩ := (collected_self h).recordAll W.toNormalised fun r hr =>
        F.left.recordable r hr
      rw [add_zero] at K
      have G' := K.grown W F.left
      have W' := K.wellFormed W F.left
      have A' := A.grown G G'
      rcases A'.next (G.trans G') W₀ W' with
        ⟨hcaught, hnext⟩ | ⟨hlt, it', k, hnext, A₁, hk, hindex, R, hcum, -⟩
      · obtain ⟨returned, rest, hrun, E⟩ := ih A' (G.trans G') W' (F.right K)
        obtain ⟨rfl, E'⟩ := A'.enumerated_stop hcaught E
        refine ⟨[], _, ?_, E'⟩
        simp only [iterateRecorded, hall, hnext, hrun, Option.map_some, List.nil_append]
      · obtain ⟨returned, rest, hrun, E⟩ := ih A₁ (G.trans G') W' (F.right K)
        refine ⟨_, rest, ?_, E.cons hk hlt hindex R hcum⟩
        simp only [iterateRecorded, hall, hnext, hrun, Option.map_some, List.cons_append]

/-- Without recordings the calls return the entries that have counts, in index order. -/
theorem Ahead.run_quiet (A : Ahead h h it n) (W : h.WellFormed) (calls : ℕ) :
    ∃ steps, iterateRecorded (List.replicate calls []) h it = some steps ∧
      (steps.filter IterStep.answer).map (fun s => (s.it.value, s.it.count)) =
        ((h.entries.drop n).filter fun r => r.2 ≠ 0).take calls := by
  induction calls generalizing it n with
  | zero => exact ⟨[], rfl, by simp⟩
  | succ calls ih =>
      rcases A.next (Grown.refl h) W W with
        ⟨hcaught, hnext⟩ | ⟨-, it', k, hnext, A₁, -, -, -, -, hfilter⟩
      · obtain ⟨steps, hrun, hsteps⟩ := ih A
        rw [A.exhausted W hcaught, List.take_nil] at hsteps ⊢
        refine ⟨⟨false, h, it⟩ :: steps, ?_, ?_⟩
        · simp only [List.replicate_succ, iterateRecorded, HdrHistogram.recordAll, hnext, hrun,
            Option.map_some]
        · rwa [List.filter_cons_of_neg (by simp)]
      · obtain ⟨steps, hrun, hsteps⟩ := ih A₁
        refine ⟨⟨true, h, it'⟩ :: steps, ?_, ?_⟩
        · simp only [List.replicate_succ, iterateRecorded, HdrHistogram.recordAll, hnext, hrun,
            Option.map_some]
        · rw [List.filter_cons_of_pos rfl, List.map_cons, hsteps, hfilter, List.take_succ_cons]

theorem iterateRecorded_length {batches : List (List Sample)} {steps : List IterStep}
    (hrun : iterateRecorded batches h it = some steps) : steps.length = batches.length := by
  induction batches generalizing h it steps with
  | nil =>
      rw [iterateRecorded, Option.some.injEq] at hrun
      exact (congrArg List.length hrun).symm
  | cons batch batches ih =>
      cases hall : h.recordAll batch with
      | none => simp only [iterateRecorded, hall, reduceCtorEq] at hrun
      | some h' =>
          cases hnext : hdrIterNext h' it with
          | none => simp only [iterateRecorded, hall, hnext, reduceCtorEq] at hrun
          | some r =>
              simp only [iterateRecorded, hall, hnext, Option.map_eq_some_iff] at hrun
              obtain ⟨more, hmore, rfl⟩ := hrun
              rw [List.length_cons, List.length_cons, ih hmore]

theorem Enumerated.filter (E : Enumerated h₀ n seen returned rest) :
    (returned ++ rest).filter IterStep.answer = returned := by
  rw [List.filter_append, List.filter_eq_self.mpr fun s hs => (E.reported s hs).1,
    List.filter_eq_nil_iff.mpr fun s hs => by simp [E.stopped s hs], List.append_nil]

end Run

/-- An iteration over the recorded values survives recordings between its steps, as long as the
total count fits its type. -/
theorem recordedIteration_robust {h : HdrHistogram} {batches : List (List Sample)}
    (W : h.WellFormed) (recordable : ∀ r ∈ batches.flatten, h.Recordable r.1 ∧ 1 ≤ r.2)
    (fits : h.totalCount.toInt + sumCounts batches.flatten < 2 ^ 63) :
    ∃ returned rest,
      iterateRecorded batches h (hdrIterRecordedInit h) = some (returned ++ rest) ∧
      (∀ s ∈ returned, s.answer = true ∧ Reported s.histogram s.it) ∧
      (∀ s ∈ rest, s.answer = false) ∧
      returned.length ≤ h.counts.length ∧
      returned.Pairwise (fun s t => s.it.countsIndex < t.it.countsIndex) ∧
      (∀ s ∈ returned ++ rest, s.it.countsIndex < h.countsLen) ∧
      (rest ≠ [] → h.totalCount.toInt ≤ (returned.map fun s => s.it.count.toInt).sum) ∧
      ((∀ batch ∈ batches, batch = []) → rest ≠ [] →
        returned.map (fun s => (s.it.value, s.it.count)) = h.recordedSamples ∧
        (returned.map fun s => s.it.count.toInt).sum = h.totalCount.toInt) := by
  have F : Fitting h (batches.flatten : List Sample) :=
    ⟨fun r hr => (recordable r hr).1, fun r hr => by
      have := Int64.le_iff_toInt_le.mp (recordable r hr).2
      rw [Int64.toInt_one] at this
      omega, by rwa [countSum_coe]⟩
  obtain ⟨returned, rest, hrun, E⟩ := (ahead_init h).run (Grown.refl h) W W F
  have hlen := h.counts_length
  have hcaught : rest ≠ [] →
      h.totalCount.toInt ≤ (returned.map fun s => s.it.count.toInt).sum := fun hne => by
    have := E.caught hne
    rwa [show (hdrIterRecordedInit h).cumulativeCount.toInt = 0 from rfl, zero_add] at this
  refine ⟨returned, rest, hrun, E.reported, E.stopped, by have := E.length; omega, E.increasing,
    fun s hs => ?_, hcaught, fun hquiet hne => ?_⟩
  · have := E.inside s hs
    rw [Int32.lt_iff_toInt_lt]
    omega
  obtain ⟨steps, hsteps, hreturned⟩ := (ahead_init h).run_quiet W batches.length
  rw [← List.eq_replicate_of_mem hquiet, hrun, Option.some.injEq] at hsteps
  rw [← hsteps, E.filter, List.drop_zero] at hreturned
  have hall : returned.map (fun s => (s.it.value, s.it.count)) = h.recordedSamples := by
    have hcalls := iterateRecorded_length hrun
    have hrest := List.length_pos_iff.mpr hne
    have hshort := congrArg List.length hreturned
    rw [List.length_map, List.length_take] at hshort
    rw [List.length_append] at hcalls
    rw [hreturned]
    exact List.take_of_length_le (by omega)
  refine ⟨hall, ?_⟩
  rw [← sumCounts_recordedSamples W, ← hall, sumCounts, List.map_map]
  rfl

theorem recordedIteration_robust_sample :
    ∃ h, sampleHistogram.recordAll [(5, 1), (40, 2)] = some h ∧ ∃ returned rest,
      iterateRecorded [[], [(3, 1), (50, 4)], [(41, 2)], [], []] h (hdrIterRecordedInit h) =
        some (returned ++ rest) ∧
      (rest ≠ [] → 3 ≤ (returned.map fun s => s.it.count.toInt).sum) := by
  have W₀ := sampleHistogram_wellFormed
  have F : Fitting sampleHistogram ([(5, 1), (40, 2)] : List Sample) :=
    ⟨List.forall_iff_forall_mem.mp (by decide +kernel),
      List.forall_iff_forall_mem.mp (by decide +kernel), by decide +kernel⟩
  obtain ⟨h, hall, K⟩ := (collected_self sampleHistogram).recordAll W₀.toNormalised F.recordable
  rw [add_zero] at K
  have htotal : h.totalCount.toInt = 3 := (K.total_eq F).trans (by decide +kernel)
  have hbatches : ∀ r ∈ ([[], [(3, 1), (50, 4)], [(41, 2)], [], []] : List (List Sample)).flatten,
      h.Recordable r.1 ∧ 1 ≤ r.2 := by
    rw [K.layout]
    exact List.forall_iff_forall_mem.mp (by decide +kernel)
  obtain ⟨returned, rest, hrun, -, -, -, -, -, hcaught, -⟩ :=
    recordedIteration_robust (K.wellFormed W₀ F) hbatches (by rw [htotal]; decide +kernel)
  exact ⟨h, hall, returned, rest, hrun, htotal ▸ hcaught⟩

/-- A count beyond its type wraps around, and the sum that the iterator compares with it. -/
theorem recordedIteration_overflow :
    ∃ h, sampleHistogram.recordAll [(5, 1)] = some h ∧ h.WellFormed ∧ h.totalCount = 1 ∧
      h.Recordable 5 ∧ ∃ s₁ s₂,
        iterateRecorded [[(5, INT64_MAX)], []] h (hdrIterRecordedInit h) = some [s₁, s₂] ∧
        s₁.answer = true ∧ s₂.answer = false ∧ s₁.it.count.toInt < h.totalCount.toInt := by
  have F : Fitting sampleHistogram ([(5, 1)] : List Sample) :=
    ⟨List.forall_iff_forall_mem.mp (by decide +kernel),
      List.forall_iff_forall_mem.mp (by decide +kernel), by decide +kernel⟩
  obtain ⟨h, hall, K⟩ := (collected_self sampleHistogram).recordAll
    sampleHistogram_wellFormed.toNormalised F.recordable
  rw [add_zero] at K
  have htotal : h.totalCount.toInt = 1 := (K.total_eq F).trans (by decide +kernel)
  have hrun : ((sampleHistogram.recordAll [(5, 1)]).bind fun h =>
      (iterateRecorded [[(5, INT64_MAX)], []] h (hdrIterRecordedInit h)).map
        fun steps => steps.map fun s => (s.answer, s.it.count)) =
      some [(true, Int64.minValue), (false, 0)] := by decide +kernel
  rw [hall, Option.bind_some, Option.map_eq_some_iff] at hrun
  obtain ⟨steps, hsteps, hmap⟩ := hrun
  obtain ⟨s₁, steps, rfl, hs₁, hmap⟩ := List.map_eq_cons_iff.mp hmap
  obtain ⟨s₂, steps, rfl, hs₂, hmap⟩ := List.map_eq_cons_iff.mp hmap
  rw [List.map_eq_nil_iff] at hmap
  subst hmap
  refine ⟨h, hall, K.wellFormed sampleHistogram_wellFormed F,
    Int64.toInt_inj.mp (htotal.trans Int64.toInt_one.symm), by rw [K.layout]; decide +kernel,
    s₁, s₂, hsteps, congrArg Prod.fst hs₁, congrArg Prod.fst hs₂, ?_⟩
  rw [htotal, show s₁.it.count = Int64.minValue from congrArg Prod.snd hs₁]
  decide +kernel

end HdrHistogramC
