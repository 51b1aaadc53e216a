import HdrHistogramC.Mutation

/-!
# Minimum, maximum and the recomputed counters

`hdr_max` and `hdr_min` read the two extremes that recording tracks;
`hdr_reset_internal_counters` recomputes them from the array. They agree unless
every recorded value is zero and the first cell holds more than zero, or every
recorded value is the largest word, which `min_value` uses as its sentinel.
-/
namespace HdrHistogramC
open FixedWidth LogLinear BucketLayout.Describes

namespace HdrHistogram

def hdrCountAtIndex (h : HdrHistogram) (index : Int32) : Option Int64 := h.countsGetNormalised index

def nonZeroMin (h : HdrHistogram) : Int64 :=
  if INT64_MAX = h.minValue then INT64_MAX else h.lowestEquivalentValue h.minValue

def hdrMax (h : HdrHistogram) : Int64 :=
  if 0 = h.maxValue then 0 else h.highestEquivalentValue h.maxValue

def hdrMin (h : HdrHistogram) : Option Int64 :=
  (h.hdrCountAtIndex 0).map fun c => if 0 < c then 0 else h.nonZeroMin

end HdrHistogram

/-- The locals of the loop in `hdr_reset_internal_counters`. -/
structure CounterScan where
  minNonZeroIndex : Int32
  maxIndex : Int32
  observedTotalCount : Int64
deriving Repr, DecidableEq

/-- The loop body at index `i` with the count found there. -/
def CounterScan.step (s : CounterScan) (i : ℕ) (countAtIndex : Int64) : CounterScan :=
  if countAtIndex > 0 then
    { observedTotalCount := s.observedTotalCount + countAtIndex
      maxIndex := Int32.ofNat i
      minNonZeroIndex :=
        if s.minNonZeroIndex = -1 ∧ i ≠ 0 then Int32.ofNat i else s.minNonZeroIndex }
  else s

/-- The loop over an array from index `i` on. -/
def CounterScan.scan (s : CounterScan) (i : ℕ) : List Int64 → CounterScan
  | [] => s
  | c :: cs => (s.step i c).scan (i + 1) cs

def HdrHistogram.hdrResetInternalCounters (h : HdrHistogram) : HdrHistogram :=
  let s := CounterScan.scan ⟨-1, -1, 0⟩ 0 h.counts
  let maxValue :=
    if s.maxIndex = -1 then 0 else h.highestEquivalentValue (h.hdrValueAtIndex s.maxIndex)
  let minValue :=
    if s.minNonZeroIndex = -1 then INT64_MAX else h.hdrValueAtIndex s.minNonZeroIndex
  { h with maxValue := maxValue, minValue := minValue, totalCount := s.observedTotalCount }

/-- The indices with a positive count. -/
def positiveAt (cs : List Int64) : Set ℕ := {i | ∃ c, cs[i]? = some c ∧ 0 < c}

/-- A word that holds an index of `S`, or `-1` when `S` is empty. -/
def HoldsIndex (w : Int32) (S : Set ℕ) (P : ℕ → Prop) : Prop :=
  (w = -1 ∧ S = ∅) ∨ ∃ i : ℕ, w.toInt = (i : ℤ) ∧ P i

/-- What the scan of an array finds. -/
structure CounterScan.Found (s : CounterScan) (cs : List Int64) : Prop where
  max : HoldsIndex s.maxIndex (positiveAt cs) (IsGreatest (positiveAt cs))
  min : HoldsIndex s.minNonZeroIndex (positiveAt cs \ {0}) (IsLeast (positiveAt cs \ {0}))
  total : s.observedTotalCount.toInt ≡
    ((cs.filter fun c => 0 < c).map Int64.toInt).sum [ZMOD 2 ^ 64]

theorem lt_of_positiveAt {cs : List Int64} {i : ℕ} (h : i ∈ positiveAt cs) : i < cs.length := by
  obtain ⟨c, hc, -⟩ := h
  exact (List.getElem?_eq_some_iff.mp hc).1

theorem positiveAt_append (cs : List Int64) (c : Int64) :
    positiveAt (cs ++ [c]) = if 0 < c then insert cs.length (positiveAt cs) else positiveAt cs := by
  ext i
  have hlast : i ∈ positiveAt (cs ++ [c]) ↔ i ∈ positiveAt cs ∨ (i = cs.length ∧ 0 < c) := by
    rcases lt_trichotomy i cs.length with hi | hi | hi
    · simp only [positiveAt, Set.mem_ofPred_eq, List.getElem?_append_left hi, hi.ne, false_and,
        or_false]
    · subst hi
      simp [positiveAt]
    · have : (cs ++ [c])[i]? = none := by
        rw [List.getElem?_eq_none_iff, List.length_append, List.length_singleton]
        omega
      have h2 : cs[i]? = none := by rw [List.getElem?_eq_none_iff]; omega
      simp [positiveAt, this, h2, hi.ne']
  rw [hlast]
  split_ifs with hc
  · rw [Set.mem_insert_iff]; tauto
  · tauto

theorem ofNat_ne_neg_one {n : ℕ} (hn : n < 2 ^ 24) : Int32.ofNat n ≠ -1 := by
  intro h
  have := congrArg Int32.toInt h
  rw [Int32.toInt_ofNat_of_lt (by omega)] at this
  change (n : ℤ) = -1 at this
  omega

theorem HoldsIndex.greatest {n : ℕ} {S : Set ℕ} (hn : (Int32.ofNat n).toInt = n)
    (hS : ∀ i ∈ S, i < n) :
    HoldsIndex (Int32.ofNat n) (insert n S) (IsGreatest (insert n S)) := by
  refine .inr ⟨n, hn, Set.mem_insert _ _, ?_⟩
  rintro i (rfl | hi)
  · exact le_rfl
  · exact (hS i hi).le

theorem HoldsIndex.least {w : Int32} {n : ℕ} {S : Set ℕ}
    (H : HoldsIndex w (S \ {0}) (IsLeast (S \ {0}))) (hn : (Int32.ofNat n).toInt = n)
    (hS : ∀ i ∈ S, i < n) :
    HoldsIndex (if w = -1 ∧ n ≠ 0 then Int32.ofNat n else w) (insert n S \ {0})
      (IsLeast (insert n S \ {0})) := by
  rcases H with ⟨hw, hempty⟩ | ⟨i, hi, hleast⟩
  · have hnone : ∀ j, j ∈ S → j = 0 := by
      intro j hj
      by_contra hj0
      exact absurd (show j ∈ S \ {0} from ⟨hj, hj0⟩) (by simp [hempty])
    by_cases hz : n = 0
    · rw [if_neg (by simp [hz])]
      refine .inl ⟨hw, Set.eq_empty_of_forall_notMem ?_⟩
      rintro j ⟨hj | hj, hj0⟩
      · exact hj0 (hj.trans hz)
      · exact hj0 (hnone j hj)
    · rw [if_pos ⟨hw, hz⟩]
      refine .inr ⟨n, hn, ⟨Set.mem_insert _ _, hz⟩, ?_⟩
      rintro j ⟨hj | hj, hj0⟩
      · exact hj.ge
      · exact absurd (hnone j hj) hj0
  · have hne : w ≠ -1 := by
      rintro rfl
      change (-1 : ℤ) = i at hi
      omega
    rw [if_neg (by simp [hne])]
    refine .inr ⟨i, hi, ⟨Set.mem_insert_of_mem _ hleast.1.1, hleast.1.2⟩, ?_⟩
    rintro j ⟨hj | hj, hj0⟩
    · rw [hj]
      exact (hS i hleast.1.1).le
    · exact hleast.2 ⟨hj, hj0⟩

theorem CounterScan.Found.step {s : CounterScan} {cs : List Int64} (F : s.Found cs)
    (hlen : cs.length < 2 ^ 24) (c : Int64) : (s.step cs.length c).Found (cs ++ [c]) := by
  have hcast : (Int32.ofNat cs.length).toInt = cs.length := Int32.toInt_ofNat_of_lt (by omega)
  unfold CounterScan.step
  by_cases hc : c > 0
  · have hc' : 0 < c := hc
    rw [if_pos hc]
    refine ⟨?_, ?_, ?_⟩
    · rw [positiveAt_append, if_pos hc']
      exact HoldsIndex.greatest hcast fun _ => lt_of_positiveAt
    · rw [positiveAt_append, if_pos hc']
      exact F.min.least hcast fun _ => lt_of_positiveAt
    · rw [List.filter_append, List.map_append, List.sum_append]
      have hf : List.filter (fun c => decide (0 < c)) [c] = [c] := by simp [hc']
      rw [hf]
      simpa using (toInt_add_modEq _ _).trans (F.total.add_right _)
  · have hc' : ¬ 0 < c := hc
    rw [if_neg hc]
    refine ⟨?_, ?_, ?_⟩
    · rw [positiveAt_append, if_neg hc']; exact F.max
    · rw [positiveAt_append, if_neg hc']; exact F.min
    · rw [List.filter_append]
      have hf : List.filter (fun c => decide (0 < c)) [c] = [] := by simp [hc']
      rw [hf, List.append_nil]
      exact F.total

theorem CounterScan.found_scan (cs : List Int64) : ∀ (pre : List Int64) (s : CounterScan),
    s.Found pre → (pre ++ cs).length ≤ 2 ^ 24 → (s.scan pre.length cs).Found (pre ++ cs) := by
  induction cs with
  | nil =>
      intro pre s F _
      simpa [CounterScan.scan] using F
  | cons c cs ih =>
      intro pre s F hlen
      have hstep := F.step (by simp at hlen; omega) c
      have h := ih (pre ++ [c]) _ hstep (by simpa using hlen)
      simpa [CounterScan.scan] using h

theorem CounterScan.found_init : (⟨-1, -1, 0⟩ : CounterScan).Found [] where
  max := .inl ⟨rfl, by ext i; simp [positiveAt]⟩
  min := .inl ⟨rfl, by ext i; simp [positiveAt]⟩
  total := by simp

/-- The observable extremes and the total are those of the array, and recomputing
them changes nothing. -/
structure ExtremesAgree (h : HdrHistogram) : Prop where
  max_some : ∀ j, IsGreatest (positiveAt h.counts) j →
    h.hdrMax = h.highestEquivalentValue (h.hdrValueAtIndex (Int32.ofNat j))
  max_none : positiveAt h.counts = ∅ → h.hdrMax = 0
  min_some : ∀ i, IsLeast (positiveAt h.counts) i →
    h.hdrMin = some (h.hdrValueAtIndex (Int32.ofNat i))
  min_none : positiveAt h.counts = ∅ → h.hdrMin = some INT64_MAX
  reset_max : h.hdrResetInternalCounters.hdrMax = h.hdrMax
  reset_min : h.hdrResetInternalCounters.hdrMin = h.hdrMin
  reset_total : h.hdrResetInternalCounters.totalCount = h.totalCount

/-- Every sample is recorded at least once. -/
def PositiveCounts (rs : List Sample) : Prop := ∀ r ∈ rs, 1 ≤ r.2.toInt

theorem PositiveCounts.bounded {rs : List Sample} (P : PositiveCounts rs)
    (hs : sumCounts rs < 2 ^ 63) : Bounded rs := ⟨fun r hr => by have := P r hr; omega, hs⟩

theorem PositiveCounts.sum_pos {rs : List Sample} (P : PositiveCounts rs) (hne : rs ≠ []) :
    0 < sumCounts rs := by
  refine List.sum_pos _ (fun x hx => ?_) (mt List.map_eq_nil_iff.mp hne)
  obtain ⟨r, hr, rfl⟩ := List.mem_map.mp hx
  exact Int.zero_lt_one.trans_le (P r hr)

theorem sumCountsAt_pos_iff (l : BucketLayout) {rs : List Sample} (P : PositiveCounts rs) (n : ℕ) :
    0 < sumCountsAt l rs n ↔ ∃ r ∈ rs, (l.countsIndexFor r.1).toInt = n := by
  induction rs with
  | nil => simp
  | cons r rs ih =>
      have hr := P r (by simp)
      have P' : PositiveCounts rs := fun s hs => P s (by simp [hs])
      have h0 := (sumCountsAt_le l (fun s hs => by have := P' s hs; omega) n).1
      rw [sumCountsAt_cons, List.exists_mem_cons_iff, ← ih P']
      split_ifs with hi
      · simp only [hi, true_or, iff_true]
        omega
      · simp only [hi, false_or, zero_add]

section Agreement
variable {h : HdrHistogram} {rs : List Sample} {u m b : ℕ}

theorem mem_positiveAt_iff (R : Represents h rs) (P : PositiveCounts rs) (B : Bounded rs)
    (D : h.Describes u m b) (i : ℕ) :
    i ∈ positiveAt h.counts ↔ ∃ r ∈ rs, index u m r.1.toInt.toNat = i := by
  have hval : ∀ r ∈ rs, ((h.countsIndexFor r.1).toInt = (i : ℤ) ↔
      index u m r.1.toInt.toNat = i) := by
    intro r hr
    rw [D.countsIndexFor_toInt ((nonneg_iff _).mp (R.recordable r hr).1), Int.natCast_inj]
  have hex : (∃ r ∈ rs, index u m r.1.toInt.toNat = i) ↔
      0 < sumCountsAt h.toBucketLayout rs i := by
    rw [sumCountsAt_pos_iff _ P]
    exact exists_congr fun r => and_congr_right fun hr => (hval r hr).symm
  rw [hex]
  constructor
  · rintro ⟨c, hc, hpos⟩
    rw [Int64.lt_iff_toInt_lt, Int64.toInt_zero, R.count_eq B hc] at hpos
    exact hpos
  · intro hpos
    obtain ⟨r, hr, hi⟩ := hex.mpr hpos
    have hlt : i < h.counts.length := by
      obtain ⟨n, hn, hn'⟩ := R.index_lt _ rfl r hr
      have := (hval r hr).mpr hi
      omega
    refine ⟨h.counts[i], List.getElem?_eq_getElem hlt, ?_⟩
    rw [Int64.lt_iff_toInt_lt, Int64.toInt_zero, R.count_eq B (List.getElem?_eq_getElem hlt)]
    exact hpos

theorem positiveAt_eq_empty_iff (R : Represents h rs) (P : PositiveCounts rs) (B : Bounded rs) :
    positiveAt h.counts = ∅ ↔ rs = [] := by
  obtain ⟨u, m, b, D⟩ := R.accepted.describes
  constructor
  · intro he
    by_contra hne
    obtain ⟨r, hr⟩ := List.exists_mem_of_ne_nil rs hne
    have hmem := (mem_positiveAt_iff R P B D _).mpr ⟨r, hr, rfl⟩
    simp [he] at hmem
  · rintro rfl
    apply Set.eq_empty_of_forall_notMem
    intro i hi
    simpa using (mem_positiveAt_iff R P B D i).mp hi

theorem maxValue_nonneg (R : Represents h rs) : 0 ≤ h.maxValue.toInt := by
  rcases R.max_mem with hm | ⟨r, hr, hm⟩
  · rw [hm]; simp
  · rw [← hm]; exact (nonneg_iff _).mp (R.recordable r hr).1

theorem maxValue_le (R : Represents h rs) (D : h.Describes u m b) :
    h.maxValue.toInt ≤ h.highestTrackableValue.toInt := by
  rcases R.max_mem with hm | ⟨r, hr, hm⟩
  · have h₁ := D.lowest
    have h₂ := D.highest
    have hu : (0 : ℤ) < 2 ^ u := by positivity
    rw [hm, Int64.toInt_zero]
    omega
  · rw [← hm]
    exact Int64.le_iff_toInt_le.mp (R.recordable r hr).2

theorem isGreatest_index (R : Represents h rs) (P : PositiveCounts rs) (B : Bounded rs)
    (D : h.Describes u m b) (hne : rs ≠ []) :
    IsGreatest (positiveAt h.counts) (index u m h.maxValue.toInt.toNat) := by
  constructor
  · rw [mem_positiveAt_iff R P B D]
    rcases R.max_mem with hm | ⟨r, hr, hm⟩
    · obtain ⟨r, hr⟩ := List.exists_mem_of_ne_nil rs hne
      have hle := Int64.le_iff_toInt_le.mp (R.le_max r hr)
      have h0 := (nonneg_iff _).mp (R.recordable r hr).1
      rw [hm, Int64.toInt_zero] at hle ⊢
      exact ⟨r, hr, by rw [show r.1.toInt = 0 by omega]⟩
    · exact ⟨r, hr, by rw [hm]⟩
  · intro i hi
    obtain ⟨r, hr, rfl⟩ := (mem_positiveAt_iff R P B D i).mp hi
    have hle := Int64.le_iff_toInt_le.mp (R.le_max r hr)
    exact index_mono (by omega)

theorem highest_hdrValueAtIndex (D : h.Describes u m b) {n : ℕ} (hn : n < (b + 1) * 2 ^ m) :
    (h.highestEquivalentValue (h.hdrValueAtIndex (Int32.ofNat n))).toInt =
      lower u m n + width u m n - 1 := by
  have hlen := D.countsLen_lt
  have hcast : (Int32.ofNat n).toInt = n := Int32.toInt_ofNat_of_lt (by omega)
  have hval := D.hdrValueAtIndex_toInt hcast hn
  rw [D.highestEquivalentValue_toInt (by omega), hval, Int.toNat_natCast, index_lower]

theorem index_highest (D : h.Describes u m b) {n : ℕ} (hn : n < (b + 1) * 2 ^ m) :
    0 ≤ (h.highestEquivalentValue (h.hdrValueAtIndex (Int32.ofNat n))).toInt ∧
      index u m (h.highestEquivalentValue (h.hdrValueAtIndex (Int32.ofNat n))).toInt.toNat = n := by
  have hw := width_pos (u := u) (m := m) n
  have htop := highest_hdrValueAtIndex D hn
  rw [index_eq_iff]
  omega

theorem highest_highest (D : h.Describes u m b) {n : ℕ} (hn : n < (b + 1) * 2 ^ m) :
    h.highestEquivalentValue (h.highestEquivalentValue (h.hdrValueAtIndex (Int32.ofNat n))) =
      h.highestEquivalentValue (h.hdrValueAtIndex (Int32.ofNat n)) := by
  obtain ⟨h0, hidx⟩ := index_highest D hn
  rw [← Int64.toInt_inj, D.highestEquivalentValue_toInt h0, hidx, highest_hdrValueAtIndex D hn]

/-- What the loop of the recomputation has found. -/
theorem found_counts (D : h.Describes u m b) :
    (CounterScan.scan ⟨-1, -1, 0⟩ 0 h.counts).Found h.counts := by
  have hlen := D.countsLen_lt
  have hl := counts_length_nat D
  exact CounterScan.found_scan h.counts [] _ CounterScan.found_init (by simpa [hl] using hlen)

theorem HoldsIndex.eq_of {w : Int32} {S : Set ℕ} {P : ℕ → Prop} (H : HoldsIndex w S P)
    (hlt : ∀ i ∈ S, i < 2 ^ 24) (hmem : ∀ i, P i → i ∈ S)
    (huniq : ∀ i j, P i → P j → i = j) {j : ℕ} (hj : P j) : w ≠ -1 ∧ w = Int32.ofNat j := by
  rcases H with ⟨-, hempty⟩ | ⟨i, hi, hP⟩
  · have := hmem j hj
    rw [hempty] at this
    exact this.elim
  · obtain rfl := huniq i j hP hj
    have hlt' := hlt i (hmem i hP)
    have hw : w = Int32.ofNat i := by
      rw [← Int32.toInt_inj, hi, Int32.toInt_ofNat_of_lt (by omega)]
    exact ⟨by rw [hw]; exact ofNat_ne_neg_one hlt', hw⟩

theorem HoldsIndex.eq_neg_one {w : Int32} {S : Set ℕ} {P : ℕ → Prop} (H : HoldsIndex w S P)
    (hmem : ∀ i, P i → i ∈ S) (hempty : S = ∅) : w = -1 := by
  rcases H with ⟨hw, -⟩ | ⟨i, -, hP⟩
  · exact hw
  · have := hmem i hP
    rw [hempty] at this
    exact this.elim

theorem positiveAt_lt (D : h.Describes u m b) {i : ℕ} (hi : i ∈ positiveAt h.counts) :
    i < (b + 1) * 2 ^ m := by
  rw [← counts_length_nat D]
  exact lt_of_positiveAt hi

/-- The recomputed maximum is zero for an empty array, and else the last member of the
greatest nonempty cell. -/
theorem maxValue_reset (D : h.Describes u m b) :
    (positiveAt h.counts = ∅ → h.hdrResetInternalCounters.maxValue = 0) ∧
    ∀ j, IsGreatest (positiveAt h.counts) j → h.hdrResetInternalCounters.maxValue =
      h.highestEquivalentValue (h.hdrValueAtIndex (Int32.ofNat j)) := by
  have hlen := D.countsLen_lt
  have F := (found_counts D).max
  constructor
  · intro hempty
    have hm := F.eq_neg_one (fun i hi => hi.1) hempty
    simp only [HdrHistogram.hdrResetInternalCounters, hm, if_true]
  · intro j hj
    obtain ⟨hm, hm'⟩ := F.eq_of (fun i hi => by have := positiveAt_lt D hi; omega)
      (fun i hi => hi.1) (fun i k hi hk => hi.unique hk) hj
    rw [hm'] at hm
    simp only [HdrHistogram.hdrResetInternalCounters, hm', hm, if_false]

theorem hdrMax_reset (D : h.Describes u m b) :
    (positiveAt h.counts = ∅ → h.hdrResetInternalCounters.hdrMax = 0) ∧
    ∀ j, IsGreatest (positiveAt h.counts) j → h.hdrResetInternalCounters.hdrMax =
      h.highestEquivalentValue (h.hdrValueAtIndex (Int32.ofNat j)) := by
  obtain ⟨hnone, hsome⟩ := maxValue_reset D
  constructor
  · intro hempty
    rw [HdrHistogram.hdrMax, hnone hempty, if_pos rfl]
  · intro j hj
    rw [HdrHistogram.hdrMax, hsome j hj]
    split_ifs with hz
    · exact hz
    · exact highest_highest D (positiveAt_lt D hj.1)

theorem nonZeroMin_reset (D : h.Describes u m b) :
    (positiveAt h.counts \ {0} = ∅ → h.hdrResetInternalCounters.nonZeroMin = INT64_MAX) ∧
    ∀ i, IsLeast (positiveAt h.counts \ {0}) i → h.hdrResetInternalCounters.nonZeroMin =
      h.hdrValueAtIndex (Int32.ofNat i) := by
  have hlen := D.countsLen_lt
  have F := (found_counts D).min
  constructor
  · intro hempty
    have hm := F.eq_neg_one (fun i hi => hi.1) hempty
    simp only [HdrHistogram.nonZeroMin, HdrHistogram.hdrResetInternalCounters, hm, if_true]
  · intro i hi
    have hilt := positiveAt_lt D hi.1.1
    obtain ⟨hm, hm'⟩ := F.eq_of (fun i hi => by have := positiveAt_lt D hi.1; omega)
      (fun i hi => hi.1) (fun i k hi hk => hi.unique hk) hi
    have hcast : (Int32.ofNat i).toInt = i := Int32.toInt_ofNat_of_lt (by omega)
    have hval := D.hdrValueAtIndex_toInt hcast hilt
    simp only [HdrHistogram.nonZeroMin, HdrHistogram.hdrResetInternalCounters, hm']
    rw [hm'] at hm
    simp only [hm, if_false]
    split_ifs with hz
    · exact hz
    · rw [← Int64.toInt_inj, D.lowestEquivalentValue_toInt (by omega), hval, Int.toNat_natCast,
        index_lower]

theorem sum_filter_pos {cs : List Int64} (hcs : ∀ c ∈ cs, 0 ≤ c) :
    ((cs.filter fun c => 0 < c).map Int64.toInt).sum = (cs.map Int64.toInt).sum := by
  induction cs with
  | nil => rfl
  | cons c cs ih =>
      have h0 := (nonneg_iff c).mp (hcs c (by simp))
      have ih' := ih fun d hd => hcs d (by simp [hd])
      rw [List.filter_cons]
      split_ifs with hc
      · rw [List.map_cons, List.sum_cons, ih', List.map_cons, List.sum_cons]
      · have hz : c.toInt = 0 := by
          simp only [Int64.lt_iff_toInt_lt, Int64.toInt_zero, decide_eq_true_eq] at hc
          omega
        rw [ih', List.map_cons, List.sum_cons, hz, zero_add]

/-- The total of a well-formed array is what the recomputation observes. -/
theorem totalCount_reset (W : h.WellFormed) :
    h.hdrResetInternalCounters.totalCount = h.totalCount := by
  obtain ⟨u, m, b, D⟩ := W.accepted.describes
  have F := (found_counts D).total
  rw [sum_filter_pos W.nonneg, ← W.total] at F
  rw [← Int64.toInt_inj]
  exact eq_of_modEq64 F (Int64.le_toInt _) (Int64.toInt_lt _) (Int64.le_toInt _) (Int64.toInt_lt _)

theorem hdrCountAtIndex_zero (R : Represents h rs) (D : h.Describes u m b) :
    ∃ c, h.counts[0]? = some c ∧ h.hdrCountAtIndex 0 = some c := by
  have hpos : 0 < h.counts.length := by rw [counts_length_nat D]; positivity
  have hc := List.getElem?_eq_getElem hpos
  refine ⟨_, hc, ?_⟩
  have hn : h.normalizeIndex 0 = 0 := by rw [HdrHistogram.normalizeIndex, if_pos R.offset]
  rw [HdrHistogram.hdrCountAtIndex, HdrHistogram.countsGetNormalised, hn,
    countsGetDirect_eq (n := 0) rfl, hc]

theorem hdrMin_eq (R : Represents h rs) :
    (0 ∈ positiveAt h.counts → h.hdrMin = some 0 ∧ h.hdrResetInternalCounters.hdrMin = some 0) ∧
    (0 ∉ positiveAt h.counts → h.hdrMin = some h.nonZeroMin ∧
      h.hdrResetInternalCounters.hdrMin = some h.hdrResetInternalCounters.nonZeroMin) := by
  obtain ⟨u, m, b, D⟩ := R.accepted.describes
  obtain ⟨c, hc, hget⟩ := hdrCountAtIndex_zero R D
  have hget' : h.hdrResetInternalCounters.hdrCountAtIndex 0 = some c := hget
  have hmem : 0 ∈ positiveAt h.counts ↔ 0 < c := by
    simp only [positiveAt, Set.mem_ofPred_eq, hc, Option.some.injEq, exists_eq_left']
  rw [hmem]
  constructor
  · intro hpos
    simp only [HdrHistogram.hdrMin, hget, hget', Option.map_some, if_pos hpos, and_self]
  · intro hpos
    simp only [HdrHistogram.hdrMin, hget, hget', Option.map_some, if_neg hpos, and_self]

theorem value_ne_zero (R : Represents h rs) (P : PositiveCounts rs) (B : Bounded rs)
    (h0 : 0 ∉ positiveAt h.counts) : ∀ r ∈ rs, r.1 ≠ 0 := by
  obtain ⟨u, m, b, D⟩ := R.accepted.describes
  intro r hr hz
  apply h0
  rw [mem_positiveAt_iff R P B D]
  refine ⟨r, hr, ?_⟩
  have hi := index_lower (u := u) (m := m) 0
  rw [lower_zero] at hi
  rw [hz]
  exact hi

/-- The tracked minimum finds the least nonempty cell, once some value is below the
sentinel. -/
theorem nonZeroMin_eq (R : Represents h rs) (P : PositiveCounts rs) (B : Bounded rs)
    (h0 : 0 ∉ positiveAt h.counts) (hlow : ∃ r ∈ rs, r.1 ≠ INT64_MAX) {i : ℕ}
    (hi : IsLeast (positiveAt h.counts) i) :
    h.nonZeroMin = h.hdrValueAtIndex (Int32.ofNat i) := by
  obtain ⟨u, m, b, D⟩ := R.accepted.describes
  have hne := value_ne_zero R P B h0
  obtain ⟨s, hs, hsmax⟩ := hlow
  have hmax : h.minValue ≠ INT64_MAX := by
    intro he
    have hle := R.min_le s hs (hne s hs)
    rw [he] at hle
    exact hsmax (Int64.le_antisymm (Int64.le_maxValue _) hle)
  obtain ⟨r, hr, -, hrm⟩ := R.min_mem.resolve_left hmax
  have hr0 := (nonneg_iff _).mp (R.recordable r hr).1
  rw [hrm] at hr0
  have hleast : IsLeast (positiveAt h.counts) (index u m h.minValue.toInt.toNat) := by
    refine ⟨(mem_positiveAt_iff R P B D _).mpr ⟨r, hr, by rw [hrm]⟩, ?_⟩
    intro k hk
    obtain ⟨t, ht, rfl⟩ := (mem_positiveAt_iff R P B D k).mp hk
    have hle := Int64.le_iff_toInt_le.mp (R.min_le t ht (hne t ht))
    exact index_mono (by omega)
  have hlt := positiveAt_lt D hi.1
  have hlen := D.countsLen_lt
  have hcast : (Int32.ofNat i).toInt = i := Int32.toInt_ofNat_of_lt (by omega)
  rw [HdrHistogram.nonZeroMin, if_neg hmax.symm, ← Int64.toInt_inj,
    D.lowestEquivalentValue_toInt hr0, D.hdrValueAtIndex_toInt hcast hlt, hleast.unique hi]

/-- Only samples at the sentinel: it is reported unchanged, but it is not the lowest
member of its cell. -/
theorem nonZeroMin_sentinel (R : Represents h rs) (P : PositiveCounts rs) (B : Bounded rs)
    (hall : ∀ r ∈ rs, r.1 = INT64_MAX) {i : ℕ} (hi : i ∈ positiveAt h.counts) :
    h.nonZeroMin = INT64_MAX ∧ h.hdrValueAtIndex (Int32.ofNat i) ≠ INT64_MAX := by
  obtain ⟨u, m, b, D⟩ := R.accepted.describes
  have hmin : h.minValue = INT64_MAX := by
    rcases R.min_mem with hm | ⟨r, hr, -, hm⟩
    · exact hm
    · rw [← hm, hall r hr]
  refine ⟨by rw [HdrHistogram.nonZeroMin, if_pos hmin.symm], ?_⟩
  have hlt := positiveAt_lt D hi
  obtain ⟨r, hr, hri⟩ := (mem_positiveAt_iff R P B D i).mp hi
  have hmax : (INT64_MAX : Int64).toInt.toNat = 2 ^ 63 - 1 := by decide
  rw [hall r hr, hmax] at hri
  have hlen := D.countsLen_lt
  have hcast : (Int32.ofNat i).toInt = i := Int32.toInt_ofNat_of_lt (by omega)
  intro he
  have hval := D.hdrValueAtIndex_toInt hcast hlt
  rw [he, ← hri] at hval
  -- the cell of the largest word is wider than one
  have hsize : Nat.size (2 ^ 63 - 1) = 63 :=
    le_antisymm (Nat.size_le.mpr (by omega)) (Nat.succ_le_of_lt (Nat.lt_size.mpr (by omega)))
  have hw := lt_lower_index_add_width (u := u) (m := m) (2 ^ 63 - 1)
  have hoct : octave u m (2 ^ 63 - 1) = 62 - u - m := by
    rw [octave, hsize]
    have := D.unit_le
    omega
  have hdvd : 2 ^ 1 ∣ lower u m (index u m (2 ^ 63 - 1)) := by
    rw [lower_index, hoct]
    have := D.unit_le
    have := D.half_le
    exact Dvd.dvd.mul_left (Nat.pow_dvd_pow 2 (by omega)) _
  have hval' : (INT64_MAX : Int64).toInt = 2 ^ 63 - 1 := by decide
  rw [hval'] at hval
  omega

theorem hdrMax_eq_iff (R : Represents h rs) (D : h.Describes u m b)
    (hlt : index u m h.maxValue.toInt.toNat < (b + 1) * 2 ^ m) :
    h.hdrMax = h.highestEquivalentValue
      (h.hdrValueAtIndex (Int32.ofNat (index u m h.maxValue.toInt.toNat))) ↔
    h.unitMagnitude = 0 ∨ ∃ r ∈ rs, r.1 ≠ 0 := by
  have h0 := maxValue_nonneg R
  have htop := highest_hdrValueAtIndex D hlt
  have hunit : h.unitMagnitude = 0 ↔ u = 0 := by
    rw [← Int32.toInt_inj, D.unitMagnitude]
    exact Int.natCast_eq_zero
  have hsome : (∃ r ∈ rs, r.1 ≠ 0) ↔ h.maxValue ≠ 0 := by
    constructor
    · rintro ⟨r, hr, hne⟩ hz
      have hle := R.le_max r hr
      rw [hz] at hle
      exact hne (Int64.le_antisymm hle (R.recordable r hr).1)
    · intro hne
      obtain ⟨r, hr, hm⟩ := R.max_mem.resolve_left hne
      exact ⟨r, hr, by rwa [hm]⟩
  rw [hunit, hsome, HdrHistogram.hdrMax]
  by_cases hz : h.maxValue = 0
  · have hi := index_lower (u := u) (m := m) 0
    have hw := width_eq (u := u) (m := m) (k := 0) (s := 0) (by positivity) (.inl rfl)
    rw [lower_zero] at hi
    rw [hz, Int64.toInt_zero, Int.toNat_zero, hi, lower_zero] at htop
    simp only [zero_mul, add_zero] at hw
    rw [hw] at htop
    rw [if_pos hz.symm, hz, Int64.toInt_zero, Int.toNat_zero, hi, ← Int64.toInt_inj, htop,
      Int64.toInt_zero]
    simp only [ne_eq, not_true_eq_false, or_false]
    constructor
    · intro hu
      by_contra hne
      have := Nat.one_lt_two_pow hne
      omega
    · rintro rfl
      rfl
  · rw [if_neg (Ne.symm hz)]
    refine iff_of_true ?_ (.inr hz)
    rw [← Int64.toInt_inj, htop, D.highestEquivalentValue_toInt h0]

theorem hdrMin_eq_iff (R : Represents h rs) (P : PositiveCounts rs) (B : Bounded rs) {i : ℕ}
    (hi : IsLeast (positiveAt h.counts) i) :
    h.hdrMin = some (h.hdrValueAtIndex (Int32.ofNat i)) ↔ ∃ r ∈ rs, r.1 ≠ INT64_MAX := by
  obtain ⟨u, m, b, D⟩ := R.accepted.describes
  obtain ⟨hzero, hnonzero⟩ := hdrMin_eq R
  by_cases h0 : 0 ∈ positiveAt h.counts
  · obtain rfl : i = 0 := Nat.le_zero.mp (hi.2 h0)
    have hval := D.hdrValueAtIndex_toInt (i := Int32.ofNat 0) (n := 0) rfl (by positivity)
    rw [lower_zero] at hval
    rw [(hzero h0).1, Option.some.injEq]
    refine iff_of_true ?_ ?_
    · rw [← Int64.toInt_inj, hval]
      rfl
    · by_contra hall
      push Not at hall
      obtain ⟨-, hne⟩ := nonZeroMin_sentinel R P B hall h0
      obtain ⟨r, hr, hri⟩ := (mem_positiveAt_iff R P B D 0).mp h0
      rw [hall r hr, index_eq_iff, lower_zero] at hri
      have hw := width_eq (u := u) (m := m) (k := 0) (s := 0) (by positivity) (.inl rfl)
      simp only [zero_mul, add_zero] at hw
      have hmax : (INT64_MAX : Int64).toInt.toNat = 2 ^ 63 - 1 := by decide
      have hu : 2 ^ u ≤ 2 ^ 61 := Nat.pow_le_pow_right (by omega) (by have := D.unit_le; omega)
      rw [hw, hmax] at hri
      omega
  · rw [(hnonzero h0).1, Option.some.injEq]
    constructor
    · intro he
      by_contra hall
      push Not at hall
      obtain ⟨hs, hne⟩ := nonZeroMin_sentinel R P B hall hi.1
      exact hne (he.symm.trans hs)
    · exact fun hlow => nonZeroMin_eq R P B h0 hlow hi

theorem Represents.extremesAgree_nil (R : Represents h []) : ExtremesAgree h := by
  obtain ⟨u, m, b, D⟩ := R.accepted.describes
  have P : PositiveCounts [] := by simp [PositiveCounts]
  have B : Bounded [] := ⟨by simp, by simp⟩
  have he := (positiveAt_eq_empty_iff R P B).mpr rfl
  have h0 : 0 ∉ positiveAt h.counts := by simp [he]
  have hm : h.maxValue = 0 := R.max_mem.resolve_right (by simp)
  have hn : h.minValue = INT64_MAX := R.min_mem.resolve_right (by simp)
  have hmax : h.hdrMax = 0 := by rw [HdrHistogram.hdrMax, if_pos hm.symm]
  have hmin : h.nonZeroMin = INT64_MAX := by rw [HdrHistogram.nonZeroMin, if_pos hn.symm]
  obtain ⟨-, hnonzero⟩ := hdrMin_eq R
  refine ⟨fun j hj => ?_, fun _ => hmax, fun i hi => ?_, fun _ => ?_, ?_, ?_,
    totalCount_reset (R.wellFormed B)⟩
  · simpa [he] using hj.1
  · simpa [he] using hi.1
  · rw [(hnonzero h0).1, hmin]
  · rw [(hdrMax_reset D).1 he, hmax]
  · rw [(hnonzero h0).1, (hnonzero h0).2, hmin, (nonZeroMin_reset D).1 (by simp [he])]

theorem Represents.extremesAgree_iff (R : Represents h rs) (P : PositiveCounts rs)
    (B : Bounded rs) : ExtremesAgree h ↔ rs = [] ∨
      ((∃ r ∈ rs, r.1 ≠ INT64_MAX) ∧ (h.unitMagnitude = 0 ∨ ∃ r ∈ rs, r.1 ≠ 0)) := by
  by_cases hrs : rs = []
  · subst hrs
    exact iff_of_true R.extremesAgree_nil (.inl rfl)
  obtain ⟨u, m, b, D⟩ := R.accepted.describes
  have hempty := positiveAt_eq_empty_iff R P B
  obtain ⟨-, hmax₁⟩ := hdrMax_reset D
  obtain ⟨-, hmin₁⟩ := nonZeroMin_reset D
  obtain ⟨hzero, hnonzero⟩ := hdrMin_eq R
  have hne : (positiveAt h.counts).Nonempty := by
    rw [Set.nonempty_iff_ne_empty, Ne, hempty]
    exact hrs
  have hleast := isLeast_csInf hne
  have hgreat := isGreatest_index R P B D hrs
  generalize sInf (positiveAt h.counts) = i at hleast
  have hmaxIff := hdrMax_eq_iff R D (positiveAt_lt D hgreat.1)
  have hminIff := hdrMin_eq_iff R P B hleast
  constructor
  · intro E
    exact .inr ⟨hminIff.mp (E.min_some _ hleast), hmaxIff.mp (E.max_some _ hgreat)⟩
  · rintro (hnil | ⟨hlow, hunit⟩)
    · exact absurd hnil hrs
    have hmax := hmaxIff.mpr hunit
    have hmin := hminIff.mpr hlow
    refine ⟨?_, fun he => absurd (hempty.mp he) hrs, ?_, fun he => absurd (hempty.mp he) hrs,
      ?_, ?_, totalCount_reset (R.wellFormed B)⟩
    · intro j hj
      rw [hj.unique hgreat, hmax]
    · intro k hk
      rw [hk.unique hleast, hmin]
    · rw [hmax₁ _ hgreat, hmax]
    · by_cases h0 : 0 ∈ positiveAt h.counts
      · rw [(hzero h0).1, (hzero h0).2]
      · have hdiff : positiveAt h.counts \ {0} = positiveAt h.counts :=
          Set.sdiff_singleton_eq_self h0
        rw [hmin, (hnonzero h0).2, hmin₁ i (by rwa [hdiff])]

end Agreement

/-- Every mutator call records positive counts. -/
def Mutation.CountsPositive : Mutation → Prop
  | .recordValues _ c => 1 ≤ c
  | .recordCorrectedValues _ c _ => 1 ≤ c
  | _ => True

theorem one_le_iff (c : Int64) : 1 ≤ c ↔ 1 ≤ c.toInt := by
  rw [Int64.le_iff_toInt_le, Int64.toInt_one]

theorem Mutation.accepted_positive {l : BucketLayout} {a : Mutation} (hs : a.SourceWellFormed)
    (ha : a.CountsPositive) : PositiveCounts (a.accepted l) := by
  intro r hr
  cases a with
  | recordValues v c =>
      simp only [Mutation.accepted] at hr
      split_ifs at hr
      · rw [List.mem_singleton.mp hr]
        exact (one_le_iff c).mp ha
      · cases hr
  | recordCorrectedValues v c e =>
      simp only [Mutation.accepted] at hr
      split_ifs at hr
      · obtain ⟨x, -, rfl⟩ := List.mem_map.mp hr
        exact (one_le_iff c).mp ha
      · cases hr
  | add source =>
      have hmem := List.mem_filter.mp (List.mem_filter.mp hr).1
      have h0 := entries_nonneg hs r hmem.1
      have hne : r.2.toInt ≠ 0 := by
        rw [← Int64.toInt_zero, Ne, Int64.toInt_inj]
        simpa using hmem.2
      omega
  | reset => cases hr

theorem Mutation.history_positive {l : BucketLayout} {as : List Mutation}
    (hs : ∀ a ∈ as, a.SourceWellFormed) (ha : ∀ a ∈ as, a.CountsPositive) :
    PositiveCounts (Mutation.history l as) := by
  have main : ∀ (as : List Mutation) (rs : List Sample), PositiveCounts rs →
      (∀ a ∈ as, a.SourceWellFormed) → (∀ a ∈ as, a.CountsPositive) →
      PositiveCounts (as.foldl (Mutation.extend l) rs) := by
    intro as
    induction as with
    | nil => exact fun _ P _ _ => P
    | cons a as ih =>
        intro rs P hs ha
        apply ih _ ?_ (fun a' h => hs a' (by simp [h])) (fun a' h => ha a' (by simp [h]))
        have hacc := Mutation.accepted_positive (l := l) (hs a (by simp)) (ha a (by simp))
        have happ : PositiveCounts (rs ++ a.accepted l) := fun r hr =>
          (List.mem_append.mp hr).elim (P r) (hacc r)
        cases a with
        | reset => exact fun r hr => absurd hr (by simp [Mutation.extend])
        | _ => exact happ
  exact main as [] (by simp [PositiveCounts]) hs ha

/-- In a run without overflow the extremes agree with the array unless only the
sentinel was recorded, or only zeros while the first cell holds more than zero. -/
theorem extremes_agree_iff {lowest highest : Int64} {figures : Int32} {h₀ : HdrHistogram}
    (init : hdrInit lowest highest figures = some (.ok h₀)) (as : List Mutation)
    (sources : ∀ a ∈ as, a.SourceWellFormed) (positive : ∀ a ∈ as, a.CountsPositive)
    (fits : sumCounts (Mutation.history h₀.toBucketLayout as) < 2 ^ 63) :
    ∃ h, Mutation.applyAll h₀ as = some h ∧
      (ExtremesAgree h ↔ Mutation.history h₀.toBucketLayout as = [] ∨
        ((∃ r ∈ Mutation.history h₀.toBucketLayout as, r.1 ≠ INT64_MAX) ∧
          (h₀.unitMagnitude = 0 ∨ ∃ r ∈ Mutation.history h₀.toBucketLayout as, r.1 ≠ 0))) := by
  obtain ⟨h, hrun, R, hl⟩ := (represents_hdrInit init).applyAll sources
  have P := Mutation.history_positive (l := h₀.toBucketLayout) sources positive
  refine ⟨h, hrun, ?_⟩
  rw [← hl] at P fits ⊢
  rw [← hl] at R
  exact R.extremesAgree_iff P (P.bounded fits)

theorem extremes_agree_sample : ∃ h, Mutation.applyAll sampleHistogram
    [.recordValues 77 3, .recordCorrectedValues 0 1 10] = some h ∧ ExtremesAgree h := by
  obtain ⟨h, hrun, hiff⟩ := extremes_agree_iff sampleHistogram_init
    [.recordValues 77 3, .recordCorrectedValues 0 1 10] (by simp [Mutation.SourceWellFormed])
    (by simp [Mutation.CountsPositive, one_le_iff]) (by decide +kernel)
  exact ⟨h, hrun, hiff.mpr (.inr ⟨⟨(77, 3), by decide +kernel, by decide⟩, .inl rfl⟩)⟩

/-- Cells two wide, values up to 100 at one significant figure. -/
def coarseHistogram : HdrHistogram where
  lowestDiscernibleValue := 2
  highestTrackableValue := 100
  unitMagnitude := 1
  significantFigures := 1
  subBucketHalfCountMagnitude := 4
  subBucketHalfCount := 16
  subBucketMask := 62
  subBucketCount := 32
  bucketCount := 2
  countsLen := 48
  minValue := INT64_MAX
  maxValue := 0
  normalizingIndexOffset := 0
  conversionRatio := conversionRatioOne
  totalCount := 0
  counts := List.replicate 48 0
  counts_length := by decide

theorem coarseHistogram_init : hdrInit 2 100 1 = some (.ok coarseHistogram) := by decide +kernel

/-- One recorded zero: the maximum is 0, and 1 once it is recomputed. -/
theorem extremes_disagree_zero : hdrInit 2 100 1 = some (.ok coarseHistogram) ∧
    ∃ h, Mutation.applyAll coarseHistogram [.recordValues 0 1] = some h ∧ h.hdrMax = 0 ∧
      h.hdrResetInternalCounters.hdrMax = 1 ∧ ¬ ExtremesAgree h := by
  refine ⟨coarseHistogram_init, ?_⟩
  have hrun : (Mutation.applyAll coarseHistogram [.recordValues 0 1]).map (fun h =>
      (h.hdrMax, h.hdrResetInternalCounters.hdrMax)) = some (0, 1) := by decide +kernel
  obtain ⟨h, hh, hvals⟩ := Option.map_eq_some_iff.mp hrun
  simp only [Prod.mk.injEq] at hvals
  refine ⟨h, hh, hvals.1, hvals.2, fun E => ?_⟩
  have := E.reset_max
  rw [hvals.1, hvals.2] at this
  exact absurd this (by decide)

end HdrHistogramC
