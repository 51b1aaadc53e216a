import HdrHistogramC.Extremes
import HdrHistogramC.LevelIteration
import HdrHistogramC.Merging

/-!
# Linear iteration

The linear iterator raises its level by a fixed step. It ends and reports every count when no
level overflows. The reports are those of the steps when the step is not narrower than the
first bucket, and when some level of the range lies behind every recorded value.
-/
namespace HdrHistogramC
open FixedWidth LogLinear BucketLayout.Describes Enumeration

/-- What `struct hdr_iter_linear` holds besides the levels. -/
structure LinearStep where
  valueUnitsPerBucket : Int64
deriving Repr, DecidableEq

abbrev HdrIterLinear := HdrIterLevels LinearStep

def LinearStep.raise (step : LinearStep) (level : Int64) : Option Int64 :=
  Checked.add64 level step.valueUnitsPerBucket

def iterLinearNext (h : HdrHistogram) (it : HdrIter HdrIterLinear) :
    Option (Bool × HdrIter HdrIterLinear) := levelIterNext LinearStep.raise h it

instance : HdrIterKind HdrIterLinear := ⟨iterLinearNext⟩

def hdrIterLinearInit (h : HdrHistogram) (valueUnitsPerBucket : Int64) : HdrIter HdrIterLinear :=
  levelIterInit h ⟨valueUnitsPerBucket⟩ valueUnitsPerBucket

/-- When no level of the range can overflow, the iteration ends and reports every count. -/
theorem linearIteration_conserves {h : HdrHistogram} (W : h.WellFormed) {w : Int64}
    (hw : 1 ≤ w.toInt) (fits : h.coveredEnd + w.toInt ≤ INT64_MAX.toInt) :
    ∃ its, Yields (hdrIterNext h) (hdrIterLinearInit h w) its ∧
      addedCounts its = h.totalCount.toInt := by
  obtain ⟨u, m, b, D⟩ := W.accepted.describes
  obtain ⟨v, hv⟩ := Int.eq_ofNat_of_zero_le (show 0 ≤ w.toInt by omega)
  have hmax : INT64_MAX.toInt = 2 ^ 63 - 1 := rfl
  let I : HdrIter HdrIterLinear → ℕ → ℕ → Prop :=
    fun it _ _ => it.specifics.parameter = ⟨w⟩
  have up : Raises LinearStep.raise h u m I := by
    intro it n v hI A _ hlt
    have hlevel := A.level
    have hend := (index_lt_length_iff D v).mp hlt
    have hlow : -2 ^ 63 ≤ it.specifics.nextValueReportingLevel.toInt + w.toInt := by omega
    have hhigh : it.specifics.nextValueReportingLevel.toInt + w.toInt < 2 ^ 63 := by omega
    have hadd := add64 hlow hhigh
    refine ⟨it.specifics.nextValueReportingLevel + w, v + w.toInt.toNat, ?_, by omega, by omega,
      fun it₁ _ R => R.parameter.trans hI⟩
    rw [LinearStep.raise, show it.specifics.parameter = ⟨w⟩ from hI]
    exact Checked.add64_eq hlow hhigh
  obtain ⟨its, Y, hsum⟩ := LevelAt.yields W D up (levelAt_init W D ⟨w⟩ hv) (Nat.zero_le _)
    (show (levelIterInit h (⟨w⟩ : LinearStep) w).specifics.parameter = ⟨w⟩ from rfl)
  exact ⟨its, Y, hsum.trans (restCounts_zero W)⟩

theorem linearIteration_conserves_sample : ∃ its,
    Yields (hdrIterNext wideSource) (hdrIterLinearInit wideSource 100) its ∧
      addedCounts its = 5 := by
  obtain ⟨its, Y, hsum⟩ := linearIteration_conserves wideSource_wellFormed
    (show 1 ≤ (100 : Int64).toInt by decide) (by decide +kernel)
  exact ⟨its, Y, hsum.trans (by decide +kernel)⟩

/-- The lowest value equivalent to the level of step `k`. -/
def linearLevel (h : HdrHistogram) (w : Int64) (k : ℕ) : Int64 :=
  h.hdrLowestEquivalentValue (Int64.ofInt (k * w.toInt))

/-- The buckets of step `k`; the first step has no lower bound. -/
def linearStepSamples (h : HdrHistogram) (w : Int64) (k : ℕ) : List Sample :=
  h.entries.filter fun r =>
    (k = 1 ∨ linearLevel h w (k - 1) < r.1) ∧ r.1 ≤ linearLevel h w k

/-- The call answers step `k`. -/
structure LinearReport (h : HdrHistogram) (w : Int64) (k : ℕ) (it : HdrIter HdrIterLinear) :
    Prop where
  iteratedFrom : it.valueIteratedFrom.toInt = (k - 1) * w.toInt
  iteratedTo : it.valueIteratedTo.toInt = k * w.toInt
  added : it.specifics.countAddedInThisIterationStep.toInt = sumCounts (linearStepSamples h w k)

section Attribution
variable {h : HdrHistogram} {u m b k s n : ℕ} {w : Int64} {it it₁ : HdrIter HdrIterLinear}

theorem sumCounts_filter_between {p : Sample → Bool} {a c : ℕ} (hac : a ≤ c)
    (hc : c ≤ h.counts.length) (hp : ∀ i < h.counts.length, ∀ x, p (h.hdrValueAtIndex
      (Int32.ofNat i), x) = true ↔ a ≤ i ∧ i < c) :
    sumCounts (h.entries.filter p) = h.restCounts a - h.restCounts c := by
  have main : ∀ d n, n + d = h.counts.length → sumCounts ((h.entries.drop n).filter p) =
      h.restCounts (max n a) - h.restCounts (max n c) := by
    intro d
    induction d with
    | zero =>
        intro n hn
        rw [List.drop_eq_nil_of_le (by rw [entries_length]; omega), List.filter_nil, sumCounts_nil,
          restCounts_end h (by omega), restCounts_end h (by omega), sub_zero]
    | succ d ih =>
        intro n hn
        have hstep := restCounts_succ (show n < h.counts.length by omega)
        rw [entries_drop (by omega), List.filter_cons]
        have hiff := hp n (by omega) ((h.countsGetNormalised (Int32.ofNat n)).getD 0)
        have hrest := ih (n + 1) (by omega)
        rcases Nat.lt_or_ge n a with hna | hna
        · rw [if_neg (by rw [hiff]; omega), hrest, max_eq_right hna, max_eq_right (by omega),
            max_eq_right (by omega), max_eq_right (by omega)]
        rcases Nat.lt_or_ge n c with hnc | hnc
        · rw [if_pos (by rw [hiff]; omega), sumCounts_cons, hrest, max_eq_left (by omega),
            max_eq_right (by omega), max_eq_left hna, max_eq_right (by omega), hstep]
          exact (add_sub_assoc _ _ _).symm
        · rw [if_neg (by rw [hiff]; omega), hrest, max_eq_left (by omega), max_eq_left (by omega),
            max_eq_left hna, max_eq_left hnc, sub_self, sub_self]
  have hall := main h.counts.length 0 (by omega)
  rwa [List.drop_zero, Nat.zero_max, Nat.zero_max] at hall

/-- The iterator after `k` reports. -/
structure LinearAt (h : HdrHistogram) (u m s k : ℕ) (it : HdrIter HdrIterLinear) : Prop where
  levels : LevelAt h u m it (consumedUpTo u m (k * s)) ((k + 1) * s)
  step : it.specifics.parameter.valueUnitsPerBucket.toInt = s
  iteratedTo : it.valueIteratedTo.toInt = (k * s : ℕ)

theorem linearAt_init (W : h.WellFormed) (D : h.Describes u m b) (hw : w.toInt = s) :
    LinearAt h u m s 0 (hdrIterLinearInit h w) where
  levels := by
    rw [Nat.zero_mul, consumedUpTo_zero, Nat.zero_add, Nat.one_mul]
    exact levelAt_init W D _ hw
  step := hw
  iteratedTo := by
    rw [Nat.zero_mul]
    rfl

/-- What call `k + 1` does: it stops, reports its step, or leaves the array without a report. -/
theorem LinearAt.next (A : LinearAt h u m s k it) (W : h.WellFormed) (D : h.Describes u m b) :
    (h.restCounts (consumedUpTo u m (k * s)) = 0 ∧
      ∃ it₁, hdrIterNext h it = some (false, it₁)) ∨
    (index u m ((k + 1) * s) < h.counts.length ∧ (hdrIterNext h it = none ∨
      ∃ it₁, hdrIterNext h it = some (true, it₁) ∧ LinearAt h u m s (k + 1) it₁ ∧
        it₁.valueIteratedFrom.toInt = (k * s : ℕ) ∧
        it₁.specifics.countAddedInThisIterationStep.toInt =
          h.restCounts (consumedUpTo u m (k * s)) -
            h.restCounts (consumedUpTo u m ((k + 1) * s)))) ∨
    (0 < h.restCounts (consumedUpTo u m (k * s)) ∧ h.counts.length ≤ index u m ((k + 1) * s) ∧
      ∃ it₁, hdrIterNext h it = some (true, it₁) ∧ it₁.valueIteratedTo.toInt = (k * s : ℕ)) := by
  have hto := A.iteratedTo
  have hcursor := levelCursor_consumedUpTo u m (show k * s ≤ (k + 1) * s by gcongr; omega)
  rcases A.levels.next LinearStep.raise W D with ⟨hrest, -, it₁, hnext⟩ |
      ⟨-, hlt, ⟨-, hnext⟩ | ⟨level, it₁, hraise, hnext, R, hA₁⟩⟩ | ⟨hrest, hge, it₁, hnext, -, R⟩
  · exact .inl ⟨hrest, it₁, hnext⟩
  · exact .inr (.inl ⟨hlt, .inl hnext⟩)
  · rw [hcursor] at R hA₁
    have hlevel : level.toInt = ((k + 1 + 1) * s : ℕ) := by
      rw [Checked.int64_eq_some.mp hraise, A.levels.level, A.step]
      push_cast
      ring
    refine .inr (.inl ⟨hlt, .inr ⟨it₁, hnext, ⟨hA₁ _ hlevel, ?_, ?_⟩, ?_, R.added⟩⟩)
    · rw [R.parameter, A.step]
    · rw [R.iteratedTo, A.levels.level]
    · rw [R.iteratedFrom, hto]
  · exact .inr (.inr ⟨hrest, hge, it₁, hnext, by rw [R.iteratedTo, hto]⟩)

theorem linearLevel_toInt (D : h.Describes u m b) (hw : w.toInt = s) (hk : k * s < 2 ^ 63) :
    (linearLevel h w k).toInt = lower u m (index u m (k * s)) := by
  have hlevel : (Int64.ofInt (k * w.toInt)).toInt = (k * s : ℕ) := by
    rw [hw, ← Nat.cast_mul]
    exact Int64.toInt_ofInt_of_le (by omega) (by exact_mod_cast hk)
  rw [linearLevel, BucketLayout.hdrLowestEquivalentValue,
    D.lowestEquivalentValue_toInt (by omega), hlevel, Int.toNat_natCast]

theorem sumCounts_linearStepSamples (D : h.Describes u m b) (hw : w.toInt = s)
    (hlt : index u m ((k + 1) * s) < h.counts.length) :
    sumCounts (linearStepSamples h w (k + 1)) =
      h.restCounts (if k = 0 then 0 else index u m (k * s) + 1) -
        h.restCounts (index u m ((k + 1) * s) + 1) := by
  have hlen := counts_length_nat D
  have hcounts := D.countsLen_lt
  have hmono : index u m (k * s) ≤ index u m ((k + 1) * s) :=
    index_mono (Nat.mul_le_mul_right s (Nat.le_succ k))
  have hbound : (k + 1) * s < 2 ^ 63 :=
    lt_of_lt_of_le ((index_lt_octave b _).mp (hlen ▸ hlt)) D.two_pow_top
  have hsmall : k * s < 2 ^ 63 :=
    lt_of_le_of_lt (Nat.mul_le_mul_right s (Nat.le_succ k)) hbound
  refine sumCounts_filter_between (by split_ifs <;> omega) hlt fun i hi x => ?_
  have hval : (h.hdrValueAtIndex (Int32.ofNat i)).toInt = lower u m i :=
    D.hdrValueAtIndex_toInt (Int32.toInt_ofNat_of_lt (by omega)) (by omega)
  rw [decide_eq_true_iff, Int64.lt_iff_toInt_lt, Int64.le_iff_toInt_le, hval,
    linearLevel_toInt D hw hbound, Nat.add_sub_cancel, linearLevel_toInt D hw hsmall, Int.ofNat_lt,
    Int.ofNat_le, lower_strictMono.lt_iff_lt, lower_strictMono.le_iff_le]
  split_ifs <;> omega

/-- No count of the first bucket is lost to the cursor, which starts at its value. -/
def FirstBucketRead (h : HdrHistogram) (u s : ℕ) : Prop :=
  2 ^ u ≤ s ∨ h.restCounts 0 = h.restCounts 1

theorem FirstBucketRead.restCounts (first : FirstBucketRead h u s) (m : ℕ) (hk : 1 ≤ k) :
    h.restCounts (consumedUpTo u m (k * s)) = h.restCounts (index u m (k * s) + 1) := by
  unfold consumedUpTo
  split_ifs with hz
  · rcases first with hs | heq
    · have hlow := (index_eq_zero_iff _).mp hz
      have hle : s ≤ k * s := Nat.le_mul_of_pos_left s hk
      omega
    · rw [hz, heq]
  · rfl

theorem LinearAt.report (D : h.Describes u m b) (hw : w.toInt = s) (first : FirstBucketRead h u s)
    (A : LinearAt h u m s (k + 1) it) (hlt : index u m ((k + 1) * s) < h.counts.length)
    (hfrom : it.valueIteratedFrom.toInt = (k * s : ℕ))
    (hadded : it.specifics.countAddedInThisIterationStep.toInt =
      h.restCounts (consumedUpTo u m (k * s)) - h.restCounts (consumedUpTo u m ((k + 1) * s))) :
    LinearReport h w (k + 1) it where
  iteratedFrom := by
    rw [hfrom, hw]
    push_cast
    ring
  iteratedTo := by
    rw [A.iteratedTo, hw]
    push_cast
    rfl
  added := by
    rw [hadded, sumCounts_linearStepSamples D hw hlt, first.restCounts m (Nat.le_add_left 1 k)]
    split_ifs with hk
    · rw [hk, Nat.zero_mul, consumedUpTo_zero]
    · rw [first.restCounts m (by omega)]

/-- A level of the range, after the first `k`, behind which no count is left. -/
def Covering (h : HdrHistogram) (u m s k : ℕ) : Prop :=
  h.restCounts (consumedUpTo u m (k * s)) = 0 ∨
    ∃ j > k, index u m (j * s) < h.counts.length ∧ h.restCounts (consumedUpTo u m (j * s)) = 0

/-- The reports of an iteration that ends are those of the steps exactly when the iterator never
leaves the array. -/
theorem LinearAt.numbered_iff (W : h.WellFormed) (D : h.Describes u m b) (hw : w.toInt = s)
    (hs : 1 ≤ s) (first : FirstBucketRead h u s) (its : List (HdrIter HdrIterLinear)) :
    ∀ (k : ℕ) (it : HdrIter HdrIterLinear), LinearAt h u m s k it →
      Yields (hdrIterNext h) it its →
      (Numbered (LinearReport h w) (k + 1) its ↔ Covering h u m s k) := by
  induction its with
  | nil =>
      intro k it A Y
      rcases A.next W D with ⟨hz, -⟩ | ⟨-, hnone | ⟨it₁, hmore, -⟩⟩ | ⟨-, -, it₁, hmore, -⟩
      · exact iff_of_true (numbered_nil _ _) (.inl hz)
      · exact absurd hnone Y.ne_none
      · obtain ⟨_, hcons, -⟩ := Y.eq_cons hmore
        cases hcons
      · obtain ⟨_, hcons, -⟩ := Y.eq_cons hmore
        cases hcons
  | cons it₀ its ih =>
      intro k it A Y
      rw [numbered_cons]
      have hmono : ∀ j > k, index u m ((k + 1) * s) ≤ index u m (j * s) :=
        fun j hj => index_mono (Nat.mul_le_mul_right s hj)
      rcases A.next W D with ⟨-, it₁, hstop⟩ | ⟨hlt, hnone | ⟨it₁, hmore, A₁, hfrom, hadded⟩⟩ |
          ⟨hrest, hge, it₁, hmore, hto⟩
      · cases Y.eq_nil hstop
      · exact absurd hnone Y.ne_none
      · obtain ⟨its', hcons, Y'⟩ := Y.eq_cons hmore
        cases hcons
        rw [iff_true_intro (A₁.report D hw first hlt hfrom hadded), true_and, ih (k + 1) it₀ A₁ Y']
        have hle := restCounts_anti W (consumedUpTo_mono u m (show k * s ≤ (k + 1) * s by
          gcongr
          omega))
        have hnonneg := restCounts_nonneg W (consumedUpTo u m ((k + 1) * s))
        constructor
        · rintro (hz | ⟨j, hj, hjlt, hz⟩)
          · exact .inr ⟨k + 1, Nat.lt_succ_self k, hlt, hz⟩
          · exact .inr ⟨j, by omega, hjlt, hz⟩
        · rintro (hz | ⟨j, hj, hjlt, hz⟩)
          · exact .inl (by omega)
          · rcases Nat.lt_or_ge (k + 1) j with hjk | hjk
            · exact .inr ⟨j, hjk, hjlt, hz⟩
            · obtain rfl : j = k + 1 := by omega
              exact .inl hz
      · -- the array is left: the report is stale, and no level of the range is ahead
        obtain ⟨its', hcons, -⟩ := Y.eq_cons hmore
        cases hcons
        refine iff_of_false (fun N => ?_) ?_
        · have hreport := N.1.iteratedTo
          rw [hto, hw] at hreport
          push_cast at hreport
          nlinarith
        · rintro (hz | ⟨j, hj, hjlt, -⟩)
          · omega
          · have := hmono j hj
            omega

theorem LinearAt.firstBucketRead (W : h.WellFormed) (D : h.Describes u m b) (hw : w.toInt = s)
    (hs : 1 ≤ s) (htotal : h.totalCount ≠ 0) (A : LinearAt h u m s 0 it)
    {its : List (HdrIter HdrIterLinear)} (Y : Yields (hdrIterNext h) it its)
    (N : Numbered (LinearReport h w) 1 its) : FirstBucketRead h u s := by
  have hrest : h.restCounts 0 ≠ 0 := by
    rw [restCounts_zero W]
    exact fun hz => htotal (Int64.toInt_inj.mp hz)
  rcases A.next W D with ⟨hz, -⟩ | ⟨hlt, hnone | ⟨it₁, hmore, -, -, hadded⟩⟩ |
      ⟨-, -, it₁, hmore, hto⟩
  · rw [Nat.zero_mul, consumedUpTo_zero] at hz
    exact absurd hz hrest
  · exact absurd hnone Y.ne_none
  · obtain ⟨its', rfl, -⟩ := Y.eq_cons hmore
    have hsum := (numbered_cons.mp N).1.added
    rw [← Nat.zero_add 1, sumCounts_linearStepSamples D hw hlt, if_pos rfl, hadded, Nat.zero_mul,
      consumedUpTo_zero, Nat.zero_add, Nat.one_mul, consumedUpTo] at hsum
    split_ifs at hsum with hz
    · rw [hz, Nat.zero_add] at hsum
      exact .inr (by omega)
    · exact .inl (not_lt.mp (mt (index_eq_zero_iff s).mpr hz))
  · obtain ⟨its', rfl, -⟩ := Y.eq_cons hmore
    have hreport := (numbered_cons.mp N).1.iteratedTo
    rw [hto, hw] at hreport
    push_cast at hreport
    omega

theorem firstBucketRead_iff (W : h.WellFormed) (D : h.Describes u m b) (hw : w.toInt = s) :
    FirstBucketRead h u s ↔
      2 ^ h.unitMagnitude.toInt.toNat ≤ w.toInt ∨ h.hdrCountAtIndex 0 = some 0 := by
  have hpos : 0 < h.counts.length := by
    rw [counts_length_nat D]
    positivity
  have hunit : (2 : ℤ) ^ u ≤ s ↔ 2 ^ u ≤ s := by exact_mod_cast Iff.rfl
  obtain ⟨c, hc⟩ := countsGetNormalised_some W hpos
  have hstep := restCounts_succ hpos
  rw [hc, Option.getD_some, Nat.zero_add] at hstep
  rw [FirstBucketRead, D.unitMagnitude, Int.toNat_natCast, hw, hunit,
    show h.hdrCountAtIndex 0 = some c from hc, Option.some.injEq, ← Int64.toInt_inj,
    Int64.toInt_zero, hstep]
  exact or_congr_right (by omega)

theorem linearIteration_yields (W : h.WellFormed) (hw : 1 ≤ w.toInt)
    (F : Defined (hdrIterNext h) (hdrIterLinearInit h w)) :
    ∃ its, Yields (hdrIterNext h) (hdrIterLinearInit h w) its := by
  obtain ⟨u, m, b, D⟩ := W.accepted.describes
  obtain ⟨v, hv⟩ := Int.eq_ofNat_of_zero_le (show 0 ≤ w.toInt by omega)
  let I : HdrIter HdrIterLinear → ℕ → ℕ → Prop :=
    fun it _ _ => Defined (hdrIterNext h) it ∧ it.specifics.parameter = ⟨w⟩
  have up : Raises LinearStep.raise h u m I := by
    rintro it n v ⟨F, hparam⟩ A hgo hlt
    rcases A.next LinearStep.raise W D with ⟨hz, hover, -⟩ |
        ⟨-, -, ⟨-, hnone⟩ | ⟨level, it₁, hraise, -, -, -⟩⟩ | ⟨-, hge, -⟩
    · rcases hgo with hrest | hover'
      · omega
      · exact absurd hover' hover
    · exact absurd hnone F.ne_none
    · have hlevel := Checked.int64_eq_some.mp hraise
      rw [A.level, hparam] at hlevel
      dsimp only at hlevel
      exact ⟨level, v + w.toInt.toNat, hraise, by omega, by omega,
        fun it₁ hnext R => ⟨F.more hnext, R.parameter.trans hparam⟩⟩
    · omega
  obtain ⟨its, Y, -⟩ := LevelAt.yields W D up (levelAt_init W D (⟨w⟩ : LinearStep) hv)
    (Nat.zero_le _) (show I (hdrIterLinearInit h w) 0 v from ⟨F, rfl⟩)
  exact ⟨its, Y⟩

end Attribution

/-- The reports are those of the steps exactly when no count is recorded, or when the first step
reaches beyond the first bucket or finds it empty, and some level of the range lies behind every
recorded value. -/
theorem linearIteration_attributes_iff {h : HdrHistogram} (W : h.WellFormed) {w : Int64}
    (hw : 1 ≤ w.toInt) (F : Defined (hdrIterNext h) (hdrIterLinearInit h w)) :
    ∃ its, Yields (hdrIterNext h) (hdrIterLinearInit h w) its ∧
      ((∀ (j : ℕ) (hj : j < its.length), LinearReport h w (1 + j) its[j]) ↔
        h.totalCount = 0 ∨
          ((2 ^ h.unitMagnitude.toInt.toNat ≤ w.toInt ∨ h.hdrCountAtIndex 0 = some 0) ∧
            ∃ k : ℕ, 1 ≤ k ∧ k * w.toInt < h.coveredEnd ∧
              ∀ r ∈ h.recordedSamples, r.1.toInt ≤ k * w.toInt)) := by
  obtain ⟨u, m, b, D⟩ := W.accepted.describes
  obtain ⟨s, hs⟩ := Int.eq_ofNat_of_zero_le (show 0 ≤ w.toInt by omega)
  obtain ⟨its, Y⟩ := linearIteration_yields W hw F
  have A := linearAt_init W D hs
  have hzero : h.restCounts 0 = 0 ↔ h.totalCount = 0 := by
    rw [restCounts_zero W, ← Int64.toInt_inj, Int64.toInt_zero]
  have hend : ∀ k : ℕ, index u m (k * s) < h.counts.length ↔ k * w.toInt < h.coveredEnd := by
    intro k
    rw [index_lt_length_iff D, hs]
    push_cast
    rfl
  have hbehind : ∀ k : ℕ, h.restCounts (index u m (k * s) + 1) = 0 ↔
      ∀ r ∈ h.recordedSamples, r.1.toInt ≤ k * w.toInt := by
    intro k
    rw [restCounts_eq_zero_iff W D, hs]
    push_cast
    rfl
  refine ⟨its, Y, ?_⟩
  change Numbered (LinearReport h w) 1 its ↔ _
  rw [← firstBucketRead_iff W D hs]
  constructor
  · intro N
    by_cases htotal : h.totalCount = 0
    · exact .inl htotal
    have first := A.firstBucketRead W D hs (by omega) htotal Y N
    rcases (LinearAt.numbered_iff W D hs (by omega) first its 0 _ A Y).mp N with
      hz | ⟨k, hk, hlt, hz⟩
    · rw [Nat.zero_mul, consumedUpTo_zero, hzero] at hz
      exact absurd hz htotal
    · rw [first.restCounts m hk, hbehind] at hz
      exact .inr ⟨first, k, hk, (hend k).mp hlt, hz⟩
  · rintro (htotal | ⟨first, k, hk, hlt, hall⟩)
    · have hz := hzero.mpr htotal
      have hle := restCounts_anti W (Nat.zero_le 1)
      have hnonneg := restCounts_nonneg W 1
      refine (LinearAt.numbered_iff W D hs (by omega) (.inr (by omega)) its 0 _ A Y).mpr (.inl ?_)
      rwa [Nat.zero_mul, consumedUpTo_zero]
    · refine (LinearAt.numbered_iff W D hs (by omega) first its 0 _ A Y).mpr
        (.inr ⟨k, hk, (hend k).mpr hlt, ?_⟩)
      rw [first.restCounts m hk, hbehind]
      exact hall

/-- One step that is wider than the range: the only report has no interval. -/
theorem linearIteration_misattributes : wideSource.WellFormed ∧ ∃ its,
    Yields (hdrIterNext wideSource) (hdrIterLinearInit wideSource 2000) its ∧
      ¬ ∀ (j : ℕ) (hj : j < its.length), LinearReport wideSource 2000 (1 + j) its[j] := by
  have hrun : (calls (hdrIterNext wideSource) 2 (hdrIterLinearInit wideSource 2000)).map
      (fun its => its.map fun it => it.valueIteratedTo) = some [0] := by decide +kernel
  obtain ⟨its, hcalls, hmap⟩ := Option.map_eq_some_iff.mp hrun
  obtain ⟨it, _, rfl, hto, hnil⟩ := List.map_eq_cons_iff.mp hmap
  rw [List.map_eq_nil_iff] at hnil
  subst hnil
  refine ⟨wideSource_wellFormed, [it], ⟨2, hcalls, Nat.lt_succ_self 1⟩, fun N => ?_⟩
  have hreport := (N 0 Nat.zero_lt_one).iteratedTo
  rw [List.getElem_cons_zero, hto] at hreport
  exact absurd hreport (by decide)

theorem linearIteration_attributes_sample : ∃ its,
    Yields (hdrIterNext wideSource) (hdrIterLinearInit wideSource 100) its ∧
      ∀ (j : ℕ) (hj : j < its.length), LinearReport wideSource 100 (1 + j) its[j] := by
  have hrun : (calls (hdrIterNext wideSource) 20 (hdrIterLinearInit wideSource 100)).map
      List.length = some 9 := by decide +kernel
  obtain ⟨its', hcalls, hlength⟩ := Option.map_eq_some_iff.mp hrun
  have Y' : Yields (hdrIterNext wideSource) (hdrIterLinearInit wideSource 100) its' :=
    ⟨20, hcalls, by omega⟩
  obtain ⟨its, Y, hiff⟩ := linearIteration_attributes_iff wideSource_wellFormed
    (show 1 ≤ (100 : Int64).toInt by decide) Y'.defined
  refine ⟨its, Y, hiff.mpr (.inr ⟨.inl (by decide +kernel), 10, by omega, by decide +kernel,
    List.forall_iff_forall_mem.mp (by decide +kernel)⟩)⟩

end HdrHistogramC
