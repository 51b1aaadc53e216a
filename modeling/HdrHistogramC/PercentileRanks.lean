import HdrHistogramC.Percentile
import HdrHistogramC.PercentileIteration

/-!
# The ranks of percentile iteration

A report of the percentile iterator is for the first bucket whose counts pass the tick. After a
recorded history that is the bucket of the sample whose rank the tick is, and the cumulative count
is the number of the samples up to it.
-/
namespace HdrHistogramC
open FixedWidth BoundedLoop LogLinear BucketLayout.Describes Enumeration RankSelection

/-- The counts before index `n`. -/
def HdrHistogram.countsBefore (h : HdrHistogram) (n : ℕ) : ℤ := h.totalCount.toInt - h.restCounts n

section Ticks
variable {h : HdrHistogram} {u m b n : ℕ} {ticks : Int32} {it it₁ : HdrIter HdrIterPercentiles}

/-- The counts before index `n` do not pass the tick `p`. -/
def Unpassed (h : HdrHistogram) (p : ℚ) (n : ℕ) : Prop :=
  h.countsBefore n = 0 ∨ 100 * (h.countsBefore n : ℚ) < p * h.totalCount.toInt

/-- The iterator before its last report: the entries before the one at the cursor do not pass the
next tick. -/
structure Trailing (h : HdrHistogram) (u m : ℕ) (ticks : Int32)
    (it : HdrIter HdrIterPercentiles) (n : ℕ) : Prop extends PercentileAt h u m ticks it n where
  unpassed : ∀ k < n, Unpassed h it.specifics.percentileToIterateTo k
  empty : it.count = 0 → Unpassed h it.specifics.percentileToIterateTo n
  counted : it.count ≠ 0 → 0 < it.cumulativeCount.toInt
  last : it.cumulativeCount.toInt = h.totalCount.toInt → it.count ≠ 0

/-- The report of the bucket at index `n`, the first one that passes its tick. -/
structure FirstPast (h : HdrHistogram) (u m : ℕ) (it : HdrIter HdrIterPercentiles) (n : ℕ) :
    Prop where
  lt : n < h.counts.length
  highest : it.highestEquivalentValue.toInt = lower u m (n + 1) - 1
  cumulative : it.cumulativeCount.toInt = h.countsBefore (n + 1)
  pos : 0 < h.countsBefore (n + 1)
  unpassed : Unpassed h it.specifics.percentile n
  past : it.specifics.percentile * h.totalCount.toInt ≤ 100 * h.countsBefore (n + 1)

theorem Unpassed.mono {p q : ℚ} (B : Unpassed h p n) (hpq : p ≤ q) (hN : 0 < h.totalCount.toInt) :
    Unpassed h q n := by
  refine B.imp_right fun hlt => hlt.trans_le ?_
  have hN' : (0 : ℚ) < h.totalCount.toInt := by exact_mod_cast hN
  exact mul_le_mul_of_nonneg_right hpq hN'.le

theorem At.countsBefore {σ : Type} {it : HdrIter σ} (A : At h it n) :
    it.cumulativeCount.toInt = h.countsBefore n := by
  have hcum := A.cumulative
  rw [HdrHistogram.countsBefore, HdrHistogram.restCounts]
  omega

theorem countsBefore_zero (W : h.WellFormed) : h.countsBefore 0 = 0 := by
  rw [HdrHistogram.countsBefore, restCounts_zero W, sub_self]

theorem countsBefore_mono (W : h.WellFormed) {k n : ℕ} (hk : k ≤ n) :
    h.countsBefore k ≤ h.countsBefore n :=
  Int.sub_le_sub_left (restCounts_anti W hk) _

theorem countsBefore_nonneg (W : h.WellFormed) (n : ℕ) : 0 ≤ h.countsBefore n := by
  rw [← countsBefore_zero W]
  exact countsBefore_mono W (Nat.zero_le n)

theorem Trailing.moved (T : Trailing h u m ticks it n) (W : h.WellFormed) (D : h.Describes u m b)
    (hlt : it.cumulativeCount.toInt < h.totalCount.toInt)
    (hpass : ¬ (it.count ≠ 0 ∧ it.specifics.percentileToIterateTo ≤ currentPercentile h it)) :
    ∃ it₁, it.basicIterNext h = some (true, it₁) ∧ Trailing h u m ticks it₁ (n + 1) := by
  obtain ⟨it₁, hnext, P₁, -, hspec, hn, hlast⟩ := T.toPercentileAt.moved W D hlt
  have hbefore := T.cursor.countsBefore
  have hbefore₁ := P₁.cursor.countsBefore
  have hcumulative : it₁.cumulativeCount = it.cumulativeCount + it₁.count := by
    rcases basicIterNext_cases W T.cursor with ⟨-, hstop⟩ | ⟨-, it₂, hnext₂, M, -⟩
    · rw [hnext] at hstop
      cases hstop
    · rw [hnext] at hnext₂
      cases hnext₂
      exact M.cumulative
  have hhere : Unpassed h it.specifics.percentileToIterateTo n := by
    by_cases hc : it.count = 0
    · exact T.empty hc
    · have hcur := not_le.mp fun hle => hpass ⟨hc, hle⟩
      have hN : (0 : ℚ) < h.totalCount.toInt := by
        have hpos := T.counted hc
        exact_mod_cast hpos.trans hlt
      rw [currentPercentile, div_lt_iff₀ hN, hbefore] at hcur
      exact .inr hcur
  refine ⟨it₁, hnext, P₁, fun k hk => ?_, fun hc => ?_, fun hc => ?_, hlast⟩
  · rw [hspec]
    rcases Nat.lt_succ_iff_lt_or_eq.mp hk with hk | rfl
    · exact T.unpassed k hk
    · exact hhere
  · rw [hc, Int64.add_zero] at hcumulative
    have hsame : h.countsBefore (n + 1) = h.countsBefore n := by
      rw [← hbefore₁, hcumulative, hbefore]
    rw [hspec, Unpassed, hsame]
    exact hhere
  · have hnonneg := countsBefore_nonneg W n
    have hmono := countsBefore_mono W (Nat.le_succ n)
    rw [← hbefore] at hnonneg hmono
    rw [Nat.succ_eq_add_one, ← hbefore₁] at hmono
    refine lt_of_le_of_ne (hnonneg.trans hmono) fun h0 => hc ?_
    have hzero : it.cumulativeCount = 0 := by
      rw [← Int64.toInt_inj, Int64.toInt_zero]
      omega
    rw [hzero, Int64.zero_add] at hcumulative
    rw [← hcumulative, ← Int64.toInt_inj, Int64.toInt_zero, h0]

/-- A report is for the first bucket that passes the tick. -/
theorem Trailing.report (T : Trailing h u m ticks it n) (W : h.WellFormed) (ht : 1 ≤ ticks.toInt)
    (hN : 0 < h.totalCount.toInt)
    (hpass : it.count ≠ 0 ∧ it.specifics.percentileToIterateTo ≤ currentPercentile h it) :
    Trailing h u m ticks (it.reportPercentile h) n ∧
      ∃ k, FirstPast h u m (it.reportPercentile h) k := by
  obtain ⟨hpos, hbelow, -⟩ := percentileTick_bounds ht T.nonneg T.below
  have hnonneg := T.nonneg
  have hnext : (it.reportPercentile h).specifics.percentileToIterateTo =
      it.specifics.percentileToIterateTo +
        percentileTick ticks it.specifics.percentileToIterateTo := by
    rw [← T.ticks]
    rfl
  have hbefore := T.cursor.countsBefore
  have hcounted := T.counted hpass.1
  constructor
  · refine ⟨⟨⟨T.cursor.index, T.cursor.le, T.cursor.total, T.cursor.cumulative⟩, T.highest,
      T.ticks, T.unseen, by rw [hnext]; linarith, by rw [hnext]; exact hbelow⟩, fun k hk => ?_,
      fun hc => absurd hc hpass.1, T.counted, T.last⟩
    rw [hnext]
    exact (T.unpassed k hk).mono (by linarith) hN
  · rw [hbefore] at hcounted
    obtain ⟨k, rfl⟩ : ∃ k, n = k + 1 := Nat.exists_eq_succ_of_ne_zero fun h0 => by
      rw [h0, countsBefore_zero W] at hcounted
      exact hcounted.false
    have hlower : lower u m 0 < lower u m (k + 1) := lower_strictMono (Nat.succ_pos k)
    rw [lower_zero] at hlower
    have hN' : (0 : ℚ) < h.totalCount.toInt := by exact_mod_cast hN
    have hpast := hpass.2
    rw [currentPercentile, le_div_iff₀ hN', hbefore] at hpast
    exact ⟨k, T.cursor.le, T.highest.trans (by omega), hbefore, hcounted,
      T.unpassed k (Nat.lt_succ_self k), hpast⟩

theorem Trailing.run (T : Trailing h u m ticks it n) (W : h.WellFormed) (D : h.Describes u m b)
    (ht : 1 ≤ ticks.toInt) (hN : 0 < h.totalCount.toInt) {fuel : ℕ}
    {r : Bool × HdrIter HdrIterPercentiles}
    (hrun : BoundedLoop.run (percentileBody h) fuel it = some r) :
    (∃ k, Trailing h u m ticks r.2 k) ∧ ∃ k, FirstPast h u m r.2 k := by
  refine run_sound (I := fun s => ∃ k, Trailing h u m ticks s k)
    (Q := fun r => (∃ k, Trailing h u m ticks r.2 k) ∧ ∃ k, FirstPast h u m r.2 k) ?_ fuel it
    ⟨n, T⟩ hrun
  rintro s ⟨k, T⟩ r hbody
  by_cases hpass : s.count ≠ 0 ∧ s.specifics.percentileToIterateTo ≤ currentPercentile h s
  · rw [percentileBody, if_pos hpass] at hbody
    cases hbody
    obtain ⟨T', F⟩ := T.report W ht hN hpass
    exact ⟨⟨k, T'⟩, F⟩
  · have hlt : s.cumulativeCount.toInt < h.totalCount.toInt := by
      have hle := restCounts_nonneg W k
      have hbefore := T.cursor.countsBefore
      rw [HdrHistogram.countsBefore] at hbefore
      by_contra hge
      have heq : s.cumulativeCount.toInt = h.totalCount.toInt := by omega
      have hN' : (h.totalCount.toInt : ℚ) ≠ 0 := by exact_mod_cast hN.ne'
      refine hpass ⟨T.last heq, ?_⟩
      rw [currentPercentile, heq, mul_div_assoc, div_self hN', mul_one]
      exact T.below.le
    obtain ⟨s₁, hnext, T₁⟩ := T.moved W D hlt hpass
    rw [percentileBody, if_neg hpass, hnext] at hbody
    cases hbody
    exact ⟨k + 1, T₁⟩

theorem Trailing.reportLast (T : Trailing h u m ticks it n) (W : h.WellFormed)
    (hN : 0 < h.totalCount.toInt) (hmore : it.hasNext = false) :
    ∃ k, FirstPast h u m it.reportLastPercentile k := by
  have hbefore := T.cursor.countsBefore
  have hall : it.cumulativeCount.toInt = h.totalCount.toInt := by
    have hnot := mt T.hasNext_iff.mpr (by rw [hmore]; exact Bool.false_ne_true)
    have hle := restCounts_nonneg W n
    rw [HdrHistogram.countsBefore] at hbefore
    omega
  rw [hbefore] at hall
  obtain ⟨k, rfl⟩ : ∃ k, n = k + 1 := Nat.exists_eq_succ_of_ne_zero fun h0 => by
    rw [h0, countsBefore_zero W] at hall
    exact hN.ne hall
  have hlower : lower u m 0 < lower u m (k + 1) := lower_strictMono (Nat.succ_pos k)
  rw [lower_zero] at hlower
  refine ⟨k, T.cursor.le, T.highest.trans (by omega), hbefore, by omega, ?_, ?_⟩
  · exact (T.unpassed k (Nat.lt_succ_self k)).mono T.below.le hN
  · rw [hall]
    exact le_rfl

theorem Trailing.next (T : Trailing h u m ticks it n) (W : h.WellFormed) (D : h.Describes u m b)
    (ht : 1 ≤ ticks.toInt) (hN : 0 < h.totalCount.toInt) :
    ∃ it₁, percentileIterNext h it = some (true, it₁) ∧ (∃ k, FirstPast h u m it₁ k) ∧
      ((it.hasNext = true ∧ TickReport h u m ticks it it₁ ∧ ∃ k, Trailing h u m ticks it₁ k) ∨
        (it.hasNext = false ∧ LastReport h it it₁)) := by
  obtain ⟨it₁, hnext, ⟨hmore, R⟩ | ⟨hmore, L⟩⟩ := T.toPercentileAt.next W D ht
  · have hrun := hnext
    simp only [percentileIterNext, hmore, Bool.not_true, Bool.false_eq_true, if_false] at hrun
    by_cases hfirst : it.countsIndex = -1
    · have hzero : n = 0 := by
        have hidx := T.cursor.index
        rw [hfirst, show (-1 : Int32).toInt = -1 by decide] at hidx
        omega
      subst hzero
      have hempty : it.count = 0 := by
        by_contra hc
        have hcounted := T.counted hc
        rw [T.cursor.countsBefore, countsBefore_zero W] at hcounted
        exact hcounted.false
      obtain ⟨it₀, hmove, T₀⟩ := T.moved W D (T.hasNext_iff.mp hmore) fun hp => hp.1 hempty
      simp only [hfirst, hmove, if_true, Option.bind_some] at hrun
      obtain ⟨T₁, F⟩ := T₀.run W D ht hN hrun
      exact ⟨it₁, hnext, F, .inl ⟨hmore, R, T₁⟩⟩
    · simp only [hfirst, if_false, if_true, Option.bind_some] at hrun
      obtain ⟨T₁, F⟩ := T.run W D ht hN hrun
      exact ⟨it₁, hnext, F, .inl ⟨hmore, R, T₁⟩⟩
  · refine ⟨it₁, hnext, ?_, .inr ⟨hmore, L⟩⟩
    simp only [percentileIterNext, hmore, T.unseen, Bool.not_false, if_true, Bool.false_eq_true,
      if_false] at hnext
    cases hnext
    exact T.reportLast W hN hmore

end Ticks

section Ranks
variable {h : HdrHistogram} {rs : List Sample} {u m b n : ℕ} {it : HdrIter HdrIterPercentiles}

theorem FirstPast.rank (F : FirstPast h u m it n) {total : ℤ}
    (htotal : h.totalCount.toInt = total) :
    h.countsBefore n < (max 1 ⌈it.specifics.percentile * total / 100⌉₊ : ℕ) ∧
      (max 1 ⌈it.specifics.percentile * total / 100⌉₊ : ℕ) ≤ h.countsBefore (n + 1) := by
  subst htotal
  have hunpassed := F.unpassed
  rw [Unpassed] at hunpassed
  have hpast := F.past
  have hpos := F.pos
  generalize it.specifics.percentile * (h.totalCount.toInt : ℚ) = part at *
  constructor
  · rcases hunpassed with h0 | hlt
    · rw [h0]
      exact_mod_cast Nat.lt_of_lt_of_le Nat.zero_lt_one (le_max_left ..)
    · have hceil : (h.countsBefore n : ℚ) < ⌈part / 100⌉₊ :=
        lt_of_lt_of_le (by linarith) (Nat.le_ceil _)
      exact_mod_cast lt_of_lt_of_le hceil (Nat.cast_le.mpr (le_max_right ..))
  · obtain ⟨c, hc⟩ := Int.eq_ofNat_of_zero_le hpos.le
    rw [hc] at hpast hpos ⊢
    have hceil : ⌈part / 100⌉₊ ≤ c := by
      rw [Nat.ceil_le, div_le_iff₀ (by norm_num)]
      push_cast at hpast
      linarith
    exact_mod_cast max_le (by omega) hceil

end Ranks

end HdrHistogramC
