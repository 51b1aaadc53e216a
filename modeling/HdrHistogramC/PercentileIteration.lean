import HdrHistogramC.LevelIteration
import HdrHistogramC.Merging

/-!
# Percentile iteration

The percentile iterator reports a bucket once for every tick that its running percentage has
passed. The ticks are a fraction of the distance that is left to one hundred, so that they
never reach it, and pass every smaller percentage. Percentages are rational numbers here.
-/
namespace HdrHistogramC
open FixedWidth BoundedLoop LogLinear BucketLayout.Describes Enumeration

structure HdrIterPercentiles where
  seenLastValue : Bool
  ticksPerHalfDistance : Int32
  percentileToIterateTo : ℚ
  percentile : ℚ
deriving Repr, DecidableEq

/-- The distance to the next tick. -/
def percentileTick (ticksPerHalfDistance : Int32) (percentile : ℚ) : ℚ :=
  let temp := Nat.log 2 ⌊100 / (100 - percentile)⌋₊ + 1
  let halfDistance : ℤ := 2 ^ temp
  let percentileReportingTicks := ticksPerHalfDistance.toInt * halfDistance
  100 / percentileReportingTicks

def currentPercentile (h : HdrHistogram) (it : HdrIter HdrIterPercentiles) : ℚ :=
  100 * it.cumulativeCount.toInt / h.totalCount.toInt

def HdrIter.reportPercentile (h : HdrHistogram) (it : HdrIter HdrIterPercentiles) :
    HdrIter HdrIterPercentiles :=
  let percentiles := it.specifics
  { it.updateIteratedValues (h.highestEquivalentValue it.value) with
    specifics := { percentiles with
      percentile := percentiles.percentileToIterateTo
      percentileToIterateTo := percentiles.percentileToIterateTo +
        percentileTick percentiles.ticksPerHalfDistance percentiles.percentileToIterateTo } }

def HdrIter.reportLastPercentile (it : HdrIter HdrIterPercentiles) :
    HdrIter HdrIterPercentiles :=
  { it with specifics := { it.specifics with
    seenLastValue := true
    percentile := 100 } }

def percentileBody (h : HdrHistogram) (it : HdrIter HdrIterPercentiles) :
    Option (Round (HdrIter HdrIterPercentiles) (Bool × HdrIter HdrIterPercentiles)) :=
  if it.count ≠ 0 ∧ it.specifics.percentileToIterateTo ≤ currentPercentile h it then
    some (.leave (true, it.reportPercentile h))
  else
    (it.basicIterNext h).map fun r => if r.1 then .again r.2 else .leave (true, r.2)

def percentileIterNext (h : HdrHistogram) (it : HdrIter HdrIterPercentiles) :
    Option (Bool × HdrIter HdrIterPercentiles) :=
  if !it.hasNext then
    if it.specifics.seenLastValue then some (false, it)
    else some (true, it.reportLastPercentile)
  else
    (if it.countsIndex = -1 then it.basicIterNext h else some (true, it)).bind fun r =>
      if r.1 then run (percentileBody h) (h.countsLen.toInt.toNat + 2) r.2
      else some (false, r.2)

instance : HdrIterKind HdrIterPercentiles := ⟨percentileIterNext⟩

def hdrIterPercentileInit (h : HdrHistogram) (ticksPerHalfDistance : Int32) :
    HdrIter HdrIterPercentiles :=
  HdrIter.hdrIterInit h
    { seenLastValue := false
      ticksPerHalfDistance := ticksPerHalfDistance
      percentileToIterateTo := 0
      percentile := 0 }

section Ticks
variable {ticks : Int32} {p : ℚ}

/-- The half distance is the power of two next above the inverse of the distance. -/
theorem two_pow_log_floor {x : ℚ} (hx : 1 ≤ x) :
    x < 2 ^ (Nat.log 2 ⌊x⌋₊ + 1) ∧ 2 ^ (Nat.log 2 ⌊x⌋₊ + 1) ≤ 2 * x := by
  have hfloor : ⌊x⌋₊ ≠ 0 := (Nat.floor_pos.mpr hx).ne'
  have hlt := Nat.lt_pow_succ_log_self (show 1 < 2 by omega) ⌊x⌋₊
  have hle := Nat.pow_log_le_self 2 hfloor
  constructor
  · calc x < ⌊x⌋₊ + 1 := Nat.lt_floor_add_one x
      _ ≤ 2 ^ (Nat.log 2 ⌊x⌋₊ + 1) := by exact_mod_cast hlt
  · calc (2 : ℚ) ^ (Nat.log 2 ⌊x⌋₊ + 1) = 2 * 2 ^ Nat.log 2 ⌊x⌋₊ := by ring
      _ ≤ 2 * ⌊x⌋₊ := by gcongr; exact_mod_cast hle
      _ ≤ 2 * x := by gcongr; exact Nat.floor_le (by linarith)

/-- A tick is less than the distance to one hundred, and at least a fixed part of it. -/
theorem percentileTick_bounds (ht : 1 ≤ ticks.toInt) (h₀ : 0 ≤ p) (hp : p < 100) :
    0 < percentileTick ticks p ∧ p + percentileTick ticks p < 100 ∧
      100 - p ≤ 2 * ticks.toInt * percentileTick ticks p := by
  have hdist : 0 < 100 - p := by linarith
  have hx : 1 ≤ 100 / (100 - p) := by
    rw [le_div_iff₀ hdist]
    linarith
  obtain ⟨hlt, hle⟩ := two_pow_log_floor hx
  have hticks : (1 : ℚ) ≤ ticks.toInt := by exact_mod_cast ht
  rw [percentileTick]
  push_cast
  generalize (2 : ℚ) ^ (Nat.log 2 ⌊100 / (100 - p)⌋₊ + 1) = half at hlt hle
  have hhalf : 0 < half := by linarith
  have hprod : 0 < ticks.toInt * half := by positivity
  rw [div_lt_iff₀ hdist] at hlt
  have hle' : half * (100 - p) ≤ 2 * 100 := by
    rw [← mul_div_assoc, le_div_iff₀ hdist] at hle
    exact hle
  refine ⟨by positivity, ?_, ?_⟩
  · have hsmall : 100 / (ticks.toInt * half) < 100 - p := by
      rw [div_lt_iff₀ hprod]
      nlinarith
    linarith
  · rw [← mul_div_assoc, le_div_iff₀ hprod]
    nlinarith

end Ticks

section Call
variable {h : HdrHistogram} {u m b n n₁ : ℕ} {ticks : Int32}
  {it it₁ it₂ : HdrIter HdrIterPercentiles}

/-- The iterator before its last report, with the first `n` entries consumed. -/
structure PercentileAt (h : HdrHistogram) (u m : ℕ) (ticks : Int32)
    (it : HdrIter HdrIterPercentiles) (n : ℕ) : Prop where
  cursor : At h it n
  highest : it.highestEquivalentValue.toInt = max 0 (lower u m n - 1)
  ticks : it.specifics.ticksPerHalfDistance = ticks
  unseen : it.specifics.seenLastValue = false
  nonneg : 0 ≤ it.specifics.percentileToIterateTo
  below : it.specifics.percentileToIterateTo < 100

/-- What never decreases from one state to a later one. -/
structure Grows (it it₁ : HdrIter HdrIterPercentiles) : Prop where
  cumulative : it.cumulativeCount ≤ it₁.cumulativeCount
  highest : it.highestEquivalentValue ≤ it₁.highestEquivalentValue

theorem Grows.refl (it : HdrIter HdrIterPercentiles) : Grows it it :=
  ⟨Int64.le_refl _, Int64.le_refl _⟩

theorem Grows.trans (G : Grows it it₁) (G' : Grows it₁ it₂) : Grows it it₂ :=
  ⟨Int64.le_trans G.cumulative G'.cumulative, Int64.le_trans G.highest G'.highest⟩

theorem percentileAt_init (W : h.WellFormed) (u m : ℕ) (ticks : Int32) :
    PercentileAt h u m ticks (hdrIterPercentileInit h ticks) 0 where
  cursor := at_init W _
  highest := by
    rw [lower_zero]
    rfl
  ticks := rfl
  unseen := rfl
  nonneg := le_rfl
  below := by norm_num [hdrIterPercentileInit, HdrIter.hdrIterInit]

theorem PercentileAt.hasNext_iff (P : PercentileAt h u m ticks it n) :
    it.hasNext = true ↔ it.cumulativeCount.toInt < h.totalCount.toInt := by
  rw [HdrIter.hasNext, decide_eq_true_iff, Int64.lt_iff_toInt_lt, P.cursor.total]

theorem PercentileAt.moved (P : PercentileAt h u m ticks it n) (W : h.WellFormed)
    (D : h.Describes u m b) (hlt : it.cumulativeCount.toInt < h.totalCount.toInt) :
    ∃ it₁, it.basicIterNext h = some (true, it₁) ∧ PercentileAt h u m ticks it₁ (n + 1) ∧
      Grows it it₁ ∧ it₁.specifics = it.specifics ∧ n < h.counts.length ∧
      (it₁.cumulativeCount.toInt = h.totalCount.toInt → it₁.count ≠ 0) := by
  have hcum := P.cursor.cumulative
  rcases basicIterNext_cases W P.cursor with ⟨hz, -⟩ | ⟨hn, it₁, hnext, M, A⟩
  · omega
  have hlen := counts_length_nat D
  have hvalue := D.hdrValueAtIndex_toInt (ofNat_index W.accepted hn.le) (by omega)
  have hhighest : it₁.highestEquivalentValue.toInt = lower u m (n + 1) - 1 := by
    rw [M.highest, M.value, D.highestEquivalentValue_toInt (by omega), hvalue, Int.toNat_natCast,
      index_lower, lower_succ]
    push_cast
    rfl
  have hmono : lower u m n ≤ lower u m (n + 1) := lower_strictMono.monotone (Nat.le_succ n)
  have hpos : lower u m 0 < lower u m (n + 1) := lower_strictMono (Nat.succ_pos n)
  rw [lower_zero] at hpos
  have hcum₁ := A.cumulative
  have hrest : h.restCounts (n + 1) ≤ h.restCounts n := restCounts_anti W (Nat.le_succ n)
  unfold HdrHistogram.restCounts at hrest
  have hgrow : it.cumulativeCount.toInt ≤ it₁.cumulativeCount.toInt := by omega
  refine ⟨it₁, hnext, ⟨A, by omega, by rw [M.specifics, P.ticks], by rw [M.specifics, P.unseen],
    by rw [M.specifics]; exact P.nonneg, by rw [M.specifics]; exact P.below⟩, ⟨?_, ?_⟩,
    M.specifics, hn, fun hlast hzero => ?_⟩
  · rw [Int64.le_iff_toInt_le]
    exact hgrow
  · have hbefore := P.highest
    rw [Int64.le_iff_toInt_le]
    omega
  · rw [M.cumulative, hzero, Int64.add_zero] at hlast
    omega

/-- What the loop searches for: an entry whose percentage has passed the tick. -/
structure PassesTick (h : HdrHistogram) (u m : ℕ) (ticks : Int32)
    (it it₁ : HdrIter HdrIterPercentiles) : Prop where
  exists_at : ∃ n, PercentileAt h u m ticks it₁ n
  grows : Grows it it₁
  specifics : it₁.specifics = it.specifics
  passes : it.specifics.percentileToIterateTo ≤ currentPercentile h it₁

/-- The loop finds such an entry, since the last one passes every tick. -/
theorem PercentileAt.run (W : h.WellFormed) (D : h.Describes u m b)
    (P : PercentileAt h u m ticks it n) (htotal : 0 < h.totalCount.toInt)
    (hlast : it.cumulativeCount.toInt = h.totalCount.toInt → it.count ≠ 0) :
    ∃ it₁, PassesTick h u m ticks it it₁ ∧
      BoundedLoop.run (percentileBody h) (h.countsLen.toInt.toNat + 2) it =
        some (true, it₁.reportPercentile h) := by
  let I : HdrIter HdrIterPercentiles → Prop := fun it₁ =>
    (∃ n, PercentileAt h u m ticks it₁ n) ∧ Grows it it₁ ∧ it₁.specifics = it.specifics ∧
      (it₁.cumulativeCount.toInt = h.totalCount.toInt → it₁.count ≠ 0)
  let Q : Bool × HdrIter HdrIterPercentiles → Prop := fun r =>
    ∃ it₁, PassesTick h u m ticks it it₁ ∧ r = (true, it₁.reportPercentile h)
  let μ : HdrIter HdrIterPercentiles → ℕ := fun it₁ =>
    (h.counts.length - 1 - it₁.countsIndex.toInt).toNat
  have step : ∀ s, I s → ∃ r, percentileBody h s = some r ∧
      r.Holds (fun s₁ => I s₁ ∧ μ s₁ < μ s) Q := by
    rintro s ⟨⟨k, P⟩, G, hspec, hnonzero⟩
    by_cases hpass : s.count ≠ 0 ∧ s.specifics.percentileToIterateTo ≤ currentPercentile h s
    · refine ⟨.leave (true, s.reportPercentile h), ?_, s, ⟨⟨k, P⟩, G, hspec, ?_⟩, rfl⟩
      · rw [percentileBody, if_pos hpass]
      · rw [← hspec]
        exact hpass.2
    · have hcum := P.cursor.cumulative
      have hrest : 0 ≤ h.restCounts k := restCounts_nonneg W k
      unfold HdrHistogram.restCounts at hrest
      have hlt : s.cumulativeCount.toInt < h.totalCount.toInt := by
        by_contra hge
        have heq : s.cumulativeCount.toInt = h.totalCount.toInt := by omega
        have hq : (h.totalCount.toInt : ℚ) ≠ 0 := by exact_mod_cast htotal.ne'
        refine hpass ⟨hnonzero heq, ?_⟩
        rw [currentPercentile, heq, mul_div_assoc, div_self hq, mul_one]
        exact P.below.le
      obtain ⟨s₁, hnext, P₁, G₁, hspec₁, hk, hnonzero₁⟩ := P.moved W D hlt
      refine ⟨.again s₁, ?_, ⟨⟨k + 1, P₁⟩, G.trans G₁, hspec₁.trans hspec, hnonzero₁⟩, ?_⟩
      · rw [percentileBody, if_neg hpass, hnext]
        rfl
      · have hidx := P.cursor.index
        have hidx₁ := P₁.cursor.index
        change (_ : ℤ).toNat < (_ : ℤ).toNat
        omega
  have hidx := P.cursor.index
  have hlen := h.counts_length
  obtain ⟨r, hrun, it₁, T, rfl⟩ := run_of_variant μ step (h.countsLen.toInt.toNat + 2) it
    ⟨⟨n, P⟩, .refl it, rfl, hlast⟩ (show (_ : ℤ).toNat < _ by omega)
  exact ⟨it₁, T, hrun⟩

/-- A report below one hundred: the tick that it passed, and the next one. -/
structure TickReport (h : HdrHistogram) (u m : ℕ) (ticks : Int32)
    (it it₁ : HdrIter HdrIterPercentiles) : Prop where
  exists_at : ∃ n, PercentileAt h u m ticks it₁ n
  grows : Grows it it₁
  percentile : it₁.specifics.percentile = it.specifics.percentileToIterateTo
  next : it₁.specifics.percentileToIterateTo = it.specifics.percentileToIterateTo +
    percentileTick ticks it.specifics.percentileToIterateTo
  passes : it.specifics.percentileToIterateTo ≤ currentPercentile h it₁

theorem PercentileAt.report (ht : 1 ≤ ticks.toInt) (P : PercentileAt h u m ticks it n)
    (T : PassesTick h u m ticks it it₁) :
    TickReport h u m ticks it (it₁.reportPercentile h) := by
  obtain ⟨⟨k, P₁⟩, G, hspec, hpass⟩ := T
  obtain ⟨hpos, hbelow, -⟩ := percentileTick_bounds ht P.nonneg P.below
  have hnext : (it₁.reportPercentile h).specifics.percentileToIterateTo =
      it.specifics.percentileToIterateTo +
        percentileTick ticks it.specifics.percentileToIterateTo := by
    rw [← P.ticks, ← hspec]
    rfl
  have hnonneg := P.nonneg
  exact ⟨⟨k, ⟨P₁.cursor.index, P₁.cursor.le, P₁.cursor.total, P₁.cursor.cumulative⟩, P₁.highest,
      P₁.ticks, P₁.unseen, by rw [hnext]; linarith, by rw [hnext]; exact hbelow⟩,
    ⟨G.cumulative, G.highest⟩, congrArg HdrIterPercentiles.percentileToIterateTo hspec, hnext,
    hpass⟩

/-- The last report, which is made when every count has been passed. -/
structure LastReport (h : HdrHistogram) (it it₁ : HdrIter HdrIterPercentiles) : Prop where
  grows : Grows it it₁
  percentile : it₁.specifics.percentile = 100
  cumulative : it₁.cumulativeCount = h.totalCount
  stops : percentileIterNext h it₁ = some (false, it₁)
  seen : it₁.specifics.seenLastValue = true

theorem PercentileAt.next (P : PercentileAt h u m ticks it n) (W : h.WellFormed)
    (D : h.Describes u m b) (ht : 1 ≤ ticks.toInt) :
    ∃ it₁, percentileIterNext h it = some (true, it₁) ∧
      ((it.hasNext = true ∧ TickReport h u m ticks it it₁) ∨
        (it.hasNext = false ∧ LastReport h it it₁)) := by
  have hcum := P.cursor.cumulative
  have hrest : 0 ≤ h.restCounts n := restCounts_nonneg W n
  have hlow : 0 ≤ h.totalCount.toInt - h.restCounts n := by
    have := restCounts_anti W (Nat.zero_le n)
    rw [restCounts_zero W] at this
    omega
  unfold HdrHistogram.restCounts at hrest hlow
  cases hnext : it.hasNext with
  | false =>
      have hlast : it.cumulativeCount = h.totalCount := by
        rw [← Int64.toInt_inj]
        have := mt P.hasNext_iff.mpr (by rw [hnext]; exact Bool.false_ne_true)
        omega
      have hstill : it.reportLastPercentile.hasNext = false := hnext
      refine ⟨it.reportLastPercentile, ?_, .inr ⟨rfl, ⟨Int64.le_refl _, Int64.le_refl _⟩, rfl,
        hlast, ?_, rfl⟩⟩
      · simp only [percentileIterNext, hnext, P.unseen, Bool.not_false, if_true,
          Bool.false_eq_true, if_false]
      · simp only [percentileIterNext, hstill, Bool.not_false, if_true]
        rfl
  | true =>
      have hlt := P.hasNext_iff.mp hnext
      have htotal : 0 < h.totalCount.toInt := by omega
      by_cases hfirst : it.countsIndex = -1
      · obtain ⟨it₀, hmove, P₀, G₀, hspec, -, hnonzero⟩ := P.moved W D hlt
        obtain ⟨it₁, T, hrun⟩ := P₀.run W D htotal hnonzero
        refine ⟨_, ?_, .inl ⟨rfl, P.report ht ⟨T.exists_at, G₀.trans T.grows,
          T.specifics.trans hspec, by rw [← hspec]; exact T.passes⟩⟩⟩
        simp only [percentileIterNext, hnext, hfirst, hmove, hrun, Bool.not_true,
          Bool.false_eq_true, if_false, if_true, Option.bind_some]
      · obtain ⟨it₁, T, hrun⟩ := P.run W D htotal (fun heq => by omega)
        refine ⟨_, ?_, .inl ⟨rfl, P.report ht T⟩⟩
        simp only [percentileIterNext, hnext, hfirst, hrun, Bool.not_true, Bool.false_eq_true,
          if_false, if_true, Option.bind_some]

end Call

section Run
variable {h : HdrHistogram} {u m b n : ℕ} {ticks : Int32} {it it₁ : HdrIter HdrIterPercentiles}
  {its : List (HdrIter HdrIterPercentiles)}

/-- The order of two reports. -/
structure Advances (it it₁ : HdrIter HdrIterPercentiles) : Prop where
  percentile : it.specifics.percentile < it₁.specifics.percentile
  cumulative : it.cumulativeCount ≤ it₁.cumulativeCount
  highest : it.highestEquivalentValue ≤ it₁.highestEquivalentValue

/-- The reports of an iteration. -/
structure PercentileReports (h : HdrHistogram) (its : List (HdrIter HdrIterPercentiles)) : Prop
    where
  advances : its.Pairwise Advances
  passed : ∀ it ∈ its.dropLast,
    it.specifics.percentile < 100 ∧ it.specifics.percentile ≤ currentPercentile h it
  last : ∃ it, its.getLast? = some it ∧ it.specifics.percentile = 100 ∧
    it.cumulativeCount = h.totalCount

/-- How many ticks fit between the running percentage and the last one at which a count is left,
were they all as short as the shortest. -/
def ticksLeft (h : HdrHistogram) (ticks : Int32) (it : HdrIter HdrIterPercentiles) : ℕ :=
  ⌊(100 - it.specifics.percentileToIterateTo) * (2 * ticks.toInt * h.totalCount.toInt) / 100⌋₊

theorem TickReport.ticksLeft_lt (T : TickReport h u m ticks it it₁) (ht : 1 ≤ ticks.toInt)
    (P : PercentileAt h u m ticks it n) (h₀ : 0 ≤ it₁.cumulativeCount.toInt)
    (hlt : it₁.cumulativeCount.toInt < h.totalCount.toInt) :
    ticksLeft h ticks it₁ < ticksLeft h ticks it := by
  obtain ⟨-, hbelow, hpart⟩ := percentileTick_bounds ht P.nonneg P.below
  have hpass := T.passes
  rw [ticksLeft, ticksLeft, T.next, ← Nat.add_one_le_iff]
  have htotal : (0 : ℚ) < h.totalCount.toInt := by
    exact_mod_cast (show 0 < h.totalCount.toInt by omega)
  have hticks : (1 : ℚ) ≤ ticks.toInt := by exact_mod_cast ht
  have hcount : (it₁.cumulativeCount.toInt : ℚ) + 1 ≤ h.totalCount.toInt := by
    exact_mod_cast (show it₁.cumulativeCount.toInt + 1 ≤ h.totalCount.toInt by omega)
  rw [currentPercentile, le_div_iff₀ htotal] at hpass
  generalize it.specifics.percentileToIterateTo = p at *
  generalize percentileTick ticks p = tick at *
  -- a count is left, so that the distance to one hundred is a hundredth of the total at least
  have hdist : 100 ≤ (100 - p) * h.totalCount.toInt := by linarith
  have hshort : 100 ≤ tick * (2 * ticks.toInt * h.totalCount.toInt) := by nlinarith
  have hafter : 0 ≤ (100 - (p + tick)) * (2 * ticks.toInt * h.totalCount.toInt) / 100 := by
    have : 0 ≤ 100 - (p + tick) := by linarith
    positivity
  apply Nat.le_floor
  push_cast
  have hfloor := Nat.floor_le hafter
  have hsplit : (100 - p) * (2 * ticks.toInt * h.totalCount.toInt) / 100 =
      (100 - (p + tick)) * (2 * ticks.toInt * h.totalCount.toInt) / 100 +
        tick * (2 * ticks.toInt * h.totalCount.toInt) / 100 := by ring
  linarith

theorem PercentileReports.cons (R : PercentileReports h its)
    (hfirst : it.specifics.percentile < 100 ∧ it.specifics.percentile ≤ currentPercentile h it)
    (hall : ∀ r ∈ its, Advances it r) : PercentileReports h (it :: its) := by
  obtain ⟨last, hlast, hend⟩ := R.last
  have hne : its ≠ [] := by
    rintro rfl
    cases hlast
  refine ⟨List.pairwise_cons.mpr ⟨hall, R.advances⟩, ?_, last, ?_, hend⟩
  · rw [List.dropLast_cons_of_ne_nil hne]
    exact List.forall_mem_cons.mpr ⟨hfirst, R.passed⟩
  · rwa [List.getLast?_cons_of_ne_nil hne]

theorem LastReport.reports (L : LastReport h it it₁) : PercentileReports h [it₁] where
  advances := List.pairwise_singleton _ _
  passed := by simp
  last := ⟨it₁, rfl, L.percentile, L.cumulative⟩

/-- The iteration ends, and its reports climb to one hundred. -/
theorem percentileIteration_ends {h : HdrHistogram} (W : h.WellFormed) {ticks : Int32}
    (ht : 1 ≤ ticks.toInt) : ∃ its,
      Yields (hdrIterNext h) (hdrIterPercentileInit h ticks) its ∧ PercentileReports h its := by
  obtain ⟨u, m, b, D⟩ := W.accepted.describes
  let J : HdrIter HdrIterPercentiles → Prop := fun it =>
    (∃ n, PercentileAt h u m ticks it n) ∨ ∃ it₀, LastReport h it₀ it
  let μ : HdrIter HdrIterPercentiles → ℕ := fun it =>
    if it.specifics.seenLastValue then 0
    else if it.hasNext then ticksLeft h ticks it + 2 else 1
  let P : HdrIter HdrIterPercentiles → List (HdrIter HdrIterPercentiles) → Prop := fun it its =>
    if it.specifics.seenLastValue then its = []
    else PercentileReports h its ∧ ∀ r ∈ its,
      it.specifics.percentileToIterateTo ≤ r.specifics.percentile ∧ Grows it r
  have step : ∀ it, J it → (∃ it₁, hdrIterNext h it = some (false, it₁) ∧ P it []) ∨
      ∃ it₁, hdrIterNext h it = some (true, it₁) ∧ J it₁ ∧ μ it₁ < μ it ∧
        ∀ its, P it₁ its → P it (it₁ :: its) := by
    rintro it (⟨n, A⟩ | ⟨it₀, L⟩)
    · obtain ⟨it₁, hnext, ⟨hmore, T⟩ | ⟨hmore, L⟩⟩ := A.next W D ht
      · obtain ⟨n₁, A₁⟩ := T.exists_at
        refine .inr ⟨it₁, hnext, .inl ⟨n₁, A₁⟩, ?_, fun its hP => ?_⟩
        · simp only [μ, A.unseen, A₁.unseen, hmore, Bool.false_eq_true, if_false, if_true]
          split_ifs with hmore₁
          · have hcum := A₁.cursor.cumulative
            have hle : h.restCounts n₁ ≤ h.restCounts 0 := restCounts_anti W (Nat.zero_le n₁)
            rw [restCounts_zero W] at hle
            unfold HdrHistogram.restCounts at hle
            have := T.ticksLeft_lt ht A (by omega) (A₁.hasNext_iff.mp hmore₁)
            omega
          · omega
        · simp only [P, A.unseen, A₁.unseen, Bool.false_eq_true, if_false] at hP ⊢
          obtain ⟨R, hall⟩ := hP
          obtain ⟨hpos, -, -⟩ := percentileTick_bounds ht A.nonneg A.below
          have hnext := T.next
          refine ⟨R.cons ⟨by rw [T.percentile]; exact A.below, by
            rw [T.percentile]; exact T.passes⟩ fun r hr => ?_, ?_⟩
          · obtain ⟨hle, G⟩ := hall r hr
            exact ⟨by rw [T.percentile]; linarith, G.cumulative, G.highest⟩
          · rintro r (_ | ⟨_, hr⟩)
            · exact ⟨T.percentile.ge, T.grows⟩
            · obtain ⟨hle, G⟩ := hall r hr
              exact ⟨by linarith, T.grows.trans G⟩
      · refine .inr ⟨it₁, hnext, .inr ⟨it, L⟩, ?_, fun its hP => ?_⟩
        · simp only [μ, A.unseen, L.seen, hmore, Bool.false_eq_true, if_false, if_true]
          omega
        · simp only [P, A.unseen, L.seen, Bool.false_eq_true, if_false, if_true] at hP ⊢
          subst hP
          refine ⟨L.reports, ?_⟩
          rintro r (_ | ⟨_, hr⟩)
          · exact ⟨by rw [L.percentile]; exact A.below.le, L.grows⟩
          · cases hr
    · exact .inl ⟨it, L.stops, by simp only [P, L.seen, if_true]⟩
  have A := percentileAt_init W u m ticks
  obtain ⟨its, Y, hP⟩ := yields_of_variant μ step (.inl ⟨0, A⟩)
  simp only [P, A.unseen, Bool.false_eq_true, if_false] at hP
  exact ⟨its, Y, hP.1⟩

theorem percentileIteration_ends_sample : ∃ its,
    Yields (hdrIterNext wideSource) (hdrIterPercentileInit wideSource 5) its ∧
      PercentileReports wideSource its :=
  percentileIteration_ends wideSource_wellFormed (by decide)

end Run

end HdrHistogramC
