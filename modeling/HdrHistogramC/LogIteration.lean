import HdrHistogramC.LevelIteration
import HdrHistogramC.Merging

/-!
# Logarithmic iteration

The logarithmic iterator multiplies its level by the integer part of `log_base`. A base below
two does not raise the level, and a level can overflow before the values lie behind it; the
iteration ends exactly when neither happens.
-/
namespace HdrHistogramC
open FixedWidth LogLinear BucketLayout.Describes Enumeration

/-- What `struct hdr_iter_log` holds besides the levels. -/
structure LogStep where
  logBase : ℚ
deriving Repr, DecidableEq

abbrev HdrIterLog := HdrIterLevels LogStep

/-- The conversion of a `double` to `int64_t` truncates. -/
def truncateToInt64 (q : ℚ) : Option Int64 := Checked.int64 (if 0 ≤ q then ⌊q⌋ else ⌈q⌉)

def LogStep.raise (step : LogStep) (level : Int64) : Option Int64 :=
  (truncateToInt64 step.logBase).bind (Checked.mul64 level)

def logIterNext (h : HdrHistogram) (it : HdrIter HdrIterLog) :
    Option (Bool × HdrIter HdrIterLog) := levelIterNext LogStep.raise h it

instance : HdrIterKind HdrIterLog := ⟨logIterNext⟩

def hdrIterLogInit (h : HdrHistogram) (valueUnitsFirstBucket : Int64) (logBase : ℚ) :
    HdrIter HdrIterLog :=
  levelIterInit h ⟨logBase⟩ valueUnitsFirstBucket

section Levels
variable {h : HdrHistogram} {u m b k n l f : ℕ} {base : ℚ} {it it₁ : HdrIter HdrIterLog}

theorem LogStep.raise_eq_some (hbase : 1 < base) (hf : ⌊base⌋ = f) {level level₁ : Int64} :
    LogStep.raise ⟨base⟩ level = some level₁ ↔ f < 2 ^ 63 ∧ level₁.toInt = level.toInt * f := by
  have hpos : 0 ≤ base := by linarith
  rw [LogStep.raise, truncateToInt64, if_pos hpos, hf, Option.bind_eq_some_iff]
  constructor
  · rintro ⟨factor, hfactor, hmul⟩
    have hfac := Checked.int64_eq_some.mp hfactor
    have hlt := factor.toInt_lt
    refine ⟨by exact_mod_cast hfac ▸ hlt, ?_⟩
    rw [← hfac]
    exact Checked.int64_eq_some.mp hmul
  · rintro ⟨hlt, hmul⟩
    have hfac : (Int64.ofInt f).toInt = f :=
      Int64.toInt_ofInt_of_le (by omega) (by exact_mod_cast hlt)
    exact ⟨Int64.ofInt f, Checked.int64_eq_some.mpr hfac,
      Checked.int64_eq_some.mpr (by rw [hfac, hmul])⟩

theorem index_lt_of_two_mul_le {v v₁ : ℕ} (hv : 2 ^ u ≤ v) (hv₁ : 2 * v ≤ v₁) :
    index u m v < index u m v₁ := by
  have hwidth := width_bound (u := u) (m := m) (index u m v)
  have hlow := lower_index_le (u := u) (m := m) v
  have hpow : 1 ≤ 2 ^ m := Nat.one_le_two_pow
  rw [← Nat.succ_le_iff, ← galoisConnection, Nat.succ_eq_add_one, lower_succ]
  rcases hwidth with hw | hw
  · omega
  · have hle : width u m (index u m v) ≤ 2 ^ m * width u m (index u m v) :=
      Nat.le_mul_of_pos_left _ hpow
    omega

/-- The entries that `k` reports consume when the first level is `l`. -/
def logConsumed (u m l f : ℕ) : ℕ → ℕ
  | 0 => 0
  | k + 1 => consumedUpTo u m (l * f ^ k)

theorem logConsumed_succ (hf : 1 ≤ f) (k : ℕ) :
    levelCursor (logConsumed u m l f k) (index u m (l * f ^ k)) = logConsumed u m l f (k + 1) := by
  cases k with
  | zero =>
      have h := levelCursor_consumedUpTo u m (Nat.zero_le (l * f ^ 0))
      rwa [consumedUpTo_zero] at h
  | succ k =>
      exact levelCursor_consumedUpTo u m
        (Nat.mul_le_mul_left l (Nat.pow_le_pow_right hf (Nat.le_succ k)))

/-- The iterator after `k` reports. -/
structure LogAt (h : HdrHistogram) (u m : ℕ) (base : ℚ) (l f k : ℕ) (it : HdrIter HdrIterLog) :
    Prop where
  levels : LevelAt h u m it (logConsumed u m l f k) (l * f ^ k)
  step : it.specifics.parameter = ⟨base⟩

theorem logAt_init (W : h.WellFormed) (D : h.Describes u m b) {level : Int64}
    (hl : level.toInt = l) (base : ℚ) (f : ℕ) :
    LogAt h u m base l f 0 (hdrIterLogInit h level base) where
  levels := by
    rw [pow_zero, mul_one]
    exact levelAt_init W D _ hl
  step := rfl

/-- What call `k + 1` does: it stops, raises the level within the words, or leaves the array. -/
theorem LogAt.next (A : LogAt h u m base l f k it) (W : h.WellFormed) (D : h.Describes u m b)
    (hbase : 1 < base) (hf : ⌊base⌋ = f) (hf₁ : 1 ≤ f) :
    (h.restCounts (logConsumed u m l f k) = 0 ∧
      ¬ Overtaken h (logConsumed u m l f k) (index u m (l * f ^ k)) ∧
      ∃ it₁, hdrIterNext h it = some (false, it₁)) ∨
    (index u m (l * f ^ k) < h.counts.length ∧ (hdrIterNext h it = none ∨
      ∃ it₁, hdrIterNext h it = some (true, it₁) ∧ l * f ^ (k + 1) < 2 ^ 63 ∧
        LogAt h u m base l f (k + 1) it₁)) ∨
    h.counts.length ≤ index u m (l * f ^ k) := by
  rcases A.levels.next LogStep.raise W D with hstop |
      ⟨-, hlt, ⟨-, hnext⟩ | ⟨level, it₁, hraise, hnext, R, hA₁⟩⟩ | ⟨-, hge, -⟩
  · exact .inl hstop
  · exact .inr (.inl ⟨hlt, .inl hnext⟩)
  · rw [logConsumed_succ hf₁] at R hA₁
    rw [A.step, LogStep.raise_eq_some hbase hf, A.levels.level] at hraise
    have hlevel : level.toInt = (l * f ^ (k + 1) : ℕ) := by
      rw [hraise.2]
      push_cast
      ring
    have hword := level.toInt_lt
    refine .inr (.inl ⟨hlt, .inr ⟨it₁, hnext, ?_, hA₁ _ hlevel, R.parameter.trans A.step⟩⟩)
    rw [hlevel] at hword
    exact_mod_cast hword
  · exact .inr (.inr hge)

/-- A level after which the iterator stops: it lies beyond the range, or behind every recorded
value when the next level lies in a later bucket or no bucket is left. -/
def EndsAtCell (h : HdrHistogram) (u m f v : ℕ) : Prop :=
  (h.counts.length ≤ index u m v ∧ v < 2 ^ 63) ∨
    (index u m v ≠ 0 ∧ h.restCounts (index u m v + 1) = 0 ∧ v * f < 2 ^ 63 ∧
      (2 ≤ f ∨ (h.coveredEnd = 2 ^ 63 ∧ index u m v + 1 = h.counts.length)))

/-- An iteration that ends has reached a level that ends it. -/
theorem LogAt.exists_endsAtCell (W : h.WellFormed) (D : h.Describes u m b) (hbase : 1 < base)
    (hf : ⌊base⌋ = f) (hf₁ : 1 ≤ f) (htotal : h.restCounts 0 ≠ 0)
    (its : List (HdrIter HdrIterLog)) :
    ∀ (k : ℕ) (it : HdrIter HdrIterLog), LogAt h u m base l f k it →
      Yields (hdrIterNext h) it its →
      (h.restCounts (logConsumed u m l f k) = 0 ∧
        ¬ Overtaken h (logConsumed u m l f k) (index u m (l * f ^ k))) ∨
      ∃ j, EndsAtCell h u m f (l * f ^ j) := by
  induction its with
  | nil =>
      intro k it A Y
      have hword := it.specifics.nextValueReportingLevel.toInt_lt
      rw [A.levels.level] at hword
      rcases A.next W D hbase hf hf₁ with ⟨hz, hover, -⟩ | ⟨-, hnone | ⟨it₁, hmore, -⟩⟩ | hge
      · exact .inl ⟨hz, hover⟩
      · exact absurd hnone Y.ne_none
      · obtain ⟨_, hcons, -⟩ := Y.eq_cons hmore
        cases hcons
      · exact .inr ⟨k, .inl ⟨hge, by exact_mod_cast hword⟩⟩
  | cons it₀ its ih =>
      intro k it A Y
      have hword := it.specifics.nextValueReportingLevel.toInt_lt
      rw [A.levels.level] at hword
      rcases A.next W D hbase hf hf₁ with ⟨-, -, it₁, hstop⟩ |
          ⟨hlt, hnone | ⟨it₁, hmore, hnext, A₁⟩⟩ | hge
      · cases Y.eq_nil hstop
      · exact absurd hnone Y.ne_none
      · obtain ⟨its', hcons, Y'⟩ := Y.eq_cons hmore
        cases hcons
        rcases ih (k + 1) it₀ A₁ Y' with ⟨hz, hover⟩ | hends
        · -- the iteration stops after this report
          rw [logConsumed, consumedUpTo] at hz hover
          split_ifs at hz hover with hfirst
          · exact absurd hz htotal
          rw [pow_succ, ← mul_assoc] at hnext hover
          refine .inr ⟨k, .inr ⟨hfirst, hz, hnext, ?_⟩⟩
          by_contra hcon
          obtain rfl : f = 1 := by omega
          refine hover ⟨by rw [mul_one]; omega, by rwa [mul_one], by omega, fun hlast => ?_⟩
          have htop := D.coveredEnd_le
          omega
        · exact .inr hends
      · exact .inr ⟨k, .inl ⟨hge, by exact_mod_cast hword⟩⟩

theorem EndsAtCell.raised {j : ℕ} (W : h.WellFormed) (hl : 1 ≤ l) (hf₁ : 1 ≤ f)
    (E : EndsAtCell h u m f (l * f ^ j)) (hf₂ : 2 ≤ f ∨ h.counts.length ≤ index u m l)
    (hgo : 0 < h.restCounts (logConsumed u m l f k) ∨
      Overtaken h (logConsumed u m l f k) (index u m (l * f ^ k)))
    (hlt : index u m (l * f ^ k) < h.counts.length) :
    l * f ^ k < l * f ^ (k + 1) ∧ l * f ^ (k + 1) < 2 ^ 63 := by
  have hmono : ∀ i i' : ℕ, i ≤ i' → l * f ^ i ≤ l * f ^ i' := fun i i' hi =>
    Nat.mul_le_mul_left l (Nat.pow_le_pow_right hf₁ hi)
  have htwo : 2 ≤ f := by
    refine hf₂.resolve_right fun hge => ?_
    have hle : index u m l ≤ index u m (l * f ^ k) :=
      index_mono (Nat.le_mul_of_pos_right l (Nat.pow_pos hf₁))
    omega
  have hdouble : ∀ i : ℕ, 2 * (l * f ^ i) ≤ l * f ^ (i + 1) := by
    intro i
    calc 2 * (l * f ^ i) = l * f ^ i * 2 := by ring
      _ ≤ l * f ^ i * f := Nat.mul_le_mul_left _ htwo
      _ = l * f ^ (i + 1) := by ring
  have hpos : 0 < l * f ^ k := Nat.mul_pos hl (Nat.pow_pos hf₁)
  have hstep := hdouble k
  refine ⟨by omega, ?_⟩
  rcases E with ⟨hge, hword⟩ | ⟨hfirst, hz, hword, -⟩
  · have hkj : k < j := by
      by_contra hjk
      have hle : index u m (l * f ^ j) ≤ index u m (l * f ^ k) := index_mono (hmono j k (by omega))
      omega
    exact lt_of_le_of_lt (hmono (k + 1) j hkj) hword
  · rw [mul_assoc, ← pow_succ] at hword
    rcases Nat.lt_or_ge j k with hjk | hkj
    · -- the values lie behind the level already, and so does its bucket
      obtain ⟨i, rfl⟩ : ∃ i, k = i + 1 := ⟨k - 1, by omega⟩
      have hle : index u m (l * f ^ j) ≤ index u m (l * f ^ i) := index_mono (hmono j i (by omega))
      have hlater : index u m (l * f ^ i) < index u m (l * f ^ (i + 1)) := by
        refine index_lt_of_two_mul_le ?_ (hdouble i)
        by_contra hlow
        have := (index_eq_zero_iff (u := u) (m := m) _).mpr (not_le.mp hlow)
        omega
      rw [logConsumed, consumedUpTo, if_neg (by omega)] at hgo
      rcases hgo with hrest | hover
      · have hanti := restCounts_anti W (show index u m (l * f ^ j) + 1 ≤
          index u m (l * f ^ i) + 1 by omega)
        omega
      · have hbehind := hover.1
        omega
    · exact lt_of_le_of_lt (hmono (k + 1) (j + 1) (by omega)) hword

/-- The iteration ends and reports every count when a level ends it. -/
theorem EndsAtCell.yields {j : ℕ} (W : h.WellFormed) (D : h.Describes u m b) {level : Int64}
    (hlevel : level.toInt = l) (hl : 1 ≤ l) (hbase : 1 < base) (hf : ⌊base⌋ = f) (hf₁ : 1 ≤ f)
    (E : EndsAtCell h u m f (l * f ^ j)) (hf₂ : 2 ≤ f ∨ h.counts.length ≤ index u m l) :
    ∃ its, Yields (hdrIterNext h) (hdrIterLogInit h level base) its ∧
      addedCounts its = h.totalCount.toInt := by
  let I : HdrIter HdrIterLog → ℕ → ℕ → Prop := fun it n v =>
    it.specifics.parameter = ⟨base⟩ ∧ ∃ k, n = logConsumed u m l f k ∧ v = l * f ^ k
  have up : Raises LogStep.raise h u m I := by
    rintro it n v ⟨hstep, k, rfl, rfl⟩ A hgo hlt
    obtain ⟨hup, hword⟩ := E.raised W hl hf₁ hf₂ hgo hlt
    have hpos : 1 ≤ l * f ^ k := Nat.mul_pos hl (Nat.pow_pos hf₁)
    have hcast : (Int64.ofInt (l * f ^ (k + 1) : ℕ)).toInt = (l * f ^ (k + 1) : ℕ) :=
      Int64.toInt_ofInt_of_le (by omega) (by exact_mod_cast hword)
    refine ⟨Int64.ofInt (l * f ^ (k + 1) : ℕ), l * f ^ (k + 1), ?_, hcast, hup,
      fun it₁ _ R => ⟨R.parameter.trans hstep, k + 1, logConsumed_succ hf₁ k, rfl⟩⟩
    rw [hstep, LogStep.raise_eq_some hbase hf, hcast, A.level]
    refine ⟨lt_of_le_of_lt ?_ hword, by push_cast; ring⟩
    rw [pow_succ, ← mul_assoc]
    exact Nat.le_mul_of_pos_left f hpos
  obtain ⟨its, Y, hsum⟩ := LevelAt.yields W D up (levelAt_init W D (⟨base⟩ : LogStep) hlevel)
    (Nat.zero_le _) (show I (hdrIterLogInit h level base) 0 l from ⟨rfl, 0, rfl, by simp⟩)
  exact ⟨its, Y, hsum.trans (restCounts_zero W)⟩

/-- With base one the level stays, and only the last bucket of the words ends the iteration. -/
theorem LogAt.yields_last (W : h.WellFormed) (D : h.Describes u m b) {level : Int64}
    (hlevel : level.toInt = l) (hbase : 1 < base) (hf : ⌊base⌋ = 1)
    (htotal : h.restCounts 0 ≠ 0) (hfirst : index u m l ≠ 0) (hend : h.coveredEnd = 2 ^ 63)
    (hlast : index u m l + 1 = h.counts.length) :
    ∃ its, Yields (hdrIterNext h) (hdrIterLogInit h level base) its ∧
      addedCounts its = h.totalCount.toInt := by
  have A : LevelAt h u m (hdrIterLogInit h level base) 0 l :=
    levelAt_init W D (⟨base⟩ : LogStep) hlevel
  have hzero := restCounts_end h le_rfl
  have hcursor : levelCursor 0 (index u m l) = h.counts.length := by
    rw [levelCursor, if_neg (by omega), hlast]
  rcases A.next LogStep.raise W D with ⟨hz, -⟩ |
      ⟨-, -, ⟨hnone, -⟩ | ⟨level₁, it₁, hraise, hnext, R, hA₁⟩⟩ | ⟨-, hge, -⟩
  · exact absurd hz htotal
  · have hsame : LogStep.raise ⟨base⟩ level = some level :=
      (LogStep.raise_eq_some hbase (f := 1) (by exact_mod_cast hf)).mpr ⟨by norm_num, by simp⟩
    rw [show LogStep.raise ⟨base⟩ level = none from hnone] at hsame
    cases hsame
  · have hstay : level₁.toInt = l := by
      have := ((LogStep.raise_eq_some hbase (f := 1) (by exact_mod_cast hf)).mp hraise).2
      rw [this, A.level]
      simp
    rw [hcursor] at R hA₁
    rcases (hA₁ l hstay).next LogStep.raise W D with ⟨-, -, it₂, hstop⟩ |
        ⟨hrest | hover, -, -⟩ | ⟨hrest, -⟩
    · refine ⟨[it₁], .more hnext (.stop hstop), ?_⟩
      have hadded := R.added
      rw [hzero, restCounts_zero W, sub_zero] at hadded
      rw [addedCounts, List.map_singleton, List.sum_singleton, hadded]
    · omega
    · have := hover.2.2.2 rfl
      omega
    · omega
  · omega

end Levels

/-- The level `v` ends the iteration with the integer `factor`. -/
def EndsIteration (h : HdrHistogram) (factor v : ℤ) : Prop :=
  (h.coveredEnd ≤ v ∧ v < 2 ^ 63) ∨
    (2 ^ h.unitMagnitude.toInt.toNat ≤ v ∧ (∀ r ∈ h.recordedSamples, r.1.toInt ≤ v) ∧
      v * factor < 2 ^ 63 ∧
      (2 ≤ factor ∨ (h.coveredEnd = 2 ^ 63 ∧
        h.countsIndexFor (Int64.ofInt v) = h.countsLen - 1)))

theorem endsIteration_iff {h : HdrHistogram} {u m b f v : ℕ} (W : h.WellFormed)
    (D : h.Describes u m b) (hf₁ : 1 ≤ f) : EndsIteration h f v ↔ EndsAtCell h u m f v := by
  have hlen := counts_length_nat D
  have hcounts := D.countsLen_lt
  have hrange := index_lt_length_iff D v
  have hword : (v : ℤ) < 2 ^ 63 ↔ v < 2 ^ 63 := by exact_mod_cast Iff.rfl
  have hnext : (v : ℤ) * f < 2 ^ 63 ↔ v * f < 2 ^ 63 := by exact_mod_cast Iff.rfl
  have hunit : (2 : ℤ) ^ u ≤ v ↔ index u m v ≠ 0 := by
    rw [ne_eq, index_eq_zero_iff, not_lt]
    exact_mod_cast Iff.rfl
  have hlast : v * f < 2 ^ 63 →
      (h.countsIndexFor (Int64.ofInt v) = h.countsLen - 1 ↔ index u m v + 1 = h.counts.length) := by
    intro hv
    have hsmall : (v : ℤ) < 2 ^ 63 := hword.mpr (lt_of_le_of_lt (Nat.le_mul_of_pos_right v hf₁) hv)
    have hcast : (Int64.ofInt v).toInt = v := Int64.toInt_ofInt_of_le (by omega) hsmall
    have hone : (h.countsLen - 1).toInt = h.countsLen.toInt - 1 := by
      rw [sub32] <;> rw [D.countsLen_toInt, Int32.toInt_one] <;> omega
    rw [← Int32.toInt_inj, D.countsIndexFor_toInt (by omega), hcast, Int.toNat_natCast, hone,
      D.countsLen_toInt]
    omega
  unfold EndsIteration EndsAtCell
  rw [D.unitMagnitude, Int.toNat_natCast, hunit, restCounts_eq_zero_iff W D, hword, hnext]
  refine or_congr (and_congr_left fun _ => by omega) (and_congr_right fun _ =>
    and_congr_right fun _ => and_congr_right fun hv => or_congr (by omega) ?_)
  rw [hlast hv]

/-- The iteration ends and reports every count exactly when no count is recorded, or when some
level ends it. -/
theorem logIteration_conserves_iff {h : HdrHistogram} (W : h.WellFormed) {level : Int64}
    (hlevel : 1 ≤ level.toInt) {base : ℚ} (hbase : 1 < base) :
    (∃ its, Yields (hdrIterNext h) (hdrIterLogInit h level base) its ∧
        addedCounts its = h.totalCount.toInt) ↔
      h.totalCount = 0 ∨ ∃ j : ℕ, EndsIteration h ⌊base⌋ (level.toInt * ⌊base⌋ ^ j) := by
  obtain ⟨u, m, b, D⟩ := W.accepted.describes
  obtain ⟨l, hl⟩ := Int.eq_ofNat_of_zero_le (show 0 ≤ level.toInt by omega)
  have hfloor : 1 ≤ ⌊base⌋ := Int.le_floor.mpr (by exact_mod_cast hbase.le)
  obtain ⟨f, hf⟩ := Int.eq_ofNat_of_zero_le (show 0 ≤ ⌊base⌋ by omega)
  have hf₁ : 1 ≤ f := by omega
  have hends : ∀ j : ℕ, EndsIteration h ⌊base⌋ (level.toInt * ⌊base⌋ ^ j) ↔
      EndsAtCell h u m f (l * f ^ j) := by
    intro j
    rw [← endsIteration_iff W D hf₁, hl, hf]
    push_cast
    rfl
  have hzero : h.restCounts 0 = 0 ↔ h.totalCount = 0 := by
    rw [restCounts_zero W, ← Int64.toInt_inj, Int64.toInt_zero]
  simp only [hends]
  constructor
  · rintro ⟨its, Y, -⟩
    by_cases htotal : h.totalCount = 0
    · exact .inl htotal
    · rcases LogAt.exists_endsAtCell W D hbase hf hf₁ (mt hzero.mp htotal) its 0 _
        (logAt_init W D hl base f) Y with ⟨hz, -⟩ | hE
      · exact absurd (hzero.mp hz) htotal
      · exact .inr hE
  · intro hcases
    by_cases htotal : h.totalCount = 0
    · have hz := hzero.mpr htotal
      rcases (levelAt_init W D (⟨base⟩ : LogStep) hl).next LogStep.raise W D with
        ⟨-, -, it₁, hstop⟩ | ⟨hrest | hover, -⟩ | ⟨hrest, -⟩
      · exact ⟨[], .stop hstop, by rw [htotal]; rfl⟩
      · omega
      · exact absurd hover.1 (Nat.not_lt_zero _)
      · omega
    obtain ⟨j, E⟩ := hcases.resolve_left htotal
    by_cases hf₂ : 2 ≤ f ∨ h.counts.length ≤ index u m l
    · exact E.yields W D hl (by omega) hbase hf hf₁ hf₂
    · obtain rfl : f = 1 := by omega
      rw [one_pow, mul_one] at E
      rcases E with ⟨hge, -⟩ | ⟨hfirst, -, -, htwo | ⟨hend, hlast⟩⟩
      · exact absurd (.inr hge) hf₂
      · omega
      · exact LogAt.yields_last W D hl hbase (by exact_mod_cast hf) (mt hzero.mp htotal) hfirst
          hend hlast

/-- A base of one and a half is truncated to one: the first level is reported for ever. -/
theorem logIteration_diverges : wideSource.WellFormed ∧
    ¬ ∃ its, Yields (hdrIterNext wideSource) (hdrIterLogInit wideSource 10 (3 / 2)) its ∧
      addedCounts its = wideSource.totalCount.toInt := by
  have W := wideSource_wellFormed
  obtain ⟨u, m, b, D⟩ := W.accepted.describes
  refine ⟨W, ?_⟩
  rintro ⟨its, Y, -⟩
  have hrest : wideSource.restCounts 0 ≠ 0 := by
    rw [restCounts_zero W]
    decide +kernel
  have hfloor : ⌊(3 / 2 : ℚ)⌋ = (1 : ℕ) := by norm_num
  rcases LogAt.exists_endsAtCell W D (show (1 : ℚ) < 3 / 2 by norm_num) hfloor le_rfl hrest its 0 _
    (logAt_init W D (l := 10) rfl (3 / 2) 1) Y with ⟨hz, -⟩ | ⟨j, E⟩
  · exact hrest hz
  · rw [one_pow, mul_one, ← endsIteration_iff W D le_rfl] at E
    rcases E with ⟨hge, -⟩ | ⟨-, hall, -⟩
    · exact absurd hge (by decide +kernel)
    · have hmem : ((50 : Int64), (3 : Int64)) ∈ wideSource.recordedSamples := by decide +kernel
      exact absurd (hall _ hmem) (by decide)

theorem logIteration_conserves_sample : ∃ its,
    Yields (hdrIterNext wideSource) (hdrIterLogInit wideSource 10 2) its ∧
      addedCounts its = 5 := by
  have htotal : wideSource.totalCount.toInt = 5 := by decide +kernel
  have hfloor : ⌊(2 : ℚ)⌋ = 2 := by norm_num
  rw [← htotal]
  refine (logIteration_conserves_iff wideSource_wellFormed (show 1 ≤ (10 : Int64).toInt by decide)
    (show (1 : ℚ) < 2 by norm_num)).mpr (.inr ⟨7, .inl ?_⟩)
  rw [hfloor]
  decide +kernel

end HdrHistogramC
