import HdrHistogramC.Extremes
import HdrHistogramC.RankSelection

/-!
# Percentile queries

The cumulative scan behind `hdr_value_at_percentile`, in its scalar and its vector
form. A percentile is a rational number, and the double expression that turns a
requested percentile and a total into a target count is the parameter `countAt`.
The scan finds the cell of the sample of a given rank.
-/
namespace HdrHistogramC
open FixedWidth BoundedLoop LogLinear RankSelection BucketLayout.Describes

/-- The loop over the counts from index `idx` on: the index at which the running
sum reaches the target, or the running sum after the last count. -/
def accumulate (countAtPercentile : Int64) : ℕ → Int64 → List Int64 → Round Int64 ℕ
  | _, running, [] => .again running
  | idx, running, c :: cs =>
      if running + c ≥ countAtPercentile then .leave idx
      else accumulate countAtPercentile (idx + 1) (running + c) cs

/-- The vector loop: four counts at a time, summed pairwise, and searched one by
one when the sum of the four reaches the target. The scalar loop takes the rest. -/
def accumulateChunks (countAtPercentile : Int64) : ℕ → Int64 → List Int64 → Round Int64 ℕ
  | idx, running, c₀ :: c₁ :: c₂ :: c₃ :: cs =>
      let chunk := (c₀ + c₂) + (c₁ + c₃)
      if running + chunk ≥ countAtPercentile then
        match accumulate countAtPercentile idx running [c₀, c₁, c₂, c₃] with
        | .leave j => .leave j
        | .again running => accumulateChunks countAtPercentile (idx + 4) (running + chunk) cs
      else accumulateChunks countAtPercentile (idx + 4) (running + chunk) cs
  | idx, running, cs => accumulate countAtPercentile idx running cs

namespace HdrHistogram

def valueOfScan (h : HdrHistogram) : Round Int64 ℕ → Int64
  | .leave idx => h.hdrValueAtIndex (Int32.ofNat idx)
  | .again _ => 0

def getValueFromIdxUpToCountScalar (h : HdrHistogram) (countAtPercentile : Int64) : Int64 :=
  h.valueOfScan (accumulate countAtPercentile 0 0 h.counts)

def getValueFromIdxUpToCountAvx2 (h : HdrHistogram) (countAtPercentile : Int64) : Int64 :=
  h.valueOfScan (accumulateChunks countAtPercentile 0 0 h.counts)

/-- `avx2` is whether the processor supports the vector instructions. -/
def getValueFromIdxUpToCount (avx2 : Bool) (h : HdrHistogram) (countAtPercentile : Int64) :
    Int64 :=
  let countAtPercentile := if countAtPercentile > 0 then countAtPercentile else 1
  if avx2 then h.getValueFromIdxUpToCountAvx2 countAtPercentile
  else h.getValueFromIdxUpToCountScalar countAtPercentile

end HdrHistogram

def requestedPercentile (percentile : ℚ) : ℚ := if percentile < 100 then percentile else 100

def HdrHistogram.hdrValueAtPercentile (countAt : ℚ → Int64 → Int64) (avx2 : Bool)
    (h : HdrHistogram) (percentile : ℚ) : Int64 :=
  let countAtPercentile := countAt (requestedPercentile percentile) h.totalCount
  let valueFromIdx := getValueFromIdxUpToCount avx2 h countAtPercentile
  if percentile = 0 then h.lowestEquivalentValue valueFromIdx
  else h.highestEquivalentValue valueFromIdx

/-- The exact sum of some counts. -/
def sumWords (cs : List Int64) : ℤ := (cs.map Int64.toInt).sum

@[simp] theorem sumWords_nil : sumWords [] = 0 := rfl

@[simp] theorem sumWords_cons (c : Int64) (cs : List Int64) :
    sumWords (c :: cs) = c.toInt + sumWords cs := by simp [sumWords]

theorem sumWords_nonneg {cs : List Int64} (hc : ∀ c ∈ cs, 0 ≤ c.toInt) : 0 ≤ sumWords cs :=
  List.sum_nonneg fun x hx => by
    obtain ⟨c, hc', rfl⟩ := List.mem_map.mp hx
    exact hc c hc'

/-- Counts that can be added to a running sum without overflow. -/
structure Addable (running : Int64) (cs : List Int64) : Prop where
  nonneg : ∀ c ∈ cs, 0 ≤ c.toInt
  running_nonneg : 0 ≤ running.toInt
  lt : running.toInt + sumWords cs < 2 ^ 63

theorem addable_of_nonneg {cs : List Int64} (nonneg : ∀ c ∈ cs, 0 ≤ c)
    (fits : (cs.map Int64.toInt).sum < 2 ^ 63) : Addable 0 cs where
  nonneg c hc := (nonneg_iff c).mp (nonneg c hc)
  running_nonneg := le_rfl
  lt := by
    rw [Int64.toInt_zero, zero_add]
    exact fits

section Scan
variable {t running c : Int64} {cs : List Int64} {k i : ℕ}

theorem Addable.add (A : Addable running (c :: cs)) :
    (running + c).toInt = running.toInt + c.toInt := by
  have h := A.lt
  have hc := A.nonneg c (by simp)
  have hs := sumWords_nonneg fun d hd => A.nonneg d (List.mem_cons_of_mem c hd)
  have hr := A.running_nonneg
  rw [sumWords_cons] at h
  rw [add64] <;> omega

theorem Addable.tail (A : Addable running (c :: cs)) : Addable (running + c) cs where
  nonneg d hd := A.nonneg d (List.mem_cons_of_mem c hd)
  running_nonneg := by
    have hc := A.nonneg c (by simp)
    have hr := A.running_nonneg
    rw [A.add]
    omega
  lt := by
    have h := A.lt
    rw [sumWords_cons] at h
    rw [A.add]
    omega

theorem accumulate_leave (A : Addable running cs) (hi : i < cs.length)
    (hlt : running.toInt + sumWords (cs.take i) < t.toInt)
    (hle : t.toInt ≤ running.toInt + sumWords (cs.take (i + 1))) :
    accumulate t k running cs = .leave (k + i) := by
  induction cs generalizing running k i with
  | nil => simp at hi
  | cons c cs ih =>
      have hadd := A.add
      cases i with
      | zero =>
          have hge : running + c ≥ t := by
            rw [ge_iff_le, Int64.le_iff_toInt_le, hadd]
            simpa using hle
          rw [accumulate, if_pos hge, add_zero]
      | succ i =>
          simp only [List.take_succ_cons, sumWords_cons, List.length_cons] at hlt hle hi
          have hs : 0 ≤ sumWords (cs.take i) := sumWords_nonneg fun d hd =>
            A.nonneg d (List.mem_cons_of_mem c (List.mem_of_mem_take hd))
          have hge : ¬ running + c ≥ t := by
            rw [ge_iff_le, Int64.le_iff_toInt_le, hadd]
            omega
          rw [accumulate, if_neg hge, ih (i := i) A.tail (by omega) (by omega) (by omega)]
          congr 1
          omega

theorem accumulate_again (A : Addable running cs)
    (hlt : running.toInt + sumWords cs < t.toInt) :
    ∃ w : Int64, accumulate t k running cs = .again w ∧
      w.toInt = running.toInt + sumWords cs := by
  induction cs generalizing running k with
  | nil => exact ⟨running, rfl, by simp⟩
  | cons c cs ih =>
      have hadd := A.add
      have hs := sumWords_nonneg fun d hd => A.nonneg d (List.mem_cons_of_mem c hd)
      rw [sumWords_cons] at hlt
      have hge : ¬ running + c ≥ t := by
        rw [ge_iff_le, Int64.le_iff_toInt_le, hadd]
        omega
      obtain ⟨w, hw, hsum⟩ := ih (k := k + 1) A.tail (by omega)
      refine ⟨w, ?_, by rw [hsum, sumWords_cons, hadd]; omega⟩
      rw [accumulate, if_neg hge, hw]

theorem sumWords_take_mono (hc : ∀ c ∈ cs, 0 ≤ c.toInt) {j k : ℕ} (hjk : j ≤ k) :
    sumWords (cs.take j) ≤ sumWords (cs.take k) := by
  obtain ⟨d, rfl⟩ := Nat.exists_eq_add_of_le hjk
  have hsplit : sumWords (cs.take (j + d)) =
      sumWords (cs.take j) + sumWords ((cs.drop j).take d) := by
    rw [List.take_add, sumWords, List.map_append, List.sum_append]
    rfl
  rw [hsplit]
  exact le_add_of_nonneg_right (sumWords_nonneg fun c hm =>
    hc c (List.mem_of_mem_drop (List.mem_of_mem_take hm)))

/-- The scan stops at the index behind which the running sum has reached the target. -/
theorem accumulate_index (A : Addable 0 cs) (ht : 1 ≤ t.toInt) (hle : t.toInt ≤ sumWords cs) :
    ∃ i < cs.length, accumulate t 0 0 cs = .leave i ∧
      ∀ k, i < k ↔ t.toInt ≤ sumWords (cs.take k) := by
  have hex : ∃ k, t.toInt ≤ sumWords (cs.take k) := ⟨cs.length, by rwa [List.take_length]⟩
  classical
  have hspec := Nat.find_spec hex
  have hpos : Nat.find hex ≠ 0 := by
    intro hz
    rw [hz, List.take_zero, sumWords_nil] at hspec
    omega
  obtain ⟨i, hi⟩ := Nat.exists_eq_succ_of_ne_zero hpos
  have hmin := Nat.find_min hex (m := i) (by omega)
  have hlt : i < cs.length := by
    by_contra hge
    rw [List.take_of_length_le (by omega)] at hmin
    exact hmin hle
  rw [hi] at hspec
  refine ⟨i, hlt, ?_, fun k => ⟨fun hk => ?_, fun hk => ?_⟩⟩
  · have hleave := accumulate_leave (k := 0) A hlt (t := t)
      (by rw [Int64.toInt_zero, zero_add]; omega) (by rw [Int64.toInt_zero, zero_add]; exact hspec)
    rwa [zero_add] at hleave
  · exact hspec.trans (sumWords_take_mono A.nonneg hk)
  · have := Nat.find_min' hex hk
    omega

/-- The two loops agree on counts that cannot overflow. -/
theorem accumulateChunks_eq (A : Addable running cs) :
    accumulateChunks t k running cs = accumulate t k running cs := by
  fun_induction accumulateChunks t k running cs with
  | case1 idx running c₀ c₁ c₂ c₃ cs chunk hge j hj =>
      simp only [accumulate] at hj ⊢
      split_ifs at hj ⊢ <;> exact hj.symm
  | case2 idx running c₀ c₁ c₂ c₃ cs chunk hge w hw ih =>
      -- the fourth running sum is the one compared, so the search cannot fail
      have hsum : running + c₀ + c₁ + c₂ + c₃ = running + chunk := by
        simp only [chunk]
        grind
      rw [← hsum] at hge
      simp only [accumulate, if_pos hge] at hw
      split_ifs at hw
  | case3 idx running c₀ c₁ c₂ c₃ cs chunk hge ih =>
      have hsum : running + c₀ + c₁ + c₂ + c₃ = running + chunk := by
        simp only [chunk]
        grind
      rw [← hsum] at hge ih
      have A₁ := A.tail
      have A₂ := A₁.tail
      have A₃ := A₂.tail
      have e₁ := A₁.add
      have e₂ := A₂.add
      have e₃ := A₃.add
      have p₁ := A.nonneg c₁ (by simp)
      have p₂ := A.nonneg c₂ (by simp)
      have p₃ := A.nonneg c₃ (by simp)
      rw [ge_iff_le, Int64.le_iff_toInt_le] at hge
      rw [← hsum, ih A₃.tail]
      simp only [accumulate, ge_iff_le, Int64.le_iff_toInt_le]
      rw [if_neg (by omega), if_neg (by omega), if_neg (by omega), if_neg (by omega)]
  | case4 => rfl

end Scan

theorem HdrHistogram.WellFormed.addable {h : HdrHistogram} (W : h.WellFormed) :
    Addable 0 h.counts :=
  addable_of_nonneg W.nonneg (by rw [← W.total]; exact h.totalCount.toInt_lt)

theorem Represents.addable {h : HdrHistogram} {rs : List Sample} (R : Represents h rs)
    (B : Bounded rs) : Addable 0 h.counts := (R.wellFormed B).addable

/-- The vector scan and the scalar scan find the same value, whatever the length of the
array and also when the target is more than the total. -/
theorem avx2_eq_scalar {h : HdrHistogram} (nonneg : ∀ c ∈ h.counts, 0 ≤ c)
    (fits : (h.counts.map Int64.toInt).sum < 2 ^ 63) (countAtPercentile : Int64) :
    h.getValueFromIdxUpToCountAvx2 countAtPercentile =
      h.getValueFromIdxUpToCountScalar countAtPercentile := by
  rw [HdrHistogram.getValueFromIdxUpToCountAvx2, HdrHistogram.getValueFromIdxUpToCountScalar,
    accumulateChunks_eq (addable_of_nonneg nonneg fits)]

/-- Three counts in the sixty-four cells, and a target that is past them. -/
theorem avx2_eq_scalar_sample :
    { sampleHistogram with
      counts := List.replicate 61 0 ++ [2, 0, 1]
      counts_length := by decide }.getValueFromIdxUpToCountAvx2 4 =
    { sampleHistogram with
      counts := List.replicate 61 0 ++ [2, 0, 1]
      counts_length := by decide }.getValueFromIdxUpToCountScalar 4 :=
  avx2_eq_scalar (List.forall_iff_forall_mem.mp (by decide +kernel)) (by decide +kernel) 4

/-- Every recorded value, repeated as often as it was recorded. -/
def expanded (rs : List Sample) : List Int64 :=
  rs.flatMap fun r => List.replicate r.2.toInt.toNat r.1

/-- The `r`-th smallest recorded sample. -/
def rankedSample (rs : List Sample) (r : ℕ) : Option Int64 :=
  ((expanded rs).mergeSort fun a b => a ≤ b)[r - 1]?

theorem expanded_cons (r : Sample) (rs : List Sample) :
    expanded (r :: rs) = List.replicate r.2.toInt.toNat r.1 ++ expanded rs := rfl

theorem mem_of_mem_expanded {rs : List Sample} {x : Int64} (hx : x ∈ expanded rs) :
    ∃ r ∈ rs, r.1 = x := by
  obtain ⟨r, hr, hrep⟩ := List.mem_flatMap.mp hx
  exact ⟨r, hr, (List.eq_of_mem_replicate hrep).symm⟩

theorem length_expanded {rs : List Sample} (hr : ∀ r ∈ rs, 0 ≤ r.2.toInt) :
    ((expanded rs).length : ℤ) = sumCounts rs := by
  induction rs with
  | nil => rfl
  | cons r rs ih =>
      have h0 := hr r (by simp)
      rw [expanded_cons, List.length_append, List.length_replicate, sumCounts_cons,
        ← ih fun s hs => hr s (by simp [hs])]
      push_cast
      omega

/-- The recorded multiset exists at every rank, and its ranks are those of the order
on integers. -/
theorem rankedSample_spec {rs : List Sample} (hr : ∀ r ∈ rs, 0 ≤ r.2.toInt) {k : ℕ}
    (h₁ : 1 ≤ k) (hk : (k : ℤ) ≤ sumCounts rs) :
    ∃ x, rankedSample rs k = some x ∧ (∃ r ∈ rs, r.1 = x) ∧
      IsRanked ((expanded rs).map Int64.toInt) k x.toInt := by
  have hperm := List.mergeSort_perm (expanded rs) fun a b => decide (a ≤ b)
  have hsorted : (((expanded rs).mergeSort fun a b => decide (a ≤ b)).map Int64.toInt).Pairwise
      (· ≤ ·) := by
    rw [List.pairwise_map]
    have hp : ((expanded rs).mergeSort fun a b => decide (a ≤ b)).Pairwise
        fun a b => decide (a ≤ b) = true := List.pairwise_mergeSort
      (fun a b c => by simpa using Int64.le_trans) (fun a b => by simpa using Int64.le_total a b)
      (expanded rs)
    exact hp.imp fun h => Int64.le_iff_toInt_le.mp (by simpa using h)
  unfold rankedSample
  generalize (expanded rs).mergeSort (fun a b => decide (a ≤ b)) = l at *
  have hlen : k - 1 < l.length := by
    have := length_expanded hr
    have := hperm.length_eq
    omega
  have hrank := isRanked_getElem hsorted (k := k - 1) (by simpa using hlen)
  rw [List.getElem_map, Nat.sub_add_cancel h₁] at hrank
  refine ⟨l[k - 1], List.getElem?_eq_getElem hlen, ?_, hrank.perm (hperm.map _)⟩
  exact mem_of_mem_expanded (hperm.mem_iff.mp (List.getElem_mem hlen))

section Rank
variable {h : HdrHistogram} {rs : List Sample} {u m b n : ℕ} {t x : Int64}

theorem count_expanded (D : h.Describes u m b) (hv : ∀ r ∈ rs, h.Recordable r.1)
    (hr : ∀ r ∈ rs, 0 ≤ r.2.toInt) (n : ℕ) :
    ((((expanded rs).map Int64.toInt).map fun z => index u m z.toNat).count n : ℤ) =
      sumCountsAt h.toBucketLayout rs n := by
  induction rs with
  | nil => rfl
  | cons r rs ih =>
      have h0 := hr r (by simp)
      have hidx := D.countsIndexFor_toInt ((nonneg_iff _).mp (hv r (by simp)).1)
      rw [expanded_cons, List.map_append, List.map_append, List.count_append, Nat.cast_add,
        ih (fun s hs => hv s (by simp [hs])) (fun s hs => hr s (by simp [hs])), sumCountsAt_cons,
        hidx, List.map_replicate, List.map_replicate, List.count_replicate]
      simp only [beq_iff_eq, Int.natCast_inj]
      split_ifs
      · rw [Int.toNat_of_nonneg h0]
      · rfl

theorem sumWords_take (R : Represents h rs) (B : Bounded rs) (hn : n ≤ h.counts.length) :
    sumWords (h.counts.take n) =
      ∑ i ∈ Finset.range n, sumCountsAt h.toBucketLayout rs i := by
  have hs := sum_eq_of_getElem (h.counts.take n) (sumCountsAt h.toBucketLayout rs) (by
    intro k c hk
    rw [List.getElem?_take] at hk
    split_ifs at hk
    exact R.count_eq B hk)
  rwa [List.length_take_of_le hn] at hs

/-- The scan stops at the cell of the sample of that rank. -/
theorem accumulate_rank (R : Represents h rs) (B : Bounded rs) (D : h.Describes u m b)
    (ht : 1 ≤ t.toInt) (hx : h.Recordable x)
    (hrank : IsRanked ((expanded rs).map Int64.toInt) t.toInt.toNat x.toInt) :
    accumulate t 0 0 h.counts = .leave (index u m x.toInt.toNat) := by
  have hx0 := (nonneg_iff _).mp hx.1
  have hlt : index u m x.toInt.toNat < h.counts.length := by
    rw [counts_length_nat D]
    exact D.index_lt_countsLen hx0 (Int64.le_iff_toInt_le.mp hx.2)
  have hmono : Monotone fun z : ℤ => index u m z.toNat := fun a c hac =>
    index_mono (Int.toNat_le_toNat hac)
  obtain ⟨h₁, h₂⟩ := isRanked_iff_sum.mp (hrank.map hmono)
  zify at h₁ h₂
  simp only [count_expanded D R.recordable B.nonneg,
    Int.toNat_of_nonneg (show 0 ≤ t.toInt by omega)] at h₁ h₂
  rw [← sumWords_take R B hlt.le] at h₁
  rw [← sumWords_take R B hlt] at h₂
  simpa using accumulate_leave (k := 0) (R.addable B) hlt
    (by rw [Int64.toInt_zero, zero_add]; exact h₁) (by rw [Int64.toInt_zero, zero_add]; exact h₂)

theorem getValueFromIdxUpToCount_rank (avx2 : Bool) (R : Represents h rs) (B : Bounded rs)
    (ht : 1 ≤ t.toInt) (hx : h.Recordable x)
    (hrank : IsRanked ((expanded rs).map Int64.toInt) t.toInt.toNat x.toInt) :
    HdrHistogram.getValueFromIdxUpToCount avx2 h t = h.hdrLowestEquivalentValue x := by
  obtain ⟨u, m, b, D⟩ := R.accepted.describes
  have hx0 := (nonneg_iff _).mp hx.1
  have hpos : t > 0 := by
    change 0 < t
    rw [Int64.lt_iff_toInt_lt, Int64.toInt_zero]
    omega
  have hidx : Int32.ofNat (index u m x.toInt.toNat) = h.countsIndexFor x := by
    have := D.index_lt x
    rw [← Int32.toInt_inj, D.countsIndexFor_toInt hx0, Int32.toInt_ofNat_of_lt (by omega)]
  have hval : h.valueOfScan (accumulate t 0 0 h.counts) = h.hdrLowestEquivalentValue x := by
    rw [accumulate_rank R B D ht hx hrank, HdrHistogram.valueOfScan, hidx]
    exact D.hdrValueAtIndex_countsIndexFor hx0 (Int64.le_iff_toInt_le.mp hx.2)
  unfold HdrHistogram.getValueFromIdxUpToCount HdrHistogram.getValueFromIdxUpToCountAvx2
    HdrHistogram.getValueFromIdxUpToCountScalar
  dsimp only
  rw [if_pos hpos, accumulateChunks_eq (R.addable B), hval, ite_self]

end Rank

/-- The value that is reported for a target count other than the one of percentile
zero. -/
def reportedValue (avx2 : Bool) (h : HdrHistogram) (t : Int64) : Int64 :=
  h.highestEquivalentValue (HdrHistogram.getValueFromIdxUpToCount avx2 h t)

/-- The sample of rank `t` is `x`, and it is reported to the configured precision. -/
structure ReportsRank (avx2 : Bool) (h : HdrHistogram) (t x : Int64) : Prop where
  scan : HdrHistogram.getValueFromIdxUpToCount avx2 h t = h.hdrLowestEquivalentValue x
  le : x ≤ reportedValue avx2 h t
  close : (reportedValue avx2 h t).toInt - x.toInt < 2 ^ h.unitMagnitude.toInt.toNat ∨
    10 ^ h.significantFigures.toInt.toNat * ((reportedValue avx2 h t).toInt - x.toInt) < x.toInt

section Report
variable {h : HdrHistogram} {rs : List Sample} {u m b : ℕ} {t x : Int64}

theorem highest_lowest_toInt (D : h.Describes u m b) (hx : 0 ≤ x.toInt) :
    (h.highestEquivalentValue (h.hdrLowestEquivalentValue x)).toInt =
      lower u m (index u m x.toInt.toNat) + width u m (index u m x.toInt.toNat) - 1 := by
  have hl := D.lowestEquivalentValue_toInt hx
  rw [BucketLayout.hdrLowestEquivalentValue, D.highestEquivalentValue_toInt (by omega), hl,
    Int.toNat_natCast, index_lower]

theorem Represents.reportsRank (avx2 : Bool) (R : Represents h rs) (B : Bounded rs)
    (ht : 1 ≤ t.toInt) (hx : h.Recordable x)
    (hrank : IsRanked ((expanded rs).map Int64.toInt) t.toInt.toNat x.toInt) :
    ReportsRank avx2 h t x := by
  obtain ⟨u, m, b, D⟩ := R.accepted.describes
  have hx0 := (nonneg_iff _).mp hx.1
  have hscan := getValueFromIdxUpToCount_rank avx2 R B ht hx hrank
  have htop := highest_lowest_toInt D hx0
  rw [← hscan] at htop
  have hlt := lt_lower_index_add_width (u := u) (m := m) x.toInt.toNat
  have hprec := precision (r := lower u m (index u m x.toInt.toNat) +
      width u m (index u m x.toInt.toNat) - 1) D.precise
    (lower_index_le (u := u) x.toInt.toNat) (by omega)
  refine ⟨hscan, ?_, ?_⟩
  · rw [Int64.le_iff_toInt_le, reportedValue, htop]
    omega
  · have hdist : (reportedValue avx2 h t).toInt - x.toInt =
        (lower u m (index u m x.toInt.toNat) + width u m (index u m x.toInt.toNat) - 1 -
          x.toInt.toNat : ℕ) := by
      rw [reportedValue, htop]
      omega
    rw [hdist, D.unitMagnitude, Int.toNat_natCast]
    rcases hprec with hp | hp
    · exact .inl (by exact_mod_cast hp)
    · refine .inr ?_
      zify at hp
      rwa [Int.toNat_of_nonneg hx0] at hp

/-- Higher ranks are not reported lower. -/
theorem Represents.reportedValue_mono (avx2 : Bool) (R : Represents h rs) (B : Bounded rs)
    {s : Int64} (ht : 1 ≤ t.toInt) (hts : t ≤ s) (hs : s.toInt ≤ sumCounts rs) :
    reportedValue avx2 h t ≤ reportedValue avx2 h s := by
  obtain ⟨u, m, b, D⟩ := R.accepted.describes
  rw [Int64.le_iff_toInt_le] at hts
  obtain ⟨x, -, ⟨r, hr, rfl⟩, hx⟩ :=
    rankedSample_spec B.nonneg (k := t.toInt.toNat) (by omega) (by omega)
  obtain ⟨y, -, ⟨r', hr', rfl⟩, hy⟩ :=
    rankedSample_spec B.nonneg (k := s.toInt.toNat) (by omega) (by omega)
  have hxy := hx.mono hy (by omega)
  have hx0 := (nonneg_iff _).mp (R.recordable r hr).1
  have hy0 := (nonneg_iff _).mp (R.recordable r' hr').1
  have hidx := index_mono (u := u) (m := m)
    (show r.1.toInt.toNat ≤ r'.1.toInt.toNat by omega)
  have hstep : lower u m (index u m r.1.toInt.toNat + 1) ≤
      lower u m (index u m r'.1.toInt.toNat + 1) := lower_strictMono.monotone (by omega)
  rw [lower_succ, lower_succ] at hstep
  rw [Int64.le_iff_toInt_le, reportedValue, reportedValue,
    getValueFromIdxUpToCount_rank avx2 R B ht (R.recordable r hr) hx,
    getValueFromIdxUpToCount_rank avx2 R B (by omega) (R.recordable r' hr') hy,
    highest_lowest_toInt D hx0, highest_lowest_toInt D hy0]
  omega

end Report

/-- Every rank of a recorded history is reported at the lowest member of the cell of
its sample, and the reported value is within the configured precision above it. -/
theorem percentile_accuracy {lowest highest : Int64} {figures : Int32} {h₀ : HdrHistogram}
    (init : hdrInit lowest highest figures = some (.ok h₀)) (rs : List Sample)
    (recordable : ∀ r ∈ rs, h₀.Recordable r.1) (positive : PositiveCounts rs)
    (fits : sumCounts rs < 2 ^ 63) (avx2 : Bool) :
    ∃ h, h₀.recordAll rs = some h ∧ h.toBucketLayout = h₀.toBucketLayout ∧
      h.totalCount.toInt = sumCounts rs ∧
      (∀ t : Int64, 1 ≤ t → t.toInt ≤ sumCounts rs →
        ∃ x, rankedSample rs t.toInt.toNat = some x ∧ ReportsRank avx2 h t x) ∧
      (∀ t s : Int64, 1 ≤ t → t ≤ s → s.toInt ≤ sumCounts rs →
        reportedValue avx2 h t ≤ reportedValue avx2 h s) ∧
      ∀ (countAt : ℚ → Int64 → Int64) (p : ℚ), p ≠ 0 →
        HdrHistogram.hdrValueAtPercentile countAt avx2 h p =
          reportedValue avx2 h (countAt (requestedPercentile p) h.totalCount) := by
  obtain ⟨h, hrun, R, hl⟩ := (represents_hdrInit init).recordAll recordable
  rw [List.nil_append] at R
  have B := positive.bounded fits
  refine ⟨h, hrun, hl, R.total_eq B, ?_, ?_, ?_⟩
  · intro t ht hle
    rw [one_le_iff] at ht
    obtain ⟨x, hx, ⟨r, hr, rfl⟩, hrank⟩ :=
      rankedSample_spec B.nonneg (k := t.toInt.toNat) (by omega) (by omega)
    exact ⟨r.1, hx, R.reportsRank avx2 B ht (R.recordable r hr) hrank⟩
  · intro t s ht hts hs
    exact R.reportedValue_mono avx2 B ((one_le_iff t).mp ht) hts hs
  · intro countAt p hp
    rw [HdrHistogram.hdrValueAtPercentile, if_neg hp]
    rfl

theorem sample_recordable :
    ∀ r ∈ ([(77, 3), (5, 1)] : List Sample), sampleHistogram.Recordable r.1 := by
  simp only [List.forall_mem_cons, BucketLayout.Recordable]
  exact ⟨by decide +kernel, by decide +kernel, by simp⟩

theorem percentile_accuracy_sample : ∃ h,
    sampleHistogram.recordAll [(77, 3), (5, 1)] = some h ∧ ReportsRank true h 2 77 := by
  obtain ⟨h, hrun, -, -, hrank, -⟩ := percentile_accuracy sampleHistogram_init [(77, 3), (5, 1)]
    sample_recordable (by simp [PositiveCounts]) (by decide +kernel) true
  obtain ⟨x, hx, hrep⟩ := hrank 2 (by decide +kernel) (by decide +kernel)
  have h77 : rankedSample [(77, 3), (5, 1)] (Int64.toInt 2).toNat = some 77 := by
    simp [rankedSample, expanded, List.mergeSort, List.replicate]
  rw [h77] at hx
  cases hx
  exact ⟨h, hrun, hrep⟩

end HdrHistogramC
