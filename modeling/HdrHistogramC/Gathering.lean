import HdrHistogramC.Mutation

/-!
# Recordings in any order

A recording makes four updates: of a count, of the total and of the two extremes. Updates
of one kind commute, so what recordings leave behind depends on the multiset of their
samples only. `Gathered` names the samples whose updates of each kind have been made on a
base histogram, which may have any content and any normalizing offset that keeps the
indices in the array; a recording that has returned has made all four.
-/
namespace HdrHistogramC
open FixedWidth LogLinear BucketLayout.Describes

/-- The entry of the array that counts the value `v`. -/
def HdrHistogram.cell (h : HdrHistogram) (v : Int64) : ℕ :=
  (h.normalizeIndex (h.countsIndexFor v)).toInt.toNat

/-- An accepted layout under an offset that keeps every index in the array. -/
structure HdrHistogram.Normalised (h : HdrHistogram) : Prop where
  accepted : h.Accepted
  inside : ∀ i, 0 ≤ i → i < h.countsLen →
    0 ≤ h.normalizeIndex i ∧ h.normalizeIndex i < h.countsLen

theorem HdrHistogram.WellFormed.toNormalised {h : HdrHistogram} (W : h.WellFormed) :
    h.Normalised :=
  ⟨W.accepted, W.normalised⟩

def addCount (cell : Int64 → ℕ) (r : Sample) (counts : List Int64) : List Int64 :=
  counts.modify (cell r.1) (· + r.2)

def addTotal (r : Sample) (totalCount : Int64) : Int64 := totalCount + r.2

def lowerMin (v minValue : Int64) : Int64 := if v ≠ 0 ∧ v < minValue then v else minValue

def raiseMax (v maxValue : Int64) : Int64 := if v > maxValue then v else maxValue

theorem add_right_comm64 (a b c : Int64) : a + b + c = a + c + b := by
  rw [Int64.add_assoc, Int64.add_comm b, ← Int64.add_assoc]

instance (cell : Int64 → ℕ) : LeftCommutative (addCount cell) where
  left_comm r s counts := by
    apply List.ext_getElem?
    intro n
    simp only [addCount, List.getElem?_modify]
    cases counts[n]? with
    | none => rfl
    | some a =>
        split_ifs
        · exact congrArg some (add_right_comm64 ..)
        all_goals rfl

instance : LeftCommutative addTotal where
  left_comm r s t := add_right_comm64 t s.2 r.2

instance : LeftCommutative lowerMin where
  left_comm v w m := by
    unfold lowerMin
    by_cases hv : v = 0 <;> by_cases hw : w = 0 <;>
      simp only [hv, hw, ne_eq, not_true, not_false_eq_true, false_and, true_and, if_false,
        Int64.lt_iff_toInt_lt]
    split_ifs <;> first | rfl | omega | (rw [← Int64.toInt_inj]; omega)

instance : LeftCommutative raiseMax where
  left_comm v w m := by
    unfold raiseMax
    simp only [gt_iff_lt, Int64.lt_iff_toInt_lt]
    split_ifs <;> first | rfl | (rw [← Int64.toInt_inj]; omega)

/-- The base histogram after the updates of the counts by `counted`, of the total by
`totalled`, and of the extremes by the values `lowered` and `raised`. -/
structure Gathered (base h : HdrHistogram) (counted totalled : Multiset Sample)
    (lowered raised : Multiset Int64) : Prop where
  layout : h.toBucketLayout = base.toBucketLayout
  offset : h.normalizingIndexOffset = base.normalizingIndexOffset
  ratio : h.conversionRatio = base.conversionRatio
  counts : h.counts = counted.foldr (addCount base.cell) base.counts
  total : h.totalCount = totalled.foldr addTotal base.totalCount
  min : h.minValue = lowered.foldr lowerMin base.minValue
  max : h.maxValue = raised.foldr raiseMax base.maxValue

/-- The base histogram after recording the samples `m`, in whatever order. -/
abbrev Collected (base h : HdrHistogram) (m : Multiset Sample) : Prop :=
  Gathered base h m m (m.map Prod.fst) (m.map Prod.fst)

theorem collected_self (base : HdrHistogram) : Collected base base 0 :=
  ⟨rfl, rfl, rfl, rfl, rfl, rfl, rfl⟩

section Gathered
variable {base h h' : HdrHistogram} {counted totalled : Multiset Sample}
  {lowered raised : Multiset Int64} {m : Multiset Sample} {v c : Int64}

/-- The updates that were made determine the histogram. -/
theorem Gathered.eq (G : Gathered base h counted totalled lowered raised)
    (G' : Gathered base h' counted totalled lowered raised) : h = h' := by
  obtain ⟨hl, ho, hr, hc, ht, hmin, hmax⟩ := G
  rw [← G'.layout] at hl
  rw [← G'.offset] at ho
  rw [← G'.ratio] at hr
  rw [← G'.counts] at hc
  rw [← G'.total] at ht
  rw [← G'.min] at hmin
  rw [← G'.max] at hmax
  cases h
  cases h'
  simp only [HdrHistogram.mk.injEq]
  exact ⟨hl, hmin, hmax, ho, hr, ht, hc⟩

theorem Gathered.normalizeIndex (G : Gathered base h counted totalled lowered raised)
    (i : Int32) : h.normalizeIndex i = base.normalizeIndex i := by
  unfold HdrHistogram.normalizeIndex
  rw [G.offset, G.layout]

theorem Gathered.length (G : Gathered base h counted totalled lowered raised) :
    h.counts.length = base.counts.length := by
  have h₁ := h.counts_length
  have h₂ := base.counts_length
  rw [G.layout] at h₁
  omega

/-- Both branches of the count update write the entry at the normalized index. -/
theorem countsAdd_normalised (h : HdrHistogram) (index : Int32) (c : Int64) :
    (if h.normalizingIndexOffset = 0 then h.countsAdd index c
      else h.countsAdd (h.normalizeIndex index) c) = h.countsAdd (h.normalizeIndex index) c := by
  split_ifs with hz
  · rw [HdrHistogram.normalizeIndex, if_pos hz]
  · rfl

theorem HdrHistogram.Normalised.cell (N : base.Normalised) (hv : base.Recordable v) :
    (base.normalizeIndex (base.countsIndexFor v)).toInt = base.cell v ∧
      base.cell v < base.counts.length := by
  obtain ⟨u, k, b, D⟩ := N.accepted.describes
  have h0 := (nonneg_iff v).mp hv.1
  have hidx := D.countsIndexFor_toInt h0
  have hlt := D.index_lt_countsLen h0 (Int64.le_iff_toInt_le.mp hv.2)
  have hin := N.inside (base.countsIndexFor v)
    (by rw [Int32.le_iff_toInt_le, hidx, Int32.toInt_zero]; omega)
    (by rw [Int32.lt_iff_toInt_lt, hidx, D.countsLen_toInt]; exact_mod_cast hlt)
  have hlen := base.counts_length
  simp only [Int32.le_iff_toInt_le, Int32.lt_iff_toInt_lt, Int32.toInt_zero] at hin
  unfold HdrHistogram.cell
  omega

theorem Gathered.countsAdd (G : Gathered base h counted totalled lowered raised)
    (N : base.Normalised) (hv : base.Recordable v) (c : Int64) :
    ∃ h', h.countsAdd (h.normalizeIndex (base.countsIndexFor v)) c = some h' ∧
      Gathered base h' ((v, c) ::ₘ counted) totalled lowered raised := by
  obtain ⟨hcell, hlt⟩ := N.cell hv
  rw [G.normalizeIndex]
  refine ⟨_, countsAdd_eq hcell (by rwa [G.length]) c, G.layout, G.offset, G.ratio, ?_, G.total,
    G.min, G.max⟩
  rw [Multiset.foldr_cons, ← G.counts]
  rfl

theorem Gathered.totalAdd (G : Gathered base h counted totalled lowered raised) (v c : Int64) :
    Gathered base { h with totalCount := h.totalCount + c } counted ((v, c) ::ₘ totalled) lowered
      raised := by
  refine ⟨G.layout, G.offset, G.ratio, G.counts, ?_, G.min, G.max⟩
  rw [Multiset.foldr_cons, ← G.total]
  rfl

theorem Gathered.lower (G : Gathered base h counted totalled lowered raised) (v : Int64) :
    Gathered base { h with minValue := lowerMin v h.minValue } counted totalled (v ::ₘ lowered)
      raised := by
  refine ⟨G.layout, G.offset, G.ratio, G.counts, G.total, ?_, G.max⟩
  rw [Multiset.foldr_cons, ← G.min]

theorem Gathered.raise (G : Gathered base h counted totalled lowered raised) (v : Int64) :
    Gathered base { h with maxValue := raiseMax v h.maxValue } counted totalled lowered
      (v ::ₘ raised) := by
  refine ⟨G.layout, G.offset, G.ratio, G.counts, G.total, G.min, ?_⟩
  rw [Multiset.foldr_cons, ← G.max]

/-- The step lemma: a recording in the trackable range makes the four updates. -/
theorem Gathered.record (K : Collected base h m) (N : base.Normalised)
    (hv : base.Recordable v) (c : Int64) :
    ∃ h', h.hdrRecordValues v c = some (true, h') ∧ Collected base h' ((v, c) ::ₘ m) := by
  obtain ⟨u, k, b, D⟩ := N.accepted.describes
  have hguard := (recordable_iff base.toBucketLayout v).mp hv
  have hidx := not_countsLen_le D hv
  obtain ⟨h₁, hadd, G₁⟩ := K.countsAdd N hv c
  rw [← K.layout] at hguard hidx hadd
  have hrec : h.hdrRecordValues v c =
      some (true, HdrHistogram.updateMinMax { h₁ with totalCount := h₁.totalCount + c } v) := by
    unfold HdrHistogram.hdrRecordValues HdrHistogram.countsIncNormalised
    simp only [hguard, hidx, if_false]
    rw [countsAdd_normalised, hadd]
    rfl
  refine ⟨_, hrec, ?_⟩
  rw [updateMinMax_eq, Collected, Multiset.map_cons]
  exact ((G₁.totalAdd v c).lower v).raise v

theorem Gathered.reject (K : Collected base h m) (hv : ¬ base.Recordable v) (c : Int64) :
    h.hdrRecordValues v c = some (false, h) :=
  hdrRecordValues_reject (by rwa [K.layout])

/-- The run lemma of recordings in the trackable range. -/
theorem Gathered.recordAll (K : Collected base h m) (N : base.Normalised) {rs : List Sample}
    (hr : ∀ r ∈ rs, base.Recordable r.1) :
    ∃ h', h.recordAll rs = some h' ∧ Collected base h' (rs + m) := by
  induction rs generalizing h m with
  | nil => exact ⟨h, rfl, by simpa using K⟩
  | cons r rs ih =>
      obtain ⟨h₁, hrec, K₁⟩ := K.record N (hr r (by simp)) r.2
      obtain ⟨h₂, hall, K₂⟩ := ih K₁ fun s hs => hr s (by simp [hs])
      refine ⟨h₂, by simp only [HdrHistogram.recordAll, hrec, hall], ?_⟩
      rwa [← Multiset.cons_coe, Multiset.cons_add, ← Multiset.add_cons]

/-- The order of the recordings does not matter. -/
theorem HdrHistogram.Normalised.recordAll_perm (N : h.Normalised) {rs ss : List Sample}
    (hp : rs.Perm ss) (hr : ∀ r ∈ rs, h.Recordable r.1) : h.recordAll rs = h.recordAll ss := by
  obtain ⟨h₁, hall₁, K₁⟩ := (collected_self h).recordAll N hr
  obtain ⟨h₂, hall₂, K₂⟩ := (collected_self h).recordAll N fun r hs => hr r (hp.mem_iff.mpr hs)
  rw [Multiset.coe_eq_coe.mpr hp] at K₁
  rw [hall₁, hall₂, K₁.eq K₂]

theorem accepting_collected (N : base.Normalised) (c : Int64) :
    Accepting (fun h => ∃ m, Collected base h m) c := by
  rintro h v ⟨m, K⟩ hv
  rw [K.layout] at hv
  obtain ⟨h', hrec, K'⟩ := K.record N hv c
  exact ⟨h', hrec, ⟨_, K'⟩, K'.layout.trans K.layout.symm⟩

end Gathered

theorem foldr_addCount_replicate (cell : Int64 → ℕ) (v : Int64) (n : ℕ) (counts : List Int64) :
    (Multiset.replicate n (v, (1 : Int64))).foldr (addCount cell) counts =
      addCount cell (v, Int64.ofNat n) counts := by
  induction n with
  | zero =>
      rw [Multiset.replicate_zero, Multiset.foldr_zero]
      refine (List.ext_getElem? fun k => ?_).symm
      simp only [addCount, List.getElem?_modify]
      cases counts[k]? <;> simp
  | succ n ih =>
      rw [Multiset.replicate_succ, Multiset.foldr_cons, ih]
      refine List.ext_getElem? fun k => ?_
      simp only [addCount, List.getElem?_modify, Int64.ofNat_add]
      cases counts[k]? with
      | none => rfl
      | some a =>
          simp only [Option.map_eq_map, Option.map_some]
          split_ifs
          · rw [Int64.add_assoc]
            rfl
          · rfl

theorem foldr_addTotal_replicate (v : Int64) (n : ℕ) (t : Int64) :
    (Multiset.replicate n (v, (1 : Int64))).foldr addTotal t = t + Int64.ofNat n := by
  induction n with
  | zero => simp
  | succ n ih =>
      rw [Multiset.replicate_succ, Multiset.foldr_cons, ih, Int64.ofNat_add, ← Int64.add_assoc]
      rfl

theorem foldr_lowerMin_replicate (v : Int64) {n : ℕ} (hn : 0 < n) (m : Int64) :
    (Multiset.replicate n v).foldr lowerMin m = lowerMin v m := by
  induction n, hn using Nat.le_induction with
  | base => simp
  | succ n _ ih =>
      rw [Multiset.replicate_succ, Multiset.foldr_cons, ih]
      unfold lowerMin
      split_ifs <;> rfl

theorem foldr_raiseMax_replicate (v : Int64) {n : ℕ} (hn : 0 < n) (m : Int64) :
    (Multiset.replicate n v).foldr raiseMax m = raiseMax v m := by
  induction n, hn using Nat.le_induction with
  | base => simp
  | succ n _ ih =>
      rw [Multiset.replicate_succ, Multiset.foldr_cons, ih]
      unfold raiseMax
      split_ifs <;> rfl

theorem foldr_bind {α β ι : Type} {f : α → β → β} [LeftCommutative f] {g : ι → α}
    {units : ι → Multiset α} (hu : ∀ x b, (units x).foldr f b = f (g x) b) (s : Multiset ι)
    (b : β) : (s.bind units).foldr f b = (s.map g).foldr f b := by
  induction s using Multiset.induction with
  | empty => rfl
  | cons x s ih =>
      rw [Multiset.cons_bind, Multiset.foldr_add, ih, hu, Multiset.map_cons, Multiset.foldr_cons]

/-- The samples that stand for recording each value `n` times, one at a time. -/
def unitSamples (n : ℕ) (values : Multiset Int64) : Multiset Sample :=
  values.bind fun x => Multiset.replicate n (x, 1)

/-- Recording values one at a time leaves behind what recording their counts does. -/
theorem Gathered.units {base h : HdrHistogram} {n : ℕ} {values : Multiset Int64} (hn : 0 < n)
    (K : Collected base h (unitSamples n values)) :
    Collected base h (values.map fun x => (x, Int64.ofNat n)) := by
  have hfst : (unitSamples n values).map Prod.fst =
      values.bind fun x => Multiset.replicate n x := by
    simp only [unitSamples, Multiset.map_bind, Multiset.map_replicate]
  have hid : (values.map fun x => (x, Int64.ofNat n)).map Prod.fst = values.map id := by
    simp
  refine ⟨K.layout, K.offset, K.ratio, ?_, ?_, ?_, ?_⟩
  · rw [K.counts, unitSamples, foldr_bind fun x b => foldr_addCount_replicate _ x n b]
  · rw [K.total, unitSamples, foldr_bind (g := fun x => (x, Int64.ofNat n))]
    exact fun x b => foldr_addTotal_replicate x n b
  · rw [K.min, hfst, hid, foldr_bind (g := id)]
    exact fun x b => foldr_lowerMin_replicate x hn b
  · rw [K.max, hfst, hid, foldr_bind (g := id)]
    exact fun x b => foldr_raiseMax_replicate x hn b

/-- The exact sum of the counts that fall into entry `n`. -/
def cellCount (cell : Int64 → ℕ) (n : ℕ) (m : Multiset Sample) : ℤ :=
  (m.map fun r => if cell r.1 = n then r.2.toInt else 0).sum

/-- The exact sum of all counts. -/
def countSum (m : Multiset Sample) : ℤ := (m.map fun r => r.2.toInt).sum

@[simp] theorem countSum_coe (rs : List Sample) : countSum rs = sumCounts rs := by
  simp [countSum, sumCounts]

@[simp] theorem countSum_zero : countSum 0 = 0 := rfl

@[simp] theorem countSum_add (m₁ m₂ : Multiset Sample) :
    countSum (m₁ + m₂) = countSum m₁ + countSum m₂ := by simp [countSum]

theorem foldr_addCount (cell : Int64 → ℕ) {counts : List Int64} {n : ℕ} {a : Int64}
    (ha : counts[n]? = some a) (m : Multiset Sample) :
    ∃ c, (m.foldr (addCount cell) counts)[n]? = some c ∧
      c.toInt ≡ a.toInt + cellCount cell n m [ZMOD 2 ^ 64] := by
  induction m using Multiset.induction with
  | empty => exact ⟨a, ha, by simp [cellCount]⟩
  | cons r m ih =>
      obtain ⟨c, hc, hmod⟩ := ih
      simp only [Multiset.foldr_cons, addCount, List.getElem?_modify, hc, cellCount,
        Multiset.map_cons, Multiset.sum_cons]
      refine ⟨_, rfl, ?_⟩
      split_ifs
      · have hsum := (toInt_add_modEq c r.2).trans (hmod.add_right r.2.toInt)
        rwa [add_assoc, add_comm (cellCount cell n m)] at hsum
      · rwa [zero_add]

theorem foldr_addTotal (t : Int64) (m : Multiset Sample) :
    (m.foldr addTotal t).toInt ≡ t.toInt + countSum m [ZMOD 2 ^ 64] := by
  induction m using Multiset.induction with
  | empty => simp
  | cons r m ih =>
      have hsum := (toInt_add_modEq (m.foldr addTotal t) r.2).trans (ih.add_right r.2.toInt)
      rw [Multiset.foldr_cons, countSum, Multiset.map_cons, Multiset.sum_cons]
      rwa [add_assoc, add_comm (countSum m)] at hsum

theorem cellCount_bounds (cell : Int64 → ℕ) (n : ℕ) {m : Multiset Sample}
    (hm : ∀ r ∈ m, 0 ≤ r.2.toInt) : 0 ≤ cellCount cell n m ∧ cellCount cell n m ≤ countSum m := by
  induction m using Multiset.induction with
  | empty => simp [cellCount]
  | cons r m ih =>
      have h0 := hm r (Multiset.mem_cons_self r m)
      have hi := ih fun s hs => hm s (Multiset.mem_cons_of_mem hs)
      simp only [cellCount, countSum, Multiset.map_cons, Multiset.sum_cons] at hi ⊢
      split_ifs <;> omega

/-- Every sample falls into exactly one entry. -/
theorem sum_cellCount (cell : Int64 → ℕ) {m : Multiset Sample} {len : ℕ}
    (hm : ∀ r ∈ m, cell r.1 < len) : ∑ n ∈ Finset.range len, cellCount cell n m = countSum m := by
  induction m using Multiset.induction with
  | empty => simp [cellCount]
  | cons r m ih =>
      have hr := hm r (Multiset.mem_cons_self r m)
      have hi := ih fun s hs => hm s (Multiset.mem_cons_of_mem hs)
      simp only [cellCount, countSum, Multiset.map_cons, Multiset.sum_cons,
        Finset.sum_add_distrib] at hi ⊢
      rw [hi, Finset.sum_ite_eq, if_pos (by simpa using hr)]

/-- Recordable samples with nonnegative counts, for which the total of `base` has room. -/
structure Fitting (base : HdrHistogram) (m : Multiset Sample) : Prop where
  recordable : ∀ r ∈ m, base.Recordable r.1
  nonneg : ∀ r ∈ m, 0 ≤ r.2.toInt
  sum_lt : base.totalCount.toInt + countSum m < 2 ^ 63

section Exact
variable {base h : HdrHistogram} {m : Multiset Sample}

theorem countSum_nonneg (hm : ∀ r ∈ m, 0 ≤ r.2.toInt) : 0 ≤ countSum m :=
  (cellCount_bounds (fun _ => 0) 0 hm).1.trans (cellCount_bounds _ _ hm).2

theorem Gathered.total_eq (K : Collected base h m) (F : Fitting base m) :
    h.totalCount.toInt = base.totalCount.toInt + countSum m := by
  have hm := foldr_addTotal base.totalCount m
  rw [← K.total] at hm
  have := countSum_nonneg F.nonneg
  have := base.totalCount.le_toInt
  exact eq_of_modEq64 hm (Int64.le_toInt _) (Int64.toInt_lt _) (by omega) F.sum_lt

theorem Fitting.left {m₁ m₂ : Multiset Sample} (F : Fitting base (m₁ + m₂)) : Fitting base m₁ where
  recordable r hr := F.recordable r (Multiset.mem_add.mpr (.inl hr))
  nonneg r hr := F.nonneg r (Multiset.mem_add.mpr (.inl hr))
  sum_lt := by
    have hsum := F.sum_lt
    have hm₂ := countSum_nonneg fun r hr => F.nonneg r (Multiset.mem_add.mpr (.inr hr))
    rw [countSum_add] at hsum
    omega

theorem Fitting.right {m₁ m₂ : Multiset Sample} (F : Fitting base (m₁ + m₂))
    (K : Collected base h m₁) : Fitting h m₂ where
  recordable r hr := by
    rw [K.layout]
    exact F.recordable r (Multiset.mem_add.mpr (.inr hr))
  nonneg r hr := F.nonneg r (Multiset.mem_add.mpr (.inr hr))
  sum_lt := by
    have hsum := F.sum_lt
    rw [countSum_add] at hsum
    rw [K.total_eq F.left]
    omega

theorem count_le_total (W : base.WellFormed) {n : ℕ} {a : Int64} (ha : base.counts[n]? = some a) :
    0 ≤ a.toInt ∧ a.toInt ≤ base.totalCount.toInt := by
  have hmem := List.mem_of_getElem? ha
  refine ⟨(nonneg_iff a).mp (W.nonneg a hmem), ?_⟩
  rw [W.total]
  refine List.single_le_sum (fun x hx => ?_) _ (List.mem_map_of_mem hmem)
  obtain ⟨c, hc, rfl⟩ := List.mem_map.mp hx
  exact (nonneg_iff c).mp (W.nonneg c hc)

theorem Gathered.count_eq (K : Collected base h m) (W : base.WellFormed) (F : Fitting base m)
    {n : ℕ} {a : Int64} (ha : base.counts[n]? = some a) :
    ∃ c, h.counts[n]? = some c ∧ c.toInt = a.toInt + cellCount base.cell n m := by
  obtain ⟨c, hc, hmod⟩ := foldr_addCount base.cell ha m
  rw [← K.counts] at hc
  have hcell := cellCount_bounds base.cell n F.nonneg
  have hle := count_le_total W ha
  have hfit := F.sum_lt
  exact ⟨c, hc, eq_of_modEq64 hmod c.le_toInt c.toInt_lt (by omega) (by omega)⟩

theorem Gathered.wellFormed (K : Collected base h m) (W : base.WellFormed)
    (F : Fitting base m) : h.WellFormed := by
  have hcount : ∀ (n : ℕ) (c : Int64), h.counts[n]? = some c →
      ∃ a, base.counts[n]? = some a ∧ c.toInt = a.toInt + cellCount base.cell n m := by
    intro n c hc
    have hn : n < base.counts.length := by
      rw [← K.length]
      exact (List.getElem?_eq_some_iff.mp hc).1
    obtain ⟨c', hc', he⟩ := K.count_eq W F (List.getElem?_eq_getElem hn)
    rw [hc, Option.some.injEq] at hc'
    exact ⟨_, List.getElem?_eq_getElem hn, hc' ▸ he⟩
  refine ⟨by rw [K.layout]; exact W.accepted, ?_, ?_, ?_⟩
  · intro i
    rw [K.normalizeIndex, K.layout]
    exact W.normalised i
  · intro c hc
    obtain ⟨n, hn⟩ := List.mem_iff_getElem?.mp hc
    obtain ⟨a, ha, he⟩ := hcount n c hn
    have h₁ := (count_le_total W ha).1
    have h₂ := (cellCount_bounds base.cell n F.nonneg).1
    rw [nonneg_iff]
    omega
  · have hsum := sum_eq_of_getElem h.counts
      (fun n => (base.counts[n]?.getD 0).toInt + cellCount base.cell n m) fun n c hc => by
        obtain ⟨a, ha, he⟩ := hcount n c hc
        rw [ha, Option.getD_some, he]
    have hbase := sum_eq_of_getElem base.counts (fun n => (base.counts[n]?.getD 0).toInt)
      fun n c hc => by rw [hc, Option.getD_some]
    rw [hsum, Finset.sum_add_distrib, K.length, ← hbase, ← W.total,
      sum_cellCount _ fun r hr => (W.toNormalised.cell (F.recordable r hr)).2, K.total_eq F]

end Exact

end HdrHistogramC
