import HdrHistogramC.Gathering

/-!
# The histogram without its offset

A normalizing offset rotates the counts array. Recordings see the array through the
rotation, so what they do to a histogram with an offset is what they do to the histogram
that holds its counts in logical order, under offset zero.
-/
namespace HdrHistogramC
open FixedWidth LogLinear BucketLayout.Describes

/-- The counts in logical order, under offset zero. -/
def HdrHistogram.withoutOffset (h : HdrHistogram) : HdrHistogram :=
  { h with
    normalizingIndexOffset := 0
    counts := h.logicalCounts
    counts_length := by rw [logicalCounts_length, h.counts_length] }

section View
variable {h g base : HdrHistogram} {m : Multiset Sample} {v : Int64}

theorem HdrHistogram.Normalised.bounds (N : h.Normalised) :
    -h.countsLen.toInt ≤ h.normalizingIndexOffset.toInt ∧
      h.normalizingIndexOffset.toInt ≤ h.countsLen.toInt := by
  obtain ⟨u, k, b, D⟩ := N.accepted.describes
  exact (normalised_iff D).mp N.inside

theorem HdrHistogram.Normalised.logicalCounts_eq (N : h.Normalised) :
    h.logicalCounts = h.counts.rotate h.rotation := by
  obtain ⟨u, k, b, D⟩ := N.accepted.describes
  exact logicalCounts_eq_rotate D N.bounds.1 N.bounds.2

theorem HdrHistogram.Normalised.logicalCounts_perm (N : h.Normalised) :
    h.logicalCounts.Perm h.counts := by
  rw [N.logicalCounts_eq]
  exact List.rotate_perm ..

theorem HdrHistogram.Normalised.congr (N : h.Normalised)
    (hlayout : g.toBucketLayout = h.toBucketLayout)
    (hoffset : g.normalizingIndexOffset = h.normalizingIndexOffset) : g.Normalised where
  accepted := by
    rw [hlayout]
    exact N.accepted
  inside i := by
    have hid : g.normalizeIndex i = h.normalizeIndex i := by
      unfold HdrHistogram.normalizeIndex
      rw [hoffset, hlayout]
    rw [hid, hlayout]
    exact N.inside i

theorem rotation_congr (hlayout : g.toBucketLayout = h.toBucketLayout)
    (hoffset : g.normalizingIndexOffset = h.normalizingIndexOffset) :
    g.rotation = h.rotation := by
  have h₁ := g.counts_length
  have h₂ := h.counts_length
  rw [hlayout] at h₁
  rw [HdrHistogram.rotation, HdrHistogram.rotation, hoffset, h₁, h₂]

theorem rotation_of_zero (hz : h.normalizingIndexOffset = 0) : h.rotation = 0 := by
  rw [HdrHistogram.rotation, hz]
  simp

theorem HdrHistogram.Normalised.withoutOffset_of_zero (N : h.Normalised)
    (hz : h.normalizingIndexOffset = 0) : h.withoutOffset = h := by
  have hcounts := N.logicalCounts_eq
  rw [rotation_of_zero hz, List.rotate_zero] at hcounts
  obtain ⟨l, minv, maxv, off, ratio, total, counts, len⟩ := h
  simp only [HdrHistogram.withoutOffset, HdrHistogram.mk.injEq, true_and]
  exact ⟨hz.symm, hcounts⟩

theorem HdrHistogram.Normalised.withoutOffset (N : h.Normalised) : h.withoutOffset.Normalised where
  accepted := N.accepted
  inside i h0 hi := by
    have hid : h.withoutOffset.normalizeIndex i = i := if_pos rfl
    rw [hid]
    exact ⟨h0, hi⟩

theorem HdrHistogram.Normalised.countsGetNormalised_eq (N : h.Normalised) {i : Int32} {n : ℕ}
    (hi : i.toInt = n) (hn : n < h.counts.length) :
    h.countsGetNormalised i = h.logicalCounts[n]? := by
  obtain ⟨u, k, b, D⟩ := N.accepted.describes
  rw [HdrHistogramC.countsGetNormalised_eq D hi hn N.bounds.1 N.bounds.2,
    N.logicalCounts_eq, List.getElem?_rotate hn]

theorem HdrHistogram.Normalised.cell_eq (N : h.Normalised) (hv : h.Recordable v) :
    h.withoutOffset.cell v < h.counts.length ∧
      h.cell v = (h.withoutOffset.cell v + h.rotation) % h.counts.length := by
  obtain ⟨u, k, b, D⟩ := N.accepted.describes
  obtain ⟨hcell, hlt⟩ := N.withoutOffset.cell (v := v) hv
  have hid : h.withoutOffset.normalizeIndex (h.withoutOffset.countsIndexFor v) =
      h.countsIndexFor v := if_pos rfl
  have hlen : h.withoutOffset.counts.length = h.counts.length := logicalCounts_length h
  rw [hid] at hcell
  rw [hlen] at hlt
  refine ⟨hlt, ?_⟩
  rw [HdrHistogram.cell, normalizeIndex_rotation D hcell hlt N.bounds.1 N.bounds.2,
    Int.toNat_natCast]

theorem HdrHistogram.Normalised.cell_zero (N : h.Normalised) (hzero : h.Recordable 0) :
    h.withoutOffset.cell 0 = 0 ∧ h.cell 0 = h.rotation % h.counts.length := by
  obtain ⟨u, k, b, D⟩ := N.accepted.describes
  have hindex : (h.countsIndexFor 0).toInt = 0 := by
    rw [D.countsIndexFor_toInt le_rfl, Int64.toInt_zero, Int.toNat_zero, index_zero]
    rfl
  have hfirst : h.withoutOffset.cell 0 = 0 := by
    have hid : h.withoutOffset.normalizeIndex (h.withoutOffset.countsIndexFor 0) =
        h.countsIndexFor 0 := if_pos rfl
    rw [HdrHistogram.cell, hid, hindex]
    rfl
  have hcell := (N.cell_eq hzero).2
  rw [hfirst, zero_add] at hcell
  exact ⟨hfirst, hcell⟩

theorem rotate_modify {α : Type} (f : α → α) {xs : List α} {j : ℕ} (hj : j < xs.length) (s : ℕ) :
    (xs.modify ((j + s) % xs.length) f).rotate s = (xs.rotate s).modify j f := by
  apply List.ext_getElem
  · simp
  · intro n hn hn'
    rw [List.length_rotate, List.length_modify] at hn
    simp only [List.getElem_rotate, List.getElem_modify, List.length_modify]
    have heq : (j + s) % xs.length = (n + s) % xs.length ↔ j = n := by
      constructor
      · intro hmod
        exact Nat.ModEq.eq_of_lt_of_lt (Nat.ModEq.add_right_cancel' s hmod) hj hn
      · rintro rfl
        rfl
    simp only [heq]

theorem length_foldr_addCount (cell : Int64 → ℕ) (counts : List Int64) (m : Multiset Sample) :
    (m.foldr (addCount cell) counts).length = counts.length := by
  induction m using Multiset.induction with
  | empty => rfl
  | cons r m ih => rw [Multiset.foldr_cons, addCount, List.length_modify, ih]

theorem rotate_foldr_addCount {cell cell' : Int64 → ℕ} {counts : List Int64} {s : ℕ}
    (hm : ∀ r ∈ m, cell' r.1 < counts.length ∧ cell r.1 = (cell' r.1 + s) % counts.length) :
    (m.foldr (addCount cell) counts).rotate s = m.foldr (addCount cell') (counts.rotate s) := by
  induction m using Multiset.induction with
  | empty => rfl
  | cons r m ih =>
      obtain ⟨hlt, hcell⟩ := hm r (Multiset.mem_cons_self r m)
      have hlen := length_foldr_addCount cell counts m
      rw [Multiset.foldr_cons, Multiset.foldr_cons,
        ← ih fun r hr => hm r (Multiset.mem_cons_of_mem hr), addCount, addCount, hcell, ← hlen]
      exact rotate_modify _ (by rwa [hlen]) s

theorem Gathered.normalised (K : Collected base h m) (N : base.Normalised) : h.Normalised :=
  N.congr K.layout K.offset

/-- Recordings commute with taking the offset away. -/
theorem Gathered.withoutOffset (K : Collected base h m) (N : base.Normalised)
    (hm : ∀ r ∈ m, base.Recordable r.1) : Collected base.withoutOffset h.withoutOffset m where
  layout := K.layout
  offset := rfl
  ratio := K.ratio
  counts := by
    change h.logicalCounts = m.foldr _ base.logicalCounts
    rw [(K.normalised N).logicalCounts_eq, N.logicalCounts_eq, rotation_congr K.layout K.offset,
      K.counts]
    exact rotate_foldr_addCount fun r hr => N.cell_eq (hm r hr)
  total := K.total
  min := K.min
  max := K.max

theorem Gathered.recordAll_filter (K : Collected base h m) (N : base.Normalised)
    (rs : List Sample) : ∃ h', h.recordAll rs = some h' ∧
      Collected base h' ((rs.filter fun r => base.Recordable r.1 : List Sample) + m) := by
  induction rs generalizing h m with
  | nil => exact ⟨h, rfl, by simpa using K⟩
  | cons r rs ih =>
      by_cases hr : base.Recordable r.1
      · obtain ⟨h₁, hrec, K₁⟩ := K.record N hr r.2
        obtain ⟨h₂, hall, K₂⟩ := ih K₁
        refine ⟨h₂, by simp only [HdrHistogram.recordAll, hrec, hall], ?_⟩
        rwa [List.filter_cons_of_pos (by simpa using hr), ← Multiset.cons_coe, Multiset.cons_add,
          ← Multiset.add_cons]
      · obtain ⟨h₂, hall, K₂⟩ := ih K
        refine ⟨h₂, by simp only [HdrHistogram.recordAll, K.reject hr r.2, hall], ?_⟩
        rwa [List.filter_cons_of_neg (by simpa using hr)]

/-- The run lemma: the histogram without its offset records alike. -/
theorem HdrHistogram.Normalised.recordAll_withoutOffset (N : h.Normalised) (rs : List Sample) :
    ∃ h₁, h.recordAll rs = some h₁ ∧ h.withoutOffset.recordAll rs = some h₁.withoutOffset ∧
      Collected h h₁ (rs.filter fun r => h.Recordable r.1 : List Sample) := by
  obtain ⟨h₁, hall, K⟩ := (collected_self h).recordAll_filter N rs
  obtain ⟨h₂, hall', K'⟩ := (collected_self h.withoutOffset).recordAll_filter N.withoutOffset rs
  rw [add_zero] at K K'
  have hview := K.withoutOffset N fun r hr => by simpa using (List.mem_filter.mp hr).2
  exact ⟨h₁, hall, hall'.trans (congrArg some (K'.eq hview)), K⟩

theorem HdrHistogram.Normalised.recordZero (N : h.Normalised) (hzero : h.Recordable 0)
    (hmax : 0 ≤ h.maxValue.toInt) (hrotation : h.rotation < h.counts.length) (c : Int64) :
    ∃ h₁, h.recordAll [(0, c)] = some h₁ ∧
      h.withoutOffset.recordAll [(0, c)] = some h₁.withoutOffset ∧
      h₁.toBucketLayout = h.toBucketLayout ∧
      h₁.normalizingIndexOffset = h.normalizingIndexOffset ∧ h₁.maxValue = h.maxValue ∧
      h₁.counts = h.counts.modify h.rotation (· + c) ∧
      h₁.logicalCounts = h.logicalCounts.modify 0 (· + c) := by
  obtain ⟨hfirst, hcell⟩ := N.cell_zero hzero
  rw [Nat.mod_eq_of_lt hrotation] at hcell
  obtain ⟨h₁, hall, hall', K⟩ := N.recordAll_withoutOffset [(0, c)]
  have hfilter : [((0 : Int64), c)].filter (fun r => h.Recordable r.1) = [(0, c)] :=
    List.filter_cons_of_pos (decide_eq_true hzero)
  rw [hfilter] at K
  have K' := K.withoutOffset N fun r hr => by
    rw [Multiset.mem_coe, List.mem_singleton] at hr
    rw [hr]
    exact hzero
  refine ⟨h₁, hall, hall', K.layout, K.offset, ?_, ?_, ?_⟩
  · rw [K.max]
    change raiseMax 0 h.maxValue = _
    rw [raiseMax, if_neg]
    rw [gt_iff_lt, Int64.lt_iff_toInt_lt, Int64.toInt_zero]
    omega
  · rw [K.counts, ← hcell]
    rfl
  · rw [← hfirst]
    exact K'.counts

end View

end HdrHistogramC
