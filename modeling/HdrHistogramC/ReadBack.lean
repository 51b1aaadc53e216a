import HdrHistogramC.OffsetView
import HdrHistogramC.RoundTrip

/-!
# What is read back

Any array is encoded up to the cell of the largest value, a negative count included, which
reads back as a run of zeros. The decoder accepts the counts whose slots fit the array, and
returns the slots in front of zeros, under the offset that was written.
-/
namespace HdrHistogramC
open FixedWidth LogLinear BucketLayout.Describes

/-- The histogram, if any, that decoding gives for the output of `hdr_encode_compressed`. -/
def reencode (z : Zlib) (stack : ℕ → UInt8) (h : HdrHistogram) : Option (Option HdrHistogram) :=
  match h.hdrEncodeCompressed z with
  | none => none
  | some (.error _) => some none
  | some (.ok compressed) => (hdrDecodeCompressed z stack compressed none).map Prod.snd

/-- An array after its first `n` counts are written and read back. -/
def readBack (n : ℕ) (cs : List Int64) : List Int64 :=
  (cs.take n).flatMap slotsOf ++
    List.replicate (cs.length - ((cs.take n).flatMap slotsOf).length) 0

structure ReadsBack (h : HdrHistogram) (n : ℕ) (g : HdrHistogram) : Prop where
  layout : g.toBucketLayout = h.toBucketLayout
  offset : g.normalizingIndexOffset = h.normalizingIndexOffset
  counts : g.counts = readBack n h.counts

/-- The counts that `hdr_count_at_index` reads are equal. -/
def SameCounts (g g' : HdrHistogram) : Prop :=
  g.countsLen = g'.countsLen ∧
    ∀ i, 0 ≤ i → i < g.countsLen → g.hdrCountAtIndex i = g'.hdrCountAtIndex i

section Reencode
variable {z : Zlib} {stack : ℕ → UInt8} {h g : HdrHistogram} {n k : ℕ}

theorem Encodable.reencode_fit (E : Encodable h n) (Z : z.RoundTrips) (stack : ℕ → UInt8)
    (F : SlotsFit h.counts.length (h.counts.take n)) :
    ∃ g, reencode z stack h = some (some g) ∧ ReadsBack h n g := by
  obtain ⟨data, hdata, henc⟩ := hdrEncodeCompressed_eq Z E
  obtain ⟨g₁, S, hdec⟩ := E.decode_fit Z stack F hdata
    (show ([] : List UInt8).length < 3 by simp)
  have hall := hdrDecodeCompressed_compressedBytes (z := z) stack data [] none
  rw [hdec, List.append_nil] at hall
  refine ⟨HdrHistogram.hdrResetInternalCounters { g₁ with
    normalizingIndexOffset := h.normalizingIndexOffset
    conversionRatio := h.conversionRatio }, ?_, ⟨S.layout, rfl, S.counts⟩⟩
  simp only [reencode, henc, hall, Option.bind_some, handOver, Option.map_some]

theorem Encodable.reencode_unfit (E : Encodable h n) (Z : z.RoundTrips) (stack : ℕ → UInt8)
    (F : ¬ SlotsFit h.counts.length (h.counts.take n)) : reencode z stack h = some none := by
  obtain ⟨data, hdata, henc⟩ := hdrEncodeCompressed_eq Z E
  obtain ⟨rc, hdec⟩ := E.decode_unfit Z stack F hdata
    (show ([] : List UInt8).length < 3 by simp)
  have hall := hdrDecodeCompressed_compressedBytes (z := z) stack data [] none
  rw [hdec, List.append_nil] at hall
  simp only [reencode, henc, hall, Option.bind_some, handOver, Option.map_some]

theorem Encodable.reencode_some (E : Encodable h n) (Z : z.RoundTrips) (stack : ℕ → UInt8) :
    ∃ g, reencode z stack h = some g := by
  by_cases F : SlotsFit h.counts.length (h.counts.take n)
  · obtain ⟨g, hg, -⟩ := E.reencode_fit Z stack F
    exact ⟨_, hg⟩
  · exact ⟨_, E.reencode_unfit Z stack F⟩

theorem Encodable.withoutOffset (E : Encodable h n) : Encodable h.withoutOffset n where
  accepted := E.accepted
  limit := E.limit
  pos := E.pos
  le := by
    have hle := E.le
    rwa [← logicalCounts_length h] at hle

theorem ReadsBack.hdrCountAtIndex (B : ReadsBack h n g) (N : h.Normalised) {i : Int32}
    (hi : i.toInt = k) (hk : k < h.counts.length) :
    g.hdrCountAtIndex i = (readBack n h.counts)[(k + h.rotation) % h.counts.length]? := by
  have hlen : g.counts.length = h.counts.length := by
    have h₁ := g.counts_length
    have h₂ := h.counts_length
    rw [B.layout] at h₁
    omega
  have N' := N.congr B.layout B.offset
  rw [HdrHistogram.hdrCountAtIndex, N'.countsGetNormalised_eq hi (by omega), N'.logicalCounts_eq,
    List.getElem?_rotate (by omega), hlen, rotation_congr B.layout B.offset, B.counts]

/-- Both histograms are read back with the same counts when the arrays that are read back
differ by the rotation. -/
theorem ReadsBack.sameCounts_iff {g' : HdrHistogram} (N : h.Normalised) (B : ReadsBack h n g)
    (B' : ReadsBack h.withoutOffset n g') : SameCounts g g' ↔ ∀ k < h.counts.length,
      (readBack n h.counts)[(k + h.rotation) % h.counts.length]? =
        (readBack n h.logicalCounts)[k]? := by
  have hlen := h.counts_length
  have hlen' : h.withoutOffset.counts.length = h.counts.length := logicalCounts_length h
  have hat : ∀ {i : Int32} {k : ℕ}, i.toInt = k → k < h.counts.length →
      g.hdrCountAtIndex i = (readBack n h.counts)[(k + h.rotation) % h.counts.length]? ∧
        g'.hdrCountAtIndex i = (readBack n h.logicalCounts)[k]? := by
    intro i k hi hk
    refine ⟨B.hdrCountAtIndex N hi hk, ?_⟩
    rw [B'.hdrCountAtIndex N.withoutOffset hi (by omega), rotation_of_zero rfl, Nat.add_zero,
      Nat.mod_eq_of_lt (by omega)]
    rfl
  constructor
  · rintro ⟨-, hsame⟩ k hk
    have hcast := ofNat_index N.accepted hk.le
    obtain ⟨h₁, h₂⟩ := hat hcast hk
    rw [← h₁, ← h₂]
    refine hsame _ ?_ ?_
    · rw [Int32.le_iff_toInt_le, hcast, Int32.toInt_zero]
      omega
    · rw [Int32.lt_iff_toInt_lt, hcast, B.layout]
      omega
  · intro hback
    refine ⟨by rw [B.layout, B'.layout]; rfl, fun i h0 hi => ?_⟩
    rw [Int32.le_iff_toInt_le, Int32.toInt_zero] at h0
    rw [Int32.lt_iff_toInt_lt, B.layout] at hi
    obtain ⟨k, hk⟩ := Int.eq_ofNat_of_zero_le h0
    obtain ⟨h₁, h₂⟩ := hat hk (by omega)
    rw [h₁, h₂, hback k (by omega)]

end Reencode

def clamp (c : Int64) : Int64 := if c < 0 then 0 else c

theorem SlotsFit.perm {len : ℕ} {cs ds : List Int64} (F : SlotsFit len cs) (hp : cs.Perm ds) :
    SlotsFit len ds where
  min_lt c hc := F.min_lt c (hp.mem_iff.mpr hc)
  length := by
    rw [← (hp.flatMap_right slotsOf).length_eq]
    exact F.length

theorem slotsOf_pos {c : Int64} (hc : Int32.minValue.toInt64 < c) : 1 ≤ (slotsOf c).length := by
  have hfit : Int32.minValue.toInt64 < c ∧ 0 + (slotsOf c).length ≤ (slotsOf c).length :=
    ⟨hc, by omega⟩
  exact (accepted_iff.mpr hfit).1

theorem length_le_flatMap_slotsOf {cs : List Int64} (hc : ∀ c ∈ cs, Int32.minValue.toInt64 < c) :
    cs.length ≤ (cs.flatMap slotsOf).length := by
  induction cs with
  | nil => rfl
  | cons c cs ih =>
      rw [List.forall_mem_cons] at hc
      have hpos := slotsOf_pos hc.1
      have hrest := ih hc.2
      rw [List.flatMap_cons, List.length_append, List.length_cons]
      omega

/-- Counts that fit an array of their own length fill one slot each. -/
theorem SlotsFit.flatMap_eq {cs : List Int64} (F : SlotsFit cs.length cs) :
    cs.flatMap slotsOf = cs.map clamp := by
  induction cs with
  | nil => rfl
  | cons c cs ih =>
      obtain ⟨hmin, hlen⟩ := F
      rw [List.forall_mem_cons] at hmin
      have hpos := slotsOf_pos hmin.1
      have hrest := length_le_flatMap_slotsOf hmin.2
      rw [List.flatMap_cons, List.length_append, List.length_cons] at hlen
      have hone : slotsOf c = [clamp c] := by
        have hlength : (slotsOf c).length = 1 := by omega
        unfold slotsOf clamp at *
        split_ifs at hlength ⊢ with hc
        · rw [List.length_replicate] at hlength
          rw [hlength]
          rfl
        · rfl
      rw [List.flatMap_cons, hone, ih ⟨hmin.2, by omega⟩]
      rfl

theorem readBack_full {cs : List Int64} (F : SlotsFit cs.length cs) :
    readBack cs.length cs = cs.map clamp := by
  rw [readBack, List.take_length, F.flatMap_eq, List.length_map, Nat.sub_self,
    List.replicate_zero, List.append_nil]

section Gap
variable {cs : List Int64} {k M q : ℕ}

/-- The count `-2` takes two slots, so the counts behind it are read back one index later. -/
theorem flatMap_slotsOf_gap (h0 : ∀ c ∈ cs, 0 ≤ c) (hk : k ≤ M) (hM : M + 1 < cs.length) :
    ((cs.set k (-2)).take (M + 1)).flatMap slotsOf =
      cs.take k ++ 0 :: 0 :: (cs.take (M + 1)).drop (k + 1) := by
  have htake : ((cs.take (M + 1)).take k) = cs.take k := by
    rw [List.take_take, min_eq_left (by omega)]
  have hgap : slotsOf (-2) = [0, 0] := by decide +kernel
  rw [List.take_set, List.set_eq_take_append_cons_drop, if_pos (by rw [List.length_take]; omega),
    htake, List.flatMap_append, List.flatMap_cons, hgap,
    flatMap_slotsOf_of_nonneg fun c hc => h0 c (List.mem_of_mem_take hc),
    flatMap_slotsOf_of_nonneg fun c hc => h0 c (List.mem_of_mem_take (List.mem_of_mem_drop hc))]
  rfl

theorem slotsFit_gap (h0 : ∀ c ∈ cs, 0 ≤ c) (hk : k ≤ M) (hM : M + 1 < cs.length) :
    SlotsFit cs.length ((cs.set k (-2)).take (M + 1)) where
  min_lt c hc := by
    rcases List.mem_or_eq_of_mem_set (List.mem_of_mem_take hc) with hc | rfl
    · exact min_lt_of_nonneg (h0 c hc)
    · decide
  length := by
    rw [flatMap_slotsOf_gap h0 hk hM]
    simp only [List.length_append, List.length_cons, List.length_take, List.length_drop]
    omega

theorem readBack_gap (h0 : ∀ c ∈ cs, 0 ≤ c) (hk : k ≤ M) (hM : M + 1 < cs.length) :
    (q < k → (readBack (M + 1) (cs.set k (-2)))[q]? = cs[q]?) ∧
    (k + 2 ≤ q → q ≤ M + 1 → (readBack (M + 1) (cs.set k (-2)))[q]? = cs[q - 1]?) ∧
    (M + 2 ≤ q → q < cs.length → (readBack (M + 1) (cs.set k (-2)))[q]? = some 0) := by
  have hlen : (cs.take k ++ 0 :: 0 :: (cs.take (M + 1)).drop (k + 1)).length = M + 2 := by
    simp only [List.length_append, List.length_cons, List.length_take, List.length_drop]
    omega
  have hk' : (cs.take k).length = k := List.length_take_of_le (by omega)
  rw [readBack, flatMap_slotsOf_gap h0 hk hM, List.length_set, hlen]
  refine ⟨fun hq => ?_, fun hq hqM => ?_, fun hq hqlen => ?_⟩
  · rw [List.getElem?_append_left (by omega), List.getElem?_append_left (by omega),
      List.getElem?_take_of_lt hq]
  · obtain ⟨d, rfl⟩ := Nat.exists_eq_add_of_le hq
    rw [List.getElem?_append_left (by omega), List.getElem?_append_right (by omega), hk',
      show k + 2 + d - k = d + 1 + 1 by omega, List.getElem?_cons_succ, List.getElem?_cons_succ,
      List.getElem?_drop, List.getElem?_take_of_lt (by omega)]
    congr 1
    omega
  · rw [List.getElem?_append_right (by omega), hlen, List.getElem?_replicate, if_pos (by omega)]

end Gap

end HdrHistogramC
