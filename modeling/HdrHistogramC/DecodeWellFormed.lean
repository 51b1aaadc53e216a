import HdrHistogramC.DecodeBounds

/-!
# What the decoders accept

The layout of a decoded histogram is always a derived one. Its normalizing offset and
its counts come from the buffer unchecked, so the histogram is well formed exactly when
the offset is at most the length of the array and the counts, read as unsigned words,
add up to less than `2^63`.
-/
namespace HdrHistogramC
open FixedWidth BoundedLoop BigEndian BucketLayout.Describes

def unsignedSum (cs : List Int64) : ℕ := (cs.map fun c => c.toUInt64.toNat).sum

@[simp] theorem unsignedSum_cons (c : Int64) (cs : List Int64) :
    unsignedSum (c :: cs) = c.toUInt64.toNat + unsignedSum cs := rfl

theorem unsignedSum_append (cs ds : List Int64) :
    unsignedSum (cs ++ ds) = unsignedSum cs + unsignedSum ds := by
  rw [unsignedSum, List.map_append, List.sum_append, unsignedSum, unsignedSum]

theorem unsignedSum_eq_zero {cs : List Int64} (hz : ∀ c ∈ cs, c = 0) : unsignedSum cs = 0 := by
  induction cs with
  | nil => rfl
  | cons c cs ih =>
      rw [unsignedSum_cons, hz c (by simp), ih fun d hd => hz d (by simp [hd])]
      rfl

theorem toUInt64_toNat (c : Int64) : (c.toUInt64.toNat : ℤ) = c.toInt % 2 ^ 64 := by
  have h := BitVec.toInt_eq_toNat_cond c.toBitVec
  have hlt := c.toBitVec.isLt
  change c.toInt = _ at h
  change (c.toBitVec.toNat : ℤ) = _
  split at h <;> omega

theorem unsignedSum_lt_iff (cs : List Int64) : unsignedSum cs < 2 ^ 63 ↔
    (∀ c ∈ cs, 0 ≤ c) ∧ (cs.map Int64.toInt).sum < 2 ^ 63 := by
  have hexact : ∀ cs : List Int64, (∀ c ∈ cs, 0 ≤ c) →
      (unsignedSum cs : ℤ) = (cs.map Int64.toInt).sum := by
    intro cs hcs
    induction cs with
    | nil => rfl
    | cons c cs ih =>
        have h0 := (nonneg_iff c).mp (hcs c (by simp))
        have hlt := c.toInt_lt
        rw [unsignedSum_cons, List.map_cons, List.sum_cons, Nat.cast_add,
          ih fun d hd => hcs d (by simp [hd]), toUInt64_toNat]
        omega
  have hnonneg : ∀ cs : List Int64, unsignedSum cs < 2 ^ 63 → ∀ c ∈ cs, 0 ≤ c := by
    intro cs hlt c hc
    have hle : c.toUInt64.toNat ≤ unsignedSum cs :=
      List.single_le_sum (fun _ _ => Nat.zero_le _) _ (List.mem_map_of_mem hc)
    have hval := toUInt64_toNat c
    have hlow := c.le_toInt
    rw [nonneg_iff]
    omega
  constructor
  · intro hlt
    have hcs := hnonneg cs hlt
    have := hexact cs hcs
    exact ⟨hcs, by omega⟩
  · rintro ⟨hcs, hlt⟩
    have := hexact cs hcs
    omega

theorem wellFormed_iff {h : HdrHistogram} (ok : h.Accepted)
    (ht : h.totalCount = h.hdrResetInternalCounters.totalCount) :
    h.WellFormed ↔ -(h.counts.length : ℤ) ≤ h.normalizingIndexOffset.toInt ∧
      h.normalizingIndexOffset.toInt ≤ h.counts.length ∧ unsignedSum h.counts < 2 ^ 63 := by
  obtain ⟨u, m, b, D⟩ := ok.describes
  rw [h.counts_length, unsignedSum_lt_iff]
  constructor
  · intro W
    obtain ⟨h₁, h₂⟩ := (normalised_iff D).mp W.normalised
    exact ⟨h₁, h₂, W.nonneg, by rw [← W.total]; exact Int64.toInt_lt _⟩
  · rintro ⟨h₁, h₂, hcs, hlt⟩
    have F := (found_counts D).total
    rw [sum_filter_pos hcs] at F
    refine ⟨ok, (normalised_iff D).mpr ⟨h₁, h₂⟩, hcs, ?_⟩
    have h0 : 0 ≤ (h.counts.map Int64.toInt).sum := by
      apply List.sum_nonneg
      intro x hx
      obtain ⟨c, hc, rfl⟩ := List.mem_map.mp hx
      exact (nonneg_iff c).mp (hcs c hc)
    rw [ht]
    exact eq_of_modEq64 F (Int64.le_toInt _) (Int64.toInt_lt _) (by omega) hlt

/-- The nonnegative ones of some integers. -/
def countsOf (vs : List Int64) : List ℕ := (vs.filter (0 ≤ ·)).map fun v => v.toUInt64.toNat

/-- The counts of a payload for an array of `len`: all its words, or those integers that
the loop consumes before the payload or the array ends or a run of zeros is refused. -/
inductive Carries (len : ℕ) (limit : Int32) (payload : List UInt8) : UInt32 → List ℕ → Prop
  | words {wordSize : UInt32} : wordSize = 2 ∨ wordSize = 4 ∨ wordSize = 8 →
      Carries len limit payload wordSize ((List.range limit.toInt.toNat).map fun i =>
        ofBytes (field payload (i * wordSize.toNat) wordSize.toNat))
  | integers {ts : List Token} {tail : List UInt8} {j : ℕ} :
      payload = Token.flat ts ++ tail → ((Token.flat ts).length : ℤ) ≤ limit.toInt →
      advance len 0 (ts.map Token.value) = some j →
      ((Token.flat ts).length : ℤ) = limit.toInt ∨ len ≤ j ∨
        (∃ k v, zigZagDecodeI64 tail = some (k, v) ∧ v < 0 ∧ BadZeros len j v) →
      Carries len limit payload 1 (countsOf (ts.map Token.value))
  | nothing {wordSize : UInt32} : wordSize ≠ 1 → wordSize ≠ 2 → wordSize ≠ 4 → wordSize ≠ 8 →
      Carries len limit payload wordSize []

/-- The layout is kept and the stored counts add up to `total`. -/
structure StoresSum (h : HdrHistogram) (total : ℕ) (h' : HdrHistogram) : Prop where
  layout : h'.toBucketLayout = h.toBucketLayout
  sum : unsignedSum h'.counts = total

theorem unsignedSum_set {cs : List Int64} {i : ℕ} (hi : i < cs.length)
    (hz : ∀ c ∈ cs.drop i, c = 0) (v : Int64) :
    unsignedSum (cs.set i v) = unsignedSum cs + v.toUInt64.toNat := by
  have hdrop := List.drop_eq_getElem_cons hi
  have hzero : unsignedSum (cs.drop i) = 0 := unsignedSum_eq_zero hz
  have hzero' : unsignedSum (cs.drop (i + 1)) = 0 :=
    unsignedSum_eq_zero fun c hc => hz c (by rw [hdrop]; exact List.mem_cons_of_mem _ hc)
  have hsplit : unsignedSum cs = unsignedSum (cs.take i) := by
    conv_lhs => rw [← List.take_append_drop i cs]
    rw [unsignedSum_append, hzero, Nat.add_zero]
  rw [List.set_eq_take_append_cons_drop, if_pos hi, unsignedSum_append, unsignedSum_cons, hzero',
    hsplit]
  rfl

theorem drop_of_le {cs : List Int64} {i j : ℕ} (hij : i ≤ j) (hz : ∀ c ∈ cs.drop i, c = 0) :
    ∀ c ∈ cs.drop j, c = 0 := by
  intro c hc
  apply hz
  rw [show j = i + (j - i) by omega, ← List.drop_drop] at hc
  exact List.mem_of_mem_drop hc

theorem unsignedSum_store {len : ℕ} : ∀ (vs : List Int64) (cs : List Int64) (i j : ℕ),
    cs.length = len → (∀ c ∈ cs.drop i, c = 0) → advance len i vs = some j →
    unsignedSum (store cs i vs) = unsignedSum cs + (countsOf vs).sum := by
  intro vs
  induction vs with
  | nil => intro cs i j _ _ _; rfl
  | cons v vs ih =>
      intro cs i j hlen hz hadv
      obtain ⟨hi, -, hadv'⟩ := advance_cons.mp hadv
      rw [store]
      by_cases hv : v < 0
      · have hneg : ¬ 0 ≤ v := by rw [Int64.not_le]; exact hv
        rw [if_pos hv] at hadv' ⊢
        rw [ih cs _ j hlen (drop_of_le (by omega) hz) hadv', countsOf, countsOf,
          List.filter_cons_of_neg (by simpa using hneg)]
      · have hpos : 0 ≤ v := by rw [← Int64.not_lt]; exact hv
        rw [if_neg hv] at hadv' ⊢
        have hz' : ∀ c ∈ (cs.set i v).drop (i + 1), c = 0 := by
          rw [List.drop_set_of_lt (by omega)]
          exact drop_of_le (by omega) hz
        rw [ih _ _ j (by rw [List.length_set]; exact hlen) hz' hadv',
          unsignedSum_set (by omega) hz, countsOf, countsOf,
          List.filter_cons_of_pos (by simpa using hpos), List.map_cons, List.sum_cons]
        omega

theorem field_length {bytes : List UInt8} {offset size : ℕ} (h : offset + size ≤ bytes.length) :
    (field bytes offset size).length = size := by
  rw [field, List.length_take, List.length_drop]
  omega

theorem applyWords_sum {h h' : HdrHistogram} {size n : ℕ} {word : List UInt8 → Int64}
    {data : List UInt8} (hz : ∀ c ∈ h.counts, c = 0) (hdata : data.length = n * size)
    (hword : ∀ bytes, bytes.length = size → (word bytes).toUInt64.toNat = ofBytes bytes)
    (happ : HdrHistogram.applyWords size word data n 0 h = some h') :
    StoresSum h ((List.range n).map fun i => ofBytes (field data (i * size) size)).sum h' := by
  have hn : n ≤ h.counts.length := by
    by_contra hlt
    rw [(applyWords_eq_none_iff hdata.ge).mpr (by omega)] at happ
    cases happ
  obtain ⟨g, hg, S⟩ := applyWords_eq size word data n 0 h
    (by omega) (by rw [Nat.zero_add]; exact hdata.ge)
  rw [happ] at hg
  cases hg
  refine ⟨S.layout, ?_⟩
  rw [S.counts, List.take_zero, List.nil_append, unsignedSum_append,
    unsignedSum_eq_zero fun c hc => hz c (List.mem_of_mem_drop hc), Nat.add_zero, unsignedSum,
    List.map_map]
  congr 1
  apply List.map_congr_left
  intro i hi
  have hi := List.mem_range.mp hi
  simp only [Function.comp_apply, Nat.zero_add]
  apply hword
  apply field_length
  calc i * size + size = (i + 1) * size := by ring
    _ ≤ n * size := Nat.mul_le_mul_right _ hi
    _ = data.length := hdata.symm

theorem be16toh_toNat {bytes : List UInt8} (h : bytes.length = 2) :
    (be16toh bytes).toUInt64.toInt64.toUInt64.toNat = ofBytes bytes := by
  have hlt := ofBytes_lt bytes
  rw [h] at hlt
  change (UInt16.ofNat (ofBytes bytes)).toNat = _
  rw [UInt16.toNat_ofNat']
  exact Nat.mod_eq_of_lt hlt

theorem be32toh_toNat {bytes : List UInt8} (h : bytes.length = 4) :
    (be32toh bytes).toUInt64.toInt64.toUInt64.toNat = ofBytes bytes := by
  have hlt := ofBytes_lt bytes
  rw [h] at hlt
  change (UInt32.ofNat (ofBytes bytes)).toNat = _
  rw [UInt32.toNat_ofNat']
  exact Nat.mod_eq_of_lt hlt

theorem be64toh_toNat {bytes : List UInt8} (h : bytes.length = 8) :
    (be64toh bytes).toInt64.toUInt64.toNat = ofBytes bytes := by
  have hlt := ofBytes_lt bytes
  rw [h] at hlt
  change (UInt64.ofNat (ofBytes bytes)).toNat = _
  rw [UInt64.toNat_ofNat']
  exact Nat.mod_eq_of_lt hlt

/-- What is stored from an accepted payload adds up to the counts that it carries. -/
theorem Carries.stores {h : HdrHistogram} {len : ℕ} {limit : Int32} {payload : List UInt8}
    {wordSize : UInt32} {counts : List ℕ} {r : Int32 × HdrHistogram}
    (C : Carries len limit payload wordSize counts) (hl : h.countsLen.toInt = len)
    (hz : ∀ c ∈ h.counts, c = 0)
    (hlen : wordSize ≠ 1 → payload.length = limit.toInt.toNat * wordSize.toNat)
    (happ : h.applyToCounts wordSize payload limit = some r) :
    StoresSum h counts.sum r.2 := by
  unfold HdrHistogram.applyToCounts at happ
  cases C with
  | words hw =>
      rcases hw with rfl | rfl | rfl
      · obtain ⟨g, hg, rfl⟩ := Option.map_eq_some_iff.mp happ
        exact applyWords_sum hz (hlen (by decide)) (fun _ => be16toh_toNat) hg
      · obtain ⟨g, hg, rfl⟩ := Option.map_eq_some_iff.mp happ
        exact applyWords_sum hz (hlen (by decide)) (fun _ => be32toh_toNat) hg
      · obtain ⟨g, hg, rfl⟩ := Option.map_eq_some_iff.mp happ
        exact applyWords_sum hz (hlen (by decide)) (fun _ => be64toh_toNat) hg
  | @integers ts tail j hdata hlim hadv hend =>
      have hcounts := h.counts_length
      subst hdata
      change HdrHistogram.applyToCountsZz h _ limit = some r at happ
      obtain ⟨h', fuel, hrun, S, hl'⟩ := applyToCountsZz_flat tail hl hlim hadv
      rw [hrun] at happ
      have hr : r.2 = h' := by
        by_cases hstop : limit.toInt ≤ (Token.flat ts).length ∨ len ≤ j
        · rw [run_leave (zzBody_stop hl' hstop)] at happ
          cases happ
          rfl
        · rcases hend with hd | hj | ⟨k, v, hdec, hv, hbad⟩
          · omega
          · omega
          · rw [run_leave (zzBody_bad hl' (by omega) (by omega)
              (by rw [List.drop_left]; exact hdec) hv hbad)] at happ
            cases happ
            rfl
      rw [hr]
      refine ⟨S.layout, ?_⟩
      rw [S.counts, unsignedSum_store _ _ 0 j (by omega)
        (fun c hc => hz c (List.mem_of_mem_drop hc)) hadv, unsignedSum_eq_zero hz, Nat.zero_add]
  | nothing h1 h2 h4 h8 =>
      rw [if_neg h2, if_neg h4, if_neg h8, if_neg h1] at happ
      cases happ
      exact ⟨rfl, unsignedSum_eq_zero hz⟩

/-- Every payload that the loops get through carries some counts. -/
theorem exists_carries {h : HdrHistogram} {len : ℕ} {limit : Int32} {payload : List UInt8}
    {wordSize : UInt32} {r : Int32 × HdrHistogram} (hl : h.countsLen.toInt = len)
    (happ : h.applyToCounts wordSize payload limit = some r)
    (hend : wordSize = 1 → r.1 = 0 ∨ (payload.length : ℤ) = limit.toInt) :
    ∃ counts, Carries len limit payload wordSize counts := by
  by_cases hw : wordSize = 2 ∨ wordSize = 4 ∨ wordSize = 8
  · exact ⟨_, .words hw⟩
  by_cases h1 : wordSize = 1
  · subst h1
    change HdrHistogram.applyToCountsZz h payload limit = some r at happ
    obtain ⟨ts, j, h', hdata, hadv, -, E⟩ :=
      applyToCountsZz_cases hl payload limit
    have hle : (Token.flat ts).length ≤ payload.length := by
      rw [hdata, List.length_append]
      omega
    rw [happ] at E
    cases E with
    | bad k v hd hj hdec hv hbad =>
        exact ⟨_, .integers hdata hd.le hadv (.inr (.inr ⟨k, v, hdec, hv, hbad⟩))⟩
    | stop hstop =>
        have hlim : ((Token.flat ts).length : ℤ) ≤ limit.toInt := by
          rcases hend rfl with hcode | hfull
          · by_contra hgt
            rw [zzCode, if_pos (by omega)] at hcode
            exact absurd hcode (show ¬ HDR_VALUE_TRUNCATED = 0 by decide)
          · omega
        exact ⟨_, .integers hdata hlim hadv (by omega)⟩
  · simp only [not_or] at hw
    exact ⟨_, .nothing h1 hw.1 hw.2.1 hw.2.2⟩

section Accepted
variable {z : Zlib} {stack : ℕ → UInt8} {buffer : List UInt8}

/-- What a buffer holds: the length of the array that its header describes, the
normalizing offset, and the counts of its payload. -/
inductive Holds (z : Zlib) (stack : ℕ → UInt8) (buffer : List UInt8) :
    ℕ → Int32 → List ℕ → Prop
  | v0 {fly strm h payload counts} :
      getCookieBase (CompressionFlyweight.read buffer).cookie = V0_COMPRESSION_COOKIE →
      OpensV0 z stack buffer fly strm h → PayloadV0 z strm fly h payload →
      Carries h.counts.length h.countsLen payload (wordSizeFromCookie fly.cookie) counts →
      Holds z stack buffer h.counts.length 0 counts
  | v1 {fly strm h payload counts} :
      getCookieBase (CompressionFlyweight.read buffer).cookie = V1_COMPRESSION_COOKIE →
      OpensV1 z stack buffer V1_ENCODING_COOKIE fly strm h → PayloadV1 z strm fly payload →
      Carries h.counts.length (fly.payloadLen / wordSizeFromCookie fly.cookie).toInt32 payload
        (wordSizeFromCookie fly.cookie) counts →
      Holds z stack buffer h.counts.length fly.normalizingIndexOffset counts
  | v2 {fly strm h payload counts} :
      getCookieBase (CompressionFlyweight.read buffer).cookie = V2_COMPRESSION_COOKIE →
      OpensV1 z stack buffer V2_ENCODING_COOKIE fly strm h → PayloadV2 z strm fly payload →
      Carries h.counts.length fly.payloadLen.toInt32 payload 1 counts →
      Holds z stack buffer h.counts.length fly.normalizingIndexOffset counts

theorem counts_hdrInit {lowest highest : Int64} {figures : Int32} {h : HdrHistogram}
    (hi : hdrInit lowest highest figures = some (.ok h)) : ∀ c ∈ h.counts, c = 0 := by
  intro c hc
  obtain ⟨n, hn⟩ := List.mem_iff_getElem?.mp hc
  have hcount := (represents_hdrInit hi).count_eq ⟨by simp, by simp [sumCounts]⟩ hn
  rw [← Int64.toInt_inj, hcount]
  rfl

/-- The histogram that a decoder hands over, against what the buffer holds. -/
structure Decoded (h : HdrHistogram) (len : ℕ) (offset : Int32) (counts : List ℕ) : Prop where
  accepted : h.Accepted
  total : h.totalCount = h.hdrResetInternalCounters.totalCount
  length : h.counts.length = len
  offset_eq : h.normalizingIndexOffset = offset
  sum : unsignedSum h.counts = counts.sum

theorem StoresSum.decoded {h h' : HdrHistogram} {counts : List ℕ} {offset : Int32}
    {ratio : UInt64} (S : StoresSum h counts.sum h') (ok : h.Accepted) :
    Decoded (HdrHistogram.hdrResetInternalCounters { h' with
      normalizingIndexOffset := offset
      conversionRatio := ratio }) h.counts.length offset counts where
  accepted := by
    change h'.Accepted
    rw [S.layout]
    exact ok
  total := rfl
  length := by
    have h₁ := h.counts_length
    have h₂ := h'.counts_length
    rw [S.layout] at h₂
    change h'.counts.length = _
    omega
  offset_eq := rfl
  sum := S.sum

theorem decode_cases {h : HdrHistogram}
    (hd : hdrDecodeCompressed z stack buffer none = some (0, some h)) :
    (getCookieBase (CompressionFlyweight.read buffer).cookie = V0_COMPRESSION_COOKIE ∧
      hdrDecodeCompressedV0 z stack buffer = some (.ok h)) ∨
    (getCookieBase (CompressionFlyweight.read buffer).cookie = V1_COMPRESSION_COOKIE ∧
      hdrDecodeCompressedV1 z stack buffer = some (.ok h)) ∨
    (getCookieBase (CompressionFlyweight.read buffer).cookie = V2_COMPRESSION_COOKIE ∧
      hdrDecodeCompressedV2 z stack buffer = some (.ok h)) := by
  have hok : ∀ r : Option (Except Int32 HdrHistogram),
      r.bind (handOver none) = some (0, some h) → r = some (.ok h) := by
    intro r hr
    obtain ⟨decoded, rfl, hover⟩ := Option.bind_eq_some_iff.mp hr
    cases decoded with
    | error e => simp [handOver] at hover
    | ok g =>
        simp only [handOver, Option.some.injEq, Prod.mk.injEq, true_and] at hover
        rw [hover]
  unfold hdrDecodeCompressed at hd
  dsimp only at hd
  split_ifs at hd with hlen h0 h1 h2
  · simp at hd
  · exact .inl ⟨h0.symm, hok _ hd⟩
  · exact .inr (.inl ⟨h1.symm, hok _ hd⟩)
  · exact .inr (.inr ⟨h2.symm, hok _ hd⟩)
  · simp at hd

/-- Accepting a buffer is reading what it holds. -/
theorem exists_holds {h : HdrHistogram}
    (hd : hdrDecodeCompressed z stack buffer none = some (0, some h)) :
    ∃ len offset counts, Holds z stack buffer len offset counts := by
  rcases decode_cases hd with ⟨hc, hv⟩ | ⟨hc, hv⟩ | ⟨hc, hv⟩
  · have hok : ∀ e, hdrDecodeCompressedV0 z stack buffer ≠ some (.error e) := by simp [hv]
    obtain ⟨fly, strm, g, payload, O, P⟩ := exists_payloadV0 hok
    rw [O.decode_eq P] at hv
    obtain ⟨r, hr, -⟩ := Option.map_eq_some_iff.mp hv
    obtain ⟨u, m, b, D⟩ := (represents_hdrInit O.init).accepted.describes
    have hlen := payloadV0_length D.countsLen_toInt D.countsLen_lt (wordSizeFromCookie_lt _) P
    have hl := g.counts_length
    obtain ⟨counts, C⟩ := exists_carries hl.symm hr fun hw => .inr (by
      rw [hlen, hw]
      change ((g.countsLen.toInt.toNat * 1 : ℕ) : ℤ) = _
      omega)
    exact ⟨_, _, counts, .v0 hc O P C⟩
  · have hok : ∀ e, hdrDecodeCompressedV1 z stack buffer ≠ some (.error e) := by simp [hv]
    obtain ⟨fly, strm, g, payload, O, P⟩ := exists_payloadV1 hok
    rw [O.decodeV1_eq P] at hv
    obtain ⟨r, hr, -⟩ := Option.map_eq_some_iff.mp hv
    obtain ⟨h0, hlen⟩ := payloadV1_length P.1 (wordSizeFromCookie_lt _) P.2
    obtain ⟨counts, C⟩ := exists_carries g.counts_length.symm hr fun hw => .inr (by
      rw [hw] at h0 hlen ⊢
      rw [hlen]
      change (((fly.payloadLen / 1).toInt32.toInt.toNat * 1 : ℕ) : ℤ) = _
      omega)
    exact ⟨_, _, counts, .v1 hc O P C⟩
  · have hok : ∀ e, hdrDecodeCompressedV2 z stack buffer ≠ some (.error e) := by simp [hv]
    obtain ⟨fly, strm, g, O⟩ := exists_opensV1_of_decodeV2 hok
    obtain ⟨payload, P⟩ : ∃ payload, PayloadV2 z strm fly payload := by
      simp only [hdrDecodeCompressedV2, O.header, O.init] at hv
      split at hv
      · cases hv
      · cases hv
      next payload hinf => exact ⟨payload, hinf⟩
    rw [O.decodeV2_eq P] at hv
    obtain ⟨r, hr, hcode⟩ := Option.map_eq_some_iff.mp hv
    have hr₁ : g.applyToCounts 1 payload fly.payloadLen.toInt32 = some r := hr
    obtain ⟨counts, C⟩ := exists_carries g.counts_length.symm hr₁ fun _ => .inl (by
      by_contra hne
      rw [if_pos hne] at hcode
      cases hcode)
    exact ⟨_, _, counts, .v2 hc O P C⟩

/-- What a buffer holds is what its decoder hands over. -/
theorem Holds.decoded {h : HdrHistogram} {len : ℕ} {offset : Int32} {counts : List ℕ}
    (H : Holds z stack buffer len offset counts)
    (hd : hdrDecodeCompressed z stack buffer none = some (0, some h)) :
    Decoded h len offset counts := by
  cases H with
  | @v0 fly strm g payload _ hc O P C =>
      obtain ⟨-, hv⟩ | ⟨hc', -⟩ | ⟨hc', -⟩ := decode_cases hd
      · have R := represents_hdrInit O.init
        rw [O.decode_eq P] at hv
        obtain ⟨r, hr, hh⟩ := Option.map_eq_some_iff.mp hv
        cases hh
        obtain ⟨u, m, b, D⟩ := R.accepted.describes
        have hlen := payloadV0_length D.countsLen_toInt D.countsLen_lt (wordSizeFromCookie_lt _) P
        have S := C.stores g.counts_length.symm (counts_hdrInit O.init) (fun _ => hlen) hr
        have E : Decoded (HdrHistogram.hdrResetInternalCounters { r.2 with
            normalizingIndexOffset := 0
            conversionRatio := conversionRatioOne }) _ _ _ := S.decoded R.accepted
        exact E
      · rw [hc] at hc'
        exact absurd hc' (by decide)
      · rw [hc] at hc'
        exact absurd hc' (by decide)
  | @v1 fly strm g payload _ hc O P C =>
      obtain ⟨hc', -⟩ | ⟨-, hv⟩ | ⟨hc', -⟩ := decode_cases hd
      · rw [hc] at hc'
        exact absurd hc' (by decide)
      · rw [O.decodeV1_eq P] at hv
        obtain ⟨r, hr, hh⟩ := Option.map_eq_some_iff.mp hv
        cases hh
        obtain ⟨-, hlen⟩ := payloadV1_length P.1 (wordSizeFromCookie_lt _) P.2
        exact (C.stores g.counts_length.symm (counts_hdrInit O.init) (fun _ => hlen) hr).decoded
          (represents_hdrInit O.init).accepted
      · rw [hc] at hc'
        exact absurd hc' (by decide)
  | @v2 fly strm g payload _ hc O P C =>
      obtain ⟨hc', -⟩ | ⟨hc', -⟩ | ⟨-, hv⟩ := decode_cases hd
      · rw [hc] at hc'
        exact absurd hc' (by decide)
      · rw [hc] at hc'
        exact absurd hc' (by decide)
      · rw [O.decodeV2_eq P] at hv
        obtain ⟨r, hr, hh⟩ := Option.map_eq_some_iff.mp hv
        split_ifs at hh with hcode
        cases hh
        exact (C.stores g.counts_length.symm (counts_hdrInit O.init) (fun h => absurd rfl h)
          hr).decoded (represents_hdrInit O.init).accepted

/-- A decoded histogram satisfies what the readers rely on exactly when the offset that
the buffer holds is within the length of the array, and its counts add up to less than
`2^63`. -/
theorem decoded_wellFormed_iff {h : HdrHistogram}
    (hd : hdrDecodeCompressed z stack buffer none = some (0, some h)) :
    ((∃ cfg, hdrCalculateBucketConfig h.lowestDiscernibleValue h.highestTrackableValue
        h.significantFigures = some (.ok cfg) ∧ h.toBucketLayout = cfg.layout) ∧ h.WellFormed) ↔
      ∃ (len : ℕ) (offset : Int32) (counts : List ℕ), Holds z stack buffer len offset counts ∧
        -(len : ℤ) ≤ offset.toInt ∧ offset.toInt ≤ len ∧ counts.sum < 2 ^ 63 := by
  constructor
  · rintro ⟨-, W⟩
    obtain ⟨len, offset, counts, H⟩ := exists_holds hd
    have D := H.decoded hd
    obtain ⟨h₁, h₂, hsum⟩ := (wellFormed_iff D.accepted D.total).mp W
    rw [D.length, D.offset_eq] at h₁
    rw [D.length, D.offset_eq] at h₂
    rw [D.sum] at hsum
    exact ⟨len, offset, counts, H, h₁, h₂, hsum⟩
  · rintro ⟨len, offset, counts, H, h₁, h₂, hsum⟩
    have D := H.decoded hd
    refine ⟨D.accepted.config, (wellFormed_iff D.accepted D.total).mpr ?_⟩
    rw [D.length, D.offset_eq, D.sum]
    exact ⟨h₁, h₂, hsum⟩

end Accepted

/-- The histogram of the sample layout that a decoder hands over for some counts. -/
def decodedSample (offset : Int32) (counts : List Int64) (hlen : counts.length = 64) :
    HdrHistogram :=
  HdrHistogram.hdrResetInternalCounters { sampleHistogram with
    normalizingIndexOffset := offset
    counts := counts
    counts_length := by rw [hlen]; rfl }

/-- Three values in the first cell, and sixty-three zeros after it. -/
def sampleBuffer : List UInt8 :=
  storedBuffer (V2_COMPRESSION_COOKIE ||| 0x10)
    ((sampleFlyweight (V2_ENCODING_COOKIE ||| 0x10) 2).bytes ++ zigZagEncodeI64 3 ++
      zigZagEncodeI64 (-63))

theorem decoded_wellFormed_sample : ∃ h,
    hdrDecodeCompressed storedZlib (fun _ => 0) sampleBuffer none = some (0, some h) ∧
    (((∃ cfg, hdrCalculateBucketConfig h.lowestDiscernibleValue h.highestTrackableValue
        h.significantFigures = some (.ok cfg) ∧ h.toBucketLayout = cfg.layout) ∧ h.WellFormed) ↔
      ∃ (len : ℕ) (offset : Int32) (counts : List ℕ),
        Holds storedZlib (fun _ => 0) sampleBuffer len offset counts ∧
        -(len : ℤ) ≤ offset.toInt ∧ offset.toInt ≤ len ∧ counts.sum < 2 ^ 63) := by
  have hd : hdrDecodeCompressed storedZlib (fun _ => 0) sampleBuffer none =
      some (0, some (decodedSample 0 (3 :: List.replicate 63 0) (by simp))) := by
    decide +kernel
  exact ⟨_, hd, decoded_wellFormed_iff hd⟩

/-- An offset of `1000` for sixty-four counts, and a count of `-1`. -/
theorem decoded_not_wellFormed :
    (hdrDecodeCompressed storedZlib (fun _ => 0)
        (storedBuffer (V2_COMPRESSION_COOKIE ||| 0x10)
          ({ sampleFlyweight (V2_ENCODING_COOKIE ||| 0x10) 1 with
            normalizingIndexOffset := 1000 }.bytes ++ zigZagEncodeI64 (-64))) none =
      some (0, some (decodedSample 1000 (List.replicate 64 0) (by simp))) ∧
      ¬ (decodedSample 1000 (List.replicate 64 0) (by simp)).WellFormed) ∧
    (hdrDecodeCompressed storedZlib (fun _ => 0)
        (storedBuffer (V1_COMPRESSION_COOKIE ||| 0x80)
          ((sampleFlyweight (V1_ENCODING_COOKIE ||| 0x80) 8).bytes ++ List.replicate 8 0xFF)) none =
      some (0, some (decodedSample 0 (-1 :: List.replicate 63 0) (by simp))) ∧
      ¬ (decodedSample 0 (-1 :: List.replicate 63 0) (by simp)).WellFormed) := by
  refine ⟨⟨by decide +kernel, fun W => ?_⟩, by decide +kernel, fun W => ?_⟩
  · have := (W.normalised 0 (by decide) (by decide)).1
    exact absurd this (by decide +kernel)
  · have := W.nonneg (-1) (List.mem_cons_self ..)
    exact absurd this (by decide)

end HdrHistogramC
