import HdrHistogramC.DecodedCounts
import HdrHistogramC.StoredZlib

/-!
# Memory bounds of the decoders

Which inputs make a decoder leave an allocation. The `V2` decoder reserves nine
bytes more than the payload, so its reads stay inside; but a payload length between
`-9` and `-1` makes that sum wrap to at most eight bytes while `inflate` is offered
almost `2^32`. The `V0` and `V1` decoders reserve nothing more than the payload, and
`V1` copies as many words as the payload has.
-/
namespace HdrHistogramC
open FixedWidth BoundedLoop BucketLayout.Describes

theorem hdrCalculateBucketConfig_defined (lowest highest : Int64) (figures : Int32) :
    hdrCalculateBucketConfig lowest highest figures ≠ none := by
  by_cases ha : Acceptable lowest highest figures
  · obtain ⟨cfg, -, -, hcfg, -⟩ := hdrCalculateBucketConfig_accept ha
    rw [hcfg]
    simp
  · rw [hdrCalculateBucketConfig_reject ha]
    simp

theorem hdrInit_defined (lowest highest : Int64) (figures : Int32) :
    hdrInit lowest highest figures ≠ none := by
  have hcfg := hdrCalculateBucketConfig_defined lowest highest figures
  unfold hdrInit
  split
  next h => exact absurd h hcfg
  · simp
  · split <;> simp

theorem sizeT_toNat (n : Int32) : ((sizeT n).toNat : ℤ) = n.toInt % 2 ^ 64 := by
  have hb : (sizeT n).toNat = n.toInt64.toBitVec.toNat := rfl
  have hi : n.toInt64.toBitVec.toInt = n.toInt := by
    change n.toInt64.toInt = n.toInt
    rw [Int32.toInt_toInt64]
  have h := BitVec.toInt_eq_toNat_cond n.toInt64.toBitVec
  have hlt := n.toInt64.toBitVec.isLt
  rw [hi] at h
  rw [hb]
  split at h <;> omega

theorem uInt_toNat (n : Int32) : (n.toUInt32.toNat : ℤ) = n.toInt % 2 ^ 32 := by
  have hb : n.toUInt32.toNat = n.toBitVec.toNat := rfl
  have hi : n.toBitVec.toInt = n.toInt := rfl
  have h := BitVec.toInt_eq_toNat_cond n.toBitVec
  have hlt := n.toBitVec.isLt
  rw [hi] at h
  rw [hb]
  split at h <;> omega

section Bounds
variable {z : Zlib} {stack : ℕ → UInt8} {buffer : List UInt8} {strm : z.Stream}

/-- The header is inflated, carries the cookie, and describes a configuration that
`hdr_init` accepts. -/
structure OpensV1 (z : Zlib) (stack : ℕ → UInt8) (buffer : List UInt8) (cookie : UInt32)
    (fly : EncodingFlyweightV1) (strm : z.Stream) (h : HdrHistogram) : Prop where
  header : openFlyweightV1 z stack buffer cookie = .ok (fly, strm)
  init : hdrInit fly.lowestDiscernibleValue fly.highestTrackableValue fly.significantFigures =
    some (.ok h)

structure OpensV0 (z : Zlib) (stack : ℕ → UInt8) (buffer : List UInt8)
    (fly : EncodingFlyweightV0) (strm : z.Stream) (h : HdrHistogram) : Prop where
  header : openFlyweightV0 z stack buffer = .ok (fly, strm)
  init : hdrInit fly.lowestDiscernibleValue fly.highestTrackableValue fly.significantFigures =
    some (.ok h)

theorem hdrCallocBytes_length {size : ℕ} {array : List UInt8}
    (h : hdrCallocBytes size = some array) : array.length = size ∧ size < 2 ^ 63 := by
  unfold hdrCallocBytes at h
  split_ifs at h with hlt
  cases h
  exact ⟨List.length_replicate, hlt⟩

theorem inflateCounts_length {size : UInt64} {room : UInt32} {payload : List UInt8}
    (h : inflateCounts z strm size room = some (.ok payload)) :
    payload.length = size.toNat ∧ size.toNat < 2 ^ 63 := by
  unfold inflateCounts at h
  split at h
  · cases h
  next array halloc =>
    obtain ⟨hlen, hlt⟩ := hdrCallocBytes_length halloc
    split_ifs at h with hle
    have hout := z.inflate_le strm room.toNat .finish
    split at h
    next out _ heq =>
      rw [heq] at hout
      dsimp only at hout
      cases h
      rw [List.length_append, List.length_drop]
      exact ⟨by omega, hlt⟩
    · cases h

/-- More room than the array has is offered only if the array could be allocated. -/
theorem inflateCounts_eq_none_iff {size : UInt64} {room : UInt32} :
    inflateCounts z strm size room = none ↔ size.toNat < 2 ^ 63 ∧ size.toNat < room.toNat := by
  unfold inflateCounts hdrCallocBytes
  split_ifs with hlt
  · dsimp only
    rw [List.length_replicate]
    split_ifs with hle
    · simp only [hlt, true_and, Nat.not_lt.mpr hle, iff_false]
      split <;> simp
    · simp only [hlt, true_and, Nat.not_le.mp hle]
  · simp only [hlt, false_and]

theorem OpensV1.decodeV2 {fly : EncodingFlyweightV1} {h : HdrHistogram}
    (O : OpensV1 z stack buffer V2_ENCODING_COOKIE fly strm h) :
    hdrDecodeCompressedV2 z stack buffer = none ↔
      inflateCounts z strm (sizeT fly.payloadLen.toInt32 + 9)
        fly.payloadLen.toInt32.toUInt32 = none ∨
      ∃ payload, inflateCounts z strm (sizeT fly.payloadLen.toInt32 + 9)
        fly.payloadLen.toInt32.toUInt32 = some (.ok payload) ∧
          h.applyToCountsZz payload fly.payloadLen.toInt32 = none := by
  simp only [hdrDecodeCompressedV2, O.header, O.init]
  generalize inflateCounts z strm (sizeT fly.payloadLen.toInt32 + 9)
    fly.payloadLen.toInt32.toUInt32 = r
  rcases r with _ | (r | payload) <;> simp

theorem exists_opensV1_of_decodeV2
    (hok : ∀ e, hdrDecodeCompressedV2 z stack buffer ≠ some (.error e)) :
    ∃ fly strm h, OpensV1 z stack buffer V2_ENCODING_COOKIE fly strm h := by
  unfold hdrDecodeCompressedV2 at hok
  split at hok
  · exact absurd rfl (hok _)
  next fly strm hopen =>
    dsimp only at hok
    split at hok
    next hinit => exact absurd hinit (hdrInit_defined _ _ _)
    · exact absurd rfl (hok _)
    next h hinit => exact ⟨fly, strm, h, hopen, hinit⟩

/-- The array of a `V2` payload, with its spare bytes. -/
def PayloadV2 (z : Zlib) (strm : z.Stream) (fly : EncodingFlyweightV1) (payload : List UInt8) :
    Prop :=
  inflateCounts z strm (sizeT fly.payloadLen.toInt32 + 9) fly.payloadLen.toInt32.toUInt32 =
    some (.ok payload)

theorem OpensV1.decodeV2_eq {fly : EncodingFlyweightV1} {strm : z.Stream} {h : HdrHistogram}
    {payload : List UInt8} (O : OpensV1 z stack buffer V2_ENCODING_COOKIE fly strm h)
    (P : PayloadV2 z strm fly payload) : hdrDecodeCompressedV2 z stack buffer =
      (h.applyToCountsZz payload fly.payloadLen.toInt32).map fun r =>
        if r.1 ≠ 0 then .error r.1
        else .ok (HdrHistogram.hdrResetInternalCounters { r.2 with
          normalizingIndexOffset := fly.normalizingIndexOffset
          conversionRatio := fly.conversionRatioBits }) := by
  unfold PayloadV2 at P
  simp only [hdrDecodeCompressedV2, O.header, O.init, P]

theorem sizeT_add_nine (n : Int32) : ((sizeT n + 9).toNat : ℤ) = (n.toInt + 9) % 2 ^ 64 := by
  have h := sizeT_toNat n
  have hadd : (sizeT n + 9).toNat = ((sizeT n).toNat + 9) % 2 ^ 64 := UInt64.toNat_add ..
  rw [hadd]
  push_cast
  omega

theorem countsLen_nat {h : HdrHistogram} {lowest highest : Int64} {figures : Int32}
    (hi : hdrInit lowest highest figures = some (.ok h)) :
    ∃ len : ℕ, h.countsLen.toInt = len ∧ h.counts.length = len := by
  obtain ⟨u, m, b, D⟩ := (represents_hdrInit hi).accepted.describes
  exact ⟨_, D.countsLen_toInt, counts_length_nat D⟩

/-- With nine spare bytes after the payload no read leaves the array. -/
theorem applyToCountsZz_spare {h : HdrHistogram} {data : List UInt8} {limit : Int32} {len : ℕ}
    (hl : h.countsLen.toInt = len) (hdata : limit.toInt + 9 ≤ data.length) :
    h.applyToCountsZz data limit ≠ none := by
  obtain ⟨ts, j, h', -, -, -, hend⟩ := applyToCountsZz_cases hl data limit
  intro hnone
  rw [hnone] at hend
  cases hend with
  | overrun hd hj hdec =>
      obtain ⟨hlen, -⟩ := zigZagDecodeI64_eq_none_iff.mp hdec
      rw [List.length_drop, MAX_BYTES_LEB128] at hlen
      omega

theorem applyToCountsZz_nonpos {h : HdrHistogram} {data : List UInt8} {limit : Int32} {len : ℕ}
    (hl : h.countsLen.toInt = len) (hlim : limit.toInt ≤ 0) :
    h.applyToCountsZz data limit ≠ none := by
  have hstop : limit.toInt ≤ (0 : ℕ) ∨ len ≤ 0 := .inl (by omega)
  rw [HdrHistogram.applyToCountsZz, run_leave (zzBody_stop hl hstop)]
  simp

/-- The `V2` decoder stays inside its allocations exactly when no accepted header has a
payload length between `-9` and `-1`. -/
theorem v2_bounds_iff (z : Zlib) (stack : ℕ → UInt8) (buffer : List UInt8) :
    hdrDecodeCompressedV2 z stack buffer ≠ none ↔
      ∀ fly strm h, OpensV1 z stack buffer V2_ENCODING_COOKIE fly strm h →
        ¬ (-9 ≤ fly.payloadLen.toInt32.toInt ∧ fly.payloadLen.toInt32.toInt ≤ -1) := by
  constructor
  · rintro hsome fly strm h O ⟨hlow, hhigh⟩
    apply hsome
    rw [O.decodeV2]
    left
    have hsize := sizeT_add_nine fly.payloadLen.toInt32
    have hroom := uInt_toNat fly.payloadLen.toInt32
    rw [inflateCounts_eq_none_iff]
    omega
  · intro hall hnone
    have hok : ∀ e, hdrDecodeCompressedV2 z stack buffer ≠ some (.error e) := by simp [hnone]
    obtain ⟨fly, strm, h, O⟩ := exists_opensV1_of_decodeV2 hok
    have hlim := hall fly strm h O
    obtain ⟨len, hl, -⟩ := countsLen_nat O.init
    have hsize := sizeT_add_nine fly.payloadLen.toInt32
    have hroom := uInt_toNat fly.payloadLen.toInt32
    have hlow := fly.payloadLen.toInt32.le_toInt
    have hhigh := fly.payloadLen.toInt32.toInt_lt
    rcases O.decodeV2.mp hnone with hinf | ⟨payload, hinf, happ⟩
    · rw [inflateCounts_eq_none_iff] at hinf
      omega
    · obtain ⟨hlen, hlt⟩ := inflateCounts_length hinf
      by_cases hpos : fly.payloadLen.toInt32.toInt ≤ 0
      · exact applyToCountsZz_nonpos hl hpos happ
      · exact applyToCountsZz_spare hl (by omega) happ

/-- A payload length of `-1`: eight bytes are allocated, and `inflate` is offered
`2^32 - 1`. -/
theorem v2_bounds_fail : hdrDecodeCompressed storedZlib (fun _ => 0)
    (storedBuffer (V2_COMPRESSION_COOKIE ||| 0x10)
      ((sampleFlyweight (V2_ENCODING_COOKIE ||| 0x10) 0xFFFFFFFF).bytes ++
        List.replicate 20 1)) none = none := by
  decide +kernel

/-- The payload starts with accepted integers that leave the index inside an array of
`len` counts, and ends in the middle of the next one. -/
def Overruns (len : ℕ) (payload : List UInt8) : Prop :=
  ∃ (ts : List Token) (tail : List UInt8) (j : ℕ), payload = Token.flat ts ++ tail ∧
    advance len 0 (ts.map Token.value) = some j ∧ j < len ∧
    tail ≠ [] ∧ tail.length < MAX_BYTES_LEB128 ∧ ∀ b ∈ tail, 128 ≤ b.toNat

theorem applyToCountsZz_eq_none_iff {h : HdrHistogram} {payload : List UInt8} {limit : Int32}
    {len : ℕ} (hl : h.countsLen.toInt = len) (hlen : limit.toInt = payload.length) :
    h.applyToCountsZz payload limit = none ↔ Overruns len payload := by
  constructor
  · intro hnone
    obtain ⟨ts, j, h', hdata, hadv, -, hend⟩ :=
      applyToCountsZz_cases hl payload limit
    rw [hnone] at hend
    cases hend with
    | overrun hd hj hdec =>
        obtain ⟨hshort, hall⟩ := zigZagDecodeI64_eq_none_iff.mp hdec
        refine ⟨ts, _, j, hdata, hadv, hj, ?_, hshort, hall⟩
        rw [← List.length_pos_iff, List.length_drop]
        omega
  · rintro ⟨ts, tail, j, rfl, hadv, hj, hne, hshort, hall⟩
    have hpos := List.length_pos_iff.mpr hne
    rw [List.length_append] at hlen
    push_cast at hlen
    obtain ⟨h', fuel, happ, S, hl'⟩ := applyToCountsZz_flat tail hl
      (show ((Token.flat ts).length : ℤ) ≤ limit.toInt by omega) hadv
    rw [happ, run, zzBody_overrun hl' (by omega) hj]
    rw [List.drop_left]
    exact zigZagDecodeI64_eq_none_iff.mpr ⟨hshort, hall⟩

/-- When a payload of whole words, or of integers, leaves an allocation. -/
def LeavesArray (len : ℕ) (wordSize : UInt32) (countsLimit : ℕ) (payload : List UInt8) : Prop :=
  ((wordSize = 2 ∨ wordSize = 4 ∨ wordSize = 8) ∧ len < countsLimit) ∨
    (wordSize = 1 ∧ Overruns len payload)

theorem applyToCounts_eq_none_iff {h : HdrHistogram} {wordSize : UInt32} {payload : List UInt8}
    {limit : Int32} {len : ℕ} (hl : h.countsLen.toInt = len) (h0 : 0 ≤ limit.toInt)
    (hlen : payload.length = limit.toInt.toNat * wordSize.toNat) :
    h.applyToCounts wordSize payload limit = none ↔
      LeavesArray len wordSize limit.toInt.toNat payload := by
  have hcounts : h.counts.length = len := by have := h.counts_length; omega
  unfold HdrHistogram.applyToCounts LeavesArray
  split_ifs with h2 h4 h8 h1
  · subst h2
    rw [Option.map_eq_none_iff, HdrHistogram.applyToCounts16,
      applyWords_eq_none_iff (by rw [hlen]; rfl), hcounts]
    simp
  · subst h4
    rw [Option.map_eq_none_iff, HdrHistogram.applyToCounts32,
      applyWords_eq_none_iff (by rw [hlen]; rfl), hcounts]
    simp
  · subst h8
    rw [Option.map_eq_none_iff, HdrHistogram.applyToCounts64,
      applyWords_eq_none_iff (by rw [hlen]; rfl), hcounts]
    simp
  · subst h1
    have hone : (1 : UInt32).toNat = 1 := rfl
    rw [applyToCountsZz_eq_none_iff hl (by rw [hlen, hone]; omega)]
    simp
  · simp [h1, h2, h4, h8]

theorem inflateCounts_self (n : Int32) :
    inflateCounts z strm (sizeT n) n.toUInt32 ≠ none := by
  have hsize := sizeT_toNat n
  have hroom := uInt_toNat n
  have hlow := n.le_toInt
  have hhigh := n.toInt_lt
  rw [Ne, inflateCounts_eq_none_iff]
  omega

theorem wordSizeFromCookie_lt (cookie : UInt32) : (wordSizeFromCookie cookie).toNat < 16 := by
  have hand : (cookie &&& 0xf0).toNat ≤ 0xf0 := by
    rw [UInt32.toNat_and]
    exact Nat.and_le_right
  rw [wordSizeFromCookie, UInt32.toNat_shiftRight, Nat.shiftRight_eq_div_pow]
  change (cookie &&& 0xf0).toNat / 2 ^ 4 < 16
  omega

theorem toInt32_toInt (x : UInt32) :
    x.toInt32.toInt = if x.toNat < 2 ^ 31 then (x.toNat : ℤ) else x.toNat - 2 ^ 32 := by
  have h := BitVec.toInt_eq_toNat_cond x.toBitVec
  change x.toInt32.toInt = if 2 * x.toNat < 2 ^ 32 then (x.toNat : ℤ) else _ at h
  rw [h]
  split_ifs <;> first | rfl | omega

theorem payloadV1_length {payloadLen wordSize : UInt32} {payload : List UInt8}
    (h0 : wordSize ≠ 0) (h16 : wordSize.toNat < 16)
    (hinf : inflateCounts z strm (sizeT ((payloadLen / wordSize).toInt32 * wordSize.toInt32))
      ((payloadLen / wordSize).toInt32 * wordSize.toInt32).toUInt32 = some (.ok payload)) :
    0 ≤ (payloadLen / wordSize).toInt32.toInt ∧
      payload.length = (payloadLen / wordSize).toInt32.toInt.toNat * wordSize.toNat := by
  obtain ⟨hlen, hlt⟩ := inflateCounts_length hinf
  have hsize := sizeT_toNat ((payloadLen / wordSize).toInt32 * wordSize.toInt32)
  have hword : wordSize.toInt32.toInt = wordSize.toNat := by
    rw [toInt32_toInt, if_pos (by omega)]
  have hpos : wordSize.toNat ≠ 0 := fun h => h0 (UInt32.toNat_inj.mp h)
  have hq : (payloadLen / wordSize).toNat = payloadLen.toNat / wordSize.toNat := UInt32.toNat_div ..
  have hlimit := toInt32_toInt (payloadLen / wordSize)
  rw [Int32.toInt_mul, hword] at hsize
  rw [hq] at hlimit
  have hp := payloadLen.toNat_lt
  rcases Nat.lt_or_ge 1 wordSize.toNat with hge | hone
  · -- two or more bytes a word: the quotient is a nonnegative word
    have hhalf : payloadLen.toNat / wordSize.toNat < 2 ^ 31 :=
      (Nat.div_le_div_left (show 2 ≤ wordSize.toNat from hge) two_pos).trans_lt
        (show payloadLen.toNat / 2 < 2 ^ 31 by omega)
    have hmul := Nat.div_mul_le_self payloadLen.toNat wordSize.toNat
    rw [if_pos hhalf] at hlimit
    rw [hlimit, ← Nat.cast_mul] at hsize
    rw [hlimit, Int.toNat_natCast]
    generalize payloadLen.toNat / wordSize.toNat * wordSize.toNat = p at *
    simp only [Int.bmod_def] at hsize
    split at hsize <;> omega
  · have hw : wordSize.toNat = 1 := by omega
    rw [hw, Nat.cast_one, mul_one, bmod32 (Int32.le_toInt _) (Int32.toInt_lt _)] at hsize
    rw [hw, mul_one]
    have hlow := (payloadLen / wordSize).toInt32.le_toInt
    have hhigh := (payloadLen / wordSize).toInt32.toInt_lt
    omega

theorem payloadV0_length {h : HdrHistogram} {len : ℕ} {wordSize : UInt32} {payload : List UInt8}
    (hl : h.countsLen.toInt = len) (hlen : len ≤ 2 ^ 24) (h16 : wordSize.toNat < 16)
    (hinf : inflateCounts z strm (sizeT (h.countsLen * wordSize.toInt32))
      (h.countsLen * wordSize.toInt32).toUInt32 = some (.ok payload)) :
    payload.length = h.countsLen.toInt.toNat * wordSize.toNat := by
  obtain ⟨hplen, -⟩ := inflateCounts_length hinf
  have hsize := sizeT_toNat (h.countsLen * wordSize.toInt32)
  have hword : wordSize.toInt32.toInt = wordSize.toNat := by
    rw [toInt32_toInt, if_pos (by omega)]
  have hmul : len * wordSize.toNat ≤ 2 ^ 24 * 16 := Nat.mul_le_mul hlen (by omega)
  rw [mul32, hl, hword, ← Nat.cast_mul] at hsize
  · rw [hl, Int.toNat_natCast]
    omega
  · rw [hl, hword, ← Nat.cast_mul]; omega
  · rw [hl, hword, ← Nat.cast_mul]; omega

/-- The array of a `V1` payload, after it is inflated. -/
def PayloadV1 (z : Zlib) (strm : z.Stream) (fly : EncodingFlyweightV1) (payload : List UInt8) :
    Prop :=
  let wordSize := wordSizeFromCookie fly.cookie
  let countsArrayLen := (fly.payloadLen / wordSize).toInt32 * wordSize.toInt32
  wordSize ≠ 0 ∧
    inflateCounts z strm (sizeT countsArrayLen) countsArrayLen.toUInt32 = some (.ok payload)

/-- The array of a `V0` payload. -/
def PayloadV0 (z : Zlib) (strm : z.Stream) (fly : EncodingFlyweightV0) (h : HdrHistogram)
    (payload : List UInt8) : Prop :=
  let countsArrayLen := h.countsLen * (wordSizeFromCookie fly.cookie).toInt32
  inflateCounts z strm (sizeT countsArrayLen) countsArrayLen.toUInt32 = some (.ok payload)

/-- What the decoders do once the payload is inflated. -/
theorem OpensV0.decode_eq {fly : EncodingFlyweightV0} {strm : z.Stream} {h : HdrHistogram}
    {payload : List UInt8} (O : OpensV0 z stack buffer fly strm h)
    (P : PayloadV0 z strm fly h payload) : hdrDecodeCompressedV0 z stack buffer =
      (h.applyToCounts (wordSizeFromCookie fly.cookie) payload h.countsLen).map fun r =>
        .ok { r.2.hdrResetInternalCounters with
          normalizingIndexOffset := 0
          conversionRatio := conversionRatioOne } := by
  unfold PayloadV0 at P
  dsimp only at P
  simp only [hdrDecodeCompressedV0, O.header, O.init, P]

theorem OpensV1.decodeV1_eq {fly : EncodingFlyweightV1} {strm : z.Stream} {h : HdrHistogram}
    {payload : List UInt8} (O : OpensV1 z stack buffer V1_ENCODING_COOKIE fly strm h)
    (P : PayloadV1 z strm fly payload) : hdrDecodeCompressedV1 z stack buffer =
      (h.applyToCounts (wordSizeFromCookie fly.cookie) payload
        (fly.payloadLen / wordSizeFromCookie fly.cookie).toInt32).map fun r =>
        .ok (HdrHistogram.hdrResetInternalCounters { r.2 with
          normalizingIndexOffset := fly.normalizingIndexOffset
          conversionRatio := fly.conversionRatioBits }) := by
  obtain ⟨hword, hinf⟩ := P
  simp only [hdrDecodeCompressedV1, O.header, hword, if_false, O.init, hinf]

theorem exists_payloadV0 (hok : ∀ e, hdrDecodeCompressedV0 z stack buffer ≠ some (.error e)) :
    ∃ fly strm h payload, OpensV0 z stack buffer fly strm h ∧ PayloadV0 z strm fly h payload := by
  unfold hdrDecodeCompressedV0 at hok
  split at hok
  · exact absurd rfl (hok _)
  next fly strm hopen =>
    dsimp only at hok
    split at hok
    next hinit => exact absurd hinit (hdrInit_defined _ _ _)
    · exact absurd rfl (hok _)
    next h hinit =>
      split at hok
      next hinf => exact absurd hinf (inflateCounts_self _)
      · exact absurd rfl (hok _)
      next payload hinf => exact ⟨fly, strm, h, payload, ⟨hopen, hinit⟩, hinf⟩

theorem exists_payloadV1 (hok : ∀ e, hdrDecodeCompressedV1 z stack buffer ≠ some (.error e)) :
    ∃ fly strm h payload, OpensV1 z stack buffer V1_ENCODING_COOKIE fly strm h ∧
      PayloadV1 z strm fly payload := by
  unfold hdrDecodeCompressedV1 at hok
  split at hok
  · exact absurd rfl (hok _)
  next fly strm hopen =>
    dsimp only at hok
    split at hok
    · exact absurd rfl (hok _)
    next hword =>
      split at hok
      next hinit => exact absurd hinit (hdrInit_defined _ _ _)
      · exact absurd rfl (hok _)
      next h hinit =>
        split at hok
        next hinf => exact absurd hinf (inflateCounts_self _)
        · exact absurd rfl (hok _)
        next payload hinf => exact ⟨fly, strm, h, payload, ⟨hopen, hinit⟩, hword, hinf⟩

theorem decodeV1_eq_none_iff : hdrDecodeCompressedV1 z stack buffer = none ↔
    ∃ fly strm h payload, OpensV1 z stack buffer V1_ENCODING_COOKIE fly strm h ∧
      PayloadV1 z strm fly payload ∧ h.applyToCounts (wordSizeFromCookie fly.cookie) payload
        (fly.payloadLen / wordSizeFromCookie fly.cookie).toInt32 = none := by
  constructor
  · intro hnone
    have hok : ∀ e, hdrDecodeCompressedV1 z stack buffer ≠ some (.error e) := by simp [hnone]
    obtain ⟨fly, strm, h, payload, O, P⟩ := exists_payloadV1 hok
    rw [O.decodeV1_eq P, Option.map_eq_none_iff] at hnone
    exact ⟨fly, strm, h, payload, O, P, hnone⟩
  · rintro ⟨fly, strm, h, payload, O, P, happ⟩
    rw [O.decodeV1_eq P, happ, Option.map_none]

theorem decodeV0_eq_none_iff : hdrDecodeCompressedV0 z stack buffer = none ↔
    ∃ fly strm h payload, OpensV0 z stack buffer fly strm h ∧ PayloadV0 z strm fly h payload ∧
      h.applyToCounts (wordSizeFromCookie fly.cookie) payload h.countsLen = none := by
  constructor
  · intro hnone
    have hok : ∀ e, hdrDecodeCompressedV0 z stack buffer ≠ some (.error e) := by simp [hnone]
    obtain ⟨fly, strm, h, payload, O, P⟩ := exists_payloadV0 hok
    rw [O.decode_eq P, Option.map_eq_none_iff] at hnone
    exact ⟨fly, strm, h, payload, O, P, hnone⟩
  · rintro ⟨fly, strm, h, payload, O, P, happ⟩
    rw [O.decode_eq P, happ, Option.map_none]

/-- The `V0` and `V1` decoders stay inside their arrays exactly when a `V0` payload of
single bytes does not end inside an integer, and a `V1` payload neither does that nor
has more words than the configuration has counts. -/
theorem v0_v1_bounds_iff (z : Zlib) (stack : ℕ → UInt8) (buffer : List UInt8) :
    (hdrDecodeCompressedV0 z stack buffer ≠ none ↔
      ∀ fly strm h payload, OpensV0 z stack buffer fly strm h → PayloadV0 z strm fly h payload →
        ¬ (wordSizeFromCookie fly.cookie = 1 ∧ Overruns h.countsLen.toInt.toNat payload)) ∧
    (hdrDecodeCompressedV1 z stack buffer ≠ none ↔
      ∀ fly strm h payload, OpensV1 z stack buffer V1_ENCODING_COOKIE fly strm h →
        PayloadV1 z strm fly payload →
        ¬ LeavesArray h.countsLen.toInt.toNat (wordSizeFromCookie fly.cookie)
          (fly.payloadLen / wordSizeFromCookie fly.cookie).toInt32.toInt.toNat payload) := by
  constructor
  · rw [Ne, decodeV0_eq_none_iff]
    push Not
    refine forall₄_congr fun fly strm h payload => ?_
    refine forall_congr' fun O => forall_congr' fun hinf => ?_
    obtain ⟨u, m, b, D⟩ := (represents_hdrInit O.init).accepted.describes
    have hl := D.countsLen_toInt
    rw [Ne, applyToCounts_eq_none_iff hl (by omega)
      (payloadV0_length hl D.countsLen_lt (wordSizeFromCookie_lt _) hinf), hl, Int.toNat_natCast,
      LeavesArray]
    simp
  · rw [Ne, decodeV1_eq_none_iff]
    push Not
    refine forall₄_congr fun fly strm h payload => ?_
    refine forall_congr' fun O => forall_congr' fun hinf => ?_
    obtain ⟨len, hl, -⟩ := countsLen_nat O.init
    obtain ⟨h0, hlen⟩ := payloadV1_length hinf.1 (wordSizeFromCookie_lt _) hinf.2
    rw [Ne, applyToCounts_eq_none_iff hl h0 hlen, hl, Int.toNat_natCast]

/-- Sixty-five words for sixty-four counts, and a payload that ends inside an integer. -/
theorem v1_bounds_fail :
    hdrDecodeCompressed storedZlib (fun _ => 0)
      (storedBuffer (V1_COMPRESSION_COOKIE ||| 0x20)
        ((sampleFlyweight (V1_ENCODING_COOKIE ||| 0x20) 130).bytes ++
          List.replicate 130 1)) none = none ∧
    hdrDecodeCompressed storedZlib (fun _ => 0)
      (storedBuffer (V1_COMPRESSION_COOKIE ||| 0x10)
        ((sampleFlyweight (V1_ENCODING_COOKIE ||| 0x10) 1).bytes ++ [0x80])) none = none := by
  constructor <;> decide +kernel

end Bounds

end HdrHistogramC
