import HdrHistogramC.DecodeWellFormed
import HdrHistogramC.PayloadGrammar

/-!
# The round trip of the text encoding

The encoder writes the counts up to the cell of the largest value; the cells after it
are empty, so nothing is lost. The integers it writes are accepted one by one, and
storing them rebuilds the array. The bytes that the base 64 text adds at the end are
past the compressed length.
-/
namespace HdrHistogramC
open FixedWidth BoundedLoop LogLinear BucketLayout.Describes

def zeroRun (zeros : ℕ) : List Int64 := if zeros = 0 then [] else [-Int64.ofNat zeros]

theorem payloadValues_nil (zeros : ℕ) : HdrHistogram.payloadValues zeros [] = zeroRun zeros := rfl

theorem payloadValues_cons_zero (zeros : ℕ) (counts : List Int64) :
    HdrHistogram.payloadValues zeros (0 :: counts) =
      HdrHistogram.payloadValues (zeros + 1) counts := if_pos rfl

theorem payloadValues_cons {value : Int64} (hne : value ≠ 0) (zeros : ℕ) (counts : List Int64) :
    HdrHistogram.payloadValues zeros (value :: counts) =
      zeroRun zeros ++ value :: HdrHistogram.payloadValues 0 counts := if_neg hne

theorem neg_ofNat_toInt {n : ℕ} (hn : n < 2 ^ 31) :
    (-Int64.ofNat n).toInt = -n ∧ (- -Int64.ofNat n).toInt = n := by
  have h : (Int64.ofNat n).toInt = n := Int64.toInt_ofNat_of_lt (by omega)
  constructor
  · rw [Int64.toInt_neg, h, bmod64] <;> omega
  · rw [Int64.neg_neg, h]

theorem flatMap_zeroRun {n : ℕ} (hn : n < 2 ^ 31) :
    (zeroRun n).flatMap slotsOf = List.replicate n 0 := by
  unfold zeroRun
  split_ifs with hz
  · rw [hz]
    rfl
  · obtain ⟨h₁, h₂⟩ := neg_ofNat_toInt hn
    have hneg : -Int64.ofNat n < 0 := by
      rw [Int64.lt_iff_toInt_lt, h₁, Int64.toInt_zero]
      omega
    rw [List.flatMap_cons, List.flatMap_nil, List.append_nil, slotsOf, if_pos hneg, h₂,
      Int.toNat_natCast]

theorem min_lt_of_nonneg {c : Int64} (hc : 0 ≤ c) : Int32.minValue.toInt64 < c := by
  have hmin : Int32.minValue.toInt64.toInt = -2 ^ 31 := by decide
  rw [nonneg_iff] at hc
  rw [Int64.lt_iff_toInt_lt]
  omega

theorem min_lt_zeroRun {n : ℕ} (hn : n < 2 ^ 31) : ∀ v ∈ zeroRun n, Int32.minValue.toInt64 < v := by
  have hmin : Int32.minValue.toInt64.toInt = -2 ^ 31 := by decide
  intro v hv
  unfold zeroRun at hv
  split_ifs at hv
  · cases hv
  · rw [List.mem_singleton] at hv
    rw [hv, Int64.lt_iff_toInt_lt, (neg_ofNat_toInt hn).1]
    omega

theorem flatMap_payloadValues (counts : List Int64) (zeros : ℕ)
    (hlen : zeros + counts.length < 2 ^ 31) :
    (HdrHistogram.payloadValues zeros counts).flatMap slotsOf =
      List.replicate zeros 0 ++ counts.flatMap slotsOf := by
  induction counts generalizing zeros with
  | nil =>
      rw [payloadValues_nil, flatMap_zeroRun (by simpa using hlen), List.flatMap_nil,
        List.append_nil]
  | cons value counts ih =>
      rw [List.length_cons] at hlen
      by_cases hz : value = 0
      · have hslot : slotsOf 0 = [0] := rfl
        rw [hz, payloadValues_cons_zero, ih (zeros + 1) (by omega), List.flatMap_cons, hslot,
          List.replicate_succ', List.append_assoc]
      · rw [payloadValues_cons hz, List.flatMap_append, flatMap_zeroRun (by omega),
          List.flatMap_cons, ih 0 (by omega), List.flatMap_cons]
        rfl

theorem min_lt_payloadValues (counts : List Int64) (zeros : ℕ)
    (hlen : zeros + counts.length < 2 ^ 31) :
    (∀ v ∈ HdrHistogram.payloadValues zeros counts, Int32.minValue.toInt64 < v) ↔
      ∀ c ∈ counts, Int32.minValue.toInt64 < c := by
  induction counts generalizing zeros with
  | nil =>
      rw [payloadValues_nil]
      exact iff_of_true (min_lt_zeroRun (by simpa using hlen)) (by simp)
  | cons value counts ih =>
      rw [List.length_cons] at hlen
      by_cases hz : value = 0
      · rw [hz, payloadValues_cons_zero, ih (zeros + 1) (by omega), List.forall_mem_cons]
        exact (and_iff_right (min_lt_of_nonneg (by decide))).symm
      · rw [payloadValues_cons hz, List.forall_mem_append, List.forall_mem_cons,
          List.forall_mem_cons, ih 0 (by omega)]
        exact and_iff_right (min_lt_zeroRun (by omega))

/-- Counts whose slots fit an array. One that is negative reads back as a run of zeros. -/
structure SlotsFit (len : ℕ) (counts : List Int64) : Prop where
  min_lt : ∀ c ∈ counts, Int32.minValue.toInt64 < c
  length : (counts.flatMap slotsOf).length ≤ len

section Slots
variable {len : ℕ} {counts : List Int64}

/-- The decoder accepts what the encoder writes exactly when the slots fit. -/
theorem advance_payloadValues (hlen : counts.length < 2 ^ 31) :
    (∃ j, advance len 0 (HdrHistogram.payloadValues 0 counts) = some j) ↔
      SlotsFit len counts := by
  simp only [advance_iff (Nat.zero_le len), min_lt_payloadValues counts 0 (by omega),
    flatMap_payloadValues counts 0 (by omega)]
  rw [List.replicate_zero, List.nil_append, Nat.zero_add]
  constructor
  · rintro ⟨j, hmin, rfl, hle⟩
    exact ⟨hmin, hle⟩
  · rintro ⟨hmin, hle⟩
    exact ⟨_, hmin, rfl, hle⟩

theorem store_payloadValues (hlen : counts.length < 2 ^ 31) (F : SlotsFit len counts) :
    store (List.replicate len 0) 0 (HdrHistogram.payloadValues 0 counts) =
      counts.flatMap slotsOf ++ List.replicate (len - (counts.flatMap slotsOf).length) 0 := by
  obtain ⟨j, hadv⟩ := (advance_payloadValues hlen).mpr F
  have hj := ((advance_iff (Nat.zero_le len)).mp hadv).2.1
  rw [← List.length_replicate (n := len) (a := (0 : Int64))] at hadv
  rw [store_slots (by simp) (Nat.zero_le _) hadv, ← hj, flatMap_payloadValues counts 0 (by omega),
    List.length_replicate, List.take_zero, List.replicate_zero, List.nil_append, List.nil_append,
    Nat.zero_add]

theorem flatMap_slotsOf_of_nonneg (h0 : ∀ c ∈ counts, 0 ≤ c) :
    counts.flatMap slotsOf = counts := by
  induction counts with
  | nil => rfl
  | cons c counts ih =>
      rw [List.forall_mem_cons] at h0
      rw [List.flatMap_cons, ih h0.2, slotsOf, if_neg (Int64.not_lt.mpr h0.1)]
      rfl

theorem slotsFit_of_nonneg (h0 : ∀ c ∈ counts, 0 ≤ c) (hle : counts.length ≤ len) :
    SlotsFit len counts :=
  ⟨fun c hc => min_lt_of_nonneg (h0 c hc), by rwa [flatMap_slotsOf_of_nonneg h0]⟩

end Slots

theorem sumCountsAt_eq_zero {l : BucketLayout} {rs : List Sample} {n : ℕ}
    (hn : ∀ r ∈ rs, (l.countsIndexFor r.1).toInt ≠ n) : sumCountsAt l rs n = 0 := by
  induction rs with
  | nil => rfl
  | cons r rs ih =>
      rw [sumCountsAt_cons, if_neg (hn r (by simp)), zero_add]
      exact ih fun s hs => hn s (by simp [hs])

section Encode
variable {h : HdrHistogram} {rs : List Sample} {z : Zlib}

/-- A histogram that the encoder writes up to the first `n` of its counts. -/
structure Encodable (h : HdrHistogram) (n : ℕ) : Prop where
  accepted : h.Accepted
  limit : h.encodedCountsLimit.toInt = n
  pos : 1 ≤ n
  le : n ≤ h.counts.length

theorem Encodable.take_length_lt {n : ℕ} (E : Encodable h n) :
    (h.counts.take n).length < 2 ^ 31 := by
  obtain ⟨u, m, b, D⟩ := E.accepted.describes
  have hl := counts_length_nat D
  have hlt := D.countsLen_lt
  rw [List.length_take]
  omega

/-- The encoder writes the counts up to the cell of the largest value. -/
theorem encodable_of_maxValue {u m b : ℕ} (ok : h.Accepted) (D : h.Describes u m b)
    (h0 : 0 ≤ h.maxValue.toInt) :
    Encodable h (min (index u m h.maxValue.toInt.toNat + 1) h.counts.length) := by
  have hlen := D.countsLen_toInt
  have hlt := D.countsLen_lt
  have hl := counts_length_nat D
  have hpos : 0 < (b + 1) * 2 ^ m := by positivity
  have hidx := D.countsIndexFor_toInt h0
  have hcell := D.index_lt h.maxValue
  have hnext : (h.countsIndexFor h.maxValue + 1).toInt =
      index u m h.maxValue.toInt.toNat + 1 := by
    rw [add32] <;> rw [hidx, Int32.toInt_one] <;> omega
  refine ⟨ok, ?_, by omega, by omega⟩
  unfold HdrHistogram.encodedCountsLimit
  dsimp only
  split_ifs with hmax
  · rw [Int32.lt_iff_toInt_lt, hnext, hlen] at hmax
    rw [hnext]
    omega
  · rw [Int32.lt_iff_toInt_lt, hnext, hlen] at hmax
    rw [hlen]
    omega

theorem Represents.encodable (R : Represents h rs) : ∃ n, Encodable h n := by
  obtain ⟨u, m, b, D⟩ := R.accepted.describes
  exact ⟨_, encodable_of_maxValue R.accepted D (maxValue_nonneg R)⟩

theorem Represents.drop_eq_replicate {n : ℕ} (R : Represents h rs) (E : Encodable h n) :
    h.counts.drop n = List.replicate (h.counts.length - n) 0 := by
  obtain ⟨u, m, b, D⟩ := R.accepted.describes
  have h0 := maxValue_nonneg R
  have hcell := D.index_lt_countsLen h0 (maxValue_le R D)
  have hl := counts_length_nat D
  have hlimit := (encodable_of_maxValue R.accepted D h0).limit
  rw [E.limit] at hlimit
  rw [List.eq_replicate_iff]
  refine ⟨List.length_drop, fun c hc => ?_⟩
  obtain ⟨k, hk⟩ := List.mem_iff_getElem?.mp hc
  rw [List.getElem?_drop] at hk
  have hcount := R.counts _ c hk
  rw [sumCountsAt_eq_zero] at hcount
  · rw [← Int64.toInt_inj, Int64.toInt_zero]
    exact eq_of_modEq64 hcount c.le_toInt c.toInt_lt (by omega) (by omega)
  · intro r hr
    have hr0 := (nonneg_iff r.1).mp (R.recordable r hr).1
    have hmono : index u m r.1.toInt.toNat ≤ index u m h.maxValue.toInt.toNat :=
      index_mono (Int.toNat_le_toNat (Int64.le_iff_toInt_le.mp (R.le_max r hr)))
    rw [D.countsIndexFor_toInt hr0]
    omega

theorem payloadValues_length (counts : List Int64) (zeros : ℕ) :
    (HdrHistogram.payloadValues zeros counts).length ≤ zeros + counts.length ∧
      (1 ≤ zeros + counts.length → 1 ≤ (HdrHistogram.payloadValues zeros counts).length) := by
  have hrun : ∀ n, (zeroRun n).length ≤ n ∧ (1 ≤ n → 1 ≤ (zeroRun n).length) := by
    intro n
    unfold zeroRun
    split_ifs <;> simp <;> omega
  induction counts generalizing zeros with
  | nil => simpa [payloadValues_nil] using hrun zeros
  | cons value counts ih =>
      by_cases hz : value = 0
      · have hih := ih (zeros + 1)
        rw [hz, payloadValues_cons_zero, List.length_cons]
        omega
      · have hih := ih 0
        have hzeros := hrun zeros
        rw [payloadValues_cons hz, List.length_append, List.length_cons, List.length_cons]
        omega

theorem flat_ofValue_length (values : List Int64) :
    (Token.flat (values.map Token.ofValue)).length ≤ MAX_BYTES_LEB128 * values.length := by
  induction values with
  | nil => simp
  | cons v vs ih =>
      have hv := (zigZagEncodeI64_length v).2
      rw [List.map_cons, Token.flat_cons, List.length_append, List.length_cons, Nat.mul_add]
      change (zigZagEncodeI64 v).length + _ ≤ _
      omega

/-- Nine bytes for every value are enough. -/
theorem writePayload_eq {capacity : ℕ} (values : List Int64) (buffer : List UInt8)
    (hcap : buffer.length + MAX_BYTES_LEB128 * values.length ≤ capacity) :
    HdrHistogram.writePayload capacity buffer values =
      some (buffer ++ Token.flat (values.map Token.ofValue)) := by
  induction values generalizing buffer with
  | nil => simp [HdrHistogram.writePayload]
  | cons v vs ih =>
      have hv := (zigZagEncodeI64_length v).2
      rw [List.length_cons, Nat.mul_add] at hcap
      rw [HdrHistogram.writePayload, if_pos (by omega),
        ih _ (by rw [List.length_append]; omega), List.append_assoc]
      rfl

/-- The payload of a histogram, as tokens. -/
def payloadTokens (h : HdrHistogram) : List Token :=
  (HdrHistogram.payloadValues 0 (h.counts.take h.encodedCountsLimit.toInt.toNat)).map Token.ofValue

section Payload
variable {n : ℕ}

theorem Encodable.payloadTokens_value (E : Encodable h n) :
    (payloadTokens h).map Token.value = HdrHistogram.payloadValues 0 (h.counts.take n) := by
  rw [payloadTokens, List.map_map, E.limit, Int.toNat_natCast]
  exact List.map_id _

theorem Encodable.payloadTokens_length (E : Encodable h n) :
    1 ≤ (Token.flat (payloadTokens h)).length ∧
      (Token.flat (payloadTokens h)).length ≤ MAX_BYTES_LEB128 * h.counts.length := by
  have htake : (h.counts.take n).length = n := List.length_take_of_le E.le
  obtain ⟨hup, hlow⟩ := payloadValues_length (h.counts.take n) 0
  have hflat := Token.length_le_flat (payloadTokens h)
  have hmax := flat_ofValue_length (HdrHistogram.payloadValues 0 (h.counts.take n))
  have hmap : (HdrHistogram.payloadValues 0 (h.counts.take n)).map Token.ofValue =
      payloadTokens h := by
    rw [payloadTokens, E.limit, Int.toNat_natCast]
  have hpos := E.pos
  have hle := E.le
  rw [hmap] at hmax
  rw [← E.payloadTokens_value, List.length_map] at hup hlow hmax
  have hmul : MAX_BYTES_LEB128 * (payloadTokens h).length ≤ MAX_BYTES_LEB128 * h.counts.length :=
    Nat.mul_le_mul_left _ (by omega)
  omega

end Payload

/-- The header and the payload. -/
def encodedBytes (h : HdrHistogram) : List UInt8 :=
  (h.encodingFlyweight (Token.flat (payloadTokens h)).length).bytes ++ Token.flat (payloadTokens h)

def compressedBytes (data : List UInt8) : List UInt8 :=
  CompressionFlyweight.bytes
    { cookie := V2_COMPRESSION_COOKIE ||| 0x10
      length := Int32.ofNat data.length } ++ data

/-- The encoder stays inside its buffer, and compresses the header and the payload. -/
theorem hdrEncodeCompressed_eq {n : ℕ} (Z : z.RoundTrips) (E : Encodable h n) :
    ∃ data, z.compress (z.compressBound (encodedBytes h).length) (encodedBytes h) = some data ∧
      h.hdrEncodeCompressed z = some (.ok (compressedBytes data)) := by
  obtain ⟨u, m, b, D⟩ := E.accepted.describes
  have hl := counts_length_nat D
  have hlt := D.countsLen_lt
  obtain ⟨-, hn, h1, hle⟩ := E
  obtain ⟨data, hdata⟩ := Z.compress (encodedBytes h)
  have hsize : (SIZEOF_ENCODING_FLYWEIGHT_V1.toUInt64 + MAX_BYTES_LEB128.toUInt64 *
      sizeT h.encodedCountsLimit).toNat = SIZEOF_ENCODING_FLYWEIGHT_V1 + MAX_BYTES_LEB128 * n := by
    have hs := sizeT_toNat h.encodedCountsLimit
    have h40 : SIZEOF_ENCODING_FLYWEIGHT_V1.toUInt64.toNat = 40 := rfl
    have h9 : MAX_BYTES_LEB128.toUInt64.toNat = 9 := rfl
    rw [hn] at hs
    rw [UInt64.toNat_add, UInt64.toNat_mul, h40, h9, SIZEOF_ENCODING_FLYWEIGHT_V1, MAX_BYTES_LEB128]
    omega
  have hcalloc : hdrCallocBytes (SIZEOF_ENCODING_FLYWEIGHT_V1 + MAX_BYTES_LEB128 * n) =
      some (List.replicate (SIZEOF_ENCODING_FLYWEIGHT_V1 + MAX_BYTES_LEB128 * n) 0) := by
    rw [hdrCallocBytes, if_pos]
    rw [SIZEOF_ENCODING_FLYWEIGHT_V1, MAX_BYTES_LEB128]
    omega
  have hwrite : HdrHistogram.writePayload (MAX_BYTES_LEB128 * n) []
      (HdrHistogram.payloadValues 0 (h.counts.take h.encodedCountsLimit.toInt.toNat)) =
        some (Token.flat (payloadTokens h)) := by
    apply writePayload_eq
    have hup := (payloadValues_length (h.counts.take h.encodedCountsLimit.toInt.toNat) 0).1
    rw [List.length_take, hn, Int.toNat_natCast] at hup
    rw [List.length_nil, Nat.zero_add]
    rw [hn, Int.toNat_natCast]
    exact Nat.mul_le_mul_left _ (by omega)
  refine ⟨data, hdata, ?_⟩
  rw [encodedBytes] at hdata
  unfold HdrHistogram.hdrEncodeCompressed compressedBytes
  simp only [hsize, hcalloc, List.length_replicate, Nat.add_sub_cancel_left, hwrite, hdata]

theorem compressedData_length {n : ℕ} (Z : z.RoundTrips) (E : Encodable h n)
    {data : List UInt8}
    (hc : z.compress (z.compressBound (encodedBytes h).length) (encodedBytes h) = some data) :
    data.length < 2 ^ 31 := by
  obtain ⟨u, m, b, D⟩ := E.accepted.describes
  have hl := counts_length_nat D
  have hlt := D.countsLen_lt
  have hmax := E.payloadTokens_length.2
  have hle := z.compress_le _ _ _ hc
  have hbound := Z.bound_le (encodedBytes h).length
  have hlen : (encodedBytes h).length = 40 + (Token.flat (payloadTokens h)).length := by
    rw [encodedBytes, List.length_append, EncodingFlyweightV1.bytes_length]
    rfl
  rw [MAX_BYTES_LEB128] at hmax
  omega

end Encode

section Decode
variable {h : HdrHistogram} {rs : List Sample} {z : Zlib}

theorem map_range_getD (out : List UInt8) (stack : ℕ → UInt8) :
    ((List.range out.length).map fun i => out[i]?.getD (stack i)) = out := by
  apply List.ext_getElem
  · simp
  · intro i h₁ h₂
    simp [List.getElem?_eq_getElem h₂]

theorem ofNat_toInt32 {n : ℕ} (hn : n < 2 ^ 31) : (Int32.ofNat n).toInt = n :=
  Int32.toInt_ofNat_of_lt hn

theorem inflateHeader_eq (Z : z.RoundTrips) (stack : ℕ → UInt8) {header payload data : List UInt8}
    (hc : z.compress (z.compressBound (header ++ payload).length) (header ++ payload) = some data)
    (hheader : 0 < header.length) (hpayload : 0 < payload.length) (hdata : data.length < 2 ^ 31)
    (cookie : UInt32) (pad : List UInt8) (hpad : pad.length < 3) :
    ∃ strm strm', inflateHeader z stack (CompressionFlyweight.bytes
        { cookie := cookie, length := Int32.ofNat data.length } ++ data ++ pad) header.length =
          .ok (header, strm) ∧
      z.inflate strm payload.length .finish = (.streamEnd, payload, strm') := by
  obtain ⟨strm, hinit⟩ := Option.ne_none_iff_exists'.mp Z.init
  obtain ⟨strm', strm'', h₁, h₂⟩ := Z.inflate (header ++ payload) data strm header.length hc hinit
    hheader (by rw [List.length_append]; omega)
  rw [List.take_left] at h₁
  rw [List.length_append, Nat.add_sub_cancel_left, List.drop_left] at h₂
  refine ⟨strm', strm'', ?_, h₂⟩
  have hlen := ofNat_toInt32 hdata
  have hbytes := CompressionFlyweight.bytes_length
    { cookie := cookie, length := Int32.ofNat data.length }
  have hcheck : ¬ (Int32.ofNat data.length < 0 ∨
      UInt64.ofNat (CompressionFlyweight.bytes
        { cookie := cookie, length := Int32.ofNat data.length } ++ data ++ pad).length -
          SIZEOF_COMPRESSION_FLYWEIGHT.toUInt64 < sizeT (Int32.ofNat data.length)) := by
    have hsize := sizeT_toNat (Int32.ofNat data.length)
    have h8 : SIZEOF_COMPRESSION_FLYWEIGHT.toUInt64.toNat = 8 := rfl
    rw [hlen] at hsize
    rw [SIZEOF_COMPRESSION_FLYWEIGHT] at hbytes
    rw [Int32.lt_iff_toInt_lt, hlen, UInt64.lt_iff_toNat_lt, UInt64.toNat_sub, h8,
      UInt64.toNat_ofNat', List.length_append, List.length_append, hbytes]
    change ¬ ((data.length : ℤ) < 0 ∨ _)
    omega
  have htake : ((CompressionFlyweight.bytes
      { cookie := cookie, length := Int32.ofNat data.length } ++ data ++ pad).drop
        SIZEOF_COMPRESSION_FLYWEIGHT).take (Int32.ofNat data.length).toInt.toNat = data := by
    rw [← hbytes, List.append_assoc, List.drop_left, hlen, Int.toNat_natCast, List.take_left]
  unfold inflateHeader
  simp only [hinit, List.append_assoc, CompressionFlyweight.read_bytes]
  rw [← List.append_assoc, if_neg hcheck, htake, h₁]
  simp only [map_range_getD]

theorem inflateCounts_eq {strm strm' : z.Stream} {payload : List UInt8} {n : Int32}
    (hn : n.toInt = payload.length)
    (hinf : z.inflate strm payload.length .finish = (.streamEnd, payload, strm')) :
    inflateCounts z strm (sizeT n + 9) n.toUInt32 =
      some (.ok (payload ++ List.replicate 9 0)) := by
  have hsize := sizeT_add_nine n
  have hroom := uInt_toNat n
  have hlt := n.toInt_lt
  rw [hn] at hsize hroom hlt
  have hsize' : (sizeT n + 9).toNat = payload.length + 9 := by omega
  have hroom' : n.toUInt32.toNat = payload.length := by omega
  unfold inflateCounts hdrCallocBytes
  rw [hsize', if_pos (by omega)]
  dsimp only
  rw [hroom', List.length_replicate, if_pos (by omega), hinf]
  simp only [List.drop_replicate, Nat.add_sub_cancel_left]

end Decode

section RoundTrip
variable {h : HdrHistogram} {rs : List Sample} {z : Zlib} {data pad : List UInt8}

/-- A decoded histogram agrees with the encoded one in everything that the encoding
carries. -/
structure Restored (h g : HdrHistogram) : Prop where
  layout : g.toBucketLayout = h.toBucketLayout
  counts : g.counts = h.counts
  total : g.totalCount = h.totalCount
  offset : g.normalizingIndexOffset = h.normalizingIndexOffset
  ratio : g.conversionRatio = h.conversionRatio

theorem hdrResetInternalCounters_counts (g : HdrHistogram) (h0 : ∀ c ∈ g.counts, 0 ≤ c)
    (ok : g.Accepted) : g.hdrResetInternalCounters.totalCount.toInt ≡
      (g.counts.map Int64.toInt).sum [ZMOD 2 ^ 64] := by
  obtain ⟨u, m, b, D⟩ := ok.describes
  have F := (found_counts D).total
  rwa [sum_filter_pos h0] at F

/-- Storing the counts of a histogram into an empty one of its layout restores it. -/
theorem Stored.restored {g₁ : HdrHistogram} (S : Stored h h.counts g₁) (R : Represents h rs)
    (h0 : ∀ c ∈ h.counts, 0 ≤ c) :
    Restored h (HdrHistogram.hdrResetInternalCounters { g₁ with
      normalizingIndexOffset := h.normalizingIndexOffset
      conversionRatio := h.conversionRatio }) where
  layout := S.layout
  counts := S.counts
  total := by
    set g : HdrHistogram := { g₁ with
      normalizingIndexOffset := h.normalizingIndexOffset
      conversionRatio := h.conversionRatio }
    have hcounts : g.counts = h.counts := S.counts
    have hg : g.toBucketLayout = h.toBucketLayout := S.layout
    have hreset := hdrResetInternalCounters_counts g (by rw [hcounts]; exact h0)
      (by rw [hg]; exact R.accepted)
    rw [hcounts] at hreset
    rw [← Int64.toInt_inj]
    exact eq_of_modEq64 (hreset.trans R.sum_counts.symm) (Int64.le_toInt _) (Int64.toInt_lt _)
      (Int64.le_toInt _) (Int64.toInt_lt _)
  offset := rfl
  ratio := rfl

section Encoded
variable {n : ℕ}

/-- The decoder hands the tokens of the payload to the parser, with an empty histogram. -/
theorem Encodable.decodeV2_eq (E : Encodable h n) (Z : z.RoundTrips) (stack : ℕ → UInt8)
    (hc : z.compress (z.compressBound (encodedBytes h).length) (encodedBytes h) = some data)
    (hpad : pad.length < 3) :
    ∃ (g₀ : HdrHistogram) (limit : Int32), Stored h (List.replicate h.counts.length 0) g₀ ∧
      limit.toInt = (Token.flat (payloadTokens h)).length ∧
      hdrDecodeCompressedV2 z stack (compressedBytes data ++ pad) =
        (g₀.applyToCountsZz (Token.flat (payloadTokens h) ++ List.replicate 9 0) limit).map
          fun r => if r.1 ≠ 0 then .error r.1
            else .ok (HdrHistogram.hdrResetInternalCounters { r.2 with
              normalizingIndexOffset := h.normalizingIndexOffset
              conversionRatio := h.conversionRatio }) := by
  obtain ⟨u, m, b, D⟩ := E.accepted.describes
  have hl := counts_length_nat D
  have hlt := D.countsLen_lt
  obtain ⟨hpos, hmax⟩ := E.payloadTokens_length
  rw [MAX_BYTES_LEB128] at hmax
  have hheader := (h.encodingFlyweight (Token.flat (payloadTokens h)).length).bytes_length
  obtain ⟨strm, strm', hopen, hinf⟩ := inflateHeader_eq Z stack hc (by rw [hheader]; decide)
    (by omega) (compressedData_length Z E hc) (V2_COMPRESSION_COOKIE ||| 0x10) pad hpad
  obtain ⟨g₀, hinit, hlayout, hcounts⟩ := hdrInit_of_accepted E.accepted
  have O : OpensV1 z stack (compressedBytes data ++ pad) V2_ENCODING_COOKIE
      (h.encodingFlyweight (Token.flat (payloadTokens h)).length) strm g₀ := by
    refine ⟨?_, hinit⟩
    rw [hheader] at hopen
    have hcookie : ¬ V2_ENCODING_COOKIE ≠ getCookieBase (V2_ENCODING_COOKIE ||| 0x10) := by decide
    rw [openFlyweightV1, compressedBytes, hopen]
    dsimp only
    rw [EncodingFlyweightV1.read_bytes]
    exact if_neg hcookie
  have hn : (h.encodingFlyweight (Token.flat (payloadTokens h)).length).payloadLen.toInt32.toInt =
      (Token.flat (payloadTokens h)).length := by
    change (Int32.ofNat (Token.flat (payloadTokens h)).length).toInt = _
    exact ofNat_toInt32 (by omega)
  have P : PayloadV2 z strm (h.encodingFlyweight (Token.flat (payloadTokens h)).length)
      (Token.flat (payloadTokens h) ++ List.replicate 9 0) := inflateCounts_eq hn hinf
  exact ⟨g₀, _, ⟨hlayout, hcounts⟩, hn, O.decodeV2_eq P⟩

/-- Counts whose slots fit are read back as their slots. -/
theorem Encodable.decode_fit (E : Encodable h n) (Z : z.RoundTrips) (stack : ℕ → UInt8)
    (F : SlotsFit h.counts.length (h.counts.take n))
    (hc : z.compress (z.compressBound (encodedBytes h).length) (encodedBytes h) = some data)
    (hpad : pad.length < 3) :
    ∃ g₁, Stored h ((h.counts.take n).flatMap slotsOf ++ List.replicate
        (h.counts.length - ((h.counts.take n).flatMap slotsOf).length) 0) g₁ ∧
      hdrDecodeCompressedV2 z stack (compressedBytes data ++ pad) =
        some (.ok (HdrHistogram.hdrResetInternalCounters { g₁ with
          normalizingIndexOffset := h.normalizingIndexOffset
          conversionRatio := h.conversionRatio })) := by
  have hlt := E.take_length_lt
  obtain ⟨g₀, limit, S₀, hlim, hdec⟩ := E.decodeV2_eq Z stack hc hpad
  obtain ⟨j, hadv⟩ := (advance_payloadValues hlt).mpr F
  rw [← E.payloadTokens_value] at hadv
  obtain ⟨g₁, happ, S⟩ := applyToCountsZz_tokens (List.replicate 9 0)
    (by rw [S₀.layout]; exact h.counts_length.symm) hlim hadv
  rw [S₀.counts, E.payloadTokens_value, store_payloadValues hlt F] at S
  refine ⟨g₁, ⟨S.layout.trans S₀.layout, S.counts⟩, ?_⟩
  rw [hdec, happ]
  rfl

theorem Encodable.decode_unfit (E : Encodable h n) (Z : z.RoundTrips) (stack : ℕ → UInt8)
    (F : ¬ SlotsFit h.counts.length (h.counts.take n))
    (hc : z.compress (z.compressBound (encodedBytes h).length) (encodedBytes h) = some data)
    (hpad : pad.length < 3) :
    ∃ rc, hdrDecodeCompressedV2 z stack (compressedBytes data ++ pad) = some (.error rc) := by
  obtain ⟨g₀, limit, S₀, hlim, hdec⟩ := E.decodeV2_eq Z stack hc hpad
  have hl : g₀.countsLen.toInt = h.counts.length := by
    rw [S₀.layout]
    exact h.counts_length.symm
  obtain ⟨rc, ts, j, g₁, happ, -, hadv, hall⟩ := applyToCountsZz_parses hl _ (List.replicate 9 0)
    hlim (by rw [List.length_replicate, MAX_BYTES_LEB128])
  have hrc : rc ≠ 0 := by
    intro hz
    rw [Token.flat_injective (hall hz), E.payloadTokens_value] at hadv
    exact F ((advance_payloadValues E.take_length_lt).mp ⟨j, hadv⟩)
  refine ⟨rc, ?_⟩
  rw [hdec, happ, Option.map_some, if_pos hrc]

theorem hdrDecodeCompressedV2_encoded (Z : z.RoundTrips) (stack : ℕ → UInt8)
    (R : Represents h rs) (h0 : ∀ c ∈ h.counts, 0 ≤ c)
    (hc : z.compress (z.compressBound (encodedBytes h).length) (encodedBytes h) = some data)
    (hpad : pad.length < 3) :
    ∃ g, hdrDecodeCompressedV2 z stack (compressedBytes data ++ pad) = some (.ok g) ∧
      Restored h g := by
  obtain ⟨n, E⟩ := R.encodable
  have h0' : ∀ c ∈ h.counts.take n, 0 ≤ c := fun c hc => h0 c (List.mem_of_mem_take hc)
  obtain ⟨g₁, S, hdec⟩ := E.decode_fit Z stack
    (slotsFit_of_nonneg h0' (List.length_take_le' ..)) hc hpad
  rw [flatMap_slotsOf_of_nonneg h0', List.length_take_of_le E.le, ← R.drop_eq_replicate E,
    List.take_append_drop] at S
  exact ⟨_, hdec, S.restored R h0⟩

end Encoded

theorem compressedBytes_cookie (data pad : List UInt8) :
    getCookieBase (CompressionFlyweight.read (compressedBytes data ++ pad)).cookie =
      V2_COMPRESSION_COOKIE := by
  rw [compressedBytes, List.append_assoc, CompressionFlyweight.read_bytes]
  change getCookieBase (V2_COMPRESSION_COOKIE ||| 0x10) = _
  decide

theorem hdrDecodeCompressed_eq {buffer : List UInt8} (stack : ℕ → UInt8)
    (hlen : SIZEOF_COMPRESSION_FLYWEIGHT ≤ buffer.length)
    (hcookie : getCookieBase (CompressionFlyweight.read buffer).cookie = V2_COMPRESSION_COOKIE)
    (histogram : Option HdrHistogram) : hdrDecodeCompressed z stack buffer histogram =
      (hdrDecodeCompressedV2 z stack buffer).bind (handOver histogram) := by
  unfold hdrDecodeCompressed
  rw [if_neg (by omega)]
  simp only [hcookie]
  rw [if_neg (by decide), if_neg (by decide), if_pos trivial]

theorem hdrDecodeCompressed_compressedBytes (stack : ℕ → UInt8) (data pad : List UInt8)
    (histogram : Option HdrHistogram) :
    hdrDecodeCompressed z stack (compressedBytes data ++ pad) histogram =
      (hdrDecodeCompressedV2 z stack (compressedBytes data ++ pad)).bind (handOver histogram) := by
  refine hdrDecodeCompressed_eq stack ?_ (compressedBytes_cookie data pad) histogram
  rw [compressedBytes, List.length_append, List.length_append, CompressionFlyweight.bytes_length]
  omega

theorem hdrDecodeCompressed_encoded (Z : z.RoundTrips) (stack : ℕ → UInt8)
    (R : Represents h rs) (h0 : ∀ c ∈ h.counts, 0 ≤ c)
    (hc : z.compress (z.compressBound (encodedBytes h).length) (encodedBytes h) = some data)
    (hpad : pad.length < 3) :
    ∃ g, hdrDecodeCompressed z stack (compressedBytes data ++ pad) none = some (0, some g) ∧
      Restored h g := by
  obtain ⟨g, hv2, hg⟩ := hdrDecodeCompressedV2_encoded Z stack R h0 hc hpad
  exact ⟨g, by rw [hdrDecodeCompressed_compressedBytes, hv2]; rfl, hg⟩

/-- The text of a histogram is written, and decodes to the histogram. -/
def LogRoundTrip (z : Zlib) (stack : ℕ → UInt8) (h : HdrHistogram) : Prop :=
  ∃ text g, h.hdrLogEncode z = some (.ok text) ∧
    hdrLogDecode z stack text none = some (0, some g) ∧ Restored h g

theorem Represents.logRoundTrip (Z : z.RoundTrips) (stack : ℕ → UInt8) (R : Represents h rs)
    (h0 : ∀ c ∈ h.counts, 0 ≤ c) : LogRoundTrip z stack h := by
  obtain ⟨n, E⟩ := R.encodable
  obtain ⟨data, hc, henc⟩ := hdrEncodeCompressed_eq Z E
  have hne : compressedBytes data ≠ [] := by
    rw [← List.length_pos_iff, compressedBytes, List.length_append,
      CompressionFlyweight.bytes_length, SIZEOF_COMPRESSION_FLYWEIGHT]
    omega
  obtain ⟨text, htext, hdecode⟩ := hdrBase64Decode_encode hne
  obtain ⟨g, hg, restored⟩ := hdrDecodeCompressed_encoded Z stack R h0 hc
    (show (List.replicate ((3 - (compressedBytes data).length % 3) % 3) 0).length < 3 by
      rw [List.length_replicate]; omega)
  refine ⟨text, g, ?_, ?_, restored⟩
  · simp only [HdrHistogram.hdrLogEncode, henc, htext]
  · simp only [hdrLogDecode, hdecode, hg]

/-- Every run of the mutators that leaves no count negative can be written and read
back; a run whose counts are nonnegative and whose total fits leaves none. -/
theorem log_roundTrip (Z : z.RoundTrips) (stack : ℕ → UInt8) {lowest highest : Int64}
    {figures : Int32} {h₀ : HdrHistogram}
    (init : hdrInit lowest highest figures = some (.ok h₀)) (as : List Mutation)
    (sources : ∀ a ∈ as, a.SourceWellFormed) :
    ∃ h, Mutation.applyAll h₀ as = some h ∧
      ((∀ c ∈ h.counts, 0 ≤ c) → LogRoundTrip z stack h) ∧
      (Bounded (Mutation.history h₀.toBucketLayout as) → ∀ c ∈ h.counts, 0 ≤ c) := by
  obtain ⟨h, hrun, R, -⟩ := (represents_hdrInit init).applyAll sources
  exact ⟨h, hrun, R.logRoundTrip Z stack, fun B => (R.wellFormed B).nonneg⟩

end RoundTrip

theorem log_roundTrip_sample : ∃ h, Mutation.applyAll sampleHistogram
    [.recordValues 77 3, .add sampleHistogram, .recordCorrectedValues 90 1 30] = some h ∧
    LogRoundTrip storedZlib (fun _ => 0) h := by
  obtain ⟨h, hrun, htrip, hnonneg⟩ := log_roundTrip storedZlib_roundTrips (fun _ => 0)
    sampleHistogram_init
    [.recordValues 77 3, .add sampleHistogram, .recordCorrectedValues 90 1 30]
    (by simp [Mutation.SourceWellFormed, sampleHistogram_wellFormed])
  have hhistory : Mutation.history sampleHistogram.toBucketLayout
      [.recordValues 77 3, .add sampleHistogram, .recordCorrectedValues 90 1 30] =
        [(77, 3), (90, 1), (60, 1), (30, 1)] := by decide +kernel
  refine ⟨h, hrun, htrip (hnonneg ?_)⟩
  rw [hhistory]
  exact ⟨by simp, by decide⟩

/-- A corrected recording with the count `-1` is written as one zero. -/
theorem log_roundTrip_fails : ∃ h,
    Mutation.applyAll sampleHistogram [.recordCorrectedValues 5 (-1) 0] = some h ∧
      h.totalCount = -1 ∧ ¬ LogRoundTrip storedZlib (fun _ => 0) h := by
  have hcounts : ((Mutation.applyAll sampleHistogram [.recordCorrectedValues 5 (-1) 0]).map
      fun h : HdrHistogram => (h.totalCount, h.counts[5]?)) =
        some ((-1 : Int64), some (-1 : Int64)) := by decide +kernel
  have hread : ((Mutation.applyAll sampleHistogram [.recordCorrectedValues 5 (-1) 0]).bind
      fun h => (h.hdrLogEncode storedZlib).bind fun r => r.toOption.bind fun text =>
        (hdrLogDecode storedZlib (fun _ => 0) text none).bind fun r =>
          r.2.map fun g => g.counts[5]?) = some (some 0) := by decide +kernel
  obtain ⟨h, hrun, hh⟩ := Option.map_eq_some_iff.mp hcounts
  rw [Prod.mk.injEq] at hh
  refine ⟨h, hrun, hh.1, ?_⟩
  rintro ⟨text, g, henc, hdec, restored⟩
  rw [hrun, Option.bind_some, henc, Option.bind_some] at hread
  simp only [Except.toOption, Option.bind_some, hdec, Option.map_some, Option.some.injEq,
    restored.counts, hh.2] at hread
  exact absurd hread (by decide)

end HdrHistogramC
