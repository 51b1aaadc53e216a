import HdrHistogramC.PayloadGrammar
import HdrHistogramC.DecodeBounds

/-!
# Bad payloads of the old formats

The `V0` and `V1` decoders hand the payload to `apply_to_counts` and ignore what it
answers. A word size that it does not know, or a variable-length payload that its parser
refuses, therefore counts as decoded; only the word size `0` of a `V1` header is caught,
because the decoder divides by it.
-/
namespace HdrHistogramC
open FixedWidth BoundedLoop

/-- A payload fills some slots, and what follows it goes on after the last slot, skips more slots
than are left, or ends inside of an integer. -/
inductive RefusedPayload (len : ℕ) : List UInt8 → Prop
  | tooLong {bytes rest : List UInt8} {slots : List Int64} : Payload bytes slots →
      slots.length = len → rest ≠ [] → RefusedPayload len (bytes ++ rest)
  | zerosInvalid {bytes integer rest : List UInt8} {slots : List Int64} {k : ℕ} :
      Payload bytes slots → slots.length < len → SpellsInteger integer (-k) → 1 ≤ k →
      2 ^ 31 ≤ k ∨ len < slots.length + k → RefusedPayload len (bytes ++ (integer ++ rest))
  | truncated {bytes rest more : List UInt8} {slots : List Int64} {x : ℤ} :
      Payload bytes slots → slots.length < len → rest ≠ [] → more ≠ [] →
      SpellsInteger (rest ++ more) x → RefusedPayload len (bytes ++ rest)

theorem badZeros_iff {len i k : ℕ} {v : Int64} (hv : v.toInt = -k) :
    BadZeros len i v ↔ 2 ^ 31 ≤ k ∨ len < i + k := by
  have hmin : Int32.minValue.toInt64.toInt = -2 ^ 31 := by decide
  rw [BadZeros, Int64.le_iff_toInt_le, hmin, hv]
  by_cases hk : k < 2 ^ 31
  · have hneg : (-v).toInt = k := by
      rw [toInt_neg_of_lt (by omega), hv, neg_neg]
    rw [hneg]
    omega
  · exact ⟨fun _ => .inl (by omega), fun _ => .inl (by omega)⟩

section Refused
variable {h : HdrHistogram} {payload : List UInt8} {limit : Int32}

/-- A last integer that is cut off is read on behind the payload. -/
theorem refusedPayload_of_overruns {len : ℕ} (h : Overruns len payload) :
    RefusedPayload len payload := by
  obtain ⟨ts, tail, j, rfl, hadv, hj, hne, hshort, hall⟩ := h
  obtain ⟨more, x, hmore, hspell⟩ := cutOff_iff.mpr ⟨hshort, hall⟩
  obtain ⟨-, hslots, -⟩ := (advance_iff (Nat.zero_le _)).mp hadv
  exact .truncated (payload_of_advance hadv) (by omega) hne hmore hspell

theorem refusedPayload_of_code (hlim : limit.toInt = payload.length) {rc : Int32}
    {h' : HdrHistogram} (happ : h.applyToCountsZz payload limit = some (rc, h')) (hrc : rc ≠ 0) :
    RefusedPayload h.counts.length payload := by
  have hl : h.countsLen.toInt = h.counts.length := h.counts_length.symm
  obtain ⟨ts, j, g, hdata, hadv, -, hend⟩ := applyToCountsZz_cases hl payload limit
  have P := payload_of_advance hadv
  obtain ⟨-, hj, hle⟩ := (advance_iff (Nat.zero_le _)).mp hadv
  rw [Nat.zero_add] at hj
  have hlen := congrArg List.length hdata
  rw [List.length_append, List.length_drop] at hlen
  rw [happ] at hend
  rw [hdata]
  cases hend with
  | bad k v hd hlt hdec hv hbad =>
      obtain ⟨t, rfl, -, hsplit⟩ := exists_token hdec
      rw [Int64.lt_iff_toInt_lt, Int64.toInt_zero] at hv
      obtain ⟨n, hn⟩ : ∃ n : ℕ, t.value.toInt = -n := ⟨(-t.value.toInt).toNat, by omega⟩
      rw [badZeros_iff hn] at hbad
      rw [hsplit]
      exact .zerosInvalid P (by omega) (hn ▸ spellsInteger_iff.mpr ⟨t, rfl, rfl⟩) (by omega)
        (by rwa [hj])
  | stop hstop =>
      unfold zzCode at hrc
      split_ifs at hrc with h₁ h₂
      · omega
      · refine .tooLong P (by omega) ?_
        rw [← List.length_pos_iff, List.length_drop]
        omega
      · exact absurd rfl hrc

theorem RefusedPayload.not_stored (R : RefusedPayload h.counts.length payload)
    (hlim : limit.toInt = payload.length) (h' : HdrHistogram) :
    h.applyToCountsZz payload limit ≠ some (0, h') := by
  have hl : h.countsLen.toInt = h.counts.length := h.counts_length.symm
  intro hzero
  cases R with
  | @tooLong bytes rest slots P hfull hne =>
      obtain ⟨ts, rfl, rfl, hadv⟩ := P.exists_tokens
        (show 0 + slots.length ≤ h.counts.length by omega)
      have hpos := List.length_pos_iff.mpr hne
      rw [List.length_append] at hlim
      obtain ⟨h₁, fuel, happ, -, hl'⟩ := applyToCountsZz_flat rest hl
        (show ((Token.flat ts).length : ℤ) ≤ limit.toInt by omega) hadv
      rw [happ, run_leave (zzBody_stop hl' (.inr (by omega))), zzCode, if_neg (by omega),
        if_pos (by omega)] at hzero
      exact absurd (Prod.mk.inj (Option.some.inj hzero)).1 (by decide)
  | @zerosInvalid bytes integer rest slots k P hlt hspell h1 hbad =>
      obtain ⟨ts, rfl, rfl, hadv⟩ := P.exists_tokens
        (show 0 + slots.length ≤ h.counts.length by omega)
      obtain ⟨t, rfl, hv⟩ := spellsInteger_iff.mp hspell
      have htpos := t.bytes_pos
      rw [List.length_append, List.length_append] at hlim
      obtain ⟨h₁, fuel, happ, -, hl'⟩ :=
        applyToCountsZz_flat (t.bytes ++ rest) hl
          (show ((Token.flat ts).length : ℤ) ≤ limit.toInt by omega) hadv
      have hneg : t.value < 0 := by
        rw [Int64.lt_iff_toInt_lt, Int64.toInt_zero]
        omega
      have hsome : zigZagDecodeI64 ((Token.flat ts ++ (t.bytes ++ rest)).drop
          (Token.flat ts).length) = some (t.bytes.length, t.value) := by
        rw [List.drop_left]
        exact t.decode_append rest
      rw [Nat.zero_add] at happ
      rw [happ, run_leave (zzBody_bad hl' (by omega) (by omega) hsome hneg
        ((badZeros_iff hv).mpr hbad))] at hzero
      exact absurd (Prod.mk.inj (Option.some.inj hzero)).1 (by decide)
  | @truncated bytes rest more slots x P hlt hne hmore hspell =>
      obtain ⟨ts, rfl, rfl, hadv⟩ := P.exists_tokens
        (show 0 + slots.length ≤ h.counts.length by omega)
      obtain ⟨hshort, hall⟩ := cutOff_iff.mp ⟨more, x, hmore, hspell⟩
      have hnone := (applyToCountsZz_eq_none_iff hl hlim).mpr
        ⟨ts, rest, _, rfl, hadv, by omega, hne, hshort, hall⟩
      rw [hnone] at hzero
      cases hzero

/-- Without bytes after the payload, these are the payloads that are not stored: the parser answers
with an error code, or the last integer is read on behind the array. -/
theorem refusedPayload_iff (hlim : limit.toInt = payload.length) :
    (∀ h', h.applyToCountsZz payload limit ≠ some (0, h')) ↔
      RefusedPayload h.counts.length payload := by
  refine ⟨fun hnot => ?_, fun R h' => R.not_stored hlim h'⟩
  rcases happ : h.applyToCountsZz payload limit with _ | ⟨rc, h'⟩
  · exact refusedPayload_of_overruns
      ((applyToCountsZz_eq_none_iff h.counts_length.symm hlim).mp happ)
  · exact refusedPayload_of_code hlim happ fun hrc => hnot h' (hrc ▸ happ)

end Refused

section Report
variable {z : Zlib} {stack : ℕ → UInt8} {buffer : List UInt8}

/-- A `V0` or `V1` buffer whose header is accepted and whose payload inflates: the word
size, the empty histogram, and the payload with its limit. With the word size `0` a `V1`
header has no payload. -/
inductive OldBuffer (z : Zlib) (stack : ℕ → UInt8) (buffer : List UInt8) :
    UInt32 → HdrHistogram → List UInt8 → Int32 → Prop
  | v0 {fly : EncodingFlyweightV0} {strm : z.Stream} {h : HdrHistogram} {payload : List UInt8} :
      SIZEOF_COMPRESSION_FLYWEIGHT ≤ buffer.length →
      getCookieBase (CompressionFlyweight.read buffer).cookie = V0_COMPRESSION_COOKIE →
      OpensV0 z stack buffer fly strm h → PayloadV0 z strm fly h payload →
      OldBuffer z stack buffer (wordSizeFromCookie fly.cookie) h payload h.countsLen
  | v1 {fly : EncodingFlyweightV1} {strm : z.Stream} {h : HdrHistogram} {payload : List UInt8} :
      SIZEOF_COMPRESSION_FLYWEIGHT ≤ buffer.length →
      getCookieBase (CompressionFlyweight.read buffer).cookie = V1_COMPRESSION_COOKIE →
      OpensV1 z stack buffer V1_ENCODING_COOKIE fly strm h → PayloadV1 z strm fly payload →
      OldBuffer z stack buffer (wordSizeFromCookie fly.cookie) h payload
        (fly.payloadLen / wordSizeFromCookie fly.cookie).toInt32
  | noWords {fly : EncodingFlyweightV1} {strm : z.Stream} {h : HdrHistogram} :
      SIZEOF_COMPRESSION_FLYWEIGHT ≤ buffer.length →
      getCookieBase (CompressionFlyweight.read buffer).cookie = V1_COMPRESSION_COOKIE →
      openFlyweightV1 z stack buffer V1_ENCODING_COOKIE = .ok (fly, strm) →
      wordSizeFromCookie fly.cookie = 0 → OldBuffer z stack buffer 0 h [] 0

def KnownWordSize (wordSize : UInt32) : Prop :=
  wordSize = 1 ∨ wordSize = 2 ∨ wordSize = 4 ∨ wordSize = 8

/-- A result of zero means that the payload was stored, and a payload that cannot be stored gives
an error and leaves the histogram of the caller alone. Single bytes that end inside of an integer
cannot be stored either. -/
structure ReportsBadPayload (z : Zlib) (stack : ℕ → UInt8) (buffer : List UInt8)
    (wordSize : UInt32) (h : HdrHistogram) (payload : List UInt8) (limit : Int32) : Prop where
  success : ∀ histogram histogram',
    hdrDecodeCompressed z stack buffer histogram = some (0, histogram') →
    KnownWordSize wordSize ∧ ∃ h', h.applyToCounts wordSize payload limit = some (0, h')
  failure : ∀ histogram, ¬ KnownWordSize wordSize ∨
      (wordSize = 1 ∧ ∀ h', h.applyToCountsZz payload limit ≠ some (0, h')) →
    ∃ result, hdrDecodeCompressed z stack buffer histogram = some (result, histogram) ∧ result ≠ 0

variable {wordSize : UInt32} {h : HdrHistogram} {payload : List UInt8} {limit : Int32}

/-- What an old buffer decodes to, whatever `apply_to_counts` answers. -/
theorem OldBuffer.decode (O : OldBuffer z stack buffer wordSize h payload limit) :
    (wordSize = 0 ∧
      getCookieBase (CompressionFlyweight.read buffer).cookie = V1_COMPRESSION_COOKIE ∧
      ∀ histogram, hdrDecodeCompressed z stack buffer histogram =
        some (HDR_INVALID_WORD_SIZE, histogram)) ∨
    (¬ (wordSize = 0 ∧
      getCookieBase (CompressionFlyweight.read buffer).cookie = V1_COMPRESSION_COOKIE) ∧
      ∃ finish : HdrHistogram → HdrHistogram, ∀ histogram,
        hdrDecodeCompressed z stack buffer histogram =
          (h.applyToCounts wordSize payload limit).bind fun r =>
            handOver histogram (.ok (finish r.2))) := by
  cases O with
  | v0 hlen hc O P =>
      refine .inr ⟨fun hbad => ?_, fun g => { g.hdrResetInternalCounters with
        normalizingIndexOffset := 0
        conversionRatio := conversionRatioOne }, fun histogram => ?_⟩
      · rw [hc] at hbad
        exact absurd hbad.2 (by decide)
      · unfold hdrDecodeCompressed
        dsimp only
        rw [if_neg (by omega), if_pos hc.symm, O.decode_eq P, Option.bind_map]
        rfl
  | @v1 fly _ _ _ hlen hc O P =>
      refine .inr ⟨fun hbad => P.1 hbad.1, fun g => HdrHistogram.hdrResetInternalCounters { g with
        normalizingIndexOffset := fly.normalizingIndexOffset
        conversionRatio := fly.conversionRatioBits }, fun histogram => ?_⟩
      have hne : ¬ V0_COMPRESSION_COOKIE = V1_COMPRESSION_COOKIE := by decide
      unfold hdrDecodeCompressed
      dsimp only
      rw [if_neg (by omega), hc, if_neg hne, if_pos rfl, O.decodeV1_eq P, Option.bind_map]
      rfl
  | noWords hlen hc hopen hword =>
      refine .inl ⟨rfl, hc, fun histogram => ?_⟩
      have hne : ¬ V0_COMPRESSION_COOKIE = V1_COMPRESSION_COOKIE := by decide
      have hv1 : hdrDecodeCompressedV1 z stack buffer = some (.error HDR_INVALID_WORD_SIZE) := by
        simp only [hdrDecodeCompressedV1, hopen, hword, if_true]
      unfold hdrDecodeCompressed
      dsimp only
      rw [if_neg (by omega), hc, if_neg hne, if_pos rfl, hv1]
      rfl

theorem OldBuffer.payload_length (O : OldBuffer z stack buffer wordSize h payload limit)
    (hw : wordSize = 1) : limit.toInt = payload.length := by
  have hone : (1 : UInt32).toNat = 1 := rfl
  cases O with
  | @v0 fly _ h _ _ _ O P =>
      obtain ⟨u, m, b, D⟩ := (represents_hdrInit O.init).accepted.describes
      have hlen := payloadV0_length D.countsLen_toInt D.countsLen_lt (wordSizeFromCookie_lt _) P
      have hl := h.counts_length
      rw [hw, hone] at hlen
      omega
  | v1 _ _ _ P =>
      obtain ⟨h0, hlen⟩ := payloadV1_length P.1 (wordSizeFromCookie_lt _) P.2
      rw [hw, hone] at hlen
      rw [hw] at h0 ⊢
      omega
  | noWords => exact absurd hw (by decide)

theorem applyToCounts_unknown (hw : ¬ KnownWordSize wordSize) :
    h.applyToCounts wordSize payload limit = some (-1, h) := by
  simp only [KnownWordSize, not_or] at hw
  rw [HdrHistogram.applyToCounts, if_neg hw.2.1, if_neg hw.2.2.1, if_neg hw.2.2.2, if_neg hw.1]

theorem applyToCounts_words (hw : wordSize = 2 ∨ wordSize = 4 ∨ wordSize = 8)
    {r : Int32 × HdrHistogram} (happ : h.applyToCounts wordSize payload limit = some r) :
    r.1 = 0 := by
  rcases hw with rfl | rfl | rfl
  all_goals
    obtain ⟨g, -, rfl⟩ := Option.map_eq_some_iff.mp happ
    rfl

/-- The old decoders report a bad payload exactly when there is none to report, or when it
is the word size `0` of a `V1` header. -/
theorem oldFormats_report_iff (O : OldBuffer z stack buffer wordSize h payload limit) :
    ReportsBadPayload z stack buffer wordSize h payload limit ↔
      (wordSize = 2 ∨ wordSize = 4 ∨ wordSize = 8) ∨
      (wordSize = 1 ∧ ¬ RefusedPayload h.counts.length payload) ∨
      (wordSize = 0 ∧
        getCookieBase (CompressionFlyweight.read buffer).cookie = V1_COMPRESSION_COOKIE) := by
  rcases O.decode with ⟨h0, hc, hall⟩ | ⟨hcaught, finish, hall⟩
  · refine ⟨fun _ => .inr (.inr ⟨h0, hc⟩), fun _ => ⟨fun histogram histogram' hd => ?_,
      fun histogram _ => ⟨_, hall histogram, by decide⟩⟩⟩
    rw [hall] at hd
    cases hd
  -- whatever is stored, the decoder answers zero into a null histogram
  have hzero : ∀ r, h.applyToCounts wordSize payload limit = some r →
      hdrDecodeCompressed z stack buffer none = some (0, some (finish r.2)) := by
    intro r hr
    rw [hall, hr]
    rfl
  constructor
  · intro R
    by_cases hw : KnownWordSize wordSize
    · rcases hw with h1 | h248
      · refine .inr (.inl ⟨h1, fun refused => ?_⟩)
        rw [← refusedPayload_iff (O.payload_length h1)] at refused
        obtain ⟨result, hd, hne⟩ := R.failure none (.inr ⟨h1, refused⟩)
        rcases happ : h.applyToCounts wordSize payload limit with _ | r
        · rw [hall, happ] at hd
          cases hd
        · rw [hzero r happ] at hd
          cases hd
      · exact .inl h248
    · obtain ⟨result, hd, hne⟩ := R.failure none (.inl hw)
      rw [hzero _ (applyToCounts_unknown hw)] at hd
      cases hd
  · rintro (h248 | ⟨h1, hok⟩ | hcaught')
    · refine ⟨fun histogram histogram' hd => ?_, ?_⟩
      · rw [hall] at hd
        obtain ⟨⟨rc, h'⟩, happ, -⟩ := Option.bind_eq_some_iff.mp hd
        have hrc := applyToCounts_words h248 happ
        dsimp only at hrc
        exact ⟨.inr h248, h', by rw [happ, hrc]⟩
      · rintro histogram (hw | ⟨h1, -⟩)
        · exact absurd (.inr h248) hw
        · rw [h1] at h248
          exact absurd h248 (by decide)
    · rw [← refusedPayload_iff (O.payload_length h1)] at hok
      refine ⟨fun histogram histogram' hd => ?_, ?_⟩
      · rw [hall] at hd
        obtain ⟨⟨rc, h'⟩, happ, -⟩ := Option.bind_eq_some_iff.mp hd
        refine ⟨.inl h1, ?_⟩
        rw [h1]
        by_contra hnone
        exact hok fun g hg => hnone ⟨g, hg⟩
      · rintro histogram (hw | ⟨-, hbad⟩)
        · exact absurd (.inl h1) hw
        · exact absurd hbad hok
    · exact absurd hcaught' hcaught

end Report

/-- A value that ends after its first byte. -/
theorem oldFormats_report_sample :
    ¬ ReportsBadPayload storedZlib (fun _ => 0) (storedBuffer (V1_COMPRESSION_COOKIE ||| 0x10)
      ((sampleFlyweight (V1_ENCODING_COOKIE ||| 0x10) 1).bytes ++ [0x80])) 1 sampleHistogram
        [0x80] 1 := by
  have hopen : OpensV1 storedZlib (fun _ => 0) (storedBuffer (V1_COMPRESSION_COOKIE ||| 0x10)
      ((sampleFlyweight (V1_ENCODING_COOKIE ||| 0x10) 1).bytes ++ [0x80])) V1_ENCODING_COOKIE
        (sampleFlyweight (V1_ENCODING_COOKIE ||| 0x10) 1) (some [0x80]) sampleHistogram :=
    ⟨by decide +kernel, sampleHistogram_init⟩
  have hpayload : PayloadV1 storedZlib (some [0x80])
      (sampleFlyweight (V1_ENCODING_COOKIE ||| 0x10) 1) [0x80] := by
    unfold PayloadV1
    decide +kernel
  have hrest : SpellsInteger ([0x80] ++ [0]) 0 :=
    ⟨0, .more (by decide) (.last (by decide)), rfl⟩
  have hrefused : RefusedPayload sampleHistogram.counts.length [0x80] :=
    .truncated .nil (by decide +kernel) (List.cons_ne_nil _ _) (List.cons_ne_nil _ _) hrest
  intro R
  rcases (oldFormats_report_iff (.v1 (by decide +kernel) (by decide +kernel) hopen hpayload)).mp R
    with hwords | ⟨-, hstored⟩ | ⟨hzero, -⟩
  · exact absurd hwords (by decide)
  · exact hstored hrefused
  · exact absurd hzero (by decide)

/-- Words of three bytes, in both formats, and a run of sixty-five zeros for sixty-four
counts: all three buffers decode to an empty histogram. -/
theorem oldFormats_unreported :
    (hdrDecodeCompressed storedZlib (fun _ => 0) (storedBuffer (V0_COMPRESSION_COOKIE ||| 0x30)
        (htobe32 (V0_ENCODING_COOKIE ||| 0x30) ++ htobe32 1 ++ htobe64 1 ++ htobe64 100 ++
          htobe64 1 ++ List.replicate 192 1)) none = some (0, some sampleHistogram) ∧
      hdrDecodeCompressed storedZlib (fun _ => 0) (storedBuffer (V1_COMPRESSION_COOKIE ||| 0x30)
        ((sampleFlyweight (V1_ENCODING_COOKIE ||| 0x30) 3).bytes ++ [1, 1, 1])) none =
          some (0, some sampleHistogram) ∧
      ¬ KnownWordSize 3 ∧
      sampleHistogram.applyToCounts 3 [1, 1, 1] 1 = some (-1, sampleHistogram)) ∧
    hdrDecodeCompressed storedZlib (fun _ => 0) (storedBuffer (V1_COMPRESSION_COOKIE ||| 0x10)
      ((sampleFlyweight (V1_ENCODING_COOKIE ||| 0x10) 2).bytes ++ [0x81, 0x01])) none =
        some (0, some sampleHistogram) ∧
      sampleHistogram.applyToCountsZz [0x81, 0x01] 2 =
        some (HDR_TRAILING_ZEROS_INVALID, sampleHistogram) := by
  refine ⟨⟨by decide +kernel, by decide +kernel, ?_, by decide +kernel⟩, by decide +kernel,
    by decide +kernel⟩
  unfold KnownWordSize
  decide

end HdrHistogramC
