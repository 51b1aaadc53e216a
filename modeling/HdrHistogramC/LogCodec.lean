import HdrHistogramC.Wire

/-!
# The compressed encoding

`hdr_encode_compressed`, the three decoders behind `hdr_decode_compressed`, and
the base 64 text around them. The outer `none` of every function is an access
outside an allocation: a payload byte written past its buffer, more room given to
`inflate` than its output has, a byte of the inflated payload read past its end,
or a count stored outside the array.
-/
namespace HdrHistogramC
open BoundedLoop

namespace HdrHistogram

def encodedCountsLimit (h : HdrHistogram) : Int32 :=
  let lenToMax := h.countsIndexFor h.maxValue + 1
  if lenToMax < h.countsLen then lenToMax else h.countsLen

/-- The integers of the payload: a run of `zeros` zeros becomes one negative number,
written when the run ends. -/
def payloadValues : ℕ → List Int64 → List Int64
  | zeros, [] => if zeros = 0 then [] else [-Int64.ofNat zeros]
  | zeros, value :: counts =>
      if value = 0 then payloadValues (zeros + 1) counts
      else (if zeros = 0 then [] else [-Int64.ofNat zeros]) ++ value :: payloadValues 0 counts

/-- The integers are written one after the other into a buffer with room for
`capacity` bytes. -/
def writePayload (capacity : ℕ) : List UInt8 → List Int64 → Option (List UInt8)
  | buffer, [] => some buffer
  | buffer, value :: values =>
      let bytes := zigZagEncodeI64 value
      if buffer.length + bytes.length ≤ capacity then writePayload capacity (buffer ++ bytes) values
      else none

def encodingFlyweight (h : HdrHistogram) (payloadLen : ℕ) : EncodingFlyweightV1 where
  cookie := V2_ENCODING_COOKIE ||| 0x10
  payloadLen := (Int32.ofNat payloadLen).toUInt32
  normalizingIndexOffset := h.normalizingIndexOffset
  significantFigures := h.significantFigures
  lowestDiscernibleValue := h.lowestDiscernibleValue
  highestTrackableValue := h.highestTrackableValue
  conversionRatioBits := h.conversionRatio

def hdrEncodeCompressed (z : Zlib) (h : HdrHistogram) : Option (Except Int32 (List UInt8)) :=
  let countsLimit := h.encodedCountsLimit
  let encodedLen := SIZEOF_ENCODING_FLYWEIGHT_V1.toUInt64 + MAX_BYTES_LEB128.toUInt64 *
    sizeT countsLimit
  match hdrCallocBytes encodedLen.toNat with
  | none => some (.error ENOMEM)
  | some encoded =>
      match writePayload (encoded.length - SIZEOF_ENCODING_FLYWEIGHT_V1) []
          (payloadValues 0 (h.counts.take countsLimit.toInt.toNat)) with
      | none => none
      | some payload =>
          let encoded := (h.encodingFlyweight payload.length).bytes ++ payload
          match z.compress (z.compressBound encoded.length) encoded with
          | none => some (.error HDR_DEFLATE_FAIL)
          | some data => some (.ok (CompressionFlyweight.bytes
              { cookie := V2_COMPRESSION_COOKIE ||| 0x10
                length := Int32.ofNat data.length } ++ data))

def hdrLogEncode (z : Zlib) (h : HdrHistogram) : Option (Except Int32 (List UInt8)) :=
  match h.hdrEncodeCompressed z with
  | none => none
  | some (.error rc) => some (.error rc)
  | some (.ok compressed) =>
      some (hdrBase64Encode compressed (hdrBase64EncodedLen compressed.length))

/-- `h->counts[index] = value` -/
def countsSet (h : HdrHistogram) (index : ℕ) (value : Int64) : Option HdrHistogram :=
  if index < h.counts.length then
    some { h with
      counts := h.counts.set index value
      counts_length := by rw [List.length_set, h.counts_length] }
  else none

/-- The copy loop from index `i` on, for words of `size` bytes. -/
def applyWords (size : ℕ) (word : List UInt8 → Int64) (countsData : List UInt8) :
    ℕ → ℕ → HdrHistogram → Option HdrHistogram
  | 0, _, h => some h
  | n + 1, i, h =>
      if (i + 1) * size ≤ countsData.length then
        (h.countsSet i (word (field countsData (i * size) size))).bind
          (applyWords size word countsData n (i + 1))
      else none

/-- The byte swaps return unsigned words, which are then widened. -/
def applyToCounts16 (h : HdrHistogram) (countsData : List UInt8) (countsLimit : Int32) :
    Option HdrHistogram :=
  applyWords 2 (fun bytes => (be16toh bytes).toUInt64.toInt64) countsData
    countsLimit.toInt.toNat 0 h

def applyToCounts32 (h : HdrHistogram) (countsData : List UInt8) (countsLimit : Int32) :
    Option HdrHistogram :=
  applyWords 4 (fun bytes => (be32toh bytes).toUInt64.toInt64) countsData
    countsLimit.toInt.toNat 0 h

def applyToCounts64 (h : HdrHistogram) (countsData : List UInt8) (countsLimit : Int32) :
    Option HdrHistogram :=
  applyWords 8 (fun bytes => (be64toh bytes).toInt64) countsData countsLimit.toInt.toNat 0 h

/-- One round of the loop, and the checks after it. -/
def zzBody (countsData : List UInt8) (dataLimit : Int32) :
    HdrHistogram × ℕ × ℕ → Option (Round (HdrHistogram × ℕ × ℕ) (Int32 × HdrHistogram))
  | (h, dataIndex, countsIndex) =>
      if (dataIndex : ℤ) < dataLimit.toInt ∧ (countsIndex : ℤ) < h.countsLen.toInt then
        match zigZagDecodeI64 (countsData.drop dataIndex) with
        | none => none
        | some (bytesRead, value) =>
            if value < 0 then
              let zeros := -value
              if value ≤ Int32.minValue.toInt64 ∨
                  countsIndex + zeros.toInt > h.countsLen.toInt then
                some (.leave (HDR_TRAILING_ZEROS_INVALID, h))
              else some (.again (h, dataIndex + bytesRead, countsIndex + zeros.toInt.toNat))
            else
              (h.countsSet countsIndex value).map fun h =>
                .again (h, dataIndex + bytesRead, countsIndex + 1)
      else if (dataIndex : ℤ) > dataLimit.toInt then some (.leave (HDR_VALUE_TRUNCATED, h))
      else if (dataIndex : ℤ) < dataLimit.toInt then
        some (.leave (HDR_ENCODED_INPUT_TOO_LONG, h))
      else some (.leave (0, h))

/-- Every round reads at least one byte. -/
def applyToCountsZz (h : HdrHistogram) (countsData : List UInt8) (dataLimit : Int32) :
    Option (Int32 × HdrHistogram) :=
  run (zzBody countsData dataLimit) (dataLimit.toInt.toNat + 1) (h, 0, 0)

def applyToCounts (h : HdrHistogram) (wordSize : UInt32) (countsData : List UInt8)
    (countsLimit : Int32) : Option (Int32 × HdrHistogram) :=
  if wordSize = 2 then (h.applyToCounts16 countsData countsLimit).map fun h => (0, h)
  else if wordSize = 4 then (h.applyToCounts32 countsData countsLimit).map fun h => (0, h)
  else if wordSize = 8 then (h.applyToCounts64 countsData countsLimit).map fun h => (0, h)
  else if wordSize = 1 then h.applyToCountsZz countsData countsLimit
  else some (-1, h)

end HdrHistogram

section Decode
variable (z : Zlib) (stack : ℕ → UInt8)

/-- What the three decoders do first: check the length and inflate the header.
Bytes of the header that `inflate` does not write are those left on the stack. -/
def inflateHeader (buffer : List UInt8) (headerLen : ℕ) :
    Except Int32 (List UInt8 × z.Stream) :=
  match z.inflateInit with
  | none => .error HDR_INFLATE_FAIL
  | some strm =>
      let compressedLength := (CompressionFlyweight.read buffer).length
      if compressedLength < 0 ∨ UInt64.ofNat buffer.length - SIZEOF_COMPRESSION_FLYWEIGHT.toUInt64 <
          sizeT compressedLength then
        .error EINVAL
      else
        let strm := z.setInput strm
          ((buffer.drop SIZEOF_COMPRESSION_FLYWEIGHT).take compressedLength.toInt.toNat)
        match z.inflate strm headerLen .syncFlush with
        | (.ok, out, strm) => .ok ((List.range headerLen).map fun i => out[i]?.getD (stack i), strm)
        | _ => .error HDR_INFLATE_FAIL

/-- `V1` and `V2` share their header. -/
def openFlyweightV1 (buffer : List UInt8) (cookie : UInt32) :
    Except Int32 (EncodingFlyweightV1 × z.Stream) :=
  match inflateHeader z stack buffer SIZEOF_ENCODING_FLYWEIGHT_V1 with
  | .error r => .error r
  | .ok (bytes, strm) =>
      let encodingFlyweight := EncodingFlyweightV1.read bytes
      if cookie ≠ getCookieBase encodingFlyweight.cookie then .error HDR_ENCODING_COOKIE_MISMATCH
      else .ok (encodingFlyweight, strm)

def openFlyweightV0 (buffer : List UInt8) : Except Int32 (EncodingFlyweightV0 × z.Stream) :=
  match inflateHeader z stack buffer SIZEOF_ENCODING_FLYWEIGHT_V0 with
  | .error r => .error r
  | .ok (bytes, strm) =>
      let encodingFlyweight := EncodingFlyweightV0.read bytes
      if V0_ENCODING_COOKIE ≠ getCookieBase encodingFlyweight.cookie then
        .error HDR_ENCODING_COOKIE_MISMATCH
      else .ok (encodingFlyweight, strm)

/-- The second call of `inflate`: into a new array of `size` bytes, with room for
`availOut` bytes. -/
def inflateCounts (strm : z.Stream) (size : UInt64) (availOut : UInt32) :
    Option (Except Int32 (List UInt8)) :=
  match hdrCallocBytes size.toNat with
  | none => some (.error ENOMEM)
  | some countsArray =>
      if availOut.toNat ≤ countsArray.length then
        match z.inflate strm availOut.toNat .finish with
        | (.streamEnd, out, _) => some (.ok (out ++ countsArray.drop out.length))
        | _ => some (.error HDR_INFLATE_FAIL)
      else none

def hdrDecodeCompressedV0 (buffer : List UInt8) : Option (Except Int32 HdrHistogram) :=
  match openFlyweightV0 z stack buffer with
  | .error r => some (.error r)
  | .ok (encodingFlyweight, strm) =>
      let wordSize := wordSizeFromCookie encodingFlyweight.cookie
      match hdrInit encodingFlyweight.lowestDiscernibleValue
          encodingFlyweight.highestTrackableValue encodingFlyweight.significantFigures with
      | none => none
      | some (.error _) => some (.error ENOMEM)
      | some (.ok h) =>
          let countsArrayLen := h.countsLen * wordSize.toInt32
          match inflateCounts z strm (sizeT countsArrayLen) countsArrayLen.toUInt32 with
          | none => none
          | some (.error r) => some (.error r)
          | some (.ok countsArray) =>
              (h.applyToCounts wordSize countsArray h.countsLen).map fun r =>
                .ok { r.2.hdrResetInternalCounters with
                  normalizingIndexOffset := 0
                  conversionRatio := conversionRatioOne }

def hdrDecodeCompressedV1 (buffer : List UInt8) : Option (Except Int32 HdrHistogram) :=
  match openFlyweightV1 z stack buffer V1_ENCODING_COOKIE with
  | .error r => some (.error r)
  | .ok (encodingFlyweight, strm) =>
      let wordSize := wordSizeFromCookie encodingFlyweight.cookie
      if wordSize = 0 then some (.error HDR_INVALID_WORD_SIZE)
      else
        -- both operands of the division are unsigned
        let countsLimit := (encodingFlyweight.payloadLen / wordSize).toInt32
        match hdrInit encodingFlyweight.lowestDiscernibleValue
            encodingFlyweight.highestTrackableValue encodingFlyweight.significantFigures with
        | none => none
        | some (.error _) => some (.error ENOMEM)
        | some (.ok h) =>
            let countsArrayLen := countsLimit * wordSize.toInt32
            match inflateCounts z strm (sizeT countsArrayLen) countsArrayLen.toUInt32 with
            | none => none
            | some (.error r) => some (.error r)
            | some (.ok countsArray) =>
                (h.applyToCounts wordSize countsArray countsLimit).map fun r =>
                  .ok (HdrHistogram.hdrResetInternalCounters { r.2 with
                    normalizingIndexOffset := encodingFlyweight.normalizingIndexOffset
                    conversionRatio := encodingFlyweight.conversionRatioBits })

def hdrDecodeCompressedV2 (buffer : List UInt8) : Option (Except Int32 HdrHistogram) :=
  match openFlyweightV1 z stack buffer V2_ENCODING_COOKIE with
  | .error r => some (.error r)
  | .ok (encodingFlyweight, strm) =>
      let countsLimit := encodingFlyweight.payloadLen.toInt32
      match hdrInit encodingFlyweight.lowestDiscernibleValue
          encodingFlyweight.highestTrackableValue encodingFlyweight.significantFigures with
      | none => none
      | some (.error rc) => some (.error rc)
      | some (.ok h) =>
          match inflateCounts z strm (sizeT countsLimit + 9) countsLimit.toUInt32 with
          | none => none
          | some (.error r) => some (.error r)
          | some (.ok countsArray) =>
              (h.applyToCountsZz countsArray countsLimit).map fun r =>
                if r.1 ≠ 0 then .error r.1
                else .ok (HdrHistogram.hdrResetInternalCounters { r.2 with
                  normalizingIndexOffset := encodingFlyweight.normalizingIndexOffset
                  conversionRatio := encodingFlyweight.conversionRatioBits })

/-- What the three decoders do last: hand the histogram over, or merge it. -/
def handOver (histogram : Option HdrHistogram) (decoded : Except Int32 HdrHistogram) :
    Option (Int32 × Option HdrHistogram) :=
  match decoded, histogram with
  | .error result, _ => some (result, histogram)
  | .ok h, none => some (0, some h)
  | .ok h, some g => (g.hdrAdd h).map fun r => (0, some r.2)

def hdrDecodeCompressed (buffer : List UInt8) (histogram : Option HdrHistogram) :
    Option (Int32 × Option HdrHistogram) :=
  if buffer.length < SIZEOF_COMPRESSION_FLYWEIGHT then some (EINVAL, histogram)
  else
    let compressionCookie := getCookieBase (CompressionFlyweight.read buffer).cookie
    if V0_COMPRESSION_COOKIE = compressionCookie then
      (hdrDecodeCompressedV0 z stack buffer).bind (handOver histogram)
    else if V1_COMPRESSION_COOKIE = compressionCookie then
      (hdrDecodeCompressedV1 z stack buffer).bind (handOver histogram)
    else if V2_COMPRESSION_COOKIE = compressionCookie then
      (hdrDecodeCompressedV2 z stack buffer).bind (handOver histogram)
    else some (HDR_COMPRESSION_COOKIE_MISMATCH, histogram)

def hdrLogDecode (base64Histogram : List UInt8) (histogram : Option HdrHistogram) :
    Option (Int32 × Option HdrHistogram) :=
  match hdrBase64Decode base64Histogram (hdrBase64DecodedLen base64Histogram.length) with
  | .error r => some (r, histogram)
  | .ok compressedHistogram => hdrDecodeCompressed z stack compressedHistogram histogram

end Decode

end HdrHistogramC
