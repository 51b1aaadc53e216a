import HdrHistogramC.BigEndian
import HdrHistogramC.Encoding
import HdrHistogramC.Extremes

/-!
# The wire format

The constants and the packed headers of `hdr_histogram_log.c`, in network byte
order, and the part of zlib that the source calls, as a parameter.
-/
namespace HdrHistogramC
open BigEndian

def HDR_COMPRESSION_COOKIE_MISMATCH : Int32 := -29999
def HDR_ENCODING_COOKIE_MISMATCH : Int32 := -29998
def HDR_DEFLATE_FAIL : Int32 := -29996
def HDR_INFLATE_FAIL : Int32 := -29994
def HDR_TRAILING_ZEROS_INVALID : Int32 := -29992
def HDR_VALUE_TRUNCATED : Int32 := -29991
def HDR_ENCODED_INPUT_TOO_LONG : Int32 := -29990
def HDR_INVALID_WORD_SIZE : Int32 := -29989

def V0_ENCODING_COOKIE : UInt32 := 0x1c849308
def V0_COMPRESSION_COOKIE : UInt32 := 0x1c849309
def V1_ENCODING_COOKIE : UInt32 := 0x1c849301
def V1_COMPRESSION_COOKIE : UInt32 := 0x1c849302
def V2_ENCODING_COOKIE : UInt32 := 0x1c849303
def V2_COMPRESSION_COOKIE : UInt32 := 0x1c849304

def getCookieBase (cookie : UInt32) : UInt32 := cookie &&& ~~~0xf0

def wordSizeFromCookie (cookie : UInt32) : UInt32 := (cookie &&& 0xf0) >>> 4

def SIZEOF_ENCODING_FLYWEIGHT_V0 : ℕ := 32
def SIZEOF_ENCODING_FLYWEIGHT_V1 : ℕ := 40
def SIZEOF_COMPRESSION_FLYWEIGHT : ℕ := 8

inductive Flush where
  | syncFlush
  | finish
deriving Repr, DecidableEq

/-- `Z_OK`, `Z_STREAM_END`, and every other return code. -/
inductive InflateStatus where
  | ok
  | streamEnd
  | failed
deriving Repr, DecidableEq

/-- The functions of zlib that the source calls. A stream carries its input; a call of
`inflate` is given the room in its output and returns the bytes written there, never
more than there is room for. -/
structure Zlib where
  Stream : Type
  inflateInit : Option Stream
  setInput : Stream → List UInt8 → Stream
  inflate : Stream → ℕ → Flush → InflateStatus × List UInt8 × Stream
  inflate_le : ∀ strm availOut flush, (inflate strm availOut flush).2.1.length ≤ availOut
  compressBound : ℕ → ℕ
  compress : ℕ → List UInt8 → Option (List UInt8)
  compress_le : ∀ destLen source dest, compress destLen source = some dest → dest.length ≤ destLen

/-- `(size_t) n` for a signed 32-bit `n`. -/
def sizeT (n : Int32) : UInt64 := n.toInt64.toUInt64

/-- Zeroed bytes. No allocator gives more than half of the address space. -/
def hdrCallocBytes (size : ℕ) : Option (List UInt8) :=
  if size < 2 ^ 63 then some (List.replicate size 0) else none

def htobe32 (x : UInt32) : List UInt8 := toBytes 4 x.toNat

def htobe64 (x : UInt64) : List UInt8 := toBytes 8 x.toNat

def be16toh (bytes : List UInt8) : UInt16 := UInt16.ofNat (ofBytes bytes)

def be32toh (bytes : List UInt8) : UInt32 := UInt32.ofNat (ofBytes bytes)

def be64toh (bytes : List UInt8) : UInt64 := UInt64.ofNat (ofBytes bytes)

/-- The bytes of a field of a packed structure. -/
def field (bytes : List UInt8) (offset size : ℕ) : List UInt8 := (bytes.drop offset).take size

/-- The fields of `encoding_flyweight_v0_t` that the decoder reads. -/
structure EncodingFlyweightV0 where
  cookie : UInt32
  significantFigures : Int32
  lowestDiscernibleValue : Int64
  highestTrackableValue : Int64
deriving Repr, DecidableEq

def EncodingFlyweightV0.read (bytes : List UInt8) : EncodingFlyweightV0 where
  cookie := be32toh (field bytes 0 4)
  significantFigures := (be32toh (field bytes 4 4)).toInt32
  lowestDiscernibleValue := (be64toh (field bytes 8 8)).toInt64
  highestTrackableValue := (be64toh (field bytes 16 8)).toInt64

structure EncodingFlyweightV1 where
  cookie : UInt32
  payloadLen : UInt32
  normalizingIndexOffset : Int32
  significantFigures : Int32
  lowestDiscernibleValue : Int64
  highestTrackableValue : Int64
  conversionRatioBits : UInt64
deriving Repr, DecidableEq

namespace EncodingFlyweightV1

def bytes (f : EncodingFlyweightV1) : List UInt8 :=
  htobe32 f.cookie ++ htobe32 f.payloadLen ++ htobe32 f.normalizingIndexOffset.toUInt32 ++
    htobe32 f.significantFigures.toUInt32 ++ htobe64 f.lowestDiscernibleValue.toUInt64 ++
    htobe64 f.highestTrackableValue.toUInt64 ++ htobe64 f.conversionRatioBits

def read (bytes : List UInt8) : EncodingFlyweightV1 where
  cookie := be32toh (field bytes 0 4)
  payloadLen := be32toh (field bytes 4 4)
  normalizingIndexOffset := (be32toh (field bytes 8 4)).toInt32
  significantFigures := (be32toh (field bytes 12 4)).toInt32
  lowestDiscernibleValue := (be64toh (field bytes 16 8)).toInt64
  highestTrackableValue := (be64toh (field bytes 24 8)).toInt64
  conversionRatioBits := be64toh (field bytes 32 8)

end EncodingFlyweightV1

structure CompressionFlyweight where
  cookie : UInt32
  length : Int32
deriving Repr, DecidableEq

namespace CompressionFlyweight

def bytes (f : CompressionFlyweight) : List UInt8 :=
  htobe32 f.cookie ++ htobe32 f.length.toUInt32

def read (bytes : List UInt8) : CompressionFlyweight where
  cookie := be32toh (field bytes 0 4)
  length := (be32toh (field bytes 4 4)).toInt32

end CompressionFlyweight

@[simp] theorem htobe32_length (x : UInt32) : (htobe32 x).length = 4 := toBytes_length ..

@[simp] theorem htobe64_length (x : UInt64) : (htobe64 x).length = 8 := toBytes_length ..

@[simp] theorem be32toh_htobe32 (x : UInt32) : be32toh (htobe32 x) = x := by
  have hx : x.toNat < 256 ^ 4 := x.toNat_lt
  rw [be32toh, htobe32, ofBytes_toBytes, Nat.mod_eq_of_lt hx, UInt32.ofNat_toNat]

@[simp] theorem be64toh_htobe64 (x : UInt64) : be64toh (htobe64 x) = x := by
  have hx : x.toNat < 256 ^ 8 := x.toNat_lt
  rw [be64toh, htobe64, ofBytes_toBytes, Nat.mod_eq_of_lt hx, UInt64.ofNat_toNat]

theorem field_append_left {a b : List UInt8} {offset size : ℕ} (h : offset + size ≤ a.length) :
    field (a ++ b) offset size = field a offset size := by
  unfold field
  rw [List.drop_append_of_le_length (by omega), List.take_append_of_le_length (by simp; omega)]

theorem field_append_right {a b : List UInt8} {offset size : ℕ} (h : a.length ≤ offset) :
    field (a ++ b) offset size = field b (offset - a.length) size := by
  unfold field
  rw [List.drop_append, List.drop_eq_nil_of_le h, List.nil_append]

theorem field_all {a : List UInt8} {size : ℕ} (h : a.length = size) : field a 0 size = a := by
  rw [field, List.drop_zero, ← h, List.take_length]

theorem EncodingFlyweightV1.bytes_length (f : EncodingFlyweightV1) :
    f.bytes.length = SIZEOF_ENCODING_FLYWEIGHT_V1 := by
  simp [EncodingFlyweightV1.bytes, SIZEOF_ENCODING_FLYWEIGHT_V1]

theorem EncodingFlyweightV1.read_bytes (f : EncodingFlyweightV1) :
    EncodingFlyweightV1.read f.bytes = f := by
  simp [EncodingFlyweightV1.read, EncodingFlyweightV1.bytes, field_append_left, field_append_right,
    field_all]

theorem CompressionFlyweight.bytes_length (f : CompressionFlyweight) :
    f.bytes.length = SIZEOF_COMPRESSION_FLYWEIGHT := by
  simp [CompressionFlyweight.bytes, SIZEOF_COMPRESSION_FLYWEIGHT]

theorem CompressionFlyweight.read_bytes (f : CompressionFlyweight) (rest : List UInt8) :
    CompressionFlyweight.read (f.bytes ++ rest) = f := by
  simp [CompressionFlyweight.read, CompressionFlyweight.bytes, field_append_left,
    field_append_right, field_all]

end HdrHistogramC
