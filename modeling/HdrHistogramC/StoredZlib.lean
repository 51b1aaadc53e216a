import HdrHistogramC.Wire

/-!
# zlib streams of stored blocks

What is assumed of zlib for a round trip, and the part of the format that meets it
with the least machinery: streams whose blocks are stored uncompressed. Every
implementation inflates such streams, so they also serve as concrete inputs.
-/
namespace HdrHistogramC
open BigEndian

/-- Inflating the output of `compress`, first a proper part of the data and then the
rest, gives the data back. -/
structure Zlib.RoundTrips (z : Zlib) : Prop where
  init : z.inflateInit ≠ none
  bound_le : ∀ n, z.compressBound n ≤ 2 * n + 64
  compress : ∀ data, ∃ dest, z.compress (z.compressBound data.length) data = some dest
  inflate : ∀ data dest strm n,
    z.compress (z.compressBound data.length) data = some dest → z.inflateInit = some strm →
    0 < n → n < data.length →
    ∃ strm' strm'', z.inflate (z.setInput strm dest) n .syncFlush = (.ok, data.take n, strm') ∧
      z.inflate strm' (data.length - n) .finish = (.streamEnd, data.drop n, strm'')

def adler32 (data : List UInt8) : ℕ :=
  let s := data.foldl (fun s b => ((s.1 + b.toNat) % 65521, (s.2 + s.1 + b.toNat) % 65521)) (1, 0)
  s.2 * 65536 + s.1

/-- One stored block: the final flag, the length in little-endian order and its
complement, and the data. -/
def storedBlock (final : UInt8) (data : List UInt8) : List UInt8 :=
  let lo := UInt8.ofNat data.length
  let hi := UInt8.ofNat (data.length / 256)
  [final, lo, hi, lo ^^^ 0xFF, hi ^^^ 0xFF] ++ data

def storedBlocks : ℕ → List UInt8 → List UInt8
  | 0, data => storedBlock 1 data
  | n + 1, data => storedBlock 0 (data.take 65535) ++ storedBlocks n (data.drop 65535)

def storedStream (data : List UInt8) : List UInt8 :=
  [0x78, 0x01] ++ storedBlocks (data.length / 65535) data ++ toBytes 4 (adler32 data)

/-- The data of the blocks, and what follows the final one. -/
def readBlocks : ℕ → List UInt8 → Option (List UInt8 × List UInt8)
  | n + 1, final :: lo :: hi :: clo :: chi :: rest =>
      let len := lo.toNat + 256 * hi.toNat
      if lo ^^^ 0xFF = clo ∧ hi ^^^ 0xFF = chi ∧ len ≤ rest.length then
        if final = 1 then some (rest.take len, rest.drop len)
        else if final = 0 then
          (readBlocks n (rest.drop len)).map fun r => (rest.take len ++ r.1, r.2)
        else none
      else none
  | _, _ => none

def readStream : List UInt8 → Option (List UInt8)
  | 0x78 :: 0x01 :: rest =>
      match readBlocks rest.length rest with
      | some (data, trailer) =>
          if trailer.take 4 = toBytes 4 (adler32 data) then some data else none
      | none => none
  | _ => none

def inflateStored (strm : Option (List UInt8)) (availOut : ℕ) (flush : Flush) :
    InflateStatus × List UInt8 × Option (List UInt8) :=
  match strm with
  | none => (.failed, [], none)
  | some data =>
      if data.length ≤ availOut then (.streamEnd, data, some [])
      else (if flush = .syncFlush then .ok else .failed, data.take availOut,
        some (data.drop availOut))

def storedZlib : Zlib where
  Stream := Option (List UInt8)
  inflateInit := some none
  setInput _ input := readStream input
  inflate := inflateStored
  inflate_le strm availOut flush := by
    unfold inflateStored
    split
    · simp
    · split
      next h => exact h
      next h => exact List.length_take_le ..
  compressBound n := n + n / 4096 + n / 16384 + n / 33554432 + 13
  compress destLen source :=
    if (storedStream source).length ≤ destLen then some (storedStream source) else none
  compress_le destLen source dest h := by
    split_ifs at h with hle
    cases h
    exact hle

instance : DecidableEq storedZlib.Stream := inferInstanceAs (DecidableEq (Option (List UInt8)))

theorem storedBlocks_length (n : ℕ) (data : List UInt8) (h : 65535 * n ≤ data.length) :
    (storedBlocks n data).length = data.length + 5 * (n + 1) := by
  induction n generalizing data with
  | zero => simp [storedBlocks, storedBlock]
  | succ n ih =>
      rw [storedBlocks, List.length_append, ih _ (by rw [List.length_drop]; omega)]
      simp only [storedBlock, List.length_append, List.length_cons, List.length_nil,
        List.length_take, List.length_drop]
      omega

theorem readBlocks_block {n : ℕ} {final : UInt8} {data rest : List UInt8}
    (h : data.length < 65536) : readBlocks (n + 1) (storedBlock final data ++ rest) =
      if final = 1 then some (data, rest)
      else if final = 0 then (readBlocks n rest).map fun r => (data ++ r.1, r.2) else none := by
  have hlen : (UInt8.ofNat data.length).toNat + 256 * (UInt8.ofNat (data.length / 256)).toNat =
      data.length := by
    simp only [UInt8.toNat_ofNat']
    omega
  simp only [storedBlock, List.cons_append, List.nil_append, readBlocks, hlen, true_and,
    List.length_append]
  rw [if_pos (by omega), List.take_left, List.drop_left]

theorem readBlocks_blocks (n fuel : ℕ) (data rest : List UInt8) (h₁ : 65535 * n ≤ data.length)
    (h₂ : data.length < 65535 * n + 65536) (hf : n < fuel) :
    readBlocks fuel (storedBlocks n data ++ rest) = some (data, rest) := by
  induction n generalizing fuel data with
  | zero =>
      obtain ⟨fuel, rfl⟩ : ∃ k, fuel = k + 1 := ⟨fuel - 1, by omega⟩
      rw [storedBlocks, readBlocks_block (by omega), if_pos rfl]
  | succ n ih =>
      obtain ⟨fuel, rfl⟩ : ∃ k, fuel = k + 1 := ⟨fuel - 1, by omega⟩
      have hrest := ih fuel (data.drop 65535) (by rw [List.length_drop]; omega)
        (by rw [List.length_drop]; omega) (by omega)
      rw [storedBlocks, List.append_assoc,
        readBlocks_block (by rw [List.length_take]; omega), if_neg (by decide), if_pos rfl, hrest,
        Option.map_some, List.take_append_drop]

theorem readStream_storedStream (data : List UInt8) :
    readStream (storedStream data) = some data := by
  have hdiv := Nat.div_add_mod data.length 65535
  have hmod := Nat.mod_lt data.length (show 0 < 65535 by omega)
  have hlen := storedBlocks_length (data.length / 65535) data (by omega)
  have hread := readBlocks_blocks (data.length / 65535)
    (storedBlocks (data.length / 65535) data ++ toBytes 4 (adler32 data)).length data
    (toBytes 4 (adler32 data)) (by omega) (by omega)
    (by rw [List.length_append, hlen]; omega)
  have htake : (toBytes 4 (adler32 data)).take 4 = toBytes 4 (adler32 data) :=
    List.take_of_length_le (by simp)
  simp only [storedStream, List.cons_append, List.nil_append, readStream, hread, htake, if_true]

theorem storedZlib_roundTrips : storedZlib.RoundTrips where
  init := by simp [storedZlib]
  bound_le n := by
    change n + n / 4096 + n / 16384 + n / 33554432 + 13 ≤ _
    omega
  compress data := by
    have hlen := storedBlocks_length (data.length / 65535) data (by omega)
    refine ⟨storedStream data, if_pos ?_⟩
    change _ ≤ data.length + data.length / 4096 + data.length / 16384 +
      data.length / 33554432 + 13
    simp only [storedStream, List.length_append, hlen, toBytes_length, List.length_cons,
      List.length_nil]
    omega
  inflate data dest strm n hc _ hn hlt := by
    have hd : dest = storedStream data := by
      change (if _ then some (storedStream data) else none) = some dest at hc
      split_ifs at hc
      exact (Option.some.inj hc).symm
    refine ⟨some (data.drop n), some [], ?_, ?_⟩
    · change inflateStored (readStream dest) n .syncFlush = _
      rw [hd, readStream_storedStream]
      simp only [inflateStored, if_neg (Nat.not_le.mpr hlt), if_true]
      rfl
    · change inflateStored (some (data.drop n)) (data.length - n) .finish = _
      simp only [inflateStored, List.length_drop, le_refl, if_true]
      rfl

/-- The buffer around a compressed header and payload. -/
def storedBuffer (cookie : UInt32) (data : List UInt8) : List UInt8 :=
  CompressionFlyweight.bytes
    { cookie := cookie
      length := Int32.ofNat (storedStream data).length } ++ storedStream data

/-- The header of an encoding of the sample layout. -/
def sampleFlyweight (cookie payloadLen : UInt32) : EncodingFlyweightV1 where
  cookie := cookie
  payloadLen := payloadLen
  normalizingIndexOffset := 0
  significantFigures := 1
  lowestDiscernibleValue := 1
  highestTrackableValue := 100
  conversionRatioBits := conversionRatioOne

end HdrHistogramC
