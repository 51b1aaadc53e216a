import HdrHistogramC.Layout
import HdrHistogramC.SevenBitGroups

/-!
# Variable-length integers and base 64

`zig_zag_encode_i64`, `zig_zag_decode_i64` and the base 64 codec of
`hdr_encoding.c`. A pointer to a buffer is the list of the bytes from there to the
end of the allocation, so a read past it is `none`. The source writes its nested
tests out, nine deep; here they are a recursion on the number of groups left.
-/
namespace HdrHistogramC
open SevenBitGroups

def MAX_BYTES_LEB128 : ℕ := 9

def zigZag (signedValue : Int64) : UInt64 :=
  let value := signedValue.toUInt64
  (value <<< 1) ^^^ (-(value >>> 63))

def unZigZag (value : UInt64) : Int64 := ((value >>> 1) ^^^ (-(value &&& 1))).toInt64

def encodeGroups : ℕ → UInt64 → List UInt8
  | 0, value => [value.toUInt8]
  | n + 1, value =>
      if value >>> 7 = 0 then [value.toUInt8]
      else (value.toUInt8 ||| 0x80) :: encodeGroups n (value >>> 7)

def decodeGroups : ℕ → UInt64 → UInt64 → List UInt8 → Option (ℕ × UInt64)
  | _, _, _, [] => none
  | 0, shift, value, v :: _ => some (1, value ||| v.toUInt64 <<< shift)
  | n + 1, shift, value, v :: buffer =>
      let value := value ||| (v.toUInt64 &&& 0x7F) <<< shift
      if v &&& 0x80 ≠ 0 then
        (decodeGroups n (shift + 7) value buffer).map fun r => (r.1 + 1, r.2)
      else some (1, value)

/-- The bytes written to the buffer. -/
def zigZagEncodeI64 (signedValue : Int64) : List UInt8 := encodeGroups 8 (zigZag signedValue)

/-- The number of bytes read, and the value. -/
def zigZagDecodeI64 (buffer : List UInt8) : Option (ℕ × Int64) :=
  (decodeGroups 8 0 0 buffer).map fun r => (r.1, unZigZag r.2)

example : zigZagEncodeI64 (-300) = [0xD7, 0x04] := by decide

theorem ushiftRight_63 (b : BitVec 64) : b >>> 63 = if b.getLsbD 63 then 1#64 else 0#64 := by
  ext i hi
  rw [BitVec.getElem_ushiftRight]
  rcases Nat.eq_zero_or_pos i with rfl | h0
  · rw [Nat.add_zero]
    split_ifs with hb <;> simpa using hb
  · rw [BitVec.getLsbD_of_ge b _ (by omega)]
    split_ifs
    · simp; omega
    · simp

theorem zigZag_negative {b : BitVec 64} (hb : b.getLsbD 63 = true) :
    ((b <<< 1 ^^^ -1#64) >>> 1) ^^^ -((b <<< 1 ^^^ -1#64) &&& 1#64) = b := by
  have hneg : -1#64 = BitVec.allOnes 64 := by decide
  have hone : ~~~(b <<< 1) &&& 1#64 = 1#64 := by
    ext i hi
    simp only [BitVec.getElem_and, BitVec.getElem_not, BitVec.getElem_shiftLeft,
      BitVec.getElem_one]
    rcases Nat.eq_zero_or_pos i with rfl | h0
    · rfl
    · simp [h0.ne']
  rw [hneg, BitVec.xor_allOnes, hone, hneg, BitVec.xor_allOnes]
  ext i hi
  simp only [BitVec.getElem_not, BitVec.getElem_ushiftRight, BitVec.getLsbD_not,
    BitVec.getLsbD_shiftLeft]
  rcases Nat.lt_or_ge i 63 with h | h
  · simp [show 1 + i < 64 by omega, BitVec.getLsbD_eq_getElem hi]
  · obtain rfl : i = 63 := by omega
    simpa using hb

theorem zigZag_nonnegative {b : BitVec 64} (hb : ¬ b.getLsbD 63 = true) :
    ((b <<< 1 ^^^ -0#64) >>> 1) ^^^ -((b <<< 1 ^^^ -0#64) &&& 1#64) = b := by
  have hone : b <<< 1 &&& 1#64 = 0#64 := by
    ext i hi
    simp only [BitVec.getElem_and, BitVec.getElem_shiftLeft, BitVec.getElem_one,
      BitVec.getElem_zero]
    rcases Nat.eq_zero_or_pos i with rfl | h0
    · rfl
    · simp [h0.ne']
  rw [BitVec.neg_zero, BitVec.xor_zero, hone, BitVec.neg_zero, BitVec.xor_zero]
  ext i hi
  simp only [BitVec.getElem_ushiftRight, BitVec.getLsbD_shiftLeft]
  rcases Nat.lt_or_ge i 63 with h | h
  · simp [show 1 + i < 64 by omega, BitVec.getLsbD_eq_getElem hi]
  · obtain rfl : i = 63 := by omega
    simpa using hb

theorem unZigZag_zigZag (x : Int64) : unZigZag (zigZag x) = x := by
  rw [← Int64.toBitVec_inj]
  change ((x.toBitVec <<< 1 ^^^ -(x.toBitVec >>> 63)) >>> 1) ^^^
    -((x.toBitVec <<< 1 ^^^ -(x.toBitVec >>> 63)) &&& 1#64) = x.toBitVec
  rw [ushiftRight_63]
  split_ifs with hb
  · exact zigZag_negative hb
  · exact zigZag_nonnegative hb

/-- The signed number that an unsigned one stands for. -/
def zigZagValue (n : ℕ) : ℤ := if n % 2 = 0 then n / 2 else -((n + 1) / 2)

theorem unZigZag_toInt (value : UInt64) : (unZigZag value).toInt = zigZagValue value.toNat := by
  have hlt := value.toNat_lt
  have hshift : (value >>> 1).toBitVec.toNat = value.toNat / 2 := by
    change (value >>> 1).toNat = _
    rw [UInt64.toNat_shiftRight, Nat.shiftRight_eq_div_pow]
    rfl
  have hone : (value &&& 1).toNat = value.toNat % 2 := by
    rw [UInt64.toNat_and]
    exact Nat.and_one_is_mod _
  have hbits : (unZigZag value).toInt =
      ((value >>> 1).toBitVec ^^^ -(value &&& 1).toBitVec).toInt := rfl
  rw [hbits, zigZagValue]
  split_ifs with hpar
  · have hz : value &&& 1 = 0 := UInt64.toNat_inj.mp (by rw [hone, hpar]; rfl)
    rw [hz]
    change ((value >>> 1).toBitVec ^^^ -0#64).toInt = _
    rw [BitVec.neg_zero, BitVec.xor_zero, BitVec.toInt_eq_toNat_of_lt (by omega), hshift]
    push_cast
    rfl
  · have h1 : value &&& 1 = 1 := UInt64.toNat_inj.mp (by
      rw [hone]
      change value.toNat % 2 = 1
      omega)
    have hneg : -1#64 = BitVec.allOnes 64 := by decide
    rw [h1]
    change ((value >>> 1).toBitVec ^^^ -1#64).toInt = _
    rw [hneg, BitVec.xor_allOnes, BitVec.toInt_not, hshift, Int.bmod_def]
    split_ifs <;> omega

theorem toNat_or_0x80 (a : UInt8) : (a ||| 0x80).toNat = a.toNat % 128 + 128 := by
  have h : ∀ i : Fin 256, (i.val ||| 128) = i.val % 128 + 128 := by decide +kernel
  exact h ⟨a.toNat, a.toNat_lt⟩

theorem and_0x80_ne_zero (a : UInt8) : a &&& 0x80 ≠ 0 ↔ ¬ a.toNat < 128 := by
  have h : ∀ i : Fin 256, (i.val &&& 128) = 0 ↔ i.val < 128 := by
    decide +kernel
  rw [Ne, ← UInt8.toNat_inj, not_iff_not]
  exact h ⟨a.toNat, a.toNat_lt⟩

theorem encodeGroups_toNat (n : ℕ) (x : UInt64) (hx : x.toNat < 2 ^ (7 * n + 8)) :
    (encodeGroups n x).map UInt8.toNat = writeGroups n x.toNat := by
  induction n generalizing x with
  | zero =>
      simp only [encodeGroups, writeGroups, List.map_cons, List.map_nil, UInt64.toNat_toUInt8]
      rw [Nat.mod_eq_of_lt (by omega)]
  | succ n ih =>
      have hshift : (x >>> 7).toNat = x.toNat / 128 := by
        rw [UInt64.toNat_shiftRight, Nat.shiftRight_eq_div_pow]
        rfl
      have hzero : x >>> 7 = 0 ↔ x.toNat < 128 := by
        rw [← UInt64.toNat_inj, hshift]
        change x.toNat / 128 = 0 ↔ _
        omega
      rw [encodeGroups, writeGroups]
      by_cases h : x.toNat < 128
      · rw [if_pos (hzero.mpr h), if_pos h]
        simp only [List.map_cons, List.map_nil, UInt64.toNat_toUInt8]
        rw [Nat.mod_eq_of_lt (by omega)]
      · have hpow : 2 ^ (7 * (n + 1) + 8) = 128 * 2 ^ (7 * n + 8) := by ring
        rw [if_neg (mt hzero.mp h), if_neg h, List.map_cons, ih _ (by rw [hshift]; omega), hshift,
          toNat_or_0x80, UInt64.toNat_toUInt8]
        have hbyte : x.toNat % 2 ^ 8 % 128 + 128 = x.toNat % 128 + 128 := by omega
        rw [hbyte]

theorem toNat_or_shiftLeft {a b s : UInt64} (hs : s.toNat < 64) (ha : a.toNat < 2 ^ s.toNat)
    (hb : b.toNat * 2 ^ s.toNat < 2 ^ 64) :
    (a ||| b <<< s).toNat = a.toNat + 2 ^ s.toNat * b.toNat := by
  rw [UInt64.toNat_or, UInt64.toNat_shiftLeft, Nat.mod_eq_of_lt hs, Nat.shiftLeft_eq,
    Nat.mod_eq_of_lt hb, Nat.or_comm, Nat.mul_comm, ← Nat.two_pow_add_eq_or_of_lt ha,
    Nat.add_comm]

/-- One group of seven bits is added above the bits that were read. -/
theorem toNat_or_group {n : ℕ} {shift value : UInt64} (v : UInt8)
    (hs : shift.toNat + (7 * (n + 1) + 8) = 64) (hv : value.toNat < 2 ^ shift.toNat) :
    (shift + 7).toNat = shift.toNat + 7 ∧
      (value ||| (v.toUInt64 &&& 0x7F) <<< shift).toNat =
        value.toNat + 2 ^ shift.toNat * (v.toNat % 128) ∧
      (value ||| (v.toUInt64 &&& 0x7F) <<< shift).toNat < 2 ^ (shift + 7).toNat := by
  have hgroup : (v.toUInt64 &&& 0x7F).toNat = v.toNat % 128 := by
    rw [UInt64.toNat_and, UInt8.toNat_toUInt64]
    exact Nat.and_two_pow_sub_one_eq_mod v.toNat 7
  have hshift : (shift + 7).toNat = shift.toNat + 7 := by
    rw [UInt64.toNat_add]
    exact Nat.mod_eq_of_lt (by change shift.toNat + 7 < _; omega)
  have hpow : 2 ^ (shift.toNat + 7) = 128 * 2 ^ shift.toNat := by ring
  have hle : 2 ^ (shift.toNat + 7) ≤ 2 ^ 63 := Nat.pow_le_pow_right (by omega) (by omega)
  have hmod := Nat.mod_lt v.toNat (show 0 < 128 by omega)
  have hor := toNat_or_shiftLeft (b := v.toUInt64 &&& 0x7F) (by omega) hv (by
    rw [hgroup]
    have := Nat.mul_le_mul_right (2 ^ shift.toNat) hmod.le
    omega)
  rw [hgroup] at hor
  refine ⟨hshift, hor, ?_⟩
  rw [hor, hshift, hpow]
  have := Nat.mul_le_mul_left (2 ^ shift.toNat) (show v.toNat % 128 ≤ 127 by omega)
  omega

theorem decodeGroups_eq (n : ℕ) (shift value : UInt64) (bs : List UInt8)
    (hs : shift.toNat + (7 * n + 8) = 64) (hv : value.toNat < 2 ^ shift.toNat) :
    decodeGroups n shift value bs = (readGroups n (bs.map UInt8.toNat)).map fun r =>
      (r.1, UInt64.ofNat (value.toNat + 2 ^ shift.toNat * r.2)) := by
  induction n generalizing shift value bs with
  | zero =>
      cases bs with
      | nil => rfl
      | cons v bs =>
          have hlt := v.toNat_lt
          have hpow : 2 ^ 64 = 256 * 2 ^ shift.toNat := by
            rw [show shift.toNat = 56 by omega]
            norm_num
          have hor := toNat_or_shiftLeft (b := v.toUInt64) (by omega) hv (by
            rw [UInt8.toNat_toUInt64, hpow]
            exact Nat.mul_lt_mul_of_pos_right hlt (Nat.two_pow_pos _))
          simp only [decodeGroups, readGroups, List.map_cons, Option.map_some]
          rw [UInt8.toNat_toUInt64] at hor
          rw [← hor, UInt64.ofNat_toNat]
  | succ n ih =>
      cases bs with
      | nil => rfl
      | cons v bs =>
          obtain ⟨hshift, hor, hnext⟩ := toNat_or_group v hs hv
          rw [decodeGroups, List.map_cons, readGroups]
          by_cases h : v.toNat < 128
          · rw [if_neg (mt (and_0x80_ne_zero v).mp (not_not.mpr h)), if_pos h, Option.map_some]
            rw [Nat.mod_eq_of_lt h] at hor
            rw [← hor, UInt64.ofNat_toNat]
          · rw [if_pos ((and_0x80_ne_zero v).mpr h), if_neg h,
              ih (shift + 7) _ bs (by rw [hshift]; omega) hnext, Option.map_map, Option.map_map]
            congr 1
            funext r
            have hlt := v.toNat_lt
            have hgrp : v.toNat % 128 = v.toNat - 128 := by omega
            have hsum : value.toNat + 2 ^ shift.toNat * (v.toNat - 128) +
                2 ^ (shift.toNat + 7) * r.2 =
                  value.toNat + 2 ^ shift.toNat * (v.toNat - 128 + 128 * r.2) := by
              ring
            simp only [Function.comp, hor, hshift, hgrp, hsum]

theorem zigZagDecodeI64_eq (bs : List UInt8) : zigZagDecodeI64 bs =
    (readGroups 8 (bs.map UInt8.toNat)).map fun r => (r.1, unZigZag (UInt64.ofNat r.2)) := by
  rw [zigZagDecodeI64, decodeGroups_eq 8 0 0 _ rfl (by decide), Option.map_map]
  simp [Function.comp_def]

theorem zigZagEncodeI64_toNat (x : Int64) :
    (zigZagEncodeI64 x).map UInt8.toNat = writeGroups 8 (zigZag x).toNat :=
  encodeGroups_toNat 8 (zigZag x) (UInt64.toNat_lt _)

theorem zigZagDecodeI64_encode (x : Int64) (rest : List UInt8) :
    zigZagDecodeI64 (zigZagEncodeI64 x ++ rest) = some ((zigZagEncodeI64 x).length, x) := by
  have hlen := congrArg List.length (zigZagEncodeI64_toNat x)
  rw [List.length_map] at hlen
  rw [zigZagDecodeI64_eq, List.map_append, zigZagEncodeI64_toNat, readGroups_writeGroups,
    Option.map_some, UInt64.ofNat_toNat, unZigZag_zigZag, hlen]

theorem zigZagEncodeI64_length (x : Int64) :
    1 ≤ (zigZagEncodeI64 x).length ∧ (zigZagEncodeI64 x).length ≤ MAX_BYTES_LEB128 := by
  have hlen := congrArg List.length (zigZagEncodeI64_toNat x)
  rw [List.length_map] at hlen
  rw [hlen]
  exact writeGroups_length 8 _

theorem zigZagDecodeI64_le {bs : List UInt8} {r : ℕ × Int64} (h : zigZagDecodeI64 bs = some r) :
    1 ≤ r.1 ∧ r.1 ≤ MAX_BYTES_LEB128 ∧ r.1 ≤ bs.length := by
  rw [zigZagDecodeI64_eq] at h
  obtain ⟨s, hs, rfl⟩ := Option.map_eq_some_iff.mp h
  have := readGroups_le hs
  rwa [List.length_map] at this

theorem zigZagDecodeI64_eq_none_iff {bs : List UInt8} :
    zigZagDecodeI64 bs = none ↔ bs.length < MAX_BYTES_LEB128 ∧ ∀ b ∈ bs, 128 ≤ b.toNat := by
  rw [zigZagDecodeI64_eq, Option.map_eq_none_iff, readGroups_eq_none_iff, List.length_map,
    List.forall_mem_map, MAX_BYTES_LEB128, Nat.lt_succ_iff]

theorem zigZagDecodeI64_append {bs : List UInt8} {r : ℕ × Int64} (h : zigZagDecodeI64 bs = some r)
    (rest : List UInt8) : zigZagDecodeI64 (bs ++ rest) = some r := by
  rw [zigZagDecodeI64_eq] at h ⊢
  obtain ⟨s, hs, rfl⟩ := Option.map_eq_some_iff.mp h
  rw [List.map_append, readGroups_append hs, Option.map_some]

theorem zigZagDecodeI64_take {bs : List UInt8} {r : ℕ × Int64} (h : zigZagDecodeI64 bs = some r) :
    zigZagDecodeI64 (bs.take r.1) = some r := by
  rw [zigZagDecodeI64_eq] at h ⊢
  obtain ⟨s, hs, rfl⟩ := Option.map_eq_some_iff.mp h
  rw [List.map_take, readGroups_take hs, Option.map_some]

def base64Table : List UInt8 := [
  'A', 'B', 'C', 'D', 'E', 'F', 'G', 'H', 'I', 'J', 'K', 'L', 'M',
  'N', 'O', 'P', 'Q', 'R', 'S', 'T', 'U', 'V', 'W', 'X', 'Y', 'Z',
  'a', 'b', 'c', 'd', 'e', 'f', 'g', 'h', 'i', 'j', 'k', 'l', 'm',
  'n', 'o', 'p', 'q', 'r', 's', 't', 'u', 'v', 'w', 'x', 'y', 'z',
  '0', '1', '2', '3', '4', '5', '6', '7', '8', '9', '+', '/'].map Char.toUInt8

def getBase64 (value24 shift : UInt32) : UInt8 :=
  let value6 := 0x3F &&& (value24 >>> shift)
  base64Table[value6.toNat]?.getD 0

/-- A character outside the alphabet gives `EINVAL`, as if it were a digit. -/
def fromBase64 (c : UInt8) : UInt32 :=
  if 'A'.toUInt8 ≤ c ∧ c ≤ 'Z'.toUInt8 then (c - 'A'.toUInt8).toUInt32
  else if 'a'.toUInt8 ≤ c ∧ c ≤ 'z'.toUInt8 then (c - 'a'.toUInt8).toUInt32 + 26
  else if '0'.toUInt8 ≤ c ∧ c ≤ '9'.toUInt8 then (c - '0'.toUInt8).toUInt32 + 52
  else if c = '+'.toUInt8 then 62
  else if c = '/'.toUInt8 then 63
  else if c = '='.toUInt8 then 0
  else 22

/-- `ceil(decoded_size / 3.0) * 4.0`, exactly. -/
def hdrBase64EncodedLen (decodedSize : ℕ) : ℕ := (decodedSize + 2) / 3 * 4

def hdrBase64DecodedLen (encodedSize : ℕ) : ℕ := encodedSize / 4 * 3

def hdrBase64EncodeBlockPad : List UInt8 → List UInt8
  | [a, b] =>
      let value24 := (a.toUInt32 <<< 16) + (b.toUInt32 <<< 8)
      [getBase64 value24 18, getBase64 value24 12, getBase64 value24 6, '='.toUInt8]
  | [a] =>
      let value24 := a.toUInt32 <<< 16
      [getBase64 value24 18, getBase64 value24 12, '='.toUInt8, '='.toUInt8]
  | _ => []

def hdrBase64EncodeBlock (a b c : UInt8) : List UInt8 :=
  let value24 := (a.toUInt32 <<< 16) + (b.toUInt32 <<< 8) + c.toUInt32
  [getBase64 value24 18, getBase64 value24 12, getBase64 value24 6, getBase64 value24 0]

/-- The encoding loop, three bytes at a time, and the padded block after it. -/
def encodeBlocks : List UInt8 → List UInt8
  | a :: b :: c :: input => hdrBase64EncodeBlock a b c ++ encodeBlocks input
  | input => hdrBase64EncodeBlockPad input

/-- The guard on the output index in the loop never fails once the lengths agree. -/
def hdrBase64Encode (input : List UInt8) (outputLen : ℕ) : Except Int32 (List UInt8) :=
  if hdrBase64EncodedLen input.length ≠ outputLen then .error EINVAL
  else .ok (encodeBlocks input)

def hdrBase64DecodeBlock (a b c d : UInt8) : List UInt8 :=
  let value24 := (fromBase64 a <<< 18) ||| (fromBase64 b <<< 12) ||| (fromBase64 c <<< 6) |||
    fromBase64 d
  [((value24 >>> 16) &&& 0xFF).toUInt8, ((value24 >>> 8) &&& 0xFF).toUInt8,
    (value24 &&& 0xFF).toUInt8]

def decodeBlocks : List UInt8 → List UInt8
  | a :: b :: c :: d :: input => hdrBase64DecodeBlock a b c d ++ decodeBlocks input
  | _ => []

def hdrBase64Decode (input : List UInt8) (outputLen : ℕ) : Except Int32 (List UInt8) :=
  if input.length < 4 ∨ input.length &&& 3 ≠ 0 ∨ input.length / 4 * 3 ≠ outputLen then
    .error (-EINVAL)
  else .ok (decodeBlocks input)

theorem fromBase64_table :
    ∀ i : Fin 64, (fromBase64 (base64Table[i.val]?.getD 0)).toNat = i.val := by
  decide +kernel

theorem getBase64_eq (v s : UInt32) (hs : s.toNat < 32) :
    getBase64 v s = base64Table[v.toNat / 2 ^ s.toNat % 64]?.getD 0 := by
  have hidx : (0x3F &&& (v >>> s)).toNat = v.toNat / 2 ^ s.toNat % 64 := by
    rw [UInt32.toNat_and, UInt32.toNat_shiftRight, Nat.mod_eq_of_lt hs, Nat.shiftRight_eq_div_pow,
      Nat.and_comm]
    exact Nat.and_two_pow_sub_one_eq_mod _ 6
  simp only [getBase64, hidx]

theorem fromBase64_getBase64 (v s : UInt32) (hs : s.toNat < 32) :
    (fromBase64 (getBase64 v s)).toNat = v.toNat / 2 ^ s.toNat % 64 := by
  have htab := fromBase64_table ⟨v.toNat / 2 ^ s.toNat % 64, Nat.mod_lt _ (by omega)⟩
  rw [getBase64_eq v s hs]
  exact htab

theorem digits_or {p q r s : UInt32} (hp : p.toNat < 64) (hq : q.toNat < 64) (hr : r.toNat < 64)
    (hs : s.toNat < 64) : ((p <<< 18) ||| (q <<< 12) ||| (r <<< 6) ||| s).toNat =
      p.toNat * 2 ^ 18 + q.toNat * 2 ^ 12 + r.toNat * 2 ^ 6 + s.toNat := by
  have h18 : (p <<< 18).toNat = p.toNat * 2 ^ 18 := by
    rw [UInt32.toNat_shiftLeft, Nat.shiftLeft_eq]
    exact Nat.mod_eq_of_lt (by change p.toNat * 2 ^ 18 < 2 ^ 32; omega)
  have h12 : (q <<< 12).toNat = q.toNat * 2 ^ 12 := by
    rw [UInt32.toNat_shiftLeft, Nat.shiftLeft_eq]
    exact Nat.mod_eq_of_lt (by change q.toNat * 2 ^ 12 < 2 ^ 32; omega)
  have h6 : (r <<< 6).toNat = r.toNat * 2 ^ 6 := by
    rw [UInt32.toNat_shiftLeft, Nat.shiftLeft_eq]
    exact Nat.mod_eq_of_lt (by change r.toNat * 2 ^ 6 < 2 ^ 32; omega)
  have e₁ := Nat.two_pow_add_eq_or_of_lt (i := 18) (b := q.toNat * 2 ^ 12) (by omega) p.toNat
  have e₂ := Nat.two_pow_add_eq_or_of_lt (i := 12) (b := r.toNat * 2 ^ 6) (by omega)
    (p.toNat * 2 ^ 6 + q.toNat)
  have e₃ := Nat.two_pow_add_eq_or_of_lt (i := 6) (b := s.toNat) (by omega)
    (p.toNat * 2 ^ 12 + q.toNat * 2 ^ 6 + r.toNat)
  rw [UInt32.toNat_or, UInt32.toNat_or, UInt32.toNat_or, h18, h12, h6,
    Nat.mul_comm p.toNat, ← e₁,
    show 2 ^ 18 * p.toNat + q.toNat * 2 ^ 12 = 2 ^ 12 * (p.toNat * 2 ^ 6 + q.toNat) by ring, ← e₂,
    show 2 ^ 12 * (p.toNat * 2 ^ 6 + q.toNat) + r.toNat * 2 ^ 6 =
      2 ^ 6 * (p.toNat * 2 ^ 12 + q.toNat * 2 ^ 6 + r.toNat) by ring, ← e₃]

theorem shiftRight_and (v s : UInt32) (hs : s.toNat < 32) :
    ((v >>> s) &&& 0xFF).toUInt8 = UInt8.ofNat (v.toNat / 2 ^ s.toNat) := by
  rw [← UInt8.toNat_inj, UInt32.toNat_toUInt8, UInt32.toNat_and, UInt32.toNat_shiftRight,
    Nat.mod_eq_of_lt hs, Nat.shiftRight_eq_div_pow]
  have := Nat.and_two_pow_sub_one_eq_mod (v.toNat / 2 ^ s.toNat) 8
  simp only [Nat.reducePow, Nat.add_one_sub_one] at this
  change (v.toNat / 2 ^ s.toNat &&& 255) % 2 ^ 8 = _
  rw [this]
  simp

theorem hdrBase64DecodeBlock_digits {a b c d : UInt8} {v : ℕ} (hv : v < 2 ^ 24)
    (ha : (fromBase64 a).toNat = v / 2 ^ 18 % 64) (hb : (fromBase64 b).toNat = v / 2 ^ 12 % 64)
    (hc : (fromBase64 c).toNat = v / 2 ^ 6 % 64) (hd : (fromBase64 d).toNat = v % 64) :
    hdrBase64DecodeBlock a b c d =
      [UInt8.ofNat (v / 2 ^ 16), UInt8.ofNat (v / 2 ^ 8), UInt8.ofNat v] := by
  have hor := digits_or (p := fromBase64 a) (q := fromBase64 b) (r := fromBase64 c)
    (s := fromBase64 d) (by omega) (by omega) (by omega) (by omega)
  have hval : ((fromBase64 a <<< 18) ||| (fromBase64 b <<< 12) ||| (fromBase64 c <<< 6) |||
      fromBase64 d).toNat = v := by
    rw [hor, ha, hb, hc, hd]
    omega
  unfold hdrBase64DecodeBlock
  dsimp only
  have h0 := shiftRight_and ((fromBase64 a <<< 18) ||| (fromBase64 b <<< 12) |||
    (fromBase64 c <<< 6) ||| fromBase64 d) 0 (by decide)
  rw [UInt32.shiftRight_zero] at h0
  rw [shiftRight_and _ 16 (by decide), shiftRight_and _ 8 (by decide), h0, hval]
  simp

theorem value24_toNat (a b c : UInt8) :
    ((a.toUInt32 <<< 16) + (b.toUInt32 <<< 8) + c.toUInt32).toNat =
      a.toNat * 2 ^ 16 + b.toNat * 2 ^ 8 + c.toNat := by
  have ha := a.toNat_lt
  have hb := b.toNat_lt
  have hc := c.toNat_lt
  have h16 : (a.toUInt32 <<< 16).toNat = a.toNat * 2 ^ 16 := by
    rw [UInt32.toNat_shiftLeft, Nat.shiftLeft_eq, UInt8.toNat_toUInt32]
    exact Nat.mod_eq_of_lt (by change a.toNat * 2 ^ 16 < 2 ^ 32; omega)
  have h8 : (b.toUInt32 <<< 8).toNat = b.toNat * 2 ^ 8 := by
    rw [UInt32.toNat_shiftLeft, Nat.shiftLeft_eq, UInt8.toNat_toUInt32]
    exact Nat.mod_eq_of_lt (by change b.toNat * 2 ^ 8 < 2 ^ 32; omega)
  rw [UInt32.toNat_add, UInt32.toNat_add, h16, h8, UInt8.toNat_toUInt32]
  omega

theorem ofNat_bytes (a b c : UInt8) :
    [UInt8.ofNat ((a.toNat * 2 ^ 16 + b.toNat * 2 ^ 8 + c.toNat) / 2 ^ 16),
      UInt8.ofNat ((a.toNat * 2 ^ 16 + b.toNat * 2 ^ 8 + c.toNat) / 2 ^ 8),
      UInt8.ofNat (a.toNat * 2 ^ 16 + b.toNat * 2 ^ 8 + c.toNat)] = [a, b, c] := by
  have ha := a.toNat_lt
  have hb := b.toNat_lt
  have hc := c.toNat_lt
  simp only [List.cons.injEq, and_true, ← UInt8.toNat_inj, UInt8.toNat_ofNat']
  omega

theorem hdrBase64DecodeBlock_encode (a b c : UInt8) (rest : List UInt8) :
    decodeBlocks (hdrBase64EncodeBlock a b c ++ rest) = [a, b, c] ++ decodeBlocks rest := by
  have hv := value24_toNat a b c
  have ha := a.toNat_lt
  have hb := b.toNat_lt
  have hc := c.toNat_lt
  simp only [hdrBase64EncodeBlock, List.cons_append, List.nil_append, decodeBlocks]
  rw [hdrBase64DecodeBlock_digits (v := a.toNat * 2 ^ 16 + b.toNat * 2 ^ 8 + c.toNat) (by omega),
    ofNat_bytes]
  · rfl
  · rw [fromBase64_getBase64 _ _ (by decide), hv]; rfl
  · rw [fromBase64_getBase64 _ _ (by decide), hv]; rfl
  · rw [fromBase64_getBase64 _ _ (by decide), hv]; rfl
  · rw [fromBase64_getBase64 _ _ (by decide), hv]
    simp

theorem decodeBlocks_pad (input : List UInt8) (h : input.length < 3) :
    decodeBlocks (hdrBase64EncodeBlockPad input) =
      input ++ List.replicate ((3 - input.length) % 3) 0 := by
  have hequals : (fromBase64 '='.toUInt8).toNat = 0 := by decide
  have hzero : (0 : UInt8).toUInt32 = 0 := rfl
  match input, h with
  | [], _ => rfl
  | [a], _ =>
      have hv := value24_toNat a 0 0
      have ha := a.toNat_lt
      have hbytes := ofNat_bytes a 0 0
      simp only [hzero, UInt32.zero_shiftLeft, UInt32.add_zero, UInt8.toNat_zero,
        Nat.zero_mul, Nat.add_zero] at hv hbytes
      simp only [hdrBase64EncodeBlockPad, decodeBlocks, List.append_nil]
      rw [hdrBase64DecodeBlock_digits (v := a.toNat * 2 ^ 16) (by omega), hbytes]
      · rfl
      · rw [fromBase64_getBase64 _ _ (by decide), hv]; rfl
      · rw [fromBase64_getBase64 _ _ (by decide), hv]; rfl
      · rw [hequals]; omega
      · rw [hequals]; omega
  | [a, b], _ =>
      have hv := value24_toNat a b 0
      have ha := a.toNat_lt
      have hb := b.toNat_lt
      have hbytes := ofNat_bytes a b 0
      simp only [hzero, UInt32.add_zero, UInt8.toNat_zero, Nat.add_zero] at hv hbytes
      simp only [hdrBase64EncodeBlockPad, decodeBlocks, List.append_nil]
      rw [hdrBase64DecodeBlock_digits (v := a.toNat * 2 ^ 16 + b.toNat * 2 ^ 8) (by omega), hbytes]
      · rfl
      · rw [fromBase64_getBase64 _ _ (by decide), hv]; rfl
      · rw [fromBase64_getBase64 _ _ (by decide), hv]; rfl
      · rw [fromBase64_getBase64 _ _ (by decide), hv]; rfl
      · rw [hequals]; omega

theorem encodeBlocks_length (input : List UInt8) :
    (encodeBlocks input).length = hdrBase64EncodedLen input.length := by
  fun_induction encodeBlocks input with
  | case1 a b c input ih =>
      rw [List.length_append, ih]
      simp only [hdrBase64EncodeBlock, hdrBase64EncodedLen, List.length_cons, List.length_nil]
      omega
  | case2 input h =>
      match input, h with
      | [], _ => rfl
      | [a], _ => simp [hdrBase64EncodeBlockPad, hdrBase64EncodedLen]
      | [a, b], _ => simp [hdrBase64EncodeBlockPad, hdrBase64EncodedLen]
      | a :: b :: c :: input, h => exact absurd rfl (h a b c input)

/-- Encoding and decoding gives the bytes back, with up to two zero bytes after them. -/
theorem decodeBlocks_encodeBlocks (input : List UInt8) : decodeBlocks (encodeBlocks input) =
    input ++ List.replicate ((3 - input.length % 3) % 3) 0 := by
  fun_induction encodeBlocks input with
  | case1 a b c input ih =>
      rw [hdrBase64DecodeBlock_encode, ih]
      simp only [List.cons_append, List.nil_append, List.length_cons]
      congr 6
      omega
  | case2 input h =>
      match input, h with
      | [], _ => rfl
      | [a], _ => exact decodeBlocks_pad [a] (by simp)
      | [a, b], _ => exact decodeBlocks_pad [a, b] (by simp)
      | a :: b :: c :: input, h => exact absurd rfl (h a b c input)

theorem hdrBase64Decode_encode {input : List UInt8} (hne : input ≠ []) :
    ∃ text, hdrBase64Encode input (hdrBase64EncodedLen input.length) = .ok text ∧
      hdrBase64Decode text (hdrBase64DecodedLen text.length) =
        .ok (input ++ List.replicate ((3 - input.length % 3) % 3) 0) := by
  have hlen := encodeBlocks_length input
  have hpos := List.length_pos_iff.mpr hne
  refine ⟨encodeBlocks input, by rw [hdrBase64Encode, if_neg (not_not.mpr rfl)], ?_⟩
  have hand : (encodeBlocks input).length &&& 3 = 0 := by
    have := Nat.and_two_pow_sub_one_eq_mod (encodeBlocks input).length 2
    simp only [Nat.reducePow, Nat.add_one_sub_one] at this
    rw [this, hlen, hdrBase64EncodedLen]
    omega
  rw [hdrBase64Decode, if_neg, decodeBlocks_encodeBlocks]
  rw [hand, hdrBase64DecodedLen, hlen, hdrBase64EncodedLen]
  simp only [ne_eq, not_true_eq_false, or_self, or_false, not_lt]
  omega

end HdrHistogramC
