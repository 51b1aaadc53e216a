import HdrHistogramC.BoundedLoop
import HdrHistogramC.BufferWriting
import HdrHistogramC.Encoding

/-!
# Base 64 between buffers

The encoder and the decoder of `hdr_encoding.c` with their indices: every character read lies
in the input, and every one written in the output, whose rest stays as it is. The results are
those of the functions on lists.
-/
namespace HdrHistogramC
open BoundedLoop BufferWriting

/-- A read outside the input has no result. -/
def encodeBlockAt (input : List UInt8) (i : UInt64) (output : List UInt8) (j : UInt64) :
    Option (List UInt8) := do
  let a ← input[i.toNat]?
  let b ← input[i.toNat + 1]?
  let c ← input[i.toNat + 2]?
  put output j.toNat (hdrBase64EncodeBlock a b c)

def encodeBlockPadAt (input : List UInt8) (i : UInt64) (output : List UInt8) (j pad : UInt64) :
    Option (List UInt8) :=
  if pad = 2 then do
    let a ← input[i.toNat]?
    let b ← input[i.toNat + 1]?
    put output j.toNat (hdrBase64EncodeBlockPad [a, b])
  else if pad = 1 then do
    let a ← input[i.toNat]?
    put output j.toNat (hdrBase64EncodeBlockPad [a])
  else some output

def encodeBody (input : List UInt8) (inputLen outputLen : UInt64) :
    UInt64 × UInt64 × List UInt8 →
      Option (Round (UInt64 × UInt64 × List UInt8) (UInt64 × UInt64 × List UInt8))
  | (i, j, output) =>
      if inputLen - i ≥ 3 ∧ j < outputLen then
        (encodeBlockAt input i output j).map fun output => .again (i + 3, j + 4, output)
      else some (.leave (i, j, output))

/-- `hdr_base64_encode` on an input of `inputLen` bytes: what it returns, and the output. -/
def encodeBuffer (input : List UInt8) (inputLen : UInt64) (output : List UInt8)
    (outputLen : UInt64) : Option (Int32 × List UInt8) :=
  if hdrBase64EncodedLen inputLen.toNat ≠ outputLen.toNat then some (EINVAL, output)
  else
    ((run (encodeBody input inputLen outputLen) (inputLen.toNat + 1) (0, 0, output)).bind fun s =>
      encodeBlockPadAt input s.1 s.2.2 s.2.1 (inputLen - s.1)).map fun output => (0, output)

def decodeBlockAt (input : List UInt8) (i : UInt64) (output : List UInt8) (j : UInt64) :
    Option (List UInt8) := do
  let a ← input[i.toNat]?
  let b ← input[i.toNat + 1]?
  let c ← input[i.toNat + 2]?
  let d ← input[i.toNat + 3]?
  put output j.toNat (hdrBase64DecodeBlock a b c d)

def decodeBody (input : List UInt8) (inputLen : UInt64) :
    UInt64 × UInt64 × List UInt8 →
      Option (Round (UInt64 × UInt64 × List UInt8) (List UInt8))
  | (i, j, output) =>
      if i < inputLen then
        (decodeBlockAt input i output j).map fun output => .again (i + 4, j + 3, output)
      else some (.leave output)

/-- `hdr_base64_decode` on an input of `inputLen` characters. -/
def decodeBuffer (input : List UInt8) (inputLen : UInt64) (output : List UInt8)
    (outputLen : UInt64) : Option (Int32 × List UInt8) :=
  if inputLen < 4 ∨ inputLen &&& 3 ≠ 0 ∨ inputLen / 4 * 3 ≠ outputLen then
    some (-EINVAL, output)
  else
    (run (decodeBody input inputLen) (inputLen.toNat + 1) (0, 0, output)).map fun output =>
      (0, output)

section Encode
variable {input output : List UInt8} {inputLen outputLen i j : UInt64} {n : ℕ}

theorem toNat_remaining (hi : i.toNat ≤ inputLen.toNat) :
    (inputLen - i).toNat = inputLen.toNat - i.toNat :=
  UInt64.toNat_sub_of_le _ _ (UInt64.le_iff_toNat_le.mpr hi)

theorem toNat_add_small {k : UInt64} (h : i.toNat + k.toNat < 2 ^ 64) :
    (i + k).toNat = i.toNat + k.toNat := by
  rw [UInt64.toNat_add, Nat.mod_eq_of_lt h]

theorem getElem_of_drop {α : Type} {l rest : List α} {x : α} {n : ℕ} (h : l.drop n = x :: rest) :
    l[n]? = some x ∧ l.drop (n + 1) = rest := by
  constructor
  · rw [← Nat.add_zero n, ← List.getElem?_drop, h]
    rfl
  · rw [← List.drop_drop, h]
    rfl

theorem encodeBlockAt_eq {a b c : UInt8} {rest : List UInt8}
    (hrest : input.drop i.toNat = a :: b :: c :: rest) (hj : j.toNat + 4 ≤ output.length) :
    encodeBlockAt input i output j = some (splice output j.toNat (hdrBase64EncodeBlock a b c)) := by
  obtain ⟨ha, h₁⟩ := getElem_of_drop hrest
  obtain ⟨hb, h₂⟩ := getElem_of_drop h₁
  obtain ⟨hc, -⟩ := getElem_of_drop h₂
  simp only [encodeBlockAt, ha, hb, hc, Option.bind_eq_bind, Option.bind_some]
  exact put_eq hj

theorem encodeBlockPadAt_eq {rest : List UInt8} {pad : UInt64}
    (hrest : input.drop i.toNat = rest) (hpad : pad.toNat = rest.length) (hshort : rest.length < 3)
    (hj : j.toNat + (hdrBase64EncodeBlockPad rest).length ≤ output.length) :
    encodeBlockPadAt input i output j pad =
      some (splice output j.toNat (hdrBase64EncodeBlockPad rest)) := by
  match rest, hshort with
  | [], _ =>
      have hzero : pad = 0 := UInt64.toNat_inj.mp hpad
      rw [encodeBlockPadAt, hzero, if_neg (by decide), if_neg (by decide), hdrBase64EncodeBlockPad,
        splice_nil]
      all_goals simp
  | [a], _ =>
      have hone : pad = 1 := UInt64.toNat_inj.mp hpad
      obtain ⟨ha, -⟩ := getElem_of_drop hrest
      simp only [encodeBlockPadAt, hone, if_neg (show ¬ (1 : UInt64) = 2 by decide), if_true, ha,
        Option.bind_eq_bind, Option.bind_some]
      exact put_eq hj
  | [a, b], _ =>
      have htwo : pad = 2 := UInt64.toNat_inj.mp hpad
      obtain ⟨ha, h₁⟩ := getElem_of_drop hrest
      obtain ⟨hb, -⟩ := getElem_of_drop h₁
      simp only [encodeBlockPadAt, htwo, if_true, ha, hb, Option.bind_eq_bind, Option.bind_some]
      exact put_eq hj

/-- The loop and the padded block write the blocks of what is left of the input. -/
theorem encode_rest (hlen : inputLen.toNat = input.length) (rest : List UInt8) :
    ∀ (fuel : ℕ) (i j : UInt64) (output : List UInt8), input.drop i.toNat = rest →
      i.toNat ≤ input.length → j.toNat + (encodeBlocks rest).length = outputLen.toNat →
      outputLen.toNat ≤ output.length → rest.length < fuel →
      ((run (encodeBody input inputLen outputLen) fuel (i, j, output)).bind fun s =>
        encodeBlockPadAt input s.1 s.2.2 s.2.1 (inputLen - s.1)) =
          some (splice output j.toNat (encodeBlocks rest)) := by
  fun_induction encodeBlocks rest with
  | case1 a b c rest ih =>
      intro fuel i j output hrest hi hj hout hfuel
      obtain ⟨fuel, rfl⟩ : ∃ k, fuel = k + 1 := ⟨fuel - 1, by omega⟩
      have hleft := congrArg List.length hrest
      rw [List.length_drop, List.length_cons, List.length_cons, List.length_cons] at hleft
      have hblock : (hdrBase64EncodeBlock a b c).length = 4 := rfl
      rw [List.length_append, hblock] at hj
      have hmax := inputLen.toNat_lt
      have hmax' := outputLen.toNat_lt
      have hi₃ : (i + 3).toNat = i.toNat + 3 := toNat_add_small (by change _ + 3 < _; omega)
      have hj₄ : (j + 4).toNat = j.toNat + 4 := toNat_add_small (by change _ + 4 < _; omega)
      have hmore : inputLen - i ≥ 3 := by
        rw [ge_iff_le, UInt64.le_iff_toNat_le, toNat_remaining (by omega)]
        change 3 ≤ _
        omega
      have hroom : j < outputLen := UInt64.lt_iff_toNat_lt.mpr (by omega)
      have hbody : encodeBody input inputLen outputLen (i, j, output) =
          some (.again (i + 3, j + 4, splice output j.toNat (hdrBase64EncodeBlock a b c))) := by
        simp only [encodeBody, hmore, hroom, and_self, if_true, Option.map_some,
          encodeBlockAt_eq hrest (show j.toNat + 4 ≤ output.length by omega)]
      have hlength : (splice output j.toNat (hdrBase64EncodeBlock a b c)).length = output.length :=
        splice_length (by rw [hblock]; omega)
      rw [run_again hbody, ih fuel (i + 3) (j + 4) _ ?_ (by omega) (by omega) (by omega) (by
        rw [List.length_cons, List.length_cons, List.length_cons] at hfuel
        omega), hj₄, ← hblock, splice_splice (by rw [hblock]; omega)]
      rw [hi₃]
      exact (getElem_of_drop (getElem_of_drop (getElem_of_drop hrest).2).2).2
  | case2 rest hshort =>
      intro fuel i j output hrest hi hj hout hfuel
      obtain ⟨fuel, rfl⟩ : ∃ k, fuel = k + 1 := ⟨fuel - 1, by omega⟩
      have hless : rest.length < 3 := by
        rcases rest with _ | ⟨a, _ | ⟨b, _ | ⟨c, rest⟩⟩⟩
        · simp
        · simp
        · simp
        · exact absurd rfl (hshort a b c rest)
      have hleft := congrArg List.length hrest
      rw [List.length_drop] at hleft
      have hremaining : (inputLen - i).toNat = rest.length := by
        rw [toNat_remaining (by omega)]
        omega
      have hbody : encodeBody input inputLen outputLen (i, j, output) =
          some (.leave (i, j, output)) := by
        have hdone : ¬ inputLen - i ≥ 3 := by
          rw [ge_iff_le, UInt64.le_iff_toNat_le, hremaining]
          change ¬ 3 ≤ _
          omega
        simp only [encodeBody, hdone, false_and, if_false]
      rw [run_leave hbody, Option.bind_some]
      exact encodeBlockPadAt_eq hrest hremaining hless
        (show j.toNat + (hdrBase64EncodeBlockPad rest).length ≤ output.length by omega)

theorem encodeBuffer_eq (hlen : inputLen.toNat = input.length)
    (hout : hdrBase64EncodedLen input.length = outputLen.toNat)
    (hroom : outputLen.toNat ≤ output.length) :
    encodeBuffer input inputLen output outputLen =
      some (0, splice output 0 (encodeBlocks input)) := by
  have hblocks := encodeBlocks_length input
  have hsize : (0 : UInt64).toNat + (encodeBlocks input).length = outputLen.toNat := by
    rw [UInt64.toNat_zero, Nat.zero_add, hblocks, hout]
  have hrun := encode_rest hlen input (inputLen.toNat + 1) 0 0 output List.drop_zero
    (Nat.zero_le _) hsize hroom (by omega)
  rw [encodeBuffer, hlen, hout, if_neg (by simp), ← hlen, hrun]
  rfl

end Encode

section Decode
variable {input output : List UInt8} {inputLen outputLen i j : UInt64}

theorem decodeBlockAt_eq {a b c d : UInt8} {rest : List UInt8}
    (hrest : input.drop i.toNat = a :: b :: c :: d :: rest) (hj : j.toNat + 3 ≤ output.length) :
    decodeBlockAt input i output j =
      some (splice output j.toNat (hdrBase64DecodeBlock a b c d)) := by
  obtain ⟨ha, h₁⟩ := getElem_of_drop hrest
  obtain ⟨hb, h₂⟩ := getElem_of_drop h₁
  obtain ⟨hc, h₃⟩ := getElem_of_drop h₂
  obtain ⟨hd, -⟩ := getElem_of_drop h₃
  simp only [decodeBlockAt, ha, hb, hc, hd, Option.bind_eq_bind, Option.bind_some]
  exact put_eq hj

theorem eq_nil_of_no_block {rest : List UInt8}
    (hshort : ∀ a b c d rest', rest = a :: b :: c :: d :: rest' → False)
    (hmod : rest.length % 4 = 0) : rest = [] := by
  rcases rest with _ | ⟨a, _ | ⟨b, _ | ⟨c, _ | ⟨d, rest⟩⟩⟩⟩
  · rfl
  · simp at hmod
  · simp at hmod
  · simp at hmod
  · exact absurd rfl (hshort a b c d rest)

/-- The loop writes what the whole blocks that are left decode to. -/
theorem decode_rest (hlen : inputLen.toNat = input.length) (rest : List UInt8) :
    ∀ (fuel : ℕ) (i j : UInt64) (output : List UInt8), input.drop i.toNat = rest →
      i.toNat ≤ input.length → rest.length % 4 = 0 →
      j.toNat + (decodeBlocks rest).length ≤ outputLen.toNat →
      outputLen.toNat ≤ output.length → rest.length < fuel →
      run (decodeBody input inputLen) fuel (i, j, output) =
        some (splice output j.toNat (decodeBlocks rest)) := by
  fun_induction decodeBlocks rest with
  | case1 a b c d rest ih =>
      intro fuel i j output hrest hi hmod hj hout hfuel
      obtain ⟨fuel, rfl⟩ : ∃ k, fuel = k + 1 := ⟨fuel - 1, by omega⟩
      have hleft := congrArg List.length hrest
      simp only [List.length_drop, List.length_cons] at hleft hmod hfuel
      have hblock : (hdrBase64DecodeBlock a b c d).length = 3 := rfl
      rw [List.length_append, hblock] at hj
      have hmax := inputLen.toNat_lt
      have hmax' := outputLen.toNat_lt
      have hi₄ : (i + 4).toNat = i.toNat + 4 := toNat_add_small (by change _ + 4 < _; omega)
      have hj₃ : (j + 3).toNat = j.toNat + 3 := toNat_add_small (by change _ + 3 < _; omega)
      have hmore : i < inputLen := UInt64.lt_iff_toNat_lt.mpr (by omega)
      have hbody : decodeBody input inputLen (i, j, output) =
          some (.again (i + 4, j + 3, splice output j.toNat (hdrBase64DecodeBlock a b c d))) := by
        simp only [decodeBody, hmore, if_true, Option.map_some,
          decodeBlockAt_eq hrest (show j.toNat + 3 ≤ output.length by omega)]
      have hlength : (splice output j.toNat (hdrBase64DecodeBlock a b c d)).length =
        output.length := splice_length (by rw [hblock]; omega)
      rw [run_again hbody, ih fuel (i + 4) (j + 3) _ ?_ (by omega) (by omega) (by omega)
        (by omega) (by omega), hj₃, ← hblock, splice_splice (by rw [hblock]; omega)]
      rw [hi₄]
      exact (getElem_of_drop (getElem_of_drop (getElem_of_drop (getElem_of_drop hrest).2).2).2).2
  | case2 rest hshort =>
      intro fuel i j output hrest hi hmod hj hout hfuel
      obtain ⟨fuel, rfl⟩ : ∃ k, fuel = k + 1 := ⟨fuel - 1, by omega⟩
      have hnil := eq_nil_of_no_block hshort hmod
      have hleft := congrArg List.length hrest
      rw [hnil, List.length_drop, List.length_nil] at hleft
      have hdone : ¬ i < inputLen := by
        rw [UInt64.lt_iff_toNat_lt]
        omega
      have hbody : decodeBody input inputLen (i, j, output) = some (.leave output) := by
        simp only [decodeBody, hdone, if_false]
      rw [run_leave hbody, splice_nil]

theorem decodeGuard_iff (hlen : inputLen.toNat = input.length) :
    (inputLen < 4 ∨ inputLen &&& 3 ≠ 0 ∨ inputLen / 4 * 3 ≠ outputLen) ↔
      input.length < 4 ∨ input.length % 4 ≠ 0 ∨
        hdrBase64DecodedLen input.length ≠ outputLen.toNat := by
  have hmax := inputLen.toNat_lt
  have hmask : (inputLen &&& 3).toNat = input.length % 4 := by
    rw [UInt64.toNat_and, hlen]
    exact Nat.and_two_pow_sub_one_eq_mod input.length 2
  have hsize : (inputLen / 4 * 3).toNat = hdrBase64DecodedLen input.length := by
    have hdiv : (inputLen / 4).toNat = input.length / 4 := by
      rw [UInt64.toNat_div, hlen]
      rfl
    rw [UInt64.toNat_mul, hdiv, hdrBase64DecodedLen]
    exact Nat.mod_eq_of_lt (by change _ * 3 < _; omega)
  rw [UInt64.lt_iff_toNat_lt, hlen, ne_eq, ne_eq, ← UInt64.toNat_inj, hmask, ← UInt64.toNat_inj,
    hsize]
  exact Iff.rfl

theorem decodeBlocks_length {rest : List UInt8} (hmod : rest.length % 4 = 0) :
    (decodeBlocks rest).length = hdrBase64DecodedLen rest.length := by
  fun_induction decodeBlocks rest with
  | case1 a b c d rest ih =>
      simp only [List.length_cons] at hmod
      rw [List.length_append, ih (by omega)]
      simp only [hdrBase64DecodeBlock, hdrBase64DecodedLen, List.length_cons, List.length_nil]
      omega
  | case2 rest hshort =>
      rw [eq_nil_of_no_block hshort hmod]
      rfl

/-- Other lengths than whole blocks are refused; the decoder writes what they decode to. -/
theorem decodeBuffer_eq (hlen : inputLen.toNat = input.length)
    (hroom : outputLen.toNat ≤ output.length) :
    decodeBuffer input inputLen output outputLen =
      if input.length < 4 ∨ input.length % 4 ≠ 0 ∨
          hdrBase64DecodedLen input.length ≠ outputLen.toNat then some (-EINVAL, output)
      else some (0, splice output 0 (decodeBlocks input)) := by
  rw [decodeBuffer]
  simp only [decodeGuard_iff hlen]
  split_ifs with hrefused
  · rfl
  · simp only [not_or, not_lt, not_not] at hrefused
    obtain ⟨hfour, hmod, hout⟩ := hrefused
    have hblocks := decodeBlocks_length hmod
    have hsize : (0 : UInt64).toNat + (decodeBlocks input).length ≤ outputLen.toNat := by
      rw [UInt64.toNat_zero, Nat.zero_add, hblocks, hout]
    rw [decode_rest hlen input (inputLen.toNat + 1) 0 0 output List.drop_zero (Nat.zero_le _) hmod
      hsize hroom (by omega)]
    rfl

end Decode

/-- Encoding writes the encoded length and nothing behind it, and decoding what was written gives
the bytes back with up to two zero bytes after them. -/
theorem base64_decode_encode {x output : List UInt8} {n len : UInt64} (hne : x ≠ [])
    (hn : n.toNat = x.length) (hlen : len.toNat = hdrBase64EncodedLen x.length)
    (hroom : len.toNat ≤ output.length) :
    ∃ text, encodeBuffer x n output len = some (0, text ++ output.drop len.toNat) ∧
      text.length = len.toNat ∧
      ∀ (buffer : List UInt8) (size : UInt64), size.toNat = hdrBase64DecodedLen text.length →
        size.toNat ≤ buffer.length → decodeBuffer text len buffer size =
          some (0, x ++ List.replicate ((3 - x.length % 3) % 3) 0 ++ buffer.drop size.toNat) := by
  have hblocks := encodeBlocks_length x
  have hpos := List.length_pos_iff.mpr hne
  refine ⟨encodeBlocks x, ?_, by rw [hblocks, hlen], fun buffer size hsize hfit => ?_⟩
  · rw [encodeBuffer_eq hn hlen.symm hroom, splice, List.take_zero, List.nil_append, Nat.zero_add,
      hblocks, hlen]
  · have hbytes := decodeBlocks_encodeBlocks x
    have hmod : (encodeBlocks x).length % 4 = 0 := by
      rw [hblocks, hdrBase64EncodedLen]
      omega
    have hfour : 4 ≤ (encodeBlocks x).length := by
      rw [hblocks, hdrBase64EncodedLen]
      omega
    rw [decodeBuffer_eq (by rw [hlen, hblocks]) hfit, if_neg (by omega), splice, List.take_zero,
      List.nil_append, Nat.zero_add, decodeBlocks_length hmod, hbytes, hsize]

theorem base64_decode_encode_sample : ∃ text,
    encodeBuffer [1, 2, 3, 4] 4 (List.replicate 10 0) 8 = some (0, text ++ [0, 0]) ∧
      text.length = 8 ∧ decodeBuffer text 8 (List.replicate 7 9) 6 =
        some (0, [1, 2, 3, 4, 0, 0, 9]) := by
  have hroom : (8 : UInt64).toNat ≤ (List.replicate 10 (0 : UInt8)).length := by decide
  obtain ⟨text, hencode, hlength, hdecode⟩ :=
    base64_decode_encode (x := [1, 2, 3, 4]) (n := 4) (by simp) rfl rfl hroom
  change text.length = 8 at hlength
  refine ⟨text, hencode, hlength, ?_⟩
  rw [hdecode (List.replicate 7 9) 6 (by rw [hlength]; rfl) (by decide)]
  rfl

end HdrHistogramC
