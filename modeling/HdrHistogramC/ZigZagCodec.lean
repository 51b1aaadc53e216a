import HdrHistogramC.DecodedCounts

/-!
# The integers of the payload, there and back

Encoding writes the shortest notation of an integer. Decoding accepts longer ones as well, which
end in a superfluous zero.
-/
namespace HdrHistogramC
open SevenBitGroups

theorem zigZagValue_injective : Function.Injective zigZagValue := by
  intro n m h
  unfold zigZagValue at h
  split_ifs at h <;> omega

theorem zigZag_unZigZag (value : UInt64) : zigZag (unZigZag value) = value := by
  refine UInt64.toNat_inj.mp (zigZagValue_injective ?_)
  rw [← unZigZag_toInt, ← unZigZag_toInt, unZigZag_zigZag]

section Notation
variable {buffer : List UInt8} {bytesRead : ℕ} {v : Int64}

theorem length_take_of_decode (h : zigZagDecodeI64 buffer = some (bytesRead, v)) :
    (buffer.take bytesRead).length = bytesRead := by
  have := (zigZagDecodeI64_le h).2.2
  rw [List.length_take]
  omega

/-- The bytes that are read are the groups of a word, and the encoder writes the groups of the
same word. -/
theorem groups_of_decode (h : zigZagDecodeI64 buffer = some (bytesRead, v)) :
    ∃ n, Groups 8 ((buffer.take bytesRead).map UInt8.toNat) n ∧
      (zigZagEncodeI64 v).map UInt8.toNat = writeGroups 8 n := by
  have htake := zigZagDecodeI64_take h
  rw [zigZagDecodeI64_eq] at htake
  obtain ⟨⟨k, n⟩, hread, heq⟩ := Option.map_eq_some_iff.mp htake
  obtain ⟨rfl, rfl⟩ := Prod.mk.inj heq
  have hlength : ((buffer.take k).map UInt8.toNat).length = k := by
    rw [List.length_map, length_take_of_decode h]
  have G : Groups 8 ((buffer.take k).map UInt8.toNat) n := groups_iff.mpr (by rw [hlength, hread])
  have hword : (UInt64.ofNat n).toNat = n := by
    refine UInt64.toNat_ofNat_of_lt (G.lt ?_)
    exact List.forall_mem_map.mpr fun b _ => b.toNat_lt
  exact ⟨n, G, by rw [zigZagEncodeI64_toNat, zigZag_unZigZag, hword]⟩

theorem zigZagEncodeI64_length_le (h : zigZagDecodeI64 buffer = some (bytesRead, v)) :
    (zigZagEncodeI64 v).length ≤ bytesRead := by
  obtain ⟨n, G, hwrite⟩ := groups_of_decode h
  have hle := G.writeGroups_length_le (List.forall_mem_map.mpr fun b _ => b.toNat_lt)
  rwa [← hwrite, List.length_map, List.length_map, length_take_of_decode h] at hle

theorem zigZagEncodeI64_eq_iff (h : zigZagDecodeI64 buffer = some (bytesRead, v)) :
    zigZagEncodeI64 v = buffer.take bytesRead ↔
      bytesRead = 1 ∨ buffer[bytesRead - 1]? ≠ some 0 := by
  obtain ⟨n, G, hwrite⟩ := groups_of_decode h
  have hlength := length_take_of_decode h
  have hpos := (zigZagDecodeI64_le h).1
  have hlast : ((buffer.take bytesRead).map UInt8.toNat).getLast? = some 0 ↔
      buffer[bytesRead - 1]? = some 0 := by
    rw [List.getLast?_map, List.getLast?_eq_getElem?, hlength,
      List.getElem?_take_of_lt (by omega), Option.map_eq_some_iff]
    constructor
    · rintro ⟨b, hb, hzero⟩
      obtain rfl : b = 0 := UInt8.toNat_inj.mp hzero
      exact hb
    · intro hb
      exact ⟨0, hb, rfl⟩
  have hmap : zigZagEncodeI64 v = buffer.take bytesRead ↔
      writeGroups 8 n = (buffer.take bytesRead).map UInt8.toNat := by
    rw [← hwrite]
    exact (List.map_injective_iff.mpr fun a b hab => UInt8.toNat_inj.mp hab).eq_iff.symm
  rw [hmap, G.writeGroups_eq_iff (List.forall_mem_map.mpr fun b _ => b.toNat_lt), ne_eq, hlast,
    List.length_map, hlength]

end Notation

/-- A number of integers, and the rest of the buffer. -/
def decodeIntegers : ℕ → List UInt8 → Option (List Int64 × List UInt8)
  | 0, buffer => some ([], buffer)
  | k + 1, buffer =>
      (zigZagDecodeI64 buffer).bind fun (bytesRead, v) =>
        (decodeIntegers k (buffer.drop bytesRead)).map fun (vs, rest) => (v :: vs, rest)

theorem decodeIntegers_encodings (vs : List Int64) (rest : List UInt8) :
    decodeIntegers vs.length (vs.flatMap zigZagEncodeI64 ++ rest) = some (vs, rest) := by
  induction vs with
  | nil => rfl
  | cons v vs ih =>
      rw [List.flatMap_cons, List.append_assoc, List.length_cons, decodeIntegers,
        zigZagDecodeI64_encode, Option.bind_some]
      dsimp only
      rw [List.drop_left, ih]
      rfl

theorem encodings_injective {vs ws : List Int64}
    (h : vs.flatMap zigZagEncodeI64 = ws.flatMap zigZagEncodeI64) : vs = ws := by
  have hflat : ∀ us : List Int64,
      Token.flat (us.map Token.ofValue) = us.flatMap zigZagEncodeI64 := by
    intro us
    rw [Token.flat, List.flatMap_map]
    rfl
  rw [← hflat, ← hflat] at h
  have hvalues := congrArg (List.map Token.value) (Token.flat_injective h)
  rwa [List.map_map, List.map_map, show Token.value ∘ Token.ofValue = id from rfl, List.map_id,
    List.map_id] at hvalues

/-- The encoder and the decoder are inverse to each other, up to superfluous zeros, and
consecutive encodings can be told apart. -/
theorem zigZagCodec_correct :
    (∀ (v : Int64) (rest : List UInt8),
      1 ≤ (zigZagEncodeI64 v).length ∧ (zigZagEncodeI64 v).length ≤ 9 ∧
        zigZagDecodeI64 (zigZagEncodeI64 v ++ rest) = some ((zigZagEncodeI64 v).length, v)) ∧
    (∀ (buffer : List UInt8) (bytesRead : ℕ) (v : Int64),
      zigZagDecodeI64 buffer = some (bytesRead, v) →
        (zigZagEncodeI64 v).length ≤ bytesRead ∧
          (zigZagEncodeI64 v = buffer.take bytesRead ↔
            bytesRead = 1 ∨ buffer[bytesRead - 1]? ≠ some 0)) ∧
    (∀ (vs : List Int64) (rest : List UInt8),
      decodeIntegers vs.length (vs.flatMap zigZagEncodeI64 ++ rest) = some (vs, rest)) ∧
    (∀ vs ws : List Int64, vs.flatMap zigZagEncodeI64 = ws.flatMap zigZagEncodeI64 → vs = ws) := by
  refine ⟨fun v rest => ?_, fun buffer bytesRead v h => ?_, decodeIntegers_encodings,
    fun vs ws h => encodings_injective h⟩
  · obtain ⟨hpos, hnine⟩ := zigZagEncodeI64_length v
    exact ⟨hpos, hnine, zigZagDecodeI64_encode v rest⟩
  · exact ⟨zigZagEncodeI64_length_le h, zigZagEncodeI64_eq_iff h⟩

theorem zigZagCodec_correct_sample :
    (zigZagEncodeI64 (-150)).length ≤ 3 ∧ zigZagEncodeI64 (-150) ≠ [0xAB, 0x82, 0x00] := by
  obtain ⟨-, hread, -, -⟩ := zigZagCodec_correct
  obtain ⟨hlength, heq⟩ := hread [0xAB, 0x82, 0x00, 0x07] 3 (-150) (by decide)
  exact ⟨hlength, heq.not.mpr (by decide)⟩

end HdrHistogramC
