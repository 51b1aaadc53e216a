import HdrHistogramC.Base64Buffers

/-!
# The characters that base 64 decoding accepts

The helper for one character answers `EINVAL` for a character outside the alphabet, which the
decoder takes for the digit 22: it checks lengths only. On texts over the alphabet decoding is
injective.
-/
namespace HdrHistogramC
open BufferWriting

/-- Characters of the alphabet, with at most two equal signs after them. -/
def Base64Text (s : List UInt8) : Prop :=
  ∃ digits p, p ≤ 2 ∧ s = digits ++ List.replicate p '='.toUInt8 ∧ ∀ c ∈ digits, c ∈ base64Table

/-- The lengths that `hdr_base64_decode` refuses. -/
def RefusedLength (s : List UInt8) (outputLen : UInt64) : Prop :=
  s.length < 4 ∨ s.length % 4 ≠ 0 ∨ hdrBase64DecodedLen s.length ≠ outputLen.toNat

section Blocks
variable {a b c d : UInt8} {s t : List UInt8}

theorem Base64Text.mem (B : Base64Text s) (hc : c ∈ s) : c ∈ base64Table ∨ c = '='.toUInt8 := by
  obtain ⟨digits, p, -, rfl, hall⟩ := B
  rcases List.mem_append.mp hc with hc | hc
  · exact .inl (hall c hc)
  · exact .inr (List.eq_of_mem_replicate hc)

theorem base64Table_fromBase64 (hc : c ∈ base64Table) :
    base64Table[(fromBase64 c).toNat]?.getD 0 = c ∧ (fromBase64 c).toNat < 64 := by
  have hall : ∀ c ∈ base64Table,
      base64Table[(fromBase64 c).toNat]?.getD 0 = c ∧ (fromBase64 c).toNat < 64 :=
    List.forall_iff_forall_mem.mp (by decide +kernel)
  exact hall c hc

theorem hdrBase64EncodeBlock_decode (ha : a ∈ base64Table) (hb : b ∈ base64Table)
    (hc : c ∈ base64Table) (hd : d ∈ base64Table) (rest : List UInt8) :
    encodeBlocks (hdrBase64DecodeBlock a b c d ++ rest) = [a, b, c, d] ++ encodeBlocks rest := by
  obtain ⟨hat, ha⟩ := base64Table_fromBase64 ha
  obtain ⟨hbt, hb⟩ := base64Table_fromBase64 hb
  obtain ⟨hct, hc⟩ := base64Table_fromBase64 hc
  obtain ⟨hdt, hd⟩ := base64Table_fromBase64 hd
  obtain ⟨v, hv⟩ : ∃ v, v = (fromBase64 a).toNat * 2 ^ 18 + (fromBase64 b).toNat * 2 ^ 12 +
    (fromBase64 c).toNat * 2 ^ 6 + (fromBase64 d).toNat := ⟨_, rfl⟩
  have hva : (fromBase64 a).toNat = v / 2 ^ 18 % 64 := by omega
  have hvb : (fromBase64 b).toNat = v / 2 ^ 12 % 64 := by omega
  have hvc : (fromBase64 c).toNat = v / 2 ^ 6 % 64 := by omega
  have hvd : (fromBase64 d).toNat = v % 64 := by omega
  have hlt : v < 2 ^ 24 := by omega
  have hvalue := value24_toNat (UInt8.ofNat (v / 2 ^ 16)) (UInt8.ofNat (v / 2 ^ 8)) (UInt8.ofNat v)
  simp only [UInt8.toNat_ofNat'] at hvalue
  rw [show v / 2 ^ 16 % 2 ^ 8 * 2 ^ 16 + v / 2 ^ 8 % 2 ^ 8 * 2 ^ 8 + v % 2 ^ 8 = v by omega]
    at hvalue
  rw [hdrBase64DecodeBlock_digits hlt hva hvb hvc hvd]
  simp only [List.cons_append, List.nil_append, encodeBlocks, hdrBase64EncodeBlock]
  rw [getBase64_eq _ 18 (by decide), getBase64_eq _ 12 (by decide), getBase64_eq _ 6 (by decide),
    getBase64_eq _ 0 (by decide), hvalue]
  simp only [UInt32.reduceToNat, pow_zero, Nat.div_one]
  rw [← hva, ← hvb, ← hvc, ← hvd, hat, hbt, hct, hdt]

theorem encodeBlocks_decodeBlocks (hmod : s.length % 4 = 0) (hall : ∀ c ∈ s, c ∈ base64Table) :
    encodeBlocks (decodeBlocks s) = s := by
  fun_induction decodeBlocks s with
  | case1 a b c d rest ih =>
      simp only [List.length_cons] at hmod
      simp only [List.forall_mem_cons] at hall
      obtain ⟨ha, hb, hc, hd, hall⟩ := hall
      rw [hdrBase64EncodeBlock_decode ha hb hc hd, ih (by omega) hall]
      rfl
  | case2 rest hshort =>
      rw [eq_nil_of_no_block hshort hmod]
      rfl

/-- Without padding a text over the alphabet is determined by what it decodes to. -/
theorem decodeBlocks_injective (hs : s.length % 4 = 0) (ht : t.length % 4 = 0)
    (Bs : Base64Text s) (Bt : Base64Text t) (hsp : '='.toUInt8 ∉ s) (htp : '='.toUInt8 ∉ t)
    (heq : decodeBlocks s = decodeBlocks t) : s = t := by
  have hall : ∀ {s : List UInt8}, Base64Text s → '='.toUInt8 ∉ s → ∀ c ∈ s, c ∈ base64Table :=
    fun B hp c hc => (B.mem hc).resolve_right fun heq => hp (heq ▸ hc)
  rw [← encodeBlocks_decodeBlocks hs (hall Bs hsp), heq, encodeBlocks_decodeBlocks ht (hall Bt htp)]

theorem getBase64_mem (v s : UInt32) (hs : s.toNat < 32) : getBase64 v s ∈ base64Table := by
  have hlt : v.toNat / 2 ^ s.toNat % 64 < base64Table.length := Nat.mod_lt _ (by omega)
  rw [getBase64_eq v s hs, List.getElem?_eq_getElem hlt, Option.getD_some]
  exact List.getElem_mem hlt

theorem base64Text_append (digits : List UInt8) {rest : List UInt8}
    (h : ∀ c ∈ digits, c ∈ base64Table) (B : Base64Text rest) : Base64Text (digits ++ rest) := by
  obtain ⟨ds, p, hp, rfl, hall⟩ := B
  refine ⟨digits ++ ds, p, hp, (List.append_assoc ..).symm, fun c hc => ?_⟩
  rcases List.mem_append.mp hc with hc | hc
  · exact h c hc
  · exact hall c hc

theorem base64Text_pad {p : ℕ} (hp : p ≤ 2) : Base64Text (List.replicate p '='.toUInt8) :=
  ⟨[], p, hp, rfl, by simp⟩

theorem base64Text_encodeBlocks (input : List UInt8) : Base64Text (encodeBlocks input) := by
  fun_induction encodeBlocks input with
  | case1 a b c input ih =>
      refine base64Text_append _ ?_ ih
      simp only [hdrBase64EncodeBlock, List.forall_mem_cons, List.not_mem_nil, false_implies,
        implies_true, and_true]
      exact ⟨getBase64_mem _ _ (by decide), getBase64_mem _ _ (by decide),
        getBase64_mem _ _ (by decide), getBase64_mem _ _ (by decide)⟩
  | case2 input hshort =>
      rcases input with _ | ⟨a, _ | ⟨b, _ | ⟨c, input⟩⟩⟩
      · exact base64Text_pad (Nat.zero_le _)
      · refine base64Text_append [_, _] ?_ (base64Text_pad (p := 2) le_rfl)
        simp only [List.forall_mem_cons, List.not_mem_nil, false_implies, implies_true, and_true]
        exact ⟨getBase64_mem _ _ (by decide), getBase64_mem _ _ (by decide)⟩
      · refine base64Text_append [_, _, _] ?_ (base64Text_pad (p := 1) (by omega))
        simp only [List.forall_mem_cons, List.not_mem_nil, false_implies, implies_true, and_true]
        exact ⟨getBase64_mem _ _ (by decide), getBase64_mem _ _ (by decide),
          getBase64_mem _ _ (by decide)⟩
      · exact absurd rfl (hshort a b c input)

end Blocks

section Accept
variable {s output : List UInt8} {n outputLen : UInt64}

theorem decodeBuffer_accepts (hn : n.toNat = s.length) (hroom : outputLen.toNat = output.length)
    (bytes : List UInt8) :
    decodeBuffer s n output outputLen = some (0, bytes) ↔
      ¬ RefusedLength s outputLen ∧ decodeBlocks s = bytes := by
  rw [decodeBuffer_eq hn (by omega), RefusedLength]
  split_ifs with hrefused
  · have hne : (-EINVAL, output) ≠ ((0 : Int32), bytes) :=
      fun heq => absurd (show -EINVAL = (0 : Int32) from congrArg Prod.fst heq) (by decide)
    simp [hrefused, hne]
  · have hlength : (decodeBlocks s).length = output.length := by
      simp only [not_or, not_lt, not_not] at hrefused
      rw [decodeBlocks_length hrefused.2.1, hrefused.2.2, hroom]
    rw [splice, List.take_zero, List.nil_append, Nat.zero_add, hlength, List.drop_length,
      List.append_nil]
    simp [hrefused]

/-- The decoder always returns, and with an error exactly for the refused lengths. -/
theorem decodeBuffer_refuses (hn : n.toNat = s.length) (hroom : outputLen.toNat = output.length) :
    (∃ rc bytes, decodeBuffer s n output outputLen = some (rc, bytes) ∧ rc ≠ 0) ↔
      RefusedLength s outputLen := by
  rw [decodeBuffer_eq hn (by omega), RefusedLength]
  split_ifs with hrefused
  · exact iff_of_true ⟨-EINVAL, output, rfl, by decide⟩ hrefused
  · refine iff_of_false ?_ hrefused
    rintro ⟨rc, bytes, heq, hrc⟩
    exact hrc (congrArg Prod.fst (Option.some.inj heq)).symm

end Accept

/-- Everything but base 64 is rejected, and no two texts without padding decode to the same bytes,
exactly if the texts are base 64 unless their lengths are refused. -/
theorem base64_accepts_iff {s t b c : List UInt8} {n k size size' : UInt64}
    (hn : n.toNat = s.length) (hk : k.toNat = t.length) (hb : size.toNat = b.length)
    (hc : size'.toNat = c.length) :
    ((¬ Base64Text s → ∃ rc bytes, decodeBuffer s n b size = some (rc, bytes) ∧ rc ≠ 0) ∧
      (¬ Base64Text t → ∃ rc bytes, decodeBuffer t k c size' = some (rc, bytes) ∧ rc ≠ 0) ∧
      ((∃ bytes, decodeBuffer s n b size = some (0, bytes) ∧
        decodeBuffer t k c size' = some (0, bytes)) →
          '='.toUInt8 ∉ s → '='.toUInt8 ∉ t → s = t)) ↔
      (RefusedLength s size ∨ Base64Text s) ∧ (RefusedLength t size' ∨ Base64Text t) := by
  rw [decodeBuffer_refuses hn hb, decodeBuffer_refuses hk hc]
  constructor
  · rintro ⟨hs, ht, -⟩
    exact ⟨(em (Base64Text s)).symm.imp_left hs, (em (Base64Text t)).symm.imp_left ht⟩
  · rintro ⟨hs, ht⟩
    refine ⟨fun hbad => hs.resolve_right hbad, fun hbad => ht.resolve_right hbad, ?_⟩
    rintro ⟨bytes, hsd, htd⟩ hsp htp
    obtain ⟨hsl, hsd⟩ := (decodeBuffer_accepts hn hb bytes).mp hsd
    obtain ⟨htl, htd⟩ := (decodeBuffer_accepts hk hc bytes).mp htd
    have hmod : ∀ {s : List UInt8} {size : UInt64}, ¬ RefusedLength s size → s.length % 4 = 0 :=
      fun h => not_not.mp fun hmod => h (.inr (.inl hmod))
    exact decodeBlocks_injective (hmod hsl) (hmod htl) (hs.resolve_left hsl) (ht.resolve_left htl)
      hsp htp (hsd.trans htd.symm)

theorem base64_accepts_sample :
    ((¬ Base64Text ("AQID".toList.map Char.toUInt8) → ∃ rc bytes,
        decodeBuffer ("AQID".toList.map Char.toUInt8) 4 [0, 0, 0] 3 = some (rc, bytes) ∧ rc ≠ 0) ∧
      (¬ Base64Text ("AQI=".toList.map Char.toUInt8) → ∃ rc bytes,
        decodeBuffer ("AQI=".toList.map Char.toUInt8) 4 [0, 0, 0] 3 = some (rc, bytes) ∧ rc ≠ 0) ∧
      ((∃ bytes, decodeBuffer ("AQID".toList.map Char.toUInt8) 4 [0, 0, 0] 3 = some (0, bytes) ∧
        decodeBuffer ("AQI=".toList.map Char.toUInt8) 4 [0, 0, 0] 3 = some (0, bytes)) →
          '='.toUInt8 ∉ "AQID".toList.map Char.toUInt8 →
          '='.toUInt8 ∉ "AQI=".toList.map Char.toUInt8 →
          "AQID".toList.map Char.toUInt8 = "AQI=".toList.map Char.toUInt8)) ↔
      (RefusedLength ("AQID".toList.map Char.toUInt8) 3 ∨
        Base64Text ("AQID".toList.map Char.toUInt8)) ∧
      (RefusedLength ("AQI=".toList.map Char.toUInt8) 3 ∨
        Base64Text ("AQI=".toList.map Char.toUInt8)) :=
  base64_accepts_iff rfl rfl rfl rfl

/-- Four asterisks are accepted, with the bytes of `WWWW`. -/
theorem base64_accepts_asterisks :
    ¬ Base64Text ("****".toList.map Char.toUInt8) ∧
      decodeBuffer ("****".toList.map Char.toUInt8) 4 [0, 0, 0] 3 = some (0, [89, 101, 150]) ∧
      decodeBuffer ("WWWW".toList.map Char.toUInt8) 4 [0, 0, 0] 3 = some (0, [89, 101, 150]) := by
  refine ⟨fun B => ?_, by decide +kernel, by decide +kernel⟩
  have hmem := B.mem (c := '*'.toUInt8) (by decide)
  revert hmem
  decide +kernel

end HdrHistogramC
