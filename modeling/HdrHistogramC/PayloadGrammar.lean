import HdrHistogramC.DecodedCounts

/-!
# The grammar of the variable-length payload

A payload is a sequence of integers. One that is not negative is the count of the next
slot, and a negative one skips as many slots as it says. The relations here mention no
decoder; the parser accepts exactly the payloads whose slots fit the array.
-/
namespace HdrHistogramC
open FixedWidth BoundedLoop SevenBitGroups

/-- At most nine bytes, of which a ninth holds eight bits, in the order of the groups. -/
def SpellsInteger (bytes : List UInt8) (x : ℤ) : Prop :=
  ∃ n, Groups 8 (bytes.map UInt8.toNat) n ∧ zigZagValue n = x

/-- The slots that an integer fills. -/
inductive Fills : ℤ → List Int64 → Prop
  | count {v : Int64} : 0 ≤ v → Fills v.toInt [v]
  | skip {k : ℕ} : 1 ≤ k → k < 2 ^ 31 → Fills (-k) (List.replicate k 0)

inductive Payload : List UInt8 → List Int64 → Prop
  | nil : Payload [] []
  | cons {bytes rest : List UInt8} {x : ℤ} {slots more : List Int64} : SpellsInteger bytes x →
      Fills x slots → Payload rest more → Payload (bytes ++ rest) (slots ++ more)

/-- An integer is spelled by the bytes that the decoder reads as it. -/
theorem spellsInteger_iff {bytes : List UInt8} {x : ℤ} :
    SpellsInteger bytes x ↔ ∃ t : Token, t.bytes = bytes ∧ t.value.toInt = x := by
  have hbytes : ∀ b ∈ bytes.map UInt8.toNat, b < 256 := by
    intro b hb
    obtain ⟨a, -, rfl⟩ := List.mem_map.mp hb
    exact a.toNat_lt
  have hvalue : ∀ n, Groups 8 (bytes.map UInt8.toNat) n →
      (unZigZag (UInt64.ofNat n)).toInt = zigZagValue n := by
    intro n hn
    rw [unZigZag_toInt, UInt64.toNat_ofNat', Nat.mod_eq_of_lt (hn.lt hbytes)]
  constructor
  · rintro ⟨n, hn, rfl⟩
    have hread := groups_iff.mp hn
    rw [List.length_map] at hread
    exact ⟨⟨bytes, unZigZag (UInt64.ofNat n), by rw [zigZagDecodeI64_eq, hread]; rfl⟩, rfl,
      hvalue n hn⟩
  · rintro ⟨t, rfl, rfl⟩
    have hdec := t.decodes
    rw [zigZagDecodeI64_eq] at hdec
    obtain ⟨⟨k, n⟩, hr, heq⟩ := Option.map_eq_some_iff.mp hdec
    simp only [Prod.mk.injEq] at heq
    obtain ⟨rfl, hv⟩ := heq
    have hn : Groups 8 (t.bytes.map UInt8.toNat) n := by
      rw [groups_iff, List.length_map]
      exact hr
    exact ⟨n, hn, by rw [← hvalue n hn, hv]⟩

/-- A proper prefix of an integer is too few bytes that all announce another. -/
theorem cutOff_iff {bytes : List UInt8} :
    (∃ more x, more ≠ [] ∧ SpellsInteger (bytes ++ more) x) ↔
      bytes.length < MAX_BYTES_LEB128 ∧ ∀ b ∈ bytes, 128 ≤ b.toNat := by
  rw [MAX_BYTES_LEB128, Nat.lt_succ_iff]
  constructor
  · rintro ⟨more, x, hmore, n, G, -⟩
    rw [List.map_append] at G
    obtain ⟨hlen, hall⟩ := G.announced fun h => hmore (List.map_eq_nil_iff.mp h)
    rw [List.length_map] at hlen
    exact ⟨hlen, List.forall_mem_map.mp hall⟩
  · rintro ⟨hlen, hall⟩
    have hshort : (bytes.map UInt8.toNat).length ≤ 8 := by
      rw [List.length_map]
      exact hlen
    obtain ⟨n, G⟩ := exists_groups_append hshort (List.forall_mem_map.mpr hall)
    refine ⟨[0], _, List.cons_ne_nil 0 [], n, ?_, rfl⟩
    rw [List.map_append]
    exact G

/-- The slots of an integer that the parser has accepted. -/
def slotsOf (v : Int64) : List Int64 :=
  if v < 0 then List.replicate (-v).toInt.toNat 0 else [v]

section Slots
variable {len i j : ℕ} {v : Int64}

theorem toInt_neg_of_lt (h : Int32.minValue.toInt64.toInt < v.toInt) :
    (-v).toInt = -v.toInt := by
  have hmin : Int32.minValue.toInt64.toInt = -2 ^ 31 := by decide
  have := v.toInt_lt
  rw [Int64.toInt_neg, bmod64] <;> omega

theorem fills_slotsOf (hok : v < 0 → ¬ BadZeros len i v) : Fills v.toInt (slotsOf v) := by
  have hmin : Int32.minValue.toInt64.toInt = -2 ^ 31 := by decide
  unfold slotsOf
  split_ifs with hv
  · have hbad := hok hv
    rw [BadZeros, not_or, Int64.le_iff_toInt_le, not_le] at hbad
    rw [Int64.lt_iff_toInt_lt, Int64.toInt_zero] at hv
    have hneg := toInt_neg_of_lt hbad.1
    have hk : v.toInt = -((-v).toInt.toNat : ℤ) := by omega
    rw [hk]
    exact .skip (by omega) (by omega)
  · exact .count (Int64.not_lt.mp hv)

theorem Fills.accepted {slots : List Int64} (F : Fills v.toInt slots)
    (hle : i + slots.length ≤ len) :
    slots = slotsOf v ∧ i < len ∧ (v < 0 → ¬ BadZeros len i v) := by
  have hmin : Int32.minValue.toInt64.toInt = -2 ^ 31 := by decide
  generalize hx : v.toInt = x at F
  cases F with
  | @count w hw =>
      obtain rfl : v = w := Int64.toInt_inj.mp hx
      have hneg : ¬ v < 0 := Int64.not_lt.mpr hw
      refine ⟨by rw [slotsOf, if_neg hneg], ?_, fun h => absurd h hneg⟩
      rw [List.length_singleton] at hle
      omega
  | @skip k h1 hk =>
      have hneg : v < 0 := by
        rw [Int64.lt_iff_toInt_lt, Int64.toInt_zero]
        omega
      have hval : (-v).toInt = -v.toInt := toInt_neg_of_lt (by omega)
      rw [List.length_replicate] at hle
      refine ⟨?_, by omega, fun _ => ?_⟩
      · rw [slotsOf, if_pos hneg, hval, hx, neg_neg, Int.toNat_natCast]
      · rw [BadZeros, Int64.le_iff_toInt_le, hval]
        omega

theorem length_slotsOf (v : Int64) :
    (slotsOf v).length = if v < 0 then (-v).toInt.toNat else 1 := by
  unfold slotsOf
  split_ifs <;> simp

theorem accepted_iff : i < len ∧ (v < 0 → ¬ BadZeros len i v) ↔
    Int32.minValue.toInt64 < v ∧ i + (slotsOf v).length ≤ len := by
  have hmin : Int32.minValue.toInt64.toInt = -2 ^ 31 := by decide
  rw [length_slotsOf]
  by_cases hv : v < 0
  · simp only [hv, if_true, true_implies, BadZeros, Int64.le_iff_toInt_le, Int64.lt_iff_toInt_lt]
    rw [Int64.lt_iff_toInt_lt, Int64.toInt_zero] at hv
    constructor
    · rintro ⟨hi, hok⟩
      omega
    · rintro ⟨hlt, hle⟩
      have hneg := toInt_neg_of_lt hlt
      omega
  · simp only [hv, if_false, false_implies, and_true, Int64.lt_iff_toInt_lt]
    rw [Int64.lt_iff_toInt_lt, Int64.toInt_zero] at hv
    omega

/-- The parser accepts integers whose slots fit the array, and advances by the slots. -/
theorem advance_iff {vs : List Int64} (hi : i ≤ len) : advance len i vs = some j ↔
    (∀ v ∈ vs, Int32.minValue.toInt64 < v) ∧ i + (vs.flatMap slotsOf).length = j ∧ j ≤ len := by
  induction vs generalizing i with
  | nil =>
      simp only [advance, Option.some.injEq, List.flatMap_nil, List.length_nil, Nat.add_zero,
        List.not_mem_nil, false_implies, implies_true, true_and]
      omega
  | cons v vs ih =>
      have hnext : (if v < 0 then i + (-v).toInt.toNat else i + 1) = i + (slotsOf v).length := by
        rw [length_slotsOf]
        split_ifs <;> rfl
      rw [advance_cons, hnext, ← and_assoc, accepted_iff, List.forall_mem_cons, List.flatMap_cons,
        List.length_append, ← Nat.add_assoc]
      constructor
      · rintro ⟨⟨hmin, hle⟩, hrest⟩
        obtain ⟨hall, hj, hjle⟩ := (ih hle).mp hrest
        exact ⟨⟨hmin, hall⟩, hj, hjle⟩
      · rintro ⟨⟨hmin, hall⟩, hj, hjle⟩
        exact ⟨⟨hmin, by omega⟩, (ih (by omega)).mpr ⟨hall, hj, hjle⟩⟩

theorem payload_of_advance {ts : List Token} (h : advance len i (ts.map Token.value) = some j) :
    Payload (Token.flat ts) ((ts.map Token.value).flatMap slotsOf) := by
  induction ts generalizing i with
  | nil => exact .nil
  | cons t ts ih =>
      obtain ⟨-, hok, hrest⟩ := advance_cons.mp h
      rw [Token.flat_cons, List.map_cons, List.flatMap_cons]
      exact .cons (spellsInteger_iff.mpr ⟨t, rfl, rfl⟩) (fills_slotsOf hok) (ih hrest)

theorem Payload.exists_tokens {bytes : List UInt8} {slots : List Int64} (P : Payload bytes slots)
    (hle : i + slots.length ≤ len) : ∃ ts : List Token, Token.flat ts = bytes ∧
      (ts.map Token.value).flatMap slotsOf = slots ∧
      advance len i (ts.map Token.value) = some (i + slots.length) := by
  induction P generalizing i with
  | nil => exact ⟨[], rfl, rfl, rfl⟩
  | @cons bytes rest x slots more hspell F _ ih =>
      rw [List.length_append] at hle
      obtain ⟨t, rfl, rfl⟩ := spellsInteger_iff.mp hspell
      obtain ⟨rfl, hi, hok⟩ := F.accepted (show i + slots.length ≤ len by omega)
      obtain ⟨ts, rfl, rfl, hadv⟩ := ih (i := i + (slotsOf t.value).length) (by omega)
      refine ⟨t :: ts, rfl, rfl, advance_cons.mpr ⟨hi, hok, ?_⟩⟩
      rw [List.length_append, ← Nat.add_assoc, ← hadv, length_slotsOf]
      split_ifs <;> rfl

/-- Stored on zeros, the slots follow the counts that were there. -/
theorem store_slots {cs vs : List Int64} (hz : ∀ c ∈ cs.drop i, c = 0) (hi : i ≤ cs.length)
    (h : advance cs.length i vs = some j) :
    store cs i vs = cs.take i ++ vs.flatMap slotsOf ++ List.replicate (cs.length - j) 0 := by
  induction vs generalizing cs i with
  | nil =>
      rw [advance, Option.some.injEq] at h
      subst h
      have hrest : cs.drop i = List.replicate (cs.length - i) 0 := by
        rw [List.eq_replicate_iff]
        exact ⟨List.length_drop, hz⟩
      rw [List.flatMap_nil, List.append_nil, ← hrest, List.take_append_drop]
      rfl
  | cons v vs ih =>
      obtain ⟨hlt, hok, hrest⟩ := advance_cons.mp h
      obtain ⟨-, hj⟩ := (advance_iff hi).mp h
      rw [List.flatMap_cons, List.length_append, length_slotsOf] at hj
      rw [store, List.flatMap_cons, slotsOf]
      split_ifs at hrest hj ⊢ with hv
      · have htake : cs.take (i + (-v).toInt.toNat) =
            cs.take i ++ List.replicate (-v).toInt.toNat 0 := by
          rw [List.take_add, List.append_cancel_left_eq, List.eq_replicate_iff]
          refine ⟨?_, fun c hc => hz c (List.mem_of_mem_take hc)⟩
          rw [List.length_take, List.length_drop]
          omega
        have hdrop : ∀ c ∈ cs.drop (i + (-v).toInt.toNat), c = 0 := by
          intro c hc
          rw [← List.drop_drop] at hc
          exact hz c (List.mem_of_mem_drop hc)
        rw [ih hdrop (by omega) hrest, htake]
        simp only [List.append_assoc]
      · have htake : (cs.set i v).take (i + 1) = cs.take i ++ [v] := by
          rw [List.take_succ_eq_append_getElem (by rw [List.length_set]; omega),
            List.take_set_of_le le_rfl, List.getElem_set_self]
        have hdrop : ∀ c ∈ (cs.set i v).drop (i + 1), c = 0 := by
          intro c hc
          rw [List.drop_set_of_lt (by omega), ← List.drop_drop] at hc
          exact hz c (List.mem_of_mem_drop hc)
        have hstore := ih hdrop (by rw [List.length_set]; omega) (by rwa [List.length_set])
        rw [hstore, htake, List.length_set]
        simp only [List.append_assoc]

theorem store_nonneg {cs : List Int64} (hcs : ∀ c ∈ cs, 0 ≤ c) (vs : List Int64) :
    ∀ c ∈ store cs i vs, 0 ≤ c := by
  induction vs generalizing cs i with
  | nil => exact hcs
  | cons v vs ih =>
      rw [store]
      split_ifs with hv
      · exact ih hcs
      · refine ih fun c hc => ?_
        rcases List.mem_or_eq_of_mem_set hc with hc | rfl
        · exact hcs c hc
        · exact Int64.not_lt.mp hv

end Slots

/-- The bytes are a payload whose slots fit an array of `len` counts. -/
def AcceptedPayload (len : ℕ) (bytes : List UInt8) : Prop :=
  ∃ slots, Payload bytes slots ∧ slots.length ≤ len

/-- What the parser does with `bytes`, stored into the empty histogram `h`. -/
structure ParsesPayload (h : HdrHistogram) (bytes : List UInt8) (rc : Int32)
    (h' : HdrHistogram) : Prop where
  layout : h'.toBucketLayout = h.toBucketLayout
  nonneg : ∀ c ∈ h'.counts, 0 ≤ c
  accepts : rc = 0 ↔ AcceptedPayload h.counts.length bytes
  stores : ∀ slots, Payload bytes slots → slots.length ≤ h.counts.length →
    h'.counts = slots ++ List.replicate (h.counts.length - slots.length) 0

/-- With nine spare bytes after the payload the parser reads some tokens of it, all of them when
it returns no error. -/
theorem applyToCountsZz_parses {h : HdrHistogram} {len : ℕ} (hl : h.countsLen.toInt = len)
    {limit : Int32} (bytes spare : List UInt8) (hlim : limit.toInt = bytes.length)
    (hspare : MAX_BYTES_LEB128 ≤ spare.length) :
    ∃ rc ts j h', h.applyToCountsZz (bytes ++ spare) limit = some (rc, h') ∧
      Stored h (store h.counts 0 (ts.map Token.value)) h' ∧
      advance len 0 (ts.map Token.value) = some j ∧ (rc = 0 → Token.flat ts = bytes) := by
  obtain ⟨ts, j, h', hdata, hadv, S, hend⟩ := applyToCountsZz_cases hl (bytes ++ spare) limit
  have hprefix : ((Token.flat ts).length : ℤ) = limit.toInt → Token.flat ts = bytes := by
    intro hd
    have htake := congrArg (List.take bytes.length) hdata
    rwa [List.take_left, show bytes.length = (Token.flat ts).length by omega, List.take_left,
      eq_comm] at htake
  generalize h.applyToCountsZz (bytes ++ spare) limit = r at hend ⊢
  cases hend with
  | overrun hd hj hdec =>
      obtain ⟨hshort, -⟩ := zigZagDecodeI64_eq_none_iff.mp hdec
      rw [List.length_drop, List.length_append] at hshort
      omega
  | bad k v hd hj hdec hv hbad =>
      exact ⟨_, ts, j, h', rfl, S, hadv, fun hcode => absurd hcode (by decide)⟩
  | stop hstop =>
      refine ⟨_, ts, j, h', rfl, S, hadv, fun hcode => hprefix ?_⟩
      -- no error code is zero
      unfold zzCode at hcode
      split_ifs at hcode with h₁ h₂
      · exact absurd hcode (by decide)
      · exact absurd hcode (by decide)
      · omega

/-- The parser accepts exactly the payloads whose slots fit the array, and stores them. The
write of a count outside the array and the read of a byte outside the buffer would make the
result undefined. -/
theorem payload_grammar {h : HdrHistogram} (hz : ∀ c ∈ h.counts, c = 0) {limit : Int32}
    (bytes spare : List UInt8) (hlim : limit.toInt = bytes.length)
    (hspare : MAX_BYTES_LEB128 ≤ spare.length) :
    ∃ rc h', h.applyToCountsZz (bytes ++ spare) limit = some (rc, h') ∧
      ParsesPayload h bytes rc h' := by
  have hl : h.countsLen.toInt = h.counts.length := h.counts_length.symm
  have hzero : ∀ c ∈ h.counts.drop 0, c = 0 := hz
  have h0 : ∀ c ∈ h.counts, 0 ≤ c := fun c hc => by
    rw [hz c hc]
    decide
  -- an accepted payload is consumed token by token
  have hgood : ∀ slots, Payload bytes slots → slots.length ≤ h.counts.length →
      ∃ h', h.applyToCountsZz (bytes ++ spare) limit = some (0, h') ∧
        h'.counts = slots ++ List.replicate (h.counts.length - slots.length) 0 := by
    intro slots P hle
    obtain ⟨ts, rfl, rfl, hadv⟩ := P.exists_tokens
      (show 0 + slots.length ≤ h.counts.length by omega)
    obtain ⟨h', happ, S⟩ := applyToCountsZz_tokens spare hl hlim hadv
    refine ⟨h', happ, ?_⟩
    rw [S.counts, store_slots hzero (Nat.zero_le _) hadv, List.take_zero, List.nil_append,
      Nat.zero_add]
  obtain ⟨rc, ts, j, h', hrc, S, hadv, hall⟩ := applyToCountsZz_parses hl bytes spare hlim hspare
  refine ⟨rc, h', hrc, S.layout, ?_, ⟨fun hok => ?_, ?_⟩, ?_⟩
  · rw [S.counts]
    exact store_nonneg h0 _
  · obtain ⟨-, hslots⟩ := (advance_iff (Nat.zero_le _)).mp hadv
    rw [← hall hok]
    exact ⟨_, payload_of_advance hadv, by omega⟩
  · rintro ⟨slots, P, hle⟩
    obtain ⟨g, hg, -⟩ := hgood slots P hle
    rw [hrc] at hg
    cases hg
    rfl
  · intro slots P hle
    obtain ⟨g, hg, hcounts⟩ := hgood slots P hle
    rw [hrc] at hg
    cases hg
    exact hcounts

theorem payload_grammar_sample : ∃ rc h',
    sampleHistogram.applyToCountsZz ([6, 125] ++ List.replicate 9 0) 2 = some (rc, h') ∧
      ParsesPayload sampleHistogram [6, 125] rc h' :=
  payload_grammar (fun _ hc => (List.mem_replicate.mp hc).2) [6, 125] (List.replicate 9 0) rfl
    (by simp [MAX_BYTES_LEB128])

end HdrHistogramC
