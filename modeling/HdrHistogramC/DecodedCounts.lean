import HdrHistogramC.LogCodec

/-!
# What the decoders store

A variable-length payload is a sequence of tokens, each one integer. The loop over
it consumes tokens while they fit the array, and stores the nonnegative ones at
increasing indices; the copy loops store one word after the other.
-/
namespace HdrHistogramC
open FixedWidth BoundedLoop BucketLayout.Describes

/-- The bytes of one integer, with its value. -/
structure Token where
  bytes : List UInt8
  value : Int64
  decodes : zigZagDecodeI64 bytes = some (bytes.length, value)

namespace Token

/-- The bytes of consecutive tokens. -/
def flat (ts : List Token) : List UInt8 := ts.flatMap Token.bytes

@[simp] theorem flat_nil : flat [] = [] := rfl

@[simp] theorem flat_cons (t : Token) (ts : List Token) : flat (t :: ts) = t.bytes ++ flat ts := rfl

/-- The token that the encoder writes for a value. -/
def ofValue (v : Int64) : Token where
  bytes := zigZagEncodeI64 v
  value := v
  decodes := by simpa using zigZagDecodeI64_encode v []

theorem bytes_pos (t : Token) : 1 ≤ t.bytes.length := (zigZagDecodeI64_le t.decodes).1

theorem length_le_flat (ts : List Token) : ts.length ≤ (flat ts).length := by
  induction ts with
  | nil => rfl
  | cons t ts ih =>
      have := t.bytes_pos
      rw [flat_cons, List.length_append, List.length_cons]
      omega

theorem decode_append (t : Token) (rest : List UInt8) :
    zigZagDecodeI64 (t.bytes ++ rest) = some (t.bytes.length, t.value) :=
  zigZagDecodeI64_append t.decodes rest

theorem flat_injective {ts us : List Token} (h : flat ts = flat us) : ts = us := by
  induction ts generalizing us with
  | nil =>
      have hlen := length_le_flat us
      rw [← h, flat_nil, List.length_nil, Nat.le_zero, List.length_eq_zero_iff] at hlen
      exact hlen.symm
  | cons t ts ih =>
      cases us with
      | nil =>
          have hlen := length_le_flat (t :: ts)
          rw [h, flat_nil, List.length_nil, List.length_cons] at hlen
          omega
      | cons u us =>
          rw [flat_cons, flat_cons] at h
          have hdec := t.decode_append (flat ts)
          rw [h, u.decode_append, Option.some.injEq, Prod.mk.injEq] at hdec
          obtain ⟨hbytes, hrest⟩ := List.append_inj h hdec.1.symm
          obtain ⟨tb, tv, td⟩ := t
          obtain ⟨ub, uv, ud⟩ := u
          obtain rfl : tb = ub := hbytes
          obtain rfl : uv = tv := hdec.2
          rw [ih hrest]

end Token

/-- A run of zeros that the decoder refuses at index `i` of an array of `len` counts. -/
def BadZeros (len i : ℕ) (value : Int64) : Prop :=
  value ≤ Int32.minValue.toInt64 ∨ (i : ℤ) + (-value).toInt > len

instance (len i : ℕ) (value : Int64) : Decidable (BadZeros len i value) := by
  unfold BadZeros; infer_instance

/-- The index after some values, when all of them are accepted. -/
def advance (len : ℕ) : ℕ → List Int64 → Option ℕ
  | i, [] => some i
  | i, v :: vs =>
      if len ≤ i then none
      else if v < 0 then if BadZeros len i v then none else advance len (i + (-v).toInt.toNat) vs
      else advance len (i + 1) vs

/-- The counts after some values are stored from index `i` on. -/
def store (cs : List Int64) : ℕ → List Int64 → List Int64
  | _, [] => cs
  | i, v :: vs =>
      if v < 0 then store cs (i + (-v).toInt.toNat) vs else store (cs.set i v) (i + 1) vs

@[simp] theorem store_length (cs : List Int64) (i : ℕ) (vs : List Int64) :
    (store cs i vs).length = cs.length := by
  induction vs generalizing cs i with
  | nil => rfl
  | cons v vs ih =>
      rw [store]
      split_ifs <;> simp [ih]

/-- The layout is kept and the counts are `cs`. -/
structure Stored (h : HdrHistogram) (cs : List Int64) (h' : HdrHistogram) : Prop where
  layout : h'.toBucketLayout = h.toBucketLayout
  counts : h'.counts = cs

theorem Stored.refl (h : HdrHistogram) : Stored h h.counts h := ⟨rfl, rfl⟩

theorem countsSet_eq {h : HdrHistogram} {i : ℕ} (hi : i < h.counts.length) (v : Int64) :
    ∃ h', h.countsSet i v = some h' ∧ Stored h (h.counts.set i v) h' :=
  ⟨_, if_pos hi, rfl, rfl⟩

section Loop
variable {data : List UInt8} {limit : Int32} {len : ℕ}

/-- The return code of the loop when it stops at byte `d`. -/
def zzCode (limit : Int32) (d : ℕ) : Int32 :=
  if (d : ℤ) > limit.toInt then HDR_VALUE_TRUNCATED
  else if (d : ℤ) < limit.toInt then HDR_ENCODED_INPUT_TOO_LONG
  else 0

theorem zzBody_stop {h : HdrHistogram} {d i : ℕ} (hl : h.countsLen.toInt = len)
    (hstop : limit.toInt ≤ d ∨ len ≤ i) :
    HdrHistogram.zzBody data limit (h, d, i) = some (.leave (zzCode limit d, h)) := by
  have hexit : ¬ ((d : ℤ) < limit.toInt ∧ (i : ℤ) < h.countsLen.toInt) := by
    rw [hl]
    omega
  unfold HdrHistogram.zzBody zzCode
  dsimp only
  rw [if_neg hexit]
  split_ifs <;> rfl

theorem zzBody_overrun {h : HdrHistogram} {d i : ℕ} (hl : h.countsLen.toInt = len)
    (hd : (d : ℤ) < limit.toInt) (hi : i < len) (hnone : zigZagDecodeI64 (data.drop d) = none) :
    HdrHistogram.zzBody data limit (h, d, i) = none := by
  unfold HdrHistogram.zzBody
  dsimp only
  rw [if_pos ⟨hd, by rw [hl]; omega⟩, hnone]

theorem zzBody_bad {h : HdrHistogram} {d i k : ℕ} {v : Int64} (hl : h.countsLen.toInt = len)
    (hd : (d : ℤ) < limit.toInt) (hi : i < len)
    (hsome : zigZagDecodeI64 (data.drop d) = some (k, v)) (hv : v < 0) (hbad : BadZeros len i v) :
    HdrHistogram.zzBody data limit (h, d, i) =
      some (.leave (HDR_TRAILING_ZEROS_INVALID, h)) := by
  unfold HdrHistogram.zzBody
  dsimp only
  rw [if_pos ⟨hd, by rw [hl]; omega⟩, hsome]
  dsimp only
  rw [if_pos hv, if_pos (by rw [hl]; exact hbad)]

theorem zzBody_step {h : HdrHistogram} {d i k : ℕ} {v : Int64} (hl : h.countsLen.toInt = len)
    (hd : (d : ℤ) < limit.toInt) (hi : i < len)
    (hsome : zigZagDecodeI64 (data.drop d) = some (k, v)) (hok : v < 0 → ¬ BadZeros len i v) :
    ∃ h', HdrHistogram.zzBody data limit (h, d, i) =
        some (.again (h', d + k, if v < 0 then i + (-v).toInt.toNat else i + 1)) ∧
      Stored h (if v < 0 then h.counts else h.counts.set i v) h' := by
  have hlen : h.counts.length = len := by
    have := h.counts_length
    omega
  unfold HdrHistogram.zzBody
  dsimp only
  rw [if_pos ⟨hd, by rw [hl]; omega⟩, hsome]
  dsimp only
  by_cases hv : v < 0
  · rw [if_pos hv, if_pos hv, if_pos hv, if_neg (by rw [hl]; exact hok hv)]
    exact ⟨h, rfl, Stored.refl h⟩
  · obtain ⟨h', hset, S⟩ := countsSet_eq (h := h) (i := i) (by omega) v
    rw [if_neg hv, if_neg hv, if_neg hv, hset]
    exact ⟨h', rfl, S⟩

theorem advance_cons {i j : ℕ} {v : Int64} {vs : List Int64} :
    advance len i (v :: vs) = some j ↔ i < len ∧ (v < 0 → ¬ BadZeros len i v) ∧
      advance len (if v < 0 then i + (-v).toInt.toNat else i + 1) vs = some j := by
  rw [advance]
  by_cases hi : len ≤ i
  · simp [hi, Nat.not_lt.mpr hi]
  · by_cases hv : v < 0
    · by_cases hb : BadZeros len i v
      · simp [hi, hv, hb]
      · simp [hi, hv, hb, Nat.not_le.mp hi]
    · simp [hi, hv, Nat.not_le.mp hi]

/-- Accepted tokens that end inside the data are consumed one by one. -/
theorem run_tokens (ts : List Token) : ∀ (h : HdrHistogram) (pre rest : List UInt8) (i j fuel : ℕ),
    h.countsLen.toInt = len → data = pre ++ Token.flat ts ++ rest →
    ((pre ++ Token.flat ts).length : ℤ) ≤ limit.toInt →
    advance len i (ts.map Token.value) = some j →
    ∃ h', run (HdrHistogram.zzBody data limit) (fuel + ts.length) (h, pre.length, i) =
        run (HdrHistogram.zzBody data limit) fuel (h', (pre ++ Token.flat ts).length, j) ∧
      Stored h (store h.counts i (ts.map Token.value)) h' := by
  induction ts with
  | nil =>
      intro h pre rest i j fuel _ _ _ hadv
      cases hadv
      exact ⟨h, by simp, Stored.refl h⟩
  | cons t ts ih =>
      intro h pre rest i j fuel hl hdata hlim hadv
      obtain ⟨hi, hok, hadv'⟩ := advance_cons.mp hadv
      have htpos := t.bytes_pos
      have hdrop : data.drop pre.length = t.bytes ++ (Token.flat ts ++ rest) := by
        rw [hdata, List.append_assoc, List.drop_left, Token.flat_cons, List.append_assoc]
      have hsome : zigZagDecodeI64 (data.drop pre.length) = some (t.bytes.length, t.value) := by
        rw [hdrop]
        exact t.decode_append _
      simp only [Token.flat_cons, List.length_append] at hlim
      push_cast at hlim
      obtain ⟨h₁, hbody, S₁⟩ := zzBody_step (h := h) hl
        (show (pre.length : ℤ) < limit.toInt by omega) hi hsome hok
      obtain ⟨h₂, hrun, S₂⟩ := ih h₁ (pre ++ t.bytes) rest _ j fuel (by rw [S₁.layout]; exact hl)
        (by simpa using hdata) (by simp only [List.length_append]; push_cast; omega) hadv'
      refine ⟨h₂, ?_, S₂.layout.trans S₁.layout, ?_⟩
      · rw [List.length_cons, ← Nat.add_assoc, run_again hbody, ← List.length_append, hrun]
        simp
      · rw [S₂.counts, S₁.counts, List.map_cons, store]
        split_ifs <;> rfl

/-- How the loop ends, after it has consumed some tokens and stands at byte `d` and
index `j`. -/
inductive ZzEnd (data : List UInt8) (limit : Int32) (len : ℕ) (h : HdrHistogram) (d j : ℕ) :
    Option (Int32 × HdrHistogram) → Prop
  | overrun : (d : ℤ) < limit.toInt → j < len → zigZagDecodeI64 (data.drop d) = none →
      ZzEnd data limit len h d j none
  | bad (k : ℕ) (v : Int64) : (d : ℤ) < limit.toInt → j < len →
      zigZagDecodeI64 (data.drop d) = some (k, v) → v < 0 → BadZeros len j v →
      ZzEnd data limit len h d j (some (HDR_TRAILING_ZEROS_INVALID, h))
  | stop : limit.toInt ≤ d ∨ len ≤ j → ZzEnd data limit len h d j (some (zzCode limit d, h))

theorem exists_token {bs : List UInt8} {k : ℕ} {v : Int64} (h : zigZagDecodeI64 bs = some (k, v)) :
    ∃ t : Token, t.value = v ∧ t.bytes.length = k ∧ bs = t.bytes ++ bs.drop k := by
  obtain ⟨-, -, hk⟩ := zigZagDecodeI64_le h
  have hlen : (bs.take k).length = k := List.length_take_of_le hk
  exact ⟨⟨bs.take k, v, by rw [hlen, zigZagDecodeI64_take h]⟩, rfl, hlen,
    (List.take_append_drop k bs).symm⟩

variable (data limit) in
/-- Every run of the loop consumes tokens and ends in one of three ways. -/
theorem run_zz_cases : ∀ (fuel : ℕ) (h : HdrHistogram) (d i : ℕ), h.countsLen.toInt = len →
    limit.toInt ≤ d + fuel →
    ∃ (ts : List Token) (j : ℕ) (h' : HdrHistogram),
      data.drop d = Token.flat ts ++ data.drop (d + (Token.flat ts).length) ∧
      advance len i (ts.map Token.value) = some j ∧
      Stored h (store h.counts i (ts.map Token.value)) h' ∧
      ZzEnd data limit len h' (d + (Token.flat ts).length) j
        (run (HdrHistogram.zzBody data limit) (fuel + 1) (h, d, i)) := by
  intro fuel
  induction fuel with
  | zero =>
      intro h d i hl hf
      have hstop : limit.toInt ≤ d ∨ len ≤ i := .inl (by omega)
      refine ⟨[], i, h, by simp, rfl, Stored.refl h, ?_⟩
      rw [run_leave (zzBody_stop hl hstop)]
      exact .stop hstop
  | succ fuel ih =>
      intro h d i hl hf
      by_cases hstop : limit.toInt ≤ d ∨ len ≤ i
      · refine ⟨[], i, h, by simp, rfl, Stored.refl h, ?_⟩
        rw [run_leave (zzBody_stop hl hstop)]
        exact .stop hstop
      obtain ⟨hd, hi⟩ : (d : ℤ) < limit.toInt ∧ i < len := by omega
      cases hdec : zigZagDecodeI64 (data.drop d) with
      | none =>
          refine ⟨[], i, h, by simp, rfl, Stored.refl h, ?_⟩
          rw [run, zzBody_overrun hl hd hi hdec]
          exact .overrun hd hi hdec
      | some r =>
          obtain ⟨k, v⟩ := r
          by_cases hbad : v < 0 ∧ BadZeros len i v
          · refine ⟨[], i, h, by simp, rfl, Stored.refl h, ?_⟩
            rw [run_leave (zzBody_bad hl hd hi hdec hbad.1 hbad.2)]
            exact .bad k v hd hi hdec hbad.1 hbad.2
          have hok : v < 0 → ¬ BadZeros len i v := fun hv hb => hbad ⟨hv, hb⟩
          obtain ⟨h₁, hbody, S₁⟩ := zzBody_step hl hd hi hdec hok
          obtain ⟨t, rfl, hk, hsplit⟩ := exists_token hdec
          have htpos := t.bytes_pos
          obtain ⟨ts, j, h₂, hdata, hadv, S₂, hend⟩ := ih h₁ (d + k) _
            (by rw [S₁.layout]; exact hl) (by push_cast; omega)
          refine ⟨t :: ts, j, h₂, ?_, ?_, ⟨S₂.layout.trans S₁.layout, ?_⟩, ?_⟩
          · rw [hsplit, List.drop_drop, hdata, Token.flat_cons, List.length_append, hk,
              List.append_assoc, Nat.add_assoc]
          · exact advance_cons.mpr ⟨hi, hok, hadv⟩
          · rw [S₂.counts, S₁.counts, List.map_cons, store]
            split_ifs <;> rfl
          · rw [run_again hbody, Token.flat_cons, List.length_append, hk, ← Nat.add_assoc]
            exact hend

end Loop

theorem applyToCountsZz_cases {h : HdrHistogram} {len : ℕ} (hl : h.countsLen.toInt = len)
    (data : List UInt8) (limit : Int32) :
    ∃ (ts : List Token) (j : ℕ) (h' : HdrHistogram),
      data = Token.flat ts ++ data.drop (Token.flat ts).length ∧
      advance len 0 (ts.map Token.value) = some j ∧
      Stored h (store h.counts 0 (ts.map Token.value)) h' ∧
      ZzEnd data limit len h' (Token.flat ts).length j (h.applyToCountsZz data limit) := by
  obtain ⟨ts, j, h', hdata, hadv, S, hend⟩ :=
    run_zz_cases data limit limit.toInt.toNat h 0 0 hl (by omega)
  rw [List.drop_zero, Nat.zero_add] at hdata
  rw [Nat.zero_add] at hend
  exact ⟨ts, j, h', hdata, hadv, S, hend⟩

/-- Accepted tokens within the limit are stored, and the loop goes on after them. -/
theorem applyToCountsZz_flat {h : HdrHistogram} {ts : List Token} {limit : Int32} {len j : ℕ}
    (tail : List UInt8) (hl : h.countsLen.toInt = len)
    (hlim : ((Token.flat ts).length : ℤ) ≤ limit.toInt)
    (hadv : advance len 0 (ts.map Token.value) = some j) :
    ∃ h' fuel, h.applyToCountsZz (Token.flat ts ++ tail) limit =
        run (HdrHistogram.zzBody (Token.flat ts ++ tail) limit) (fuel + 1)
          (h', (Token.flat ts).length, j) ∧
      Stored h (store h.counts 0 (ts.map Token.value)) h' ∧ h'.countsLen.toInt = len := by
  have hts := Token.length_le_flat ts
  obtain ⟨fuel, hfuel⟩ : ∃ k, limit.toInt.toNat + 1 = k + 1 + ts.length :=
    ⟨limit.toInt.toNat - ts.length, by omega⟩
  obtain ⟨h', hrun, S⟩ := run_tokens ts h [] tail 0 j (fuel + 1) hl
    (show Token.flat ts ++ tail = [] ++ Token.flat ts ++ tail by simp) (by simpa using hlim) hadv
  rw [List.length_nil, List.nil_append] at hrun
  refine ⟨h', fuel, ?_, S, by rw [S.layout]; exact hl⟩
  rw [HdrHistogram.applyToCountsZz, hfuel, hrun]

theorem applyToCountsZz_tokens {h : HdrHistogram} {ts : List Token} {limit : Int32} {len j : ℕ}
    (tail : List UInt8) (hl : h.countsLen.toInt = len) (hlim : limit.toInt = (Token.flat ts).length)
    (hadv : advance len 0 (ts.map Token.value) = some j) :
    ∃ h', h.applyToCountsZz (Token.flat ts ++ tail) limit = some (0, h') ∧
      Stored h (store h.counts 0 (ts.map Token.value)) h' := by
  obtain ⟨h', fuel, happ, S, hl'⟩ := applyToCountsZz_flat tail hl hlim.ge hadv
  refine ⟨h', ?_, S⟩
  rw [happ, run_leave (zzBody_stop hl' (.inl hlim.le)), zzCode, if_neg (by omega),
    if_neg (by omega)]

theorem applyWords_eq (size : ℕ) (word : List UInt8 → Int64) (data : List UInt8) :
    ∀ (n i : ℕ) (h : HdrHistogram), i + n ≤ h.counts.length → (i + n) * size ≤ data.length →
    ∃ h', HdrHistogram.applyWords size word data n i h = some h' ∧
      Stored h (h.counts.take i ++ (List.range n).map
        (fun k => word (field data ((i + k) * size) size)) ++ h.counts.drop (i + n)) h' := by
  intro n
  induction n with
  | zero =>
      intro i h _ _
      exact ⟨h, rfl, rfl, by simp⟩
  | succ n ih =>
      intro i h hn hdata
      have hle : (i + 1) * size ≤ data.length :=
        (Nat.mul_le_mul_right size (by omega)).trans hdata
      obtain ⟨h₁, hset, S₁⟩ := countsSet_eq (h := h) (i := i) (by omega)
        (word (field data (i * size) size))
      have hlen : h₁.counts.length = h.counts.length := by rw [S₁.counts, List.length_set]
      obtain ⟨h₂, hrun, S₂⟩ := ih (i + 1) h₁ (by omega)
        (by rwa [show i + 1 + n = i + (n + 1) by omega])
      refine ⟨h₂, ?_, S₂.layout.trans S₁.layout, ?_⟩
      · rw [HdrHistogram.applyWords, if_pos hle, hset, Option.bind_some, hrun]
      · rw [S₂.counts, S₁.counts, List.range_succ_eq_map, List.map_cons, List.map_map,
          show i + 1 + n = i + (n + 1) by omega, List.drop_set_of_lt (by omega),
          List.take_succ_eq_append_getElem (by rw [List.length_set]; omega),
          List.take_set_of_le le_rfl, List.getElem_set_self]
        simp only [List.append_assoc, List.cons_append, List.nil_append, Nat.add_zero]
        congr 3
        apply List.map_congr_left
        intro k _
        simp only [Function.comp, Nat.succ_eq_add_one, Nat.add_assoc, Nat.add_comm 1]

/-- More words than counts: the loop leaves the array. -/
theorem applyWords_overrun {size : ℕ} {word : List UInt8 → Int64} {data : List UInt8} :
    ∀ (n i : ℕ) (h : HdrHistogram), i ≤ h.counts.length → h.counts.length < i + n →
    HdrHistogram.applyWords size word data n i h = none := by
  intro n
  induction n with
  | zero => intro i h _ _; omega
  | succ n ih =>
      intro i h hi hn
      rw [HdrHistogram.applyWords]
      split_ifs
      · by_cases hlt : i < h.counts.length
        · obtain ⟨h₁, hset, S₁⟩ := countsSet_eq (h := h) hlt (word (field data (i * size) size))
          have hlen : h₁.counts.length = h.counts.length := by rw [S₁.counts, List.length_set]
          rw [hset, Option.bind_some, ih _ _ (by omega) (by omega)]
        · rw [HdrHistogram.countsSet, if_neg hlt, Option.bind_none]
      · rfl

theorem applyWords_eq_none_iff {size : ℕ} {word : List UInt8 → Int64} {data : List UInt8}
    {n : ℕ} {h : HdrHistogram} (hdata : n * size ≤ data.length) :
    HdrHistogram.applyWords size word data n 0 h = none ↔ h.counts.length < n := by
  constructor
  · intro hnone
    by_contra hge
    obtain ⟨h', hsome, -⟩ := applyWords_eq size word data n 0 h
      (by omega) (by rwa [Nat.zero_add])
    rw [hnone] at hsome
    cases hsome
  · intro hlt
    exact applyWords_overrun n 0 h (by omega) (by omega)

end HdrHistogramC
