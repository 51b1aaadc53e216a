import HdrHistogramC.Ownership

/-!
# Blocks of the log functions

Encoding and writing free all that they allocate but the text that they hand over. Reading loses a
block for every line that it merges into a histogram, and one where the array of the text cannot
grow.
-/
namespace HdrHistogramC.Owned
open Blocks BoundedLoop EntryParse

section Write
variable (z : Zlib)

/-- The bytes are in the block. -/
def hdrEncodeCompressed (h : HdrHistogram) : Alloc (Option (Except Int32 (List UInt8 × ℕ))) :=
  let countsLimit := h.encodedCountsLimit
  let encodedLen := SIZEOF_ENCODING_FLYWEIGHT_V1.toUInt64 + MAX_BYTES_LEB128.toUInt64 *
    sizeT countsLimit
  match hdrCallocBytes encodedLen.toNat with
  | none => pure (some (.error ENOMEM))
  | some zeros => do
      let some encoded ← malloc | return some (.error ENOMEM)
      match HdrHistogram.writePayload (zeros.length - SIZEOF_ENCODING_FLYWEIGHT_V1) []
          (HdrHistogram.payloadValues 0 (h.counts.take countsLimit.toInt.toNat)) with
      | none => return none
      | some payload =>
          let bytes := (h.encodingFlyweight payload.length).bytes ++ payload
          let some compressed ← malloc | do
            free (some encoded)
            return some (.error ENOMEM)
          match z.compress (z.compressBound bytes.length) bytes with
          | none =>
              free (some encoded)
              free (some compressed)
              return some (.error HDR_DEFLATE_FAIL)
          | some data =>
              free (some encoded)
              return some (.ok (CompressionFlyweight.bytes
                { cookie := V2_COMPRESSION_COOKIE ||| 0x10
                  length := Int32.ofNat data.length } ++ data, compressed))

/-- There is no result where the text is written through a null pointer. -/
def hdrLogWriteEntry (printSeconds : HdrTimespec → List UInt8) (file : List UInt8)
    (entry : HdrLogEntry) (h : HdrHistogram) : Alloc (Option (Int32 × List UInt8)) := do
  match ← hdrEncodeCompressed z h with
  | none => return none
  | some (.error rc) => return some (rc, file)
  | some (.ok (compressed, compressedHistogram)) =>
      let some encodedHistogram ← malloc | return none
      match hdrBase64Encode compressed (hdrBase64EncodedLen compressed.length) with
      | .error rc =>
          free (some compressedHistogram)
          free (some encodedHistogram)
          return some (rc, file)
      | .ok encoded =>
          match entryLine printSeconds entry h.hdrMax encoded with
          | none => return none
          | some line =>
              let (printed, file) := fprintf file line
              free (some compressedHistogram)
              free (some encodedHistogram)
              return some (if printed < 0 then EIO else 0, file)

end Write

/-- A call that hands a block over makes what it makes without blocks, or is refused one. -/
structure Makes {α : Type} (refused : ℕ → Bool) (computed : Option (Except Int32 α))
    (r : Option (Except Int32 (α × ℕ))) (owned : Multiset ℕ) : Prop where
  value : r.map (fun x => x.map Prod.fst) = computed ∨
    (Refusing refused ∧ (r = some (.error ENOMEM) ∨ r = none))
  ok : ∀ a b, r = some (.ok (a, b)) → owned = {b}
  error : ∀ e, r = some (.error e) → owned = 0

section WriteSpecs
variable {refused : ℕ → Bool} {α : Type} (z : Zlib) (h : HdrHistogram)

theorem makes_error {computed : Option (Except Int32 α)} {e : Int32}
    (hvalue : computed = some (.error e) ∨ (Refusing refused ∧ e = ENOMEM)) :
    Makes refused computed (some (.error e)) 0 where
  value := hvalue.imp (fun hc => hc.symm) fun ⟨hr, he⟩ => ⟨hr, .inl (by rw [he])⟩
  ok a b hab := by cases hab
  error _ _ := rfl

theorem makes_none {computed : Option (Except Int32 α)} {owned : Multiset ℕ}
    (hvalue : computed = none ∨ Refusing refused) : Makes refused computed none owned where
  value := hvalue.imp (fun hc => hc.symm) fun hr => ⟨hr, .inr rfl⟩
  ok a b hab := by cases hab
  error e he := by cases he

theorem makes_ok {a : α} {b : ℕ} : Makes refused (some (.ok a)) (some (.ok (a, b))) {b} where
  value := .inl rfl
  ok a' b' hab := by
    cases hab
    rfl
  error e he := by cases he

theorem malloc_spec (more : Multiset ℕ) : Triple refused more malloc fun r o =>
    (r = none ∧ o = more ∧ Refusing refused) ∨ ∃ b, r = some b ∧ o = b ::ₘ more := by
  have hmalloc : Triple refused _ _ _ := Triple.malloc.frame more
  rw [zero_add] at hmalloc
  refine hmalloc.conseq ?_
  rintro r o ⟨o', rfl, ⟨rfl, rfl, hr⟩ | ⟨b, rfl, rfl⟩⟩
  · exact .inl ⟨rfl, zero_add more, hr⟩
  · exact .inr ⟨b, rfl, Multiset.singleton_add b more⟩

theorem hdrEncodeCompressed_spec : Triple refused 0 (hdrEncodeCompressed z h)
    (Makes refused (h.hdrEncodeCompressed z)) := by
  rw [hdrEncodeCompressed, HdrHistogram.hdrEncodeCompressed]
  dsimp only
  rcases hdrCallocBytes _ with _ | zeros
  · exact .ret (makes_error (.inl rfl))
  dsimp only
  refine (malloc_spec 0).bind ?_
  rintro r o (⟨rfl, rfl, hr⟩ | ⟨encoded, rfl, rfl⟩)
  · exact .ret (makes_error (.inr ⟨hr, rfl⟩))
  dsimp only
  rcases HdrHistogram.writePayload _ _ _ with _ | payload
  · exact .ret (makes_none (.inl rfl))
  dsimp only
  refine (malloc_spec _).bind ?_
  rintro r o (⟨rfl, rfl, hr⟩ | ⟨compressed, rfl, rfl⟩)
  · refine (Triple.free_some encoded).bind ?_
    rintro - o rfl
    exact .ret (makes_error (.inr ⟨hr, rfl⟩))
  dsimp only
  rw [Multiset.cons_swap]
  rcases z.compress _ _ with _ | data
  · refine (Triple.free_some encoded).bind ?_
    rintro - o rfl
    refine (Triple.free_some compressed).bind ?_
    rintro - o rfl
    exact .ret (makes_error (.inl rfl))
  · refine (Triple.free_some encoded).bind ?_
    rintro - o rfl
    exact .ret makes_ok

theorem hdrLogWriteEntry_spec (printSeconds : HdrTimespec → List UInt8) (file : List UInt8)
    (entry : HdrLogEntry) : Does 0 (hdrLogWriteEntry z printSeconds file entry h)
      fun refused r o => (r ≠ none → o = 0) ∧
        (r = HdrHistogramC.hdrLogWriteEntry z printSeconds file entry h ∨
          (Refusing refused ∧ (r = some (ENOMEM, file) ∨ r = none))) := by
  refine Triple.does fun refused => ?_
  rw [hdrLogWriteEntry, HdrHistogramC.hdrLogWriteEntry]
  refine (hdrEncodeCompressed_spec z h).bind ?_
  rintro (_ | e | ⟨compressed, b⟩) o M
  · refine .ret ⟨fun hne => absurd rfl hne, M.value.imp (fun hc => ?_) fun hr => ⟨hr.1, .inr rfl⟩⟩
    rw [← hc]
    rfl
  · obtain rfl := M.error e rfl
    refine .ret ⟨fun _ => rfl, M.value.imp (fun hc => ?_) fun hr => ⟨hr.1, .inl ?_⟩⟩
    · rw [← hc]
      rfl
    · rcases hr.2 with he | he <;> cases he
      rfl
  · obtain rfl := M.ok compressed b rfl
    have hcomputed : h.hdrEncodeCompressed z = some (.ok compressed) := by
      rcases M.value with hc | ⟨-, hc | hc⟩
      · exact hc.symm
      · cases hc
      · cases hc
    rw [hcomputed]
    dsimp only
    refine (malloc_spec _).bind ?_
    rintro r o (⟨rfl, rfl, hr⟩ | ⟨text, rfl, rfl⟩)
    · exact .ret ⟨fun hne => absurd rfl hne, .inr ⟨hr, .inr rfl⟩⟩
    have hswap : text ::ₘ {b} = b ::ₘ ({text} : Multiset ℕ) := Multiset.pair_comm text b
    have hfree : ∀ x : Int32 × List UInt8, Triple refused (text ::ₘ {b})
        (free (some b) >>= fun _ => free (some text) >>= fun _ => pure (some x))
          fun r o => r = some x ∧ o = 0 := by
      intro x
      rw [hswap]
      refine (Triple.free_some b).bind ?_
      rintro - o rfl
      refine (Triple.free_some text).bind ?_
      rintro - o rfl
      exact .ret ⟨rfl, rfl⟩
    dsimp only
    rcases hdrBase64Encode compressed (hdrBase64EncodedLen compressed.length) with e | encoded
    · exact (hfree (e, file)).conseq fun r o hr => ⟨fun _ => hr.2, .inl hr.1⟩
    · dsimp only
      cases entryLine printSeconds entry h.hdrMax encoded with
      | none => exact .ret ⟨fun hne => absurd rfl hne, .inl rfl⟩
      | some line => exact (hfree _).conseq fun r o hr => ⟨fun _ => hr.2, .inl hr.1⟩

end WriteSpecs

/-- The old block is freed if there is a new one. -/
def realloc (block : Option ℕ) : Alloc (Option ℕ) := do
  let some b ← malloc | return none
  free block
  return some b

/-- The next round stores a character of the text. -/
def storing (s : EntryParse) : Bool :=
  match s.state, s.file with
  | .histogram, c :: _ => c ≠ '\r'.toUInt8 ∧ c ≠ '\n'.toUInt8
  | _, _ => false

/-- The loop, with the array of the text. There is no result where a character is stored through a
null pointer. -/
def readLoop : ℕ → EntryParse → Option ℕ →
    Alloc (Option ((Option Int32 × EntryParse) × Option ℕ))
  | 0, _, _ => pure none
  | n + 1, s, base64Histogram =>
      let next (array : Option ℕ) : Alloc (Option ((Option Int32 × EntryParse) × Option ℕ)) :=
        match body s with
        | none => pure none
        | some (.again t) => readLoop n t array
        | some (.leave b) => pure (some (b, array))
      if storing s ∧ s.base64Histogram.length = s.capacity then do
        match ← realloc base64Histogram with
        | none => return some ((some (-ENOMEM), { s with file := s.file.tail }), none)
        | some array => next (some array)
      else if storing s ∧ base64Histogram = none then pure none
      else next base64Histogram

/-- The result, the rest of the file, and what the pointers lead to. -/
structure EntryResult where
  result : Int32
  file : List UInt8
  entry : HdrLogEntry
  histogram : Option Histogram

def EntryResult.values (r : EntryResult) : HdrHistogramC.EntryResult :=
  ⟨r.result, r.file, r.entry, r.histogram.map Histogram.value⟩

section Read
variable (z : Zlib) (stack : ℕ → UInt8)

def hdrLogDecode (base64Histogram : List UInt8) (histogram : Option Histogram) :
    Alloc (Option (Int32 × Option Histogram)) := do
  let some compressedHistogram ← malloc | return none
  match hdrBase64Decode base64Histogram (hdrBase64DecodedLen base64Histogram.length) with
  | .error r =>
      free (some compressedHistogram)
      return some (r, histogram)
  | .ok compressed =>
      match ← hdrDecodeCompressed z stack compressed histogram with
      | none => return none
      | some r =>
          free (some compressedHistogram)
          return some r

def hdrLogReadEntry (file : List UInt8) (entry : HdrLogEntry) (histogram : Option Histogram) :
    Alloc (Option EntryResult) := do
  let base64Histogram ← malloc
  match ← readLoop (file.length + 2) ⟨.init, file, entry, 0, 1024, []⟩ base64Histogram with
  | none => return none
  | some ((some result, s), base64Histogram) =>
      free base64Histogram
      return some ⟨result, s.file, s.entry, histogram⟩
  | some ((none, s), base64Histogram) =>
      let compressedHistogram ← malloc
      match hdrBase64Decode s.base64Histogram (hdrBase64DecodedLen s.base64Histogram.length) with
      | .error result =>
          free base64Histogram
          free compressedHistogram
          return some ⟨result, s.file, s.entry, histogram⟩
      | .ok compressed =>
          let some compressedHistogram := compressedHistogram | return none
          match ← hdrDecodeCompressed z stack compressed histogram with
          | none => return none
          | some r =>
              free base64Histogram
              free (some compressedHistogram)
              return some ⟨r.1, s.file, s.entry, r.2⟩

end Read

section ReadSpecs
variable {refused : ℕ → Bool}

theorem malloc_block (more : Multiset ℕ) : Triple refused more malloc fun r o =>
    o = block r + more ∧ (r = none → Refusing refused) := by
  refine (malloc_spec more).conseq ?_
  rintro r o (⟨rfl, rfl, hr⟩ | ⟨b, rfl, rfl⟩)
  · exact ⟨(zero_add _).symm, fun _ => hr⟩
  · exact ⟨rfl, fun h => by cases h⟩

theorem hdrBase64Decode_error {input : List UInt8} {outputLen : ℕ} {e : Int32}
    (h : hdrBase64Decode input outputLen = .error e) : e = -EINVAL := by
  rw [hdrBase64Decode] at h
  split_ifs at h
  cases h
  rfl

theorem realloc_spec (array : Option ℕ) (more : Multiset ℕ) :
    Triple refused (block array + more) (realloc array) fun r o =>
      (r = none ∧ o = block array + more ∧ Refusing refused) ∨
        ∃ b, r = some b ∧ o = block (some b) + more := by
  rw [realloc]
  refine (malloc_spec _).bind ?_
  rintro r o (⟨rfl, rfl, hr⟩ | ⟨b, rfl, rfl⟩)
  · exact .ret (.inl ⟨rfl, rfl, hr⟩)
  · have hfree : Triple refused _ _ _ := (free_spec array more).frame {b}
    rw [add_comm (block array + more), Multiset.singleton_add] at hfree
    refine hfree.bind ?_
    rintro - o ⟨o', rfl, rfl⟩
    exact .ret (.inr ⟨b, rfl, add_comm ..⟩)

/-- Only a round that stores a character changes the text or its array. -/
theorem body_quiet {s t : EntryParse} (hstoring : storing s = false)
    (h : body s = some (.again t)) :
    t.base64Histogram = s.base64Histogram ∧ t.capacity = s.capacity := by
  obtain ⟨state, rest, entry, offset, capacity, text⟩ := s
  have hstamp : ∀ timestamp assign next,
      (⟨state, rest, entry, offset, capacity, text⟩ : EntryParse).stepTimestamp timestamp assign
        next = some (.again t) → t.base64Histogram = text ∧ t.capacity = capacity := by
    intro timestamp assign next hstep
    rw [stepTimestamp] at hstep
    rcases hread : readAheadTimestamp rest timestamp ','.toUInt8 with _ | ⟨ok, ts, rest'⟩
    · rw [hread] at hstep
      cases hstep
    · rw [hread] at hstep
      cases ok <;> cases hstep
      exact ⟨rfl, rfl⟩
  cases state with
  | init =>
      cases rest with
      | nil => cases h
      | cons c rest =>
          simp only [body, fgetc] at h
          split_ifs at h
          · rcases hread : readAhead rest (ascii "ag=") with ⟨ok, rest'⟩
            rw [hread] at h
            cases ok <;> cases h
            exact ⟨rfl, rfl⟩
          all_goals
            cases h
            try exact ⟨rfl, rfl⟩
  | tag =>
      cases rest with
      | nil => cases h
      | cons c rest =>
          simp only [body, fgetc] at h
          split_ifs at h
          · obtain ⟨e, -, he⟩ := Option.map_eq_some_iff.mp h
            cases he
            exact ⟨rfl, rfl⟩
          · cases h
          all_goals
            obtain ⟨e, -, he⟩ := Option.map_eq_some_iff.mp h
            cases he
            exact ⟨rfl, rfl⟩
  | beginTimestamp => exact hstamp _ _ _ h
  | interval => exact hstamp _ _ _ h
  | max => exact hstamp _ _ _ h
  | histogram =>
      cases rest with
      | nil => cases h
      | cons c rest =>
          have hend : ¬ (c ≠ '\r'.toUInt8 ∧ c ≠ '\n'.toUInt8) := by simpa [storing] using hstoring
          simp only [body, fgetc, if_neg hend] at h
          cases h

/-- The loop is the loop without blocks, or is refused a block: then it loses the array that it
could not grow. -/
theorem readLoop_spec (more : Multiset ℕ) : ∀ n s array,
    (array = none → s.base64Histogram = [] ∧ 0 < s.capacity ∧ Refusing refused) →
      Triple refused (block array + more) (readLoop n s array) fun r o =>
        (r = none ∧ (run body n s = none ∨ Refusing refused)) ∨
        (∃ b array', r = some (b, array') ∧ run body n s = some b ∧ o = block array' + more) ∨
        ∃ t lost, r = some ((some (-ENOMEM), t), none) ∧ Refusing refused ∧ lost.card = 1 ∧
          o = lost + more := by
  intro n
  induction n with
  | zero => exact fun s array _ => .ret (.inl ⟨rfl, .inl rfl⟩)
  | succ n ih =>
      intro s array hnull
      have hnext : ∀ array, (∀ t, body s = some (.again t) → array = none →
          t.base64Histogram = [] ∧ 0 < t.capacity ∧ Refusing refused) →
          Triple refused (block array + more)
            (match body s with
              | none => pure none
              | some (.again t) => readLoop n t array
              | some (.leave b) => pure (some (b, array))) fun r o =>
            (r = none ∧ (run body (n + 1) s = none ∨ Refusing refused)) ∨
            (∃ b array', r = some (b, array') ∧ run body (n + 1) s = some b ∧
              o = block array' + more) ∨
            ∃ t lost, r = some ((some (-ENOMEM), t), none) ∧ Refusing refused ∧ lost.card = 1 ∧
              o = lost + more := by
        intro array hagain
        rcases hbody : body s with _ | ⟨t | b⟩
        · exact .ret (.inl ⟨rfl, .inl (by simp only [run, hbody])⟩)
        · rw [run_again hbody]
          exact ih t array (hagain t hbody)
        · exact .ret (.inr (.inl ⟨b, array, rfl, run_leave hbody, rfl⟩))
      rw [readLoop]
      dsimp only
      split_ifs with hfull hlost
      · refine (realloc_spec array more).bind ?_
        rintro r o (⟨rfl, rfl, hr⟩ | ⟨b, rfl, rfl⟩)
        · cases array with
          | none =>
              obtain ⟨htext, hpos, -⟩ := hnull rfl
              have hlength := hfull.2
              rw [htext, List.length_nil] at hlength
              omega
          | some b => exact .ret (.inr (.inr ⟨_, {b}, rfl, hr, rfl, rfl⟩))
        · exact hnext (some b) fun t _ h => by cases h
      · exact .ret (.inl ⟨rfl, .inr (hnull hlost.2).2.2⟩)
      · refine hnext array fun t ht hnone => ?_
        have hstoring : storing s = false := by
          by_contra hs
          exact hlost ⟨by simpa using hs, hnone⟩
        obtain ⟨htext, hpos, hr⟩ := hnull hnone
        obtain ⟨hsame, hcapacity⟩ := body_quiet hstoring ht
        exact ⟨hsame.trans htext, by rw [hcapacity]; exact hpos, hr⟩

/-- A call reads what it reads without blocks, or is refused a block and fails, and it keeps the
blocks of the histogram. It loses one where it merges the line, and one where the array of the text
could not grow. -/
structure ReadOutcome (refused : ℕ → Bool) (computed : Option HdrHistogramC.EntryResult)
    (histogram : Option Histogram) (r : Option EntryResult) (owned : Multiset ℕ) : Prop where
  value : r.map EntryResult.values = computed ∨ (Refusing refused ∧ ∀ e, r = some e →
    e.histogram = histogram ∧ (e.result = ENOMEM ∨ e.result = -ENOMEM))
  blocks : ∀ e, r = some e → ∃ lost, owned = Owned.blocks e.histogram + lost ∧
    lost.card = if (e.result = 0 ∧ histogram ≠ none) ∨ e.result = -ENOMEM then 1 else 0
  grown : ∀ e, r = some e → e.result = -ENOMEM → Refusing refused

theorem readOutcome_none {computed : Option HdrHistogramC.EntryResult} {owned : Multiset ℕ}
    {histogram : Option Histogram} (h : computed = none ∨ Refusing refused) :
    ReadOutcome refused computed histogram none owned where
  value := h.imp (fun hc => hc.symm) fun hr => ⟨hr, fun e he => by cases he⟩
  blocks e he := by cases he
  grown e he := by cases he

theorem readOutcome_failed {computed : Option HdrHistogramC.EntryResult} {e : EntryResult}
    (hvalue : some e.values = computed) (hzero : e.result ≠ 0) (hcode : e.result ≠ -ENOMEM) :
    ReadOutcome refused computed e.histogram (some e) (blocks e.histogram) where
  value := .inl hvalue
  blocks e' he := by
    cases he
    exact ⟨0, (add_zero _).symm, by rw [if_neg fun h => h.elim (fun h => hzero h.1) hcode]; rfl⟩
  grown e' he h := by
    cases he
    exact absurd h hcode

theorem decoder_code {z : Zlib} {stack : ℕ → UInt8} {buffer : List UInt8} {result : Int32}
    {histogram g : Option Histogram} {owned : Multiset ℕ}
    (D : Decoder.Outcome refused (HdrHistogramC.hdrDecodeCompressed z stack buffer
      (histogram.map Histogram.value)) histogram (some (result, g)) owned) : result ≠ -ENOMEM := by
  rcases D.value with hv | ⟨-, hv⟩
  · rcases hdrDecodeCompressed_decodes hv.symm with ⟨h0, -⟩ | ⟨hmem, -⟩
    · exact fun hn => absurd (h0.symm.trans hn) (by decide)
    · exact fun hn => absurd (hn ▸ hmem : -ENOMEM ∈ decodeErrors) (by decide)
  · cases hv
    decide

theorem readOutcome_decoded {z : Zlib} {stack : ℕ → UInt8} {file compressed : List UInt8}
    {entry : HdrLogEntry} {histogram g : Option Histogram} {s : EntryParse} {result : Int32}
    {owned : Multiset ℕ}
    (hrun : run body (file.length + 2) ⟨.init, file, entry, 0, 1024, []⟩ = some (none, s))
    (hbase : hdrBase64Decode s.base64Histogram (hdrBase64DecodedLen s.base64Histogram.length) =
      .ok compressed)
    (D : Decoder.Outcome refused (HdrHistogramC.hdrDecodeCompressed z stack compressed
      (histogram.map Histogram.value)) histogram (some (result, g)) owned) :
    ReadOutcome refused (HdrHistogramC.hdrLogReadEntry z stack file entry
      (histogram.map Histogram.value)) histogram (some ⟨result, s.file, s.entry, g⟩) owned where
  value := by
    refine D.value.imp (fun hv => ?_) fun ⟨hr, he⟩ => ⟨hr, fun e heq => ?_⟩
    · simp only [HdrHistogramC.hdrLogReadEntry, hrun, hbase]
      rw [← hv]
      rfl
    · cases he
      cases heq
      exact ⟨rfl, .inl rfl⟩
  blocks e he := by
    cases he
    obtain ⟨lost, hlost, hcard⟩ := D.blocks result g rfl
    refine ⟨lost, hlost, ?_⟩
    rw [hcard]
    simp only [decoder_code D, or_false]
  grown e he h := by
    cases he
    exact absurd h (decoder_code D)

variable (z : Zlib) (stack : ℕ → UInt8)

theorem hdrLogReadEntry_spec (file : List UInt8) (entry : HdrLogEntry)
    (histogram : Option Histogram) :
    Triple refused (blocks histogram) (hdrLogReadEntry z stack file entry histogram)
      (ReadOutcome refused (HdrHistogramC.hdrLogReadEntry z stack file entry
        (histogram.map Histogram.value)) histogram) := by
  rw [hdrLogReadEntry]
  refine (malloc_block _).bind ?_
  rintro array o ⟨rfl, hrefused⟩
  refine (readLoop_spec _ _ _ array
    fun hnull => ⟨rfl, show 0 < 1024 by decide, hrefused hnull⟩).bind ?_
  rintro r o (⟨rfl, hnone⟩ | ⟨⟨result, s⟩, array', rfl, hrun, rfl⟩ | ⟨t, lost, rfl, hr, hlost, rfl⟩)
  · refine .ret (readOutcome_none (hnone.imp_left fun hrun => ?_))
    simp only [HdrHistogramC.hdrLogReadEntry, hrun]
  · cases result with
    | some result =>
        refine (free_spec array' _).bind ?_
        rintro - o rfl
        obtain ⟨-, hcode⟩ := run_body_outcome entry hrun
        have hne : result ≠ 0 ∧ result ≠ -ENOMEM := by
          rcases hcode with ⟨rfl, -⟩ | ⟨rfl, -⟩ <;> decide
        refine .ret (readOutcome_failed (e := ⟨result, s.file, s.entry, histogram⟩) ?_ hne.1 hne.2)
        simp only [HdrHistogramC.hdrLogReadEntry, hrun]
        rfl
    | none =>
        refine (malloc_block _).bind ?_
        rintro compressedHistogram o ⟨rfl, hrefused'⟩
        rcases hbase : hdrBase64Decode s.base64Histogram
            (hdrBase64DecodedLen s.base64Histogram.length) with e | compressed
        · have hswap : block compressedHistogram + (block array' + blocks histogram) =
              block array' + (block compressedHistogram + blocks histogram) := by abel
          rw [hswap]
          refine (free_spec array' _).bind ?_
          rintro - o rfl
          refine (free_spec compressedHistogram _).bind ?_
          rintro - o rfl
          obtain rfl := hdrBase64Decode_error hbase
          refine .ret (readOutcome_failed (e := ⟨-EINVAL, s.file, s.entry, histogram⟩) ?_
            (show -EINVAL ≠ 0 by decide) (show -EINVAL ≠ -ENOMEM by decide))
          simp only [HdrHistogramC.hdrLogReadEntry, hrun, hbase]
          rfl
        · cases compressedHistogram with
          | none => exact .ret (readOutcome_none (.inr (hrefused' rfl)))
          | some b =>
              have hdecode : Triple refused _ _ _ :=
                (hdrDecodeCompressed_spec z stack compressed histogram).frame
                  (block array' + block (some b))
              have howned : block (some b) + (block array' + blocks histogram) =
                  blocks histogram + (block array' + block (some b)) := by abel
              rw [howned]
              refine hdecode.bind ?_
              rintro r o ⟨o', rfl, D⟩
              rcases r with _ | ⟨result, g⟩
              · refine .ret (readOutcome_none (D.value.imp (fun hv => ?_) And.left))
                simp only [HdrHistogramC.hdrLogReadEntry, hrun, hbase]
                rw [← hv]
                rfl
              · have howned' : o' + (block array' + block (some b)) =
                    block array' + (block (some b) + o') := by abel
                rw [howned']
                refine (free_spec array' _).bind ?_
                rintro - o rfl
                refine (free_spec (some b) _).bind ?_
                rintro - o rfl
                exact .ret (readOutcome_decoded hrun hbase D)
  · rw [add_comm]
    refine .ret ⟨.inr ⟨hr, fun e he => ?_⟩, fun e he => ?_, fun _ _ _ => hr⟩
    · cases he
      exact ⟨rfl, .inr rfl⟩
    · cases he
      exact ⟨lost, rfl, by rw [hlost, if_pos (.inr rfl)]⟩

/-- A text is decoded as it is without blocks, or a block is refused. A histogram that is merged
into another one leaves a block behind. -/
theorem hdrLogDecode_spec (text : List UInt8) (histogram : Option Histogram) :
    Does (blocks histogram) (hdrLogDecode z stack text histogram) fun refused r o =>
      (r.map Decoder.values =
          HdrHistogramC.hdrLogDecode z stack text (histogram.map Histogram.value) ∨
        (Refusing refused ∧ (r = some (ENOMEM, histogram) ∨ r = none))) ∧
      ∀ result g, r = some (result, g) → ∃ lost, o = blocks g + lost ∧
        lost.card = if result = 0 ∧ histogram ≠ none then 1 else 0 := by
  refine Triple.does fun refused => ?_
  rw [hdrLogDecode, HdrHistogramC.hdrLogDecode]
  refine (malloc_spec (blocks histogram)).bind ?_
  rintro r o (⟨rfl, rfl, hr⟩ | ⟨b, rfl, rfl⟩)
  · exact .ret ⟨.inr ⟨hr, .inr rfl⟩, fun result g h => by cases h⟩
  dsimp only
  cases hbase : hdrBase64Decode text (hdrBase64DecodedLen text.length) with
  | error e =>
      obtain rfl := hdrBase64Decode_error hbase
      refine (Triple.free_some b).bind ?_
      rintro - o rfl
      refine .ret ⟨.inl rfl, fun result g h => ?_⟩
      cases h
      exact ⟨0, (add_zero _).symm, by rw [if_neg fun h => absurd h.1 (by decide)]; rfl⟩
  | ok compressed =>
      have hdecode : Triple refused _ _ _ :=
        (hdrDecodeCompressed_spec z stack compressed histogram).frame {b}
      rw [← Multiset.singleton_add, add_comm]
      refine hdecode.bind ?_
      rintro r o ⟨o', rfl, D⟩
      cases r with
      | none =>
          exact .ret ⟨D.value.imp_right fun hr => ⟨hr.1, .inr rfl⟩, fun result g h => by cases h⟩
      | some r =>
          rw [add_comm, Multiset.singleton_add]
          refine (Triple.free_some b).bind ?_
          rintro - o rfl
          exact .ret ⟨D.value.imp_right fun hr => ⟨hr.1, .inl hr.2⟩, D.blocks⟩

end ReadSpecs

end HdrHistogramC.Owned
