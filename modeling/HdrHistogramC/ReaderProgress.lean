import HdrHistogramC.LogFiles

/-!
# Reading any file

What the reader takes from a file that need not be a log. Every call takes a part of the file, or
finds nothing but line ends up to the end of the file, so a program that reads until then comes to
an end.
-/
namespace HdrHistogramC
open BoundedLoop EntryParse Decimal

/-- Line ends, which the reader skips. -/
def Blank (cs : List UInt8) : Prop := ∀ c ∈ cs, '\r'.toUInt8 = c ∨ '\n'.toUInt8 = c

section Parts
variable {file rest : List UInt8}

theorem fgetc_suffix (file : List UInt8) : (fgetc file).2 <:+ file := by
  cases file with
  | nil => exact List.suffix_rfl
  | cons c file => exact List.suffix_cons c file

theorem readAhead_suffix (ps : List UInt8) : ∀ file, (readAhead file ps).2 <:+ file := by
  induction ps with
  | nil => exact fun file => List.suffix_rfl
  | cons p ps ih =>
      intro file
      have hone := fgetc_suffix file
      rw [readAhead]
      dsimp only
      split_ifs
      · exact (ih _).trans hone
      · exact hone

theorem timestampLoop_suffix {t : UInt8} {ts ts' : HdrTimespec} {b ok : Bool}
    {sec nsec mult : Int64}
    (h : timestampLoop t ts b sec nsec mult file = some (ok, ts', rest)) :
    rest <:+ file ∧ (file ≠ [] → rest.length < file.length) := by
  induction file generalizing b sec nsec mult with
  | nil =>
      cases h
      exact ⟨List.suffix_rfl, fun hne => absurd rfl hne⟩
  | cons c file ih =>
      have hone : rest <:+ file → rest <:+ c :: file ∧ (c :: file ≠ [] →
          rest.length < (c :: file).length) := fun hs =>
        ⟨hs.trans (List.suffix_cons c file), fun _ => by
          have := hs.length_le
          rw [List.length_cons]
          omega⟩
      rw [timestampLoop] at h
      split_ifs at h
      · obtain ⟨n, -, he⟩ := Option.map_eq_some_iff.mp h
        cases he
        exact hone List.suffix_rfl
      · exact hone (ih h).1
      · obtain ⟨n, -, he⟩ := Option.bind_eq_some_iff.mp h
        exact hone (ih he).1
      · obtain ⟨n, -, he⟩ := Option.bind_eq_some_iff.mp h
        exact hone (ih he).1
      · cases h
        exact hone List.suffix_rfl

end Parts

/-- How far the loop has come in the file. -/
structure Reading (file : List UInt8) (s : EntryParse) : Prop where
  suffix : s.file <:+ file
  begun : s.state = .init ∨ s.file.length < file.length ∨
    s.state = .beginTimestamp ∧ s.file ≠ []
  blank : s.state = .init → ∃ pre, file = pre ++ s.file ∧ Blank pre

/-- How the loop ends. -/
def Outcome (file : List UInt8) : Option Int32 × EntryParse → Prop
  | (some result, s) => s.file <:+ file ∧
      ((result = EOF ∧ s.file = [] ∧ Blank file) ∨
        (result = -EINVAL ∧ s.file.length < file.length))
  | (none, s) => s.file <:+ file ∧ s.file.length < file.length

/-- What is left to do: a digit is put back once. -/
def EntryParse.left (s : EntryParse) : ℕ := s.file.length + if s.state = .init then 1 else 0

section Loop
variable {file : List UInt8} {s : EntryParse}

theorem Reading.short {rest : List UInt8} (R : Reading file s) (hinit : s.state ≠ .init)
    (hs : rest <:+ s.file) (hlt : s.file ≠ [] → rest.length < s.file.length) :
    rest.length < file.length := by
  have hle := hs.length_le
  have hle' := R.suffix.length_le
  rcases R.begun with hb | hb | ⟨-, hne⟩
  · exact absurd hb hinit
  · omega
  · have := hlt hne
    omega

theorem Reading.later (R : Reading file s) (hinit : s.state ≠ .init)
    (hbegin : s.state ≠ .beginTimestamp) : s.file.length < file.length := by
  rcases R.begun with hb | hb | ⟨hb, -⟩
  · exact absurd hb hinit
  · exact hb
  · exact absurd hb hbegin

theorem reading_of_short {t : EntryParse} (hs : t.file <:+ file)
    (hlt : t.file.length < file.length) (hinit : t.state ≠ .init) : Reading file t :=
  ⟨hs, .inr (.inl hlt), fun h => absurd h hinit⟩

theorem stepTimestamp_progress (R : Reading file s) {timestamp : HdrTimespec}
    {assign : HdrTimespec → HdrLogEntry} {next : ParseLogState} (hinit : s.state ≠ .init)
    (hnext : next ≠ .init) {r : Round EntryParse (Option Int32 × EntryParse)}
    (h : s.stepTimestamp timestamp assign next = some r) :
    r.Holds (fun t => Reading file t ∧ t.left < s.left) (Outcome file) := by
  rw [stepTimestamp] at h
  rcases hread : readAheadTimestamp s.file timestamp ','.toUInt8 with _ | ⟨ok, ts, rest⟩
  · rw [hread] at h
    cases h
  · obtain ⟨hs, hlt⟩ := timestampLoop_suffix hread
    have hshort := R.short hinit hs hlt
    rw [hread] at h
    cases ok with
    | false =>
        cases h
        exact ⟨hs.trans R.suffix, .inr ⟨rfl, hshort⟩⟩
    | true =>
        cases h
        have hne : s.file ≠ [] := by
          intro he
          rw [he] at hread
          cases hread
        refine ⟨reading_of_short (hs.trans R.suffix) hshort hnext, ?_⟩
        rw [EntryParse.left, EntryParse.left, if_neg hinit, if_neg hnext]
        exact hlt hne

theorem init_progress (R : Reading file s) (hstate : s.state = .init)
    {r : Round EntryParse (Option Int32 × EntryParse)} (h : body s = some r) :
    r.Holds (fun t => Reading file t ∧ t.left < s.left) (Outcome file) := by
  have hle := R.suffix.length_le
  obtain ⟨state, rest, entry, offset, capacity, text⟩ := s
  obtain rfl : state = .init := hstate
  dsimp only at hle
  obtain ⟨pre, hpre, hblank⟩ := R.blank rfl
  cases rest with
  | nil =>
      cases h
      rw [List.append_nil] at hpre
      exact ⟨R.suffix, .inl ⟨rfl, rfl, hpre ▸ hblank⟩⟩
  | cons c rest =>
      have hsuffix := (List.suffix_cons c rest).trans R.suffix
      rw [List.length_cons] at hle
      simp only [body, fgetc] at h
      split_ifs at h with hT hdigit hend
      · have hahead := readAhead_suffix (ascii "ag=") rest
        rcases hread : readAhead rest (ascii "ag=") with ⟨ok, rest'⟩
        rw [hread] at h hahead
        have hlen := hahead.length_le
        dsimp only at hlen
        have hlt : rest'.length < file.length := by omega
        cases ok with
        | true =>
            cases h
            refine ⟨reading_of_short (hahead.trans hsuffix) hlt (by simp), ?_⟩
            simp only [EntryParse.left, List.length_cons, reduceCtorEq, if_false, if_true]
            omega
        | false =>
            cases h
            exact ⟨hahead.trans hsuffix, .inr ⟨rfl, hlt⟩⟩
      · cases h
        refine ⟨⟨R.suffix, .inr (.inr ⟨rfl, List.cons_ne_nil c rest⟩), fun hs => by cases hs⟩,
          ?_⟩
        simp only [EntryParse.left, List.length_cons, reduceCtorEq, if_false, if_true]
        omega
      · cases h
        refine ⟨⟨hsuffix, .inl rfl, fun _ => ⟨pre ++ [c], ?_, ?_⟩⟩, ?_⟩
        · rw [List.append_assoc]
          exact hpre
        · exact List.forall_mem_append.mpr ⟨hblank, List.forall_mem_singleton.mpr hend⟩
        · simp only [EntryParse.left, List.length_cons, if_true]
          omega
      · cases h
        exact ⟨hsuffix, .inr ⟨rfl, hle⟩⟩

theorem tag_progress (R : Reading file s) (hstate : s.state = .tag)
    {r : Round EntryParse (Option Int32 × EntryParse)} (h : body s = some r) :
    r.Holds (fun t => Reading file t ∧ t.left < s.left) (Outcome file) := by
  have hle := R.suffix.length_le
  obtain ⟨state, rest, entry, offset, capacity, text⟩ := s
  obtain rfl : state = .tag := hstate
  dsimp only at hle
  have hshort := R.later (by simp) (by simp)
  cases rest with
  | nil =>
      cases h
      exact ⟨R.suffix, .inr ⟨rfl, hshort⟩⟩
  | cons c rest =>
      have hsuffix := (List.suffix_cons c rest).trans R.suffix
      rw [List.length_cons] at hle
      simp only [body, fgetc] at h
      split_ifs at h with hcomma hend
      · obtain ⟨e, -, he⟩ := Option.map_eq_some_iff.mp h
        cases he
        exact ⟨reading_of_short hsuffix hle (by simp), by simp [EntryParse.left]⟩
      · cases h
        exact ⟨hsuffix, .inr ⟨rfl, hle⟩⟩
      all_goals
        obtain ⟨e, -, he⟩ := Option.map_eq_some_iff.mp h
        cases he
        exact ⟨reading_of_short hsuffix hle (by simp), by simp [EntryParse.left]⟩

theorem histogram_progress (R : Reading file s) (hstate : s.state = .histogram)
    {r : Round EntryParse (Option Int32 × EntryParse)} (h : body s = some r) :
    r.Holds (fun t => Reading file t ∧ t.left < s.left) (Outcome file) := by
  have hle := R.suffix.length_le
  obtain ⟨state, rest, entry, offset, capacity, text⟩ := s
  obtain rfl : state = .histogram := hstate
  dsimp only at hle
  have hshort := R.later (by simp) (by simp)
  cases rest with
  | nil =>
      cases h
      exact ⟨R.suffix, hshort⟩
  | cons c rest =>
      have hsuffix := (List.suffix_cons c rest).trans R.suffix
      rw [List.length_cons] at hle
      simp only [body, fgetc] at h
      split_ifs at h with hchar
      · obtain ⟨t, hput, he⟩ := Option.map_eq_some_iff.mp h
        cases he
        simp only [putHistogram] at hput
        split_ifs at hput
        all_goals
          cases hput
          exact ⟨reading_of_short hsuffix hle (by simp), by simp [EntryParse.left]⟩
      · cases h
        exact ⟨hsuffix, hle⟩

theorem body_progress (R : Reading file s) {r : Round EntryParse (Option Int32 × EntryParse)}
    (h : body s = some r) :
    r.Holds (fun t => Reading file t ∧ t.left < s.left) (Outcome file) := by
  cases hstate : s.state with
  | init => exact init_progress R hstate h
  | tag => exact tag_progress R hstate h
  | beginTimestamp | interval | max =>
      have hinit : s.state ≠ .init := by
        rw [hstate]
        simp
      rw [body, hstate] at h
      exact stepTimestamp_progress R hinit (by simp) h
  | histogram => exact histogram_progress R hstate h

end Loop

/-- What the decoders return when they fail. -/
def decodeErrors : List Int32 :=
  [EINVAL, ENOMEM, HDR_COMPRESSION_COOKIE_MISMATCH, HDR_ENCODING_COOKIE_MISMATCH,
    HDR_INFLATE_FAIL, HDR_TRAILING_ZEROS_INVALID, HDR_VALUE_TRUNCATED, HDR_ENCODED_INPUT_TOO_LONG,
    HDR_INVALID_WORD_SIZE]

section Codes
variable {z : Zlib} {stack : ℕ → UInt8} {buffer : List UInt8} {e rc : Int32}

theorem hdrInit_error {lowest highest : Int64} {figures : Int32}
    (h : hdrInit lowest highest figures = some (.error e)) : e ∈ decodeErrors := by
  unfold hdrInit at h
  split at h
  · cases h
  next rc hcfg =>
    cases h
    by_cases ha : Acceptable lowest highest figures
    · obtain ⟨cfg, -, -, haccept, -⟩ := hdrCalculateBucketConfig_accept ha
      rw [haccept] at hcfg
      cases hcfg
    · rw [hdrCalculateBucketConfig_reject ha] at hcfg
      cases hcfg
      decide
  next cfg hcfg =>
    split at h
    · cases h
      decide
    · cases h

theorem inflateHeader_error {n : ℕ} (h : inflateHeader z stack buffer n = .error e) :
    e ∈ decodeErrors := by
  unfold inflateHeader at h
  split at h
  · cases h
    decide
  · dsimp only at h
    split_ifs at h
    · cases h
      decide
    · split at h
      · cases h
      · cases h
        decide

theorem openFlyweightV1_error {cookie : UInt32}
    (h : openFlyweightV1 z stack buffer cookie = .error e) : e ∈ decodeErrors := by
  unfold openFlyweightV1 at h
  split at h
  next r hopen =>
    cases h
    exact inflateHeader_error hopen
  · dsimp only at h
    split_ifs at h
    cases h
    decide

theorem openFlyweightV0_error (h : openFlyweightV0 z stack buffer = .error e) :
    e ∈ decodeErrors := by
  unfold openFlyweightV0 at h
  split at h
  next r hopen =>
    cases h
    exact inflateHeader_error hopen
  · dsimp only at h
    split_ifs at h
    cases h
    decide

theorem inflateCounts_error {strm : z.Stream} {size : UInt64} {room : UInt32}
    (h : inflateCounts z strm size room = some (.error e)) : e ∈ decodeErrors := by
  unfold inflateCounts at h
  split at h
  · cases h
    decide
  · split_ifs at h
    split at h
    · cases h
    · cases h
      decide

theorem zzBody_error {data : List UInt8} {limit : Int32} {s : HdrHistogram × ℕ × ℕ}
    {r : Round (HdrHistogram × ℕ × ℕ) (Int32 × HdrHistogram)}
    (h : HdrHistogram.zzBody data limit s = some r) :
    r.Holds (fun _ => True) fun b => b.1 = 0 ∨ b.1 ∈ decodeErrors := by
  obtain ⟨k, d, i⟩ := s
  simp only [HdrHistogram.zzBody] at h
  split_ifs at h
  · split at h
    · cases h
    · split_ifs at h
      · cases h
        exact .inr (show HDR_TRAILING_ZEROS_INVALID ∈ decodeErrors by decide)
      · cases h
        trivial
      · obtain ⟨k', -, he⟩ := Option.map_eq_some_iff.mp h
        cases he
        trivial
  · cases h
    exact .inr (show HDR_VALUE_TRUNCATED ∈ decodeErrors by decide)
  · cases h
    exact .inr (show HDR_ENCODED_INPUT_TOO_LONG ∈ decodeErrors by decide)
  · cases h
    exact .inl rfl

theorem applyToCountsZz_error {h h' : HdrHistogram} {data : List UInt8} {limit : Int32}
    (hz : h.applyToCountsZz data limit = some (rc, h')) : rc = 0 ∨ rc ∈ decodeErrors :=
  run_sound (Q := fun b : Int32 × HdrHistogram => b.1 = 0 ∨ b.1 ∈ decodeErrors)
    (fun _ _ _ hr => zzBody_error hr) _ _ trivial hz

theorem hdrDecodeCompressedV0_error
    (h : hdrDecodeCompressedV0 z stack buffer = some (.error e)) : e ∈ decodeErrors := by
  unfold hdrDecodeCompressedV0 at h
  split at h
  next r hopen =>
    cases h
    exact openFlyweightV0_error hopen
  next fly strm hopen =>
    dsimp only at h
    split at h
    · cases h
    · cases h
      decide
    · split at h
      · cases h
      next r hcounts =>
        cases h
        exact inflateCounts_error hcounts
      · obtain ⟨k, -, he⟩ := Option.map_eq_some_iff.mp h
        cases he

theorem hdrDecodeCompressedV1_error
    (h : hdrDecodeCompressedV1 z stack buffer = some (.error e)) : e ∈ decodeErrors := by
  unfold hdrDecodeCompressedV1 at h
  split at h
  next r hopen =>
    cases h
    exact openFlyweightV1_error hopen
  next fly strm hopen =>
    dsimp only at h
    split_ifs at h
    · cases h
      decide
    · split at h
      · cases h
      · cases h
        decide
      · split at h
        · cases h
        next r hcounts =>
          cases h
          exact inflateCounts_error hcounts
        · obtain ⟨k, -, he⟩ := Option.map_eq_some_iff.mp h
          cases he

theorem hdrDecodeCompressedV2_error
    (h : hdrDecodeCompressedV2 z stack buffer = some (.error e)) : e ∈ decodeErrors := by
  unfold hdrDecodeCompressedV2 at h
  split at h
  next r hopen =>
    cases h
    exact openFlyweightV1_error hopen
  next fly strm hopen =>
    dsimp only at h
    split at h
    · cases h
    next rc hinit =>
      cases h
      exact hdrInit_error hinit
    · split at h
      · cases h
      next r hcounts =>
        cases h
        exact inflateCounts_error hcounts
      · obtain ⟨⟨rc, k⟩, hz, he⟩ := Option.map_eq_some_iff.mp h
        dsimp only at he
        split_ifs at he with hrc
        cases he
        exact (applyToCountsZz_error hz).resolve_left hrc

/-- A decoder that fails leaves the histogram alone; one that succeeds leaves one. -/
def Decodes (g : Option HdrHistogram) (r : Int32 × Option HdrHistogram) : Prop :=
  (r.1 = 0 ∧ r.2 ≠ none) ∨ (r.1 ∈ decodeErrors ∧ r.2 = g)

theorem handOver_decodes {g : Option HdrHistogram} {decoded : Except Int32 HdrHistogram}
    {r : Int32 × Option HdrHistogram} (herror : ∀ e, decoded = .error e → e ∈ decodeErrors)
    (h : handOver g decoded = some r) : Decodes g r := by
  cases decoded with
  | error e =>
      cases h
      exact .inr ⟨herror e rfl, rfl⟩
  | ok k =>
      cases g with
      | none =>
          cases h
          exact .inl ⟨rfl, Option.some_ne_none _⟩
      | some g =>
          obtain ⟨a, -, rfl⟩ := Option.map_eq_some_iff.mp h
          exact .inl ⟨rfl, Option.some_ne_none _⟩

theorem hdrDecodeCompressed_decodes {g : Option HdrHistogram} {r : Int32 × Option HdrHistogram}
    (h : hdrDecodeCompressed z stack buffer g = some r) : Decodes g r := by
  unfold hdrDecodeCompressed at h
  split_ifs at h
  · cases h
    exact .inr ⟨show EINVAL ∈ decodeErrors by decide, rfl⟩
  · dsimp only at h
    split_ifs at h
    · obtain ⟨decoded, hdec, hover⟩ := Option.bind_eq_some_iff.mp h
      exact handOver_decodes (fun e he => hdrDecodeCompressedV0_error (he ▸ hdec)) hover
    · obtain ⟨decoded, hdec, hover⟩ := Option.bind_eq_some_iff.mp h
      exact handOver_decodes (fun e he => hdrDecodeCompressedV1_error (he ▸ hdec)) hover
    · obtain ⟨decoded, hdec, hover⟩ := Option.bind_eq_some_iff.mp h
      exact handOver_decodes (fun e he => hdrDecodeCompressedV2_error (he ▸ hdec)) hover
    · cases h
      exact .inr ⟨show HDR_COMPRESSION_COOKIE_MISMATCH ∈ decodeErrors by decide, rfl⟩

end Codes

section Calls
variable {z : Zlib} {stack : ℕ → UInt8} {file : List UInt8} {entry : HdrLogEntry}
  {g : Option HdrHistogram} {r : EntryResult}

theorem blank_rounds (hblank : Blank file) (entry : HdrLogEntry) (offset capacity : ℕ)
    (text : List UInt8) : Rounds body file.length ⟨.init, file, entry, offset, capacity, text⟩
      ⟨.init, [], entry, offset, capacity, text⟩ := by
  induction file with
  | nil => exact .done _
  | cons c file ih =>
      have hc := hblank c (by simp)
      have hT : 'T'.toUInt8 ≠ c := by
        rcases hc with rfl | rfl <;> decide
      have hdigit : ¬ IsDigit c := by
        rcases hc with rfl | rfl <;> decide
      have hstep : body ⟨.init, c :: file, entry, offset, capacity, text⟩ =
          some (.again ⟨.init, file, entry, offset, capacity, text⟩) := by
        simp only [body, fgetc, if_neg hT, if_neg hdigit, if_pos hc]
      exact .next hstep (ih fun d hd => hblank d (List.mem_cons_of_mem _ hd))

theorem hdrLogReadEntry_blank (hblank : Blank file) (entry : HdrLogEntry)
    (g : Option HdrHistogram) :
    hdrLogReadEntry z stack file entry g = some ⟨EOF, [], entry, g⟩ := by
  have hend : body ⟨.init, [], entry, 0, 1024, []⟩ =
      some (.leave (some EOF, ⟨.init, [], entry, 0, 1024, []⟩)) := rfl
  have hrun := (blank_rounds hblank entry 0 1024 []).run_leave hend
    (show file.length < file.length + 2 by omega)
  simp only [hdrLogReadEntry, hrun]

/-- What a call does to the file and the histogram. -/
structure Progress (file : List UInt8) (g : Option HdrHistogram) (result : Int32)
    (file' : List UInt8) (g' : Option HdrHistogram) : Prop where
  suffix : file' <:+ file
  eof_iff : result = EOF ↔ Blank file
  shorter : ¬ Blank file → file'.length < file.length
  failed : result ≠ 0 → g' = g
  decoded : result = 0 → g' ≠ none
  code : result = 0 ∨ result = EOF ∨ result = -EINVAL ∨ result ∈ decodeErrors

theorem run_body_outcome (entry : HdrLogEntry) {b : Option Int32 × EntryParse}
    (h : run body (file.length + 2) ⟨.init, file, entry, 0, 1024, []⟩ = some b) :
    Outcome file b := by
  have hstart : Reading file ⟨.init, file, entry, 0, 1024, []⟩ :=
    ⟨List.suffix_rfl, .inl rfl, fun _ => ⟨[], rfl, fun c hc => absurd hc List.not_mem_nil⟩⟩
  refine run_sound (I := Reading file) (fun s R r hr => ?_) _ _ hstart h
  have hp := body_progress R hr
  cases r with
  | again t => exact hp.1
  | leave b => exact hp

theorem progress_failed {result : Int32} {file' : List UInt8} (hs : file' <:+ file)
    (hlt : file'.length < file.length) (hblank : ¬ Blank file) (g : Option HdrHistogram)
    (hcode : result = -EINVAL ∨ result ∈ decodeErrors) : Progress file g result file' g := by
  have hne : result ≠ EOF ∧ result ≠ 0 := by
    rcases hcode with rfl | hmem
    · decide
    · exact ⟨fun he => absurd (he ▸ hmem : EOF ∈ decodeErrors) (by decide),
        fun h0 => absurd (h0 ▸ hmem : 0 ∈ decodeErrors) (by decide)⟩
  exact ⟨hs, iff_of_false hne.1 hblank, fun _ => hlt, fun _ => rfl, fun h0 => absurd h0 hne.2,
    .inr (.inr hcode)⟩

theorem hdrLogReadEntry_progress (h : hdrLogReadEntry z stack file entry g = some r) :
    Progress file g r.result r.file r.histogram := by
  by_cases hblank : Blank file
  · rw [hdrLogReadEntry_blank hblank] at h
    cases h
    exact ⟨List.nil_suffix, iff_of_true rfl hblank, fun hn => absurd hblank hn, fun _ => rfl,
      fun h0 => absurd h0 (show EOF ≠ 0 by decide), .inr (.inl rfl)⟩
  rcases hrun : run body (file.length + 2) ⟨.init, file, entry, 0, 1024, []⟩ with _ | ⟨_ | rc, s⟩
  · simp only [hdrLogReadEntry, hrun] at h
    cases h
  · obtain ⟨hsuffix, hlt⟩ := run_body_outcome entry hrun
    cases hbase : hdrBase64Decode s.base64Histogram
        (hdrBase64DecodedLen s.base64Histogram.length) with
    | error rc =>
        have hrc : rc = -EINVAL := by
          rw [hdrBase64Decode] at hbase
          split_ifs at hbase
          cases hbase
          rfl
        simp only [hdrLogReadEntry, hrun, hbase] at h
        cases h
        exact progress_failed hsuffix hlt hblank g (.inl hrc)
    | ok compressed =>
        simp only [hdrLogReadEntry, hrun, hbase] at h
        obtain ⟨⟨rc, g'⟩, hdec, rfl⟩ := Option.map_eq_some_iff.mp h
        rcases hdrDecodeCompressed_decodes hdec with ⟨rfl, hsome⟩ | ⟨hrc, rfl⟩
        · exact ⟨hsuffix, iff_of_false (show (0 : Int32) ≠ EOF by decide) hblank, fun _ => hlt,
            fun h0 => absurd rfl h0, fun _ => hsome, .inl rfl⟩
        · exact progress_failed hsuffix hlt hblank _ (.inr hrc)
  · obtain ⟨hsuffix, ⟨-, -, hb⟩ | ⟨rfl, hlt⟩⟩ := run_body_outcome entry hrun
    · exact absurd hb hblank
    · simp only [hdrLogReadEntry, hrun] at h
      cases h
      exact progress_failed hsuffix hlt hblank g (.inl rfl)

/-- Each call of `hdr_log_read` takes a part of the file, and says so at its end only. -/
theorem hdrLogRead_progress {timestamp interval : Option HdrTimespec} {r : ReadResult}
    (h : hdrLogRead z stack file g timestamp interval = some r) :
    Progress file g r.result r.file r.histogram ∧
      (r.result ≠ 0 → r.timestamp = timestamp ∧ r.interval = interval) := by
  obtain ⟨e, hentry, rfl⟩ := Option.map_eq_some_iff.mp h
  exact ⟨hdrLogReadEntry_progress hentry, fun hne => ⟨if_neg hne, if_neg hne⟩⟩

theorem hdrLogRead_progress_sample :
    hdrLogRead storedZlib (fun _ => 0) (ascii "\nTag;5") none none none =
      some ⟨-EINVAL, ascii "5", none, none, none⟩ ∧
    Progress (ascii "\nTag;5") none (-EINVAL) (ascii "5") none := by
  have hread : hdrLogRead storedZlib (fun _ => 0) (ascii "\nTag;5") none none none =
      some ⟨-EINVAL, ascii "5", none, none, none⟩ := by
    decide +kernel
  exact ⟨hread, (hdrLogRead_progress hread).1⟩

end Calls

section Decoder
variable {z : Zlib} {stack : ℕ → UInt8}

theorem decoderBody_again {s t : Decoder} (h : decoderBody z stack s = some (.again t)) :
    t.file <:+ s.file ∧ t.file.length < s.file.length ∧
      t.printed.length = s.printed.length + 1 := by
  obtain ⟨r, hread, hr⟩ := Option.bind_eq_some_iff.mp h
  obtain ⟨e, hentry, rfl⟩ := Option.map_eq_some_iff.mp hread
  have P := hdrLogReadEntry_progress hentry
  dsimp only at hr
  split_ifs at hr with h0 heof
  · obtain ⟨k, -, ht⟩ := Option.map_eq_some_iff.mp hr
    cases ht
    have hblank : ¬ Blank s.file := fun hb => absurd (h0.symm.trans (P.eof_iff.mpr hb)) (by decide)
    exact ⟨P.suffix, P.shorter hblank, List.length_append⟩
  · cases hr
  · cases hr

/-- How the loop of the program ends in a state: with a call that has no defined result, at the
end of the file, or with a call that fails. -/
inductive DecoderEnd (z : Zlib) (stack : ℕ → UInt8) (t : Decoder) :
    Option (Int32 × List HdrHistogram) → Prop
  | undefined : hdrLogRead z stack t.file t.histogram (some t.timestamp) (some t.interval) = none →
      DecoderEnd z stack t none
  | atEnd : Blank t.file → DecoderEnd z stack t (some (0, t.printed))
  | failed {r : ReadResult} : ¬ Blank t.file →
      hdrLogRead z stack t.file t.histogram (some t.timestamp) (some t.interval) = some r →
      r.result ≠ 0 → DecoderEnd z stack t (some (-1, t.printed))

theorem decoderBody_end_cases {t : Decoder}
    (hend : ∀ u, decoderBody z stack t ≠ some (.again u)) :
    (decoderBody z stack t = none ∧ DecoderEnd z stack t none) ∨
      ∃ b, decoderBody z stack t = some (.leave b) ∧ DecoderEnd z stack t (some b) := by
  rcases hread : hdrLogRead z stack t.file t.histogram (some t.timestamp) (some t.interval) with
    _ | r
  · exact .inl ⟨by rw [decoderBody, hread, Option.bind_none], .undefined hread⟩
  · obtain ⟨e, hentry, he⟩ := Option.map_eq_some_iff.mp hread
    have P := hdrLogReadEntry_progress hentry
    have hbody := hend
    simp only [decoderBody, hread, Option.bind_some] at hbody ⊢
    subst he
    dsimp only at hread hbody ⊢
    by_cases h0 : e.result = 0
    · obtain ⟨k, hk⟩ := Option.ne_none_iff_exists'.mp (P.decoded h0)
      rw [if_pos h0, hk, Option.map_some] at hbody
      exact absurd rfl (hbody _)
    · rw [if_neg h0]
      by_cases heof : e.result = EOF
      · rw [if_pos heof]
        exact .inr ⟨_, rfl, .atEnd (P.eof_iff.mp heof)⟩
      · rw [if_neg heof]
        exact .inr ⟨_, rfl, .failed (fun hb => heof (P.eof_iff.mpr hb)) hread h0⟩

/-- On every file the loop comes to an end: after at most one round for each character, each of
which prints a histogram. No budget above the length of the file is used up. -/
theorem decoder_ends (z : Zlib) (stack : ℕ → UInt8) (s : Decoder) :
    ∃ n t, n ≤ s.file.length ∧ Rounds (decoderBody z stack) n s t ∧ t.file <:+ s.file ∧
      t.printed.length = s.printed.length + n ∧
      ∀ fuel, s.file.length < fuel → DecoderEnd z stack t (run (decoderBody z stack) fuel s) := by
  obtain ⟨n, t, hn, R, -, hend⟩ := exists_rounds_end (I := fun _ => True)
    (fun s : Decoder => s.file.length)
    (fun s t _ h => ⟨trivial,
      (decoderBody_again (show decoderBody z stack s = some (.again t) from h)).2.1⟩)
    (s := s) trivial
  have hsteps : t.file <:+ s.file ∧ t.printed.length = s.printed.length + n := by
    clear hend hn
    induction R with
    | done s => exact ⟨List.suffix_rfl, rfl⟩
    | next h _ ih =>
        obtain ⟨hsuffix, -, hprinted⟩ := decoderBody_again h
        exact ⟨ih.1.trans hsuffix, by rw [ih.2, hprinted]; omega⟩
  refine ⟨n, t, hn, R, hsteps.1, hsteps.2, fun fuel hfuel => ?_⟩
  rcases decoderBody_end_cases hend with ⟨hnone, E⟩ | ⟨b, hleave, E⟩
  · rwa [R.run_none hnone]
  · rwa [R.run_leave hleave (by omega)]

end Decoder

end HdrHistogramC
