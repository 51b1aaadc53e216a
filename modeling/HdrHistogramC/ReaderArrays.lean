import HdrHistogramC.ReaderProgress

/-!
# Staying inside the arrays

The reader of entries has two arrays: the one of the caller for the tag, and the one for the text,
which grows. It writes to no other place, and computes no number that does not fit a word as long as
the timestamps of the file are short.
-/
namespace HdrHistogramC
open BoundedLoop BufferWriting EntryParse Decimal

/-- The characters of a timestamp. -/
def Stamp (cs : List UInt8) : Prop := ∀ c ∈ cs, IsDigit c ∨ '.'.toUInt8 = c

/-- The rest of a file from the beginning of a field on. Fields end at a comma, or with the line. -/
inductive FieldOf (file : List UInt8) : List UInt8 → Prop
  | first : FieldOf file file
  | next {before rest : List UInt8} {c : UInt8} :
      c = ','.toUInt8 ∨ c = '\r'.toUInt8 ∨ c = '\n'.toUInt8 → file = before ++ c :: rest →
        FieldOf file rest

/-- No field begins with so many digits and points that their number might not fit a word. The field
of a tag begins with its `T`, and what follows the beginning of a text is not looked at. -/
def ShortStamps (file : List UInt8) : Prop :=
  ∀ rest cs, FieldOf file rest → cs <+: rest → Stamp cs → cs.length ≤ 18

/-- What stands behind the ends of the fields. -/
def laterFields : List UInt8 → List (List UInt8)
  | [] => []
  | c :: file =>
      if c = ','.toUInt8 ∨ c = '\r'.toUInt8 ∨ c = '\n'.toUInt8 then file :: laterFields file
      else laterFields file

section Arrays
variable {file rest : List UInt8} {s : EntryParse}

theorem FieldOf.mem (F : FieldOf file rest) : rest ∈ file :: laterFields file := by
  cases F with
  | first => exact List.mem_cons_self
  | @next before rest c hc hfile =>
      refine List.mem_cons_of_mem _ ?_
      subst hfile
      induction before with
      | nil =>
          rw [List.nil_append, laterFields, if_pos hc]
          exact List.mem_cons_self
      | cons d before ih =>
          rw [List.cons_append, laterFields]
          split_ifs
          · exact List.mem_cons_of_mem _ ih
          · exact ih

/-- It is enough to look at the digits and points at the beginning of every field. -/
theorem shortStamps_of_fields (h : ∀ field ∈ file :: laterFields file,
    (field.takeWhile fun c => IsDigit c ∨ '.'.toUInt8 = c).length ≤ 18) : ShortStamps file := by
  intro field cs F hprefix hstamp
  obtain ⟨after, rfl⟩ := hprefix
  have hshort := h _ F.mem
  rw [List.takeWhile_append_of_pos fun c hc => decide_eq_true (hstamp c hc),
    List.length_append] at hshort
  omega

/-- Up to eighteen digits fit a word, and so do their nanoseconds. -/
theorem timestampLoop_defined {t : UInt8} {ts : HdrTimespec} {flag : Bool} {a b q i : ℕ}
    {sec nsec mult : Int64} (hsec : sec.toInt = a) (hnsec : nsec.toInt = b) (hmult : mult.toInt = q)
    (ha : a < 10 ^ i) (hb : b < 10 ^ i) (hq : (b + 1) * q ≤ 10 ^ 9)
    (hshort : ∀ cs, cs <+: file → Stamp cs → i + cs.length ≤ 18) :
    ∃ r, timestampLoop t ts flag sec nsec mult file = some r := by
  induction file generalizing flag sec nsec mult a b q i with
  | nil => exact ⟨_, rfl⟩
  | cons c file ih =>
      have hnext : (IsDigit c ∨ '.'.toUInt8 = c) →
          ∀ cs, cs <+: file → Stamp cs → i + 1 + cs.length ≤ 18 := by
        intro hc cs hcs hstamp
        have hlong := hshort (c :: cs) ((List.prefix_cons_inj c).mpr hcs)
          (List.forall_mem_cons.mpr ⟨hc, hstamp⟩)
        rw [List.length_cons] at hlong
        omega
      have hword : IsDigit c →
          10 ^ (i + 1) ≤ 10 ^ 18 ∧ 10 ^ (i + 1) = 10 ^ i * 10 ∧ digit c < 10 := by
        intro hc
        have hroom := hnext (.inl hc) [] List.nil_prefix fun d hd => absurd hd List.not_mem_nil
        exact ⟨Nat.pow_le_pow_right (by omega) (by omega), pow_succ .., hc.digit_lt⟩
      rw [timestampLoop]
      split_ifs with hstop hpoint hdigit hseconds
      · have hle : nsec.toInt * mult.toInt ≤ 10 ^ 9 := by
          have hq' : b * q ≤ (b + 1) * q := Nat.mul_le_mul_right q (Nat.le_succ b)
          rw [hnsec, hmult]
          exact_mod_cast hq'.trans hq
        have hnonneg : 0 ≤ nsec.toInt * mult.toInt := by
          rw [hnsec, hmult]
          positivity
        have hmul : Checked.mul64 nsec mult ≠ none := by
          rw [Checked.mul64, Ne, Checked.int64_eq_none]
          omega
        obtain ⟨n, hn⟩ := Option.ne_none_iff_exists'.mp hmul
        exact ⟨_, by rw [hn, Option.map_some]⟩
      · exact ih hsec hnsec hmult ha hb hq fun cs hcs hstamp => by
          have := hnext (.inr hpoint) cs hcs hstamp
          omega
      · obtain ⟨hpow, hsucc, hlt⟩ := hword hdigit
        obtain ⟨-, n, happend, hn⟩ := (appendDigit_cases hdigit hsec).resolve_right (by omega)
        rw [happend, Option.bind_some]
        exact ih hn hnsec hmult (by omega) (by omega) hq (hnext (.inl hdigit))
      · obtain ⟨hpow, hsucc, hlt⟩ := hword hdigit
        obtain ⟨-, n, happend, hn⟩ := (appendDigit_cases hdigit hnsec).resolve_right (by omega)
        have hdiv : (mult / 10).toInt = (q / 10 : ℕ) := by
          have hbound := mult.toInt_lt
          have hten : (10 : Int64).toInt = 10 := rfl
          rw [Int64.toInt_div, hten, Int.tdiv_eq_ediv_of_nonneg (by omega), hmult,
            FixedWidth.bmod64 (by omega) (by omega)]
          omega
        have hproduct : (b * 10 + digit c + 1) * (q / 10) ≤ 10 ^ 9 :=
          calc (b * 10 + digit c + 1) * (q / 10) ≤ (b + 1) * 10 * (q / 10) :=
                Nat.mul_le_mul_right _ (by omega)
            _ = (b + 1) * (10 * (q / 10)) := Nat.mul_assoc ..
            _ ≤ (b + 1) * q := Nat.mul_le_mul_left _ (Nat.mul_div_le q 10)
            _ ≤ 10 ^ 9 := hq
        rw [happend, Option.bind_some]
        exact ih hsec hn hdiv (by omega) (by omega) hproduct (hnext (.inl hdigit))
      · exact ⟨_, rfl⟩

/-- A timestamp that is read ends before its terminator. -/
theorem timestampLoop_terminator {t : UInt8} {ts ts' : HdrTimespec} {flag : Bool}
    {sec nsec mult : Int64}
    (h : timestampLoop t ts flag sec nsec mult file = some (true, ts', rest)) :
    ∃ before, file = before ++ t :: rest := by
  induction file generalizing flag sec nsec mult with
  | nil => cases h
  | cons c file ih =>
      have hone : (∃ before, file = before ++ t :: rest) →
          ∃ before, c :: file = before ++ t :: rest :=
        fun ⟨before, hb⟩ => ⟨c :: before, by rw [hb, List.cons_append]⟩
      rw [timestampLoop] at h
      split_ifs at h with hstop
      · obtain ⟨n, -, he⟩ := Option.map_eq_some_iff.mp h
        cases he
        exact ⟨[], by rw [hstop, List.nil_append]⟩
      · exact hone (ih h)
      · obtain ⟨n, -, he⟩ := Option.bind_eq_some_iff.mp h
        exact hone (ih he)
      · obtain ⟨n, -, he⟩ := Option.bind_eq_some_iff.mp h
        exact hone (ih he)
      · cases h

theorem fieldOf_suffix {c : UInt8} (hc : c = ','.toUInt8 ∨ c = '\r'.toUInt8 ∨ c = '\n'.toUInt8)
    (h : c :: rest <:+ file) : FieldOf file rest := by
  obtain ⟨before, hb⟩ := h
  exact .next hc hb.symm

/-- The arrays are as long as the entry and the loop take them to be, the text that was read stands
in the file before the rest, and timestamps are read at the beginning of a field. -/
structure Inside (file : List UInt8) (s : EntryParse) : Prop where
  tag : ∀ tag ∈ s.entry.tag, s.entry.tagLen.toNat ≤ tag.length
  room : s.base64Histogram.length ≤ s.capacity ∧ 0 < s.capacity
  text : s.base64Histogram ++ s.file <:+ file
  started : s.state ≠ .histogram → s.base64Histogram = []
  field : s.state ≠ .tag → s.state ≠ .histogram → FieldOf file s.file

/-- The text that the loop leaves with is a part of the file. -/
def TextOf (file : List UInt8) (b : Option Int32 × EntryParse) : Prop :=
  b.1 = none → b.2.base64Histogram <:+: file

theorem Inside.suffix (I : Inside file s) (hnil : s.base64Histogram = []) : s.file <:+ file := by
  have htext := I.text
  rwa [hnil, List.nil_append] at htext

theorem Inside.putTag (I : Inside file s) (c : UInt8) : ∃ entry, s.putTag c = some entry ∧
    ∀ tag ∈ entry.tag, entry.tagLen.toNat ≤ tag.length := by
  cases htag : s.entry.tag with
  | none => exact ⟨s.entry, putTag_null s htag c, I.tag⟩
  | some buffer =>
      have hlen := I.tag buffer htag
      by_cases hroom : s.tagOffset < s.entry.tagLen.toNat
      · refine ⟨_, putTag_eq s htag hlen hroom, fun tag ht => ?_⟩
        obtain rfl : splice buffer s.tagOffset [c] = tag := Option.some.inj ht
        rw [splice_length (by rw [List.length_singleton]; omega)]
        exact hlen
      · refine ⟨s.entry, ?_, I.tag⟩
        simp only [EntryParse.putTag, htag, if_neg hroom]

theorem stepTimestamp_inside (I : Inside file s) (hshort : ShortStamps file)
    (timestamp : HdrTimespec) {assign : HdrTimespec → HdrLogEntry} {next : ParseLogState}
    (htag : s.state ≠ .tag) (hstate : s.state ≠ .histogram)
    (hassign : ∀ ts, (assign ts).tag = s.entry.tag ∧ (assign ts).tagLen = s.entry.tagLen) :
    ∃ r, s.stepTimestamp timestamp assign next = some r ∧ r.Holds (Inside file) (TextOf file) := by
  have hnil := I.started hstate
  have hsuffix := I.suffix hnil
  obtain ⟨⟨ok, ts, rest⟩, hread⟩ : ∃ r, readAheadTimestamp s.file timestamp ','.toUInt8 = some r :=
    timestampLoop_defined (i := 0) Int64.toInt_zero Int64.toInt_zero
      (show (1000000000 : Int64).toInt = (10 ^ 9 : ℕ) from rfl) Nat.one_pos Nat.one_pos
      (by norm_num) fun cs hcs hstamp => by
        rw [Nat.zero_add]
        exact hshort _ cs (I.field htag hstate) hcs hstamp
  cases ok with
  | false =>
      refine ⟨.leave (some (-EINVAL), { s with file := rest }), ?_, fun h => by cases h⟩
      simp only [stepTimestamp, hread]
      rfl
  | true =>
      refine ⟨.again { s with state := next, file := rest, entry := assign ts }, ?_, ?_, I.room, ?_,
        fun _ => hnil, fun _ _ => ?_⟩
      · simp only [stepTimestamp, hread]
      · dsimp only
        rw [(hassign ts).1, (hassign ts).2]
        exact I.tag
      · dsimp only
        rw [hnil, List.nil_append]
        exact (timestampLoop_suffix hread).1.trans hsuffix
      · obtain ⟨before, hb⟩ := timestampLoop_terminator hread
        exact fieldOf_suffix (.inl rfl) (.trans ⟨before, hb.symm⟩ hsuffix)

theorem Inside.drop (I : Inside file s) (hnil : s.base64Histogram = []) {t : EntryParse}
    (hentry : ∀ tag ∈ t.entry.tag, t.entry.tagLen.toNat ≤ tag.length) (hfile : t.file <:+ s.file)
    (hfield : t.state ≠ .tag → FieldOf file t.file) (hcapacity : t.capacity = s.capacity)
    (htext : t.base64Histogram = s.base64Histogram) : Inside file t := by
  refine ⟨hentry, by rw [hcapacity, htext]; exact I.room, ?_, fun _ => htext.trans hnil,
    fun h _ => hfield h⟩
  rw [htext, hnil, List.nil_append]
  exact hfile.trans (I.suffix hnil)

/-- The text grows by a character, and its array does before it is full. -/
theorem histogram_inside (I : Inside file s) (hstate : s.state = .histogram) : ∃ r,
    body s = some r ∧ r.Holds (Inside file) (TextOf file) := by
  obtain ⟨state, rest, entry, offset, capacity, text⟩ := s
  obtain rfl : state = .histogram := hstate
  obtain ⟨hfull, hpos⟩ := I.room
  dsimp only at hfull hpos
  have hinfix : text <:+: file := (List.prefix_append text rest).isInfix.trans I.text.isInfix
  cases rest with
  | nil => exact ⟨_, rfl, fun _ => hinfix⟩
  | cons c rest =>
      simp only [body, fgetc]
      split_ifs with hchar
      · obtain ⟨larger, hlarger⟩ : ∃ larger, larger =
            if text.length = capacity then capacity * 2 else capacity := ⟨_, rfl⟩
        have hfits : text.length < larger := by
          rw [hlarger]
          split_ifs <;> omega
        refine ⟨.again ⟨.histogram, rest, entry, offset, larger, text ++ [c]⟩, ?_, I.tag, ?_,
          ?_, fun h => absurd rfl h, fun _ h => absurd rfl h⟩
        · simp only [putHistogram, ← hlarger, if_pos hfits, Option.map_some]
        · dsimp only
          rw [List.length_append, List.length_singleton]
          omega
        · dsimp only
          rw [List.append_assoc]
          exact I.text
      · exact ⟨_, rfl, fun _ => hinfix⟩

theorem body_inside (I : Inside file s) (hshort : ShortStamps file) : ∃ r, body s = some r ∧
    r.Holds (Inside file) (TextOf file) := by
  have hleave : ∀ rest e, ∃ r, s.fail rest e = some r ∧ r.Holds (Inside file) (TextOf file) :=
    fun rest e => ⟨_, rfl, fun h => by cases h⟩
  obtain ⟨state, rest, entry, offset, capacity, text⟩ := s
  cases state with
  | init =>
      obtain rfl : text = [] := I.started (by simp)
      cases rest with
      | nil => exact hleave [] EOF
      | cons c rest =>
          simp only [body, fgetc]
          split_ifs with hT hdigit hend
          · have hahead := (readAhead_suffix (ascii "ag=") rest).trans (List.suffix_cons c rest)
            rcases hread : readAhead rest (ascii "ag=") with ⟨ok, rest'⟩
            rw [hread] at hahead
            cases ok with
            | true => exact ⟨_, rfl, I.drop rfl I.tag hahead (fun h => absurd rfl h) rfl rfl⟩
            | false => exact hleave rest' (-EINVAL)
          · exact ⟨_, rfl, I.drop rfl I.tag List.suffix_rfl
              (fun _ => I.field (by simp) (by simp)) rfl rfl⟩
          · exact ⟨_, rfl, I.drop rfl I.tag (List.suffix_cons c rest)
              (fun _ => fieldOf_suffix (.inr (hend.imp Eq.symm Eq.symm)) (I.suffix rfl)) rfl rfl⟩
          · exact hleave rest (-EINVAL)
  | tag =>
      obtain rfl : text = [] := I.started (by simp)
      cases rest with
      | nil => exact hleave [] (-EINVAL)
      | cons c rest =>
          have hcons := List.suffix_cons c rest
          simp only [body, fgetc]
          split_ifs with hcomma hend
          · obtain ⟨entry', hput, hentry⟩ := I.putTag 0
            rw [hput]
            exact ⟨_, rfl, I.drop rfl hentry hcons
              (fun _ => fieldOf_suffix (.inl hcomma.symm) (I.suffix rfl)) rfl rfl⟩
          · exact hleave rest (-EINVAL)
          all_goals
            obtain ⟨entry', hput, hentry⟩ := I.putTag c
            rw [hput]
            exact ⟨_, rfl, I.drop rfl hentry hcons (fun h => absurd rfl h) rfl rfl⟩
  | beginTimestamp => exact stepTimestamp_inside I hshort _ (by simp) (by simp) fun ts => ⟨rfl, rfl⟩
  | interval => exact stepTimestamp_inside I hshort _ (by simp) (by simp) fun ts => ⟨rfl, rfl⟩
  | max => exact stepTimestamp_inside I hshort _ (by simp) (by simp) fun ts => ⟨rfl, rfl⟩
  | histogram => exact histogram_inside I rfl

/-- Reading an entry from any file stays inside the arrays of the reader: only the decoder, on a
text of the file, can be without a result. -/
theorem hdrLogReadEntry_inside {z : Zlib} {stack : ℕ → UInt8} {entry : HdrLogEntry}
    (htag : ∀ tag ∈ entry.tag, entry.tagLen.toNat ≤ tag.length) (hshort : ShortStamps file)
    (g : Option HdrHistogram) :
    (∃ r, hdrLogReadEntry z stack file entry g = some r) ∨
      ∃ text compressed, text <:+: file ∧
        hdrBase64Decode text (hdrBase64DecodedLen text.length) = .ok compressed ∧
        hdrDecodeCompressed z stack compressed g = none := by
  have hstart : Reading file ⟨.init, file, entry, 0, 1024, []⟩ ∧
      Inside file ⟨.init, file, entry, 0, 1024, []⟩ :=
    ⟨⟨List.suffix_rfl, .inl rfl, fun _ => ⟨[], rfl, fun c hc => absurd hc List.not_mem_nil⟩⟩,
      ⟨htag, ⟨Nat.zero_le _, show 0 < 1024 by decide⟩, List.suffix_rfl, fun _ => rfl,
        fun _ _ => .first⟩⟩
  have hstep : ∀ s, Reading file s ∧ Inside file s → ∃ r, body s = some r ∧
      r.Holds (fun t => (Reading file t ∧ Inside file t) ∧ t.left < s.left) (TextOf file) := by
    rintro s ⟨R, I⟩
    obtain ⟨r, hr, hI⟩ := body_inside I hshort
    have hR := body_progress R hr
    refine ⟨r, hr, ?_⟩
    cases r with
    | again t => exact ⟨⟨hR.1, hI⟩, hR.2⟩
    | leave b => exact hI
  obtain ⟨⟨result, s⟩, hrun, htext⟩ :=
    run_of_variant EntryParse.left hstep (file.length + 2) _ hstart (by simp [EntryParse.left])
  cases result with
  | some result =>
      simp only [hdrLogReadEntry, hrun]
      exact .inl ⟨_, rfl⟩
  | none =>
      cases hbase : hdrBase64Decode s.base64Histogram
          (hdrBase64DecodedLen s.base64Histogram.length) with
      | error rc =>
          simp only [hdrLogReadEntry, hrun, hbase]
          exact .inl ⟨_, rfl⟩
      | ok compressed =>
          simp only [hdrLogReadEntry, hrun, hbase]
          rcases hdec : hdrDecodeCompressed z stack compressed g with _ | r
          · exact .inr ⟨_, compressed, htext rfl, hbase, hdec⟩
          · exact .inl ⟨_, rfl⟩

/-- A tag of many digits is no timestamp. -/
theorem hdrLogReadEntry_inside_sample :
    (∃ r, hdrLogReadEntry storedZlib (fun _ => 0)
      (ascii "\nTag=1234567890123456789012345,1.0,2.0,3.0,HISTAAAA\n")
      (sampleEntry ⟨0, 0⟩ (some (ascii "tag")) 3) none = some r) ∨
      ∃ text compressed,
        text <:+: ascii "\nTag=1234567890123456789012345,1.0,2.0,3.0,HISTAAAA\n" ∧
        hdrBase64Decode text (hdrBase64DecodedLen text.length) = .ok compressed ∧
        hdrDecodeCompressed storedZlib (fun _ => 0) compressed none = none := by
  refine hdrLogReadEntry_inside (fun tag ht => ?_) (shortStamps_of_fields (by decide +kernel)) none
  obtain rfl : ascii "tag" = tag := Option.some.inj ht
  decide

end Arrays

end HdrHistogramC
