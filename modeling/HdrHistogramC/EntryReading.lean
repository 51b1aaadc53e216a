import HdrHistogramC.Timestamps

/-!
# Reading one line

What each state of the reader does with the field that belongs to it, and what the loop does with
a whole line: it takes the characters of the line and no others, and leaves with the base 64 text.
-/
namespace HdrHistogramC
open BoundedLoop BufferWriting Decimal EntryParse

/-- The reader stops at these characters. -/
def Plain (cs : List UInt8) : Prop :=
  ∀ c ∈ cs, c ≠ ','.toUInt8 ∧ c ≠ '\r'.toUInt8 ∧ c ≠ '\n'.toUInt8

section Fields
variable {entry : HdrLogEntry} {buffer cs rest text : List UInt8} {c : UInt8} {offset capacity : ℕ}

theorem readAhead_append (file ps : List UInt8) : readAhead (ps ++ file) ps = (true, file) := by
  induction ps with
  | nil => rfl
  | cons p ps ih =>
      rw [List.cons_append, readAhead, fgetc]
      simp only [if_true, ih]

theorem body_tag (entry : HdrLogEntry) (offset capacity : ℕ) (rest text : List UInt8) :
    body ⟨.init, ascii "Tag=" ++ rest, entry, offset, capacity, text⟩ =
      some (.again ⟨.tag, rest, entry, offset, capacity, text⟩) := by
  have hsplit : ascii "Tag=" ++ rest = 'T'.toUInt8 :: (ascii "ag=" ++ rest) := rfl
  simp only [body, hsplit, fgetc, if_true, readAhead_append]

theorem body_digit (entry : HdrLogEntry) (offset capacity : ℕ) (hc : IsDigit c)
    (rest text : List UInt8) :
    body ⟨.init, c :: rest, entry, offset, capacity, text⟩ =
      some (.again ⟨.beginTimestamp, c :: rest, entry, offset, capacity, text⟩) := by
  have ht : 'T'.toUInt8 ≠ c := by
    rintro rfl
    exact absurd hc (by decide)
  simp only [body, fgetc, if_neg ht, if_pos hc]

theorem putTag_eq (s : EntryParse) (htag : s.entry.tag = some buffer)
    (hlen : s.entry.tagLen.toNat ≤ buffer.length) (hroom : s.tagOffset < s.entry.tagLen.toNat) :
    s.putTag c = some { s.entry with tag := some (splice buffer s.tagOffset [c]) } := by
  have hput : put buffer s.tagOffset [c] = some (splice buffer s.tagOffset [c]) :=
    put_eq (by rw [List.length_singleton]; omega)
  simp only [putTag, htag, if_pos hroom, hput, Option.map_some]

/-- The characters of a tag go to the buffer one after the other. -/
theorem tag_rounds (entry : HdrLogEntry) (capacity : ℕ) (rest text : List UInt8)
    (hcs : Plain cs) (hlen : entry.tagLen.toNat ≤ buffer.length)
    (hroom : offset + cs.length < entry.tagLen.toNat) :
    Rounds body cs.length
      ⟨.tag, cs ++ rest, { entry with tag := some buffer }, offset, capacity, text⟩
      ⟨.tag, rest, { entry with tag := some (splice buffer offset cs) }, offset + cs.length,
        capacity, text⟩ := by
  induction cs generalizing buffer offset with
  | nil =>
      rw [splice_nil]
      exact .done _
  | cons c cs ih =>
      rw [List.length_cons] at hroom
      obtain ⟨hcomma, hcr, hlf⟩ := hcs c (by simp)
      have hput := putTag_eq (c := c)
        ⟨.tag, c :: (cs ++ rest), { entry with tag := some buffer }, offset, capacity, text⟩
        rfl hlen (show offset < entry.tagLen.toNat by omega)
      have hstep : body
          ⟨.tag, c :: (cs ++ rest), { entry with tag := some buffer }, offset, capacity, text⟩ =
            some (.again ⟨.tag, cs ++ rest, { entry with tag := some (splice buffer offset [c]) },
              offset + 1, capacity, text⟩) := by
        simp only [body, fgetc, if_neg hcomma.symm, hcr.symm, hlf.symm, or_self, if_false, hput]
        simp [show offset < entry.tagLen.toNat by omega]
      have hsingle : offset + [c].length ≤ buffer.length := by
        rw [List.length_singleton]
        omega
      have hrest : Rounds body cs.length
          ⟨.tag, cs ++ rest, { entry with tag := some (splice buffer offset [c]) }, offset + 1,
            capacity, text⟩
          ⟨.tag, rest,
            { entry with tag := some (splice (splice buffer offset [c]) (offset + 1) cs) },
            offset + 1 + cs.length, capacity, text⟩ :=
        ih (fun d hd => hcs d (List.mem_cons_of_mem _ hd))
          (by rw [splice_length hsingle]; exact hlen) (by omega)
      rw [show offset + 1 = offset + [c].length from rfl, splice_splice hsingle,
        show offset + [c].length + cs.length = offset + (c :: cs).length by
          rw [List.length_singleton, List.length_cons]; omega] at hrest
      exact .next hstep hrest

theorem body_comma (entry : HdrLogEntry) (capacity : ℕ) (rest text : List UInt8)
    (hlen : entry.tagLen.toNat ≤ buffer.length) (hroom : offset < entry.tagLen.toNat) :
    body ⟨.tag, ','.toUInt8 :: rest, { entry with tag := some buffer }, offset, capacity, text⟩ =
      some (.again ⟨.beginTimestamp, rest, { entry with tag := some (splice buffer offset [0]) },
        offset, capacity, text⟩) := by
  have hput := putTag_eq (c := 0)
    ⟨.tag, ','.toUInt8 :: rest, { entry with tag := some buffer }, offset, capacity, text⟩ rfl hlen
    hroom
  simp only [body, fgetc, if_true, hput, Option.map_some]

/-- The text up to the end of the line goes to the array, which grows with it. -/
theorem histogram_rounds (entry : HdrLogEntry) (offset : ℕ) (rest : List UInt8) (hcs : Plain cs)
    (hcapacity : 0 < capacity) (htext : text.length ≤ capacity) :
    ∃ capacity', Rounds body cs.length
      ⟨.histogram, cs ++ rest, entry, offset, capacity, text⟩
      ⟨.histogram, rest, entry, offset, capacity', text ++ cs⟩ := by
  induction cs generalizing capacity text with
  | nil =>
      rw [List.append_nil]
      exact ⟨capacity, .done _⟩
  | cons c cs ih =>
      obtain ⟨-, hcr, hlf⟩ := hcs c (by simp)
      obtain ⟨larger, hlarger⟩ : ∃ larger, larger =
          if text.length = capacity then capacity * 2 else capacity := ⟨_, rfl⟩
      have hfits : text.length < larger := by
        rw [hlarger]
        split_ifs <;> omega
      have hstep : body ⟨.histogram, c :: (cs ++ rest), entry, offset, capacity, text⟩ =
          some (.again ⟨.histogram, cs ++ rest, entry, offset, larger, text ++ [c]⟩) := by
        simp only [body, fgetc, putHistogram, hcr, hlf, ne_eq, not_false_eq_true, and_self, if_true,
          ← hlarger, hfits, Option.map_some]
      have hlength : (text ++ [c]).length ≤ larger := by
        rw [List.length_append, List.length_singleton]
        omega
      obtain ⟨capacity', hrest⟩ :=
        ih (fun d hd => hcs d (List.mem_cons_of_mem _ hd)) (by omega) hlength
      rw [List.append_assoc, List.singleton_append] at hrest
      exact ⟨capacity', .next hstep hrest⟩

theorem body_lineEnd (entry : HdrLogEntry) (offset capacity : ℕ) (rest text : List UInt8) :
    body ⟨.histogram, '\n'.toUInt8 :: rest, entry, offset, capacity, text⟩ =
      some (.leave (none, ⟨.histogram, rest, entry, offset, capacity, text⟩)) := rfl

/-- Digits, a point and a number of further digits; the seconds are a word. -/
def TimestampText (places : ℕ) (cs : List UInt8) : Prop :=
  ∃ ds fs, cs = ds ++ '.'.toUInt8 :: fs ∧ ds ≠ [] ∧ (∀ c ∈ ds, IsDigit c) ∧
    (∀ c ∈ fs, IsDigit c) ∧ fs.length = places ∧ value 0 ds < 2 ^ 63

theorem TimestampText.head {places : ℕ} (T : TimestampText places cs) :
    ∃ d ds, cs = d :: ds ∧ IsDigit d := by
  obtain ⟨ds, fs, rfl, hne, hds, -⟩ := T
  obtain ⟨d, ds, rfl⟩ := List.exists_cons_of_ne_nil hne
  exact ⟨d, ds ++ '.'.toUInt8 :: fs, rfl, hds d (by simp)⟩

theorem stepTimestamp_eq {places : ℕ} (T : TimestampText places cs) (hplaces : places ≤ 9)
    (s : EntryParse) (hfile : s.file = cs ++ ','.toUInt8 :: rest) (ts : HdrTimespec)
    (assign : HdrTimespec → HdrLogEntry) (next : ParseLogState) :
    ∃ tv, s.stepTimestamp ts assign next =
      some (.again { s with state := next, file := rest, entry := assign tv }) := by
  obtain ⟨ds, fs, rfl, -, hds, hfs, rfl, hfit⟩ := T
  obtain ⟨tv, htv, -⟩ := readAheadTimestamp_eq (t := ','.toUInt8) ts rest (by decide) (by decide)
    hds hfs hfit hplaces
  refine ⟨tv, ?_⟩
  rw [List.append_assoc, List.cons_append] at hfile
  simp only [stepTimestamp, hfile, htv]

theorem timestamp_rounds {start interval max : List UInt8} {p q r : ℕ} (entry : HdrLogEntry)
    (offset capacity : ℕ) (rest text : List UInt8) (Ts : TimestampText p start)
    (Ti : TimestampText q interval) (Tm : TimestampText r max) (hp : p ≤ 9) (hq : q ≤ 9)
    (hr : r ≤ 9) :
    ∃ t₁ t₂ t₃, Rounds body 3
      ⟨.beginTimestamp, start ++ ','.toUInt8 :: (interval ++ ','.toUInt8 :: (max ++
        ','.toUInt8 :: rest)), entry, offset, capacity, text⟩
      ⟨.histogram, rest, { entry with startTimestamp := t₁, interval := t₂, max := t₃ }, offset,
        capacity, text⟩ := by
  obtain ⟨t₁, h₁⟩ := stepTimestamp_eq Ts hp ⟨.beginTimestamp, _, entry, offset, capacity, text⟩ rfl
    entry.startTimestamp (fun t => { entry with startTimestamp := t }) .interval
  obtain ⟨t₂, h₂⟩ := stepTimestamp_eq Ti hq
    ⟨.interval, _, { entry with startTimestamp := t₁ }, offset, capacity, text⟩ rfl
    entry.interval (fun t => { entry with startTimestamp := t₁, interval := t }) .max
  obtain ⟨t₃, h₃⟩ := stepTimestamp_eq Tm hr
    ⟨.max, _, { entry with startTimestamp := t₁, interval := t₂ }, offset, capacity, text⟩ rfl
    entry.max (fun t => { entry with startTimestamp := t₁, interval := t₂, max := t }) .histogram
  exact ⟨t₁, t₂, t₃, .next h₁ (.next h₂ (.next h₃ (.done _)))⟩

end Fields

/-- The string at the start of an array. -/
def cString (buffer : List UInt8) : List UInt8 := buffer.takeWhile (· ≠ 0)

def tagField (tag : List UInt8) : List UInt8 :=
  if tag = [] then [] else ascii "Tag=" ++ (tag ++ ascii ",")

/-- The caller clears the buffer for the tag, which is longer than the tag. -/
structure ReadyFor (entry : HdrLogEntry) (tag : List UInt8) : Prop where
  buffer : ∃ buffer, entry.tag = some (0 :: buffer) ∧ entry.tagLen.toNat ≤ buffer.length + 1
  room : tag.length < entry.tagLen.toNat

/-- The reader has stored the tag, in the same buffer. -/
structure TagRead (entry entry' : HdrLogEntry) (tag : List UInt8) : Prop where
  tagLen : entry'.tagLen = entry.tagLen
  size : entry'.tag.map List.length = entry.tag.map List.length
  tag : entry'.tag.map cString = some tag

section Line
variable {entry : HdrLogEntry} {tag start interval max rest text : List UInt8} {capacity : ℕ}

theorem cString_append (hzero : (0 : UInt8) ∉ tag) (buffer : List UInt8) :
    cString (tag ++ 0 :: buffer) = tag := by
  have hall : ∀ c ∈ tag, decide (c ≠ 0) = true := by
    intro c hc
    rw [decide_eq_true_iff]
    rintro rfl
    exact hzero hc
  rw [cString, List.takeWhile_append_of_pos hall, List.takeWhile_cons_of_neg (by simp),
    List.append_nil]

/-- With or without a tag the reader comes to the first digit. -/
theorem tagField_rounds {d : UInt8} (R : ReadyFor entry tag) (htag : Plain tag)
    (hzero : (0 : UInt8) ∉ tag) (hd : IsDigit d) (capacity : ℕ) (rest text : List UInt8) :
    ∃ n offset entry', n ≤ (tagField tag).length + 1 ∧ TagRead entry entry' tag ∧
      Rounds body n ⟨.init, tagField tag ++ d :: rest, entry, 0, capacity, text⟩
        ⟨.beginTimestamp, d :: rest, entry', offset, capacity, text⟩ := by
  obtain ⟨⟨buffer, hbuffer, hlen⟩, hroom⟩ := R
  by_cases hne : tag = []
  · subst hne
    refine ⟨1, 0, entry, Nat.le_add_left .., ⟨rfl, rfl, ?_⟩,
      .next (body_digit entry 0 capacity hd rest text) (.done _)⟩
    rw [hbuffer]
    rfl
  · have hentry : { entry with tag := some (0 :: buffer) } = entry := by
      rw [← hbuffer]
    have hfield : tagField tag = ascii "Tag=" ++ (tag ++ ascii ",") := if_neg hne
    have hlen' : entry.tagLen.toNat ≤ (0 :: buffer).length := hlen
    have hlength : (splice (0 :: buffer) 0 tag).length = (0 :: buffer).length :=
      splice_length (by omega)
    have hfirst := body_tag entry 0 capacity (tag ++ ','.toUInt8 :: d :: rest) text
    have hchars := tag_rounds entry capacity (','.toUInt8 :: d :: rest) text htag hlen'
      (show 0 + tag.length < _ by omega)
    rw [hentry] at hchars
    have hcomma := body_comma entry capacity (d :: rest) text
      (show _ ≤ (splice (0 :: buffer) 0 tag).length by omega)
      (show 0 + tag.length < _ by omega)
    have hended : splice (splice (0 :: buffer) 0 tag) (0 + tag.length) [0] =
        tag ++ 0 :: (0 :: buffer).drop (tag.length + 1) := by
      rw [splice_splice (by omega), splice, List.take_zero, List.nil_append, List.append_assoc,
        List.length_append, List.length_singleton, Nat.zero_add]
      rfl
    refine ⟨tag.length + 1 + 1, 0 + tag.length,
      { entry with tag := some (splice (splice (0 :: buffer) 0 tag) (0 + tag.length) [0]) }, ?_,
      ⟨rfl, ?_, ?_⟩, .next ?_ (hchars.trans (.next hcomma (.done _)))⟩
    · have hfour : (ascii "Tag=").length = 4 := rfl
      rw [hfield, List.length_append, List.length_append, hfour]
      omega
    · have hone : 0 + tag.length + [(0 : UInt8)].length ≤ (splice (0 :: buffer) 0 tag).length := by
        rw [List.length_singleton]
        omega
      rw [hbuffer, Option.map_some, Option.map_some, splice_length hone, hlength]
    · rw [Option.map_some, hended, cString_append hzero]
    · rw [hfield, List.append_assoc, List.append_assoc]
      exact hfirst

/-- A line with the fields that the writer prints. -/
def lineText (tag start interval max text : List UInt8) : List UInt8 :=
  tagField tag ++ (start ++ ','.toUInt8 :: (interval ++ ','.toUInt8 :: (max ++
    ','.toUInt8 :: (text ++ ['\n'.toUInt8]))))

/-- The loop takes exactly the line, and leaves with its text. -/
theorem run_lineText {p q r : ℕ} (R : ReadyFor entry tag) (htag : Plain tag)
    (hzero : (0 : UInt8) ∉ tag) (Ts : TimestampText p start) (Ti : TimestampText q interval)
    (Tm : TimestampText r max) (hp : p ≤ 9) (hq : q ≤ 9) (hr : r ≤ 9) (htext : Plain text)
    (rest : List UInt8) :
    ∃ offset capacity entry', TagRead entry entry' tag ∧
      run body ((lineText tag start interval max text ++ rest).length + 2)
        ⟨.init, lineText tag start interval max text ++ rest, entry, 0, 1024, []⟩ =
          some (none, ⟨.histogram, rest, entry', offset, capacity, text⟩) := by
  obtain ⟨d, ds, hstart, hd⟩ := Ts.head
  obtain ⟨n, offset, entry₁, hn, T, hfirst⟩ := tagField_rounds R htag hzero hd 1024
    (ds ++ ','.toUInt8 :: (interval ++ ','.toUInt8 :: (max ++ ','.toUInt8 ::
      (text ++ '\n'.toUInt8 :: rest)))) []
  obtain ⟨t₁, t₂, t₃, hstamps⟩ := timestamp_rounds entry₁ offset 1024
    (text ++ '\n'.toUInt8 :: rest) [] Ts Ti Tm hp hq hr
  have hroom : ([] : List UInt8).length ≤ 1024 := Nat.zero_le _
  obtain ⟨capacity, hlast⟩ := histogram_rounds
    { entry₁ with startTimestamp := t₁, interval := t₂, max := t₃ } offset ('\n'.toUInt8 :: rest)
    htext (by omega) hroom
  have hline : lineText tag start interval max text ++ rest =
      tagField tag ++ (start ++ ','.toUInt8 :: (interval ++ ','.toUInt8 :: (max ++
        ','.toUInt8 :: (text ++ '\n'.toUInt8 :: rest)))) := by
    simp only [lineText, List.append_assoc, List.cons_append, List.nil_append]
  have hsplit : d :: (ds ++ ','.toUInt8 :: (interval ++ ','.toUInt8 :: (max ++ ','.toUInt8 ::
      (text ++ '\n'.toUInt8 :: rest)))) = start ++ ','.toUInt8 :: (interval ++ ','.toUInt8 ::
        (max ++ ','.toUInt8 :: (text ++ '\n'.toUInt8 :: rest))) := by
    rw [hstart]
    rfl
  rw [hsplit] at hfirst
  rw [List.nil_append] at hlast
  refine ⟨offset, capacity, { entry₁ with startTimestamp := t₁, interval := t₂, max := t₃ },
    ⟨T.tagLen, T.size, T.tag⟩, ?_⟩
  rw [hline]
  refine ((hfirst.trans hstamps).trans hlast).run_leave (body_lineEnd ..) ?_
  simp only [List.length_append, List.length_cons]
  omega

end Line

end HdrHistogramC
