import HdrHistogramC.Aggregation
import HdrHistogramC.EntryRoundTrip
import HdrHistogramC.HeaderRoundTrip

/-!
# Whole logs

`hdr_log_write` and `hdr_log_read`, which know nothing of tags, and the program that reads a log
from its header to its end. It reads every line into the same histogram, so what it prints are
running totals.
-/
namespace HdrHistogramC
open BoundedLoop EntryParse Decimal

section Write
variable (z : Zlib) (printSeconds : HdrTimespec → List UInt8)

/-- What is printed with the format `%.3f,%.3f,%lu.0,%s` and a line end. -/
def intervalLine (startTimestamp endTimestamp : HdrTimespec) (max : Int64)
    (encodedHistogram : List UInt8) : List UInt8 :=
  printSeconds startTimestamp ++ ascii "," ++ printSeconds endTimestamp ++ ascii "," ++
    Decimal.text max.toUInt64.toNat ++ ascii ".0," ++ encodedHistogram ++ ascii "\n"

def hdrLogWrite (file : List UInt8) (startTimestamp endTimestamp : HdrTimespec)
    (h : HdrHistogram) : Option (Int32 × List UInt8) :=
  match h.hdrEncodeCompressed z with
  | none => none
  | some (.error rc) => some (rc, file)
  | some (.ok compressed) =>
      match hdrBase64Encode compressed (hdrBase64EncodedLen compressed.length) with
      | .error rc => some (rc, file)
      | .ok encoded =>
          let (printed, file) :=
            fprintf file (intervalLine printSeconds startTimestamp endTimestamp h.hdrMax encoded)
          some (if printed < 0 then EIO else 0, file)

/-- An entry without a tag. -/
def intervalEntry (startTimestamp endTimestamp : HdrTimespec) : HdrLogEntry where
  startTimestamp := startTimestamp
  interval := endTimestamp
  max := ⟨0, 0⟩
  tag := none
  tagLen := 0

/-- The two writers print the same line. -/
theorem hdrLogWrite_eq_entry (file : List UInt8) (startTimestamp endTimestamp : HdrTimespec)
    (h : HdrHistogram) : hdrLogWrite z printSeconds file startTimestamp endTimestamp h =
      hdrLogWriteEntry z printSeconds file (intervalEntry startTimestamp endTimestamp) h := by
  have htag : ¬ (intervalEntry startTimestamp endTimestamp).HasTag := fun h => h.1 rfl
  have hline : ∀ max encoded, entryLine printSeconds (intervalEntry startTimestamp endTimestamp)
      max encoded = some (intervalLine printSeconds startTimestamp endTimestamp max encoded) := by
    intro max encoded
    simp only [entryLine, if_neg htag, printfString_empty, Option.map_some, List.nil_append]
    rfl
  rcases henc : h.hdrEncodeCompressed z with _ | ⟨rc | compressed⟩
  · simp only [hdrLogWrite, hdrLogWriteEntry, henc]
  · simp only [hdrLogWrite, hdrLogWriteEntry, henc]
  · cases hbase : hdrBase64Encode compressed (hdrBase64EncodedLen compressed.length) with
    | error rc => simp only [hdrLogWrite, hdrLogWriteEntry, henc, hbase]
    | ok encoded => simp only [hdrLogWrite, hdrLogWriteEntry, henc, hbase, hline, Option.map_some]

end Write

def hdrLogReaderInit : HdrLogReader where
  majorVersion := 0
  minorVersion := 0
  startTimestamp := ⟨0, 0⟩

/-- The result, the rest of the file, and what the pointers lead to; `none` is a null pointer. -/
structure ReadResult where
  result : Int32
  file : List UInt8
  histogram : Option HdrHistogram
  timestamp : Option HdrTimespec
  interval : Option HdrTimespec
deriving Repr, DecidableEq

/-- All bytes of the entry are zero, the pointer to the tag too. -/
def zeroEntry : HdrLogEntry := intervalEntry ⟨0, 0⟩ ⟨0, 0⟩

section Read
variable (z : Zlib) (stack : ℕ → UInt8)

def hdrLogRead (file : List UInt8) (histogram : Option HdrHistogram)
    (timestamp interval : Option HdrTimespec) : Option ReadResult :=
  (hdrLogReadEntry z stack file zeroEntry histogram).map fun (r : EntryResult) =>
    { result := r.result
      file := r.file
      histogram := r.histogram
      timestamp := if r.result = 0 then timestamp.map fun _ => r.entry.startTimestamp else timestamp
      interval := if r.result = 0 then interval.map fun _ => r.entry.interval else interval }

/-- The variables of the program that reads a log, and the histograms that it has given to
`hdr_percentiles_print`. The loop in there is not modelled; with negative counts it need not end. -/
structure Decoder where
  file : List UInt8
  histogram : Option HdrHistogram
  timestamp : HdrTimespec
  interval : HdrTimespec
  printed : List HdrHistogram

/-- One round of its loop, where printing is listing the histogram that is printed. There is none
behind a null pointer. -/
def decoderBody (s : Decoder) : Option (Round Decoder (Int32 × List HdrHistogram)) :=
  (hdrLogRead z stack s.file s.histogram (some s.timestamp) (some s.interval)).bind fun r =>
    if r.result = 0 then
      r.histogram.map fun h => .again
        { file := r.file
          histogram := some h
          timestamp := r.timestamp.getD s.timestamp
          interval := r.interval.getD s.interval
          printed := s.printed ++ [h] }
    else if r.result = EOF then some (.leave (0, s.printed))
    else some (.leave (-1, s.printed))

/-- The exit code of the program, and what it prints. Two variables are not initialised; every
round but the last reads a character. -/
def decoderMain (scanSeconds : List UInt8 → Option (Option HdrTimespec))
    (timestamp interval : HdrTimespec) (file : List UInt8) : Option (Int32 × List HdrHistogram) :=
  (hdrLogReadHeader scanSeconds hdrLogReaderInit file).bind fun (rc, _, file) =>
    if rc ≠ 0 then some (-1, [])
    else run (decoderBody z stack) (file.length + 1) ⟨file, none, timestamp, interval, []⟩

end Read

section Line
variable {entry : HdrLogEntry} {tag start interval max rest text cs : List UInt8}
  {capacity : ℕ} {d : UInt8}

theorem putTag_null (s : EntryParse) (htag : s.entry.tag = none) (c : UInt8) :
    s.putTag c = some s.entry := by
  simp only [putTag, htag]

theorem skipTag_rounds (htag : entry.tag = none) (capacity : ℕ) (rest text : List UInt8)
    (hcs : Plain cs) :
    Rounds body cs.length ⟨.tag, cs ++ rest, entry, 0, capacity, text⟩
      ⟨.tag, rest, entry, 0, capacity, text⟩ := by
  induction cs with
  | nil => exact .done _
  | cons c cs ih =>
      obtain ⟨hcomma, hcr, hlf⟩ := hcs c (by simp)
      have hput := putTag_null ⟨.tag, c :: (cs ++ rest), entry, 0, capacity, text⟩ htag c
      have hstep : body ⟨.tag, c :: (cs ++ rest), entry, 0, capacity, text⟩ =
          some (.again ⟨.tag, cs ++ rest, entry, 0, capacity, text⟩) := by
        simp only [body, fgetc, if_neg hcomma.symm, hcr.symm, hlf.symm, or_self, if_false, hput]
        simp [htag]
      exact .next hstep (ih fun c hc => hcs c (List.mem_cons_of_mem _ hc))

theorem skipField_rounds (htag : entry.tag = none) (hplain : Plain tag) (hd : IsDigit d)
    (capacity : ℕ) (rest text : List UInt8) :
    ∃ n, n ≤ (tagField tag).length + 1 ∧
      Rounds body n ⟨.init, tagField tag ++ d :: rest, entry, 0, capacity, text⟩
        ⟨.beginTimestamp, d :: rest, entry, 0, capacity, text⟩ := by
  by_cases hne : tag = []
  · subst hne
    exact ⟨1, Nat.le_add_left .., .next (body_digit entry 0 capacity hd rest text) (.done _)⟩
  · have hfield : tagField tag = ascii "Tag=" ++ (tag ++ ascii ",") := if_neg hne
    have hfour : (ascii "Tag=").length = 4 := rfl
    have hput := putTag_null ⟨.tag, ','.toUInt8 :: d :: rest, entry, 0, capacity, text⟩ htag 0
    have hcomma : body ⟨.tag, ','.toUInt8 :: d :: rest, entry, 0, capacity, text⟩ =
        some (.again ⟨.beginTimestamp, d :: rest, entry, 0, capacity, text⟩) := by
      simp only [body, fgetc, if_true, hput, Option.map_some]
    have hsplit : tagField tag ++ d :: rest =
        ascii "Tag=" ++ (tag ++ ','.toUInt8 :: d :: rest) := by
      rw [hfield, List.append_assoc, List.append_assoc]
      rfl
    refine ⟨tag.length + 1 + 1, ?_, ?_⟩
    · rw [hfield, List.length_append, List.length_append, hfour]
      omega
    · rw [hsplit]
      exact .next (body_tag entry 0 capacity _ text)
        ((skipTag_rounds htag capacity _ text hplain).trans (.next hcomma (.done _)))

theorem run_lineText_null {p q r : ℕ} (htag : entry.tag = none) (hplain : Plain tag)
    (Ts : TimestampText p start) (Ti : TimestampText q interval) (Tm : TimestampText r max)
    (hp : p ≤ 9) (hq : q ≤ 9) (hr : r ≤ 9) (htext : Plain text) (rest : List UInt8) :
    ∃ capacity entry', run body ((lineText tag start interval max text ++ rest).length + 2)
      ⟨.init, lineText tag start interval max text ++ rest, entry, 0, 1024, []⟩ =
        some (none, ⟨.histogram, rest, entry', 0, capacity, text⟩) := by
  obtain ⟨d, ds, hstart, hd⟩ := Ts.head
  obtain ⟨n, hn, hfirst⟩ := skipField_rounds htag hplain hd 1024
    (ds ++ ','.toUInt8 :: (interval ++ ','.toUInt8 :: (max ++ ','.toUInt8 ::
      (text ++ '\n'.toUInt8 :: rest)))) []
  obtain ⟨t₁, t₂, t₃, hstamps⟩ := timestamp_rounds entry 0 1024
    (text ++ '\n'.toUInt8 :: rest) [] Ts Ti Tm hp hq hr
  have hroom : ([] : List UInt8).length ≤ 1024 := Nat.zero_le _
  obtain ⟨capacity, hlast⟩ := histogram_rounds
    { entry with startTimestamp := t₁, interval := t₂, max := t₃ } 0 ('\n'.toUInt8 :: rest)
    htext (by omega) hroom
  have hline : lineText tag start interval max text ++ rest =
      tagField tag ++ (start ++ ','.toUInt8 :: (interval ++ ','.toUInt8 :: (max ++
        ','.toUInt8 :: (text ++ '\n'.toUInt8 :: rest)))) := by
    simp only [lineText, List.append_assoc, List.cons_append, List.nil_append]
  have hsplit : d :: (ds ++ ','.toUInt8 :: (interval ++ ','.toUInt8 :: (max ++ ','.toUInt8 ::
      (text ++ '\n'.toUInt8 :: rest)))) = start ++ ','.toUInt8 :: (interval ++ ','.toUInt8 ::
        (max ++ ','.toUInt8 :: (text ++ '\n'.toUInt8 :: rest))) := by
    rw [hstart]
    rfl
  rw [hsplit] at hfirst
  rw [List.nil_append] at hlast
  refine ⟨capacity, { entry with startTimestamp := t₁, interval := t₂, max := t₃ }, ?_⟩
  rw [hline]
  refine ((hfirst.trans hstamps).trans hlast).run_leave (body_lineEnd ..) ?_
  simp only [List.length_append, List.length_cons]
  omega

end Line

section Decode
variable {z : Zlib} {stack : ℕ → UInt8} {printSeconds : HdrTimespec → List UInt8}
  {entry : HdrLogEntry} {h g : HdrHistogram} {text : List UInt8} {histogram : Option HdrHistogram}

theorem hdrLogRead_loggedLine (L : Loggable z printSeconds entry h)
    (henc : h.hdrLogEncode z = some (.ok text)) (hmax : 0 ≤ h.hdrMax.toInt)
    {r : Int32 × Option HdrHistogram} (hdec : hdrLogDecode z stack text histogram = some r)
    (timestamp interval : Option HdrTimespec) (rest : List UInt8) :
    ∃ t i, hdrLogRead z stack (loggedLine printSeconds entry h.hdrMax text ++ rest) histogram
      timestamp interval = some ⟨r.1, rest, r.2, t, i⟩ := by
  obtain ⟨capacity, read, hrun⟩ := run_lineText_null (show zeroEntry.tag = none from rfl)
    L.plain L.start L.interval (timestampText_max hmax) (by omega) (by omega) (by omega)
    (plain_hdrLogEncode henc) rest
  have hentry : hdrLogReadEntry z stack (loggedLine printSeconds entry h.hdrMax text ++ rest)
      zeroEntry histogram = some ⟨r.1, rest, read, r.2⟩ := by
    rw [hdrLogDecode] at hdec
    cases hcompressed : hdrBase64Decode text (hdrBase64DecodedLen text.length) with
    | error rc =>
        rw [hcompressed] at hdec
        cases hdec
        simp only [hdrLogReadEntry, loggedLine, hrun, hcompressed]
    | ok compressed =>
        rw [hcompressed] at hdec
        simp only [hdrLogReadEntry, loggedLine, hrun, hcompressed]
        exact congrArg (Option.map _) hdec
  exact ⟨_, _, by rw [hdrLogRead, hentry, Option.map_some]⟩

theorem hdrLogRead_nil (z : Zlib) (stack : ℕ → UInt8) (histogram : Option HdrHistogram)
    (timestamp interval : Option HdrTimespec) :
    hdrLogRead z stack [] histogram timestamp interval =
      some ⟨EOF, [], histogram, timestamp, interval⟩ := rfl

end Decode

/-- An entry of the log, whose histogram recorded the samples. -/
structure IntervalLogged (z : Zlib) (printSeconds : HdrTimespec → List UInt8) (h₀ : HdrHistogram)
    (e : HdrLogEntry × HdrHistogram) (rs : List Sample) : Prop where
  loggable : Loggable z printSeconds e.1 e.2
  recorded : h₀.recordAll rs = some e.2
  recordable : ∀ r ∈ rs, h₀.Recordable r.1
  positive : PositiveCounts rs

/-- The samples in the histogram behind a pointer. -/
def Holding (l : BucketLayout) : Option HdrHistogram → List Sample → Prop
  | none, ss => ss = []
  | some h, ss => Aggregates l h ss

/-- A line that is written for an entry, and read into any histogram. -/
structure LineOf (z : Zlib) (stack : ℕ → UInt8) (printSeconds : HdrTimespec → List UInt8)
    (l : BucketLayout) (e : HdrLogEntry × HdrHistogram) (rs : List Sample) (line : List UInt8) :
    Prop where
  ne_nil : line ≠ []
  write : ∀ file, hdrLogWriteEntry z printSeconds file e.1 e.2 = some (0, file ++ line)
  read : ∀ target ss, Holding l target ss → Admissible l (ss ++ rs) → ∀ timestamp interval rest,
    ∃ h t i, hdrLogRead z stack (line ++ rest) target timestamp interval =
      some ⟨0, rest, some h, t, i⟩ ∧ Aggregates l h (ss ++ rs)

section Log
variable {z : Zlib} {stack : ℕ → UInt8} {printSeconds : HdrTimespec → List UInt8}
  {h₀ : HdrHistogram} {l : BucketLayout} {e : HdrLogEntry × HdrHistogram} {rs : List Sample}

theorem IntervalLogged.lineOf (I : IntervalLogged z printSeconds h₀ e rs) (R₀ : Represents h₀ [])
    (fits : sumCounts rs < 2 ^ 63) (Z : z.RoundTrips) (stack : ℕ → UInt8) :
    ∃ line, LineOf z stack printSeconds h₀.toBucketLayout e rs line := by
  obtain ⟨h, hall, R, hl⟩ := R₀.recordAll I.recordable
  obtain rfl : e.2 = h := Option.some.inj (I.recorded.symm.trans hall)
  have A := R.aggregates I.positive fits
  rw [hl] at A
  obtain ⟨text, g, henc, G, hdec⟩ :=
    A.logDecode R₀.accepted ⟨I.recordable, I.positive, fits⟩ Z stack
  refine ⟨loggedLine printSeconds e.1 e.2.hdrMax text, ?_, hdrLogWriteEntry_eq I.loggable henc, ?_⟩
  · rw [loggedLine, lineText]
    simp
  · intro target ss H S timestamp interval rest
    obtain ⟨h', hover, A'⟩ : ∃ h', handOver target (.ok g) = some (0, some h') ∧
        Aggregates h₀.toBucketLayout h' (ss ++ rs) := by
      cases target with
      | none =>
          obtain rfl : ss = [] := H
          exact ⟨g, rfl, G⟩
      | some h =>
          obtain ⟨h', hadd, A'⟩ := Aggregates.add H G R₀.accepted S
          exact ⟨h', by rw [handOver, hadd]; rfl, A'⟩
    obtain ⟨t, i, hread⟩ := hdrLogRead_loggedLine I.loggable henc R.hdrMax_nonneg
      ((hdec target).trans hover) timestamp interval rest
    exact ⟨h', t, i, hread, A'⟩

theorem writeEntries_lineOf {items : List ((HdrLogEntry × HdrHistogram) × List Sample)}
    {lines : List (List UInt8)}
    (E : List.Forall₂ (fun i line => LineOf z stack printSeconds l i.1 i.2 line) items lines)
    (file : List UInt8) : writeEntries z printSeconds file (items.map Prod.fst) =
      some (List.replicate items.length 0, file ++ lines.flatten) := by
  induction E generalizing file with
  | nil =>
      rw [List.flatten_nil, List.append_nil]
      rfl
  | cons hline _ ih =>
      rw [List.map_cons, writeEntries, hline.write, Option.bind_some, ih, Option.map_some,
        List.flatten_cons, List.append_assoc]
      rfl

/-- The run lemma: the histogram that is printed after a line holds the samples up to that line. -/
theorem decoder_rounds {items : List ((HdrLogEntry × HdrHistogram) × List Sample)}
    {lines : List (List UInt8)}
    (E : List.Forall₂ (fun i line => LineOf z stack printSeconds l i.1 i.2 line) items lines)
    {ss : List Sample} (S : Admissible l (ss ++ items.flatMap Prod.snd)) (s : Decoder)
    (hfile : s.file = lines.flatten) (H : Holding l s.histogram ss) :
    ∃ s' hs, Rounds (decoderBody z stack) items.length s s' ∧ s'.file = [] ∧
      s'.printed = s.printed ++ hs ∧ hs.length = items.length ∧
      ∀ k < items.length, ∃ h, hs[k]? = some h ∧
        Aggregates l h (ss ++ (items.take (k + 1)).flatMap Prod.snd) := by
  induction E generalizing ss s with
  | nil => exact ⟨s, [], .done _, hfile, by rw [List.append_nil], rfl, fun k hk => by simp at hk⟩
  | @cons item line items lines hline _ ih =>
      rw [List.flatMap_cons, ← List.append_assoc] at S
      obtain ⟨h, t, i, hread, A⟩ := hline.read s.histogram ss H S.left (some s.timestamp)
        (some s.interval) lines.flatten
      obtain ⟨s', hs, R, hend, hprinted, hlength, htotals⟩ := ih S
        ⟨lines.flatten, some h, t.getD s.timestamp, i.getD s.interval, s.printed ++ [h]⟩ rfl A
      refine ⟨s', h :: hs, .next ?_ R, hend, ?_,
        by rw [List.length_cons, hlength, List.length_cons], ?_⟩
      · rw [decoderBody, hfile, List.flatten_cons, hread, Option.bind_some, if_pos rfl,
          Option.map_some]
      · rw [hprinted, List.append_assoc]
        rfl
      · intro k hk
        cases k with
        | zero => exact ⟨h, rfl, by simpa using A⟩
        | succ k =>
            obtain ⟨h', hh', A'⟩ := htotals k (by rw [List.length_cons] at hk; omega)
            refine ⟨h', hh', ?_⟩
            rwa [List.take_succ_cons, List.flatMap_cons, ← List.append_assoc]

theorem decoderBody_end (s : Decoder) (hfile : s.file = []) :
    decoderBody z stack s = some (.leave (0, s.printed)) := by
  rw [decoderBody, hfile, hdrLogRead_nil, Option.bind_some,
    if_neg (show ¬ EOF = 0 by decide), if_pos rfl]

theorem length_le_lines {items : List ((HdrLogEntry × HdrHistogram) × List Sample)}
    {lines : List (List UInt8)}
    (E : List.Forall₂ (fun i line => LineOf z stack printSeconds l i.1 i.2 line) items lines) :
    items.length ≤ lines.flatten.length := by
  induction E with
  | nil => exact Nat.zero_le _
  | cons hline _ ih =>
      have hpos := List.length_pos_iff.mpr hline.ne_nil
      rw [List.length_cons, List.flatten_cons, List.length_append]
      omega

theorem admissible_take {α : Type} {items : List (α × List Sample)}
    (S : Admissible l (items.flatMap Prod.snd)) (k : ℕ) :
    Admissible l ((items.take k).flatMap Prod.snd) := by
  have hsplit : items.flatMap Prod.snd = (items.take k).flatMap Prod.snd ++
      (items.drop k).flatMap Prod.snd := by
    rw [← List.flatMap_append, List.take_append_drop]
  rw [hsplit] at S
  exact S.left

/-- The program prints one histogram for every line behind the header. -/
theorem decoderMain_lines {items : List ((HdrLogEntry × HdrHistogram) × List Sample)}
    {lines : List (List UInt8)}
    (E : List.Forall₂ (fun i line => LineOf z stack printSeconds l i.1 i.2 line) items lines)
    (S : Admissible l (items.flatMap Prod.snd))
    {scanSeconds : List UInt8 → Option (Option HdrTimespec)} {headerText : List UInt8}
    {reader : HdrLogReader}
    (hread : hdrLogReadHeader scanSeconds hdrLogReaderInit (headerText ++ lines.flatten) =
      some (0, reader, lines.flatten)) (timestamp interval : HdrTimespec) :
    ∃ printed, decoderMain z stack scanSeconds timestamp interval (headerText ++ lines.flatten) =
        some (0, printed) ∧ printed.length = items.length ∧
      ∀ k < items.length, ∃ h, printed[k]? = some h ∧
        Aggregates l h ((items.take (k + 1)).flatMap Prod.snd) := by
  obtain ⟨s, hs, R, hend, hprinted, hlength, htotals⟩ :=
    decoder_rounds E (show Admissible _ ([] ++ _) from S)
      ⟨lines.flatten, none, timestamp, interval, []⟩ rfl rfl
  have hlines := length_le_lines E
  refine ⟨hs, ?_, hlength, htotals⟩
  rw [decoderMain, hread, Option.bind_some]
  dsimp only
  rw [if_neg (by decide), R.run_leave (decoderBody_end s hend) (by omega), hprinted]
  rfl

/-- A log that is written is read to its end, and the histogram that is printed for a line reads
like one that recorded the samples of all intervals up to that line. -/
theorem decoder_runningTotals (Z : z.RoundTrips) (stack : ℕ → UInt8)
    (printSeconds : HdrTimespec → List UInt8)
    (scanSeconds : List UInt8 → Option (Option HdrTimespec)) {userPrefix : Option (List UInt8)}
    {startTime : Option HdrTimespec} {lowest highest : Int64} {figures : Int32}
    (init : hdrInit lowest highest figures = some (.ok h₀))
    (header : ∀ entries,
      HeaderRoundTrips printSeconds scanSeconds userPrefix startTime hdrLogReaderInit entries)
    {items : List ((HdrLogEntry × HdrHistogram) × List Sample)}
    (logged : ∀ i ∈ items, IntervalLogged z printSeconds h₀ i.1 i.2)
    (fits : sumCounts (items.flatMap Prod.snd) < 2 ^ 63) (timestamp interval : HdrTimespec) :
    ∃ headerText file printed,
      hdrLogWriteHeader printSeconds [] userPrefix startTime = some (0, headerText) ∧
      writeEntries z printSeconds headerText (items.map Prod.fst) =
        some (List.replicate items.length 0, file) ∧
      decoderMain z stack scanSeconds timestamp interval file = some (0, printed) ∧
      printed.length = items.length ∧
      ∀ k < items.length, ∃ h d, printed[k]? = some h ∧
        h₀.recordAll ((items.take (k + 1)).flatMap Prod.snd) = some d ∧ SameReports h d := by
  have R₀ := represents_hdrInit init
  have S : Admissible h₀.toBucketLayout (items.flatMap Prod.snd) := by
    refine ⟨fun r hr => ?_, fun r hr => ?_, fits⟩
    · obtain ⟨i, hi, hr⟩ := List.mem_flatMap.mp hr
      exact (logged i hi).recordable r hr
    · obtain ⟨i, hi, hr⟩ := List.mem_flatMap.mp hr
      exact (logged i hi).positive r hr
  obtain ⟨lines, E⟩ : ∃ lines, List.Forall₂
      (fun i line => LineOf z stack printSeconds h₀.toBucketLayout i.1 i.2 line) items lines := by
    clear fits
    induction items with
    | nil => exact ⟨[], .nil⟩
    | cons i items ih =>
        rw [List.flatMap_cons] at S
        obtain ⟨line, hline⟩ := (logged i (by simp)).lineOf R₀ S.left.fits Z stack
        obtain ⟨lines, E⟩ := ih (fun j hj => logged j (List.mem_cons_of_mem _ hj)) S.right
        exact ⟨line :: lines, .cons hline E⟩
  obtain ⟨headerText, reader, hwrite, hread, -⟩ := header lines.flatten
  obtain ⟨hs, hmain, hlength, htotals⟩ := decoderMain_lines E S hread timestamp interval
  refine ⟨headerText, headerText ++ lines.flatten, hs, hwrite, writeEntries_lineOf E _, hmain,
    hlength, fun k hk => ?_⟩
  obtain ⟨h, hh, A⟩ := htotals k hk
  have S' := admissible_take S (k + 1)
  obtain ⟨d, hall, R', hl⟩ := R₀.recordAll S'.recordable
  have A' := R'.aggregates S'.positive S'.fits
  rw [hl] at A'
  exact ⟨h, d, hh, hall, A.sameReports A' R₀.accepted S'⟩

end Log

theorem headerRoundTrips_plain (printSeconds : HdrTimespec → List UInt8)
    (scanSeconds : List UInt8 → Option (Option HdrTimespec)) (reader : HdrLogReader)
    (entries : List UInt8) :
    HeaderRoundTrips printSeconds scanSeconds none none reader entries := by
  have hno : ∀ (α : Type) (P : α → Prop), ∀ x ∈ (none : Option α), P x :=
    fun _ _ x hx => (Option.not_mem_none x hx).elim
  have hfit : NumbersFit scanSeconds [] := ⟨Option.some_ne_none _, Option.some_ne_none _⟩
  have htime : timeText printSeconds none = some [] := rfl
  obtain ⟨reader', hread⟩ := (hdrLogReadHeader_iff scanSeconds (hno _ _) (hno _ _) htime rfl reader
    entries).mpr ⟨(piecesRead_prefixText scanSeconds).mpr (hno _ _), hfit⟩
  exact ⟨_, reader', (hdrLogWriteHeader_iff (hno _ _)).mpr ⟨hno _ _, [], rfl, rfl⟩, hread⟩

theorem decoder_runningTotals_sample : ∃ h, sampleHistogram.recordAll [(77, 3)] = some h ∧
    ∃ headerText file printed,
      hdrLogWriteHeader (fun _ => ascii "5.002") [] none none = some (0, headerText) ∧
      writeEntries storedZlib (fun _ => ascii "5.002") headerText
        [(sampleEntry ⟨5, 2000000⟩ (some (ascii "abc")) 3, h),
          (intervalEntry ⟨5, 2000000⟩ ⟨5, 2000000⟩, h)] = some ([0, 0], file) ∧
      decoderMain storedZlib (fun _ => 0) (fun _ => some none) ⟨0, 0⟩ ⟨0, 0⟩ file =
        some (0, printed) ∧ printed.length = 2 := by
  have hrecordable : ∀ r ∈ [((77 : Int64), (3 : Int64))], sampleHistogram.Recordable r.1 := by
    rw [List.forall_mem_singleton]
    decide
  obtain ⟨h, hall, -⟩ := (represents_hdrInit sampleHistogram_init).recordAll hrecordable
  have P : PositiveCounts [(77, 3)] := by
    rw [PositiveCounts, List.forall_mem_singleton]
    decide
  have htagged : Loggable storedZlib (fun _ => ascii "5.002")
      (sampleEntry ⟨5, 2000000⟩ (some (ascii "abc")) 3) h :=
    sampleHistogram_loggable hall (fun _ => by decide) (List.forall_iff_forall_mem.mp (by decide))
      (by decide) (by decide)
  have hplain : Loggable storedZlib (fun _ => ascii "5.002")
      (intervalEntry ⟨5, 2000000⟩ ⟨5, 2000000⟩) h :=
    sampleHistogram_loggable hall (fun htag => absurd rfl htag.1)
      (List.forall_iff_forall_mem.mp (by decide)) (by decide) (by decide)
  have hlogged : ∀ i ∈ [((sampleEntry ⟨5, 2000000⟩ (some (ascii "abc")) 3, h),
        [((77 : Int64), (3 : Int64))]),
      ((intervalEntry ⟨5, 2000000⟩ ⟨5, 2000000⟩, h), [(77, 3)])],
      IntervalLogged storedZlib (fun _ => ascii "5.002") sampleHistogram i.1 i.2 :=
    List.forall_mem_cons.mpr ⟨⟨htagged, hall, hrecordable, P⟩,
      List.forall_mem_singleton.mpr ⟨hplain, hall, hrecordable, P⟩⟩
  obtain ⟨headerText, file, printed, hwrite, hentries, hmain, hprinted, -⟩ :=
    decoder_runningTotals storedZlib_roundTrips (fun _ => 0) (fun _ => ascii "5.002")
      (fun _ => some none) sampleHistogram_init (headerRoundTrips_plain _ _ _) hlogged
      (show sumCounts [((77 : Int64), (3 : Int64)), (77, 3)] < 2 ^ 63 by decide) ⟨0, 0⟩ ⟨0, 0⟩
  exact ⟨h, hall, headerText, file, printed, hwrite, hentries, hmain, hprinted⟩

end HdrHistogramC
