import HdrHistogramC.HeaderReading

/-!
# The round trip of a header

The lines that the writer prints are short, all but the first: it holds the prefix of the user,
which may have any length.
-/
namespace HdrHistogramC
open BoundedLoop Decimal

/-- What `%.3f` prints for a number of seconds: the whole seconds have nineteen digits at most. -/
def SecondsText (cs : List UInt8) : Prop :=
  ∃ sign ds fs, cs = sign ++ (ds ++ '.'.toUInt8 :: fs) ∧ (sign = [] ∨ sign = ['-'.toUInt8]) ∧
    (∀ c ∈ ds, IsDigit c) ∧ ds.length ≤ 19 ∧ (∀ c ∈ fs, IsDigit c) ∧ fs.length = 3

/-- The date in the header. -/
def dateText (ts : HdrTimespec) : Option (List UInt8) := (gmtimeR ts.tvSec).bind (strftime 128)

section RoundTrips
variable (printSeconds : HdrTimespec → List UInt8)
  (scanSeconds : List UInt8 → Option (Option HdrTimespec)) (userPrefix : Option (List UInt8))
  (timestamp : Option HdrTimespec)

/-- The header is read back as version 1.2, up to the entries behind it. -/
def HeaderRoundTrips (reader : HdrLogReader) (entries : List UInt8) : Prop :=
  ∃ header reader', hdrLogWriteHeader printSeconds [] userPrefix timestamp = some (0, header) ∧
    hdrLogReadHeader scanSeconds reader (header ++ entries) = some (0, reader', entries) ∧
    reader'.majorVersion = 1 ∧ reader'.minorVersion = 2

end RoundTrips

section Texts
variable {cs seconds date : List UInt8} {ts : HdrTimespec}

theorem lineEnd_notMem_digits (hcs : ∀ c ∈ cs, IsDigit c) : '\n'.toUInt8 ∉ cs :=
  fun h => absurd (hcs _ h) (by decide)

theorem SecondsText.plain (S : SecondsText cs) : cs.length ≤ 24 ∧ '\n'.toUInt8 ∉ cs := by
  obtain ⟨sign, ds, fs, rfl, hsign, hds, hlen, hfs, hthree⟩ := S
  have hminus : sign.length ≤ 1 ∧ '\n'.toUInt8 ∉ sign := by
    rcases hsign with rfl | rfl <;> decide
  have hpoint : '\n'.toUInt8 ≠ '.'.toUInt8 := by decide
  constructor
  · rw [List.length_append, List.length_append, List.length_cons]
    omega
  · simp only [List.mem_append, List.mem_cons, not_or]
    exact ⟨hminus.2, lineEnd_notMem_digits hds, hpoint, lineEnd_notMem_digits hfs⟩

theorem dayNames_plain : ∀ i : Fin 7, dayNames[i].length = 3 ∧ '\n'.toUInt8 ∉ dayNames[i] := by
  decide

theorem monthNames_plain :
    ∀ i : Fin 12, monthNames[i].length = 3 ∧ '\n'.toUInt8 ∉ monthNames[i] := by
  decide

theorem twoDigits_plain (n : ℕ) : (twoDigits n).length = 2 ∧ '\n'.toUInt8 ∉ twoDigits n := by
  refine ⟨rfl, lineEnd_notMem_digits fun c hc => ?_⟩
  rw [twoDigits, List.mem_cons, List.mem_singleton] at hc
  rcases hc with rfl | rfl
  · exact (character_digit (Nat.mod_lt _ (by omega))).1
  · exact (character_digit (Nat.mod_lt _ (by omega))).1

theorem signedText_plain {n : ℤ} (hn : n.natAbs < 10 ^ 10) :
    (signedText n).length ≤ 11 ∧ '\n'.toUInt8 ∉ signedText n := by
  have hlength := text_length_le (by omega) hn
  have hdigits := lineEnd_notMem_digits (text_isDigit n.natAbs)
  have hsign : (if n < 0 then ascii "-" else []).length ≤ 1 ∧
      '\n'.toUInt8 ∉ (if n < 0 then ascii "-" else []) := by
    split_ifs <;> decide
  rw [signedText, List.length_append, List.mem_append]
  exact ⟨by omega, not_or.mpr ⟨hsign.2, hdigits⟩⟩

theorem strftime_eq (tm : Tm) :
    ∃ text, strftime 128 tm = some text ∧ text.length ≤ 32 ∧ '\n'.toUInt8 ∉ text := by
  obtain ⟨hday, hday'⟩ := dayNames_plain tm.tmWday
  obtain ⟨hmonth, hmonth'⟩ := monthNames_plain tm.tmMon
  have hyear : (tm.tmYear.toInt + 1900).natAbs < 10 ^ 10 := by
    have hlt := tm.tmYear.toInt_lt
    have hle := tm.tmYear.le_toInt
    omega
  obtain ⟨hsigned, hsigned'⟩ := signedText_plain hyear
  have htwo := fun n => (twoDigits_plain n).1
  have htwo' := fun n => (twoDigits_plain n).2
  have hcolon : (ascii ":").length = 1 ∧ '\n'.toUInt8 ∉ ascii ":" := by decide
  have hblank : (ascii " ").length = 1 ∧ '\n'.toUInt8 ∉ ascii " " := by decide
  have hzone : (ascii " GMT ").length = 5 ∧ '\n'.toUInt8 ∉ ascii " GMT " := by decide
  obtain ⟨text, htext⟩ : ∃ text, text = dayNames[tm.tmWday] ++ ascii " " ++ monthNames[tm.tmMon] ++
      ascii " " ++ (twoDigits tm.tmHour ++ ascii ":" ++ twoDigits tm.tmMin ++ ascii ":" ++
        twoDigits tm.tmSec) ++ ascii " GMT " ++ signedText (tm.tmYear.toInt + 1900) := ⟨_, rfl⟩
  have hlength : text.length ≤ 32 := by
    simp only [htext, List.length_append, hday, hmonth, htwo, hcolon.1, hblank.1, hzone.1]
    omega
  refine ⟨text, ?_, hlength, ?_⟩
  · unfold strftime
    dsimp only
    rw [← htext, if_pos (by omega)]
  · simp only [htext, List.mem_append, not_or]
    exact ⟨⟨⟨⟨⟨⟨hday', hblank.2⟩, hmonth'⟩, hblank.2⟩,
      ⟨⟨⟨htwo' _, hcolon.2⟩, htwo' _⟩, hcolon.2⟩, htwo' _⟩, hzone.2⟩, hsigned'⟩

theorem dateText_cases (ts : HdrTimespec) :
    ((-67768040609740800 ≤ ts.tvSec.toInt ∧ ts.tvSec.toInt ≤ 67768036191676799) ∧
      ∃ date, dateText ts = some date ∧ date.length ≤ 32 ∧ '\n'.toUInt8 ∉ date) ∨
    (¬ (-67768040609740800 ≤ ts.tvSec.toInt ∧ ts.tvSec.toInt ≤ 67768036191676799) ∧
      dateText ts = none) := by
  have hfirst : Calendar.daysBefore (1900 - 2 ^ 31) = -784351602710 := by decide
  have hlast : Calendar.daysBefore (1900 + 2 ^ 31) = 784352989899 := by decide
  have hepoch : Calendar.daysBefore 1970 = 719162 := by decide
  have hlow := Calendar.galoisConnection (1900 - 2 ^ 31) (ts.tvSec.toInt / 86400 + 719162)
  have hhigh : Calendar.yearOf (ts.tvSec.toInt / 86400 + 719162) < 1900 + 2 ^ 31 ↔
      ts.tvSec.toInt / 86400 + 719162 < _ := Calendar.yearOf_lt_iff
  rw [hfirst] at hlow
  rw [hlast] at hhigh
  rw [dateText, gmtimeR, hepoch]
  rcases hyear : Checked.int32 (Calendar.yearOf (ts.tvSec.toInt / 86400 + 719162) - 1900) with
    _ | tmYear
  · rw [Checked.int32_eq_none] at hyear
    exact .inr ⟨by omega, rfl⟩
  · have hexact := Checked.int32_eq_some.mp hyear
    have hle := tmYear.le_toInt
    have hlt := tmYear.toInt_lt
    exact .inl ⟨by omega, strftime_eq _⟩

theorem isLine_prefixLine (hcs : '\n'.toUInt8 ∉ cs) : IsLine (prefixLine cs) := by
  have hframe : '\n'.toUInt8 ∉ ascii "#[" ∧ '\n'.toUInt8 ∉ ascii "]" := by decide
  refine ⟨ascii "#[" ++ cs ++ ascii "]", ?_, ?_⟩
  · simp only [List.mem_append, not_or]
    exact ⟨⟨hframe.1, hcs⟩, hframe.2⟩
  · rw [prefixLine, List.append_assoc (ascii "#[" ++ cs)]
    rfl

theorem isLine_timeLine (hseconds : '\n'.toUInt8 ∉ seconds) (hdate : '\n'.toUInt8 ∉ date) :
    IsLine (timeLine seconds date) := by
  have hframe : '\n'.toUInt8 ∉ ascii "#[StartTime: " ∧
      '\n'.toUInt8 ∉ ascii " (seconds since epoch), " ∧ '\n'.toUInt8 ∉ ascii "]" := by decide
  refine ⟨ascii "#[StartTime: " ++ seconds ++ ascii " (seconds since epoch), " ++ date ++ ascii "]",
    ?_, ?_⟩
  · simp only [List.mem_append, not_or]
    exact ⟨⟨⟨⟨hframe.1, hseconds⟩, hframe.2.1⟩, hdate⟩, hframe.2.2⟩
  · rw [timeLine, List.append_assoc (_ ++ date)]
    rfl

theorem timeLine_length (hseconds : seconds.length ≤ 24) (hdate : date.length ≤ 32) :
    (timeLine seconds date).length ≤ 127 := by
  have hframe : (ascii "#[StartTime: ").length = 13 ∧
      (ascii " (seconds since epoch), ").length = 24 ∧ (ascii "]\n").length = 2 := by decide
  simp only [timeLine, List.length_append]
  omega

end Texts

section Lines
variable (scanSeconds : List UInt8 → Option (Option HdrTimespec))
  {date line rest seconds : List UInt8}

theorem headerBody_line (L : IsLine line) (hhead : line.head? = some '#'.toUInt8)
    (hlength : line.length ≤ 127) (reader : HdrLogReader) (rest : List UInt8) :
    headerBody scanSeconds (reader, line ++ rest) =
      (reader.scanHeaderLine scanSeconds line).map fun reader => .again (reader, rest) := by
  rw [headerBody_hash scanSeconds L hhead, List.take_of_length_le hlength,
    List.drop_eq_nil_of_le hlength, List.nil_append]

theorem headerBody_version (reader : HdrLogReader) (rest : List UInt8) :
    headerBody scanSeconds (reader, versionLine LOG_VERSION ++ rest) =
      some (.again ({ reader with majorVersion := 1, minorVersion := 2 }, rest)) := by
  have hline : versionLine LOG_VERSION =
      (versionLine LOG_VERSION).dropLast ++ ['\n'.toUInt8] := by decide
  have L : IsLine (versionLine LOG_VERSION) := ⟨_, by decide, hline⟩
  have hversion : scanVersion (versionLine LOG_VERSION) = some [1, 2] := by decide +kernel
  have htime : scanTime scanSeconds (versionLine LOG_VERSION) = some none := rfl
  rw [headerBody_line scanSeconds L rfl (by decide), HdrLogReader.scanHeaderLine,
    HdrLogReader.scanLogFormat, hversion, Option.map_some, Option.bind_some,
    HdrLogReader.scanStartTime, htime]
  rfl

theorem headerBody_time (L : IsLine (timeLine seconds date))
    (hlength : (timeLine seconds date).length ≤ 127) (reader : HdrLogReader) (rest : List UInt8) :
    (NumbersFit scanSeconds (timeLine seconds date) ∧ ∃ timestamp,
      headerBody scanSeconds (reader, timeLine seconds date ++ rest) =
        some (.again ({ reader with startTimestamp := timestamp }, rest))) ∨
    (¬ NumbersFit scanSeconds (timeLine seconds date) ∧
      headerBody scanSeconds (reader, timeLine seconds date ++ rest) = none) := by
  have hversion : scanVersion (timeLine seconds date) = some [] := rfl
  have hbody := headerBody_line scanSeconds L rfl hlength reader rest
  by_cases hfit : NumbersFit scanSeconds (timeLine seconds date)
  · obtain ⟨timestamp, htimestamp⟩ := Option.ne_none_iff_exists'.mp hfit.2
    refine .inl ⟨hfit, timestamp.getD reader.startTimestamp, ?_⟩
    rw [hbody, HdrLogReader.scanHeaderLine, HdrLogReader.scanLogFormat, hversion, Option.map_some,
      Option.bind_some, HdrLogReader.scanStartTime, htimestamp]
    rfl
  · refine .inr ⟨hfit, ?_⟩
    rw [hbody, scanHeaderLine_none hfit, Option.map_none]

theorem headerBody_title (reader : HdrLogReader) (rest : List UInt8) :
    headerBody scanSeconds (reader, titleLine ++ rest) = some (.leave (none, reader, rest)) := by
  have hline : titleLine = titleLine.dropLast ++ ['\n'.toUInt8] := by decide
  have L : IsLine titleLine := ⟨_, by decide, hline⟩
  have hne : titleLine ++ rest ≠ [] := List.append_ne_nil_of_left_ne_nil L.ne_nil _
  have hhead : (titleLine ++ rest).head? = some '"'.toUInt8 := rfl
  rw [headerBody, hhead, if_neg (by decide), if_pos rfl, fgets, if_neg hne, HEADER_LINE_LENGTH,
    L.readLine]
  rfl

end Lines

def prefixText (userPrefix : Option (List UInt8)) : List UInt8 :=
  (userPrefix.map prefixLine).getD []

/-- The line of the start time, if there is one. The date may not exist. -/
def timeText (printSeconds : HdrTimespec → List UInt8) :
    Option HdrTimespec → Option (List UInt8)
  | none => some []
  | some timestamp => (dateText timestamp).map (timeLine (printSeconds timestamp))

section Header
variable {printSeconds : HdrTimespec → List UInt8}
  {scanSeconds : List UInt8 → Option (Option HdrTimespec)} {userPrefix : Option (List UInt8)}
  {timestamp : Option HdrTimespec} {time header : List UInt8}

theorem printUserPrefix_cases (userPrefix : Option (List UInt8)) :
    ((∀ cs ∈ userPrefix, (prefixLine cs).length < 2 ^ 31) ∧
      ∃ printed, printUserPrefix [] userPrefix = (printed, prefixText userPrefix) ∧
        ¬ printed < 0) ∨
    (¬ (∀ cs ∈ userPrefix, (prefixLine cs).length < 2 ^ 31) ∧
      printUserPrefix [] userPrefix = (-1, [])) := by
  cases userPrefix with
  | none => exact .inl ⟨fun cs hcs => (Option.not_mem_none cs hcs).elim, 0, rfl, by decide⟩
  | some cs =>
      simp only [Option.mem_some_iff, forall_eq']
      rcases Nat.lt_or_ge (prefixLine cs).length (2 ^ 31) with hfits | hlong
      · exact .inl ⟨hfits, fprintf_eq hfits []⟩
      · exact .inr ⟨Nat.not_lt.mpr hlong, fprintf_long hlong []⟩

theorem timeText_some (hseconds : ∀ ts ∈ timestamp, SecondsText (printSeconds ts))
    (htime : timeText printSeconds timestamp = some time) :
    (time = [] ∨ IsLine time) ∧ time.length ≤ 127 := by
  cases timestamp with
  | none =>
      cases htime
      exact ⟨.inl rfl, Nat.zero_le _⟩
  | some ts =>
      obtain ⟨hlength, hplain⟩ := (hseconds ts rfl).plain
      rcases dateText_cases ts with ⟨-, date, hdate, hlength', hplain'⟩ | ⟨-, hdate⟩
      · rw [timeText, hdate, Option.map_some, Option.some.injEq] at htime
        subst htime
        exact ⟨.inr (isLine_timeLine hplain hplain'), timeLine_length hlength hlength'⟩
      · rw [timeText, hdate] at htime
        cases htime

theorem printTime_eq (hseconds : ∀ ts ∈ timestamp, SecondsText (printSeconds ts))
    (file : List UInt8) (htime : timeText printSeconds timestamp = some time) :
    ∃ printed, printTime printSeconds file timestamp = some (printed, file ++ time) ∧
      ¬ printed < 0 := by
  have hfits := (timeText_some hseconds htime).2
  cases timestamp with
  | none =>
      cases htime
      exact ⟨0, by rw [List.append_nil]; rfl, by decide⟩
  | some ts =>
      obtain ⟨date, hdate, rfl⟩ := Option.map_eq_some_iff.mp htime
      have hlength : (timeLine (printSeconds ts) date).length < 2 ^ 31 := by omega
      obtain ⟨printed, hprint, hpos⟩ := fprintf_eq hlength file
      refine ⟨printed, ?_, hpos⟩
      rw [printTime, ← dateText, hdate, Option.map_some, hprint]

theorem printTime_none (htime : timeText printSeconds timestamp = none) (file : List UInt8) :
    printTime printSeconds file timestamp = none := by
  cases timestamp with
  | none => cases htime
  | some ts =>
      rw [timeText, Option.map_eq_none_iff] at htime
      rw [printTime, ← dateText, htime, Option.map_none]

/-- The lines are written when the prefix can be printed and the date exists. -/
theorem hdrLogWriteHeader_iff (hseconds : ∀ ts ∈ timestamp, SecondsText (printSeconds ts)) :
    hdrLogWriteHeader printSeconds [] userPrefix timestamp = some (0, header) ↔
      (∀ cs ∈ userPrefix, (prefixLine cs).length < 2 ^ 31) ∧
        ∃ time, timeText printSeconds timestamp = some time ∧
          header = prefixText userPrefix ++ versionLine LOG_VERSION ++ time ++ titleLine := by
  rcases printUserPrefix_cases userPrefix with ⟨hfits, printed, hprefix, hpos⟩ | ⟨hlong, hprefix⟩
  · have hversionFits : (versionLine LOG_VERSION).length < 2 ^ 31 := by decide
    have htitleFits : titleLine.length < 2 ^ 31 := by decide
    obtain ⟨printed', hversion, hpos'⟩ := fprintf_eq hversionFits (prefixText userPrefix)
    rw [hdrLogWriteHeader, hprefix]
    simp only [if_neg hpos, printVersion, hversion, if_neg hpos']
    cases htime : timeText printSeconds timestamp with
    | none =>
        rw [printTime_none htime, Option.map_none]
        simp only [reduceCtorEq, false_and, exists_false, and_false]
    | some time =>
        obtain ⟨printed, hprint, hpos⟩ := printTime_eq hseconds
          (prefixText userPrefix ++ versionLine LOG_VERSION) htime
        obtain ⟨printed', htitle, hpos'⟩ := fprintf_eq htitleFits
          (prefixText userPrefix ++ versionLine LOG_VERSION ++ time)
        simp only [hprint, Option.map_some, if_neg hpos, printHeader, htitle, if_neg hpos',
          Option.some.injEq, Prod.mk.injEq, true_and, exists_eq_left']
        exact ⟨fun h => ⟨hfits, h.symm⟩, fun h => h.2.symm⟩
  · rw [hdrLogWriteHeader, hprefix]
    refine iff_of_false ?_ fun h => hlong h.1
    simp only [if_pos (show (-1 : Int32) < 0 by decide), Option.some.injEq, Prod.mk.injEq, not_and]
    intro hzero
    cases hzero

variable (scanSeconds)

theorem isLine_prefixText (hplain : ∀ cs ∈ userPrefix, '\n'.toUInt8 ∉ cs) :
    prefixText userPrefix = [] ∨ IsLine (prefixText userPrefix) := by
  cases userPrefix with
  | none => exact .inl rfl
  | some cs => exact .inr (isLine_prefixLine (hplain cs rfl))

theorem piecesRead_prefixText : PiecesRead scanSeconds (prefixText userPrefix) ↔
    ∀ cs ∈ userPrefix, PiecesRead scanSeconds (prefixLine cs) := by
  cases userPrefix with
  | none =>
      exact ⟨fun _ cs hcs => (Option.not_mem_none cs hcs).elim,
        fun _ k hk => absurd hk (Nat.not_lt_zero _)⟩
  | some cs =>
      simp only [Option.mem_some_iff, forall_eq']
      rfl

/-- The line of the start time is skipped over, with the version kept, unless a number in it has no
defined value. -/
theorem timeText_cases (hseconds : ∀ ts ∈ timestamp, SecondsText (printSeconds ts))
    (htime : timeText printSeconds timestamp = some time) (reader : HdrLogReader)
    (rest : List UInt8) :
    (NumbersFit scanSeconds time ∧ ∃ n startTimestamp, n ≤ time.length ∧
      Rounds (headerBody scanSeconds) n (reader, time ++ rest)
        ({ reader with startTimestamp := startTimestamp }, rest)) ∨
    (¬ NumbersFit scanSeconds time ∧ headerBody scanSeconds (reader, time ++ rest) = none) := by
  obtain ⟨-, hlength⟩ := timeText_some hseconds htime
  have L := (timeText_some hseconds htime).1
  cases timestamp with
  | none =>
      cases htime
      exact .inl ⟨⟨Option.some_ne_none _, Option.some_ne_none _⟩, 0, reader.startTimestamp,
        Nat.zero_le _, .done _⟩
  | some ts =>
      obtain ⟨date, hdate, rfl⟩ := Option.map_eq_some_iff.mp htime
      have L : IsLine (timeLine (printSeconds ts) date) := L.resolve_left (List.cons_ne_nil _ _)
      rcases headerBody_time scanSeconds L hlength reader rest with
        ⟨hfit, startTimestamp, hbody⟩ | hunfit
      · exact .inl ⟨hfit, 1, startTimestamp, List.length_pos_iff.mpr L.ne_nil,
          .next hbody (.done _)⟩
      · exact .inr hunfit

/-- A header that was written is read when its first line is, in pieces, and the start time has a
defined value. -/
theorem hdrLogReadHeader_iff (hplain : ∀ cs ∈ userPrefix, '\n'.toUInt8 ∉ cs)
    (hseconds : ∀ ts ∈ timestamp, SecondsText (printSeconds ts))
    (htime : timeText printSeconds timestamp = some time)
    (hheader : header = prefixText userPrefix ++ versionLine LOG_VERSION ++ time ++ titleLine)
    (reader : HdrLogReader) (entries : List UInt8) :
    (∃ reader', hdrLogReadHeader scanSeconds reader (header ++ entries) =
        some (0, reader', entries) ∧ reader'.majorVersion = 1 ∧ reader'.minorVersion = 2) ↔
      PiecesRead scanSeconds (prefixText userPrefix) ∧ NumbersFit scanSeconds time := by
  have hfile : header ++ entries =
      prefixText userPrefix ++ (versionLine LOG_VERSION ++ (time ++ (titleLine ++ entries))) := by
    rw [hheader, List.append_assoc, List.append_assoc, List.append_assoc]
  have hversionLength : 0 < (versionLine LOG_VERSION).length := by decide
  have htitleLength : 0 < titleLine.length := by decide
  have hlength : (header ++ entries).length = (prefixText userPrefix).length +
      (versionLine LOG_VERSION).length + time.length + titleLine.length + entries.length := by
    simp only [hheader, List.length_append]
  rw [hdrLogReadHeader, hlength, hfile]
  rcases pieces_cases scanSeconds (isLine_prefixText hplain) reader
    (versionLine LOG_VERSION ++ (time ++ (titleLine ++ entries))) with
    ⟨P, n, reader₁, hn, R⟩ | ⟨P, hstuck⟩
  · have hversion := headerBody_version scanSeconds reader₁ (time ++ (titleLine ++ entries))
    rcases timeText_cases scanSeconds hseconds htime
      { reader₁ with majorVersion := 1, minorVersion := 2 } (titleLine ++ entries) with
      ⟨hfit, k, startTimestamp, hk, R'⟩ | ⟨hunfit, hnone⟩
    · refine iff_of_true ⟨⟨1, 2, startTimestamp⟩, ?_, rfl, rfl⟩ ⟨P, hfit⟩
      rw [(R.trans (.next hversion R')).run_leave (headerBody_title scanSeconds _ entries)
        (by omega)]
      rfl
    · rw [(R.trans (.next hversion (.done _))).run_none hnone]
      refine iff_of_false ?_ fun h => hunfit h.2
      rintro ⟨reader', hread, -⟩
      cases hread
  · refine iff_of_false ?_ fun h => P h.1
    rintro ⟨reader', hread, -⟩
    obtain ⟨⟨result, reader₂, file⟩, hrun, hresult⟩ := Option.map_eq_some_iff.mp hread
    have hle := hstuck _ _ _ _ hrun
    have hentries : file = entries := by
      cases result <;> exact congrArg (·.2.2) hresult
    rw [hentries, List.length_append, List.length_append, List.length_append] at hle
    omega

theorem timeText_isSome : (∃ time, timeText printSeconds timestamp = some time) ↔
    ∀ ts ∈ timestamp,
      -67768040609740800 ≤ ts.tvSec.toInt ∧ ts.tvSec.toInt ≤ 67768036191676799 := by
  cases timestamp with
  | none => exact iff_of_true ⟨[], rfl⟩ fun ts hts => (Option.not_mem_none ts hts).elim
  | some ts =>
      simp only [timeText, Option.mem_some_iff, forall_eq']
      rcases dateText_cases ts with ⟨hrange, date, hdate, -⟩ | ⟨hrange, hdate⟩
      · rw [hdate]
        exact iff_of_true ⟨_, rfl⟩ hrange
      · rw [hdate]
        exact iff_of_false (by rintro ⟨time, htime⟩; cases htime) hrange

theorem numbersFit_timeText (htime : timeText printSeconds timestamp = some time) :
    NumbersFit scanSeconds time ↔ ∀ ts ∈ timestamp, ∀ date ∈ dateText ts,
      NumbersFit scanSeconds (timeLine (printSeconds ts) date) := by
  cases timestamp with
  | none =>
      cases htime
      exact iff_of_true ⟨Option.some_ne_none _, Option.some_ne_none _⟩
        fun ts hts => (Option.not_mem_none ts hts).elim
  | some ts =>
      obtain ⟨date, hdate, rfl⟩ := Option.map_eq_some_iff.mp htime
      simp only [Option.mem_some_iff, forall_eq', hdate]

/-- The prefix has to fit an `int`, with every piece of its line beginning like a line of the
header, and the date and the numbers have to be defined. -/
theorem header_roundTrips_iff (printSeconds : HdrTimespec → List UInt8)
    (scanSeconds : List UInt8 → Option (Option HdrTimespec))
    (hstring : ∀ cs ∈ userPrefix, '\n'.toUInt8 ∉ cs ∧ 0 ∉ cs)
    (hseconds : ∀ ts ∈ timestamp, SecondsText (printSeconds ts)) (reader : HdrLogReader)
    (entries : List UInt8) :
    HeaderRoundTrips printSeconds scanSeconds userPrefix timestamp reader entries ↔
      (∀ cs ∈ userPrefix, (prefixLine cs).length < 2 ^ 31 ∧
        PiecesRead scanSeconds (prefixLine cs)) ∧
      ∀ ts ∈ timestamp,
        (-67768040609740800 ≤ ts.tvSec.toInt ∧ ts.tvSec.toInt ≤ 67768036191676799) ∧
        ∀ date ∈ dateText ts, NumbersFit scanSeconds (timeLine (printSeconds ts) date) := by
  have hplain : ∀ cs ∈ userPrefix, '\n'.toUInt8 ∉ cs := fun cs hcs => (hstring cs hcs).1
  rw [HeaderRoundTrips, forall₂_and, forall₂_and, ← piecesRead_prefixText scanSeconds]
  simp only [hdrLogWriteHeader_iff hseconds]
  constructor
  · rintro ⟨header, reader', ⟨hfits, time, htime, hheader⟩, hread⟩
    obtain ⟨P, hfit⟩ := (hdrLogReadHeader_iff scanSeconds hplain hseconds htime hheader reader
      entries).mp ⟨reader', hread⟩
    exact ⟨⟨hfits, P⟩, timeText_isSome.mp ⟨time, htime⟩,
      (numbersFit_timeText scanSeconds htime).mp hfit⟩
  · rintro ⟨⟨hfits, P⟩, hrange, hdates⟩
    obtain ⟨time, htime⟩ := timeText_isSome.mpr hrange
    have hfit := (numbersFit_timeText scanSeconds htime).mpr hdates
    obtain ⟨reader', hread⟩ := (hdrLogReadHeader_iff scanSeconds hplain hseconds htime rfl reader
      entries).mpr ⟨P, hfit⟩
    exact ⟨_, reader', ⟨hfits, time, htime, rfl⟩, hread⟩

end Header

theorem header_roundTrips_sample :
    HeaderRoundTrips (fun _ => ascii "1403476110.183")
      (fun _ => some (some ⟨1403476110, 183000000⟩)) (some (ascii "Test log"))
      (some ⟨1403476110, 183000000⟩) ⟨0, 0, ⟨0, 0⟩⟩ (ascii "Tag=abc,") := by
  have hplain : '\n'.toUInt8 ∉ ascii "Test log" ∧ 0 ∉ ascii "Test log" := by decide
  have hlength : (prefixLine (ascii "Test log")).length = 12 := by decide
  have hseconds : SecondsText (ascii "1403476110.183") :=
    ⟨[], ascii "1403476110", ascii "183", rfl, .inl rfl, List.forall_iff_forall_mem.mp (by decide),
      by decide, List.forall_iff_forall_mem.mp (by decide), rfl⟩
  refine (header_roundTrips_iff _ _ ?_ ?_ _ _).mpr ⟨?_, ?_⟩
  · rintro cs ⟨⟩
    exact hplain
  · rintro ts ⟨⟩
    exact hseconds
  · rintro cs ⟨⟩
    refine ⟨by rw [hlength]; decide, fun k hk => ?_⟩
    obtain rfl : k = 0 := by omega
    exact ⟨rfl, by decide, by decide⟩
  · rintro ts ⟨⟩
    exact ⟨by decide, fun date _ => ⟨Option.some_ne_none _, Option.some_ne_none _⟩⟩

/-- The buffer holds the line of the prefix but for its end. What is left of it is taken for the
end of the header, before the version is read. -/
theorem header_splitsPrefix : ∃ header,
    hdrLogWriteHeader (fun _ => ascii "1403476110.183") []
        (some (List.replicate 124 'a'.toUInt8)) (some ⟨1403476110, 183000000⟩) =
      some (0, header) ∧
    hdrLogReadHeader (fun _ => some (some ⟨1403476110, 183000000⟩)) ⟨0, 0, ⟨0, 0⟩⟩
        (header ++ ascii "Tag=abc,") =
      some (HDR_LOG_INVALID_VERSION, ⟨0, 0, ⟨0, 0⟩⟩, header.drop 127 ++ ascii "Tag=abc,") ∧
    ¬ HeaderRoundTrips (fun _ => ascii "1403476110.183")
      (fun _ => some (some ⟨1403476110, 183000000⟩)) (some (List.replicate 124 'a'.toUInt8))
      (some ⟨1403476110, 183000000⟩) ⟨0, 0, ⟨0, 0⟩⟩ (ascii "Tag=abc,") := by
  have hwrite : hdrLogWriteHeader (fun _ => ascii "1403476110.183") []
      (some (List.replicate 124 'a'.toUInt8)) (some ⟨1403476110, 183000000⟩) =
      some (0, prefixLine (List.replicate 124 'a'.toUInt8) ++ versionLine LOG_VERSION ++
        timeLine (ascii "1403476110.183") (ascii "Sun Jun 22:28:30 GMT 2014") ++ titleLine) := by
    decide +kernel
  have hread : hdrLogReadHeader (fun _ => some (some ⟨1403476110, 183000000⟩)) ⟨0, 0, ⟨0, 0⟩⟩
      (prefixLine (List.replicate 124 'a'.toUInt8) ++ versionLine LOG_VERSION ++
        timeLine (ascii "1403476110.183") (ascii "Sun Jun 22:28:30 GMT 2014") ++ titleLine ++
        ascii "Tag=abc,") =
      some (HDR_LOG_INVALID_VERSION, ⟨0, 0, ⟨0, 0⟩⟩, '\n'.toUInt8 :: versionLine LOG_VERSION ++
        timeLine (ascii "1403476110.183") (ascii "Sun Jun 22:28:30 GMT 2014") ++ titleLine ++
        ascii "Tag=abc,") := by
    decide +kernel
  refine ⟨_, hwrite, hread, ?_⟩
  rintro ⟨header, reader', hwrite', hread', -⟩
  rw [hwrite, Option.some.injEq, Prod.mk.injEq] at hwrite'
  rw [← hwrite'.2, hread] at hread'
  cases hread'
end HdrHistogramC
