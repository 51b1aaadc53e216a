import HdrHistogramC.Calendar
import HdrHistogramC.LogEntries

/-!
# The header of a log

`hdr_log_write_header` and `hdr_log_read_header`, with the functions of the standard library that
they call, in the C locale. The outer `none` stands for undefined behaviour: a number that does not
fit the integer it is converted to, or a date that was never set.
-/
namespace HdrHistogramC
open BoundedLoop

def HDR_LOG_INVALID_VERSION : Int32 := -29993

/-- The fields that are printed. -/
structure Tm where
  tmSec : Fin 60
  tmMin : Fin 60
  tmHour : Fin 24
  tmMon : Fin 12
  tmYear : Int32
  tmWday : Fin 7
deriving Repr, DecidableEq

/-- Fails when the years since 1900 do not fit an `int`. -/
def gmtimeR (tvSec : Int64) : Option Tm :=
  let day := tvSec.toInt / 86400 + Calendar.daysBefore 1970
  let seconds := (tvSec.toInt % 86400).toNat
  (Checked.int32 (Calendar.yearOf day - 1900)).map fun tmYear =>
    { tmSec := Fin.ofNat 60 seconds
      tmMin := Fin.ofNat 60 (seconds / 60)
      tmHour := Fin.ofNat 24 (seconds / 3600)
      tmMon := ⟨Calendar.monthOf day, Calendar.monthOf_lt day⟩
      tmYear := tmYear
      tmWday := ⟨Calendar.weekdayOf day, Calendar.weekdayOf_lt day⟩ }

def dayNames : Vector (List UInt8) 7 :=
  #v[ascii "Sun", ascii "Mon", ascii "Tue", ascii "Wed", ascii "Thu", ascii "Fri", ascii "Sat"]

def monthNames : Vector (List UInt8) 12 :=
  #v[ascii "Jan", ascii "Feb", ascii "Mar", ascii "Apr", ascii "May", ascii "Jun", ascii "Jul",
    ascii "Aug", ascii "Sep", ascii "Oct", ascii "Nov", ascii "Dec"]

def twoDigits (n : ℕ) : List UInt8 := [Decimal.character (n / 10 % 10), Decimal.character (n % 10)]

def signedText (n : ℤ) : List UInt8 :=
  (if n < 0 then ascii "-" else []) ++ Decimal.text n.natAbs

/-- The format `%a %b %X %Z %Y`. The array has room for `max` characters, of which the last is the
zero; it is left undefined when the text is longer. -/
def strftime (max : ℕ) (tm : Tm) : Option (List UInt8) :=
  let time := twoDigits tm.tmHour ++ ascii ":" ++ twoDigits tm.tmMin ++ ascii ":" ++
    twoDigits tm.tmSec
  let text := dayNames[tm.tmWday] ++ ascii " " ++ monthNames[tm.tmMon] ++ ascii " " ++ time ++
    ascii " GMT " ++ signedText (tm.tmYear.toInt + 1900)
  if text.length < max then some text else none

def LOG_VERSION : List UInt8 := ascii "1.2"

def prefixLine (userPrefix : List UInt8) : List UInt8 := ascii "#[" ++ userPrefix ++ ascii "]\n"

def versionLine (version : List UInt8) : List UInt8 :=
  ascii "#[Histogram log format version " ++ version ++ ascii "]\n"

def timeLine (seconds timeStr : List UInt8) : List UInt8 :=
  ascii "#[StartTime: " ++ seconds ++ ascii " (seconds since epoch), " ++ timeStr ++ ascii "]\n"

def titleLine : List UInt8 := ascii
  "\"StartTimestamp\",\"EndTimestamp\",\"Interval_Max\",\"Interval_Compressed_Histogram\"\n"

/-- The characters of a string are those before its end. -/
def printUserPrefix (file : List UInt8) : Option (List UInt8) → Int32 × List UInt8
  | none => (0, file)
  | some userPrefix => fprintf file (prefixLine userPrefix)

def printVersion (file version : List UInt8) : Int32 × List UInt8 :=
  fprintf file (versionLine version)

def printHeader (file : List UInt8) : Int32 × List UInt8 := fprintf file titleLine

section Write
variable (printSeconds : HdrTimespec → List UInt8)

/-- The result of `gmtime_r` is not looked at. -/
def printTime (file : List UInt8) : Option HdrTimespec → Option (Int32 × List UInt8)
  | none => some (0, file)
  | some timestamp =>
      ((gmtimeR timestamp.tvSec).bind (strftime 128)).map fun timeStr =>
        fprintf file (timeLine (printSeconds timestamp) timeStr)

def hdrLogWriteHeader (file : List UInt8) (userPrefix : Option (List UInt8))
    (timestamp : Option HdrTimespec) : Option (Int32 × List UInt8) :=
  let (printed, file) := printUserPrefix file userPrefix
  if printed < 0 then some (Prod.mk EIO file)
  else
    let (printed, file) := printVersion file LOG_VERSION
    if printed < 0 then some (Prod.mk EIO file)
    else
      (printTime printSeconds file timestamp).map fun (printed, file) =>
        if printed < 0 then Prod.mk EIO file
        else
          let (printed, file) := printHeader file
          (if printed < 0 then EIO else 0, file)

end Write

structure HdrLogReader where
  majorVersion : Int32
  minorVersion : Int32
  startTimestamp : HdrTimespec
deriving Repr, DecidableEq

/-- The characters up to the end of the line, but at most `n`, and the rest of the file. -/
def readLine : ℕ → List UInt8 → List UInt8 × List UInt8
  | 0, file => ([], file)
  | _, [] => ([], [])
  | n + 1, c :: file =>
      if c = '\n'.toUInt8 then ([c], file)
      else
        let (line, file) := readLine n file
        (c :: line, file)

/-- `none` is the null pointer. One character of the array is for the zero at the end. -/
def fgets (size : ℕ) (file : List UInt8) : Option (List UInt8 × List UInt8) :=
  if file = [] then none else some (readLine (size - 1) file)

def IsSpace (c : UInt8) : Prop := c = 32 ∨ (9 ≤ c ∧ c ≤ 13)

instance (c : UInt8) : Decidable (IsSpace c) := inferInstanceAs (Decidable (_ ∨ _))

/-- The characters of a format that are no conversion: white space stands for any amount of it, and
other characters for themselves. The result is the rest of the text. -/
def scanLiteral : List UInt8 → List UInt8 → Option (List UInt8)
  | [], text => some text
  | f :: format, text =>
      if IsSpace f then scanLiteral format (text.dropWhile IsSpace)
      else
        match text with
        | [] => none
        | c :: text => if c = f then scanLiteral format text else none

/-- The conversion `%d`: an integer, and the rest of the text. -/
def scanInteger (text : List UInt8) : Option (ℤ × List UInt8) :=
  let text := text.dropWhile IsSpace
  let negative := text.head? = some '-'.toUInt8
  let digits := if negative ∨ text.head? = some '+'.toUInt8 then text.tail else text
  let value := Decimal.value 0 (digits.takeWhile Decimal.IsDigit)
  if digits.takeWhile Decimal.IsDigit = [] then none
  else some (if negative then -value else value, digits.dropWhile Decimal.IsDigit)

/-- `sscanf` with the format `#[Histogram log format version %d.%d]`: the numbers that are stored,
in order. -/
def scanVersion (line : List UInt8) : Option (List Int32) :=
  match (scanLiteral (ascii "#[Histogram log format version ") line).bind scanInteger with
  | none => some []
  | some (major, text) =>
      (Checked.int32 major).bind fun majorVersion =>
        match (scanLiteral (ascii ".") text).bind scanInteger with
        | none => some [majorVersion]
        | some (minor, _) =>
            (Checked.int32 minor).map fun minorVersion => [majorVersion, minorVersion]

def HdrLogReader.scanLogFormat (reader : HdrLogReader) (line : List UInt8) : Option HdrLogReader :=
  (scanVersion line).map fun numbers =>
    { reader with
      majorVersion := numbers[0]?.getD reader.majorVersion
      minorVersion := numbers[1]?.getD reader.minorVersion }

section Read
variable (scanSeconds : List UInt8 → Option (Option HdrTimespec))

/-- The timestamp that is stored after `sscanf` with the format `#[StartTime: %lf [^\n]`, if any.
The parameter reads a number and makes a timestamp of it, which has an `int` number of seconds. -/
def scanTime (line : List UInt8) : Option (Option HdrTimespec) :=
  match scanLiteral (ascii "#[StartTime: ") line with
  | none => some none
  | some text => scanSeconds text

def HdrLogReader.scanStartTime (reader : HdrLogReader) (line : List UInt8) : Option HdrLogReader :=
  (scanTime scanSeconds line).map fun timestamp =>
    { reader with startTimestamp := timestamp.getD reader.startTimestamp }

def HdrLogReader.scanHeaderLine (reader : HdrLogReader) (line : List UInt8) : Option HdrLogReader :=
  (reader.scanLogFormat line).bind fun reader => reader.scanStartTime scanSeconds line

def HdrLogReader.ValidateLogVersion (reader : HdrLogReader) : Prop :=
  reader.majorVersion = 1 ∧
    (reader.minorVersion = 0 ∨ reader.minorVersion = 1 ∨ reader.minorVersion = 2 ∨
      reader.minorVersion = 3)

instance (reader : HdrLogReader) : Decidable reader.ValidateLogVersion :=
  inferInstanceAs (Decidable (_ ∧ _))

def HEADER_LINE_LENGTH : ℕ := 128

/-- One round of the loop, on the reader and the file: the next character is looked at and put
back. Leaving, it tells whether the function returns at once. -/
def headerBody : HdrLogReader × List UInt8 →
    Option (Round (HdrLogReader × List UInt8) (Option Int32 × HdrLogReader × List UInt8))
  | (reader, file) =>
      if file.head? = some '#'.toUInt8 then
        match fgets HEADER_LINE_LENGTH file with
        | none => some (.leave (some EIO, reader, file))
        | some (line, file) =>
            (reader.scanHeaderLine scanSeconds line).map fun reader => .again (reader, file)
      else if file.head? = some '"'.toUInt8 then
        match fgets HEADER_LINE_LENGTH file with
        | none => some (.leave (some EIO, reader, file))
        | some (_, file) => some (.leave (none, reader, file))
      else some (.leave (none, reader, file))

/-- Every round but the last reads a character. -/
def hdrLogReadHeader (reader : HdrLogReader) (file : List UInt8) :
    Option (Int32 × HdrLogReader × List UInt8) :=
  (run (headerBody scanSeconds) (file.length + 1) (reader, file)).map fun
    | (some result, reader, file) => (result, reader, file)
    | (none, reader, file) =>
        (if reader.ValidateLogVersion then 0 else HDR_LOG_INVALID_VERSION, reader, file)

end Read

end HdrHistogramC
