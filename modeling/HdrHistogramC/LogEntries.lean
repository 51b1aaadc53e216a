import HdrHistogramC.BoundedLoop
import HdrHistogramC.BufferWriting
import HdrHistogramC.CheckedArithmetic
import HdrHistogramC.Decimal
import HdrHistogramC.Extremes
import HdrHistogramC.LogCodec

/-!
# Entries of a log

`hdr_log_write_entry` and `hdr_log_read_entry`. A file that is written is the list of its
characters, and a file that is read is the list of those still to come. The outer `none` is an
access outside an array, or an overflow of a signed integer.
-/
namespace HdrHistogramC
open BoundedLoop BufferWriting

def EOF : Int32 := -1
def EIO : Int32 := 5

structure HdrTimespec where
  tvSec : Int64
  tvNsec : Int64
deriving Repr, DecidableEq

/-- The tag is the array that the pointer leads to. -/
structure HdrLogEntry where
  startTimestamp : HdrTimespec
  interval : HdrTimespec
  max : HdrTimespec
  tag : Option (List UInt8)
  tagLen : UInt64
deriving Repr, DecidableEq

def ascii (s : String) : List UInt8 := s.toList.map Char.toUInt8

/-- The conversion `%.*s`: the string up to its end, and no more than `precision` characters
unless that is negative. A string that does not end in its array has no result. -/
def printfString (precision : Int32) (s : List UInt8) : Option (List UInt8) :=
  let printed := s.takeWhile (· ≠ 0)
  if 0 ≤ precision ∧ precision.toInt.toNat ≤ printed.length then
    some (printed.take precision.toInt.toNat)
  else if printed.length < s.length then some printed
  else none

/-- The number of characters is an `int`; longer lines fail. -/
def fprintf (file line : List UInt8) : Int32 × List UInt8 :=
  if line.length < 2 ^ 31 then (Int32.ofNat line.length, file ++ line) else (-1, file)

theorem fprintf_eq {line : List UInt8} (hfits : line.length < 2 ^ 31) (file : List UInt8) :
    ∃ printed, fprintf file line = (printed, file ++ line) ∧ ¬ printed < 0 := by
  refine ⟨Int32.ofNat line.length, if_pos hfits, ?_⟩
  rw [Int32.lt_iff_toInt_lt, Int32.toInt_ofNat_of_lt hfits, Int32.toInt_zero]
  omega

theorem fprintf_long {line : List UInt8} (hlong : 2 ^ 31 ≤ line.length) (file : List UInt8) :
    fprintf file line = (-1, file) :=
  if_neg (Nat.not_lt.mpr hlong)

def HdrLogEntry.HasTag (entry : HdrLogEntry) : Prop := entry.tag ≠ none ∧ 0 < entry.tagLen

instance (entry : HdrLogEntry) : Decidable entry.HasTag := inferInstanceAs (Decidable (_ ∧ _))

section Write
variable (z : Zlib) (printSeconds : HdrTimespec → List UInt8)

/-- What is printed with the format `%s%.*s%s%.3f,%.3f,%lu.0,%s` and a line end. The parameter
prints a timestamp, as a number of seconds, with `%.3f`. -/
def entryLine (entry : HdrLogEntry) (max : Int64) (encodedHistogram : List UInt8) :
    Option (List UInt8) :=
  let tagPrefix := if entry.HasTag then ascii "Tag=" else []
  let tagValue := if entry.HasTag then entry.tag.getD [] else [0]
  let tagSeparator := if entry.HasTag then ascii "," else []
  (printfString entry.tagLen.toUInt32.toInt32 tagValue).map fun tag =>
    tagPrefix ++ tag ++ tagSeparator ++ printSeconds entry.startTimestamp ++ ascii "," ++
      printSeconds entry.interval ++ ascii "," ++ Decimal.text max.toUInt64.toNat ++ ascii ".0," ++
        encodedHistogram ++ ascii "\n"

def hdrLogWriteEntry (file : List UInt8) (entry : HdrLogEntry) (h : HdrHistogram) :
    Option (Int32 × List UInt8) :=
  match h.hdrEncodeCompressed z with
  | none => none
  | some (.error rc) => some (rc, file)
  | some (.ok compressed) =>
      match hdrBase64Encode compressed (hdrBase64EncodedLen compressed.length) with
      | .error rc => some (rc, file)
      | .ok encoded =>
          (entryLine printSeconds entry h.hdrMax encoded).map fun line =>
            let (printed, file) := fprintf file line
            (if printed < 0 then EIO else 0, file)

end Write

/-- `none` is the end of the file. -/
def fgetc : List UInt8 → Option UInt8 × List UInt8
  | [] => (none, [])
  | c :: file => (some c, file)

def readAhead (file : List UInt8) : List UInt8 → Bool × List UInt8
  | [] => (true, file)
  | p :: ps =>
      let (c, file) := fgetc file
      if c = some p then readAhead file ps else (false, file)

/-- `n * 10 + (c - '0')` -/
def appendDigit (n : Int64) (c : UInt8) : Option Int64 :=
  (Checked.mul64 n 10).bind fun n => Checked.add64 n (Int64.ofNat (Decimal.digit c))

/-- The loop of `read_ahead_timestamp` with its locals. -/
def timestampLoop (expectedTerminator : UInt8) (timestamp : HdrTimespec) (isSeconds : Bool)
    (sec nsec nsecMultipler : Int64) : List UInt8 → Option (Bool × HdrTimespec × List UInt8)
  | [] => some (false, timestamp, [])
  | c :: file =>
      if expectedTerminator = c then
        (Checked.mul64 nsec nsecMultipler).map fun tvNsec => (true, ⟨sec, tvNsec⟩, file)
      else if '.'.toUInt8 = c then
        timestampLoop expectedTerminator timestamp false sec nsec nsecMultipler file
      else if Decimal.IsDigit c then
        if isSeconds then
          (appendDigit sec c).bind fun sec =>
            timestampLoop expectedTerminator timestamp isSeconds sec nsec nsecMultipler file
        else
          (appendDigit nsec c).bind fun nsec =>
            timestampLoop expectedTerminator timestamp isSeconds sec nsec (nsecMultipler / 10) file
      else some (false, timestamp, file)

def readAheadTimestamp (file : List UInt8) (timestamp : HdrTimespec) (expectedTerminator : UInt8) :
    Option (Bool × HdrTimespec × List UInt8) :=
  timestampLoop expectedTerminator timestamp true 0 0 1000000000 file

/-- The state `DONE` leaves the loop. -/
inductive ParseLogState where
  | init | tag | beginTimestamp | interval | max | histogram
deriving Repr, DecidableEq

/-- The locals of the loop, with the file and the entry. The array of base 64 text has room for
`capacity` characters; those written so far are listed. -/
structure EntryParse where
  state : ParseLogState
  file : List UInt8
  entry : HdrLogEntry
  tagOffset : ℕ
  capacity : ℕ
  base64Histogram : List UInt8
deriving Repr, DecidableEq

namespace EntryParse

/-- Leaving with an error. -/
def fail (s : EntryParse) (file : List UInt8) (result : Int32) :
    Option (Round EntryParse (Option Int32 × EntryParse)) :=
  some (.leave (some result, { s with file := file }))

/-- `entry->tag[tag_offset] = c`, where the tag has room for it. -/
def putTag (s : EntryParse) (c : UInt8) : Option HdrLogEntry :=
  match s.entry.tag with
  | none => some s.entry
  | some tag =>
      if s.tagOffset < s.entry.tagLen.toNat then
        (put tag s.tagOffset [c]).map fun tag => { s.entry with tag := some tag }
      else some s.entry

/-- A timestamp and a comma, and on to the next state. -/
def stepTimestamp (s : EntryParse) (timestamp : HdrTimespec)
    (assign : HdrTimespec → HdrLogEntry) (next : ParseLogState) :
    Option (Round EntryParse (Option Int32 × EntryParse)) :=
  match readAheadTimestamp s.file timestamp ','.toUInt8 with
  | none => none
  | some (true, timestamp, file) =>
      some (.again { s with state := next, file := file, entry := assign timestamp })
  | some (false, _, file) => s.fail file (-EINVAL)

/-- `realloc` doubles the array when it is full. -/
def putHistogram (s : EntryParse) (file : List UInt8) (c : UInt8) : Option EntryParse :=
  let capacity := if s.base64Histogram.length = s.capacity then s.capacity * 2 else s.capacity
  if s.base64Histogram.length < capacity then
    some { s with
      file := file
      capacity := capacity
      base64Histogram := s.base64Histogram ++ [c] }
  else none

/-- One round of the loop. -/
def body (s : EntryParse) : Option (Round EntryParse (Option Int32 × EntryParse)) :=
  match s.state with
  | .init =>
      match fgetc s.file with
      | (none, file) => s.fail file EOF
      | (some c, file) =>
          if 'T'.toUInt8 = c then
            match readAhead file (ascii "ag=") with
            | (true, file) => some (.again { s with state := .tag, file := file })
            | (false, file) => s.fail file (-EINVAL)
          else if Decimal.IsDigit c then
            some (.again { s with state := .beginTimestamp, file := c :: file })
          else if '\r'.toUInt8 = c ∨ '\n'.toUInt8 = c then
            some (.again { s with file := file })
          else s.fail file (-EINVAL)
  | .tag =>
      match fgetc s.file with
      | (none, file) => s.fail file (-EINVAL)
      | (some c, file) =>
          if ','.toUInt8 = c then
            (s.putTag 0).map fun entry =>
              .again { s with state := .beginTimestamp, file := file, entry := entry }
          else if '\r'.toUInt8 = c ∨ '\n'.toUInt8 = c then s.fail file (-EINVAL)
          else
            (s.putTag c).map fun entry =>
              let stored := s.entry.tag ≠ none ∧ s.tagOffset < s.entry.tagLen.toNat
              .again { s with
                file := file
                entry := entry
                tagOffset := if stored then s.tagOffset + 1 else s.tagOffset }
  | .beginTimestamp =>
      s.stepTimestamp s.entry.startTimestamp (fun t => { s.entry with startTimestamp := t })
        .interval
  | .interval =>
      s.stepTimestamp s.entry.interval (fun t => { s.entry with interval := t }) .max
  | .max => s.stepTimestamp s.entry.max (fun t => { s.entry with max := t }) .histogram
  | .histogram =>
      match fgetc s.file with
      | (none, file) => some (.leave (none, { s with file := file }))
      | (some c, file) =>
          if c ≠ '\r'.toUInt8 ∧ c ≠ '\n'.toUInt8 then (s.putHistogram file c).map .again
          else some (.leave (none, { s with file := file }))

end EntryParse

/-- The result, the rest of the file, and what the pointers lead to. -/
structure EntryResult where
  result : Int32
  file : List UInt8
  entry : HdrLogEntry
  histogram : Option HdrHistogram
deriving Repr, DecidableEq

/-- Every round but two reads a character: the first digit is put back, and the text may end at
the end of the file. -/
def hdrLogReadEntry (z : Zlib) (stack : ℕ → UInt8) (file : List UInt8) (entry : HdrLogEntry)
    (histogram : Option HdrHistogram) : Option EntryResult :=
  match run EntryParse.body (file.length + 2) ⟨.init, file, entry, 0, 1024, []⟩ with
  | none => none
  | some (some result, s) => some ⟨result, s.file, s.entry, histogram⟩
  | some (none, s) =>
      match hdrBase64Decode s.base64Histogram (hdrBase64DecodedLen s.base64Histogram.length) with
      | .error result => some ⟨result, s.file, s.entry, histogram⟩
      | .ok compressedHistogram =>
          (hdrDecodeCompressed z stack compressedHistogram histogram).map fun r =>
            ⟨r.1, s.file, s.entry, r.2⟩

end HdrHistogramC
