import HdrHistogramC.Base64Alphabet
import HdrHistogramC.EntryReading
import HdrHistogramC.RoundTrip

/-!
# The round trip of a sequence of entries

The writer prints lines of the form that the reader takes apart, one after the other, and the
histogram of every line is decoded into a new one.
-/
namespace HdrHistogramC
open BoundedLoop BufferWriting Decimal EntryParse LogLinear BucketLayout.Describes

/-- The tag that is logged: none for a null pointer or a length of zero. -/
def HdrLogEntry.loggedTag (entry : HdrLogEntry) : List UInt8 :=
  if entry.HasTag then (entry.tag.getD []).take entry.tagLen.toNat else []

def HdrLogEntry.clearTag (entry : HdrLogEntry) : HdrLogEntry :=
  { entry with tag := entry.tag.map fun tag => tag.set 0 0 }

/-- The buffer for the tag is longer than the tag. -/
structure HdrLogEntry.HasRoom (entry : HdrLogEntry) (tag : List UInt8) : Prop where
  buffer : ∃ buffer, entry.tag = some buffer ∧ entry.tagLen.toNat ≤ buffer.length
  room : tag.length < entry.tagLen.toNat

section Sequences
variable (z : Zlib) (stack : ℕ → UInt8) (printSeconds : HdrTimespec → List UInt8)

/-- The results of the calls that write, and the file after them. -/
def writeEntries (file : List UInt8) :
    List (HdrLogEntry × HdrHistogram) → Option (List Int32 × List UInt8)
  | [] => some ([], file)
  | e :: entries =>
      (hdrLogWriteEntry z printSeconds file e.1 e.2).bind fun r =>
        (writeEntries r.2 entries).map fun rs => (r.1 :: rs.1, rs.2)

/-- Reading a file of `lines` one call after the other gives the entries back, and then the end of
the file. Before each call the tag is cleared, and there is no histogram to merge into. -/
def EntriesReadBack (reader : HdrLogEntry) :
    List (HdrLogEntry × HdrHistogram) → List (List UInt8) → Prop
  | [], [] => ∃ read,
      hdrLogReadEntry z stack [] reader.clearTag none = some ⟨EOF, [], read, none⟩
  | e :: entries, line :: lines => ∃ read g,
      hdrLogReadEntry z stack (line ++ lines.flatten) reader.clearTag none =
        some ⟨0, lines.flatten, read, some g⟩ ∧
      read.tag.map cString = some e.1.loggedTag ∧ Restored e.2 g ∧
      EntriesReadBack read entries lines
  | _, _ => False

/-- Writing appends lines to the file, which are read back. -/
def EntriesRoundTrip (reader : HdrLogEntry) (entries : List (HdrLogEntry × HdrHistogram)) : Prop :=
  ∀ file, ∃ lines, writeEntries z printSeconds file entries =
      some (List.replicate entries.length 0, file ++ lines.flatten) ∧
    EntriesReadBack z stack reader entries lines

end Sequences

/-- The line with the text of a histogram. -/
def loggedLine (printSeconds : HdrTimespec → List UInt8) (entry : HdrLogEntry) (max : Int64)
    (text : List UInt8) : List UInt8 :=
  lineText entry.loggedTag (printSeconds entry.startTimestamp) (printSeconds entry.interval)
    (Decimal.text max.toUInt64.toNat ++ ascii ".0") text

/-- An entry that can be logged, with a histogram that has been recorded into. -/
structure Loggable (z : Zlib) (printSeconds : HdrTimespec → List UInt8) (entry : HdrLogEntry)
    (h : HdrHistogram) : Prop where
  array : entry.HasTag → entry.tagLen.toNat ≤ (entry.tag.getD []).length
  plain : Plain entry.loggedTag
  noZero : (0 : UInt8) ∉ entry.loggedTag
  start : TimestampText 3 (printSeconds entry.startTimestamp)
  interval : TimestampText 3 (printSeconds entry.interval)
  recorded : ∃ lowest highest figures h₀ rs, hdrInit lowest highest figures = some (.ok h₀) ∧
    PositiveCounts rs ∧ h₀.recordAll rs = some h
  nonneg : ∀ c ∈ h.counts, 0 ≤ c
  fits : ∀ text, h.hdrLogEncode z = some (.ok text) →
    (loggedLine printSeconds entry h.hdrMax text).length < 2 ^ 31

section Writing
variable {z : Zlib} {printSeconds : HdrTimespec → List UInt8} {entry : HdrLogEntry}
  {h : HdrHistogram} {text : List UInt8}

theorem printfString_tag {s : List UInt8} {n : ℕ} {precision : Int32}
    (hprecision : precision.toInt = n) (hn : n ≤ s.length) (hzero : (0 : UInt8) ∉ s.take n) :
    printfString precision s = some (s.take n) := by
  have hall : ∀ c ∈ s.take n, decide (c ≠ 0) = true := by
    intro c hc
    rw [decide_eq_true_iff]
    rintro rfl
    exact hzero hc
  have hsplit : s.takeWhile (· ≠ 0) = s.take n ++ (s.drop n).takeWhile (· ≠ 0) := by
    conv_lhs => rw [← List.take_append_drop n s]
    rw [List.takeWhile_append_of_pos hall]
  have hlength : (s.take n).length = n := List.length_take_of_le hn
  have hpos : 0 ≤ precision := by
    rw [Int32.le_iff_toInt_le, hprecision]
    exact Int.natCast_nonneg n
  rw [printfString, hsplit, hprecision, Int.toNat_natCast, List.length_append, hlength,
    if_pos ⟨hpos, Nat.le_add_right ..⟩, List.take_left' hlength]

theorem printfString_empty (precision : Int32) : printfString precision [0] = some [] := by
  rw [printfString]
  split_ifs with hp
  · simp
  · simp
  · simp at *

theorem loggedTag_length (array : entry.HasTag → entry.tagLen.toNat ≤ (entry.tag.getD []).length)
    (htag : entry.HasTag) : entry.loggedTag.length = entry.tagLen.toNat := by
  rw [HdrLogEntry.loggedTag, if_pos htag, List.length_take_of_le (array htag)]

theorem loggedTag_le (printSeconds : HdrTimespec → List UInt8) (entry : HdrLogEntry) (max : Int64)
    (text : List UInt8) :
    entry.loggedTag.length ≤ (loggedLine printSeconds entry max text).length := by
  rw [loggedLine, lineText, tagField]
  split_ifs with hne
  · rw [hne]
    exact Nat.zero_le _
  · simp only [List.length_append]
    omega

/-- The writer prints the line that the reader takes apart. -/
theorem entryLine_eq (L : Loggable z printSeconds entry h)
    (henc : h.hdrLogEncode z = some (.ok text)) :
    entryLine printSeconds entry h.hdrMax text =
      some (loggedLine printSeconds entry h.hdrMax text) := by
  have hfits := L.fits text henc
  have hle := loggedTag_le printSeconds entry h.hdrMax text
  have hzero := L.noZero
  by_cases htag : entry.HasTag
  · have hlength := loggedTag_length L.array htag
    have htake : entry.loggedTag = (entry.tag.getD []).take entry.tagLen.toNat := if_pos htag
    have hpos : 0 < entry.tagLen.toNat := UInt64.lt_iff_toNat_lt.mp htag.2
    have hne : entry.loggedTag ≠ [] := by
      rw [← List.length_pos_iff]
      omega
    have hprecision : entry.tagLen.toUInt32.toInt32.toInt = entry.tagLen.toNat := by
      have hlow : entry.tagLen.toUInt32.toNat = entry.tagLen.toNat := by
        rw [UInt64.toNat_toUInt32]
        omega
      rw [toInt32_toInt, hlow, if_pos (by omega)]
    rw [htake] at hzero
    rw [entryLine, if_pos htag, if_pos htag, if_pos htag,
      printfString_tag hprecision (L.array htag) hzero, Option.map_some, loggedLine, lineText,
      tagField, if_neg hne, htake]
    simp only [List.append_assoc]
    rfl
  · have hnone : entry.loggedTag = [] := if_neg htag
    rw [entryLine, if_neg htag, if_neg htag, if_neg htag, printfString_empty, Option.map_some,
      loggedLine, lineText, hnone, tagField, if_pos rfl]
    simp only [List.append_assoc, List.nil_append]
    rfl

theorem hdrLogEncode_eq_ok (henc : h.hdrLogEncode z = some (.ok text)) :
    ∃ compressed, h.hdrEncodeCompressed z = some (.ok compressed) ∧
      hdrBase64Encode compressed (hdrBase64EncodedLen compressed.length) = .ok text := by
  rw [HdrHistogram.hdrLogEncode] at henc
  rcases hcompressed : h.hdrEncodeCompressed z with _ | ⟨rc | compressed⟩
  · rw [hcompressed] at henc
    cases henc
  · rw [hcompressed] at henc
    cases henc
  · rw [hcompressed] at henc
    exact ⟨compressed, rfl, Option.some.inj henc⟩

theorem hdrLogEncode_length {n : ℕ} (Z : z.RoundTrips) (E : Encodable h n)
    (henc : h.hdrLogEncode z = some (.ok text)) : text.length < 2 ^ 30 := by
  obtain ⟨u, m, b, D⟩ := E.accepted.describes
  have hl := counts_length_nat D
  have hlt := D.countsLen_lt
  have hmax := E.payloadTokens_length.2
  obtain ⟨data, hc, hok⟩ := hdrEncodeCompressed_eq Z E
  obtain ⟨compressed, hcompressed, hbase⟩ := hdrLogEncode_eq_ok henc
  obtain rfl : compressedBytes data = compressed :=
    Except.ok.inj (Option.some.inj (hok.symm.trans hcompressed))
  rw [hdrBase64Encode, if_neg (by simp), Except.ok.injEq] at hbase
  have hle := z.compress_le _ _ _ hc
  have hbound := Z.bound_le (encodedBytes h).length
  have hlen : (encodedBytes h).length = 40 + (Token.flat (payloadTokens h)).length := by
    rw [encodedBytes, List.length_append, EncodingFlyweightV1.bytes_length]
    rfl
  have hbytes : (compressedBytes data).length = 8 + data.length := by
    rw [compressedBytes, List.length_append, CompressionFlyweight.bytes_length]
    rfl
  rw [MAX_BYTES_LEB128] at hmax
  rw [← hbase, encodeBlocks_length, hdrBase64EncodedLen, hbytes]
  omega

theorem loggedLine_length {max : Int64} (htag : entry.loggedTag.length < 2 ^ 29)
    (hstart : (printSeconds entry.startTimestamp).length ≤ 24)
    (hinterval : (printSeconds entry.interval).length ≤ 24) (htext : text.length < 2 ^ 30) :
    (loggedLine printSeconds entry max text).length < 2 ^ 31 := by
  have hdigits : (Decimal.text max.toUInt64.toNat).length ≤ 20 :=
    Decimal.text_length_le (by omega) (max.toUInt64.toNat_lt.trans (by norm_num))
  have hfield : (tagField entry.loggedTag).length ≤ entry.loggedTag.length + 5 := by
    rw [tagField]
    split_ifs
    · exact Nat.zero_le _
    · simp only [List.length_append]
      have hname : (ascii "Tag=").length = 4 := rfl
      have hcomma : (ascii ",").length = 1 := rfl
      omega
  have hzero : (ascii ".0").length = 2 := rfl
  rw [loggedLine, lineText]
  simp only [List.length_append, List.length_cons, List.length_nil]
  omega

theorem hdrLogWriteEntry_encoded (henc : h.hdrLogEncode z = some (.ok text)) (file : List UInt8) :
    hdrLogWriteEntry z printSeconds file entry h =
      (entryLine printSeconds entry h.hdrMax text).map fun line =>
        (if (fprintf file line).1 < 0 then EIO else 0, (fprintf file line).2) := by
  obtain ⟨compressed, hcompressed, hbase⟩ := hdrLogEncode_eq_ok henc
  simp only [hdrLogWriteEntry, hcompressed, hbase]

theorem hdrLogWriteEntry_eq (L : Loggable z printSeconds entry h)
    (henc : h.hdrLogEncode z = some (.ok text)) (file : List UInt8) :
    hdrLogWriteEntry z printSeconds file entry h =
      some (0, file ++ loggedLine printSeconds entry h.hdrMax text) := by
  obtain ⟨printed, hprint, hprinted⟩ := fprintf_eq (L.fits text henc) file
  rw [hdrLogWriteEntry_encoded henc, entryLine_eq L henc, Option.map_some, hprint, if_neg hprinted]

theorem plain_of_base64Text (B : Base64Text text) : Plain text := by
  have hall : ∀ c ∈ base64Table ++ ['='.toUInt8],
      c ≠ ','.toUInt8 ∧ c ≠ '\r'.toUInt8 ∧ c ≠ '\n'.toUInt8 :=
    List.forall_iff_forall_mem.mp (by decide +kernel)
  intro c hc
  refine hall c (List.mem_append.mpr ((B.mem hc).imp_right fun h => ?_))
  rw [h]
  exact List.mem_singleton_self _

theorem plain_hdrLogEncode (henc : h.hdrLogEncode z = some (.ok text)) : Plain text := by
  obtain ⟨compressed, -, hbase⟩ := hdrLogEncode_eq_ok henc
  rw [hdrBase64Encode, if_neg (by simp), Except.ok.injEq] at hbase
  rw [← hbase]
  exact plain_of_base64Text (base64Text_encodeBlocks compressed)

theorem Represents.hdrMax_nonneg {rs : List Sample} (R : Represents h rs) :
    0 ≤ h.hdrMax.toInt := by
  obtain ⟨u, m, b, D⟩ := R.accepted.describes
  rw [HdrHistogram.hdrMax]
  split_ifs
  · exact le_rfl
  · have hw := width_pos (u := u) (m := m) (index u m h.maxValue.toInt.toNat)
    rw [highestEquivalentValue_toInt D (maxValue_nonneg R)]
    omega

theorem timestampText_max {max : Int64} (hmax : 0 ≤ max.toInt) :
    TimestampText 1 (Decimal.text max.toUInt64.toNat ++ ascii ".0") := by
  have hvalue := toUInt64_toNat max
  have hlt := max.toInt_lt
  refine ⟨Decimal.text max.toUInt64.toNat, ['0'.toUInt8], rfl, text_ne_nil _, text_isDigit _, ?_,
    rfl, ?_⟩
  · rw [List.forall_mem_singleton]
    decide
  · rw [value_text]
    omega

end Writing

section Reading
variable {z : Zlib} {stack : ℕ → UInt8} {printSeconds : HdrTimespec → List UInt8}
  {reader entry : HdrLogEntry} {h g : HdrHistogram} {text tag : List UInt8}

theorem HdrLogEntry.HasRoom.ready (H : reader.HasRoom tag) : ReadyFor reader.clearTag tag := by
  obtain ⟨⟨buffer, hbuffer, hlen⟩, hroom⟩ := H
  obtain ⟨b, bs, rfl⟩ : ∃ b bs, buffer = b :: bs :=
    List.exists_cons_of_ne_nil (List.length_pos_iff.mp (by omega))
  refine ⟨⟨bs, ?_, hlen⟩, hroom⟩
  rw [HdrLogEntry.clearTag, hbuffer]
  rfl

theorem HdrLogEntry.HasRoom.read {read : HdrLogEntry} {t : List UInt8} (H : reader.HasRoom t)
    (T : TagRead reader.clearTag read tag) : read.HasRoom t := by
  obtain ⟨⟨buffer, hbuffer, hlen⟩, hroom⟩ := H
  have hsize := T.size
  rw [HdrLogEntry.clearTag, hbuffer] at hsize
  obtain ⟨buffer', hbuffer', hlength⟩ := Option.map_eq_some_iff.mp hsize
  rw [List.length_set] at hlength
  have htagLen : read.tagLen = reader.tagLen := T.tagLen
  exact ⟨⟨buffer', hbuffer', by rw [htagLen, hlength]; exact hlen⟩, by rw [htagLen]; exact hroom⟩

theorem hdrLogReadEntry_loggedLine (L : Loggable z printSeconds entry h)
    (henc : h.hdrLogEncode z = some (.ok text)) (hmax : 0 ≤ h.hdrMax.toInt)
    (hdec : hdrLogDecode z stack text none = some (0, some g))
    (H : reader.HasRoom entry.loggedTag) (rest : List UInt8) :
    ∃ read, hdrLogReadEntry z stack (loggedLine printSeconds entry h.hdrMax text ++ rest)
        reader.clearTag none = some ⟨0, rest, read, some g⟩ ∧
      TagRead reader.clearTag read entry.loggedTag := by
  obtain ⟨offset, capacity, read, T, hrun⟩ := run_lineText H.ready L.plain L.noZero L.start
    L.interval (timestampText_max hmax) (by omega) (by omega) (by omega) (plain_hdrLogEncode henc)
    rest
  refine ⟨read, ?_, T⟩
  rw [hdrLogDecode] at hdec
  cases hcompressed : hdrBase64Decode text (hdrBase64DecodedLen text.length) with
  | error rc =>
      rw [hcompressed] at hdec
      cases hdec
  | ok compressed =>
      rw [hcompressed] at hdec
      simp only [hdrLogReadEntry, loggedLine, hrun, hcompressed]
      exact congrArg (Option.map _) hdec

/-- What one call writes, and one call reads back into any reader with room for the tag. -/
structure EntryLine (z : Zlib) (stack : ℕ → UInt8) (printSeconds : HdrTimespec → List UInt8)
    (e : HdrLogEntry × HdrHistogram) (line : List UInt8) : Prop where
  write : ∀ file, hdrLogWriteEntry z printSeconds file e.1 e.2 = some (0, file ++ line)
  read : ∀ reader : HdrLogEntry, reader.HasRoom e.1.loggedTag → ∀ rest, ∃ read g,
    hdrLogReadEntry z stack (line ++ rest) reader.clearTag none = some ⟨0, rest, read, some g⟩ ∧
      TagRead reader.clearTag read e.1.loggedTag ∧ Restored e.2 g

theorem Loggable.entryLine (Z : z.RoundTrips) (stack : ℕ → UInt8)
    (L : Loggable z printSeconds entry h) :
    ∃ line, EntryLine z stack printSeconds (entry, h) line := by
  obtain ⟨lowest, highest, figures, h₀, rs, hinit, -, hall⟩ := L.recorded
  obtain ⟨h', hall', R, -⟩ := (represents_hdrInit hinit).recordAll_filter rs
  obtain rfl : h = h' := Option.some.inj (hall.symm.trans hall')
  obtain ⟨text, g, henc, hdec, restored⟩ := R.logRoundTrip Z stack L.nonneg
  refine ⟨_, hdrLogWriteEntry_eq L henc, fun reader H rest => ?_⟩
  obtain ⟨read, hread, T⟩ := hdrLogReadEntry_loggedLine L henc R.hdrMax_nonneg hdec H rest
  exact ⟨read, g, hread, T, restored⟩

theorem writeEntries_lines {entries : List (HdrLogEntry × HdrHistogram)} {lines : List (List UInt8)}
    (E : List.Forall₂ (EntryLine z stack printSeconds) entries lines) (file : List UInt8) :
    writeEntries z printSeconds file entries =
      some (List.replicate entries.length 0, file ++ lines.flatten) := by
  induction E generalizing file with
  | nil =>
      rw [List.flatten_nil, List.append_nil]
      rfl
  | cons hline _ ih =>
      rw [writeEntries, hline.write, Option.bind_some, ih, Option.map_some, List.flatten_cons,
        List.append_assoc]
      rfl

theorem entriesReadBack_lines {entries : List (HdrLogEntry × HdrHistogram)}
    {lines : List (List UInt8)}
    (E : List.Forall₂ (EntryLine z stack printSeconds) entries lines)
    (room : ∀ e ∈ entries, reader.HasRoom e.1.loggedTag) :
    EntriesReadBack z stack reader entries lines := by
  induction E generalizing reader with
  | nil => exact ⟨reader.clearTag, rfl⟩
  | cons hline _ ih =>
      obtain ⟨read, g, hread, T, restored⟩ := hline.read reader (room _ (by simp)) _
      exact ⟨read, g, hread, T.tag, restored,
        ih fun d hd => (room d (List.mem_cons_of_mem _ hd)).read T⟩

end Reading

/-- Every sequence of entries that can be logged is written and read back, entry by entry. -/
theorem entries_roundTrip {z : Zlib} (Z : z.RoundTrips) (stack : ℕ → UInt8)
    (printSeconds : HdrTimespec → List UInt8) {entries : List (HdrLogEntry × HdrHistogram)}
    (loggable : ∀ e ∈ entries, Loggable z printSeconds e.1 e.2) {reader : HdrLogEntry}
    (room : ∀ e ∈ entries, reader.HasRoom e.1.loggedTag) :
    EntriesRoundTrip z stack printSeconds reader entries := by
  obtain ⟨lines, E⟩ : ∃ lines, List.Forall₂ (EntryLine z stack printSeconds) entries lines := by
    clear room
    induction entries with
    | nil => exact ⟨[], .nil⟩
    | cons e entries ih =>
        obtain ⟨line, hline⟩ := (loggable e (by simp)).entryLine Z stack
        obtain ⟨lines, E⟩ := ih fun d hd => loggable d (List.mem_cons_of_mem _ hd)
        exact ⟨line :: lines, .cons hline E⟩
  exact fun file => ⟨lines, writeEntries_lines E file, entriesReadBack_lines E room⟩

/-- An entry with the same two timestamps. -/
def sampleEntry (t : HdrTimespec) (tag : Option (List UInt8)) (tagLen : UInt64) : HdrLogEntry where
  startTimestamp := t
  interval := t
  max := ⟨0, 0⟩
  tag := tag
  tagLen := tagLen

/-- The sample histogram, whose times are all printed alike, can be logged with any short tag. -/
theorem sampleHistogram_loggable {h : HdrHistogram}
    (hall : sampleHistogram.recordAll [(77, 3)] = some h) {entry : HdrLogEntry}
    (array : entry.HasTag → entry.tagLen.toNat ≤ (entry.tag.getD []).length)
    (plain : Plain entry.loggedTag) (noZero : (0 : UInt8) ∉ entry.loggedTag)
    (hshort : entry.loggedTag.length < 2 ^ 29) :
    Loggable storedZlib (fun _ => ascii "5.002") entry h := by
  have P : PositiveCounts [(77, 3)] := by
    rw [PositiveCounts, List.forall_mem_singleton]
    decide
  obtain ⟨h', hall', R, -⟩ := (represents_hdrInit sampleHistogram_init).recordAll
    (show ∀ r ∈ [((77 : Int64), (3 : Int64))], sampleHistogram.Recordable r.1 by
      rw [List.forall_mem_singleton]
      decide)
  obtain rfl : h = h' := Option.some.inj (hall.symm.trans hall')
  obtain ⟨n, E⟩ := R.encodable
  have hseconds : TimestampText 3 (ascii "5.002") :=
    ⟨ascii "5", ascii "002", rfl, by decide, List.forall_iff_forall_mem.mp (by decide),
      List.forall_iff_forall_mem.mp (by decide), rfl, by decide⟩
  have hlength : (ascii "5.002").length ≤ 24 := by decide
  exact ⟨array, plain, noZero, hseconds, hseconds,
    ⟨1, 100, 1, sampleHistogram, [(77, 3)], sampleHistogram_init, P, hall⟩,
    (R.wellFormed (P.bounded (by decide))).nonneg,
    fun text henc => loggedLine_length hshort hlength hlength
      (hdrLogEncode_length storedZlib_roundTrips E henc)⟩

theorem entries_roundTrip_sample : ∃ h, sampleHistogram.recordAll [(77, 3)] = some h ∧
    EntriesRoundTrip storedZlib (fun _ => 0) (fun _ => ascii "5.002")
      (sampleEntry ⟨0, 0⟩ (some (List.replicate 4 1)) 4)
      [(sampleEntry ⟨5, 2000000⟩ (some (ascii "abc")) 3, h),
        (sampleEntry ⟨5, 2000000⟩ none 3, h)] := by
  obtain ⟨h, hall, -⟩ := (represents_hdrInit sampleHistogram_init).recordAll
    (show ∀ r ∈ [((77 : Int64), (3 : Int64))], sampleHistogram.Recordable r.1 by
      rw [List.forall_mem_singleton]
      decide)
  have htagged : Loggable storedZlib (fun _ => ascii "5.002")
      (sampleEntry ⟨5, 2000000⟩ (some (ascii "abc")) 3) h :=
    sampleHistogram_loggable hall (fun _ => by decide) (List.forall_iff_forall_mem.mp (by decide))
      (by decide) (by decide)
  have hplain : Loggable storedZlib (fun _ => ascii "5.002")
      (sampleEntry ⟨5, 2000000⟩ none 3) h :=
    sampleHistogram_loggable hall (fun htag => absurd rfl htag.1)
      (List.forall_iff_forall_mem.mp (by decide)) (by decide) (by decide)
  have hroom : ∀ tag : List UInt8, tag.length < 4 →
      (sampleEntry ⟨0, 0⟩ (some (List.replicate 4 1)) 4).HasRoom tag :=
    fun tag htag => ⟨⟨_, rfl, by decide⟩, htag⟩
  exact ⟨h, hall, entries_roundTrip storedZlib_roundTrips (fun _ => 0) _
    (List.forall_mem_cons.mpr ⟨htagged, List.forall_mem_singleton.mpr hplain⟩)
    (List.forall_mem_cons.mpr ⟨hroom (ascii "abc") (by decide),
      List.forall_mem_singleton.mpr (hroom [] (by decide))⟩)⟩

section Failures
variable {z : Zlib} {stack : ℕ → UInt8} {printSeconds : HdrTimespec → List UInt8}
  {reader entry : HdrLogEntry} {h : HdrHistogram}

theorem EntriesRoundTrip.single (E : EntriesRoundTrip z stack printSeconds reader [(entry, h)]) :
    ∃ line read g, hdrLogWriteEntry z printSeconds [] entry h = some (0, line) ∧
      hdrLogReadEntry z stack line reader.clearTag none = some ⟨0, [], read, some g⟩ := by
  obtain ⟨lines, hwrite, hback⟩ := E []
  match lines, hback with
  | [line], ⟨read, g, hread, _⟩ =>
      obtain ⟨⟨rc, file⟩, hentry, hrest⟩ := Option.bind_eq_some_iff.mp hwrite
      have hpair : ([rc], file) = ([0], [] ++ [line].flatten) := Option.some.inj hrest
      rw [Prod.mk.injEq, List.cons.injEq, List.flatten_singleton, List.nil_append] at hpair
      obtain ⟨⟨rfl, -⟩, rfl⟩ := hpair
      rw [List.flatten_nil, List.append_nil] at hread
      exact ⟨file, read, g, hentry, hread⟩
  | _ :: _ :: _, ⟨_, _, _, _, _, hfalse⟩ => exact hfalse.elim

/-- With a tag that has more characters than an `int` counts no line is written. -/
theorem hdrLogWriteEntry_long {text tag : List UInt8} (henc : h.hdrLogEncode z = some (.ok text))
    (htag : entry.tag = some (tag ++ [0])) (hpos : 0 < entry.tagLen)
    (hprecision : entry.tagLen.toUInt32.toInt32 < 0) (hzero : (0 : UInt8) ∉ tag)
    (hlong : 2 ^ 31 ≤ tag.length) (file : List UInt8) :
    (hdrLogWriteEntry z printSeconds file entry h).map Prod.fst = some EIO := by
  have hhas : entry.HasTag := ⟨by rw [htag]; exact Option.some_ne_none _, hpos⟩
  have hprinted : printfString entry.tagLen.toUInt32.toInt32 (tag ++ [0]) = some tag := by
    have hwhole : (tag ++ [0]).takeWhile (· ≠ 0) = tag := cString_append hzero []
    rw [printfString, hwhole, if_neg fun h => absurd h.1 (Int32.not_le.mpr hprecision), if_pos]
    rw [List.length_append, List.length_singleton]
    omega
  obtain ⟨line, hline, hlength⟩ : ∃ line, entryLine printSeconds entry h.hdrMax text = some line ∧
      tag.length ≤ line.length := by
    refine ⟨_, by rw [entryLine, if_pos hhas, if_pos hhas, if_pos hhas, htag, Option.getD_some,
      hprinted, Option.map_some], ?_⟩
    simp only [List.length_append]
    omega
  rw [hdrLogWriteEntry_encoded henc, hline, Option.map_some, fprintf_long (by omega)]
  rfl

end Failures

/-- Counts that overflow, tags with more characters than an `int` counts, and seconds that overflow
are not read back. -/
theorem entries_roundTrip_fails :
    (∃ h, sampleHistogram.recordAll [(5, INT64_MAX), (5, 1)] = some h ∧
      ¬ EntriesRoundTrip storedZlib (fun _ => 0) (fun _ => ascii "0.000")
        (sampleEntry ⟨0, 0⟩ (some [0]) 1) [(sampleEntry ⟨0, 0⟩ none 0, h)]) ∧
    ¬ EntriesRoundTrip storedZlib (fun _ => 0) (fun _ => ascii "0.000")
      (sampleEntry ⟨0, 0⟩ (some (List.replicate (2 ^ 31 + 1) 0)) (2 ^ 31 + 1))
      [(sampleEntry ⟨0, 0⟩ (some (List.replicate (2 ^ 31) 'a'.toUInt8 ++ [0])) (2 ^ 31),
        sampleHistogram)] ∧
    ¬ EntriesRoundTrip storedZlib (fun _ => 0) (fun _ => ascii "9223372036854775808.000")
      (sampleEntry ⟨0, 0⟩ (some [0]) 1) [(sampleEntry ⟨INT64_MAX, 0⟩ none 0, sampleHistogram)] := by
  refine ⟨?_, fun E => ?_, fun E => ?_⟩
  · have hread : (sampleHistogram.recordAll [(5, INT64_MAX), (5, 1)]).bind (fun h =>
        (hdrLogWriteEntry storedZlib (fun _ => ascii "0.000") [] (sampleEntry ⟨0, 0⟩ none 0) h).bind
          fun r => (hdrLogReadEntry storedZlib (fun _ => 0) r.2
            (sampleEntry ⟨0, 0⟩ (some [0]) 1).clearTag none).map EntryResult.result) =
        some HDR_TRAILING_ZEROS_INVALID := by decide +kernel
    obtain ⟨h, hall, hh⟩ := Option.bind_eq_some_iff.mp hread
    refine ⟨h, hall, fun E => ?_⟩
    obtain ⟨line, read, g, hwrite, hline⟩ := E.single
    rw [hwrite, Option.bind_some, hline, Option.map_some] at hh
    exact absurd (show (0 : Int32) = HDR_TRAILING_ZEROS_INVALID from Option.some.inj hh) (by decide)
  · obtain ⟨line, read, g, hwrite, -⟩ := E.single
    obtain ⟨text, g, henc, -⟩ := (represents_hdrInit sampleHistogram_init).logRoundTrip
      storedZlib_roundTrips (fun _ => 0) sampleHistogram_wellFormed.nonneg
    have hzero : (0 : UInt8) ∉ List.replicate (2 ^ 31) 'a'.toUInt8 := fun h =>
      absurd (List.eq_of_mem_replicate h) (by decide)
    have hfails : (hdrLogWriteEntry storedZlib (fun _ => ascii "0.000") [] (sampleEntry ⟨0, 0⟩
        (some (List.replicate (2 ^ 31) 'a'.toUInt8 ++ [0])) (2 ^ 31)) sampleHistogram).map
          Prod.fst = some EIO :=
      hdrLogWriteEntry_long henc rfl (by decide) (by decide) hzero
        (by rw [List.length_replicate]) []
    rw [hwrite, Option.map_some] at hfails
    exact absurd (show 0 = EIO from Option.some.inj hfails) (by decide)
  · have hread : (hdrLogWriteEntry storedZlib (fun _ => ascii "9223372036854775808.000") []
        (sampleEntry ⟨INT64_MAX, 0⟩ none 0) sampleHistogram).bind (fun r =>
          hdrLogReadEntry storedZlib (fun _ => 0) r.2
            (sampleEntry ⟨0, 0⟩ (some [0]) 1).clearTag none) = none := by decide +kernel
    obtain ⟨line, read, g, hwrite, hline⟩ := E.single
    rw [hwrite, Option.bind_some, hline] at hread
    cases hread

end HdrHistogramC
