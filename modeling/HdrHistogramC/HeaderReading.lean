import HdrHistogramC.LogHeaders

/-!
# Reading the lines of a header

The reader takes a line in pieces of at most 127 characters, and looks at the first character of
each piece as if it were that of a line. It comes to the end of the line when all of them are hash
signs; otherwise it leaves the loop inside the line, or at its end.
-/
namespace HdrHistogramC
open BoundedLoop

/-- Some characters and a line end. -/
def IsLine (line : List UInt8) : Prop := ∃ cs, '\n'.toUInt8 ∉ cs ∧ line = cs ++ ['\n'.toUInt8]

section Lines
variable {cs line rest : List UInt8} {n : ℕ}

theorem readLine_eq (n : ℕ) (hcs : '\n'.toUInt8 ∉ cs) (rest : List UInt8) :
    readLine n (cs ++ '\n'.toUInt8 :: rest) =
      ((cs ++ ['\n'.toUInt8]).take n, (cs ++ ['\n'.toUInt8]).drop n ++ rest) := by
  induction cs generalizing n with
  | nil =>
      cases n with
      | zero => rfl
      | succ n =>
          rw [List.nil_append, List.nil_append, readLine, if_pos rfl, List.take_succ_cons,
            List.take_nil, List.drop_succ_cons, List.drop_nil, List.nil_append]
  | cons c cs ih =>
      cases n with
      | zero => rw [readLine, List.take_zero, List.drop_zero, List.append_assoc,
          List.singleton_append]
      | succ n =>
          have hc : ¬ c = '\n'.toUInt8 := fun h => hcs (by rw [h]; exact List.mem_cons_self)
          have htail : '\n'.toUInt8 ∉ cs := fun h => hcs (List.mem_cons_of_mem _ h)
          rw [List.cons_append, readLine, if_neg hc, ih n htail]
          rfl

theorem IsLine.readLine (L : IsLine line) (n : ℕ) (rest : List UInt8) :
    readLine n (line ++ rest) = (line.take n, line.drop n ++ rest) := by
  obtain ⟨cs, hcs, rfl⟩ := L
  rw [List.append_assoc, List.singleton_append, readLine_eq n hcs]

theorem IsLine.ne_nil (L : IsLine line) : line ≠ [] := by
  obtain ⟨cs, -, rfl⟩ := L
  exact List.append_ne_nil_of_right_ne_nil _ (List.cons_ne_nil _ _)

theorem IsLine.drop (L : IsLine line) (n : ℕ) : line.drop n = [] ∨ IsLine (line.drop n) := by
  obtain ⟨cs, hcs, rfl⟩ := L
  rcases Nat.lt_or_ge cs.length n with hlt | hge
  · refine .inl (List.drop_eq_nil_of_le ?_)
    rw [List.length_append, List.length_singleton]
    omega
  · exact .inr ⟨cs.drop n, fun h => hcs (List.mem_of_mem_drop h), List.drop_append_of_le_length hge⟩

end Lines

variable {scanSeconds : List UInt8 → Option (Option HdrTimespec)}

/-- The numbers that are scanned fit the integers of the reader. -/
def NumbersFit (scanSeconds : List UInt8 → Option (Option HdrTimespec)) (line : List UInt8) :
    Prop :=
  scanVersion line ≠ none ∧ scanTime scanSeconds line ≠ none

/-- Every piece begins with a hash sign, and its numbers fit. -/
def PiecesRead (scanSeconds : List UInt8 → Option (Option HdrTimespec)) (line : List UInt8) :
    Prop :=
  ∀ k, 127 * k < line.length → (line.drop (127 * k)).head? = some '#'.toUInt8 ∧
    NumbersFit scanSeconds ((line.drop (127 * k)).take 127)

section Rounds
variable {reader : HdrLogReader} {line rest : List UInt8}

theorem scanHeaderLine_isSome (fit : NumbersFit scanSeconds line) (reader : HdrLogReader) :
    ∃ reader', reader.scanHeaderLine scanSeconds line = some reader' := by
  obtain ⟨numbers, hnumbers⟩ := Option.ne_none_iff_exists'.mp fit.1
  obtain ⟨timestamp, htimestamp⟩ := Option.ne_none_iff_exists'.mp fit.2
  rw [HdrLogReader.scanHeaderLine, HdrLogReader.scanLogFormat, hnumbers, Option.map_some,
    Option.bind_some, HdrLogReader.scanStartTime, htimestamp, Option.map_some]
  exact ⟨_, rfl⟩

theorem scanHeaderLine_none (unfit : ¬ NumbersFit scanSeconds line) (reader : HdrLogReader) :
    reader.scanHeaderLine scanSeconds line = none := by
  rw [HdrLogReader.scanHeaderLine, HdrLogReader.scanLogFormat]
  rcases not_and_or.mp unfit with hnumbers | htimestamp
  · rw [not_not.mp hnumbers, Option.map_none, Option.bind_none]
  · cases scanVersion line with
    | none => rfl
    | some numbers =>
        rw [Option.map_some, Option.bind_some, HdrLogReader.scanStartTime, not_not.mp htimestamp,
          Option.map_none]

variable (scanSeconds)

theorem headerBody_hash (L : IsLine line) (hhead : line.head? = some '#'.toUInt8)
    (reader : HdrLogReader) (rest : List UInt8) :
    headerBody scanSeconds (reader, line ++ rest) =
      (reader.scanHeaderLine scanSeconds (line.take 127)).map fun reader =>
        .again (reader, line.drop 127 ++ rest) := by
  have hfile : (line ++ rest).head? = some '#'.toUInt8 := by rw [List.head?_append, hhead]; rfl
  have hne : line ++ rest ≠ [] := List.append_ne_nil_of_left_ne_nil L.ne_nil _
  rw [headerBody, if_pos hfile, fgets, if_neg hne, HEADER_LINE_LENGTH, L.readLine]

/-- Anything else ends the loop, at the latest after the first piece of the line. -/
theorem headerBody_other (L : IsLine line) (hhead : line.head? ≠ some '#'.toUInt8)
    (reader : HdrLogReader) (rest : List UInt8) :
    ∃ file, headerBody scanSeconds (reader, line ++ rest) = some (.leave (none, reader, file)) ∧
      rest.length ≤ file.length := by
  have hfile : (line ++ rest).head? = line.head? := by
    obtain ⟨c, cs, rfl⟩ := List.exists_cons_of_ne_nil L.ne_nil
    rfl
  have hne : line ++ rest ≠ [] := List.append_ne_nil_of_left_ne_nil L.ne_nil _
  rw [headerBody, hfile, if_neg hhead, fgets, if_neg hne, HEADER_LINE_LENGTH, L.readLine]
  split_ifs
  · refine ⟨_, rfl, ?_⟩
    rw [List.length_append]
    omega
  · refine ⟨_, rfl, ?_⟩
    rw [List.length_append]
    omega

/-- A line is read when its first piece is, and then what remains of it. -/
theorem piecesRead_iff (hne : line ≠ []) : PiecesRead scanSeconds line ↔
    line.head? = some '#'.toUInt8 ∧ NumbersFit scanSeconds (line.take 127) ∧
      PiecesRead scanSeconds (line.drop 127) := by
  have hshift : ∀ k, 127 * (k + 1) = 127 + 127 * k := by
    intro k
    omega
  constructor
  · intro P
    obtain ⟨hhead, hfit⟩ := P 0 (List.length_pos_iff.mpr hne)
    refine ⟨hhead, hfit, fun k hk => ?_⟩
    rw [List.length_drop] at hk
    have hpiece := P (k + 1) (by omega)
    rwa [hshift, ← List.drop_drop] at hpiece
  · rintro ⟨hhead, hfit, P⟩ k hk
    cases k with
    | zero => exact ⟨hhead, hfit⟩
    | succ k =>
        rw [hshift, ← List.drop_drop]
        refine P k ?_
        rw [List.length_drop]
        omega

/-- The reader comes to the end of the line if all pieces are read. If not, it does not get
further. -/
theorem pieces_cases (L : line = [] ∨ IsLine line) (reader : HdrLogReader) (rest : List UInt8) :
    (PiecesRead scanSeconds line ∧ ∃ n reader', n ≤ line.length ∧
      Rounds (headerBody scanSeconds) n (reader, line ++ rest) (reader', rest)) ∨
    (¬ PiecesRead scanSeconds line ∧ ∀ fuel result reader' file,
      run (headerBody scanSeconds) fuel (reader, line ++ rest) = some (result, reader', file) →
        rest.length ≤ file.length) := by
  induction hlen : line.length using Nat.strong_induction_on generalizing line reader with
  | _ len ih =>
    rcases L with rfl | L
    · refine .inl ⟨fun k hk => absurd hk (Nat.not_lt_zero _), 0, reader, Nat.zero_le _, ?_⟩
      rw [List.nil_append]
      exact .done _
    rw [piecesRead_iff scanSeconds L.ne_nil]
    by_cases hhead : line.head? = some '#'.toUInt8
    · have hbody := headerBody_hash scanSeconds L hhead reader rest
      by_cases hfit : NumbersFit scanSeconds (line.take 127)
      · obtain ⟨reader₁, hscan⟩ := scanHeaderLine_isSome hfit reader
        have hpos := List.length_pos_iff.mpr L.ne_nil
        have hshort : (line.drop 127).length < len := by
          rw [List.length_drop]
          omega
        rw [hscan, Option.map_some] at hbody
        rcases ih _ hshort (L.drop 127) reader₁ rfl with ⟨P, n, reader', hn, R⟩ | ⟨P, hstuck⟩
        · exact .inl ⟨⟨hhead, hfit, P⟩, n + 1, reader', by omega, .next hbody R⟩
        · refine .inr ⟨fun h => P h.2.2, fun fuel result reader' file hrun => ?_⟩
          cases fuel with
          | zero => cases hrun
          | succ fuel =>
              rw [run_again hbody] at hrun
              exact hstuck fuel result reader' file hrun
      · refine .inr ⟨fun h => hfit h.2.1, fun fuel result reader' file hrun => ?_⟩
        rw [scanHeaderLine_none hfit, Option.map_none] at hbody
        cases fuel with
        | zero => cases hrun
        | succ fuel =>
            rw [run, hbody] at hrun
            cases hrun
    · refine .inr ⟨fun h => hhead h.1, fun fuel result reader' file hrun => ?_⟩
      obtain ⟨file', hbody, hle⟩ := headerBody_other scanSeconds L hhead reader rest
      cases fuel with
      | zero => cases hrun
      | succ fuel =>
          rw [run_leave hbody] at hrun
          cases hrun
          exact hle

end Rounds

end HdrHistogramC
