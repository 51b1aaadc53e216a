import HdrHistogramC.OwnedLogs

/-!
# What the decoding program loses

The program reads every line of a log into one histogram. Each line but the first is merged into
it, and leaves a block behind that no pointer leads to.
-/
namespace HdrHistogramC.Owned
open Blocks BoundedLoop

/-- The result, the rest of the file, and what the pointers lead to. -/
structure ReadResult where
  result : Int32
  file : List UInt8
  histogram : Option Histogram
  timestamp : Option HdrTimespec
  interval : Option HdrTimespec

def ReadResult.values (r : ReadResult) : HdrHistogramC.ReadResult :=
  ⟨r.result, r.file, r.histogram.map Histogram.value, r.timestamp, r.interval⟩

/-- The variables of the program, and the histograms it has printed. -/
structure Program where
  file : List UInt8
  histogram : Option Histogram
  timestamp : HdrTimespec
  interval : HdrTimespec
  printed : List HdrHistogram

def Program.values (p : Program) : HdrHistogramC.Decoder :=
  ⟨p.file, p.histogram.map Histogram.value, p.timestamp, p.interval, p.printed⟩

/-- The variables after a line, and what is printed of it. -/
def Program.next (p : Program) (r : ReadResult) (h : Histogram) : Program where
  file := r.file
  histogram := some h
  timestamp := r.timestamp.getD p.timestamp
  interval := r.interval.getD p.interval
  printed := p.printed ++ [h.value]

/-- The exit code, what the pointer leads to then, and what was printed. -/
structure Exit where
  code : Int32
  histogram : Option Histogram
  printed : List HdrHistogram

def Exit.values (e : Exit) : Int32 × List HdrHistogram := (e.code, e.printed)

section Program
variable (z : Zlib) (stack : ℕ → UInt8)

def hdrLogRead (file : List UInt8) (histogram : Option Histogram)
    (timestamp interval : Option HdrTimespec) : Alloc (Option ReadResult) := do
  let some r ← hdrLogReadEntry z stack file zeroEntry histogram | return none
  let read : ReadResult :=
    { result := r.result
      file := r.file
      histogram := r.histogram
      timestamp := if r.result = 0 then timestamp.map fun _ => r.entry.startTimestamp else timestamp
      interval := if r.result = 0 then interval.map fun _ => r.entry.interval else interval }
  return some read

/-- The loop of the program. It frees nothing. -/
def decoderLoop : ℕ → Program → Alloc (Option Exit)
  | 0, _ => pure none
  | n + 1, p => do
      match ← hdrLogRead z stack p.file p.histogram (some p.timestamp) (some p.interval) with
      | none => return none
      | some r =>
          if r.result = 0 then
            match r.histogram with
            | none => return none
            | some h => decoderLoop n (p.next r h)
          else if r.result = EOF then return some ⟨0, r.histogram, p.printed⟩
          else return some ⟨-1, r.histogram, p.printed⟩

def decoderMain (scanSeconds : List UInt8 → Option (Option HdrTimespec))
    (timestamp interval : HdrTimespec) (file : List UInt8) : Alloc (Option Exit) :=
  match hdrLogReadHeader scanSeconds hdrLogReaderInit file with
  | none => pure none
  | some (rc, _, file) =>
      if rc ≠ 0 then pure (some ⟨-1, none, []⟩)
      else decoderLoop z stack (file.length + 1) ⟨file, none, timestamp, interval, []⟩

end Program

section Specs
variable {refused : ℕ → Bool} {z : Zlib} {stack : ℕ → UInt8}

theorem hdrLogRead_spec (file : List UInt8) (histogram : Option Histogram)
    (timestamp interval : Option HdrTimespec) :
    Triple refused (blocks histogram) (hdrLogRead z stack file histogram timestamp interval)
      fun r o =>
        (r.map ReadResult.values = HdrHistogramC.hdrLogRead z stack file
            (histogram.map Histogram.value) timestamp interval ∨
          (Refusing refused ∧ ∀ e, r = some e → e.histogram = histogram ∧
            (e.result = ENOMEM ∨ e.result = -ENOMEM))) ∧
        (∀ e, r = some e → ∃ lost, o = blocks e.histogram + lost ∧ lost.card =
          if (e.result = 0 ∧ histogram ≠ none) ∨ e.result = -ENOMEM then 1 else 0) ∧
        ∀ e, r = some e → e.result = -ENOMEM → Refusing refused := by
  rw [hdrLogRead, HdrHistogramC.hdrLogRead]
  refine (hdrLogReadEntry_spec z stack file zeroEntry histogram).bind ?_
  rintro (_ | r) o R
  · refine .ret ⟨R.value.imp (fun hv => ?_) fun hr => ⟨hr.1, ?_⟩, ?_, ?_⟩
    · rw [← hv]
      rfl
    all_goals
      intro e he
      cases he
  · refine .ret ⟨R.value.imp (fun hv => ?_) fun hr => ⟨hr.1, fun e he => ?_⟩, fun e he => ?_,
      fun e he => ?_⟩
    · rw [← hv]
      rfl
    · cases he
      exact hr.2 r rfl
    · cases he
      exact R.blocks r rfl
    · cases he
      exact R.grown r rfl

/-- The pointer leads to a histogram once one is printed, and all lines but the first have left a
block behind. -/
structure Program.Kept (p : Program) (lost : Multiset ℕ) : Prop where
  histogram : p.histogram = none ↔ p.printed = []
  lost : lost.card = p.printed.length - 1

/-- What becomes of a run: it prints what the program without blocks prints, or it is refused a
block and stops early. -/
structure ExitOutcome (refused : ℕ → Bool) (z : Zlib) (stack : ℕ → UInt8)
    (start : HdrHistogramC.Decoder) (computed : Option (Int32 × List HdrHistogram))
    (r : Option Exit) (owned : Multiset ℕ) : Prop where
  value : r.map Exit.values = computed ∨ (Refusing refused ∧ ∀ e, r = some e → e.code = -1 ∧
    ∃ n t, Rounds (decoderBody z stack) n start t ∧ e.printed = t.printed)
  blocks : ∀ e, r = some e → ∃ lost, owned = Owned.blocks e.histogram + lost ∧
    (e.histogram = none ↔ e.printed = []) ∧ (lost.card = e.printed.length - 1 ∨
      (Refusing refused ∧ lost.card = e.printed.length - 1 + 1))

theorem exitOutcome_none {start : HdrHistogramC.Decoder}
    {computed : Option (Int32 × List HdrHistogram)} {owned : Multiset ℕ}
    (h : computed = none ∨ Refusing refused) :
    ExitOutcome refused z stack start computed none owned where
  value := h.imp (fun hc => hc.symm) fun hr => ⟨hr, fun e he => by cases he⟩
  blocks e he := by cases he

theorem ExitOutcome.next {s t : HdrHistogramC.Decoder}
    {computed : Option (Int32 × List HdrHistogram)} {r : Option Exit} {owned : Multiset ℕ}
    (hbody : decoderBody z stack s = some (.again t))
    (O : ExitOutcome refused z stack t computed r owned) :
    ExitOutcome refused z stack s computed r owned where
  value := O.value.imp_right fun ⟨hr, hstop⟩ => ⟨hr, fun e he => by
    obtain ⟨hcode, n, u, R, hprinted⟩ := hstop e he
    exact ⟨hcode, n + 1, u, .next hbody R, hprinted⟩⟩
  blocks := O.blocks

theorem decoderBody_read {p : Program} {r : HdrHistogramC.ReadResult}
    (h : HdrHistogramC.hdrLogRead z stack p.file (p.histogram.map Histogram.value)
      (some p.timestamp) (some p.interval) = some r) :
    decoderBody z stack p.values = (if r.result = 0 then
        r.histogram.map fun h => .again
          { file := r.file
            histogram := some h
            timestamp := r.timestamp.getD p.timestamp
            interval := r.interval.getD p.interval
            printed := p.printed ++ [h] }
      else if r.result = EOF then some (.leave (0, p.printed))
      else some (.leave (-1, p.printed))) := by
  rw [decoderBody]
  dsimp only [Program.values]
  rw [h]
  rfl

theorem Program.Kept.next {p : Program} {lost left : Multiset ℕ} (K : p.Kept lost)
    (hleft : left.card = if p.histogram ≠ none then 1 else 0) (r : ReadResult) (h : Histogram) :
    (p.next r h).Kept (left + lost) where
  histogram := iff_of_false (Option.some_ne_none h) (List.append_ne_nil_of_right_ne_nil _ (by simp))
  lost := by
    rw [Multiset.card_add, hleft, K.lost]
    simp only [Program.next, List.length_append, List.length_singleton]
    have hprinted : p.histogram = none ↔ p.printed.length = 0 :=
      K.histogram.trans List.length_eq_zero_iff.symm
    split_ifs with hp
    · have hpos := mt hprinted.mpr hp
      omega
    · have hzero := hprinted.mp (not_not.mp hp)
      omega

theorem exit_outcome {p : Program} {lost left : Multiset ℕ} {r : ReadResult} {n : ℕ} {code : Int32}
    (K : p.Kept lost) (h0 : r.result ≠ 0)
    (hvalue : some r.values = HdrHistogramC.hdrLogRead z stack p.file
        (p.histogram.map Histogram.value) (some p.timestamp) (some p.interval) ∨
      (Refusing refused ∧ ∀ e, some r = some e → e.histogram = p.histogram ∧
        (e.result = ENOMEM ∨ e.result = -ENOMEM)))
    (hcard : left.card =
      if (r.result = 0 ∧ p.histogram ≠ none) ∨ r.result = -ENOMEM then 1 else 0)
    (hgrown : r.result = -ENOMEM → Refusing refused)
    (hcode : code = if r.result = EOF then 0 else -1) :
    ExitOutcome refused z stack p.values (run (decoderBody z stack) (n + 1) p.values)
      (some ⟨code, r.histogram, p.printed⟩) (blocks r.histogram + left + lost) where
  value := by
    refine hvalue.imp (fun hv => ?_) fun ⟨hr, h⟩ => ⟨hr, fun e he => ?_⟩
    · have hbody := decoderBody_read hv.symm
      rw [if_neg (show r.values.result ≠ 0 from h0)] at hbody
      have hleave : decoderBody z stack p.values = some (.leave (code, p.printed)) := by
        rw [hbody, hcode, ReadResult.values]
        split_ifs <;> rfl
      rw [run_leave hleave]
      rfl
    · cases he
      refine ⟨?_, 0, p.values, .done _, rfl⟩
      rw [hcode, if_neg]
      rcases (h r rfl).2 with he | he <;> rw [he] <;> decide
  blocks e he := by
    cases he
    have hsame : r.histogram = none ↔ p.histogram = none := by
      rcases hvalue with hv | ⟨-, h⟩
      · obtain ⟨e, hentry, he⟩ := Option.map_eq_some_iff.mp hv.symm
        have hresult : e.result = r.result := congrArg HdrHistogramC.ReadResult.result he
        have hhistogram : e.histogram = r.histogram.map Histogram.value :=
          congrArg HdrHistogramC.ReadResult.histogram he
        have hkept := (hdrLogReadEntry_progress hentry).failed (by rwa [hresult])
        rw [hhistogram] at hkept
        rw [← Option.map_eq_none_iff (f := Histogram.value), hkept, Option.map_eq_none_iff]
      · rw [(h r rfl).1]
    refine ⟨left + lost, add_assoc .., hsame.trans K.histogram, ?_⟩
    rw [Multiset.card_add, K.lost, hcard]
    by_cases hnomem : r.result = -ENOMEM
    · rw [if_pos (.inr hnomem)]
      exact .inr ⟨hgrown hnomem, add_comm ..⟩
    · rw [if_neg fun h => h.elim (fun h => h0 h.1) hnomem]
      exact .inl (zero_add _)

theorem decoderLoop_spec : ∀ n p lost, p.Kept lost →
    Triple refused (blocks p.histogram + lost) (decoderLoop z stack n p)
      (ExitOutcome refused z stack p.values (run (decoderBody z stack) n p.values)) := by
  intro n
  induction n with
  | zero => exact fun p lost _ => .ret (exitOutcome_none (.inl rfl))
  | succ n ih =>
      intro p lost K
      rw [decoderLoop]
      refine ((hdrLogRead_spec _ _ _ _).frame lost).bind ?_
      rintro (_ | r) o ⟨o', rfl, hvalue, hblocks, hgrown⟩
      · refine .ret (exitOutcome_none (hvalue.imp (fun hv => ?_) And.left))
        have hbody : decoderBody z stack p.values = none := by
          rw [decoderBody]
          dsimp only [Program.values]
          rw [← hv]
          rfl
        simp only [run, hbody]
      · obtain ⟨left, rfl, hcard⟩ := hblocks r rfl
        dsimp only
        split_ifs with h0 heof
        · have hv := hvalue.resolve_right fun hr => by
            rcases (hr.2 r rfl).2 with hc | hc
            · exact absurd (h0.symm.trans hc) (by decide)
            · exact absurd (h0.symm.trans hc) (by decide)
          have hbody := decoderBody_read hv.symm
          rw [if_pos (show r.values.result = 0 from h0)] at hbody
          rcases hr : r.histogram with _ | h
          · refine .ret (exitOutcome_none (.inl ?_))
            simp only [ReadResult.values, hr] at hbody
            simp only [run, hbody, Option.map_none]
          · simp only [ReadResult.values, hr, Option.map_some] at hbody
            have hleft : left.card = if p.histogram ≠ none then 1 else 0 := by
              rw [hcard]
              simp only [h0, true_and, show (0 : Int32) ≠ -ENOMEM by decide, or_false]
            rw [run_again hbody, add_assoc]
            exact (ih (p.next r h) (left + lost) (K.next hleft r h)).conseq
              fun _ _ O => O.next hbody
        · refine .ret (exit_outcome K h0 hvalue hcard (hgrown r rfl) ?_)
          rw [if_pos heof]
        · refine .ret (exit_outcome K h0 hvalue hcard (hgrown r rfl) ?_)
          rw [if_neg heof]

/-- Whatever the file holds and whichever allocations are refused. When none is, a program that
prints `n + 1` histograms ends with `n` blocks that no pointer leads to. -/
theorem decoderMain_blocks (scanSeconds : List UInt8 → Option (Option HdrTimespec))
    (timestamp interval : HdrTimespec) (file : List UInt8) :
    Does 0 (decoderMain z stack scanSeconds timestamp interval file) fun refused r owned =>
      (r.map Exit.values =
          HdrHistogramC.decoderMain z stack scanSeconds timestamp interval file ∨
        (Refusing refused ∧ ∀ e, r = some e → e.code = -1 ∧ ∃ reader rest n t,
          hdrLogReadHeader scanSeconds hdrLogReaderInit file = some (0, reader, rest) ∧
            Rounds (decoderBody z stack) n ⟨rest, none, timestamp, interval, []⟩ t ∧
              e.printed = t.printed)) ∧
      ∀ e, r = some e → ∃ lost, owned = blocks e.histogram + lost ∧
        (e.histogram = none ↔ e.printed = []) ∧ (lost.card = e.printed.length - 1 ∨
          (Refusing refused ∧ lost.card = e.printed.length - 1 + 1)) := by
  refine Triple.does fun refused => ?_
  rw [decoderMain, HdrHistogramC.decoderMain]
  rcases hdrLogReadHeader scanSeconds hdrLogReaderInit file with _ | ⟨rc, reader, rest⟩
  · exact .ret ⟨.inl rfl, fun e he => by cases he⟩
  dsimp only [Option.bind_some]
  split_ifs with hrc
  · refine .ret ⟨.inl rfl, fun e he => ?_⟩
    cases he
    exact ⟨0, rfl, iff_of_true rfl rfl, .inl rfl⟩
  · have K : (⟨rest, none, timestamp, interval, []⟩ : Program).Kept 0 :=
      ⟨iff_of_true rfl rfl, rfl⟩
    refine (decoderLoop_spec (rest.length + 1) _ 0 K).conseq fun r o O => ⟨?_, O.blocks⟩
    rcases O.value with hvalue | ⟨hr, hstop⟩
    · exact .inl hvalue
    · refine .inr ⟨hr, fun e he => ?_⟩
      obtain ⟨hcode, n, t, R, hprinted⟩ := hstop e he
      exact ⟨hcode, reader, rest, n, t, by rw [not_not.mp hrc], R, hprinted⟩

end Specs

end HdrHistogramC.Owned
