import HdrHistogramC.Hiccup
import HdrHistogramC.RecorderCompletion

/-!
# The log of the hiccup meter

Between two rounds the main thread has written one line for every sample. So the program that reads
logs prints a histogram for every sample, and it reads like one of all the hiccups up to there,
whatever the recording thread does meanwhile.
-/
namespace HdrHistogramC
open BoundedLoop Threads LogLinear BucketLayout.Describes

section Hiccups
variable {l : BucketLayout} {calls : Multiset (RecordCall × Bool)}

theorem acceptedSamples_cons (y : RecordCall × Bool) :
    acceptedSamples l (y ::ₘ calls) = y.1.accepted l + acceptedSamples l calls := by
  rw [acceptedSamples, Multiset.map_cons, Multiset.sum_cons]
  rfl

theorem acceptedSamples_add (calls' : Multiset (RecordCall × Bool)) :
    acceptedSamples l (calls + calls') = acceptedSamples l calls + acceptedSamples l calls' := by
  rw [acceptedSamples, Multiset.map_add, Multiset.sum_add]
  rfl

theorem acceptedSamples_unit (U : ∀ y ∈ calls, y.1.Unit) :
    (∀ r ∈ acceptedSamples l calls, l.Recordable r.1 ∧ r.2 = 1) ∧
      countSum (acceptedSamples l calls) ≤ Multiset.card calls := by
  induction calls using Multiset.induction_on with
  | empty => exact ⟨fun r hr => absurd hr (Multiset.notMem_zero r), le_rfl⟩
  | cons y calls ih =>
      obtain ⟨hmem, hsum⟩ := ih fun x hx => U x (Multiset.mem_cons_of_mem hx)
      obtain ⟨v, hv⟩ := U y (Multiset.mem_cons_self y calls)
      have haccepted : y.1.accepted l = if l.Recordable v then {(v, 1)} else 0 := by
        rw [hv]
        rfl
      rw [acceptedSamples_cons, haccepted, countSum_add, Multiset.card_cons]
      split_ifs with hrecordable
      · refine ⟨fun r hr => ?_, ?_⟩
        · rcases Multiset.mem_add.mp hr with hr | hr
          · rw [Multiset.mem_singleton.mp hr]
            exact ⟨hrecordable, rfl⟩
          · exact hmem r hr
        · have hone : countSum {(v, (1 : Int64))} = 1 := by
            rw [countSum, Multiset.map_singleton, Multiset.sum_singleton]
            rfl
          rw [hone]
          push_cast
          omega
      · rw [zero_add, countSum_zero]
        refine ⟨hmem, ?_⟩
        push_cast
        omega

theorem admissible_hiccups {rs : List Sample}
    (hrs : (rs : Multiset Sample) = acceptedSamples l calls) (U : ∀ y ∈ calls, y.1.Unit)
    (hcard : Multiset.card calls < 2 ^ 63) : Admissible l rs := by
  obtain ⟨hmem, hsum⟩ := acceptedSamples_unit (l := l) U
  rw [← hrs] at hmem hsum
  refine ⟨fun r hr => (hmem r hr).1, fun r hr => ?_, ?_⟩
  · rw [(hmem r hr).2]
    exact le_rfl
  · rw [countSum_coe] at hsum
    omega

end Hiccups

section Log
variable {z : Zlib} {stack : ℕ → UInt8} {printSeconds : HdrTimespec → List UInt8}
  {scanSeconds : List UInt8 → Option (Option HdrTimespec)} {lowest highest : Int64}
  {figures : Int32} {h₀ h : HdrHistogram} {l : BucketLayout} {output : List UInt8}
  {calls : Multiset (RecordCall × Bool)}
  {xs : List (HdrHistogram × Multiset (RecordCall × Bool))}

/-- A header that is read to its end, and a line for each of the samples. -/
def HiccupLog (z : Zlib) (stack : ℕ → UInt8) (printSeconds : HdrTimespec → List UInt8)
    (scanSeconds : List UInt8 → Option (Option HdrTimespec)) (l : BucketLayout)
    (output : List UInt8) (xs : List (HdrHistogram × Multiset (RecordCall × Bool))) : Prop :=
  ∃ header items lines,
    (∀ entries, ∃ reader, hdrLogReadHeader scanSeconds hdrLogReaderInit (header ++ entries) =
      some (0, reader, entries)) ∧
    output = header ++ lines.flatten ∧
    List.Forall₂ (fun i line => LineOf z stack printSeconds l i.1 i.2 line) items lines ∧
    List.Forall₂ (fun (i : (HdrLogEntry × HdrHistogram) × List Sample) x =>
      (i.2 : Multiset Sample) = acceptedSamples l x.2) items xs

theorem header_foobar {startTimestamp timestamp : HdrTimespec}
    (T : (HiccupAction.start startTimestamp timestamp).Timed printSeconds scanSeconds) :
    ∃ header, hdrLogWriteHeader printSeconds [] (some (ascii "foobar")) (some timestamp) =
        some (0, header) ∧
      ∀ entries, ∃ reader, hdrLogReadHeader scanSeconds hdrLogReaderInit (header ++ entries) =
        some (0, reader, entries) := by
  obtain ⟨-, hseconds, hrange, hdates⟩ := T
  have hseconds' : ∀ ts ∈ some timestamp, SecondsText (printSeconds ts) := by
    rintro ts ⟨⟩
    exact hseconds
  obtain ⟨time, htime⟩ : ∃ time, timeText printSeconds (some timestamp) = some time := by
    refine timeText_isSome.mpr ?_
    rintro ts ⟨⟩
    exact hrange
  have hfit : NumbersFit scanSeconds time := by
    refine (numbersFit_timeText scanSeconds htime).mpr ?_
    rintro ts ⟨⟩
    exact hdates
  have hplain : ∀ cs ∈ some (ascii "foobar"), '\n'.toUInt8 ∉ cs := by
    rintro cs ⟨⟩
    decide
  have hlength : ∀ cs ∈ some (ascii "foobar"), (prefixLine cs).length < 2 ^ 31 := by
    rintro cs ⟨⟩
    decide
  have hpieces : PiecesRead scanSeconds (prefixText (some (ascii "foobar"))) := by
    rw [piecesRead_prefixText]
    rintro cs ⟨⟩ k hk
    have hshort : (prefixLine (ascii "foobar")).length = 10 := rfl
    obtain rfl : k = 0 := by omega
    exact ⟨rfl, by decide, Option.some_ne_none _⟩
  refine ⟨_, (hdrLogWriteHeader_iff hseconds').mpr ⟨hlength, time, htime, rfl⟩, fun entries => ?_⟩
  obtain ⟨reader, hread, -⟩ := (hdrLogReadHeader_iff scanSeconds hplain hseconds' htime rfl
    hdrLogReaderInit entries).mpr ⟨hpieces, hfit⟩
  exact ⟨reader, hread⟩

theorem hiccup_lineOf (init : hdrInit lowest highest figures = some (.ok h₀)) (Z : z.RoundTrips)
    (stack : ℕ → UInt8) (K : Collected h₀ h (acceptedSamples h₀.toBucketLayout calls))
    (U : ∀ y ∈ calls, y.1.Unit) (hcard : Multiset.card calls < 2 ^ 63) {t e : HdrTimespec}
    (ht : ClockText printSeconds t) (he : ClockText printSeconds e) :
    ∃ (rs : List Sample) (line : List UInt8),
      (rs : Multiset Sample) = acceptedSamples h₀.toBucketLayout calls ∧
      LineOf z stack printSeconds h₀.toBucketLayout (intervalEntry t e, h) rs line := by
  have R₀ := represents_hdrInit init
  have N : h₀.Normalised := (R₀.wellFormed ⟨by simp, by simp⟩).toNormalised
  obtain ⟨rs, hrs⟩ : ∃ rs : List Sample,
      (rs : Multiset Sample) = acceptedSamples h₀.toBucketLayout calls := ⟨_, Multiset.coe_toList _⟩
  have S := admissible_hiccups hrs U hcard
  obtain ⟨h', hall, K'⟩ := (collected_self h₀).recordAll N S.recordable
  rw [add_zero, hrs] at K'
  obtain rfl := K.eq K'
  obtain ⟨h', hall', R, -⟩ := R₀.recordAll S.recordable
  obtain rfl : h = h' := Option.some.inj (hall.symm.trans hall')
  obtain ⟨n, E⟩ := R.encodable
  have L : Loggable z printSeconds (intervalEntry t e) h := by
    have hnone : (intervalEntry t e).loggedTag = [] := if_neg fun htag => htag.1 rfl
    refine ⟨fun htag => absurd rfl htag.1, ?_, ?_, ht.1, he.1,
      ⟨lowest, highest, figures, h₀, rs, init, S.positive, hall⟩,
      (R.wellFormed (S.positive.bounded S.fits)).nonneg,
      fun text henc => loggedLine_length (by rw [hnone]; decide) ht.2 he.2
        (hdrLogEncode_length Z E henc)⟩
    · rw [hnone]
      exact nofun
    · rw [hnone]
      exact List.not_mem_nil
  have I : IntervalLogged z printSeconds h₀ (intervalEntry t e, h) rs :=
    ⟨L, hall, S.recordable, S.positive⟩
  obtain ⟨line, hline⟩ := I.lineOf R₀ S.fits Z stack
  exact ⟨rs, line, hrs, hline⟩

theorem HiccupLog.append (G : HiccupLog z stack printSeconds scanSeconds l output xs)
    {e : HdrLogEntry × HdrHistogram} {rs : List Sample} {line : List UInt8}
    (hline : LineOf z stack printSeconds l e rs line)
    (hrs : (rs : Multiset Sample) = acceptedSamples l calls) :
    HiccupLog z stack printSeconds scanSeconds l (output ++ line) (xs ++ [(h, calls)]) := by
  obtain ⟨header, items, lines, hread, rfl, E, F⟩ := G
  refine ⟨header, items ++ [(e, rs)], lines ++ [line], hread, ?_, ?_, ?_⟩
  · rw [List.append_assoc, List.flatten_append, List.flatten_singleton]
  · exact List.rel_append E (.cons hline .nil)
  · exact List.rel_append F (.cons hrs .nil)

theorem flatMap_samples {items : List ((HdrLogEntry × HdrHistogram) × List Sample)}
    (F : List.Forall₂ (fun (i : (HdrLogEntry × HdrHistogram) × List Sample) x =>
      (i.2 : Multiset Sample) = acceptedSamples l x.2) items xs) :
    ((items.flatMap Prod.snd : List Sample) : Multiset Sample) =
      acceptedSamples l (xs.map Prod.snd).sum := by
  induction F with
  | nil => rfl
  | cons hi _ ih =>
      rw [List.flatMap_cons, ← Multiset.coe_add, hi, ih, List.map_cons, List.sum_cons,
        acceptedSamples_add]

/-- The program that reads logs prints a histogram for every sample, which reports what one does
that all the calls up to there were made on. -/
theorem HiccupLog.decoded
    (G : HiccupLog z stack printSeconds scanSeconds h₀.toBucketLayout output xs)
    (init : hdrInit lowest highest figures = some (.ok h₀))
    (U : ∀ y ∈ (xs.map Prod.snd).sum, y.1.Unit)
    (answers : ∀ y ∈ (xs.map Prod.snd).sum, y.2 = y.1.answer h₀.toBucketLayout)
    (hcard : Multiset.card (xs.map Prod.snd).sum < 2 ^ 63) (timestamp interval : HdrTimespec) :
    ∃ printed, decoderMain z stack scanSeconds timestamp interval output = some (0, printed) ∧
      printed.length = xs.length ∧ ∀ k < xs.length, ∃ h d, printed[k]? = some h ∧
        MadeBy h₀ d ((xs.take (k + 1)).map Prod.snd).sum ∧ SameReports h d := by
  have R₀ := represents_hdrInit init
  have N : h₀.Normalised := (R₀.wellFormed ⟨by simp, by simp⟩).toNormalised
  obtain ⟨header, items, lines, hread, rfl, E, F⟩ := G
  have S := admissible_hiccups (flatMap_samples F) U hcard
  obtain ⟨reader, hheader⟩ := hread lines.flatten
  obtain ⟨printed, hmain, hlength, htotals⟩ := decoderMain_lines E S hheader timestamp interval
  rw [F.length_eq] at hlength htotals
  refine ⟨printed, hmain, hlength, fun k hk => ?_⟩
  obtain ⟨h, hh, A⟩ := htotals k hk
  have S' := admissible_take S (k + 1)
  obtain ⟨d, hall, K⟩ := (collected_self h₀).recordAll N S'.recordable
  obtain ⟨d', hall', R, hl⟩ := R₀.recordAll S'.recordable
  obtain rfl : d = d' := Option.some.inj (hall.symm.trans hall')
  have A' := R.aggregates S'.positive S'.fits
  rw [hl] at A'
  rw [add_zero, flatMap_samples (List.forall₂_take _ F)] at K
  refine ⟨h, d, hh, K.madeBy N fun y hy => answers y ?_, A.sameReports A' R₀.accepted S'⟩
  rw [← List.take_append_drop (k + 1) xs, List.map_append, List.sum_append]
  exact Multiset.mem_add.mpr (.inl hy)

end Log

section Runs
variable {z : Zlib} {stack : ℕ → UInt8} {printSeconds : HdrTimespec → List UInt8}
  {scanSeconds : List UInt8 → Option (Option HdrTimespec)} {lowest highest : Int64}
  {figures : Int32} {h₀ : HdrHistogram} {s : Hiccup}
  {g g' : Recorder HdrHistogram RecordCall Bool} {l l' : Pc PlainWork RecordCall Bool}
  {m : HiccupMain} {output : List UInt8}

/-- What has been written where the main thread stands: a line for every sample, but for one that is
about to be written. Nobody else has that. -/
def HiccupMain.Logged (z : Zlib) (stack : ℕ → UInt8) (printSeconds : HdrTimespec → List UInt8)
    (scanSeconds : List UInt8 → Option (Option HdrTimespec)) (l : BucketLayout)
    (g : Recorder HdrHistogram RecordCall Bool) (output : List UInt8) : HiccupMain → Prop
  | .starting => output = [] ∧ g.samples = []
  | .sleeping inactive startTimestamp => ClockText printSeconds startTimestamp ∧
      (∀ x ∈ inactive, x ∈ g.obtained) ∧
        HiccupLog z stack printSeconds scanSeconds l output g.samples
  | .sampling startTimestamp call => ClockText printSeconds startTimestamp ∧
      call.owns.isSome = true ∧ HiccupLog z stack printSeconds scanSeconds l output g.samples
  | .sampled inactive startTimestamp => ClockText printSeconds startTimestamp ∧
      inactive ∈ g.obtained ∧ ∃ xs calls, g.samples = xs ++ [(g.heap inactive, calls)] ∧
        HiccupLog z stack printSeconds scanSeconds l output xs

theorem HiccupMain.Logged.same {b : BucketLayout}
    (L : m.Logged z stack printSeconds scanSeconds b g output) (ho : g'.obtained = g.obtained)
    (hs : g'.samples = g.samples) (hh : ∀ x ∈ g.obtained, g'.heap x = g.heap x) :
    m.Logged z stack printSeconds scanSeconds b g' output := by
  cases m with
  | starting => exact ⟨L.1, hs.trans L.2⟩
  | sleeping inactive t => exact ⟨L.1, fun x hx => ho ▸ L.2.1 x hx, hs ▸ L.2.2⟩
  | sampling t call => exact ⟨L.1, L.2.1, hs ▸ L.2.2⟩
  | sampled x t =>
      obtain ⟨ht, hx, xs, calls, hxs, G⟩ := L
      exact ⟨ht, ho ▸ hx, xs, calls, by rw [hs, hh x hx, hxs], G⟩

theorem Stepped.owns {H W C R : Type} {O : HistogramCalls H W C R} {g g' : Recorder H C R}
    {l l' : Pc W C R} (h : Stepped O g l g' l') (hl : l.owns.isSome = true)
    (hr : l.returned = none) : l'.owns.isSome = true := by
  cases h with
  | enter | allocate | recycle | load | refuse | operate | finish | exit => cases hl
  | handOver => cases hr
  | _ => rfl

theorem HiccupRuns.card_exited (run : HiccupRuns z printSeconds scanSeconds h₀ s) :
    Multiset.card s.recorder.exited < 2 ^ 63 := by
  cases run with
  | init => exact Nat.two_pow_pos 63
  | next _ _ _ fits => exact fits.2

theorem Hiccup.sampled_le (R : SoleRuns plainCalls h₀ s.calls) :
    (s.recorder.samples.map Prod.snd).sum ≤ s.recorder.exited := by
  have hexited : s.recorder.exited = (s.recorder.samples.map Prod.snd).sum +
      ∑ q ∈ s.recorder.live, s.recorder.left q := R.recorder.tallied.exited
  rw [hexited]
  exact Multiset.le_add_right _ _

/-- The recording thread leaves the samples alone, and what has been written. -/
theorem Hiccup.logged_recorded {b : BucketLayout} (R : SoleRuns plainCalls h₀ s.calls)
    (L : s.main.Logged z stack printSeconds scanSeconds b s.recorder s.output)
    (hs : Stepped plainCalls s.recorder s.recordHiccups g l) (hl : s.recordHiccups.owns = none)
    (hl' : l.owns = none) :
    s.main.Logged z stack printSeconds scanSeconds b g s.output := by
  obtain ⟨ho, hsamples⟩ := hs.records hl hl'
  refine L.same ho hsamples fun x hx => ?_
  exact R.recorder.safe.untouched (t := HiccupThread.recordHiccups) (g := g) (l := l) hs hx
    (ho ▸ hx)

/-- The sample that has been returned is written on a line. -/
theorem Hiccup.sample_lineOf (init : hdrInit lowest highest figures = some (.ok h₀))
    (Z : z.RoundTrips) (stack : ℕ → UInt8) (run : HiccupRuns z printSeconds scanSeconds h₀ s)
    {x : ℕ} {xs : List (HdrHistogram × Multiset (RecordCall × Bool))}
    {calls : Multiset (RecordCall × Bool)}
    (hxs : s.recorder.samples = xs ++ [(s.recorder.heap x, calls)]) {t e : HdrTimespec}
    (ht : ClockText printSeconds t) (he : ClockText printSeconds e) :
    ∃ (rs : List Sample) (line : List UInt8),
      (rs : Multiset Sample) = acceptedSamples h₀.toBucketLayout calls ∧
      LineOf z stack printSeconds h₀.toBucketLayout (intervalEntry t e, s.recorder.heap x) rs
        line := by
  obtain ⟨R, K⟩ := run.calls
  have hmem : (s.recorder.heap x, calls) ∈ s.recorder.samples := by
    rw [hxs]
    exact List.mem_append_right _ (List.mem_singleton_self _)
  have hle : calls ≤ s.recorder.exited :=
    (List.le_sum_of_mem (List.mem_map_of_mem hmem)).trans (Hiccup.sampled_le R)
  exact hiccup_lineOf init Z stack ((R.held init).samples _ hmem)
    (fun y hy => K.exited y (Multiset.mem_of_le hle hy))
    ((Multiset.card_le_card hle).trans_lt run.card_exited) ht he

/-- The run lemma. -/
theorem HiccupRuns.logged (init : hdrInit lowest highest figures = some (.ok h₀))
    (Z : z.RoundTrips) (stack : ℕ → UInt8) (run : HiccupRuns z printSeconds scanSeconds h₀ s) :
    s.main.Logged z stack printSeconds scanSeconds h₀.toBucketLayout s.recorder s.output := by
  induction run with
  | init => exact ⟨rfl, rfl⟩
  | @next s s' a before hstep timed _ L =>
      obtain ⟨R, K⟩ := before.calls
      cases hiccupStep_cases hstep with
      | record hs =>
          exact Hiccup.logged_recorded (s := s) R L (step_cases hs) K.recording
            (step_record hs).2.1
      | recording hs =>
          exact Hiccup.logged_recorded (s := s) R L (step_cases hs) K.recording
            ((step_proceed hs).1 K.recording)
      | start hm hwrite =>
          rw [hm] at L
          rw [L.1] at hwrite
          obtain ⟨header, hheader, hread⟩ := header_foobar timed
          rw [hheader] at hwrite
          cases hwrite
          refine ⟨timed.1, nofun, header, [], [], hread, (List.append_nil _).symm, .nil, ?_⟩
          dsimp only
          rw [L.2]
          exact .nil
      | @sample inactive t g l hm hs =>
          rw [hm] at L
          obtain ⟨-, howns, -, hsamples⟩ := step_sampleAndRecycle hs
          refine ⟨L.1, howns, ?_⟩
          dsimp only
          rw [hsamples]
          exact L.2.2
      | @sampling t g l l' hm hs =>
          rw [hm] at L
          have hmain := K.main
          rw [hm] at hmain
          have hstepped := step_cases hs
          cases hr : l.returned with
          | none =>
              rw [HiccupMain.continued, hr]
              refine ⟨L.1, hstepped.owns L.2.1 hr, ?_⟩
              dsimp only
              rw [(hstepped.samples hmain).2 hr]
              exact L.2.2
          | some old =>
              cases l <;> cases hr
              cases hs
              exact ⟨L.1, Finset.mem_insert_self _ _, _, _, rfl, L.2.2⟩
      | @write x t e t' r hm hwrite =>
          rw [hm] at L
          obtain ⟨ht, hx, xs, calls, hxs, G⟩ := L
          obtain ⟨rs, line, hrs, hline⟩ :=
            Hiccup.sample_lineOf init Z stack before hxs ht timed.1
          rw [hdrLogWrite_eq_entry, hline.write] at hwrite
          cases hwrite
          refine ⟨timed.2, fun y hy => ?_, ?_⟩
          · cases hy
            exact hx
          · dsimp only
            rw [hxs]
            exact G.append hline hrs

def HiccupMain.next (t u : HdrTimespec) : HiccupMain → HiccupAction
  | .starting => .start t u
  | .sleeping _ _ => .sample
  | .sampling _ _ => .sampling
  | .sampled _ _ => .write t u

/-- What a thread does next, with two times that it may read. -/
def Hiccup.next (s : Hiccup) (t u : HdrTimespec) : HiccupThread → HiccupAction
  | .recordHiccups => if s.recordHiccups.resting then .record t u else .recording
  | .main => s.main.next t u

theorem HiccupMain.call_idle (hm : ∀ t call, m ≠ .sampling t call) : m.call = .idle := by
  cases m with
  | sampling t call => exact absurd rfl (hm t call)
  | _ => rfl

theorem Hiccup.divided (run : HiccupRuns z printSeconds scanSeconds h₀ s)
    (hm : ∀ t call, s.main ≠ .sampling t call) :
    s.recorder.exited =
      (s.recorder.samples.map Prod.snd).sum + s.recorder.left s.recorder.active := by
  obtain ⟨R, K⟩ := run.calls
  refine R.recorder.tallied.divided_settled fun thread => ?_
  cases thread with
  | recordHiccups =>
      change s.recordHiccups.retires = none
      rcases hr : s.recordHiccups.retires with _ | q
      · rfl
      · have howns := K.recording
        rw [Pc.owns_of_retires hr] at howns
        cases howns
  | main =>
      change s.main.call.retires = none
      rw [HiccupMain.call_idle hm]
      rfl

end Runs

end HdrHistogramC
