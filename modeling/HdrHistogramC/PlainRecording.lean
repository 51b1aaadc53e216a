import HdrHistogramC.ConcurrentRecording
import HdrHistogramC.SoleRecording

/-!
# Recording without atomic operations

The interval recorder with the recording functions that are not atomic: every load and store of a
field that they change is a step of its own, and sample calls come in between. A second writer might
lose an update. With one record call at a time every sample is the histogram that its calls leave
behind when they are made one after another, and so are their answers.
-/
namespace HdrHistogramC
open Threads BoundedLoop FixedWidth

/-- The next access of `hdr_record_values` to a field that changes. -/
inductive PlainPc where
  | loadCount (index : Int32)
  | storeCount (index : Int32) (count : Int64)
  | loadTotal
  | storeTotal (totalCount : Int64)
  | loadMax
  | storeMax
  | loadMin
  | storeMin
deriving Repr, DecidableEq

/-- A recording that is under way: the call, the value it has come to, and whether that is one of
the backfill loop. The arguments of a call are those of the atomic function. -/
structure PlainWork where
  call : RecordCall
  value : Int64
  backfill : Bool
  pc : PlainPc
deriving Repr, DecidableEq

namespace HdrHistogram

/-- The entry that `counts_inc_normalised` writes. -/
def countsSlot (h : HdrHistogram) (index : Int32) : Int32 :=
  if h.normalizingIndexOffset = 0 then index else h.normalizeIndex index

/-- `h->counts[index] = count` -/
def countsStore (h : HdrHistogram) (index : Int32) (count : Int64) : Option HdrHistogram :=
  if 0 ≤ index ∧ index.toInt.toNat < h.counts.length then
    some { h with
      counts := h.counts.set index.toInt.toNat count
      counts_length := by rw [List.length_set, h.counts_length] }
  else none

end HdrHistogram

/-- The record functions before the first access, or their refusal. -/
def RecordCall.plainUpdate (call : RecordCall) (h : HdrHistogram) : PlainWork ⊕ Bool :=
  match h.recordIndex call.value with
  | none => .inr false
  | some countsIndex => .inl
      { call := call, value := call.value, backfill := false,
        pc := .loadCount (h.countsSlot countsIndex) }

namespace PlainWork

/-- One value has been recorded: the call returns, or goes on to the next missing value. -/
def recorded (w : PlainWork) (h : HdrHistogram) : PlainWork ⊕ Bool :=
  match w.call with
  | .recordValuesAtomic _ _ => .inr true
  | .recordCorrectedValuesAtomic value _ expectedInterval =>
      if w.backfill = false ∧ (expectedInterval ≤ 0 ∨ value ≤ expectedInterval) then .inr true
      else
        let missingValue := w.value - expectedInterval
        if missingValue ≥ expectedInterval then
          match h.recordIndex missingValue with
          | none => .inr false
          | some countsIndex => .inl
              { w with
                value := missingValue, backfill := true,
                pc := .loadCount (h.countsSlot countsIndex) }
        else .inr true

def operation (w : PlainWork) (h : HdrHistogram) : Option (HdrHistogram × (PlainWork ⊕ Bool)) :=
  match w.pc with
  | .loadCount index =>
      (h.countsGetDirect index).map fun count => (h, .inl { w with pc := .storeCount index count })
  | .storeCount index count =>
      (h.countsStore index (count + w.call.count)).map fun h =>
        (h, .inl { w with pc := .loadTotal })
  | .loadTotal => some (h, .inl { w with pc := .storeTotal h.totalCount })
  | .storeTotal totalCount =>
      some ({ h with totalCount := totalCount + w.call.count }, .inl { w with pc := .loadMax })
  | .loadMax => some (h, .inl { w with pc := if w.value > h.maxValue then .storeMax else .loadMin })
  | .storeMax => some ({ h with maxValue := w.value }, .inl { w with pc := .loadMin })
  | .loadMin =>
      if w.value ≠ 0 ∧ w.value < h.minValue then some (h, .inl { w with pc := .storeMin })
      else some (h, w.recorded h)
  | .storeMin => some ({ h with minValue := w.value }, w.recorded h)

end PlainWork

/-- The recorder with the update actions that are not atomic. -/
def plainCalls : HistogramCalls HdrHistogram PlainWork RecordCall Bool where
  updateAction := RecordCall.plainUpdate
  operation := PlainWork.operation
  init := atomicCalls.init
  reset := atomicCalls.reset

section Sequential
variable {h h' : HdrHistogram} {w : PlainWork} {v c : Int64} {i : Int32} {x : Bool × HdrHistogram}

theorem hdrRecordValues_recordIndex (h : HdrHistogram) (v c : Int64) : h.hdrRecordValues v c =
    match h.recordIndex v with
    | none => some (false, h)
    | some i => (h.countsIncNormalised i c).map fun h => (true, h.updateMinMax v) := by
  unfold HdrHistogram.hdrRecordValues HdrHistogram.recordIndex
  dsimp only
  split_ifs <;> rfl

theorem countsAdd_eq_store (h : HdrHistogram) (i : Int32) (c : Int64) : h.countsAdd i c =
    (h.countsGetDirect i).bind fun count => h.countsStore i (count + c) := by
  unfold HdrHistogram.countsAdd HdrHistogram.countsGetDirect HdrHistogram.countsStore
  by_cases h0 : 0 ≤ i
  · by_cases hlt : i.toInt.toNat < h.counts.length
    · simp only [h0, hlt, true_and, if_true, List.getElem?_eq_getElem hlt, Option.bind_some,
        List.modify_eq_set_get _ hlt, List.get_eq_getElem]
    · simp only [h0, hlt, true_and, if_false, if_true, List.getElem?_eq_none (Nat.le_of_not_lt hlt),
        Option.bind_none]
  · simp only [h0, false_and, if_false, Option.bind_none]

theorem ends_loadMin (hpc : w.pc = .loadMin)
    (hh : h' = if w.value ≠ 0 ∧ w.value < h.minValue then { h with minValue := w.value } else h)
    (E : Ends PlainWork.operation (w.recorded h') h' x) :
    Ends PlainWork.operation (.inl w) h x := by
  by_cases hmin : w.value ≠ 0 ∧ w.value < h.minValue
  · rw [if_pos hmin] at hh
    subst hh
    refine .next (by rw [PlainWork.operation, hpc]; exact if_pos hmin) (.next rfl ?_)
    exact E
  · rw [if_neg hmin] at hh
    subst hh
    exact .next (by rw [PlainWork.operation, hpc]; exact if_neg hmin) E

theorem ends_loadMax (hpc : w.pc = .loadMax)
    (E : Ends PlainWork.operation (w.recorded (h.updateMinMax w.value))
      (h.updateMinMax w.value) x) :
    Ends PlainWork.operation (.inl w) h x := by
  by_cases hmax : w.value > h.maxValue
  · refine .next (by rw [PlainWork.operation, hpc, if_pos hmax]) (.next rfl ?_)
    refine ends_loadMin rfl ?_ E
    rw [HdrHistogram.updateMinMax, if_pos hmax]
  · refine .next (by rw [PlainWork.operation, hpc, if_neg hmax]) ?_
    refine ends_loadMin rfl ?_ E
    rw [HdrHistogram.updateMinMax, if_neg hmax]

theorem hdrRecordValues_true (hi : h.recordIndex v = some i) {answer : Bool}
    (hrec : h.hdrRecordValues v c = some (answer, h')) : answer = true := by
  rw [hdrRecordValues_recordIndex, hi] at hrec
  obtain ⟨h₁, -, he⟩ := Option.map_eq_some_iff.mp hrec
  exact (Prod.mk.inj he).1.symm

/-- The accesses for one value do what `hdr_record_values` does. -/
theorem ends_value (hpc : w.pc = .loadCount (h.countsSlot i)) (hi : h.recordIndex w.value = some i)
    (hrec : h.hdrRecordValues w.value w.call.count = some (true, h'))
    (E : Ends PlainWork.operation (w.recorded h') h' x) :
    Ends PlainWork.operation (.inl w) h x := by
  rw [hdrRecordValues_recordIndex, hi] at hrec
  obtain ⟨h₁, hinc, he⟩ := Option.map_eq_some_iff.mp hrec
  obtain ⟨-, rfl⟩ := Prod.mk.inj he
  obtain ⟨h₂, hadd, rfl⟩ := Option.map_eq_some_iff.mp hinc
  have hslot : h.countsAdd (h.countsSlot i) w.call.count = some h₂ := by
    rw [HdrHistogram.countsSlot]
    split_ifs at hadd ⊢ <;> exact hadd
  rw [countsAdd_eq_store] at hslot
  obtain ⟨count, hget, hstore⟩ := Option.bind_eq_some_iff.mp hslot
  have hload : w.operation h =
      some (h, .inl { w with pc := .storeCount (h.countsSlot i) count }) := by
    simp only [PlainWork.operation, hpc, hget, Option.map_some]
  have hset : ({ w with pc := .storeCount (h.countsSlot i) count } : PlainWork).operation h =
      some (h₂, .inl { w with pc := .loadTotal }) := by
    simp only [PlainWork.operation, hstore, Option.map_some]
  refine .next hload (.next hset (.next rfl (.next rfl ?_)))
  exact ends_loadMax rfl E

theorem ends_backfill {v c e : Int64} (n : ℕ) {w : PlainWork} {h : HdrHistogram}
    (hcall : w.call = .recordCorrectedValuesAtomic v c e)
    (hgo : ¬ (w.backfill = false ∧ (e ≤ 0 ∨ v ≤ e)))
    (hrun : run (HdrHistogram.backfillBody c e) n (w.value - e, h) = some x) :
    Ends PlainWork.operation (w.recorded h) h x := by
  induction n generalizing w h with
  | zero => cases hrun
  | succ n ih =>
      simp only [PlainWork.recorded, hcall, hgo, if_false]
      simp only [run, HdrHistogram.backfillBody] at hrun
      by_cases hge : w.value - e ≥ e
      · rw [if_pos hge] at hrun ⊢
        cases hi : h.recordIndex (w.value - e) with
        | none =>
            rw [hdrRecordValues_recordIndex, hi] at hrun
            cases hrun
            exact .done false h
        | some i =>
            cases hrec : h.hdrRecordValues (w.value - e) c with
            | none =>
                rw [hrec] at hrun
                cases hrun
            | some r =>
                obtain ⟨answer, h'⟩ := r
                obtain rfl := hdrRecordValues_true hi hrec
                rw [hrec] at hrun
                refine ends_value rfl hi hrec ?_
                exact ih rfl (fun hfirst => Bool.noConfusion hfirst.1) hrun
      · rw [if_neg hge] at hrun ⊢
        cases hrun
        exact .done true h

/-- The update without interruption is the recording function. -/
theorem ends_run (h : HdrHistogram) (call : RecordCall) (x : Bool × HdrHistogram)
    (hrun : call.run h = some x) :
    Ends PlainWork.operation (call.plainUpdate h) h x := by
  rw [RecordCall.plainUpdate]
  cases hi : h.recordIndex call.value with
  | none =>
      have hreject : ∀ c, h.hdrRecordValues call.value c = some (false, h) := fun c => by
        rw [hdrRecordValues_recordIndex, hi]
      have hx : x = (false, h) := by
        cases call with
        | recordValuesAtomic v c => exact Option.some.inj (hrun.symm.trans (hreject c))
        | recordCorrectedValuesAtomic v c e =>
            rw [RecordCall.run, HdrHistogram.hdrRecordCorrectedValues] at hrun
            rw [show h.hdrRecordValues v c = some (false, h) from hreject c] at hrun
            exact (Option.some.inj hrun).symm
      rw [hx]
      exact .done false h
  | some i =>
      cases call with
      | recordValuesAtomic v c =>
          obtain ⟨answer, h'⟩ := x
          obtain rfl := hdrRecordValues_true hi hrun
          exact ends_value rfl hi hrun (.done true h')
      | recordCorrectedValuesAtomic v c e =>
          rw [RecordCall.run, HdrHistogram.hdrRecordCorrectedValues] at hrun
          cases hrec : h.hdrRecordValues v c with
          | none =>
              rw [hrec] at hrun
              cases hrun
          | some r =>
              obtain ⟨answer, h'⟩ := r
              obtain rfl := hdrRecordValues_true hi hrec
              rw [hrec] at hrun
              refine ends_value rfl hi hrec ?_
              by_cases hend : e ≤ 0 ∨ v ≤ e
              · simp only [hend, if_true] at hrun
                cases hrun
                simp only [PlainWork.recorded, hend, and_self, if_true]
                exact .done true h'
              · simp only [hend, if_false] at hrun
                exact ends_backfill _ rfl (fun hfirst => hend hfirst.2) hrun

theorem countsStore_layout {count : Int64} (hs : h.countsStore i count = some h') :
    h'.toBucketLayout = h.toBucketLayout := by
  rw [HdrHistogram.countsStore] at hs
  split_ifs at hs
  cases hs
  rfl

theorem PlainWork.operation_layout {r : PlainWork ⊕ Bool}
    (ho : w.operation h = some (h', r)) : h'.toBucketLayout = h.toBucketLayout := by
  rw [PlainWork.operation] at ho
  cases hpc : w.pc with
  | loadCount index =>
      rw [hpc] at ho
      obtain ⟨count, -, he⟩ := Option.map_eq_some_iff.mp ho
      cases he
      rfl
  | storeCount index count =>
      rw [hpc] at ho
      obtain ⟨h₁, hs, he⟩ := Option.map_eq_some_iff.mp ho
      cases he
      exact countsStore_layout hs
  | loadMin =>
      rw [hpc] at ho
      dsimp only at ho
      split_ifs at ho <;> cases ho <;> rfl
  | _ =>
      rw [hpc] at ho
      cases ho
      rfl

theorem plainCalls_sequential : Sequential plainCalls RecordCall.run where
  ends := ends_run
  init w h h' r ho := by
    have hl := PlainWork.operation_layout ho
    simp only [plainCalls, atomicCalls, hl]

end Sequential

section Empty
variable {g h : HdrHistogram}

theorem Represents.counts_zero (R : Represents h []) : ∀ c ∈ h.counts, c = 0 := by
  intro c hc
  obtain ⟨n, hn⟩ := List.mem_iff_getElem?.mp hc
  have hmod := R.counts n c hn
  rw [sumCountsAt_nil] at hmod
  rw [← Int64.toInt_inj, Int64.toInt_zero]
  exact eq_of_modEq64 hmod (Int64.le_toInt c) (Int64.toInt_lt c) (by decide) (by decide)

theorem Represents.eq_of_nil (R : Represents h []) (R' : Represents g [])
    (hl : h.toBucketLayout = g.toBucketLayout) : h = g := by
  have hlength : h.counts.length = g.counts.length := by
    have hh := h.counts_length
    rw [hl, ← g.counts_length] at hh
    exact_mod_cast hh
  have hcounts : h.counts = g.counts := by
    rw [List.eq_replicate_iff.mpr ⟨rfl, R.counts_zero⟩,
      List.eq_replicate_iff.mpr ⟨rfl, R'.counts_zero⟩, hlength]
  have htotal : ∀ {k : HdrHistogram}, Represents k [] → k.totalCount = 0 := by
    intro k K
    rw [← Int64.toInt_inj, Int64.toInt_zero]
    exact eq_of_modEq64 K.total (Int64.le_toInt _) (Int64.toInt_lt _) (by decide) (by decide)
  have hmax : ∀ {k : HdrHistogram}, Represents k [] → k.maxValue = 0 := by
    intro k K
    rcases K.max_mem with h | ⟨r, hr, -⟩
    · exact h
    · cases hr
  have hmin : ∀ {k : HdrHistogram}, Represents k [] → k.minValue = INT64_MAX := by
    intro k K
    rcases K.min_mem with h | ⟨r, hr, -⟩
    · exact h
    · cases hr
  have ho := R.offset.trans R'.offset.symm
  have hr := R.ratio.trans R'.ratio.symm
  have ht := (htotal R).trans (htotal R').symm
  have hx := (hmax R).trans (hmax R').symm
  have hn := (hmin R).trans (hmin R').symm
  cases h
  cases g
  simp only [HdrHistogram.mk.injEq]
  exact ⟨hl, hn, hx, ho, hr, ht, hcounts⟩

end Empty

section Spec
variable {lowest highest : Int64} {figures : Int32} {h₀ h : HdrHistogram} {m : Multiset Sample}

/-- The histogram that a sample call makes is the one of the recorder. -/
theorem Gathered.init (init : hdrInit lowest highest figures = some (.ok h₀))
    (K : Collected h₀ h m) : plainCalls.init h = some h₀ := by
  have R := represents_hdrInit init
  obtain ⟨g, hg, hl, -⟩ := hdrInit_of_accepted R.accepted
  obtain rfl := R.eq_of_nil (represents_hdrInit hg) hl.symm
  simp only [plainCalls, atomicCalls, K.layout, hg]

theorem Gathered.reset (R : Represents h₀ []) (K : Collected h₀ h m) :
    plainCalls.reset h = h₀ := by
  have hreset : Represents h.hdrReset [] :=
    represents_empty (show h.toBucketLayout.Accepted by rw [K.layout]; exact R.accepted)
      (K.offset.trans R.offset) (K.ratio.trans R.ratio)
      (fun _ hc => (List.mem_replicate.mp hc).2) rfl rfl rfl
  exact hreset.eq_of_nil R K.layout

/-- What an update in one step may come to. -/
def RecordCall.Settled (l : BucketLayout) (c : RecordCall) : RecordCall ⊕ Bool → Prop
  | .inl call => call = c
  | .inr answer => answer = c.answer l

/-- What it has added. -/
def RecordCall.settled (l : BucketLayout) (c : RecordCall) : RecordCall ⊕ Bool → Multiset Sample
  | .inl _ => 0
  | .inr _ => c.accepted l

/-- The recording functions add the samples of their calls. -/
def sequentialSpec (init : hdrInit lowest highest figures = some (.ok h₀)) :
    UpdateSpec (plainCalls.whole RecordCall.run) (Multiset Sample) where
  contains h m := Collected h₀ h m
  valid c r := c.Settled h₀.toBucketLayout r
  added c r := c.settled h₀.toBucketLayout r
  init K := ⟨h₀, Gathered.init init K, collected_self h₀⟩
  reset K := by
    rw [show (plainCalls.whole RecordCall.run).reset _ = h₀ from
      Gathered.reset (represents_hdrInit init) K]
    exact collected_self h₀
  start _ _ := ⟨rfl, rfl⟩
  operation {h m c w} K V := by
    have N : h₀.Normalised :=
      ((represents_hdrInit init).wellFormed ⟨by simp, by simp⟩).toNormalised
    obtain rfl : w = c := V
    obtain ⟨h', hrun, K'⟩ := K.runCall N w
    refine ⟨h', .inr (w.answer h₀.toBucketLayout), w.accepted h₀.toBucketLayout, ?_, ?_, rfl,
      (zero_add _).symm⟩
    · simp only [HistogramCalls.whole, hrun, Option.map_some]
    · rw [add_comm]
      exact K'

end Spec

/-- The histogram is what its calls leave behind, in any order, when they are made one after another
on a new histogram; and there they give the same answers. -/
def MadeBy (h₀ h : HdrHistogram) (calls : Multiset (RecordCall × Bool)) : Prop :=
  ∀ rs : List (RecordCall × Bool), (rs : Multiset (RecordCall × Bool)) = calls →
    runCalls h₀ (rs.map Prod.fst) = some (h, rs)

/-- The samples that calls leave behind. -/
def acceptedSamples (l : BucketLayout) (calls : Multiset (RecordCall × Bool)) : Multiset Sample :=
  (calls.map fun y => y.1.accepted l).sum

theorem Gathered.madeBy {h₀ h : HdrHistogram} (N : h₀.Normalised)
    {calls : Multiset (RecordCall × Bool)}
    (K : Collected h₀ h (acceptedSamples h₀.toBucketLayout calls))
    (answers : ∀ y ∈ calls, y.2 = y.1.answer h₀.toBucketLayout) : MadeBy h₀ h calls := by
  rintro rs rfl
  obtain ⟨h', hrun, K'⟩ := (collected_self h₀).runCalls N (rs.map Prod.fst)
  rw [add_zero, List.map_map] at K'
  rw [acceptedSamples, Multiset.map_coe, Multiset.sum_coe] at K
  rw [hrun, K'.eq K, List.map_map]
  congr 2
  refine (List.map_congr_left fun y hy => ?_).trans (List.map_id rs)
  rw [Function.comp_apply, ← answers y (Multiset.mem_coe.mpr hy)]
  rfl

abbrev PlainState (ι : Type) := SoleState ι HdrHistogram PlainWork RecordCall Bool

variable {ι : Type} [DecidableEq ι]

/-- What holds in a reachable state of the recorder. A sample is what its calls leave behind, and so
is any other histogram that has recordings and that no writer is in. Every call that has left counts
in one of them. A returned sample is nobody else's. A call that is under way can take its next step
unless it waits for the mutex. -/
structure SequentialIntervals (h₀ : HdrHistogram) (s : PlainState ι) : Prop where
  sampled : ∀ x ∈ s.shared.recorder.samples, MadeBy h₀ x.1 x.2
  holds : ∀ q ∈ s.shared.recorder.live, (∀ t v, (s.pc t).holds ≠ some (v, q)) →
    MadeBy h₀ (s.shared.recorder.heap q) (s.shared.recorder.left q)
  divided : s.shared.recorder.exited = (s.shared.recorder.samples.map Prod.snd).sum +
    ∑ q ∈ s.shared.recorder.live, s.shared.recorder.left q
  exclusive : ∀ x ∈ s.shared.recorder.obtained, Exclusive (s.view SoleRecorder.recorder) x
  proceeds : ∀ t, s.pc t = .idle ∨
    (∃ new, s.pc t = .locking new ∧ s.shared.recorder.phaser.readerMutex = true) ∨
      ∃ r, soleStep plainCalls .proceed s.shared (s.pc t) = some r

/-- What the histograms hold, and what the calls have answered. -/
structure SequentiallyHeld (h₀ : HdrHistogram) (s : PlainState ι) : Prop where
  samples : ∀ x ∈ s.shared.recorder.samples,
    Collected h₀ x.1 (acceptedSamples h₀.toBucketLayout x.2)
  live : ∀ q ∈ s.shared.recorder.live, (∀ t v, (s.pc t).holds ≠ some (v, q)) →
    Collected h₀ (s.shared.recorder.heap q)
      (acceptedSamples h₀.toBucketLayout (s.shared.recorder.left q))
  answers : ∀ y ∈ s.shared.recorder.exited, y.2 = y.1.answer h₀.toBucketLayout
  proceeds : ∀ t, s.pc t = .idle ∨
    (∃ new, s.pc t = .locking new ∧ s.shared.recorder.phaser.readerMutex = true) ∨
      ∃ r, soleStep plainCalls .proceed s.shared (s.pc t) = some r
  allocates : ∃ h, plainCalls.init (s.shared.recorder.heap s.shared.recorder.active) = some h

theorem SoleRuns.held [Fintype ι] {lowest highest : Int64} {figures : Int32} {h₀ : HdrHistogram}
    {s : PlainState ι} (init : hdrInit lowest highest figures = some (.ok h₀))
    (run : SoleRuns plainCalls h₀ s) : SequentiallyHeld h₀ s := by
  have hempty : (sequentialSpec init).contains h₀ 0 := collected_self h₀
  obtain ⟨heap, R, K⟩ := run.withheld plainCalls_sequential hempty
  have C : Counted (sequentialSpec init) (wholeState s heap) := R.counted hempty
  have T := run.recorder.tallied
  have S := run.recorder.safe
  refine ⟨C.samples, fun q hq hw => K.contains C ?_ hw, R.exited_valid hempty, K.proceeds C S, ?_⟩
  · rcases (T.live_iff q).mp hq with rfl | ⟨t, ht⟩
    · exact S.owned.active_lt
    · exact S.owned.owns_lt t q (Pc.owns_of_retires ht)
  · obtain ⟨r, hr⟩ := R.allocates (D := sequentialSpec init) hempty
    obtain ⟨k, hk, -⟩ := Option.map_eq_some_iff.mp hr
    exact ⟨k, (K.init _).symm.trans hk⟩

/-- With one record call at a time the interval recorder needs no atomic operations: however the
accesses of the writer interleave with sample calls, its intervals are those of a sequence of
calls. -/
theorem plainRecorder_sequential [Fintype ι] {lowest highest : Int64} {figures : Int32}
    {h₀ : HdrHistogram} {s : PlainState ι}
    (init : hdrInit lowest highest figures = some (.ok h₀)) (run : SoleRuns plainCalls h₀ s) :
    SequentialIntervals h₀ s := by
  have N : h₀.Normalised :=
    ((represents_hdrInit init).wellFormed ⟨by simp, by simp⟩).toNormalised
  have K := run.held init
  have hexited : s.shared.recorder.exited = (s.shared.recorder.samples.map Prod.snd).sum +
      ∑ q ∈ s.shared.recorder.live, s.shared.recorder.left q := run.recorder.tallied.exited
  have answers := K.answers
  rw [hexited] at answers
  refine ⟨fun x hx => ?_, fun q hq hw => ?_, hexited,
    fun x hx => run.recorder.safe.exclusive_obtained hx, K.proceeds⟩
  · refine (K.samples x hx).madeBy N fun y hy => answers y (Multiset.mem_add.mpr (.inl ?_))
    exact Multiset.mem_of_le (List.le_sum_of_mem (List.mem_map_of_mem hx)) hy
  · refine (K.live q hq hw).madeBy N fun y hy => answers y (Multiset.mem_add.mpr (.inr ?_))
    exact Multiset.mem_of_le (Finset.single_le_sum_of_canonicallyOrdered hq) hy

/-- A histogram is swapped out while its writer is between two accesses. Its next call is under way
when the sample has been returned. -/
def plainSchedule : List (Fin 2 × Action RecordCall) :=
  [(0, .record (.recordValuesAtomic 77 3))] ++ List.replicate 4 (0, .proceed) ++
    [(1, .sampleAndRecycle none)] ++ List.replicate 7 (1, .proceed) ++
    List.replicate 6 (0, .proceed) ++ List.replicate 3 (1, .proceed) ++
    [(0, .record (.recordCorrectedValuesAtomic 90 1 30))] ++ List.replicate 9 (0, .proceed)

theorem plainRecorder_sequential_sample : ∃ s : PlainState (Fin 2),
    s.shared.recorder.samples.length = 1 ∧ (s.pc 0).writes = some 1 ∧
      SequentialIntervals sampleHistogram s := by
  have hrun : (schedule (soleStep plainCalls) SoleRecorder.Apart plainSchedule
      ⟨⟨Recorder.initial sampleHistogram, 0⟩, fun _ => .idle⟩).map
        (fun s => (s.shared.recorder.samples.length, (s.pc 0).writes)) = some (1, some 1) := by
    decide +kernel
  obtain ⟨s, hs, he⟩ := Option.map_eq_some_iff.mp hrun
  exact ⟨s, (Prod.mk.inj he).1, (Prod.mk.inj he).2,
    plainRecorder_sequential sampleHistogram_init (Reachable.start.schedule hs)⟩

end HdrHistogramC
