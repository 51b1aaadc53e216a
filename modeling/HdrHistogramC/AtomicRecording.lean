import HdrHistogramC.IntervalConservation
import HdrHistogramC.Recording

/-!
# Atomic recording

The recording functions that the interval recorder calls, one atomic operation at a
time: the counts, the total, and the two compare-and-exchange loops on the extremes. The
arithmetic between two operations belongs to the earlier one; it reads only fields that
do not change. Updates on one histogram may interleave in any way, and each adds exactly
the samples of its call to the counts.
-/
namespace HdrHistogramC
open FixedWidth LogLinear BucketLayout.Describes

inductive RecordCall where
  | recordValuesAtomic (value count : Int64)
  | recordCorrectedValuesAtomic (value count expectedInterval : Int64)
deriving Repr, DecidableEq

namespace RecordCall

def value : RecordCall → Int64
  | recordValuesAtomic value _ => value
  | recordCorrectedValuesAtomic value _ _ => value

def count : RecordCall → Int64
  | recordValuesAtomic _ count => count
  | recordCorrectedValuesAtomic _ count _ => count

end RecordCall

/-- The next atomic operation of `hdr_record_values_atomic`. -/
inductive RecordPc where
  | countsAdd (countsIndex : Int32)
  | totalAdd
  | loadMin
  | exchangeMin (currentMinValue : Int64)
  | loadMax
  | exchangeMax (currentMaxValue : Int64)
deriving Repr, DecidableEq

/-- A recording that is under way: the call, the value it has come to, whether that is
one of the backfill loop, and the samples it has added to the counts. -/
structure RecordWork where
  call : RecordCall
  value : Int64
  backfill : Bool
  pc : RecordPc
  added : List Sample
deriving Repr, DecidableEq

/-- `hdr_record_values_atomic` before its first atomic operation, or its refusal. -/
def HdrHistogram.recordIndex (h : HdrHistogram) (value : Int64) : Option Int32 :=
  if value < 0 ∨ h.highestTrackableValue < value then none
  else
    let countsIndex := h.countsIndexFor value
    if countsIndex.toUInt32 ≥ h.countsLen.toUInt32 then none else some countsIndex

def RecordCall.updateAction (call : RecordCall) (h : HdrHistogram) : RecordWork ⊕ Bool :=
  match h.recordIndex call.value with
  | none => .inr false
  | some countsIndex => .inl
      { call := call, value := call.value, backfill := false, pc := .countsAdd countsIndex,
        added := [] }

namespace RecordWork

/-- One value has been recorded: the call returns, or goes on to the next missing value. -/
def recorded (w : RecordWork) (h : HdrHistogram) : RecordWork ⊕ Bool :=
  match w.call with
  | .recordValuesAtomic _ _ => .inr true
  | .recordCorrectedValuesAtomic value _ expectedInterval =>
      if w.backfill = false ∧ (expectedInterval ≤ 0 ∨ value ≤ expectedInterval) then .inr true
      else
        let missingValue := w.value - expectedInterval
        if missingValue ≥ expectedInterval then
          match h.recordIndex missingValue with
          | none => .inr false
          | some countsIndex => .inl
              { w with value := missingValue, backfill := true, pc := .countsAdd countsIndex }
        else .inr true

def operation (w : RecordWork) (h : HdrHistogram) : Option (HdrHistogram × (RecordWork ⊕ Bool)) :=
  match w.pc with
  | .countsAdd index =>
      let stored :=
        if h.normalizingIndexOffset = 0 then h.countsAdd index w.call.count
        else h.countsAdd (h.normalizeIndex index) w.call.count
      stored.map fun h =>
        (h, .inl { w with pc := .totalAdd, added := w.added ++ [(w.value, w.call.count)] })
  | .totalAdd =>
      some ({ h with totalCount := h.totalCount + w.call.count }, .inl { w with pc := .loadMin })
  | .loadMin =>
      if 0 = w.value ∨ h.minValue ≤ w.value then some (h, .inl { w with pc := .loadMax })
      else some (h, .inl { w with pc := .exchangeMin h.minValue })
  | .exchangeMin currentMinValue =>
      if h.minValue = currentMinValue then
        some ({ h with minValue := w.value }, .inl { w with pc := .loadMax })
      else some (h, .inl { w with pc := .loadMin })
  | .loadMax =>
      if w.value ≤ h.maxValue then some (h, w.recorded h)
      else some (h, .inl { w with pc := .exchangeMax h.maxValue })
  | .exchangeMax currentMaxValue =>
      if h.maxValue = currentMaxValue then some ({ h with maxValue := w.value }, w.recorded h)
      else some (h, .inl { w with pc := .loadMax })

end RecordWork

/-- The recorder with the atomic update actions. -/
def atomicCalls : HistogramCalls HdrHistogram RecordWork RecordCall Bool where
  updateAction := RecordCall.updateAction
  operation := RecordWork.operation
  init h :=
    match hdrInit h.lowestDiscernibleValue h.highestTrackableValue h.significantFigures with
    | some (.ok h) => some h
    | _ => none
  reset := HdrHistogram.hdrReset

/-- The exact sum of the counts of the samples whose index is `n`. -/
def countAt (l : BucketLayout) (n : ℕ) (m : Multiset Sample) : ℤ :=
  (m.map fun r => if (l.countsIndexFor r.1).toInt = n then r.2.toInt else 0).sum

@[simp] theorem countAt_add (l : BucketLayout) (n : ℕ) (m₁ m₂ : Multiset Sample) :
    countAt l n (m₁ + m₂) = countAt l n m₁ + countAt l n m₂ := by simp [countAt]

@[simp] theorem countAt_singleton (l : BucketLayout) (n : ℕ) (r : Sample) :
    countAt l n {r} = if (l.countsIndexFor r.1).toInt = n then r.2.toInt else 0 := by
  simp [countAt]

/-- The counts of a histogram with the layout `l` are those of the samples `m`. -/
structure HoldsSamples (l : BucketLayout) (h : HdrHistogram) (m : Multiset Sample) : Prop where
  layout : h.toBucketLayout = l
  offset : h.normalizingIndexOffset = 0
  counts : ∀ (n : ℕ) (c : Int64), h.counts[n]? = some c →
    c.toInt ≡ countAt l n m [ZMOD 2 ^ 64]

section HoldsSamples
variable {l : BucketLayout} {h h' : HdrHistogram} {m : Multiset Sample}

theorem holdsSamples_empty (hl : h.toBucketLayout = l) (off : h.normalizingIndexOffset = 0)
    (hc : ∀ c ∈ h.counts, c = 0) : HoldsSamples l h 0 where
  layout := hl
  offset := off
  counts n c hn := by
    rw [hc c (List.mem_of_getElem? hn)]
    rfl

theorem HoldsSamples.same (K : HoldsSamples l h m) (hl : h'.toBucketLayout = h.toBucketLayout)
    (off : h'.normalizingIndexOffset = h.normalizingIndexOffset) (hc : h'.counts = h.counts) :
    HoldsSamples l h' m where
  layout := hl.trans K.layout
  offset := off.trans K.offset
  counts := by
    rw [hc]
    exact K.counts

theorem HoldsSamples.countsAdd (K : HoldsSamples l h m) (ok : l.Accepted) {v : Int64}
    (hv : l.Recordable v) (c : Int64) : ∃ h', h.countsAdd (l.countsIndexFor v) c = some h' ∧
      HoldsSamples l h' (m + {(v, c)}) := by
  obtain ⟨u, k, b, D⟩ := ok.describes
  have h0 := (nonneg_iff v).mp hv.1
  have hidx := D.countsIndexFor_toInt h0
  have hlt := D.index_lt_countsLen h0 (Int64.le_iff_toInt_le.mp hv.2)
  have hlen : h.counts.length = (b + 1) * 2 ^ k := counts_length_nat (by rw [K.layout]; exact D)
  refine ⟨_, countsAdd_eq hidx (by omega) c, K.layout, K.offset, fun n a hn => ?_⟩
  rw [List.getElem?_modify] at hn
  obtain ⟨a', ha, rfl⟩ := Option.map_eq_some_iff.mp hn
  rw [countAt_add, countAt_singleton]
  dsimp only
  rw [hidx]
  by_cases hk : index u k v.toInt.toNat = n
  · rw [if_pos hk, if_pos (by exact_mod_cast hk)]
    exact (toInt_add_modEq a' c).trans ((K.counts n a' ha).add_right _)
  · rw [if_neg hk, if_neg (by exact_mod_cast hk), add_zero]
    exact K.counts n a' ha

theorem recordIndex_accept (ok : l.Accepted) (hl : h.toBucketLayout = l) {v : Int64}
    (hv : l.Recordable v) : h.recordIndex v = some (l.countsIndexFor v) := by
  subst hl
  obtain ⟨u, k, b, D⟩ := ok.describes
  have hguard := (recordable_iff h.toBucketLayout v).mp hv
  simp only [HdrHistogram.recordIndex, hguard, not_countsLen_le D hv, if_false]

theorem recordIndex_reject {v : Int64} (hv : ¬ h.Recordable v) : h.recordIndex v = none := by
  rw [recordable_iff, not_not] at hv
  rw [HdrHistogram.recordIndex, if_pos hv]

end HoldsSamples

/-- The samples that a call stands for. -/
def RecordCall.samples : RecordCall → List Sample
  | recordValuesAtomic v c => [(v, c)]
  | recordCorrectedValuesAtomic v c e => correctedSamples v c e

namespace RecordWork

/-- The values after the present one. -/
def later (w : RecordWork) : List Int64 :=
  match w.call with
  | .recordValuesAtomic _ _ => []
  | .recordCorrectedValuesAtomic v _ e =>
      if w.backfill = false ∧ (e ≤ 0 ∨ v ≤ e) then []
      else descending (w.value - e) e ((w.value - e).toInt / e.toInt).toNat

/-- The present value, when it is still to be added. -/
def present (w : RecordWork) : List Int64 :=
  match w.pc with
  | .countsAdd _ => [w.value]
  | _ => []

/-- The samples that were added and those to come are the samples of the call. -/
structure Valid (l : BucketLayout) (c : RecordCall) (w : RecordWork) : Prop where
  call : w.call = c
  recordable : l.Recordable w.value
  index : ∀ i, w.pc = .countsAdd i → i = l.countsIndexFor w.value
  first : w.backfill = false → w.value = c.value
  interval : w.backfill = true → ∀ v k e, c = .recordCorrectedValuesAtomic v k e →
    0 < e.toInt ∧ e.toInt ≤ w.value.toInt
  samples : w.added ++ (w.present ++ w.later).map (fun x => (x, c.count)) = c.samples

end RecordWork

/-- What an update of `c` that has come to `r` has added to the counts. -/
def RecordCall.added (c : RecordCall) : RecordWork ⊕ Bool → Multiset Sample
  | .inl w => w.added
  | .inr true => c.samples
  | .inr false => 0

def RecordCall.Valid (l : BucketLayout) (c : RecordCall) : RecordWork ⊕ Bool → Prop
  | .inl w => w.Valid l c
  | .inr _ => True

section Update
variable {l : BucketLayout} {h : HdrHistogram} {m : Multiset Sample} {c : RecordCall}
  {w : RecordWork}

theorem updateAction_valid (ok : l.Accepted) (hl : h.toBucketLayout = l) (c : RecordCall) :
    c.Valid l (c.updateAction h) ∧ c.added (c.updateAction h) = 0 := by
  unfold RecordCall.updateAction
  by_cases hv : l.Recordable c.value
  · rw [recordIndex_accept ok hl hv]
    refine ⟨⟨rfl, hv, fun i hi => (RecordPc.countsAdd.inj hi).symm, fun _ => rfl,
      fun hb => Bool.noConfusion hb, ?_⟩, rfl⟩
    cases c with
    | recordValuesAtomic v c => rfl
    | recordCorrectedValuesAtomic v c e =>
        simp only [RecordCall.samples, correctedSamples, correctedValues_eq, RecordWork.present,
          RecordWork.later, RecordCall.value, RecordCall.count, true_and, List.nil_append,
          List.cons_append]
  · rw [recordIndex_reject (hl ▸ hv)]
    exact ⟨trivial, rfl⟩

/-- The values of a valid update that has not ended descend by a positive interval. -/
theorem RecordWork.Valid.positive (K : w.Valid l c) {v k e : Int64}
    (hc : c = .recordCorrectedValuesAtomic v k e)
    (hgo : ¬ (w.backfill = false ∧ (e ≤ 0 ∨ v ≤ e))) :
    0 < e.toInt ∧ e.toInt ≤ w.value.toInt ∧
      (w.value - e).toInt = w.value.toInt - e.toInt := by
  have hbounds : 0 < e.toInt ∧ e.toInt ≤ w.value.toInt := by
    cases hb : w.backfill with
    | true => exact K.interval hb v k e hc
    | false =>
        have hv : w.value = v := by rw [K.first hb, hc]; rfl
        simp only [hb, true_and, Int64.le_iff_toInt_le, Int64.toInt_zero] at hgo
        rw [hv]
        omega
  have hlt := w.value.toInt_lt
  exact ⟨hbounds.1, hbounds.2, by rw [sub64] <;> omega⟩

/-- The next missing value is accepted too, so a call that has added a sample adds all. -/
theorem RecordWork.Valid.recorded (K : w.Valid l c) (ok : l.Accepted)
    (hl : h.toBucketLayout = l) (hp : w.present = []) :
    c.Valid l (w.recorded h) ∧ c.added (w.recorded h) = w.added := by
  have hsamples := K.samples
  rw [hp, List.nil_append] at hsamples
  have hcall := K.call
  unfold RecordWork.recorded
  unfold RecordWork.later at hsamples
  cases c with
  | recordValuesAtomic v k =>
      simp only [hcall, List.map_nil, List.append_nil] at hsamples ⊢
      exact ⟨trivial, congrArg _ hsamples.symm⟩
  | recordCorrectedValuesAtomic v k e =>
      simp only [hcall] at hsamples ⊢
      split_ifs at hsamples ⊢ with hend hge
      · rw [List.map_nil, List.append_nil] at hsamples
        exact ⟨trivial, congrArg _ hsamples.symm⟩
      · obtain ⟨he, hle, hsub⟩ := K.positive rfl hend
        have hge' := Int64.le_iff_toInt_le.mp hge
        have hv : l.Recordable (w.value - e) := by
          have htop := Int64.le_iff_toInt_le.mp K.recordable.2
          refine ⟨(nonneg_iff _).mpr (by omega), ?_⟩
          rw [Int64.le_iff_toInt_le]
          omega
        rw [recordIndex_accept ok hl hv]
        refine ⟨⟨rfl, hv, fun i hi => (RecordPc.countsAdd.inj hi).symm,
          fun hb => Bool.noConfusion hb, ?_, ?_⟩, rfl⟩
        · intro _ v' k' e' hc
          cases hc
          exact ⟨he, hge'⟩
        · have hgo : ¬ (true = false ∧ (e ≤ 0 ∨ v ≤ e)) := fun h => Bool.noConfusion h.1
          have hnext : ((w.value - e).toInt / e.toInt).toNat =
              ((w.value - e - e).toInt / e.toInt).toNat + 1 := by
            have hlt := (w.value - e).toInt_lt
            have hsub' : (w.value - e - e).toInt = (w.value - e).toInt - e.toInt := by
              rw [sub64] <;> omega
            rw [hsub', toNat_ediv_step he hge']
          rw [hnext, descending_succ] at hsamples
          simpa only [RecordWork.present, RecordWork.later, if_neg hgo, List.cons_append,
            List.nil_append] using hsamples
      · obtain ⟨he, hle, hsub⟩ := K.positive rfl hend
        rw [ge_iff_le, Int64.le_iff_toInt_le] at hge
        rw [Int.ediv_eq_zero_of_lt (by omega) (by omega)] at hsamples
        have hall : w.added = (RecordCall.recordCorrectedValuesAtomic v k e).samples := by
          simpa [descending] using hsamples
        exact ⟨trivial, congrArg _ hall.symm⟩

theorem RecordWork.Valid.next (K : w.Valid l c) (hp : w.present = []) {pc : RecordPc}
    (hpc : ∀ i, pc ≠ .countsAdd i) : { w with pc := pc }.Valid l c where
  call := K.call
  recordable := K.recordable
  index i hi := absurd hi (hpc i)
  first := K.first
  interval := K.interval
  samples := by
    have hnone : { w with pc := pc }.present = [] := by
      cases pc <;> first | rfl | exact absurd rfl (hpc _)
    rw [hnone, ← hp]
    exact K.samples

theorem RecordWork.Valid.stored (K : w.Valid l c) {i : Int32} (hi : w.pc = .countsAdd i) :
    { w with pc := .totalAdd, added := w.added ++ [(w.value, w.call.count)] }.Valid l c where
  call := K.call
  recordable := K.recordable
  index j hj := by cases hj
  first := K.first
  interval := K.interval
  samples := by
    have hsamples := K.samples
    simp only [RecordWork.present, hi, List.cons_append, List.nil_append, List.map_cons]
      at hsamples ⊢
    rw [← hsamples, List.append_assoc, List.singleton_append, congrArg RecordCall.count K.call]
    rfl

/-- The operations on the total and on the extremes change no count, and go on to
another operation on the same value, or to the end of its recording. -/
theorem operation_quiet (w : RecordWork) (h : HdrHistogram) (hw : ∀ i, w.pc ≠ .countsAdd i) :
    ∃ h' r, w.operation h = some (h', r) ∧ h'.toBucketLayout = h.toBucketLayout ∧
      h'.normalizingIndexOffset = h.normalizingIndexOffset ∧ h'.counts = h.counts ∧
      ((∃ pc, (∀ i, pc ≠ RecordPc.countsAdd i) ∧ r = .inl { w with pc := pc }) ∨
        r = w.recorded h) := by
  unfold RecordWork.operation
  cases hpc : w.pc with
  | countsAdd i => exact absurd hpc (hw i)
  | totalAdd => exact ⟨_, _, rfl, rfl, rfl, rfl, .inl ⟨_, by simp, rfl⟩⟩
  | loadMin =>
      dsimp only
      split_ifs <;> exact ⟨_, _, rfl, rfl, rfl, rfl, .inl ⟨_, by simp, rfl⟩⟩
  | exchangeMin cur =>
      dsimp only
      split_ifs <;> exact ⟨_, _, rfl, rfl, rfl, rfl, .inl ⟨_, by simp, rfl⟩⟩
  | loadMax =>
      dsimp only
      split_ifs
      · exact ⟨_, _, rfl, rfl, rfl, rfl, .inr rfl⟩
      · exact ⟨_, _, rfl, rfl, rfl, rfl, .inl ⟨_, by simp, rfl⟩⟩
  | exchangeMax cur =>
      dsimp only
      split_ifs
      · exact ⟨_, _, rfl, rfl, rfl, rfl, .inr rfl⟩
      · exact ⟨_, _, rfl, rfl, rfl, rfl, .inl ⟨_, by simp, rfl⟩⟩

theorem operation_valid (K : HoldsSamples l h m) (ok : l.Accepted) (V : w.Valid l c) :
    ∃ h' r d, w.operation h = some (h', r) ∧ HoldsSamples l h' (m + d) ∧ c.Valid l r ∧
      c.added r = w.added + d := by
  by_cases hpc : ∃ i, w.pc = .countsAdd i
  · obtain ⟨i, hi⟩ := hpc
    obtain ⟨h', hadd, K'⟩ := K.countsAdd ok V.recordable w.call.count
    refine ⟨h', .inl { w with
      pc := .totalAdd
      added := w.added ++ [(w.value, w.call.count)] }, _, ?_, K', V.stored hi, ?_⟩
    · simp only [RecordWork.operation, hi, K.offset, if_true, V.index i hi, hadd, Option.map_some]
    · simp only [RecordCall.added, ← Multiset.coe_add, Multiset.coe_singleton]
  · push Not at hpc
    obtain ⟨h', r, ho, hl, off, hc, hr⟩ := operation_quiet w h hpc
    have hp : w.present = [] := by
      unfold RecordWork.present
      split
      · exact absurd ‹_› (hpc _)
      · rfl
    refine ⟨h', r, 0, ho, by rw [add_zero]; exact K.same hl off hc, ?_⟩
    rw [add_zero]
    rcases hr with ⟨pc, hpc', rfl⟩ | rfl
    · exact ⟨V.next hp hpc', rfl⟩
    · exact V.recorded ok K.layout hp

end Update

/-- The atomic recordings add the samples of their calls, however they interleave. -/
def recordingSpec {l : BucketLayout} (ok : l.Accepted) :
    UpdateSpec atomicCalls (Multiset Sample) where
  contains := HoldsSamples l
  valid c r := c.Valid l r
  added c r := c.added r
  init {h m} K := by
    obtain ⟨g, hg, hl, hc⟩ := hdrInit_of_accepted (h := h) (by rw [K.layout]; exact ok)
    refine ⟨g, by simp only [atomicCalls, hg], ?_⟩
    refine holdsSamples_empty (hl.trans K.layout) (represents_hdrInit hg).offset fun c hmem => ?_
    rw [hc] at hmem
    exact (List.mem_replicate.mp hmem).2
  reset K := holdsSamples_empty K.layout K.offset fun _ hc => (List.mem_replicate.mp hc).2
  start c K := updateAction_valid ok K.layout c
  operation K V := operation_valid K ok V

end HdrHistogramC
