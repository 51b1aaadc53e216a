import HdrHistogramC.AtomicRecording

/-!
# Intervals lose and duplicate nothing

The interval recorder with the atomic recording functions, under any interleaving of
record and sample calls: samples are exclusive, every call that has left is counted in
one histogram, and the samples together with the active histogram hold what was
recorded.
-/
namespace HdrHistogramC
open Threads FixedWidth

abbrev AtomicState (ι : Type) := RecorderState ι HdrHistogram RecordWork RecordCall Bool

/-- The samples that the calls of a tally have recorded; a refused call has none. -/
def recordsOf (x : Multiset (RecordCall × Bool)) : Multiset Sample :=
  (x.map fun y => y.1.added (.inr y.2)).sum

/-- The count that is read at the index `n`. -/
def countRead (h : HdrHistogram) (n : ℕ) : ℤ := (h.counts.getD n 0).toInt

/-- Nonnegative counts whose sum is a 64-bit total. -/
structure Fits (m : Multiset Sample) : Prop where
  nonneg : ∀ r ∈ m, 0 ≤ r.2.toInt
  sum_lt : (m.map fun r => r.2.toInt).sum < 2 ^ 63

@[simp] theorem recordsOf_add (x y : Multiset (RecordCall × Bool)) :
    recordsOf (x + y) = recordsOf x + recordsOf y := by simp [recordsOf]

section Counts
variable {l : BucketLayout} {h : HdrHistogram} {m m₁ m₂ : Multiset Sample} {n : ℕ}

theorem countAt_bounds (l : BucketLayout) (n : ℕ) (hm : ∀ r ∈ m, 0 ≤ r.2.toInt) :
    0 ≤ countAt l n m ∧ countAt l n m ≤ (m.map fun r => r.2.toInt).sum := by
  refine ⟨Multiset.sum_nonneg fun x hx => ?_, Multiset.sum_map_le_sum_map _ _ fun r hr => ?_⟩
  · obtain ⟨r, hr, rfl⟩ := Multiset.mem_map.mp hx
    split_ifs
    · exact hm r hr
    · exact le_rfl
  · split_ifs
    · exact le_rfl
    · exact hm r hr

theorem Fits.of_add (F : Fits (m₁ + m₂)) : Fits m₁ ∧ Fits m₂ := by
  have h₁ : ∀ r ∈ m₁, 0 ≤ r.2.toInt := fun r hr => F.nonneg r (Multiset.mem_add.mpr (.inl hr))
  have h₂ : ∀ r ∈ m₂, 0 ≤ r.2.toInt := fun r hr => F.nonneg r (Multiset.mem_add.mpr (.inr hr))
  have hsum := F.sum_lt
  rw [Multiset.map_add, Multiset.sum_add] at hsum
  have hn₁ : 0 ≤ (m₁.map fun r => r.2.toInt).sum :=
    Multiset.sum_nonneg (by simpa only [Multiset.forall_mem_map_iff] using h₁)
  have hn₂ : 0 ≤ (m₂.map fun r => r.2.toInt).sum :=
    Multiset.sum_nonneg (by simpa only [Multiset.forall_mem_map_iff] using h₂)
  exact ⟨⟨h₁, by omega⟩, ⟨h₂, by omega⟩⟩

theorem HoldsSamples.countRead_modEq (K : HoldsSamples l h m) (hn : n < l.countsLen.toInt.toNat) :
    countRead h n ≡ countAt l n m [ZMOD 2 ^ 64] := by
  have hlen := h.counts_length
  rw [K.layout] at hlen
  have hn' : n < h.counts.length := by omega
  rw [countRead, List.getD_eq_getElem _ _ hn']
  exact K.counts n _ (List.getElem?_eq_getElem hn')

theorem HoldsSamples.countRead_eq (K : HoldsSamples l h m) (F : Fits m)
    (hn : n < l.countsLen.toInt.toNat) : countRead h n = countAt l n m := by
  have hb := countAt_bounds l n F.nonneg
  have hsum := F.sum_lt
  exact eq_of_modEq64 (K.countRead_modEq hn) (Int64.le_toInt _) (Int64.toInt_lt _) (by omega)
    (by omega)

end Counts

/-- The samples, each with the counts of its own tally, add up to all their tallies. -/
theorem sum_countRead_modEq {l : BucketLayout} {n : ℕ} (hn : n < l.countsLen.toInt.toNat)
    {xs : List (HdrHistogram × Multiset (RecordCall × Bool))}
    (hx : ∀ x ∈ xs, HoldsSamples l x.1 (recordsOf x.2)) :
    (xs.map fun x => countRead x.1 n).sum ≡
      countAt l n (recordsOf (xs.map Prod.snd).sum) [ZMOD 2 ^ 64] := by
  induction xs with
  | nil => rfl
  | cons x xs ih =>
      simp only [List.map_cons, List.sum_cons, recordsOf_add, countAt_add]
      exact ((hx x (by simp)).countRead_modEq hn).add (ih fun y hy => hx y (by simp [hy]))

theorem sum_countRead_eq {l : BucketLayout} {n : ℕ} (hn : n < l.countsLen.toInt.toNat)
    {xs : List (HdrHistogram × Multiset (RecordCall × Bool))}
    (hx : ∀ x ∈ xs, HoldsSamples l x.1 (recordsOf x.2))
    (F : Fits (recordsOf (xs.map Prod.snd).sum)) :
    (xs.map fun x => countRead x.1 n).sum = countAt l n (recordsOf (xs.map Prod.snd).sum) := by
  induction xs with
  | nil => rfl
  | cons x xs ih =>
      simp only [List.map_cons, List.sum_cons, recordsOf_add, countAt_add] at F ⊢
      rw [(hx x (by simp)).countRead_eq F.of_add.1 hn,
        ih (fun y hy => hx y (by simp [hy])) F.of_add.2]

variable {ι : Type} [DecidableEq ι]

/-- What holds in a reachable state of the recorder. A histogram is owned by its sample
call alone when the call returns it, and stays as it is until it is recycled. The calls
that have left are divided among the samples, the active histogram, and those that a
sample call has swapped out and is about to return. A sample holds the counts of its own
calls, and so does any histogram that no writer is in. No operation fails. -/
structure IntervalsConserved (l : BucketLayout) (s : AtomicState ι) : Prop where
  exclusive : ∀ x, (x ∈ s.shared.obtained ∨ ∃ t, s.pc t = .returning x) → Exclusive s x
  untouched : ∀ x ∈ s.shared.obtained, ∀ s' : AtomicState ι,
    Reachable (step atomicCalls) (fun g => g.EntriesFit ∧ x ∈ g.obtained) s s' →
      s'.shared.heap x = s.shared.heap x ∧ Exclusive s' x
  live : ∀ q, q ∈ s.shared.live ↔ q = s.shared.active ∨ ∃ t, (s.pc t).retires = some q
  divided : s.shared.exited = (s.shared.samples.map Prod.snd).sum +
    ∑ q ∈ s.shared.live, s.shared.left q
  divided_settled : (∀ t, (s.pc t).retires = none) →
    s.shared.exited = (s.shared.samples.map Prod.snd).sum + s.shared.left s.shared.active
  sampled : ∀ x ∈ s.shared.samples, HoldsSamples l x.1 (recordsOf x.2)
  holds : ∀ q ∈ s.shared.live, (∀ t v, (s.pc t).holds ≠ some (v, q)) →
    HoldsSamples l (s.shared.heap q) (recordsOf (s.shared.left q))
  conserved : (∀ t, s.pc t = .idle) → ∀ n < l.countsLen.toInt.toNat,
    (s.shared.samples.map fun x => countRead x.1 n).sum +
      countRead (s.shared.heap s.shared.active) n ≡
        countAt l n (recordsOf s.shared.exited) [ZMOD 2 ^ 64]
  conserved_exact : (∀ t, s.pc t = .idle) → Fits (recordsOf s.shared.exited) →
    ∀ n < l.countsLen.toInt.toNat,
      (s.shared.samples.map fun x => countRead x.1 n).sum +
        countRead (s.shared.heap s.shared.active) n = countAt l n (recordsOf s.shared.exited)
  proceeds : ∀ t, s.pc t = .idle ∨
    (∃ new, s.pc t = .locking new ∧ s.shared.phaser.readerMutex = true) ∨
      ∃ r, step atomicCalls .proceed s.shared (s.pc t) = some r
  allocates : ∃ r, step atomicCalls (.sampleAndRecycle none) s.shared .idle = some r

variable [Fintype ι] {l : BucketLayout} {s : AtomicState ι}

omit [DecidableEq ι] in
theorem Counted.holds {ok : l.Accepted} (K : Counted (recordingSpec ok) s) {q : ℕ}
    (hq : q < s.shared.allocated) (hw : ∀ t v, (s.pc t).holds ≠ some (v, q)) :
    HoldsSamples l (s.shared.heap q) (recordsOf (s.shared.left q)) := by
  have hc := K.heap q hq
  rwa [UpdateSpec.content_unheld hw] at hc

omit [DecidableEq ι] [Fintype ι] in
/-- Without a sample call between its swap and its return, only the active histogram is
live. -/
theorem Tallied.divided_settled {H W C R : Type} {s : RecorderState ι H W C R} (K : Tallied s)
    (hr : ∀ t, (s.pc t).retires = none) :
    s.shared.exited = (s.shared.samples.map Prod.snd).sum + s.shared.left s.shared.active := by
  have hlive : s.shared.live = {s.shared.active} := by
    ext q
    rw [K.live_iff, Finset.mem_singleton, or_iff_left]
    rintro ⟨t, ht⟩
    rw [hr t] at ht
    cases ht
  rw [K.exited, hlive, Finset.sum_singleton]

omit [DecidableEq ι] in
/-- With no call in progress, the samples and the active histogram have the counts of
their own calls, and these are all calls. -/
theorem Counted.settled {ok : l.Accepted} (K : Counted (recordingSpec ok) s) (T : Tallied s)
    (S : Safe s) (hidle : ∀ t, s.pc t = .idle) :
    ∃ xs : List (HdrHistogram × Multiset (RecordCall × Bool)),
      (∀ x ∈ xs, HoldsSamples l x.1 (recordsOf x.2)) ∧
        (xs.map Prod.snd).sum = s.shared.exited ∧
          ∀ n, (xs.map fun x => countRead x.1 n).sum =
            (s.shared.samples.map fun x => countRead x.1 n).sum +
              countRead (s.shared.heap s.shared.active) n := by
  refine ⟨s.shared.samples ++ [(s.shared.heap s.shared.active, s.shared.left s.shared.active)],
    fun x hx => ?_, ?_, fun n => by simp⟩
  · rcases List.mem_append.mp hx with hx | hx
    · exact K.samples x hx
    · rw [List.mem_singleton.mp hx]
      refine K.holds S.owned.active_lt fun t v hv => ?_
      rw [hidle t] at hv
      cases hv
  · rw [T.divided_settled fun t => by rw [hidle t]; rfl]
    simp

/-- The interval recorder loses and duplicates nothing. -/
theorem intervals_conserved {lowest highest : Int64} {figures : Int32} {h₀ : HdrHistogram}
    (init : hdrInit lowest highest figures = some (.ok h₀)) (run : Runs atomicCalls h₀ s) :
    IntervalsConserved h₀.toBucketLayout s := by
  have R := represents_hdrInit init
  have hempty : HoldsSamples h₀.toBucketLayout h₀ 0 := ⟨rfl, R.offset, R.counts⟩
  have K : Counted (recordingSpec R.accepted) s := run.counted hempty
  have T := run.tallied
  have S := run.safe
  refine ⟨?_, fun x hx s' later => run.untouched hx later, T.live_iff, T.exited,
    T.divided_settled, K.samples, fun q hq hw => K.holds ?_ hw, fun hidle n hn => ?_,
    fun hidle F n hn => ?_, run.proceeds (D := recordingSpec R.accepted) hempty,
    run.allocates (D := recordingSpec R.accepted) hempty⟩
  · rintro x (hx | ⟨t, ht⟩)
    · exact S.exclusive_obtained hx
    · exact S.exclusive_owned (t := t) (by rw [ht]; rfl) (by rw [ht]; rfl) (by rw [ht]; rfl)
  · rcases (T.live_iff q).mp hq with rfl | ⟨t, ht⟩
    · exact S.owned.active_lt
    · exact S.owned.owns_lt t q (Pc.owns_of_retires ht)
  · obtain ⟨xs, hxs, hall, hsum⟩ := K.settled T S hidle
    rw [← hsum, ← hall]
    exact sum_countRead_modEq hn hxs
  · obtain ⟨xs, hxs, hall, hsum⟩ := K.settled T S hidle
    rw [← hall] at F
    rw [← hsum, ← hall]
    exact sum_countRead_eq hn hxs F

/-- A writer that a sample call waits for, and a record after it. -/
def sampleSchedule : List (Fin 2 × Action RecordCall) :=
  [(0, .record (.recordValuesAtomic 77 3)), (0, .proceed), (1, .sampleAndRecycle none)] ++
    List.replicate 7 (1, .proceed) ++ List.replicate 7 (0, .proceed) ++
    List.replicate 3 (1, .proceed) ++
    [(0, .record (.recordCorrectedValuesAtomic 90 1 30))] ++ List.replicate 18 (0, .proceed)

theorem intervals_conserved_sample : ∃ s, schedule (step atomicCalls) Recorder.EntriesFit
    sampleSchedule (RecorderState.initial sampleHistogram) = some s ∧
      s.shared.samples.length = 1 ∧ IntervalsConserved sampleHistogram.toBucketLayout s := by
  have hrun : (schedule (step atomicCalls) Recorder.EntriesFit sampleSchedule
      (RecorderState.initial sampleHistogram)).map (fun s => s.shared.samples.length) =
        some 1 := by decide +kernel
  obtain ⟨s, hs, hlen⟩ := Option.map_eq_some_iff.mp hrun
  exact ⟨s, hs, hlen, intervals_conserved sampleHistogram_init (Reachable.start.schedule hs)⟩

end HdrHistogramC
