import HdrHistogramC.SampleExclusion

/-!
# Conservation across samples

Every call that has left is in the tally of exactly one histogram: a returned sample, or
one that is active or about to be returned. A histogram holds what the calls of its
tally recorded and what the updates under way on it have added so far.
-/
namespace HdrHistogramC
open Threads

variable {ι H W C R : Type} [DecidableEq ι] {O : HistogramCalls H W C R}

/-- The histogram that a sample call was given, before it becomes active. -/
def Pc.prepares : Pc W C R → Option ℕ
  | .locking new | .loading new | .storing new _ => some new
  | _ => none

structure Tallied (s : RecorderState ι H W C R) : Prop where
  live_iff : ∀ q, q ∈ s.shared.live ↔ q = s.shared.active ∨ ∃ t, (s.pc t).retires = some q
  prepared : ∀ t q, (s.pc t).prepares = some q → s.shared.left q = 0
  exited : s.shared.exited = (s.shared.samples.map Prod.snd).sum +
    ∑ q ∈ s.shared.live, s.shared.left q

theorem Pc.owns_of_prepares {l : Pc W C R} {q : ℕ} (h : l.prepares = some q) :
    l.owns = some q := by
  cases l <;> first | exact h | cases h

theorem Pc.retires_of_prepares {l : Pc W C R} {q : ℕ} (h : l.prepares = some q) :
    l.retires = none := by
  cases l <;> first | rfl | cases h

section Tallied
variable {s : RecorderState ι H W C R} {t : ι} {g : Recorder H C R} {l : Pc W C R}

omit [DecidableEq ι] in
theorem Tallied.not_live (K : Tallied s) {q : ℕ} (ha : q ≠ s.shared.active)
    (hr : ∀ u, (s.pc u).retires ≠ some q) : q ∉ s.shared.live := by
  rw [K.live_iff]
  rintro (hq | ⟨u, hu⟩)
  · exact ha hq
  · exact hr u hu

omit [DecidableEq ι] in
theorem Tallied.not_live_of_prepares (K : Tallied s) (B : Owned s) {q : ℕ}
    (h : (s.pc t).prepares = some q) : q ∉ s.shared.live := by
  refine K.not_live (fun hq => B.owns_active t (hq ▸ Pc.owns_of_prepares h)) fun u hu => ?_
  obtain rfl := B.unique u t q (Pc.owns_of_retires hu) (Pc.owns_of_prepares h)
  rw [Pc.retires_of_prepares h] at hu
  cases hu

omit [DecidableEq ι] in
theorem Tallied.live_of_holds (K : Tallied s) (B : Held s) {v : Int64} {q : ℕ}
    (h : (s.pc t).holds = some (v, q)) : q ∈ s.shared.live := by
  rw [K.live_iff]
  rcases B t v q h with hq | ⟨u, hu⟩ | ⟨u, even, hu, -⟩
  · exact .inl hq
  · exact .inr ⟨u, Pc.retires_of_swaps hu⟩
  · exact .inr ⟨u, Pc.retires_of_drains hu⟩

theorem Tallied.same (K : Tallied s) (hr : l.retires = (s.pc t).retires)
    (hp : l.prepares = (s.pc t).prepares) (ha : g.active = s.shared.active)
    (hlive : g.live = s.shared.live) (hleft : g.left = s.shared.left)
    (hs : g.samples = s.shared.samples) (he : g.exited = s.shared.exited) :
    Tallied (s.moved t g l) where
  live_iff q := by
    rw [moved_shared, ha, hlive, K.live_iff]
    simp only [view_moved hr]
  prepared u q hu := by
    rw [view_moved hp] at hu
    rw [moved_shared, hleft]
    exact K.prepared u q hu
  exited := by
    rw [moved_shared, he, hs, hlive, hleft]
    exact K.exited

theorem Tallied.emptied (K : Tallied s) {x : ℕ} (hx : x ∉ s.shared.live)
    (hr : l.retires = (s.pc t).retires) (ha : g.active = s.shared.active)
    (hlive : g.live = s.shared.live) (hleft : g.left = Function.update s.shared.left x 0)
    (hp : l.prepares = some x) (hs : g.samples = s.shared.samples)
    (he : g.exited = s.shared.exited) : Tallied (s.moved t g l) where
  live_iff q := by
    rw [moved_shared, ha, hlive, K.live_iff]
    simp only [view_moved hr]
  prepared u q hu := by
    rw [moved_shared, hleft]
    by_cases hq : q = x
    · rw [hq, Function.update_self]
    · rw [Function.update_of_ne hq]
      by_cases h : u = t
      · rw [h, moved_pc_self, hp, Option.some.injEq] at hu
        exact absurd hu.symm hq
      · rw [moved_pc_of_ne h] at hu
        exact K.prepared u q hu
  exited := by
    rw [moved_shared, he, hs, hlive, hleft, K.exited]
    congr 1
    refine Finset.sum_congr rfl fun q hq => ?_
    have hne : q ≠ x := fun h => hx (h ▸ hq)
    rw [Function.update_of_ne hne]

theorem Tallied.left (K : Tallied s) (B : Owned s) {p : ℕ} {x : C × R}
    (hp : p ∈ s.shared.live) (hr : l.retires = (s.pc t).retires)
    (hl : l.prepares = (s.pc t).prepares) (ha : g.active = s.shared.active)
    (hlive : g.live = s.shared.live)
    (hleft : g.left = Function.update s.shared.left p (s.shared.left p + {x}))
    (hs : g.samples = s.shared.samples) (he : g.exited = s.shared.exited + {x}) :
    Tallied (s.moved t g l) where
  live_iff q := by
    rw [moved_shared, ha, hlive, K.live_iff]
    simp only [view_moved hr]
  prepared u q hu := by
    rw [view_moved hl] at hu
    have hne : q ≠ p := fun h => K.not_live_of_prepares B hu (h ▸ hp)
    rw [moved_shared, hleft, Function.update_of_ne hne]
    exact K.prepared u q hu
  exited := by
    rw [moved_shared, he, hs, hlive, hleft, Finset.sum_update_of_mem hp, K.exited,
      ← Finset.add_sum_erase _ _ hp, Finset.sdiff_singleton_eq_erase]
    abel

/-- The swap: the new histogram is live, with an empty tally. -/
theorem Tallied.store (K : Tallied s) (B : Owned s) {new old : ℕ}
    (hl : s.pc t = .storing new old) : Tallied (s.moved t
      { s.shared with active := new, live := insert new s.shared.live }
      (.readingEpoch old)) := by
  have hprep : (s.pc t).prepares = some new := by rw [hl]; rfl
  have hnew := K.not_live_of_prepares B hprep
  have hold := B.stored t new old hl
  refine ⟨fun q => ?_, fun u q hu => ?_, ?_⟩
  · rw [moved_shared, Finset.mem_insert, K.live_iff]
    refine or_congr_right ⟨?_, ?_⟩
    · rintro (hq | ⟨u, hu⟩)
      · exact ⟨t, by rw [moved_pc_self, hq, ← hold]; rfl⟩
      · refine ⟨u, ?_⟩
        have hne : u ≠ t := by
          rintro rfl
          rw [hl] at hu
          cases hu
        rw [moved_pc_of_ne hne, hu]
    · rintro ⟨u, hu⟩
      by_cases h : u = t
      · rw [h, moved_pc_self] at hu
        cases hu
        exact .inl hold
      · rw [moved_pc_of_ne h] at hu
        exact .inr ⟨u, hu⟩
  · by_cases h : u = t
    · rw [h, moved_pc_self] at hu
      cases hu
    · rw [moved_pc_of_ne h] at hu
      exact K.prepared u q hu
  · rw [moved_shared, Finset.sum_insert hnew, K.prepared t new hprep, zero_add]
    exact K.exited

/-- A sample call returns, and takes the tally of its histogram with it. -/
theorem Tallied.handOver (K : Tallied s) (B : Owned s) {old : ℕ}
    (hl : s.pc t = .returning old) : Tallied (s.moved t
      { s.shared with
        obtained := insert old s.shared.obtained
        live := s.shared.live.erase old
        samples := s.shared.samples ++ [(s.shared.heap old, s.shared.left old)] } .idle) := by
  have hown : (s.pc t).owns = some old := by rw [hl]; rfl
  have hlive : old ∈ s.shared.live := (K.live_iff old).mpr (.inr ⟨t, by rw [hl]; rfl⟩)
  refine ⟨fun q => ?_, fun u q hu => ?_, ?_⟩
  · rw [moved_shared, Finset.mem_erase, K.live_iff]
    refine ⟨?_, ?_⟩
    · rintro ⟨hne, hq | ⟨u, hu⟩⟩
      · exact .inl hq
      · refine .inr ⟨u, ?_⟩
        have hut : u ≠ t := by
          rintro rfl
          rw [hl] at hu
          cases hu
          exact hne rfl
        rw [moved_pc_of_ne hut, hu]
    · rintro (hq | ⟨u, hu⟩)
      · exact ⟨fun h => B.owns_active t (by rw [hown, ← h, hq]), .inl hq⟩
      · by_cases h : u = t
        · rw [h, moved_pc_self] at hu
          cases hu
        · rw [moved_pc_of_ne h] at hu
          refine ⟨fun hq => h ?_, .inr ⟨u, hu⟩⟩
          exact B.unique u t old (hq ▸ Pc.owns_of_retires hu) hown
  · by_cases h : u = t
    · rw [h, moved_pc_self] at hu
      cases hu
    · rw [moved_pc_of_ne h] at hu
      exact K.prepared u q hu
  · simp only [moved_shared, List.map_append, List.map_cons, List.map_nil, List.sum_append,
      List.sum_cons, List.sum_nil, add_zero]
    rw [K.exited, ← Finset.add_sum_erase _ _ hlive, add_assoc]

theorem Tallied.step [Fintype ι] (K : Tallied s) (S : Safe s)
    (h : Stepped O s.shared (s.pc t) g l) : Tallied (s.moved t g l) := by
  generalize hl : s.pc t = l₀ at h
  cases h with
  | allocate =>
      refine K.emptied (K.not_live S.owned.active_lt.ne' fun u hu => ?_) (by rw [hl]; rfl) rfl rfl
        rfl rfl rfl rfl
      exact (S.owned.owns_lt u _ (Pc.owns_of_retires hu)).false
  | recycle hx =>
      refine K.emptied (K.not_live (fun h => S.owned.active_obtained (h ▸ hx)) fun u hu => ?_)
        (by rw [hl]; rfl) rfl rfl rfl rfl rfl rfl
      exact S.owned.owns_obtained u _ (Pc.owns_of_retires hu) hx
  | @exit val p =>
      exact K.left S.owned (K.live_of_holds (t := t) (v := val) S.held (by rw [hl]; rfl))
        (by rw [hl]; rfl) (by rw [hl]; rfl) rfl rfl rfl rfl rfl
  | store => exact K.store S.owned hl
  | handOver => exact K.handOver S.owned hl
  | wait => exact K.same (by rw [hl]) (by rw [hl]) rfl rfl rfl rfl rfl
  | _ => exact K.same (by rw [hl]; rfl) (by rw [hl]; rfl) rfl rfl rfl rfl rfl

end Tallied

/-- What the recorder relies on: a histogram that was made or reset is empty, and the
operations of an update add, piece by piece, what its call stands for. `contains h m`
says what is in a histogram, and `added c r` what an update of the call `c` that has
come to `r` has put there. -/
structure UpdateSpec (O : HistogramCalls H W C R) (M : Type) [AddCancelCommMonoid M] where
  contains : H → M → Prop
  valid : C → W ⊕ R → Prop
  added : C → W ⊕ R → M
  init : ∀ {h m}, contains h m → ∃ h', O.init h = some h' ∧ contains h' 0
  reset : ∀ {h m}, contains h m → contains (O.reset h) 0
  start : ∀ {h m} (c : C), contains h m →
    valid c (O.updateAction c h) ∧ added c (O.updateAction c h) = 0
  operation : ∀ {h m c w}, contains h m → valid c (.inl w) → ∃ h' r d,
    O.operation w h = some (h', r) ∧ contains h' (m + d) ∧ valid c r ∧
      added c r = added c (.inl w) + d

/-- The update that a thread is making: on which histogram, for which call, and where it
has come to. -/
def Pc.update : Pc W C R → Option (ℕ × C × (W ⊕ R))
  | .updating _ active c w => some (active, c, .inl w)
  | .leaving _ active c r => some (active, c, .inr r)
  | _ => none

theorem Pc.holds_of_update {l : Pc W C R} {p : ℕ} {c : C} {r : W ⊕ R}
    (h : l.update = some (p, c, r)) : ∃ v, l.holds = some (v, p) := by
  cases l <;> cases h <;> exact ⟨_, rfl⟩

variable {M : Type} [AddCancelCommMonoid M]

namespace UpdateSpec
variable (D : UpdateSpec O M)

/-- What the calls of a tally have recorded. -/
def recorded (x : Multiset (C × R)) : M := (x.map fun y => D.added y.1 (.inr y.2)).sum

/-- What a thread has added to the histogram `q` in the update it is making. -/
def pending (q : ℕ) (l : Pc W C R) : M :=
  match l.update with
  | some (p, c, r) => if p = q then D.added c r else 0
  | none => 0

/-- What is in the histogram `q`. -/
def content [Fintype ι] (s : RecorderState ι H W C R) (q : ℕ) : M :=
  D.recorded (s.shared.left q) + total (D.pending q) s.pc

@[simp] theorem recorded_zero : D.recorded 0 = 0 := rfl

theorem recorded_add (x y : Multiset (C × R)) :
    D.recorded (x + y) = D.recorded x + D.recorded y := by
  rw [recorded, Multiset.map_add, Multiset.sum_add]
  rfl

theorem recorded_singleton (y : C × R) : D.recorded {y} = D.added y.1 (.inr y.2) := by
  rw [recorded, Multiset.map_singleton, Multiset.sum_singleton]

theorem pending_of_update {l : Pc W C R} {p q : ℕ} {c : C} {r : W ⊕ R}
    (h : l.update = some (p, c, r)) : D.pending q l = if p = q then D.added c r else 0 := by
  rw [pending, h]

theorem pending_of_none {l : Pc W C R} {q : ℕ} (h : l.update = none) : D.pending q l = 0 := by
  rw [pending, h]

end UpdateSpec

structure Counted [Fintype ι] (D : UpdateSpec O M) (s : RecorderState ι H W C R) : Prop where
  valid : ∀ t p c r, (s.pc t).update = some (p, c, r) → D.valid c r
  heap : ∀ q < s.shared.allocated, D.contains (s.shared.heap q) (D.content s q)
  samples : ∀ x ∈ s.shared.samples, D.contains x.1 (D.recorded x.2)

section Counted
variable [Fintype ι] {D : UpdateSpec O M} {s : RecorderState ι H W C R} {t : ι}
  {g : Recorder H C R} {l : Pc W C R}

omit [DecidableEq ι] in
/-- Without a writer, a histogram holds its tally. -/
theorem UpdateSpec.content_unheld {q : ℕ} (h : ∀ t v, (s.pc t).holds ≠ some (v, q)) :
    D.content s q = D.recorded (s.shared.left q) := by
  rw [content, total_eq_zero, add_zero]
  intro u
  cases hu : (s.pc u).update with
  | none => exact D.pending_of_none hu
  | some x =>
      obtain ⟨p, c, r⟩ := x
      obtain ⟨v, hv⟩ := Pc.holds_of_update hu
      rw [D.pending_of_update hu, if_neg]
      rintro rfl
      exact h u v hv

theorem UpdateSpec.content_moved (q : ℕ) :
    D.content (s.moved t g l) q + (D.recorded (s.shared.left q) + D.pending q (s.pc t)) =
      D.content s q + (D.recorded (g.left q) + D.pending q l) := by
  have htotal := total_update (D.pending q) s.pc t l
  unfold content State.moved
  calc _ = D.recorded (g.left q) + D.recorded (s.shared.left q) +
      (total (D.pending q) (Function.update s.pc t l) + D.pending q (s.pc t)) := by abel
    _ = _ := by rw [htotal]; abel

theorem UpdateSpec.content_same {q : ℕ} (hleft : g.left q = s.shared.left q)
    (hu : D.pending q l = D.pending q (s.pc t)) : D.content (s.moved t g l) q = D.content s q := by
  have hsum := D.content_moved (s := s) (t := t) (g := g) (l := l) q
  rw [hleft, hu] at hsum
  exact add_right_cancel hsum

theorem Counted.valid_moved (K : Counted D s)
    (hl : ∀ p c r, l.update = some (p, c, r) → D.valid c r) :
    ∀ u p c r, ((s.moved t g l).pc u).update = some (p, c, r) → D.valid c r := by
  intro u p c r hu
  by_cases h : u = t
  · rw [h, moved_pc_self] at hu
    exact hl p c r hu
  · rw [moved_pc_of_ne h] at hu
    exact K.valid u p c r hu

theorem Counted.valid_outside (K : Counted D s) (hl : l.update = none) :
    ∀ u p c r, ((s.moved t g l).pc u).update = some (p, c, r) → D.valid c r := by
  refine K.valid_moved fun p c r h => ?_
  rw [hl] at h
  cases h

theorem Counted.same (K : Counted D s) (hu : l.update = (s.pc t).update)
    (hh : g.heap = s.shared.heap) (hn : g.allocated = s.shared.allocated)
    (hleft : g.left = s.shared.left) (hs : g.samples = s.shared.samples) :
    Counted D (s.moved t g l) where
  valid := K.valid_moved fun p c r h => K.valid t p c r (hu ▸ h)
  heap q hq := by
    rw [moved_shared, hn] at hq
    rw [moved_shared, hh, D.content_same (by rw [hleft]) (by rw [UpdateSpec.pending, hu]; rfl)]
    exact K.heap q hq
  samples := by
    rw [moved_shared, hs]
    exact K.samples

theorem Counted.loaded (K : Counted D s) (B : Owned s) {c : C} (h₀ : (s.pc t).update = none)
    (hl : l.update = some (s.shared.active, c, O.updateAction c (s.shared.heap s.shared.active))) :
    Counted D (s.moved t s.shared l) := by
  obtain ⟨hvalid, hadded⟩ := D.start c (K.heap _ B.active_lt)
  refine ⟨K.valid_moved fun p c' r h => ?_, fun q hq => ?_, K.samples⟩
  · rw [hl] at h
    cases h
    exact hvalid
  · rw [moved_shared, D.content_same rfl]
    · exact K.heap q hq
    · rw [D.pending_of_none h₀, D.pending_of_update hl, hadded, ite_self]

theorem Counted.operated (K : Counted D s) {p : ℕ} {c : C} {w : W} {r : W ⊕ R} {h : H}
    (hp : p < s.shared.allocated) (h₀ : (s.pc t).update = some (p, c, .inl w))
    (ho : O.operation w (s.shared.heap p) = some (h, r)) (hl : l.update = some (p, c, r))
    (hh : g.heap = Function.update s.shared.heap p h) (hn : g.allocated = s.shared.allocated)
    (hleft : g.left = s.shared.left) (hs : g.samples = s.shared.samples) :
    Counted D (s.moved t g l) := by
  obtain ⟨h', r', d, ho', hc, hvalid, hadded⟩ := D.operation (K.heap p hp) (K.valid t p c _ h₀)
  rw [ho', Option.some.injEq, Prod.mk.injEq] at ho
  obtain ⟨rfl, rfl⟩ := ho
  refine ⟨K.valid_moved fun p' c' r h => ?_, fun q hq => ?_, ?_⟩
  · rw [hl] at h
    cases h
    exact hvalid
  · have hsum := D.content_moved (s := s) (t := t) (g := g) (l := l) q
    rw [D.pending_of_update h₀, D.pending_of_update hl, hleft] at hsum
    rw [moved_shared, hh]
    by_cases hq' : p = q
    · subst hq'
      rw [if_pos rfl, if_pos rfl, hadded] at hsum
      have hcontent : D.content (s.moved t g l) p = D.content s p + d := by
        refine add_right_cancel (hsum.trans ?_)
        abel
      rw [hcontent, Function.update_self]
      exact hc
    · rw [if_neg hq', if_neg hq'] at hsum
      rw [add_right_cancel hsum, Function.update_of_ne (Ne.symm hq')]
      exact K.heap q (hn ▸ hq)
  · rw [moved_shared, hs]
    exact K.samples

theorem Counted.emptied (K : Counted D s) {x : ℕ} {h : H} (hc : D.contains h 0)
    (hx : Exclusive s x) (h₀ : (s.pc t).update = none) (hl : l.update = none)
    (hh : g.heap = Function.update s.shared.heap x h)
    (hn : ∀ q < g.allocated, q = x ∨ q < s.shared.allocated)
    (hleft : g.left = Function.update s.shared.left x 0) (hs : g.samples = s.shared.samples) :
    Counted D (s.moved t g l) := by
  refine ⟨K.valid_outside hl, fun q hq => ?_, ?_⟩
  · by_cases hq' : q = x
    · subst hq'
      have hsum := D.content_moved (s := s) (t := t) (g := g) (l := l) q
      rw [D.pending_of_none h₀, D.pending_of_none hl, D.content_unheld hx.2, hleft,
        Function.update_self, D.recorded_zero, add_zero, add_zero, add_zero] at hsum
      rw [moved_shared, hh, Function.update_self, left_eq_add.mp (hsum.symm.trans (add_comm _ _))]
      exact hc
    · rw [D.content_same (by rw [hleft, Function.update_of_ne hq'])
        (by rw [D.pending_of_none h₀, D.pending_of_none hl]), moved_shared, hh,
        Function.update_of_ne hq']
      exact K.heap q ((hn q hq).resolve_left hq')
  · rw [moved_shared, hs]
    exact K.samples

/-- A call that leaves moves from what is pending to the tally. -/
theorem Counted.left (K : Counted D s) {p : ℕ} {c : C} {r : R}
    (h₀ : (s.pc t).update = some (p, c, .inr r)) (hl : l.update = none)
    (hh : g.heap = s.shared.heap) (hn : g.allocated = s.shared.allocated)
    (hleft : g.left = Function.update s.shared.left p (s.shared.left p + {(c, r)}))
    (hs : g.samples = s.shared.samples) : Counted D (s.moved t g l) := by
  refine ⟨K.valid_outside hl, fun q hq => ?_, ?_⟩
  · have hsum := D.content_moved (s := s) (t := t) (g := g) (l := l) q
    have hsame : D.recorded (g.left q) + D.pending q l =
        D.recorded (s.shared.left q) + D.pending q (s.pc t) := by
      rw [D.pending_of_update h₀, D.pending_of_none hl, hleft]
      by_cases hq' : p = q
      · rw [hq', Function.update_self, D.recorded_add, D.recorded_singleton, if_pos rfl, add_zero]
      · rw [Function.update_of_ne (Ne.symm hq'), if_neg hq']
    rw [hsame] at hsum
    rw [add_right_cancel hsum, moved_shared, hh]
    exact K.heap q (hn ▸ hq)
  · rw [moved_shared, hs]
    exact K.samples

theorem Counted.handOver (K : Counted D s) {old : ℕ} (hold : old < s.shared.allocated)
    (hx : Exclusive s old) (h₀ : (s.pc t).update = none) (hl : l.update = none)
    (hh : g.heap = s.shared.heap) (hn : g.allocated = s.shared.allocated)
    (hleft : g.left = s.shared.left)
    (hs : g.samples = s.shared.samples ++ [(s.shared.heap old, s.shared.left old)]) :
    Counted D (s.moved t g l) := by
  refine ⟨K.valid_outside hl, fun q hq => ?_, fun x hx' => ?_⟩
  · rw [D.content_same (by rw [hleft]) (by rw [D.pending_of_none h₀, D.pending_of_none hl]),
      moved_shared, hh]
    exact K.heap q (hn ▸ hq)
  · rw [moved_shared, hs, List.mem_append, List.mem_singleton] at hx'
    rcases hx' with hx' | rfl
    · exact K.samples x hx'
    · have h := K.heap old hold
      rwa [D.content_unheld hx.2] at h

theorem Counted.step (K : Counted D s) (S : Safe s) (h : Stepped O s.shared (s.pc t) g l) :
    Counted D (s.moved t g l) := by
  generalize hl : s.pc t = l₀ at h
  cases h with
  | load hu =>
      exact K.loaded S.owned (by rw [hl]; rfl) (by rw [hu]; rfl)
  | refuse hu =>
      exact K.loaded S.owned (by rw [hl]; rfl) (by rw [hu]; rfl)
  | @operate val p c w w' h ho =>
      exact K.operated (S.held_lt (t := t) (v := val) (by rw [hl]; rfl)) (by rw [hl]; rfl) ho rfl
        rfl rfl rfl rfl
  | @finish val p c w r h ho =>
      exact K.operated (S.held_lt (t := t) (v := val) (by rw [hl]; rfl)) (by rw [hl]; rfl) ho rfl
        rfl rfl rfl rfl
  | exit => exact K.left (by rw [hl]; rfl) rfl rfl rfl rfl rfl
  | allocate hinit =>
      obtain ⟨h', hinit', hc⟩ := D.init (K.heap _ S.owned.active_lt)
      rw [hinit', Option.some.injEq] at hinit
      refine K.emptied hc S.exclusive_allocated (by rw [hl]; rfl) rfl (by rw [hinit])
        (fun q hq => ?_) rfl rfl
      exact (Nat.lt_succ_iff_lt_or_eq.mp hq).symm
  | recycle hx =>
      exact K.emptied (D.reset (K.heap _ (S.owned.obtained_lt _ hx))) (S.exclusive_obtained hx)
        (by rw [hl]; rfl) rfl rfl (fun q hq => .inr hq) rfl rfl
  | @handOver old =>
      have hown : (s.pc t).owns = some old := by rw [hl]; rfl
      exact K.handOver (S.owned.owns_lt t _ hown) (S.exclusive_owned hown (by rw [hl]; rfl)
        (by rw [hl]; rfl)) (by rw [hl]; rfl) rfl rfl rfl rfl rfl
  | wait => exact K.same (by rw [hl]) rfl rfl rfl rfl
  | _ => exact K.same (by rw [hl]; rfl) rfl rfl rfl rfl

end Counted

section Runs
variable {s : RecorderState ι H W C R} {h : H}

omit [DecidableEq ι] in
theorem Tallied.initial : Tallied (RecorderState.initial h : RecorderState ι H W C R) where
  live_iff q := by simp [RecorderState.initial, Recorder.initial, Pc.retires]
  prepared _ _ hu := by cases hu
  exited := by simp [RecorderState.initial, Recorder.initial]

variable [Fintype ι]

theorem Runs.tallied (run : Runs O h s) : Tallied s :=
  run.invariant (P := Tallied) Tallied.initial fun _ _ _ _ _ before K hstep _ =>
    K.step (Runs.safe before) (step_cases hstep)

variable {D : UpdateSpec O M}

omit [DecidableEq ι] in
theorem Counted.initial (hc : D.contains h 0) :
    Counted D (RecorderState.initial h : RecorderState ι H W C R) where
  valid _ _ _ _ hu := by cases hu
  heap q _ := by
    rw [UpdateSpec.content, total_eq_zero fun u => D.pending_of_none rfl, add_zero]
    exact hc
  samples x hx := by cases hx

theorem Runs.counted (hc : D.contains h 0) (run : Runs O h s) : Counted D s :=
  run.invariant (P := Counted D) (Counted.initial hc) fun _ _ _ _ _ before K hstep _ =>
    K.step (Runs.safe before) (step_cases hstep)

/-- The next operation of a call can be taken, except that a reader waits for the mutex. -/
theorem Runs.proceeds (hc : D.contains h 0) (run : Runs O h s) (t : ι) :
    s.pc t = .idle ∨ (∃ new, s.pc t = .locking new ∧ s.shared.phaser.readerMutex = true) ∨
      ∃ r, step O .proceed s.shared (s.pc t) = some r := by
  have K := run.counted hc
  cases hl : s.pc t with
  | idle => exact .inl rfl
  | updating v p c w =>
      have hp := run.safe.held_lt (t := t) (v := v) (q := p) (by rw [hl]; rfl)
      have hvalid := K.valid t p c (.inl w) (by rw [hl]; rfl)
      obtain ⟨h', r, d, ho, -⟩ := D.operation (K.heap p hp) hvalid
      exact .inr (.inr ⟨_, by rw [step, ho]; rfl⟩)
  | locking new =>
      cases hm : s.shared.phaser.readerMutex with
      | true => exact .inr (.inl ⟨new, rfl, rfl⟩)
      | false => exact .inr (.inr ⟨_, by rw [step, hm]; rfl⟩)
  | _ => exact .inr (.inr ⟨_, rfl⟩)

theorem Runs.allocates (hc : D.contains h 0) (run : Runs O h s) :
    ∃ r, step O (.sampleAndRecycle none) s.shared (.idle : Pc W C R) = some r := by
  obtain ⟨h', hinit, -⟩ := D.init ((run.counted hc).heap _ run.safe.owned.active_lt)
  exact ⟨_, by rw [step, hinit]; rfl⟩

end Runs

end HdrHistogramC
