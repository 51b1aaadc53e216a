import Mathlib

/-!
# Blocks of memory

Computations that allocate and free blocks. Any allocation can be refused; which ones are is a
parameter. A triple says what a computation does with the blocks that it owns: it frees only blocks
that are live, leaves the blocks of others alone, and ends up with the blocks that its postcondition
says, so that a block that is lost shows there.
-/
namespace HdrHistogramC.Blocks

/-- The live blocks, the number of the next one, and whether a block was freed that was not live. -/
structure Heap where
  live : Multiset ℕ
  next : ℕ
  misused : Bool

structure Heap.Sound (h : Heap) : Prop where
  used : h.misused = false
  nodup : h.live.Nodup
  fresh : ∀ b ∈ h.live, b < h.next

/-- A computation over the heap, under the refusals of the allocator. Those of other allocations
than its own do not matter. -/
structure Alloc (α : Type) where
  run : (ℕ → Bool) → Heap → α × Heap
  grows : ∀ refused h, h.next ≤ (run refused h).2.next
  own : ∀ refused refused' h,
    (∀ n, h.next ≤ n → n < (run refused h).2.next → refused n = refused' n) →
      run refused' h = run refused h

variable {α β : Type}

instance : Monad Alloc where
  pure a := ⟨fun _ h => (a, h), fun _ _ => le_rfl, fun _ _ _ _ => rfl⟩
  bind c f :=
    { run := fun refused h => (f (c.run refused h).1).run refused (c.run refused h).2
      grows := fun refused h => (c.grows refused h).trans ((f _).grows refused _)
      own := fun refused refused' h hsame => by
        have hfirst : c.run refused' h = c.run refused h := c.own refused refused' h fun n hn hlt =>
          hsame n hn (hlt.trans_le ((f _).grows refused _))
        rw [hfirst]
        exact (f _).own refused refused' _ fun n hn hlt =>
          hsame n ((c.grows refused h).trans hn) hlt }

/-- `none` is a null pointer. -/
def malloc : Alloc (Option ℕ) where
  run refused h :=
    if refused h.next then (none, { h with next := h.next + 1 })
    else (some h.next, { h with live := h.next ::ₘ h.live, next := h.next + 1 })
  grows refused h := by
    split_ifs
    · exact Nat.le_succ _
    · exact Nat.le_succ _
  own refused refused' h hsame := by
    rw [hsame h.next le_rfl]
    split_ifs
    · exact Nat.lt_succ_self _
    · exact Nat.lt_succ_self _

/-- Nothing happens to a null pointer. -/
def free (block : Option ℕ) : Alloc Unit where
  run _ h :=
    match block with
    | none => ((), h)
    | some b => ((), if b ∈ h.live then { h with live := h.live.erase b }
        else { h with misused := true })
  grows _ h := by
    cases block with
    | none => exact le_rfl
    | some b =>
        dsimp only
        split_ifs
        · exact le_rfl
        · exact le_rfl
  own _ _ _ _ := rfl

/-- Some allocation is refused. -/
def Refusing (refused : ℕ → Bool) : Prop := ∃ n, refused n = true

/-- The computation owns some blocks, and ends up with others, under fixed refusals. -/
def Triple (refused : ℕ → Bool) (owned : Multiset ℕ) (c : Alloc α)
    (Q : α → Multiset ℕ → Prop) : Prop :=
  ∀ h frame, h.Sound → h.live = owned + frame → (c.run refused h).2.Sound ∧
    ∃ owned', (c.run refused h).2.live = owned' + frame ∧ Q (c.run refused h).1 owned'

/-- The refusals that a computation meets. -/
def Alloc.met (c : Alloc α) (refused : ℕ → Bool) (h : Heap) (n : ℕ) : Bool :=
  refused n && decide (h.next ≤ n ∧ n < (c.run refused h).2.next)

theorem Alloc.run_met (c : Alloc α) (refused : ℕ → Bool) (h : Heap) :
    c.run (c.met refused h) h = c.run refused h :=
  c.own _ _ h fun n hn hlt => by rw [Alloc.met, decide_eq_true ⟨hn, hlt⟩, Bool.and_true]

/-- What a computation does under any refusals, told with those that it meets. -/
def Does (owned : Multiset ℕ) (c : Alloc α) (Q : (ℕ → Bool) → α → Multiset ℕ → Prop) : Prop :=
  ∀ refused h frame, h.Sound → h.live = owned + frame → (c.run refused h).2.Sound ∧
    ∃ owned', (c.run refused h).2.live = owned' + frame ∧
      Q (c.met refused h) (c.run refused h).1 owned'

theorem Triple.does {owned : Multiset ℕ} {c : Alloc α} {Q : (ℕ → Bool) → α → Multiset ℕ → Prop}
    (hc : ∀ refused, Triple refused owned c (Q refused)) : Does owned c Q := by
  intro refused h frame hs hlive
  have hmet := hc (c.met refused h) h frame hs hlive
  rwa [c.run_met] at hmet

namespace Triple
variable {refused : ℕ → Bool} {owned more : Multiset ℕ} {c : Alloc α} {f : α → Alloc β}
  {Q Q' : α → Multiset ℕ → Prop} {R : β → Multiset ℕ → Prop}

theorem ret {a : α} (h : Q a owned) : Triple refused owned (pure a) Q :=
  fun _ _ hs hlive => ⟨hs, owned, hlive, h⟩

theorem bind (hc : Triple refused owned c Q)
    (hf : ∀ a owned', Q a owned' → Triple refused owned' (f a) R) :
    Triple refused owned (c >>= f) R := by
  intro h frame hs hlive
  obtain ⟨hs', owned', hlive', hQ⟩ := hc h frame hs hlive
  exact hf _ owned' hQ _ frame hs' hlive'

theorem conseq (hc : Triple refused owned c Q) (hQ : ∀ a o, Q a o → Q' a o) :
    Triple refused owned c Q' := by
  intro h frame hs hlive
  obtain ⟨hs', owned', hlive', hq⟩ := hc h frame hs hlive
  exact ⟨hs', owned', hlive', hQ _ _ hq⟩

/-- The frame rule. -/
theorem frame (hc : Triple refused owned c Q) (more : Multiset ℕ) :
    Triple refused (owned + more) c fun a o => ∃ o', o = o' + more ∧ Q a o' := by
  intro h frame hs hlive
  rw [add_assoc] at hlive
  obtain ⟨hs', owned', hlive', hq⟩ := hc h (more + frame) hs hlive
  exact ⟨hs', owned' + more, by rw [hlive', add_assoc], owned', rfl, hq⟩

theorem malloc : Triple refused 0 malloc fun r o =>
    (r = none ∧ o = 0 ∧ Refusing refused) ∨ ∃ b, r = some b ∧ o = {b} := by
  intro h frame hs hlive
  rw [zero_add] at hlive
  rw [Blocks.malloc]
  dsimp only
  split_ifs with hrefused
  · exact ⟨⟨hs.used, hs.nodup, fun b hb => Nat.lt_succ_of_lt (hs.fresh b hb)⟩, 0,
      by rw [zero_add]; exact hlive, .inl ⟨rfl, rfl, h.next, hrefused⟩⟩
  · refine ⟨⟨hs.used, Multiset.nodup_cons.mpr ⟨fun hb => (hs.fresh _ hb).false, hs.nodup⟩,
      fun b hb => ?_⟩, {h.next}, by rw [Multiset.singleton_add, hlive], .inr ⟨h.next, rfl, rfl⟩⟩
    rcases Multiset.mem_cons.mp hb with rfl | hb
    · exact Nat.lt_succ_self _
    · exact Nat.lt_succ_of_lt (hs.fresh b hb)

theorem free_none : Triple refused owned (free none) fun _ o => o = owned :=
  fun _ _ hs hlive => ⟨hs, owned, hlive, rfl⟩

theorem free_some (b : ℕ) : Triple refused (b ::ₘ owned) (free (some b)) fun _ o => o = owned := by
  intro h frame hs hlive
  have hmem : b ∈ h.live := by
    rw [hlive, Multiset.cons_add]
    exact Multiset.mem_cons_self _ _
  rw [free]
  dsimp only
  rw [if_pos hmem]
  refine ⟨⟨hs.used, hs.nodup.erase b, fun d hd => hs.fresh d (Multiset.mem_of_mem_erase hd)⟩,
    owned, ?_, rfl⟩
  rw [hlive, Multiset.cons_add, Multiset.erase_cons_head]

end Triple

end HdrHistogramC.Blocks
