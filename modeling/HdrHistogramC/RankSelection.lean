import Mathlib

/-!
# Ranks in a finite collection

The element of rank `r` is the `r`-th smallest, counted with multiplicity. Ranks
are kept by permutations and by monotone maps, and for natural numbers the element
of rank `r` is where the cumulative number of occurrences reaches `r`.
-/
namespace HdrHistogramC.RankSelection

theorem countP_le_of_imp {α : Type*} (l : List α) {p q : α → Prop} [DecidablePred p]
    [DecidablePred q] (h : ∀ y, p y → q y) :
    l.countP (fun y => p y) ≤ l.countP (fun y => q y) := by
  apply List.countP_mono_left
  intro y _ hy
  simpa using h y (by simpa using hy)

section Order
variable {α β : Type*} [LinearOrder α] [LinearOrder β] {l l' : List α} {r s : ℕ} {x y : α}

/-- Fewer than `r` elements are smaller than `x`, and at least `r` are at most `x`. -/
def IsRanked (l : List α) (r : ℕ) (x : α) : Prop :=
  l.countP (fun y => y < x) < r ∧ r ≤ l.countP (fun y => y ≤ x)

theorem IsRanked.mono (hx : IsRanked l r x) (hy : IsRanked l s y) (h : r ≤ s) : x ≤ y := by
  by_contra hlt
  have := countP_le_of_imp l (p := fun z => z ≤ y) (q := fun z => z < x)
    fun z hz => hz.trans_lt (not_le.mp hlt)
  have := hx.1
  have := hy.2
  omega

theorem IsRanked.unique (hx : IsRanked l r x) (hy : IsRanked l r y) : x = y :=
  le_antisymm (hx.mono hy le_rfl) (hy.mono hx le_rfl)

theorem IsRanked.perm (h : l.Perm l') (hx : IsRanked l r x) : IsRanked l' r x := by
  unfold IsRanked at hx ⊢
  rwa [← h.countP_eq, ← h.countP_eq]

/-- A monotone map keeps ranks, however many elements it identifies. -/
theorem IsRanked.map {g : α → β} (hg : Monotone g) (hx : IsRanked l r x) :
    IsRanked (l.map g) r (g x) := by
  simp only [IsRanked, List.countP_map, Function.comp_def]
  constructor
  · have := countP_le_of_imp l (p := fun y => g y < g x) (q := fun y => y < x)
      fun y hy => hg.reflect_lt hy
    have := hx.1
    omega
  · have := countP_le_of_imp l (p := fun y => y ≤ x) (q := fun y => g y ≤ g x) fun y hy => hg hy
    have := hx.2
    omega

theorem isRanked_getElem (sorted : l.Pairwise (· ≤ ·)) {k : ℕ} (hk : k < l.length) :
    IsRanked l (k + 1) l[k] := by
  have hsplit := List.take_append_drop k l
  have hdrop : l.drop k = l[k] :: l.drop (k + 1) := List.drop_eq_getElem_cons hk
  rw [← hsplit, hdrop, List.pairwise_append, List.pairwise_cons] at sorted
  obtain ⟨-, ⟨hafter, -⟩, hbefore⟩ := sorted
  have hlen : (l.take k).length = k := List.length_take_of_le hk.le
  generalize l[k] = x at *
  rw [← hsplit, hdrop]
  constructor
  · have hzero : (l.drop (k + 1)).countP (fun y => y < x) = 0 := by
      rw [List.countP_eq_zero]
      intro y hy
      simpa using hafter y hy
    have hle := List.countP_le_length (p := fun y => decide (y < x)) (l := l.take k)
    rw [List.countP_append, List.countP_cons, hzero]
    simp only [lt_self_iff_false, decide_false, Bool.false_eq_true, if_false]
    omega
  · have hall : (l.take k).countP (fun y => y ≤ x) = (l.take k).length := by
      rw [List.countP_eq_length]
      intro y hy
      simpa using hbefore y hy x List.mem_cons_self
    rw [List.countP_append, List.countP_cons, hall, hlen]
    simp only [le_refl, decide_true, if_true]
    omega

end Order

section Cumulative
variable {l : List ℕ} {r n : ℕ}

theorem countP_lt_eq_sum (l : List ℕ) (n : ℕ) :
    l.countP (fun y => y < n) = ∑ i ∈ Finset.range n, l.count i := by
  induction l with
  | nil => simp
  | cons a l ih =>
      simp only [List.countP_cons, List.count_cons, Finset.sum_add_distrib, ih, beq_iff_eq,
        decide_eq_true_eq, Finset.sum_ite_eq, Finset.mem_range]

/-- Scanning the numbers of occurrences finds the element of rank `r`. -/
theorem isRanked_iff_sum : IsRanked l r n ↔
    ∑ i ∈ Finset.range n, l.count i < r ∧ r ≤ ∑ i ∈ Finset.range (n + 1), l.count i := by
  have hle : l.countP (fun y => y ≤ n) = l.countP (fun y => y < n + 1) := by
    simp only [Nat.lt_succ_iff]
  rw [IsRanked, hle, countP_lt_eq_sum, countP_lt_eq_sum]

end Cumulative

end HdrHistogramC.RankSelection
