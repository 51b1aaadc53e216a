import Mathlib

/-!
# Weighted samples

The mean, the root of the mean square and the standard deviation of numbers with weights. Moving
the numbers moves the mean by at most the mean of the moves, and the deviation by at most the root
of their mean square: the root of the mean square is a seminorm, and the deviation is a distance
in it, from the constants.
-/
namespace HdrHistogramC.WeightedSamples
variable {ι : Type*} [Fintype ι] (w : ι → ℝ)

noncomputable def mean (x : ι → ℝ) : ℝ := (∑ i, w i * x i) / ∑ i, w i

noncomputable def rootMeanSquare (x : ι → ℝ) : ℝ := √(mean w fun i => x i ^ 2)

noncomputable def deviation (x : ι → ℝ) : ℝ := rootMeanSquare w fun i => x i - mean w x

/-- Weights that are not all zero. -/
structure Weights : Prop where
  nonneg : ∀ i, 0 ≤ w i
  pos : 0 < ∑ i, w i

section Mean
variable {w} {x y : ι → ℝ}

theorem mean_add (x y : ι → ℝ) : mean w (fun i => x i + y i) = mean w x + mean w y := by
  simp only [mean, mul_add, Finset.sum_add_distrib, add_div]

theorem mean_const_mul (c : ℝ) (x : ι → ℝ) : mean w (fun i => c * x i) = c * mean w x := by
  simp only [mean, mul_left_comm _ c, ← Finset.mul_sum, mul_div_assoc]

theorem mean_sub (x y : ι → ℝ) : mean w (fun i => x i - y i) = mean w x - mean w y := by
  simp only [mean, mul_sub, Finset.sum_sub_distrib, sub_div]

theorem mean_const (W : Weights w) (c : ℝ) : mean w (fun _ => c) = c := by
  rw [mean, ← Finset.sum_mul, mul_div_cancel_left₀ _ W.pos.ne']

theorem mean_mono (W : Weights w) (h : ∀ i, x i ≤ y i) : mean w x ≤ mean w y :=
  div_le_div_of_nonneg_right
    (Finset.sum_le_sum fun i _ => mul_le_mul_of_nonneg_left (h i) (W.nonneg i)) W.pos.le

theorem abs_mean_le (W : Weights w) (x : ι → ℝ) : |mean w x| ≤ mean w fun i => |x i| := by
  rw [abs_le, neg_le, ← neg_one_mul, ← mean_const_mul]
  exact ⟨mean_mono W fun i => by rw [neg_one_mul]; exact neg_le_abs _,
    mean_mono W fun i => le_abs_self _⟩

theorem abs_mean_sub_le (W : Weights w) (x y : ι → ℝ) :
    |mean w x - mean w y| ≤ mean w fun i => |x i - y i| := by
  rw [← mean_sub]
  exact abs_mean_le W _

end Mean

section RootMeanSquare
variable {w} {x y : ι → ℝ}

/-- The Euclidean norm of the numbers, scaled by the roots of the weights. -/
theorem rootMeanSquare_eq_norm (W : Weights w) (x : ι → ℝ) :
    rootMeanSquare w x = ‖WithLp.toLp 2 fun i => √(w i / ∑ j, w j) * x i‖ := by
  rw [rootMeanSquare, mean, EuclideanSpace.norm_eq, Finset.sum_div]
  refine congrArg Real.sqrt (Finset.sum_congr rfl fun i _ => ?_)
  rw [Real.norm_eq_abs, sq_abs, mul_pow, Real.sq_sqrt (div_nonneg (W.nonneg i) W.pos.le)]
  ring

theorem rootMeanSquare_add_le (W : Weights w) (x y : ι → ℝ) :
    rootMeanSquare w (fun i => x i + y i) ≤ rootMeanSquare w x + rootMeanSquare w y := by
  rw [rootMeanSquare_eq_norm W, rootMeanSquare_eq_norm W, rootMeanSquare_eq_norm W]
  refine le_trans (le_of_eq (congrArg norm ?_)) (norm_add_le _ _)
  ext i
  exact mul_add ..

theorem rootMeanSquare_mono (W : Weights w) (h : ∀ i, |x i| ≤ y i) :
    rootMeanSquare w x ≤ rootMeanSquare w y := by
  refine Real.sqrt_le_sqrt (mean_mono W fun i => ?_)
  rw [← sq_abs]
  exact pow_le_pow_left₀ (abs_nonneg _) (h i) 2

theorem rootMeanSquare_const (W : Weights w) {c : ℝ} (hc : 0 ≤ c) :
    rootMeanSquare w (fun _ => c) = c := by
  rw [rootMeanSquare, mean_const W, Real.sqrt_sq hc]

theorem rootMeanSquare_const_mul {c : ℝ} (hc : 0 ≤ c) (x : ι → ℝ) :
    rootMeanSquare w (fun i => c * x i) = c * rootMeanSquare w x := by
  simp only [rootMeanSquare, mul_pow, mean_const_mul]
  rw [Real.sqrt_mul (sq_nonneg c), Real.sqrt_sq hc]

theorem deviation_le (W : Weights w) (x : ι → ℝ) (c : ℝ) :
    deviation w x ≤ rootMeanSquare w fun i => x i - c := by
  refine Real.sqrt_le_sqrt ?_
  have hsquares : ∀ c, mean w (fun i => (x i - c) ^ 2) =
      mean w (fun i => x i ^ 2) - 2 * c * mean w x + c ^ 2 := by
    intro c
    have hexpand : (fun i => (x i - c) ^ 2) = fun i => x i ^ 2 + (-2 * c * x i + c ^ 2) :=
      funext fun i => by ring
    rw [hexpand, mean_add, mean_add, mean_const W, mean_const_mul]
    ring
  rw [hsquares, hsquares]
  linarith [sq_nonneg (mean w x - c)]

theorem deviation_le_add (W : Weights w) (x y : ι → ℝ) :
    deviation w x ≤ deviation w y + rootMeanSquare w fun i => x i - y i := by
  calc deviation w x ≤ rootMeanSquare w (fun i => x i - mean w y) := deviation_le W x _
    _ = rootMeanSquare w (fun i => (y i - mean w y) + (x i - y i)) :=
      congrArg _ (funext fun i => by ring)
    _ ≤ deviation w y + rootMeanSquare w (fun i => x i - y i) := rootMeanSquare_add_le W _ _

theorem abs_deviation_sub_le (W : Weights w) (x y : ι → ℝ) :
    |deviation w x - deviation w y| ≤ rootMeanSquare w fun i => x i - y i := by
  have hswap : rootMeanSquare w (fun i => y i - x i) = rootMeanSquare w fun i => x i - y i :=
    congrArg (fun s => √(mean w s)) (funext fun i => by ring)
  have hxy := deviation_le_add W x y
  have hyx := deviation_le_add W y x
  rw [hswap] at hyx
  rw [abs_le]
  exact ⟨by linarith, by linarith⟩

end RootMeanSquare

end HdrHistogramC.WeightedSamples
