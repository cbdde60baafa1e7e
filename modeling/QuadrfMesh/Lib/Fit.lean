/-
# Means and fitted lines

A mean lies within the bound of its terms, and the slope of the line fitted by least squares
within the bound of the slopes between any two of its points.
-/
import Mathlib

namespace Fit

variable {R : Type*} [Field R] [LinearOrder R] [IsStrictOrderedRing R]

/-- A mean lies within the bound of its terms. -/
theorem abs_mean_le {xs : List R} {b : R} (hb : 0 ≤ b) (h : ∀ x ∈ xs, |x| ≤ b) :
    |xs.sum / xs.length| ≤ b := by
  have hsum : |xs.sum| ≤ xs.length * b := by
    induction xs with
    | nil => simp
    | cons x xs ih =>
        obtain ⟨hx, hxs⟩ := List.forall_mem_cons.mp h
        rw [List.sum_cons, List.length_cons]
        push_cast
        linarith [abs_add_le x xs.sum, ih hxs]
  rw [abs_div, Nat.abs_cast]
  exact div_le_of_le_mul₀ (Nat.cast_nonneg _) hb (by linarith)

variable {ι : Type*} {s : Finset ι} {x y : ι → R}

/-- The slope of the line through the points `(x i, y i)` by least squares. -/
def slope (s : Finset ι) (x y : ι → R) : R :=
  (s.card * ∑ i ∈ s, x i * y i - (∑ i ∈ s, x i) * ∑ i ∈ s, y i) /
    (s.card * ∑ i ∈ s, x i * x i - (∑ i ∈ s, x i) * ∑ i ∈ s, x i)

omit [LinearOrder R] [IsStrictOrderedRing R] in
/-- The sums of a combination of both coordinates. -/
theorem sum_mul_combine (a b : R) :
    (∑ i ∈ s, x i * (a * x i + b * y i) = a * ∑ i ∈ s, x i * x i + b * ∑ i ∈ s, x i * y i) ∧
      (∑ i ∈ s, (a * x i + b * y i) = a * ∑ i ∈ s, x i + b * ∑ i ∈ s, y i) := by
  constructor
  · rw [Finset.mul_sum, Finset.mul_sum, ← Finset.sum_add_distrib]
    exact Finset.sum_congr rfl fun i _ => by ring
  · rw [Finset.mul_sum, Finset.mul_sum, ← Finset.sum_add_distrib]

/-- **The slope is bounded** by the slopes between any two of the points. -/
theorem abs_slope_le {b : R} (hb : 0 ≤ b)
    (h : ∀ i ∈ s, ∀ j ∈ s, x i < x j → |y j - y i| ≤ b * (x j - x i)) : |slope s x y| ≤ b := by
  -- what rises with `x` goes up on average
  have hrise : ∀ a c : R, (∀ i ∈ s, ∀ j ∈ s, x i < x j → a * x i + c * y i ≤ a * x j + c * y j) →
      (∑ i ∈ s, x i) * (a * ∑ i ∈ s, x i + c * ∑ i ∈ s, y i)
        ≤ s.card * (a * ∑ i ∈ s, x i * x i + c * ∑ i ∈ s, x i * y i) := by
    intro a c hmono
    rw [← (sum_mul_combine a c).1, ← (sum_mul_combine a c).2]
    have hvary : MonovaryOn (fun i => a * x i + c * y i) x s := hmono
    exact hvary.symm.sum_mul_sum_le_card_mul_sum
  have hplus := hrise b 1 fun i hi j hj hij => by
    have := (abs_le.mp (h i hi j hj hij)).1
    linarith
  have hminus := hrise b (-1) fun i hi j hj hij => by
    have := (abs_le.mp (h i hi j hj hij)).2
    linarith
  have hden := hrise 1 0 fun i hi j hj hij => by linarith
  have hden' : 0 ≤ s.card * ∑ i ∈ s, x i * x i - (∑ i ∈ s, x i) * ∑ i ∈ s, x i := by linarith
  rw [slope, abs_div, abs_of_nonneg hden']
  refine div_le_of_le_mul₀ hden' hb ?_
  rw [abs_le]
  constructor <;> linarith

end Fit
