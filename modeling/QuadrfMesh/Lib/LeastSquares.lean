/-
# Ridge least squares

The weighted cost of a linear fit with a pull of every coefficient towards zero.  Around any
point the cost is the normal equations and a spread that is never negative (`cost_add`), so
where the normal matrix has an inverse the normal equations have the only minimum
(`cost_le_of_inverse`, `eq_of_cost_eq`).
-/
import Mathlib

open Finset

namespace LeastSquares

variable {K : Type*} [Field K]

/-- A matrix on what its right inverse makes of `v`. -/
theorem apply_inverse {n : ℕ} {A B : ℕ → ℕ → K} {i : ℕ} (hi : i < n)
    (h : ∀ j < n, ∑ k ∈ range n, A i k * B k j = if i = j then 1 else 0) (v : ℕ → K) :
    ∑ k ∈ range n, A i k * ∑ j ∈ range n, B k j * v j = v i := by
  calc ∑ k ∈ range n, A i k * ∑ j ∈ range n, B k j * v j
      = ∑ j ∈ range n, (∑ k ∈ range n, A i k * B k j) * v j := by
        simp only [mul_sum, sum_mul]
        rw [sum_comm]
        exact sum_congr rfl fun j _ => sum_congr rfl fun k _ => by ring
    _ = ∑ j ∈ range n, if i = j then v j else 0 := by
        refine sum_congr rfl fun j hj => ?_
        rw [h j (mem_range.mp hj), ite_mul, one_mul, zero_mul]
    _ = v i := by rw [sum_ite_eq, if_pos (mem_range.mpr hi)]

/-- A fit of `n` coefficients to `rows` observations. -/
structure Problem (K : Type*) where
  rows : ℕ
  n : ℕ
  design : ℕ → ℕ → K
  value : ℕ → K
  weight : ℕ → K
  prior : ℕ → K

namespace Problem

variable (P : Problem K)

/-- What the fit makes of row `r`. -/
def predict (x : ℕ → K) (r : ℕ) : K := ∑ i ∈ range P.n, P.design r i * x i

/-- The cost of the coefficients `x`. -/
def cost (x : ℕ → K) : K :=
  ∑ r ∈ range P.rows, P.weight r * (P.value r - P.predict x r) ^ 2
    + ∑ i ∈ range P.n, P.prior i * x i ^ 2

/-- The normal matrix. -/
def normal (i j : ℕ) : K :=
  (if i = j then P.prior i else 0)
    + ∑ r ∈ range P.rows, P.weight r * P.design r i * P.design r j

/-- The right hand side of the normal equations. -/
def moment (i : ℕ) : K := ∑ r ∈ range P.rows, P.weight r * P.design r i * P.value r

/-- The cost of moving by `d`. -/
def spread (d : ℕ → K) : K :=
  ∑ r ∈ range P.rows, P.weight r * P.predict d r ^ 2 + ∑ i ∈ range P.n, P.prior i * d i ^ 2

theorem predict_add (x d : ℕ → K) (r : ℕ) :
    P.predict (fun i => x i + d i) r = P.predict x r + P.predict d r := by
  simp only [predict, mul_add, sum_add_distrib]

/-- The normal matrix on `x`, row by row. -/
theorem sum_normal (x : ℕ → K) {i : ℕ} (hi : i < P.n) :
    ∑ j ∈ range P.n, P.normal i j * x j
      = P.prior i * x i + ∑ r ∈ range P.rows, P.weight r * P.design r i * P.predict x r := by
  have hprior : ∑ j ∈ range P.n, (if i = j then P.prior i else 0) * x j = P.prior i * x i := by
    simp only [ite_mul, zero_mul]
    rw [sum_ite_eq, if_pos (mem_range.mpr hi)]
  have hrows : ∑ j ∈ range P.n, (∑ r ∈ range P.rows, P.weight r * P.design r i * P.design r j) * x j
      = ∑ r ∈ range P.rows, P.weight r * P.design r i * P.predict x r := by
    simp only [sum_mul]
    rw [sum_comm]
    refine sum_congr rfl fun r _ => ?_
    rw [predict, mul_sum]
    exact sum_congr rfl fun j _ => by ring
  simp only [normal, add_mul]
  rw [sum_add_distrib, hprior, hrows]

/-- The spread is what the normal matrix makes of the move. -/
theorem spread_eq (d : ℕ → K) :
    P.spread d = ∑ i ∈ range P.n, d i * ∑ j ∈ range P.n, P.normal i j * d j := by
  have hterm : ∀ i ∈ range P.n, d i * ∑ j ∈ range P.n, P.normal i j * d j
      = P.prior i * d i ^ 2
        + ∑ r ∈ range P.rows, P.weight r * (P.design r i * d i * P.predict d r) := by
    intro i hi
    rw [P.sum_normal d (mem_range.mp hi), mul_add, mul_sum, sq]
    congr 1
    · ring
    · exact sum_congr rfl fun r _ => by ring
  rw [sum_congr rfl hterm, sum_add_distrib, sum_comm, add_comm, spread]
  congr 1
  refine sum_congr rfl fun r _ => ?_
  rw [← mul_sum, ← sum_mul, sq]
  rfl

/-- **The cost around a point**: the spread, and twice the normal equations along the move. -/
theorem cost_add (x d : ℕ → K) :
    P.cost (fun i => x i + d i) = P.cost x + P.spread d
      + 2 * ∑ i ∈ range P.n, d i * (∑ j ∈ range P.n, P.normal i j * x j - P.moment i) := by
  have hcross : ∑ i ∈ range P.n, d i * (∑ j ∈ range P.n, P.normal i j * x j - P.moment i)
      = ∑ i ∈ range P.n, P.prior i * (d i * x i)
        - ∑ r ∈ range P.rows, P.weight r * (P.predict d r * (P.value r - P.predict x r)) := by
    have hterm : ∀ i ∈ range P.n, d i * (∑ j ∈ range P.n, P.normal i j * x j - P.moment i)
        = P.prior i * (d i * x i)
          - ∑ r ∈ range P.rows, P.weight r * (P.design r i * d i * (P.value r - P.predict x r)) := by
      intro i hi
      have hsum : ∑ r ∈ range P.rows, P.weight r * (P.design r i * d i * (P.value r - P.predict x r))
          = d i * (P.moment i - ∑ r ∈ range P.rows, P.weight r * P.design r i * P.predict x r) := by
        rw [moment, ← sum_sub_distrib, mul_sum]
        exact sum_congr rfl fun r _ => by ring
      rw [P.sum_normal x (mem_range.mp hi), hsum]
      ring
    rw [sum_congr rfl hterm, sum_sub_distrib, sum_comm]
    congr 1
    refine sum_congr rfl fun r _ => ?_
    rw [← mul_sum, ← sum_mul]
    rfl
  rw [hcross, cost, cost, spread, mul_sub, mul_sum, mul_sum]
  have hrows : ∑ r ∈ range P.rows, P.weight r * (P.value r - P.predict (fun i => x i + d i) r) ^ 2
      = ∑ r ∈ range P.rows, P.weight r * (P.value r - P.predict x r) ^ 2
        + ∑ r ∈ range P.rows, P.weight r * P.predict d r ^ 2
        - ∑ r ∈ range P.rows, 2 * (P.weight r * (P.predict d r * (P.value r - P.predict x r))) := by
    rw [← sum_add_distrib, ← sum_sub_distrib]
    refine sum_congr rfl fun r _ => ?_
    rw [P.predict_add]
    ring
  have hprior : ∑ i ∈ range P.n, P.prior i * (x i + d i) ^ 2
      = ∑ i ∈ range P.n, P.prior i * x i ^ 2 + ∑ i ∈ range P.n, P.prior i * d i ^ 2
        + ∑ i ∈ range P.n, 2 * (P.prior i * (d i * x i)) := by
    rw [← sum_add_distrib, ← sum_add_distrib]
    exact sum_congr rfl fun i _ => by ring
  rw [hrows, hprior]
  ring

variable [LinearOrder K] [IsStrictOrderedRing K]

/-- No weight is negative. -/
structure Nonneg : Prop where
  weight : ∀ r < P.rows, 0 ≤ P.weight r
  prior : ∀ i < P.n, 0 ≤ P.prior i

variable {P} (hP : P.Nonneg)
include hP

theorem Nonneg.spread_nonneg (d : ℕ → K) : 0 ≤ P.spread d :=
  add_nonneg
    (sum_nonneg fun r hr => mul_nonneg (hP.weight r (mem_range.mp hr)) (sq_nonneg _))
    (sum_nonneg fun i hi => mul_nonneg (hP.prior i (mem_range.mp hi)) (sq_nonneg _))

/-- A move without spread is one the normal matrix does not see. -/
theorem Nonneg.normal_of_spread {d : ℕ → K} (hd : P.spread d = 0) {i : ℕ} (hi : i < P.n) :
    ∑ j ∈ range P.n, P.normal i j * d j = 0 := by
  have hrows : ∀ r ∈ range P.rows, 0 ≤ P.weight r * P.predict d r ^ 2 := fun r hr =>
    mul_nonneg (hP.weight r (mem_range.mp hr)) (sq_nonneg _)
  have hpriors : ∀ i ∈ range P.n, 0 ≤ P.prior i * d i ^ 2 := fun i hi =>
    mul_nonneg (hP.prior i (mem_range.mp hi)) (sq_nonneg _)
  obtain ⟨hrow, hprior⟩ := (add_eq_zero_iff_of_nonneg (sum_nonneg hrows) (sum_nonneg hpriors)).mp hd
  have hseen : ∀ r ∈ range P.rows, P.weight r * P.predict d r = 0 := by
    intro r hr
    have hzero := (sum_eq_zero_iff_of_nonneg hrows).mp hrow r hr
    rcases mul_eq_zero.mp hzero with h | h
    · rw [h, zero_mul]
    · rw [pow_eq_zero_iff two_ne_zero |>.mp h, mul_zero]
  have hpulled : P.prior i * d i = 0 := by
    have hzero := (sum_eq_zero_iff_of_nonneg hpriors).mp hprior i (mem_range.mpr hi)
    rcases mul_eq_zero.mp hzero with h | h
    · rw [h, zero_mul]
    · rw [pow_eq_zero_iff two_ne_zero |>.mp h, mul_zero]
  rw [P.sum_normal d hi, hpulled, zero_add]
  refine sum_eq_zero fun r hr => ?_
  rw [mul_right_comm, hseen r hr, zero_mul]

variable {x : ℕ → K} (hx : ∀ i < P.n, ∑ j ∈ range P.n, P.normal i j * x j = P.moment i)
include hx

omit [LinearOrder K] [IsStrictOrderedRing K] hP in
theorem cost_eq (z : ℕ → K) : P.cost z = P.cost x + P.spread fun i => z i - x i := by
  have h := P.cost_add x fun i => z i - x i
  have hzero : ∑ i ∈ range P.n, (z i - x i) * (∑ j ∈ range P.n, P.normal i j * x j - P.moment i) = 0 :=
    sum_eq_zero fun i hi => by rw [hx i (mem_range.mp hi), sub_self, mul_zero]
  simp only [add_sub_cancel] at h
  rw [h, hzero, mul_zero, add_zero]

/-- **The normal equations minimise the cost.** -/
theorem Nonneg.cost_le (z : ℕ → K) : P.cost x ≤ P.cost z := by
  rw [cost_eq hx z]
  exact le_add_of_nonneg_right (hP.spread_nonneg _)

/-- **Where the normal matrix has an inverse, nothing else does.** -/
theorem Nonneg.eq_of_cost_eq {inv : ℕ → ℕ → K}
    (hinv : ∀ i < P.n, ∀ j < P.n,
      ∑ k ∈ range P.n, inv i k * P.normal k j = if i = j then 1 else 0)
    {z : ℕ → K} (hz : P.cost z = P.cost x) {i : ℕ} (hi : i < P.n) : z i = x i := by
  rw [cost_eq hx z] at hz
  have hseen := fun k hk => hP.normal_of_spread (left_eq_add.mp hz.symm) (i := k) hk
  have happlied := apply_inverse hi (fun j hj => hinv i hi j hj) fun j => z j - x j
  have hzero : ∑ k ∈ range P.n, inv i k * ∑ j ∈ range P.n, P.normal k j * (z j - x j) = 0 :=
    sum_eq_zero fun k hk => by rw [hseen k (mem_range.mp hk), mul_zero]
  exact sub_eq_zero.mp (happlied.symm.trans hzero)

end Problem

end LeastSquares
