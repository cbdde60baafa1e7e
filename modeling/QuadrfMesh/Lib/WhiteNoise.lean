/-
# White noise through weighted sums

A sequence of samples with a linear expectation is white when samples are uncorrelated and of
one power.  A weighted sum of such samples has their power times the energy of the weights
(`White.power_sum`), and rotating each sample by a unit leaves the noise white
(`White.rotate`).
-/
import Mathlib

namespace Noise

variable {K A : Type*} [CommRing K] [StarRing K] [CommRing A] [StarRing A] [Algebra K A]
  [StarModule K A]

/-- The first `n` samples are uncorrelated, each of power `σ`. -/
def White (expect : A →ₗ[K] K) (σ : K) (n : ℕ) (s : ℕ → A) : Prop :=
  ∀ i < n, ∀ j < n, expect (star (s i) * s j) = if i = j then σ else 0

variable {expect : A →ₗ[K] K} {σ : K} {n : ℕ} {s : ℕ → A}

/-- The correlation of two scaled samples. -/
theorem expect_smul (c d : K) (x y : A) :
    expect (star (c • x) * (d • y)) = star c * d * expect (star x * y) := by
  rw [star_smul, smul_mul_smul_comm, map_smul, smul_eq_mul]

/-- **Power of a weighted sum**: the power of the samples times the energy of the weights. -/
theorem White.power_sum (h : White expect σ n s) (c : ℕ → K) (start len : ℕ)
    (hfits : start + len ≤ n) :
    expect (star (∑ k ∈ Finset.range len, c k • s (start + k))
        * ∑ k ∈ Finset.range len, c k • s (start + k))
      = σ * ∑ k ∈ Finset.range len, star (c k) * c k := by
  rw [star_sum, Finset.sum_mul_sum, map_sum, Finset.mul_sum]
  apply Finset.sum_congr rfl
  intro k hk
  have hk' := Finset.mem_range.mp hk
  rw [map_sum, Finset.sum_eq_single_of_mem k hk]
  · rw [expect_smul, h _ (by omega) _ (by omega), if_pos rfl]
    ring
  · intro l hl hne
    have hl' := Finset.mem_range.mp hl
    rw [expect_smul, h _ (by omega) _ (by omega), if_neg (by omega), mul_zero]

/-- **Rotated white noise is white.** -/
theorem White.rotate (h : White expect σ n s) {u : ℕ → K} (hu : ∀ i < n, star (u i) * u i = 1) :
    White expect σ n fun i => u i • s i := by
  intro i hi j hj
  rw [expect_smul, h i hi j hj]
  by_cases hij : i = j
  · subst hij
    rw [if_pos rfl, hu i hi, one_mul]
  · rw [if_neg hij, mul_zero]

omit [StarRing K] [StarModule K A] in
theorem White.congr (h : White expect σ n s) {t : ℕ → A} (hst : ∀ i < n, t i = s i) :
    White expect σ n t := by
  intro i hi j hj
  rw [hst i hi, hst j hj]
  exact h i hi j hj

end Noise
