/-
# Choosing a word by its score

Each position has a weight that speaks for a one there when it is positive and for a zero
when it is negative; the score of a word adds up the weights of its ones.  The word all
weights speak for beats every other; with weights of one size the score ranks words by
their Hamming distance from it, so the nearest word of a code wins.
-/
import Mathlib

namespace Correlation

variable {ι : Type*} [Fintype ι] {R : Type*} [Field R] [LinearOrder R] [IsStrictOrderedRing R]

/-- The score of a word. -/
def score (w : ι → R) (x : ι → Bool) : R := ∑ i, if x i then w i else 0

/-- Weights that speak for `x` in every position. -/
def Favours (w : ι → R) (x : ι → Bool) : Prop := ∀ i, if x i then 0 < w i else w i < 0

/-- **The favoured word wins.** -/
theorem score_lt_of_favours {w : ι → R} {x y : ι → Bool} (h : Favours w x) (hne : y ≠ x) :
    score w y < score w x := by
  have hle : ∀ i, (if y i then w i else 0) ≤ if x i then w i else 0 := by
    intro i
    have hi := h i
    cases hx : x i <;> cases hy : y i <;> simp only [hx, Bool.false_eq_true, if_false, if_true] at hi ⊢
    · exact le_refl 0
    · exact hi.le
    · exact hi.le
    · exact le_refl _
  obtain ⟨i, hi⟩ := Function.ne_iff.mp hne
  refine Finset.sum_lt_sum (fun j _ => hle j) ⟨i, Finset.mem_univ i, ?_⟩
  -- a position in which the words differ
  have hfav := h i
  cases hx : x i <;> cases hy : y i <;> simp only [hx, Bool.false_eq_true, if_false, if_true] at hfav ⊢
  · exact absurd (hy.trans hx.symm) hi
  · exact hfav
  · exact hfav
  · exact absurd (hy.trans hx.symm) hi

omit [LinearOrder R] [IsStrictOrderedRing R] in
/-- With weights of one size, the score falls with the distance. -/
theorem score_eq_sub {w : ι → R} {x : ι → Bool} {a : R} (h : ∀ i, w i = if x i then a else -a)
    (y : ι → Bool) : score w y = score w x - a * hammingDist y x := by
  have hterm : ∀ i, (if y i then w i else 0)
      = (if x i then w i else 0) - if y i ≠ x i then a else 0 := by
    intro i
    rw [h i]
    cases hx : x i <;> cases hy : y i <;> simp
  have hdist : ∑ i, (if y i ≠ x i then a else 0) = a * hammingDist y x := by
    rw [← Finset.sum_filter, Finset.sum_const, nsmul_eq_mul, mul_comm]
    rfl
  rw [score, Finset.sum_congr rfl (fun i _ => hterm i), Finset.sum_sub_distrib, hdist]
  rfl

/-- **The nearest word wins**: `x` among words that keep a distance from it. -/
theorem score_lt_of_near {w : ι → R} {r x y : ι → Bool} {a : R} (ha : 0 < a)
    (h : ∀ i, w i = if r i then a else -a)
    (hnear : 2 * hammingDist x r < hammingDist y x) : score w y < score w x := by
  have hcloser : hammingDist x r < hammingDist y r := by
    have htri := hammingDist_triangle y r x
    rw [hammingDist_comm r x] at htri
    omega
  have hmul : a * (hammingDist x r : R) < a * hammingDist y r :=
    mul_lt_mul_of_pos_left (Nat.cast_lt.mpr hcloser) ha
  rw [score_eq_sub h x, score_eq_sub h y]
  linarith

end Correlation
