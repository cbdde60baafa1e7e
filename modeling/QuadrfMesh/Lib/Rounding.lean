/-
# Rounding of rationals

The rounding functions of the C standard library on exact rationals.
-/
import Mathlib

/-- `std::lround`: half away from zero. -/
def lround (x : ℚ) : ℤ := if 0 ≤ x then ⌊x + 1 / 2⌋ else -⌊-x + 1 / 2⌋

/-- Conversion to an integer type: toward zero. -/
def truncate (x : ℚ) : ℤ := if 0 ≤ x then ⌊x⌋ else -⌊-x⌋

/-- `std::fmod`: the remainder has the sign of the dividend. -/
def fmod (v period : ℚ) : ℚ := v - period * truncate (v / period)

/-- `lround` is off by half at most. -/
theorem abs_sub_lround_le (x : ℚ) : |x - lround x| ≤ 1 / 2 := by
  unfold lround
  split_ifs with h
  · have h1 := Int.floor_le (x + 1 / 2)
    have h2 := Int.lt_floor_add_one (x + 1 / 2)
    rw [abs_le]
    constructor <;> linarith
  · have h1 := Int.floor_le (-x + 1 / 2)
    have h2 := Int.lt_floor_add_one (-x + 1 / 2)
    rw [Int.cast_neg, abs_le]
    constructor <;> linarith

/-- The remainder of `fmod` lies within the period. -/
theorem abs_fmod_lt (v : ℚ) {period : ℚ} (hp : 0 < period) : |fmod v period| < period := by
  have hsplit : fmod v period = period * (v / period - truncate (v / period)) := by
    rw [fmod, mul_sub, mul_div_cancel₀ _ hp.ne']
  have htrunc : |v / period - truncate (v / period)| < 1 := by
    unfold truncate
    split_ifs with h
    · rw [← Int.fract, Int.abs_fract]
      exact Int.fract_lt_one _
    · have h1 := Int.floor_le (-(v / period))
      have h2 := Int.lt_floor_add_one (-(v / period))
      rw [Int.cast_neg, abs_lt]
      constructor <;> linarith
  calc |fmod v period| = period * |v / period - truncate (v / period)| := by
        rw [hsplit, abs_mul, abs_of_pos hp]
    _ < period * 1 := mul_lt_mul_of_pos_left htrunc hp
    _ = period := mul_one period

theorem truncate_of_nonneg {x : ℚ} (hx : 0 ≤ x) : truncate x = ⌊x⌋ := if_pos hx

/-- **A number in steps of `1 / N`**: its whole part and its rest in steps, rounded, which may
come out as `N` of them. -/
theorem exists_steps {x : ℚ} (hx : 0 ≤ x) {N : ℕ} (hN : 0 < N) :
    ∃ i n : ℕ, ⌊x⌋ = i ∧ ⌊(x - i) * N + 1 / 2⌋ = n ∧ n ≤ N ∧ (i : ℚ) ≤ x ∧
      |(i : ℚ) + n / N - x| ≤ 1 / (2 * N) := by
  have hpos : (0 : ℚ) < N := by exact_mod_cast hN
  obtain ⟨i, hi⟩ : ∃ i : ℕ, ⌊x⌋ = i := Int.eq_ofNat_of_zero_le (Int.floor_nonneg.mpr hx)
  obtain ⟨hlow, hhigh⟩ := Int.floor_eq_iff.mp hi
  push_cast at hlow hhigh
  have hrest : 0 ≤ (x - i) * N := mul_nonneg (by linarith) hpos.le
  have hrest_lt : (x - i) * N < N := by
    calc (x - i) * N < 1 * N := mul_lt_mul_of_pos_right (by linarith) hpos
      _ = N := one_mul _
  obtain ⟨n, hn⟩ : ∃ n : ℕ, ⌊(x - i) * N + 1 / 2⌋ = n :=
    Int.eq_ofNat_of_zero_le (Int.floor_nonneg.mpr (by linarith))
  obtain ⟨hbelow, habove⟩ := Int.floor_eq_iff.mp hn
  push_cast at hbelow habove
  have hle : n ≤ N := by
    have h : (n : ℚ) < ((N + 1 : ℕ) : ℚ) := by
      push_cast
      linarith
    exact Nat.lt_succ_iff.mp (by exact_mod_cast h)
  have herr : |(n : ℚ) - (x - i) * N| ≤ 1 / 2 := by
    rw [abs_le]
    constructor <;> linarith
  refine ⟨i, n, hi, hn, hle, hlow, ?_⟩
  have hscale : (i : ℚ) + n / N - x = (n - (x - i) * N) / N := by
    field_simp
    ring
  calc |(i : ℚ) + n / N - x| = |(n : ℚ) - (x - i) * N| / N := by
        rw [hscale, abs_div, abs_of_pos hpos]
    _ ≤ 1 / 2 / N := div_le_div_of_nonneg_right herr hpos.le
    _ = 1 / (2 * N) := by rw [div_div]

/-- Rounded down after a deduction, an amount is covered only if nothing was deducted from it
and it was whole. -/
theorem le_floor_sub_iff {x unit : ℚ} (hunit : 0 < unit) {lost n : ℕ}
    (hn : (n : ℤ) = ⌊x - lost * unit⌋) : x ≤ n ↔ lost = 0 ∧ ∃ k : ℕ, x = k := by
  have hfloor : (n : ℚ) ≤ x - lost * unit := by
    have := Int.floor_le (x - lost * unit)
    rw [← hn] at this
    exact_mod_cast this
  constructor
  · intro hcovered
    have hlost : lost = 0 := by
      by_contra hne
      have hge : (1 : ℚ) ≤ lost := Nat.one_le_cast.mpr (Nat.one_le_iff_ne_zero.mpr hne)
      linarith [le_mul_of_one_le_left hunit.le hge]
    refine ⟨hlost, n, le_antisymm hcovered ?_⟩
    rw [hlost] at hfloor
    simpa using hfloor
  · rintro ⟨rfl, k, rfl⟩
    rw [Nat.cast_zero, zero_mul, sub_zero, Int.floor_natCast] at hn
    exact_mod_cast hn.ge

/-- Rounding up after the blocks are multiplied by `c` leaves out what the `pad` places of the
last block are worth. -/
theorem ceil_blocks_mul {a : ℕ} (ha : 0 < a) (b pad c : ℕ) :
    ⌈((b * a - pad : ℚ) / a) * c⌉ = (b * c : ℤ) - (pad * c / a : ℕ) := by
  have ha' : (a : ℚ) ≠ 0 := Nat.cast_ne_zero.mpr ha.ne'
  have hsplit : ((b * a - pad : ℚ) / a) * c = ((b * c : ℤ) : ℚ) - ((pad * c : ℕ) : ℚ) / a := by
    push_cast
    field_simp
  have hfloor : ⌊((pad * c : ℕ) : ℚ) / (a : ℚ)⌋ = ((pad * c / a : ℕ) : ℤ) :=
    Rat.floor_natCast_div_natCast _ _
  rw [hsplit, sub_eq_add_neg, Int.ceil_intCast_add, Int.ceil_neg, hfloor, ← sub_eq_add_neg]
