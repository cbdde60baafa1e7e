/-
# Tones and their transforms

Unit samples by their phase in turns, runs of a slow tone (`sum_phasor`), the discrete Fourier
transform, and what it makes of a tone that steps down by one chip rate somewhere in the window.
Folding the images of an oversampled spectrum onto `N` bins leaves `os` short transforms, one for
each place within a chip (`sum_normSq_images`); the folded power is greatest at the tone's own
bin, wherever the tone steps (`foldPower_lt_foldPower`).
-/
import Mathlib

open Finset

namespace Fourier

/-- The unit sample at a phase of `r` turns. -/
noncomputable def phasor (r : ℝ) : ℂ := Complex.exp (((2 : ℕ) * Real.pi * r : ℝ) * Complex.I)

theorem phasor_eq (r : ℝ) : phasor r = Complex.exp ((2 * Real.pi * r : ℝ) * Complex.I) := by
  rw [phasor, Nat.cast_ofNat]

@[simp] theorem phasor_zero : phasor 0 = 1 := by simp [phasor]

theorem phasor_add (a b : ℝ) : phasor (a + b) = phasor a * phasor b := by
  rw [phasor, phasor, phasor, ← Complex.exp_add]
  congr 1
  push_cast
  ring

theorem phasor_mul_natCast (r : ℝ) (n : ℕ) : phasor (r * n) = phasor r ^ n := by
  induction n with
  | zero => simp
  | succ n ih => rw [Nat.cast_succ, mul_add, mul_one, phasor_add, ih, pow_succ]

theorem conj_phasor (r : ℝ) : (starRingEnd ℂ) (phasor r) = phasor (-r) := by
  rw [phasor, phasor, ← Complex.exp_conj, map_mul, Complex.conj_I, Complex.conj_ofReal]
  congr 1
  push_cast
  ring

theorem re_phasor (r : ℝ) : (phasor r).re = Real.cos (2 * Real.pi * r) := by
  rw [phasor_eq, Complex.exp_ofReal_mul_I_re]

@[simp] theorem phasor_intCast (k : ℤ) : phasor k = 1 := by
  rw [phasor, Complex.exp_eq_one_iff]
  refine ⟨k, ?_⟩
  push_cast
  ring

/-- A phasor's angle, within half a turn. -/
theorem arg_phasor {x r : ℝ} (hx : 0 < x) (hr : |r| < 1 / 2) :
    Complex.arg (x * phasor r) = 2 * Real.pi * r := by
  obtain ⟨hlow, hhigh⟩ := abs_lt.mp hr
  rw [phasor_eq, Complex.arg_real_mul _ hx, Complex.arg_exp_mul_I, toIocMod_eq_self]
  constructor <;> nlinarith [Real.pi_pos]

/-- **A run of a slow tone** points where its middle does, and does not vanish. -/
theorem sum_phasor {a : ℕ} (ha : 0 < a) {θ : ℝ} (hθ : |θ| * a < 1 / 2) :
    ∃ D : ℝ, 0 < D ∧ ∑ n ∈ range a, phasor (θ * n) = D * phasor (θ * ((a - 1) / 2)) := by
  set mid : ℝ := (a - 1) / 2 with hmid
  set D : ℝ := ∑ n ∈ range a, Real.cos (2 * Real.pi * (θ * (n - mid))) with hD
  have hterm : ∀ n ∈ range a, phasor (θ * n) = phasor (θ * (n - mid)) * phasor (θ * mid) := by
    intro n _
    rw [← phasor_add]
    congr 1
    ring
  -- the samples on either side of the middle are conjugate
  have hreal : ∑ n ∈ range a, phasor (θ * (n - mid)) = D := by
    refine Complex.ext ?_ ?_
    · rw [Complex.re_sum, Complex.ofReal_re]
      exact sum_congr rfl fun n _ => re_phasor _
    · have hmirror : (starRingEnd ℂ) (∑ n ∈ range a, phasor (θ * (n - mid)))
          = ∑ n ∈ range a, phasor (θ * (n - mid)) := by
        rw [map_sum, ← sum_range_reflect]
        refine sum_congr rfl fun n hn => ?_
        rw [conj_phasor, Nat.sub_sub, Nat.cast_sub (by have := mem_range.mp hn; omega), hmid]
        congr 1
        push_cast
        ring
      rw [Complex.ofReal_im]
      exact Complex.conj_eq_iff_im.mp hmirror
  refine ⟨D, sum_pos (fun n hn => ?_) (nonempty_range_iff.mpr ha.ne'), ?_⟩
  · refine Real.cos_pos_of_mem_Ioo ?_
    have hn' : (n : ℝ) + 1 ≤ a := by exact_mod_cast mem_range.mp hn
    have hn0 : (0 : ℝ) ≤ n := Nat.cast_nonneg n
    have hoff : |(n : ℝ) - mid| ≤ a / 2 := by
      rw [abs_le, hmid]
      constructor <;> linarith
    have hturn : |θ * (n - mid)| < 1 / 4 := by
      rw [abs_mul]
      calc |θ| * |(n : ℝ) - mid| ≤ |θ| * (a / 2) := mul_le_mul_of_nonneg_left hoff (abs_nonneg _)
        _ < 1 / 4 := by linarith
    obtain ⟨hlow, hhigh⟩ := abs_lt.mp hturn
    constructor <;> nlinarith [Real.pi_pos]
  · rw [sum_congr rfl hterm, ← sum_mul, hreal]

/-- The unit sample at a phase that is exact. -/
noncomputable def cis (q : ℚ) : ℂ := phasor q

@[simp] theorem cis_zero : cis 0 = 1 := by simp [cis]

theorem cis_add (a b : ℚ) : cis (a + b) = cis a * cis b := by
  rw [cis, Rat.cast_add, phasor_add, cis, cis]

theorem cis_mul_cis_neg (q : ℚ) : cis q * cis (-q) = 1 := by
  rw [← cis_add, add_neg_cancel, cis_zero]

/-- Whole turns. -/
@[simp] theorem cis_intCast (k : ℤ) : cis k = 1 := by
  rw [cis, Rat.cast_intCast, phasor_intCast]

theorem cis_add_intCast (q : ℚ) (k : ℤ) : cis (q + k) = cis q := by
  rw [cis_add, cis_intCast, mul_one]

theorem cis_eq_one_iff {q : ℚ} : cis q = 1 ↔ ∃ k : ℤ, q = k := by
  constructor
  · intro h
    rw [cis, phasor, Complex.exp_eq_one_iff] at h
    obtain ⟨k, hk⟩ := h
    refine ⟨k, ?_⟩
    have hpi : (2 * Real.pi * Complex.I : ℂ) ≠ 0 := Complex.two_pi_I_ne_zero
    have hq : (q : ℂ) = k := by
      refine mul_left_cancel₀ hpi ?_
      push_cast at hk
      rw [mul_comm _ (k : ℂ), ← hk]
      ring
    exact_mod_cast hq
  · rintro ⟨k, rfl⟩
    exact cis_intCast k

@[simp] theorem norm_cis (q : ℚ) : ‖cis q‖ = 1 := by
  rw [cis, phasor, Complex.norm_exp_ofReal_mul_I]

theorem cis_ne_zero (q : ℚ) : cis q ≠ 0 := norm_ne_zero_iff.mp (by simp)

theorem conj_cis (q : ℚ) : (starRingEnd ℂ) (cis q) = cis (-q) := by
  rw [cis, conj_phasor, cis, Rat.cast_neg]

theorem cis_mul_natCast (q : ℚ) (m : ℕ) : cis (q * m) = cis q ^ m := by
  rw [cis, Rat.cast_mul, Rat.cast_natCast, phasor_mul_natCast, cis]

/-! ## Sums of a tone -/

/-- The phase of a tone of `d` periods over `n` samples, `m` samples on. -/
theorem cis_tone_pow (d : ℤ) (n m : ℕ) : cis (d * m / n) = cis (d / n) ^ m := by
  rw [← cis_mul_natCast]
  congr 1
  ring

theorem cis_tone_eq_one_iff {n : ℕ} (hn : 0 < n) (d : ℤ) : cis (d / n) = 1 ↔ (n : ℤ) ∣ d := by
  have hne : (n : ℚ) ≠ 0 := Nat.cast_ne_zero.mpr hn.ne'
  rw [cis_eq_one_iff]
  constructor
  · rintro ⟨k, hk⟩
    refine ⟨k, ?_⟩
    rw [div_eq_iff hne] at hk
    have hcast : (d : ℚ) = ((k * n : ℤ) : ℚ) := by rw [hk]; push_cast; ring
    rw [mul_comm]
    exact_mod_cast hcast
  · rintro ⟨k, rfl⟩
    refine ⟨k, ?_⟩
    rw [div_eq_iff hne]
    push_cast
    ring

/-- **Whole periods cancel.** -/
theorem sum_tone {n : ℕ} (hn : 0 < n) (d : ℤ) :
    ∑ m ∈ range n, cis (d * m / n) = if (n : ℤ) ∣ d then (n : ℂ) else 0 := by
  have hterm : ∀ m ∈ range n, cis (d * m / n) = cis (d / n) ^ m := fun m _ => cis_tone_pow d n m
  rw [sum_congr rfl hterm]
  split_ifs with h
  · rw [(cis_tone_eq_one_iff hn d).mpr h]
    simp
  · have hne : cis (d / n) ≠ 1 := fun h1 => h ((cis_tone_eq_one_iff hn d).mp h1)
    have hn0 : (n : ℚ) ≠ 0 := Nat.cast_ne_zero.mpr hn.ne'
    rw [geom_sum_eq hne, ← cis_mul_natCast, div_mul_cancel₀ _ hn0, cis_intCast, sub_self, zero_div]

/-- Part of a tone that has whole periods over `n` samples. -/
noncomputable def partialSum (n : ℕ) (d : ℤ) (a : ℕ) : ℂ := ∑ m ∈ range a, cis (d * m / n)

theorem norm_partialSum_le (n : ℕ) (d : ℤ) (a : ℕ) : ‖partialSum n d a‖ ≤ a := by
  calc ‖partialSum n d a‖ ≤ ∑ m ∈ range a, ‖cis (d * m / n)‖ := norm_sum_le _ _
    _ = a := by simp

/-- The other part has the same sum, the other way. -/
theorem sum_rest {n : ℕ} (hn : 0 < n) {d : ℤ} (hd : ¬ (n : ℤ) ∣ d) {a : ℕ} (ha : a ≤ n) :
    ∑ m ∈ Ico a n, cis (d * m / n) = -partialSum n d a := by
  have hwhole := sum_tone hn d
  rw [if_neg hd, ← sum_range_add_sum_Ico _ ha] at hwhole
  exact eq_neg_of_add_eq_zero_right hwhole

theorem norm_partialSum_le_rest {n : ℕ} (hn : 0 < n) {d : ℤ} (hd : ¬ (n : ℤ) ∣ d) {a : ℕ}
    (ha : a ≤ n) : ‖partialSum n d a‖ ≤ (n - a : ℕ) := by
  rw [← norm_neg, ← sum_rest hn hd ha]
  calc ‖∑ m ∈ Ico a n, cis (d * m / n)‖ ≤ ∑ m ∈ Ico a n, ‖cis (d * m / n)‖ := norm_sum_le _ _
    _ = (n - a : ℕ) := by simp

/-- Two different unit samples do not add up to two. -/
theorem norm_one_add_cis_lt {q : ℚ} (h : cis q ≠ 1) : ‖1 + cis q‖ < 2 := by
  have hsq : ‖1 + cis q‖ ^ 2 = 2 + 2 * (cis q).re := by
    have hnorm : Complex.normSq (cis q) = 1 := by
      rw [Complex.normSq_eq_norm_sq, norm_cis, one_pow]
    rw [← Complex.normSq_eq_norm_sq, Complex.normSq_add, hnorm]
    simp
    ring
  have hre : (cis q).re < 1 := by
    refine lt_of_le_of_ne ((Complex.re_le_norm _).trans (norm_cis q).le) fun hone => h ?_
    have hnorm : (cis q).re ^ 2 + (cis q).im ^ 2 = 1 := by
      have := Complex.normSq_eq_norm_sq (cis q)
      rw [norm_cis, Complex.normSq_apply] at this
      linarith
    rw [hone] at hnorm
    exact Complex.ext hone (pow_eq_zero_iff two_ne_zero |>.mp (by linarith))
  nlinarith [norm_nonneg (1 + cis q)]

/-- **Part of a tone is shorter than its samples** laid end to end. -/
theorem norm_partialSum_lt {n : ℕ} (hn : 0 < n) {d : ℤ} (hd : ¬ (n : ℤ) ∣ d) {a : ℕ} (ha : 2 ≤ a) :
    ‖partialSum n d a‖ < a := by
  obtain ⟨b, rfl⟩ := Nat.exists_eq_add_of_le ha
  have hne : cis (d / n) ≠ 1 := fun h1 => hd ((cis_tone_eq_one_iff hn d).mp h1)
  have hsplit : partialSum n d (2 + b)
      = (1 + cis (d / n)) + ∑ m ∈ range b, cis (d * (2 + m : ℕ) / n) := by
    rw [partialSum, sum_range_add, sum_range_succ, sum_range_one]
    simp
  calc ‖partialSum n d (2 + b)‖
      ≤ ‖1 + cis (d / n)‖ + ‖∑ m ∈ range b, cis (d * (2 + m : ℕ) / n)‖ := by
        rw [hsplit]
        exact norm_add_le _ _
    _ ≤ ‖1 + cis (d / n)‖ + b := by
        gcongr
        calc ‖∑ m ∈ range b, cis (d * (2 + m : ℕ) / n)‖
            ≤ ∑ m ∈ range b, ‖cis (d * (2 + m : ℕ) / n)‖ := norm_sum_le _ _
          _ = b := by simp
    _ < 2 + b := by
        have := norm_one_add_cis_lt hne
        linarith
    _ = (2 + b : ℕ) := by push_cast; rfl

/-! ## The transform -/

/-- The discrete Fourier transform, forward, not scaled. -/
noncomputable def dft (x : List ℂ) : List ℂ :=
  (List.range x.length).map fun k =>
    ∑ j ∈ range x.length, x.getD j 0 * cis (-((k * j : ℕ) : ℚ) / x.length)

@[simp] theorem length_dft (x : List ℂ) : (dft x).length = x.length := by simp [dft]

/-- Bin `k` of the transform of `n` samples, for any integer `k`. -/
noncomputable def bin (n : ℕ) (x : ℕ → ℂ) (k : ℤ) : ℂ := ∑ j ∈ range n, x j * cis (-(k * j) / n)

theorem getD_dft {x : List ℂ} {k : ℕ} (hk : k < x.length) :
    (dft x).getD k 0 = bin x.length (fun j => x.getD j 0) k := by
  simp only [dft, bin, List.getD_eq_getElem?_getD, List.getElem?_map,
    List.getElem?_range hk, Option.map_some, Option.getD_some]
  push_cast
  rfl

/-- The bins go round. -/
theorem bin_add_mul {n : ℕ} (hn : 0 < n) (x : ℕ → ℂ) (k t : ℤ) : bin n x (k + t * n) = bin n x k := by
  have hne : (n : ℚ) ≠ 0 := Nat.cast_ne_zero.mpr hn.ne'
  refine sum_congr rfl fun j _ => ?_
  have hphase : -(((k + t * n : ℤ) : ℚ) * j) / n = -(k * j) / n + ((-(t * j) : ℤ) : ℚ) := by
    push_cast
    field_simp
    ring
  rw [hphase, cis_add_intCast]

theorem bin_emod {n : ℕ} (hn : 0 < n) (x : ℕ → ℂ) (k : ℤ) : bin n x (k % n) = bin n x k := by
  have h := bin_add_mul hn x (k % n) (k / n)
  rw [mul_comm, Int.emod_add_mul_ediv] at h
  exact h.symm

theorem bin_const_mul (n : ℕ) (z : ℂ) (x : ℕ → ℂ) (k : ℤ) :
    bin n (fun j => z * x j) k = z * bin n x k := by
  rw [bin, bin, mul_sum]
  exact sum_congr rfl fun j _ => mul_assoc _ _ _

/-! ## Images folded onto the chips -/

/-- A sum over the samples, chip by chip. -/
theorem sum_chips {M : Type*} [AddCommMonoid M] (N os : ℕ) (f : ℕ → M) :
    ∑ j ∈ range (N * os), f j = ∑ r ∈ range os, ∑ m ∈ range N, f (m * os + r) := by
  induction N with
  | zero => simp
  | succ N ih =>
      rw [Nat.succ_mul, sum_range_add, ih, ← sum_add_distrib]
      exact sum_congr rfl fun r _ => (sum_range_succ _ _).symm

theorem bin_congr {n : ℕ} {x y : ℕ → ℂ} (h : ∀ j < n, x j = y j) (k : ℤ) : bin n x k = bin n y k :=
  sum_congr rfl fun j hj => by rw [h j (mem_range.mp hj)]

/-- The transform of every `os`-th sample, `r` samples into the chips. -/
noncomputable def phaseBin (N os : ℕ) (x : ℕ → ℂ) (k : ℤ) (r : ℕ) : ℂ :=
  ∑ m ∈ range N, x (m * os + r) * cis (-(k * (m * os + r : ℕ)) / (N * os : ℕ))

theorem bin_image {N os : ℕ} (hN : 0 < N) (hos : 0 < os) (x : ℕ → ℂ) (k : ℤ) (im : ℕ) :
    bin (N * os) x (k + im * N) = ∑ r ∈ range os, cis (-(im * r) / os) * phaseBin N os x k r := by
  have hN' : (N : ℚ) ≠ 0 := Nat.cast_ne_zero.mpr hN.ne'
  have hos' : (os : ℚ) ≠ 0 := Nat.cast_ne_zero.mpr hos.ne'
  rw [bin, sum_chips]
  refine sum_congr rfl fun r _ => ?_
  rw [phaseBin, mul_sum]
  refine sum_congr rfl fun m _ => ?_
  have hphase : -(((k + im * N : ℤ) : ℚ) * (m * os + r : ℕ)) / (N * os : ℕ)
      = -(im * r) / os + -(k * (m * os + r : ℕ)) / (N * os : ℕ) + ((-(im * m) : ℤ) : ℚ) := by
    push_cast
    field_simp
    ring
  rw [hphase, cis_add_intCast, cis_add]
  ring

/-- **The images keep the power** of the transforms within the chips. -/
theorem sum_normSq_images {os : ℕ} (hos : 0 < os) (A : ℕ → ℂ) :
    ∑ im ∈ range os, Complex.normSq (∑ r ∈ range os, cis (-(im * r) / os) * A r)
      = os * ∑ r ∈ range os, Complex.normSq (A r) := by
  have hpair : ∀ r ∈ range os, ∀ r' ∈ range os,
      ∑ im ∈ range os, cis (-(im * r) / os) * A r * (starRingEnd ℂ) (cis (-(im * r') / os) * A r')
        = if r = r' then (os : ℂ) * (A r * (starRingEnd ℂ) (A r)) else 0 := by
    intro r hr r' hr'
    rw [mem_range] at hr hr'
    have hterm : ∀ im ∈ range os,
        cis (-(im * r) / os) * A r * (starRingEnd ℂ) (cis (-(im * r') / os) * A r')
          = A r * (starRingEnd ℂ) (A r') * cis (((r' - r : ℤ) : ℚ) * im / os) := by
      intro im _
      have hphase : ((r' - r : ℤ) : ℚ) * im / os = -(im * r) / os + -(-(im * r') / os) := by
        push_cast
        ring
      rw [map_mul, conj_cis, hphase, cis_add]
      ring
    have hdvd : (os : ℤ) ∣ (r' : ℤ) - r ↔ r = r' := by
      constructor
      · intro h
        have := Int.eq_zero_of_abs_lt_dvd h (abs_lt.mpr ⟨by omega, by omega⟩)
        omega
      · rintro rfl
        simp
    rw [sum_congr rfl hterm, ← mul_sum, sum_tone hos]
    by_cases h : r = r'
    · rw [if_pos (hdvd.mpr h), if_pos h, ← h, mul_comm]
    · rw [if_neg fun hd => h (hdvd.mp hd), if_neg h, mul_zero]
  have hcast : ((∑ im ∈ range os, Complex.normSq (∑ r ∈ range os, cis (-(im * r) / os) * A r) : ℝ) : ℂ)
      = ((os * ∑ r ∈ range os, Complex.normSq (A r) : ℝ) : ℂ) := by
    push_cast
    simp only [Complex.normSq_eq_conj_mul_self]
    calc ∑ im ∈ range os, (starRingEnd ℂ) (∑ r ∈ range os, cis (-(im * r) / os) * A r)
          * ∑ r ∈ range os, cis (-(im * r) / os) * A r
        = ∑ im ∈ range os, ∑ r ∈ range os, ∑ r' ∈ range os,
            cis (-(im * r) / os) * A r * (starRingEnd ℂ) (cis (-(im * r') / os) * A r') := by
          refine sum_congr rfl fun im _ => ?_
          rw [mul_comm, map_sum, sum_mul_sum]
      _ = ∑ r ∈ range os, ∑ r' ∈ range os, ∑ im ∈ range os,
            cis (-(im * r) / os) * A r * (starRingEnd ℂ) (cis (-(im * r') / os) * A r') := by
          rw [sum_comm]
          exact sum_congr rfl fun r _ => sum_comm
      _ = ∑ r ∈ range os, ∑ r' ∈ range os,
            if r = r' then (os : ℂ) * (A r * (starRingEnd ℂ) (A r)) else 0 :=
          sum_congr rfl fun r hr => sum_congr rfl fun r' hr' => hpair r hr r' hr'
      _ = os * ∑ r ∈ range os, (starRingEnd ℂ) (A r) * A r := by
          rw [mul_sum]
          refine sum_congr rfl fun r hr => ?_
          rw [sum_ite_eq, if_pos hr, mul_comm (A r)]
  exact_mod_cast hcast

/-- The power of the images of bin `k`, added up. -/
noncomputable def foldPower (N os : ℕ) (x : ℕ → ℂ) (k : ℤ) : ℝ :=
  ∑ im ∈ range os, Complex.normSq (bin (N * os) x (k + im * N))

theorem foldPower_eq {N os : ℕ} (hN : 0 < N) (hos : 0 < os) (x : ℕ → ℂ) (k : ℤ) :
    foldPower N os x k = os * ∑ r ∈ range os, Complex.normSq (phaseBin N os x k r) := by
  rw [← sum_normSq_images hos, foldPower]
  exact sum_congr rfl fun im _ => by rw [bin_image hN hos]

theorem foldPower_const_mul (N os : ℕ) (z : ℂ) (x : ℕ → ℂ) (k : ℤ) :
    foldPower N os (fun j => z * x j) k = Complex.normSq z * foldPower N os x k := by
  rw [foldPower, foldPower, mul_sum]
  exact sum_congr rfl fun im _ => by rw [bin_const_mul, Complex.normSq_mul]

theorem foldPower_periodic {N os : ℕ} (hN : 0 < N) (hos : 0 < os) (x : ℕ → ℂ) :
    Function.Periodic (foldPower N os x) N := by
  intro k
  have hwrap : bin (N * os) x (k + os * N) = bin (N * os) x (k + (0 : ℕ) * N) := by
    have h := bin_add_mul (Nat.mul_pos hN hos) x k 1
    push_cast at h
    rw [one_mul, mul_comm (N : ℤ)] at h
    rw [h]
    simp
  have hshift : ∀ im : ℕ, k + N + im * N = k + (im + 1 : ℕ) * N := by
    intro im
    push_cast
    ring
  have hsum := sum_range_succ' (fun im => Complex.normSq (bin (N * os) x (k + im * N))) os
  rw [sum_range_succ, hwrap] at hsum
  rw [foldPower, foldPower, sum_congr rfl fun im _ => by rw [hshift im]]
  exact (add_right_cancel hsum).symm

theorem foldPower_congr_mod {N os : ℕ} (hN : 0 < N) (hos : 0 < os) (x : ℕ → ℂ) {k k' : ℤ}
    (h : (N : ℤ) ∣ k' - k) : foldPower N os x k = foldPower N os x k' := by
  obtain ⟨t, ht⟩ := h
  have hk : k' = k + t * N := by linarith
  rw [hk]
  exact ((foldPower_periodic hN hos x).int_mul t k).symm

theorem foldPower_natMod {N os : ℕ} (hN : 0 < N) (hos : 0 < os) (x : ℕ → ℂ) {m : ℕ} {k : ℤ}
    (h : (N : ℤ) ∣ m - k) : foldPower N os x (m % N : ℕ) = foldPower N os x k := by
  refine foldPower_congr_mod hN hos x (dvd_sub_comm.mp ?_)
  have hmod : ((m % N : ℕ) : ℤ) - k = m - k - N * (m / N) := by
    rw [Int.natCast_mod, Int.emod_def]
    ring
  rw [hmod]
  exact dvd_sub h (Dvd.intro _ rfl)

/-- **Added coherently**, the images leave the first sample of each chip. -/
theorem sum_images {N os : ℕ} (hN : 0 < N) (hos : 0 < os) (x : ℕ → ℂ) (k : ℤ) :
    ∑ im ∈ range os, bin (N * os) x (k + im * N) = os * phaseBin N os x k 0 := by
  have hrow : ∀ r ∈ range os, ∑ im ∈ range os, cis (-(im * r) / os) * phaseBin N os x k r
      = if r = 0 then os * phaseBin N os x k 0 else 0 := by
    intro r hr
    have hterm : ∀ im ∈ range os, cis (-(im * r) / os) = cis (((-r : ℤ) : ℚ) * im / os) := by
      intro im _
      congr 1
      push_cast
      ring
    have hdvd : (os : ℤ) ∣ (-r : ℤ) ↔ r = 0 := by
      rw [dvd_neg, Int.natCast_dvd_natCast]
      exact ⟨fun h => Nat.eq_zero_of_dvd_of_lt h (mem_range.mp hr), fun h => h ▸ dvd_zero _⟩
    rw [← sum_mul, sum_congr rfl hterm, sum_tone hos]
    by_cases h : r = 0
    · rw [if_pos (hdvd.mpr h), if_pos h, h]
    · rw [if_neg fun hd => h (hdvd.mp hd), if_neg h, zero_mul]
  rw [sum_congr rfl fun im _ => bin_image hN hos x k im, sum_comm, sum_congr rfl hrow, sum_ite_eq',
    if_pos (mem_range.mpr hos)]

/-! ## A tone that steps down -/

section Stepping

variable {N os : ℕ} (hN : 0 < N) (hos : 0 < os)

/-- A tone of `f` periods over the window that loses one period a chip after `a` chips. -/
noncomputable def stepping (N os a : ℕ) (f : ℤ) (j : ℕ) : ℂ :=
  cis (f * j / (N * os : ℕ)) * if j < a * os then 1 else cis (-(j / os))

include hN hos

/-- Within the chips the tone is in two parts, a fixed phase apart. -/
theorem phaseBin_stepping {a : ℕ} (ha : a ≤ N) (f k : ℤ) {r : ℕ} (hr : r < os) :
    phaseBin N os (stepping N os a f) k r = cis ((f - k) * r / (N * os : ℕ))
      * (partialSum N (f - k) a
        + cis (-(r / os)) * ∑ m ∈ Ico a N, cis ((f - k : ℤ) * m / N)) := by
  have hN' : (N : ℚ) ≠ 0 := Nat.cast_ne_zero.mpr hN.ne'
  have hos' : (os : ℚ) ≠ 0 := Nat.cast_ne_zero.mpr hos.ne'
  -- one sample, without the step
  have hsample : ∀ m : ℕ, cis (f * (m * os + r : ℕ) / (N * os : ℕ))
      * cis (-(k * (m * os + r : ℕ)) / (N * os : ℕ))
        = cis ((f - k) * r / (N * os : ℕ)) * cis ((f - k : ℤ) * m / N) := by
    intro m
    rw [← cis_add, ← cis_add]
    congr 1
    push_cast
    field_simp
    ring
  have hbefore : ∀ m ∈ range a, stepping N os a f (m * os + r)
      * cis (-(k * (m * os + r : ℕ)) / (N * os : ℕ))
        = cis ((f - k) * r / (N * os : ℕ)) * cis ((f - k : ℤ) * m / N) := by
    intro m hm
    have hlt : m * os + r < a * os := by
      calc m * os + r < (m + 1) * os := by rw [Nat.succ_mul]; omega
        _ ≤ a * os := Nat.mul_le_mul_right _ (mem_range.mp hm)
    rw [stepping, if_pos hlt, mul_one, hsample]
  have hafter : ∀ m ∈ Ico a N, stepping N os a f (m * os + r)
      * cis (-(k * (m * os + r : ℕ)) / (N * os : ℕ))
        = cis ((f - k) * r / (N * os : ℕ)) * (cis (-(r / os)) * cis ((f - k : ℤ) * m / N)) := by
    intro m hm
    have hge : ¬ m * os + r < a * os := by
      have : a * os ≤ m * os := Nat.mul_le_mul_right _ (mem_Ico.mp hm).1
      omega
    have hstep : cis (-((m * os + r : ℕ) / os)) = cis (-(r / os)) := by
      have hphase : -(((m * os + r : ℕ) : ℚ) / os) = -(r / os) + ((-m : ℤ) : ℚ) := by
        push_cast
        field_simp
        ring
      rw [hphase, cis_add_intCast]
    rw [stepping, if_neg hge, hstep, mul_right_comm, hsample]
    ring
  rw [phaseBin, ← sum_range_add_sum_Ico _ ha, sum_congr rfl hbefore, sum_congr rfl hafter,
    partialSum, ← mul_sum, ← mul_sum, ← mul_sum, mul_add]

/-- On the first sample of each chip the step does not show. -/
theorem phaseBin_stepping_zero {a : ℕ} (ha : a ≤ N) (f k : ℤ) :
    phaseBin N os (stepping N os a f) k 0 = if (N : ℤ) ∣ f - k then (N : ℂ) else 0 := by
  have h := phaseBin_stepping hN hos ha f k hos
  rw [Nat.cast_zero, mul_zero, zero_div, zero_div, neg_zero, cis_zero, one_mul, one_mul, partialSum,
    sum_range_add_sum_Ico _ ha, sum_tone hN] at h
  exact h

omit hN in
/-- Two amplitudes a turning phase apart. -/
theorem sum_normSq_add (u w : ℂ) :
    ∑ r ∈ range os, Complex.normSq (u + cis (-(r / os)) * w)
      = os * (Complex.normSq u + Complex.normSq w)
        + if os = 1 then 2 * (u * (starRingEnd ℂ) w).re else 0 := by
  have hterm : ∀ r ∈ range os, Complex.normSq (u + cis (-(r / os)) * w)
      = Complex.normSq u + Complex.normSq w
        + 2 * (u * (starRingEnd ℂ) w * cis ((1 : ℤ) * r / os)).re := by
    intro r _
    have hphase : -(-((r : ℚ) / os)) = (1 : ℤ) * r / os := by push_cast; ring
    have hnorm : Complex.normSq (cis (-(r / os))) = 1 := by
      rw [Complex.normSq_eq_norm_sq, norm_cis, one_pow]
    rw [Complex.normSq_add, Complex.normSq_mul, hnorm, one_mul, map_mul, conj_cis, hphase]
    congr 3
    ring
  have hdvd : (os : ℤ) ∣ 1 ↔ os = 1 := by
    rw [Int.natCast_dvd, Int.natAbs_one, Nat.dvd_one]
  rw [sum_congr rfl hterm, sum_add_distrib, sum_const, card_range, nsmul_eq_mul, ← mul_sum,
    ← Complex.re_sum, ← mul_sum, sum_tone hos]
  by_cases h : os = 1
  · rw [if_pos (hdvd.mpr h), if_pos h, h]
    simp
  · rw [if_neg fun hd => h (hdvd.mp hd), if_neg h]
    simp

/-- The folded power of the tone, at any bin. -/
theorem foldPower_stepping {a : ℕ} (ha : a ≤ N) (f k : ℤ) :
    foldPower N os (stepping N os a f) k
      = os * ∑ r ∈ range os, Complex.normSq (partialSum N (f - k) a
        + cis (-(r / os)) * ∑ m ∈ Ico a N, cis ((f - k : ℤ) * m / N)) := by
  rw [foldPower_eq hN hos]
  congr 1
  refine sum_congr rfl fun r hr => ?_
  rw [phaseBin_stepping hN hos ha f k (mem_range.mp hr), Complex.normSq_mul,
    Complex.normSq_eq_norm_sq (cis _), norm_cis, one_pow, one_mul]

/-- **At its own bin** the tone has the power of its two parts. -/
theorem foldPower_stepping_self {a : ℕ} (ha : a ≤ N) {f k : ℤ} (hk : (N : ℤ) ∣ f - k) :
    foldPower N os (stepping N os a f) k
      = os ^ 2 * (a ^ 2 + (N - a : ℝ) ^ 2) + if os = 1 then 2 * (a * (N - a : ℝ)) else 0 := by
  have hone : ∀ m : ℕ, cis ((f - k : ℤ) * m / N) = 1 := by
    intro m
    rw [cis_tone_pow, (cis_tone_eq_one_iff hN _).mpr hk, one_pow]
  have hfirst : partialSum N (f - k) a = (a : ℝ) := by
    rw [partialSum, sum_congr rfl fun m _ => hone m]
    simp
  have hsecond : ∑ m ∈ Ico a N, cis ((f - k : ℤ) * m / N) = ((N - a : ℝ) : ℂ) := by
    rw [sum_congr rfl fun m _ => hone m]
    simp [Nat.cast_sub ha]
  rw [foldPower_stepping hN hos ha, hfirst, hsecond, sum_normSq_add hos, Complex.normSq_ofReal,
    Complex.normSq_ofReal, Complex.conj_ofReal, ← Complex.ofReal_mul, Complex.ofReal_re]
  split_ifs with h
  · rw [h]
    push_cast
    ring
  · ring

/-- **At its own bin the tone is its first part**, and a chip rate below it is the second. -/
theorem bin_stepping_self (h2 : 2 ≤ os) {a : ℕ} (ha : a ≤ N) (f : ℤ) :
    bin (N * os) (stepping N os a f) f = os * a ∧
      bin (N * os) (stepping N os a f) (f - N) = os * (N - a) := by
  have hosQ : (os : ℚ) ≠ 0 := Nat.cast_ne_zero.mpr hos.ne'
  have hphase : ∀ r ∈ range os, phaseBin N os (stepping N os a f) f r
      = a + cis (-(r / os)) * (N - a) := by
    intro r hr
    rw [phaseBin_stepping hN hos ha f f (mem_range.mp hr), partialSum]
    simp [Nat.cast_sub ha]
  have hturn : ∑ r ∈ range os, cis (-(r / os)) = 0 := by
    have h := sum_tone hos (-1)
    rw [if_neg fun hd => by
      have := Int.le_of_dvd one_pos (dvd_neg.mp hd)
      omega] at h
    rw [← h]
    refine sum_congr rfl fun r _ => ?_
    congr 1
    push_cast
    ring
  have hback : ∑ r ∈ range os, cis (r / os) = 0 := by
    have h := sum_tone hos 1
    rw [if_neg fun hd => by
      have := Int.le_of_dvd one_pos hd
      omega] at h
    rw [← h]
    refine sum_congr rfl fun r _ => ?_
    congr 1
    push_cast
    ring
  constructor
  · have himage := bin_image hN hos (stepping N os a f) f 0
    rw [Nat.cast_zero, zero_mul, add_zero] at himage
    rw [himage, sum_congr rfl fun r hr => by rw [hphase r hr]]
    simp only [Nat.cast_zero, zero_mul, neg_zero, zero_div, cis_zero, one_mul]
    rw [sum_add_distrib, ← sum_mul, hturn, zero_mul, add_zero, sum_const, card_range, nsmul_eq_mul]
  · have himage := bin_image hN hos (stepping N os a f) f (os - 1)
    have hbelow : f + (os - 1 : ℕ) * N = f - N + 1 * (N * os : ℕ) := by
      push_cast [Nat.cast_sub hos]
      ring
    rw [hbelow, bin_add_mul (Nat.mul_pos hN hos)] at himage
    have hterm : ∀ r ∈ range os, cis (-((os - 1 : ℕ) * r) / os)
        * phaseBin N os (stepping N os a f) f r = cis (r / os) * a + (N - a) := by
      intro r hr
      have hup : -(((os - 1 : ℕ) : ℚ) * r) / os = r / os + ((-r : ℤ) : ℚ) := by
        push_cast [Nat.cast_sub hos]
        field_simp
        ring
      rw [hphase r hr, hup, cis_add_intCast, mul_add, ← mul_assoc, cis_mul_cis_neg, one_mul]
    rw [himage, sum_congr rfl hterm, sum_add_distrib, ← sum_mul, hback, zero_mul, zero_add, sum_const,
      card_range, nsmul_eq_mul]

/-- **At another bin** the two parts work against each other. -/
theorem foldPower_stepping_off {a : ℕ} (ha : a ≤ N) {f k : ℤ} (hk : ¬ (N : ℤ) ∣ f - k) :
    foldPower N os (stepping N os a f) k
      = if os = 1 then 0 else 2 * os ^ 2 * Complex.normSq (partialSum N (f - k) a) := by
  rw [foldPower_stepping hN hos ha, sum_rest hN hk ha, sum_normSq_add hos, Complex.normSq_neg, map_neg,
    mul_neg, Complex.mul_conj, Complex.neg_re, Complex.ofReal_re]
  split_ifs with h
  · rw [h]
    push_cast
    ring
  · ring

/-- Bins as far above and below the tone have the same power. -/
theorem foldPower_stepping_comm {a : ℕ} (ha : a ≤ N) {f d : ℤ} (hd : ¬ (N : ℤ) ∣ d) :
    foldPower N os (stepping N os a f) (f - d) = foldPower N os (stepping N os a f) (f + d) := by
  have hconj : partialSum N (-d) a = (starRingEnd ℂ) (partialSum N d a) := by
    rw [partialSum, partialSum, map_sum]
    refine sum_congr rfl fun m _ => ?_
    rw [conj_cis]
    congr 1
    push_cast
    ring
  have hbelow : f - (f - d) = d := by ring
  have habove : f - (f + d) = -d := by ring
  rw [foldPower_stepping_off hN hos ha (by rwa [hbelow]), foldPower_stepping_off hN hos ha
    (by rwa [habove, dvd_neg]), hbelow, habove, hconj, Complex.normSq_conj]

/-- **The tone's own bin has the most power**, wherever the tone steps. -/
theorem foldPower_lt_foldPower (h4 : 4 ≤ N) {a : ℕ} (ha : a ≤ N) {f k k' : ℤ} (hk : (N : ℤ) ∣ f - k)
    (hk' : ¬ (N : ℤ) ∣ f - k') :
    foldPower N os (stepping N os a f) k' < foldPower N os (stepping N os a f) k := by
  have hosR : (0 : ℝ) < (os : ℝ) ^ 2 := by positivity
  have hNa : (0 : ℝ) ≤ N - a := by
    rw [sub_nonneg]
    exact_mod_cast ha
  have haR : (0 : ℝ) ≤ a := Nat.cast_nonneg a
  have hpos : (0 : ℝ) < a ^ 2 + (N - a : ℝ) ^ 2 := by
    have hsum : (4 : ℝ) ≤ a + (N - a) := by
      rw [add_sub_cancel]
      exact_mod_cast h4
    nlinarith [sq_nonneg ((a : ℝ) - (N - a))]
  rw [foldPower_stepping_self hN hos ha hk, foldPower_stepping_off hN hos ha hk']
  split_ifs with h
  · have := mul_nonneg haR hNa
    nlinarith [mul_pos hosR hpos]
  · -- the sum of part of the tone is at most as long as either part
    set s := ‖partialSum N (f - k') a‖ with hs
    have hs0 : 0 ≤ s := norm_nonneg _
    have hfirst : s ≤ a := norm_partialSum_le N _ a
    have hsecond : s ≤ N - a := by
      have := norm_partialSum_le_rest hN hk' ha
      rwa [Nat.cast_sub ha] at this
    have hlt : 2 * s ^ 2 < a ^ 2 + (N - a : ℝ) ^ 2 := by
      by_cases hhalf : 2 ≤ a
      · have := norm_partialSum_lt hN hk' hhalf
        nlinarith
      · have hmore : (a : ℝ) + 2 ≤ N - a := by
          have : a + 2 + a ≤ N := by omega
          have hcast : ((a + 2 + a : ℕ) : ℝ) ≤ N := by exact_mod_cast this
          push_cast at hcast
          linarith
        nlinarith
    rw [Complex.normSq_eq_norm_sq, add_zero]
    nlinarith

end Stepping

/-! ## Tones that read on a bin -/

/-- The power of `x` is greatest on bin `f`, and falls off as far on both sides. -/
structure Centred (N os : ℕ) (x : ℕ → ℂ) (f : ℤ) : Prop where
  lt : ∀ k k' : ℤ, (N : ℤ) ∣ f - k → ¬ (N : ℤ) ∣ f - k' →
    foldPower N os x k' < foldPower N os x k
  sides : foldPower N os x (f - 1) = foldPower N os x (f + 1)

section Centred

variable {N os : ℕ} (hN : 0 < N) (hos : 0 < os)
include hN hos

/-- **A tone that steps down is centred** on the bin it starts from, wherever it steps. -/
theorem centred_stepping (h4 : 4 ≤ N) {a : ℕ} (ha : a ≤ N) (f : ℤ) :
    Centred N os (stepping N os a f) f where
  lt _ _ := foldPower_lt_foldPower hN hos h4 ha
  sides := foldPower_stepping_comm hN hos ha fun hd => by
    have := Int.le_of_dvd one_pos hd
    omega

/-- The mirror image has the mirrored power. -/
theorem foldPower_conj (x : ℕ → ℂ) (k : ℤ) :
    foldPower N os (fun j => (starRingEnd ℂ) (x j)) k = foldPower N os x (-k) := by
  rw [foldPower_eq hN hos, foldPower_eq hN hos]
  congr 1
  refine sum_congr rfl fun r _ => ?_
  have hmirror : phaseBin N os (fun j => (starRingEnd ℂ) (x j)) k r
      = (starRingEnd ℂ) (phaseBin N os x (-k) r) := by
    rw [phaseBin, phaseBin, map_sum]
    refine sum_congr rfl fun m _ => ?_
    rw [map_mul, conj_cis]
    congr 2
    push_cast
    ring
  rw [hmirror, Complex.normSq_conj]

theorem Centred.conj {x : ℕ → ℂ} {f : ℤ} (h : Centred N os x f) :
    Centred N os (fun j => (starRingEnd ℂ) (x j)) (-f) where
  lt := by
    intro k k' hk hk'
    rw [foldPower_conj hN hos, foldPower_conj hN hos]
    refine h.lt _ _ ?_ ?_
    · rw [sub_neg_eq_add, ← dvd_neg, neg_add']
      exact hk
    · rw [sub_neg_eq_add, ← dvd_neg, neg_add']
      exact hk'
  sides := by
    rw [foldPower_conj hN hos, foldPower_conj hN hos, neg_sub, sub_neg_eq_add, neg_add, neg_neg,
      add_comm 1, ← sub_eq_add_neg]
    exact h.sides.symm

end Centred

end Fourier
