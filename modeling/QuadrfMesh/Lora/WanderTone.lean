/-
# The carrier fit on a clean tone

A window that holds one tone, some real number of bins off the decided one, and steps down where
it is told to.  Every block of it points where its middle does (`pointsAtMiddle`), so every phase
step reads exactly the offset, and both stages of the fit settle on it (`fit_cleanTone`).
-/
import QuadrfMesh.Lib.Chunks
import QuadrfMesh.Lib.Fourier
import QuadrfMesh.Lora.WanderBlocks

open Finset Fourier

theorem complexCarrier_unit (r : ℝ) : complexCarrier.unit (2 * Real.pi * r) = phasor r := rfl

/-- A tone `ε` bins off `b1`, and a chip rate lower from sample `wrap` on. -/
structure CleanTone (sps nChips : ℕ) (b1 wrap : ℤ) (ε : ℝ) (A B : ℂ) (z : List ℂ) : Prop where
  length_eq : z.length = sps
  first : ∀ n < sps, (n : ℤ) < wrap → z.getD n 0 = A * phasor ((b1 + ε) * n / sps)
  second : ∀ n < sps, wrap ≤ n → z.getD n 0 = B * phasor ((b1 - nChips + ε) * n / sps)

/-! ## The blocks -/

/-- A block that points where its middle does, on the tone of its segment. -/
def PointsAtMiddle (sps : ℕ) (ε : ℝ) (A B : ℂ) (q : CarrierBlock ℂ ℝ) : Prop :=
  ∃ D : ℝ, 0 < D ∧
    q.p = (if q.seg = 1 then A else B) * (D * phasor (ε * (q.center - 1 / (2 : ℕ)) / sps))

section Blocks

variable {sps nChips len : ℕ} {b1 wrap : ℤ} {ε : ℝ} {A B : ℂ} {z : List ℂ}
  (hz : CleanTone sps nChips b1 wrap ε A B z) (hsps : 0 < sps) (hslow : |ε| * len < sps / 2)
include hsps hslow

/-- A run of samples against the oscillator of its own bin. -/
theorem sum_against {b : ℤ} {C : ℂ} {k : ℤ} (start : ℕ) {s a : ℕ} (ha : 0 < a) (hlen : a ≤ len)
    (hrun : ∀ n ∈ Ico s (s + a), z.getD (start + n) 0
      = C * phasor ((b + k * sps + ε) * (start + n : ℕ) / sps)) :
    ∃ D : ℝ, 0 < D ∧ ∑ n ∈ Ico s (s + a), z.getD (start + n) 0
        * (complexCarrier.unit (-complexCarrier.twoPi * b * start / sps)
          * complexCarrier.unit (-complexCarrier.twoPi * b / sps) ^ n)
      = C * (D * phasor (ε * (start + s + a / 2 - 1 / 2) / sps)) := by
  have hspsR : (sps : ℝ) ≠ 0 := Nat.cast_ne_zero.mpr hsps.ne'
  have hθ : |ε / sps| * a < 1 / 2 := by
    have haR : (a : ℝ) ≤ len := by exact_mod_cast hlen
    rw [abs_div, Nat.abs_cast, div_mul_eq_mul_div, div_lt_iff₀ (by positivity)]
    calc |ε| * a ≤ |ε| * len := mul_le_mul_of_nonneg_left haR (abs_nonneg _)
      _ < 1 / 2 * sps := by linarith
  obtain ⟨D, hD, hsum⟩ := sum_phasor ha hθ
  refine ⟨D, hD, ?_⟩
  have hterm : ∀ n ∈ range a, z.getD (start + (s + n)) 0
      * (complexCarrier.unit (-complexCarrier.twoPi * b * start / sps)
        * complexCarrier.unit (-complexCarrier.twoPi * b / sps) ^ (s + n))
      = C * (phasor (ε * (start + s : ℕ) / sps) * phasor (ε / sps * n)) := by
    intro n hn
    have hstart : complexCarrier.unit (-complexCarrier.twoPi * b * start / sps)
        = phasor (-(b * start / sps)) := by
      rw [← complexCarrier_unit]
      congr 1
      show -(2 * Real.pi) * b * start / sps = _
      ring
    have hstep : complexCarrier.unit (-complexCarrier.twoPi * b / sps) = phasor (-(b / sps)) := by
      rw [← complexCarrier_unit]
      congr 1
      show -(2 * Real.pi) * b / sps = _
      ring
    rw [hrun (s + n) (by rw [mem_Ico]; have := mem_range.mp hn; omega), hstart, hstep,
      ← phasor_mul_natCast, mul_assoc, ← phasor_add, ← phasor_add, ← phasor_add]
    congr 1
    -- whole turns drop out
    have hphase : (b + k * sps + ε) * (start + (s + n) : ℕ) / sps
        + (-(b * start / sps) + -(b / sps) * (s + n : ℕ))
        = ε * (start + s : ℕ) / sps + ε / sps * n + ((k * (start + (s + n)) : ℤ) : ℝ) := by
      push_cast
      field_simp
      ring
    rw [hphase, phasor_add, phasor_intCast, mul_one]
  rw [sum_Ico_eq_sum_range, Nat.add_sub_cancel_left, sum_congr rfl hterm, ← mul_sum, ← mul_sum, hsum,
    mul_left_comm (phasor _), ← phasor_add]
  congr 3
  push_cast
  field_simp
  ring

include hz

/-- **Every block points where its middle does.** -/
theorem pointsAtMiddle (hwrap : 0 ≤ wrap) (hlen : 0 < len) {m : ℕ} (hm : (m + 1) * len ≤ sps)
    {q : CarrierBlock ℂ ℝ}
    (hq : q ∈ blockParts complexCarrier sps z b1 (((b1 - nChips) % sps + sps) % sps) wrap len m) :
    PointsAtMiddle sps ε A B q := by
  have hlenR : (0 : ℝ) < len := by exact_mod_cast hlen
  have hend : m * len + len ≤ sps := by rwa [Nat.succ_mul] at hm
  set b2 : ℤ := ((b1 - nChips) % sps + sps) % sps with hb2
  have hb2' : (b1 - nChips : ℤ) = b2 + (b1 - nChips) / sps * sps := by
    rw [hb2, Int.add_emod_right, Int.emod_emod_of_dvd _ (dvd_refl _)]
    exact (Int.emod_add_ediv_mul _ _).symm
  have hb2R : (b1 - nChips : ℝ) = b2 + ((b1 - nChips) / sps : ℤ) * sps := by exact_mod_cast hb2'
  set split : ℕ := (max 0 (min (wrap - (m * len : ℕ)) len)).toNat with hsplit
  have hsplitZ : (split : ℤ) = max 0 (min (wrap - (m * len : ℕ)) len) :=
    Int.toNat_of_nonneg (le_max_left _ _)
  have hsplit_le : split ≤ len := by omega
  simp only [blockParts] at hq
  rw [if_neg (not_lt.mpr hwrap), ← hsplit, List.mem_append] at hq
  rcases hq with hq | hq
  · -- before the wrap
    split_ifs at hq with hbig
    · have hq := List.mem_singleton.mp hq
      have hcenter : q.center = (m * len : ℕ) + 1 / 2 * (split : ℝ) := by rw [hq]
      have hseg : q.seg = 1 := by rw [hq]
      have hpos : 0 < split := by
        have : (0 : ℝ) < split := lt_of_lt_of_le (by positivity) hbig
        exact_mod_cast this
      obtain ⟨D, hD, hsum⟩ := sum_against (z := z) (b := b1) (k := 0) (C := A) hsps hslow (m * len)
        (s := 0) hpos hsplit_le fun n hn => by
          have hn' := (mem_Ico.mp hn).2
          rw [hz.first _ (by omega) (by push_cast; omega)]
          push_cast
          ring_nf
      refine ⟨D, hD, ?_⟩
      rw [zero_add, ← range_eq_Ico] at hsum
      rw [hseg, if_pos rfl, hcenter, hq]
      refine hsum.trans ?_
      congr 4
      push_cast
      ring
    · exact absurd hq List.not_mem_nil
  · -- from the wrap on
    split_ifs at hq with hbig
    · have hq := List.mem_singleton.mp hq
      have hcenter : q.center = (m * len : ℕ) + (split : ℝ) + 1 / 2 * (len - split) := by rw [hq]
      have hseg : q.seg = 2 := by rw [hq]
      have hrest : ((len - split : ℕ) : ℝ) = len - split := Nat.cast_sub hsplit_le
      have hpos : 0 < len - split := by
        have : (0 : ℝ) < (len - split : ℕ) := by
          rw [hrest]
          exact lt_of_lt_of_le (by positivity) hbig
        exact_mod_cast this
      have hsum' : split + (len - split) = len := by omega
      obtain ⟨D, hD, hsum⟩ := sum_against (z := z) (b := b2) (k := (b1 - nChips) / sps) (C := B)
        hsps hslow (m * len) (s := split) hpos (Nat.sub_le _ _) fun n hn => by
          obtain ⟨hn', hn''⟩ := mem_Ico.mp hn
          rw [hz.second _ (by omega) (by push_cast; omega), ← hb2R]
      refine ⟨D, hD, ?_⟩
      rw [hsum', hrest] at hsum
      rw [hseg, if_neg (by decide), hcenter, hq]
      refine hsum.trans ?_
      congr 4
      push_cast
      ring
    · exact absurd hq List.not_mem_nil

end Blocks

/-! ## The observations -/

/-- **A phase step reads the offset**: both blocks point at it from their middles. -/
theorem observe_pointsAtMiddle {sps len : ℕ} {wrap : ℤ} {ε noiseVar : ℝ} {A B : ℂ} (hsps : 0 < sps)
    (hslow : |ε| * len < sps / 2) (hA : A ≠ 0) (hB : B ≠ 0) {m s0 a0 s1 a1 : ℕ}
    {q0 q1 : CarrierBlock ℂ ℝ} (h0 : BlockPlace len wrap m q0 s0 a0)
    (h1 : BlockPlace len wrap (m + 1) q1 s1 a1) (hseg : q0.seg = q1.seg)
    (hp0 : PointsAtMiddle sps ε A B q0) (hp1 : PointsAtMiddle sps ε A B q1) {o : ℝ × ℝ × ℝ}
    (ho : observe complexCarrier sps noiseVar q0 q1 = some o) : o.2.1 = ε := by
  have hspsR : (0 : ℝ) < sps := by exact_mod_cast hsps
  simp only [observe] at ho
  rw [if_neg (not_not.mpr hseg)] at ho
  obtain rfl := Option.some.inj ho
  set Δ : ℝ := q1.center - q0.center with hΔ
  have hΔeq : Δ = (a0 + a1 : ℕ) / 2 := BlockPlace.center_sub h0 h1 hseg
  have hΔpos : 0 < Δ := by
    rw [hΔeq]
    have : (0 : ℝ) < (a0 + a1 : ℕ) := by exact_mod_cast Nat.add_pos_left h0.pos _
    positivity
  have hΔle : Δ ≤ len := by
    have hle0 : (a0 : ℝ) ≤ len := by exact_mod_cast h0.le
    have hle1 : (a1 : ℝ) ≤ len := by exact_mod_cast h1.le
    rw [hΔeq]
    push_cast
    linarith
  obtain ⟨D0, hD0, hp0⟩ := hp0
  obtain ⟨D1, hD1, hp1⟩ := hp1
  set C : ℂ := if q0.seg = 1 then A else B with hC
  have hC0 : C ≠ 0 := by
    rw [hC]
    split_ifs
    · exact hA
    · exact hB
  have hproduct : q1.p * (starRingEnd ℂ) q0.p
      = (Complex.normSq C * (D1 * D0) : ℝ) * phasor (ε * Δ / sps) := by
    have hturn : phasor (ε * (q1.center - 1 / 2) / sps)
        * (starRingEnd ℂ) (phasor (ε * (q0.center - 1 / 2) / sps)) = phasor (ε * Δ / sps) := by
      rw [conj_phasor, ← phasor_add]
      congr 1
      rw [hΔ]
      ring
    rw [hp0, hp1, ← hseg, ← hC, map_mul, map_mul, Complex.conj_ofReal, ← hturn]
    push_cast
    rw [Complex.normSq_eq_conj_mul_self]
    ring
  have hslow' : |ε * Δ / sps| < 1 / 2 := by
    rw [abs_div, abs_mul, abs_of_pos hΔpos, Nat.abs_cast, div_lt_iff₀ hspsR]
    calc |ε| * Δ ≤ |ε| * len := mul_le_mul_of_nonneg_left hΔle (abs_nonneg _)
      _ < 1 / 2 * sps := by linarith
  have harg : Complex.arg (q1.p * (starRingEnd ℂ) q0.p) = 2 * Real.pi * (ε * Δ / sps) := by
    rw [hproduct]
    exact arg_phasor (mul_pos (Complex.normSq_pos.mpr hC0) (mul_pos hD1 hD0)) hslow'
  show Complex.arg (q1.p * (starRingEnd ℂ) q0.p) * (sps / (2 * Real.pi * Δ)) = ε
  rw [harg]
  have hpi := Real.pi_ne_zero
  field_simp

/-- **Every observation of a clean tone is its offset.** -/
theorem observations_cleanTone {w : WanderFitOf ℝ} {nSub : ℕ} {b1 wrap : ℤ} {ε noiseVar : ℝ}
    {A B : ℂ} {z : List ℂ} (hz : CleanTone w.sps w.nChips b1 wrap ε A B z) (hsps : 0 < w.sps)
    (hA : A ≠ 0) (hB : B ≠ 0) (hwrap : 0 ≤ wrap) (hsub : 0 < nSub) (hdvd : nSub ∣ w.sps)
    (hslow : |ε| < nSub / 2) {o : ℝ × ℝ × ℝ}
    (ho : o ∈ observations complexCarrier w z b1 wrap noiseVar nSub) : o.2.1 = ε := by
  have hlen := subLen_pos hsps hsub hdvd
  have hsplit : w.sps / nSub * nSub = w.sps := Nat.div_mul_cancel hdvd
  have hslow' : |ε| * (w.sps / nSub : ℕ) < w.sps / 2 := by
    have hcast : (w.sps : ℝ) = (w.sps / nSub : ℕ) * nSub := by exact_mod_cast hsplit.symm
    have hlenR : (0 : ℝ) < (w.sps / nSub : ℕ) := by exact_mod_cast hlen
    calc |ε| * (w.sps / nSub : ℕ) < nSub / 2 * (w.sps / nSub : ℕ) :=
          mul_lt_mul_of_pos_right hslow hlenR
      _ = w.sps / 2 := by
          rw [hcast]
          ring
  have hinside : ∀ m < nSub, (m + 1) * (w.sps / nSub) ≤ w.sps := fun m hm => by
    calc (m + 1) * (w.sps / nSub) ≤ nSub * (w.sps / nSub) := Nat.mul_le_mul_right _ hm
      _ = w.sps := Nat.mul_div_cancel' hdvd
  obtain ⟨m, hm, q0, q1, s0, a0, s1, a1, hq0, hq1, h0, h1, hseg, ho⟩ :=
    exists_of_mem_observations hwrap hsps hsub hdvd ho
  exact observe_pointsAtMiddle hsps hslow' hA hB h0 h1 hseg
    (pointsAtMiddle hz hsps hslow' hwrap hlen (hinside m (by omega)) hq0)
    (pointsAtMiddle hz hsps hslow' hwrap hlen (hinside (m + 1) hm) hq1) ho

/-! ## The fit -/

/-- A trajectory that stays at `ε`. -/
structure WanderFitOf.Flat (w : WanderFitOf ℝ) (ε : ℝ) : Prop where
  mean : w.c 0 = ε
  rest : ∀ i, 1 ≤ i → i ≤ w.order → w.c i = 0

namespace WanderFitOf

theorem Flat.sum {w : WanderFitOf ℝ} {ε : ℝ} (h : w.Flat ε) (p : ℕ → ℝ) :
    ∑ i ∈ range (w.order + 1), w.c i * p i = ε * p 0 := by
  rw [sum_range_succ', h.mean]
  have hrest : ∑ i ∈ range w.order, w.c (i + 1) * p (i + 1) = 0 := sum_eq_zero fun i hi => by
    rw [h.rest _ (by omega) (by have := mem_range.mp hi; omega), zero_mul]
  rw [hrest, zero_add]

theorem Flat.eval {w : WanderFitOf ℝ} {ε : ℝ} (h : w.Flat ε) (t : ℝ) : w.eval t = ε := by
  rw [WanderFitOf.eval, evalWith, h.sum, legendre, mul_one]

theorem Flat.slope {w : WanderFitOf ℝ} {ε : ℝ} (h : w.Flat ε) (t : ℝ) : w.slope t = 0 := by
  have hsum := h.sum fun i => 2 * legendreSlope (2 * t - 1) i
  simp only [← mul_assoc] at hsum
  rw [WanderFitOf.slope, hsum, legendreSlope, mul_zero]

section Clean

variable {w : WanderFitOf ℝ} {nSub : ℕ} {b1 wrap : ℤ} {ε noiseVar : ℝ} {A B : ℂ} {z : List ℂ}
  (hz : CleanTone w.sps w.nChips b1 wrap ε A B z) (hA : A ≠ 0) (hB : B ≠ 0) (hwrap : 0 ≤ wrap)
  (hslow : |ε| < nSub / 2)
include hz hA hB hwrap hslow

/-- **One stage settles on the offset**, whatever it expects of the higher orders. -/
theorem solve_cleanTone {priorInv : ℕ → ℝ} (hfree : priorInv 0 = 0) (hprior : ∀ i, 0 ≤ priorInv i)
    (hok : (w.solve complexCarrier z b1 wrap noiseVar nSub priorInv).2 = true) :
    (w.solve complexCarrier z b1 wrap noiseVar nSub priorInv).1.Flat ε ∧
      ∀ o ∈ (w.solve complexCarrier z b1 wrap noiseVar nSub priorInv).1.obs, o.2.1 = ε := by
  obtain ⟨hsps, hsub, hdvd, -, horder, -, -, -, -, c, cov, hridge, hc, -, hobs⟩ := solve_cases hok
  have hvalue : ∀ o ∈ observations complexCarrier w z b1 wrap noiseVar nSub, o.2.1 = ε :=
    fun _ ho => observations_cleanTone hz hsps hA hB hwrap (by omega) hdvd hslow ho
  set obs := observations complexCarrier w z b1 wrap noiseVar nSub with hobs'
  obtain ⟨hle, hunique, -⟩ := ridgeSolve_least hridge (fun r hr => by
    rw [List.getD_eq_getElem _ _ hr]
    exact observations_weight_nonneg (List.getElem_mem hr)) fun i _ => hprior i
  set fit : LeastSquares.Problem ℝ := ⟨obs.length, w.order + 1,
    fun r i => legendre (2 * (obs.getD r (0, 0, 0)).1 - 1) i, fun r => (obs.getD r (0, 0, 0)).2.1,
    fun r => (obs.getD r (0, 0, 0)).2.2, priorInv⟩ with hfit
  have hnonneg : fit.Nonneg := ⟨fun r hr => by
    show 0 ≤ (obs.getD r (0, 0, 0)).2.2
    rw [List.getD_eq_getElem _ _ hr]
    exact observations_weight_nonneg (List.getElem_mem hr), fun i _ => hprior i⟩
  -- the flat trajectory costs nothing
  set flat : ℕ → ℝ := fun i => if i = 0 then ε else 0 with hflat
  have hpredict : ∀ r, fit.predict flat r = ε := by
    intro r
    have hterm : ∀ i ∈ range (w.order + 1), fit.design r i * flat i = if i = 0 then ε else 0 := by
      intro i _
      simp only [hflat]
      split_ifs with hi
      · show legendre _ i * ε = ε
        rw [hi, legendre, one_mul]
      · rw [mul_zero]
    rw [LeastSquares.Problem.predict, sum_congr rfl hterm, sum_ite_eq',
      if_pos (mem_range.mpr (Nat.succ_pos _))]
  have hzero : fit.cost flat = 0 := by
    rw [LeastSquares.Problem.cost, sum_eq_zero fun r hr => ?_, sum_eq_zero fun i _ => ?_, add_zero]
    · simp only [hflat]
      split_ifs with hi
      · show priorInv i * ε ^ 2 = 0
        rw [hi, hfree, zero_mul]
      · ring
    · have hr' : r < obs.length := mem_range.mp hr
      have hread : fit.value r = ε := by
        show (obs.getD r (0, 0, 0)).2.1 = ε
        rw [List.getD_eq_getElem _ _ hr']
        exact hvalue _ (List.getElem_mem hr')
      rw [hpredict, hread, sub_self]
      ring
  have hcost : fit.cost flat = fit.cost c := by
    refine le_antisymm ?_ (hle flat)
    rw [hzero]
    exact add_nonneg
      (sum_nonneg fun r hr => mul_nonneg (hnonneg.weight r (mem_range.mp hr)) (sq_nonneg _))
      (sum_nonneg fun i hi => mul_nonneg (hnonneg.prior i (mem_range.mp hi)) (sq_nonneg _))
  have hcoef := hunique flat hcost
  refine ⟨⟨?_, fun i hi hi' => ?_⟩, fun o ho => ?_⟩
  · rw [hc, ← hcoef 0 (Nat.succ_pos _)]
    rfl
  · rw [horder] at hi'
    rw [hc, ← hcoef i (by omega)]
    exact if_neg (by omega)
  · rw [hobs] at ho
    obtain ⟨o', ho', rfl⟩ := List.mem_map.mp ho
    exact hvalue o' ho'

omit hA hB hwrap hslow in
/-- A flat trajectory taken out of its own tone leaves the tone on the bin. -/
theorem derotate_cleanTone {w' : WanderFitOf ℝ} (hsps : 0 < w.sps) (hw' : w'.sps = w.sps)
    (hflat : w'.Flat ε) :
    CleanTone w.sps w.nChips b1 wrap 0 A B (w'.derotate complexCarrier z 0) := by
  have hspsR : (w.sps : ℝ) ≠ 0 := Nat.cast_ne_zero.mpr hsps.ne'
  have hsample : ∀ n < w.sps, (w'.derotate complexCarrier z 0).getD n 0
      = z.getD n 0 * phasor (-(ε * n / w.sps)) := by
    intro n hn
    have hn' : n < z.length := by rw [hz.length_eq]; exact hn
    have hphase : ∑ m ∈ range n, complexCarrier.twoPi
        * (w'.eval ((m + 1 / 2) * (1 / w'.sps)) + 0) * (1 / w'.sps)
        = 2 * Real.pi * (ε * n / w.sps) := by
      simp only [hflat.eval, add_zero, hw', sum_const, card_range, nsmul_eq_mul]
      show n * (2 * Real.pi * ε * (1 / w.sps)) = _
      field_simp
    have hlen : n < (w'.derotate complexCarrier z 0).length := by simpa [derotate] using hn'
    rw [List.getD_eq_getElem _ _ hlen, List.getD_eq_getElem _ _ hn', ← conj_phasor]
    simp only [derotate, List.getElem_mapIdx]
    rw [hphase, complexCarrier_unit]
    rfl
  refine ⟨by simp [derotate, hz.length_eq], fun n hn hw => ?_, fun n hn hw => ?_⟩
  · rw [hsample n hn, hz.first n hn hw, mul_assoc, ← phasor_add]
    congr 2
    field_simp
    ring
  · rw [hsample n hn, hz.second n hn hw, mul_assoc, ← phasor_add]
    congr 2
    field_simp
    ring

/-- A fit that succeeds is flat at the offset, and so are the observations of both stages. -/
theorem fit_flat (hw : w.Configured)
    (hok : (w.fit complexCarrier z b1 wrap noiseVar nSub).2 = true) :
    let w' := (w.fit complexCarrier z b1 wrap noiseVar nSub).1
    (∀ t, w'.eval t = ε ∧ w'.slope t = 0) ∧ (∀ o ∈ w'.obs, o.2.1 = ε) ∧
      ∀ o ∈ w'.fine, o.2.1 = ε := by
  intro w'
  by_cases hfirst : (w.solve complexCarrier z b1 wrap noiseVar nSub w.priorInv).2 = true
  swap
  · rw [Bool.not_eq_true] at hfirst
    simp only [fit] at hok
    rw [if_pos hfirst] at hok
    cases hok
  obtain ⟨hflat, hobs⟩ := solve_cleanTone hz hA hB hwrap hslow hw.mean_free hw.prior_nonneg hfirst
  obtain ⟨hspspos, -, -, -, horder, hinv, hsps, hchips, -⟩ := solve_cases hfirst
  set first := w.solve complexCarrier z b1 wrap noiseVar nSub w.priorInv with hfirst'
  set w1 : WanderFitOf ℝ := { first.1 with fine := first.1.obs } with hw1
  have hflat1 : w1.Flat ε := ⟨hflat.1, hflat.2⟩
  have hnot : ¬ first.2 = false := by rw [hfirst]; decide
  have hstay : (∀ t, w1.eval t = ε ∧ w1.slope t = 0) ∧ (∀ o ∈ w1.obs, o.2.1 = ε) ∧
      ∀ o ∈ w1.fine, o.2.1 = ε := ⟨fun t => ⟨hflat1.eval t, hflat1.slope t⟩, hobs, hobs⟩
  simp only [w', fit]
  rw [← hfirst', if_neg hnot, ← hw1]
  by_cases hshort : nSub < 16
  · rw [if_pos hshort]
    exact hstay
  rw [if_neg hshort]
  by_cases hsecond : (w1.solve complexCarrier (w1.derotate complexCarrier z 0) b1 wrap noiseVar
      (w1.n2 nSub) w1.prior2).2 = true
  swap
  · rw [Bool.not_eq_true] at hsecond
    rw [if_pos hsecond]
    exact hstay
  rw [if_neg (by rw [hsecond]; decide)]
  -- the second stage finds nothing left
  have hclean : CleanTone w1.sps w1.nChips b1 wrap 0 A B (w1.derotate complexCarrier z 0) := by
    have hsps1 : w1.sps = w.sps := hsps
    have h := derotate_cleanTone hz hspspos hsps1 hflat1
    rwa [← hsps, ← hchips] at h
  have hslow0 : |(0 : ℝ)| < (w1.n2 nSub : ℕ) / 2 := by
    have hn2 : 0 < w1.n2 nSub := by
      rw [n2]
      split_ifs <;> omega
    rw [abs_zero]
    positivity
  obtain ⟨hflat2, hobs2⟩ := solve_cleanTone hclean hA hB hwrap hslow0 (by simp [prior2])
    w1.prior2_nonneg hsecond
  obtain ⟨-, -, -, -, horder2, -, -, -, hfine2, -⟩ := solve_cases hsecond
  set second := w1.solve complexCarrier (w1.derotate complexCarrier z 0) b1 wrap noiseVar
    (w1.n2 nSub) w1.prior2 with hsecond'
  set last : WanderFitOf ℝ := { second.1 with
    c := fun i => if i ≤ w.order then second.1.c i + w1.c i else second.1.c i
    obs := second.1.obs.map fun o => (o.1, o.2.1 + w1.eval o.1, o.2.2) } with hlast
  have hlastflat : last.Flat ε := by
    constructor
    · show (if 0 ≤ w.order then second.1.c 0 + w1.c 0 else second.1.c 0) = ε
      rw [if_pos (Nat.zero_le _), hflat2.mean, hflat1.mean, zero_add]
    · intro i hi hi'
      have hi2 : i ≤ w1.order := hi'.trans_eq horder2
      have hi1 : i ≤ w.order := hi2.trans_eq horder
      show (if i ≤ w.order then second.1.c i + w1.c i else second.1.c i) = 0
      rw [if_pos hi1, hflat2.rest i hi hi', hflat1.rest i hi hi2, add_zero]
  refine ⟨fun t => ⟨hlastflat.eval t, hlastflat.slope t⟩, fun o ho => ?_, fun o ho => ?_⟩
  · obtain ⟨o', ho', rfl⟩ := List.mem_map.mp ho
    show o'.2.1 + w1.eval o'.1 = ε
    rw [hobs2 o' ho', hflat1.eval, zero_add]
  · have ho' : o ∈ second.1.fine := ho
    rw [hfine2] at ho'
    exact hobs o ho'

end Clean

/-- **The fit settles on the offset** of a clean tone, whatever its size within half a sub-block,
wherever the chirp wraps and whatever windows came before: the trajectory is flat at the offset,
and so are all observations of both stages. -/
theorem fit_cleanTone {sps nChips order nSub : ℕ} {sigmaW : ℝ} (hsps : 0 < sps)
    (hfits : sps < 2 ^ 32) (hsigma : sigmaW ≤ 10 ^ 40) (calls : List (FitCall ℂ ℝ)) {b1 wrap : ℤ}
    {ε noiseVar : ℝ} {A B : ℂ} {z : List ℂ} (hz : CleanTone sps nChips b1 wrap ε A B z)
    (hA : A ≠ 0) (hB : B ≠ 0) (hwrap : 0 ≤ wrap) (hsub : 4 ≤ nSub) (hdvd : nSub ∣ sps)
    (hslow : |ε| < nSub / 2) :
    let w := (configure sps nChips sigmaW order).after complexCarrier calls
    let w' := (w.fit complexCarrier z b1 wrap noiseVar nSub).1
    (w.fit complexCarrier z b1 wrap noiseVar nSub).2 = true ∧
      (∀ t, w'.eval t = ε ∧ w'.slope t = 0) ∧ (∀ o ∈ w'.obs, o.2.1 = ε) ∧
      ∀ o ∈ w'.fine, o.2.1 = ε := by
  intro w w'
  have htwoPi : 0 < complexCarrier.twoPi := by
    show 0 < 2 * Real.pi
    positivity
  have hok : (w.fit complexCarrier z b1 wrap noiseVar nSub).2 = true :=
    fit_of_solve (after_solve z b1 noiseVar hsps hfits hsigma htwoPi calls hwrap hsub hdvd)
  obtain ⟨hconfigured, -, -, hsps', hchips'⟩ := after_keeps complexCarrier
    (configure_configured sps nChips sigmaW order).1 calls
  have hz' : CleanTone w.sps w.nChips b1 wrap ε A B z := by
    rw [show w.sps = sps from hsps', show w.nChips = nChips from hchips']
    exact hz
  exact ⟨hok, fit_flat hz' hA hB hwrap hslow hconfigured hok⟩

theorem fit_cleanTone_half :
    (((configure 16 8 1 3).after complexCarrier []).fit complexCarrier
      ((List.range 16).map fun n : ℕ =>
        if n < 6 then 1 * phasor ((3 + 1.5) * n / 16) else Complex.I * phasor ((3 - 8 + 1.5) * n / 16))
      3 6 0 16).1.eval 1 = 1.5 := by
  refine ((fit_cleanTone (by decide) (by decide) (by norm_num) []
    (A := 1) (B := Complex.I) ⟨by simp, fun n hn hw => ?_, fun n hn hw => ?_⟩ one_ne_zero
    Complex.I_ne_zero (by decide) (by decide) (by decide) (by norm_num [abs_of_pos])).2.1 1).1
  · rw [Chunks.getD_map_range _ _ _ _ hn, if_pos (by omega)]
    push_cast
    rfl
  · rw [Chunks.getD_map_range _ _ _ _ hn, if_neg (by omega)]
    push_cast
    rfl

end WanderFitOf
