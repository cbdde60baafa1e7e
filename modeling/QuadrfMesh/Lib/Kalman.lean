/-
# Filtering and smoothing as least squares

A Kalman filter with scalar observations and its smoother, over any finite state.  A trajectory
costs what it is off the prior, off each observation and off the prediction at each step, every
one under its covariance.  The filter's innovations add up to the least cost there is, and the
backward pass gives the only trajectory that costs it (`trackCost_spec`).
-/
import Mathlib

open Matrix

namespace Kalman

variable {n K : Type*} [Fintype n] [DecidableEq n] [Field K] [LinearOrder K]

/-! ## Covariances -/

/-- Symmetric, and positive on every vector but zero. -/
structure IsCovariance (P : Matrix n n K) : Prop where
  symm : P.IsSymm
  pos : ∀ v : n → K, v ≠ 0 → 0 < v ⬝ᵥ P *ᵥ v

/-- What it costs to be `v` off, under a covariance. -/
noncomputable def misfit (P : Matrix n n K) (v : n → K) : K := v ⬝ᵥ P⁻¹ *ᵥ v

omit [DecidableEq n] [LinearOrder K] in
theorem dotProduct_mulVec_comm {P : Matrix n n K} (hP : P.IsSymm) (u v : n → K) :
    u ⬝ᵥ P *ᵥ v = v ⬝ᵥ P *ᵥ u := by
  rw [dotProduct_mulVec, ← mulVec_transpose, hP, dotProduct_comm]

namespace IsCovariance

variable {P Q : Matrix n n K} (hP : IsCovariance P) (hQ : IsCovariance Q)
include hP

theorem isUnit : IsUnit P := by
  rw [← mulVec_injective_iff_isUnit]
  intro u v huv
  by_contra hne
  have hpos := hP.pos (u - v) (sub_ne_zero.mpr hne)
  have hzero : P *ᵥ (u - v) = 0 := by rw [mulVec_sub, sub_eq_zero]; exact huv
  rw [hzero, dotProduct_zero] at hpos
  exact lt_irrefl _ hpos

theorem mul_inv : P * P⁻¹ = 1 :=
  mul_nonsing_inv P ((isUnit_iff_isUnit_det P).mp hP.isUnit)

theorem inv_mul : P⁻¹ * P = 1 :=
  nonsing_inv_mul P ((isUnit_iff_isUnit_det P).mp hP.isUnit)

theorem mulVec_inv (v : n → K) : P *ᵥ (P⁻¹ *ᵥ v) = v := by
  rw [mulVec_mulVec, hP.mul_inv, one_mulVec]

theorem inv_mulVec (v : n → K) : P⁻¹ *ᵥ (P *ᵥ v) = v := by
  rw [mulVec_mulVec, hP.inv_mul, one_mulVec]

theorem misfit_mulVec (g : n → K) : misfit P (P *ᵥ g) = g ⬝ᵥ P *ᵥ g := by
  rw [misfit, hP.inv_mulVec, dotProduct_comm]

/-- A move by what the covariance makes of `g`. -/
theorem misfit_add (g r : n → K) :
    misfit P (P *ᵥ g + r) = g ⬝ᵥ P *ᵥ g + 2 * (g ⬝ᵥ r) + misfit P r := by
  have hcross : P *ᵥ g ⬝ᵥ P⁻¹ *ᵥ r = g ⬝ᵥ r := by
    rw [dotProduct_comm, dotProduct_mulVec_comm hP.symm, hP.mulVec_inv]
  rw [misfit, mulVec_add, hP.inv_mulVec, add_dotProduct, dotProduct_add, dotProduct_add, hcross,
    dotProduct_comm (P *ᵥ g) g, dotProduct_comm r g, misfit]
  ring

theorem misfit_pos {v : n → K} (hv : v ≠ 0) : 0 < misfit P v := by
  have hne : P⁻¹ *ᵥ v ≠ 0 := fun h0 => hv (by rw [← hP.mulVec_inv v, h0, mulVec_zero])
  have h := hP.pos _ hne
  rwa [hP.mulVec_inv, dotProduct_comm] at h

theorem misfit_nonneg (v : n → K) : 0 ≤ misfit P v := by
  by_cases hv : v = 0
  · rw [hv, misfit, zero_dotProduct]
  · exact (hP.misfit_pos hv).le

theorem misfit_eq_zero {v : n → K} : misfit P v = 0 ↔ v = 0 := by
  constructor
  · intro h
    by_contra hv
    exact (hP.misfit_pos hv).ne' h
  · rintro rfl
    rw [misfit, zero_dotProduct]

/-- A change of coordinates. -/
theorem congr {F : Matrix n n K} (hF : IsUnit F) : IsCovariance (F * P * Fᵀ) where
  symm := by
    rw [IsSymm, transpose_mul, transpose_mul, transpose_transpose, hP.symm, mul_assoc]
  pos := by
    intro v hv
    have hne : Fᵀ *ᵥ v ≠ 0 := by
      have hinj := mulVec_injective_iff_isUnit.mpr ((isUnit_transpose F).mpr hF)
      exact fun h0 => hv (hinj (by rw [h0, mulVec_zero]))
    have h := hP.pos _ hne
    rwa [← mulVec_mulVec, ← mulVec_mulVec, dotProduct_mulVec, ← mulVec_transpose]

theorem misfit_congr {F : Matrix n n K} (hF : IsUnit F) (d : n → K) :
    misfit (F * P * Fᵀ) (F *ᵥ d) = misfit P d := by
  have hFT := (isUnit_transpose F).mpr hF
  -- through the vector that the covariance takes to `d`
  obtain ⟨u, hu⟩ : ∃ u, Fᵀ *ᵥ u = P⁻¹ *ᵥ d := by
    refine ⟨Fᵀ⁻¹ *ᵥ (P⁻¹ *ᵥ d), ?_⟩
    rw [mulVec_mulVec, mul_nonsing_inv _ ((isUnit_iff_isUnit_det _).mp hFT), one_mulVec]
  have himage : F *ᵥ d = (F * P * Fᵀ) *ᵥ u := by
    rw [← mulVec_mulVec, ← mulVec_mulVec, hu, hP.mulVec_inv]
  rw [himage, (hP.congr hF).misfit_mulVec, ← mulVec_mulVec, ← mulVec_mulVec, hu, hP.mulVec_inv,
    dotProduct_mulVec, ← mulVec_transpose, hu, misfit, dotProduct_comm]

variable [IsStrictOrderedRing K]
include hQ

omit [DecidableEq n] in
theorem add : IsCovariance (P + Q) where
  symm := by rw [IsSymm, transpose_add, hP.symm, hQ.symm]
  pos := by
    intro v hv
    rw [add_mulVec, dotProduct_add]
    exact add_pos (hP.pos v hv) (hQ.pos v hv)

/-- **Two parts of a move** cost what the whole costs, and what they are off the best split. -/
theorem misfit_split (d e : n → K) :
    misfit P d + misfit Q (e - d) = misfit (P + Q) e
      + (misfit P (d - P *ᵥ ((P + Q)⁻¹ *ᵥ e)) + misfit Q (d - P *ᵥ ((P + Q)⁻¹ *ᵥ e))) := by
  set g := (P + Q)⁻¹ *ᵥ e with hg
  set r := d - P *ᵥ g with hr
  have he : P *ᵥ g + Q *ᵥ g = e := by rw [← add_mulVec, hg, (hP.add hQ).mulVec_inv]
  have hd : d = P *ᵥ g + r := by rw [hr, add_sub_cancel]
  have hrest : e - d = Q *ᵥ g + -r := by
    rw [← he, hr]
    abel
  have hneg : misfit Q (-r) = misfit Q r := by
    rw [misfit, misfit, mulVec_neg, neg_dotProduct_neg]
  have hwhole : misfit (P + Q) e = g ⬝ᵥ P *ᵥ g + g ⬝ᵥ Q *ᵥ g := by
    rw [← he, ← add_mulVec, (hP.add hQ).misfit_mulVec, add_mulVec, dotProduct_add]
  rw [hrest, hQ.misfit_add, hneg, dotProduct_neg, hwhole]
  conv_lhs => rw [hd, hP.misfit_add]
  ring

end IsCovariance

/-! ## A scalar observation -/

/-- The variance of an innovation. -/
def innovationVar (A : Matrix n n K) (h : n → K) (r : K) : K := h ⬝ᵥ A *ᵥ h + r

/-- The covariance after an observation of `h` with variance `r`. -/
def correct (A : Matrix n n K) (h : n → K) (r : K) : Matrix n n K :=
  A - (innovationVar A h r)⁻¹ • vecMulVec (A *ᵥ h) (A *ᵥ h)

section Correct

variable [IsStrictOrderedRing K] {A : Matrix n n K} (hA : IsCovariance A) (h : n → K) {r : K}
  (hr : 0 < r)
include hA hr

omit [DecidableEq n] in
theorem innovationVar_pos : 0 < innovationVar A h r := by
  refine add_pos_of_nonneg_of_pos ?_ hr
  by_cases hh : h = 0
  · rw [hh, zero_dotProduct]
  · exact (hA.pos h hh).le

omit [DecidableEq n] [LinearOrder K] [IsStrictOrderedRing K] hA hr in
theorem correct_mulVec (v : n → K) :
    correct A h r *ᵥ v = A *ᵥ v - ((innovationVar A h r)⁻¹ * (A *ᵥ h ⬝ᵥ v)) • (A *ᵥ h) := by
  rw [correct, sub_mulVec, smul_mulVec, vecMulVec_mulVec, op_smul_eq_smul, smul_smul]

omit [DecidableEq n] in
theorem correct_isCovariance : IsCovariance (correct A h r) where
  symm := by
    rw [IsSymm, correct, transpose_sub, transpose_smul, transpose_vecMulVec, hA.symm]
  pos := by
    intro v hv
    have hs := innovationVar_pos hA h hr
    set s := innovationVar A h r with hsdef
    set α := A *ᵥ h ⬝ᵥ v with hα
    -- the part of `v` that the observation does not see
    set g := v - (s⁻¹ * α) • h with hg
    have hhv : h ⬝ᵥ A *ᵥ v = α := by
      rw [hα, dotProduct_mulVec_comm hA.symm, dotProduct_comm]
    have hvh : v ⬝ᵥ A *ᵥ h = α := by rw [hα, dotProduct_comm]
    have hhh : h ⬝ᵥ A *ᵥ h = s - r := by rw [hsdef, innovationVar, add_sub_cancel_right]
    have hquad : v ⬝ᵥ correct A h r *ᵥ v = g ⬝ᵥ A *ᵥ g + r * (s⁻¹ * α) ^ 2 := by
      rw [correct_mulVec, ← hsdef, ← hα, dotProduct_sub, dotProduct_smul, hvh, hg, mulVec_sub,
        mulVec_smul, dotProduct_sub, sub_dotProduct, sub_dotProduct, dotProduct_smul, smul_dotProduct,
        smul_dotProduct, dotProduct_smul, hhv, hvh, hhh]
      simp only [smul_eq_mul]
      field_simp
      ring
    rw [hquad]
    by_cases hg0 : g = 0
    · have hα0 : s⁻¹ * α ≠ 0 := by
        intro h0
        rw [hg, h0, zero_smul, sub_zero] at hg0
        exact hv hg0
      rw [hg0, zero_dotProduct, zero_add]
      positivity
    · exact add_pos_of_pos_of_nonneg (hA.pos g hg0) (by positivity)

/-- An observation adds its own cost to that of a move. -/
theorem misfit_correct (v : n → K) :
    misfit (correct A h r) v = misfit A v + (h ⬝ᵥ v) ^ 2 / r := by
  have hs := innovationVar_pos hA h hr
  have hP := correct_isCovariance hA h hr
  set s := innovationVar A h r with hsdef
  have hhh : h ⬝ᵥ A *ᵥ h = s - r := by rw [hsdef, innovationVar, add_sub_cancel_right]
  set u := A⁻¹ *ᵥ v + (h ⬝ᵥ v / r) • h with hu
  have hAu : A *ᵥ u = v + (h ⬝ᵥ v / r) • (A *ᵥ h) := by
    rw [hu, mulVec_add, hA.mulVec_inv, mulVec_smul]
  have himage : correct A h r *ᵥ u = v := by
    have hdot : A *ᵥ h ⬝ᵥ u = h ⬝ᵥ v + h ⬝ᵥ v / r * (s - r) := by
      rw [dotProduct_comm, dotProduct_mulVec_comm hA.symm, hAu, dotProduct_add, dotProduct_smul, hhh,
        smul_eq_mul]
    have hscale : s⁻¹ * (h ⬝ᵥ v + h ⬝ᵥ v / r * (s - r)) = h ⬝ᵥ v / r := by
      field_simp
      ring
    rw [correct_mulVec, ← hsdef, hdot, hAu, hscale, add_sub_cancel_right]
  calc misfit (correct A h r) v = u ⬝ᵥ correct A h r *ᵥ u := by
        rw [← hP.misfit_mulVec, himage]
    _ = misfit A v + (h ⬝ᵥ v) ^ 2 / r := by
        rw [himage, hu, add_dotProduct, smul_dotProduct, dotProduct_comm, misfit, smul_eq_mul]
        ring

/-- **An observation**: the cost of what is off the prediction and off the observation is that of
the innovation, and of what is off the corrected mean. -/
theorem observe_split (d : n → K) (ν : K) :
    misfit A d + (ν - h ⬝ᵥ d) ^ 2 / r = ν ^ 2 / innovationVar A h r
      + misfit (correct A h r) (d - (ν / innovationVar A h r) • (A *ᵥ h)) := by
  have hs := innovationVar_pos hA h hr
  set s := innovationVar A h r with hsdef
  have hhh : h ⬝ᵥ A *ᵥ h = s - r := by rw [hsdef, innovationVar, add_sub_cancel_right]
  have hmove : d - (ν / s) • (A *ᵥ h) = A *ᵥ (-(ν / s) • h) + d := by
    rw [mulVec_smul, neg_smul]
    abel
  have hmisfit : misfit A (d - (ν / s) • (A *ᵥ h))
      = (ν / s) ^ 2 * (s - r) - 2 * (ν / s) * (h ⬝ᵥ d) + misfit A d := by
    rw [hmove, hA.misfit_add, mulVec_smul, dotProduct_smul, smul_dotProduct, smul_dotProduct, hhh]
    simp only [smul_eq_mul]
    ring
  have hseen : h ⬝ᵥ (d - (ν / s) • (A *ᵥ h)) = h ⬝ᵥ d - ν / s * (s - r) := by
    rw [dotProduct_sub, dotProduct_smul, hhh, smul_eq_mul]
  rw [misfit_correct hA h hr, hmisfit, hseen]
  field_simp
  ring

end Correct

/-! ## Tracks -/

/-- What is known of the state: a mean, and its covariance. -/
structure Belief (n K : Type*) where
  mean : n → K
  cov : Matrix n n K

/-- A transition with its noise, and then an observation of `h` with its variance. -/
structure Step (n K : Type*) where
  F : Matrix n n K
  Q : Matrix n n K
  h : n → K
  z : K
  r : K

/-- A step that can be inverted, with noise on every component and on the observation. -/
structure Step.Regular (s : Step n K) : Prop where
  unit : IsUnit s.F
  noise : IsCovariance s.Q
  var : 0 < s.r

namespace Belief

/-- The prediction. -/
def predict (b : Belief n K) (s : Step n K) : Belief n K where
  mean := s.F *ᵥ b.mean
  cov := s.F * b.cov * s.Fᵀ + s.Q

/-- The belief after an observation. -/
def observe (b : Belief n K) (h : n → K) (z r : K) : Belief n K where
  mean := b.mean + ((z - h ⬝ᵥ b.mean) / innovationVar b.cov h r) • (b.cov *ᵥ h)
  cov := correct b.cov h r

/-- What the observation is off the prediction. -/
def innovation (b : Belief n K) (s : Step n K) : K := s.z - s.h ⬝ᵥ (b.predict s).mean

/-- The variance of the innovation. -/
def stepVar (b : Belief n K) (s : Step n K) : K := innovationVar (b.predict s).cov s.h s.r

/-- The belief after a step. -/
def next (b : Belief n K) (s : Step n K) : Belief n K := (b.predict s).observe s.h s.z s.r

/-- The state before a step, given the one after. -/
noncomputable def back (b : Belief n K) (s : Step n K) (y : n → K) : n → K :=
  b.mean + (b.cov * s.Fᵀ) *ᵥ ((b.predict s).cov⁻¹ *ᵥ (y - (b.predict s).mean))

/-- The cost of the innovations. -/
def innovations (b : Belief n K) : List (Step n K) → K
  | [] => 0
  | s :: ss => b.innovation s ^ 2 / b.stepVar s + (b.next s).innovations ss

/-- The smoothed states, from the last one back. -/
noncomputable def smoothed (b : Belief n K) : List (Step n K) → (n → K) × List (n → K)
  | [] => (b.mean, [])
  | s :: ss =>
      let rest := (b.next s).smoothed ss
      (b.back s rest.1, rest.1 :: rest.2)

end Belief

/-- The cost of the states `ys` after `x`: each off the prediction, and off the observation. -/
noncomputable def pathCost : List (Step n K) → (n → K) → List (n → K) → K
  | s :: ss, x, y :: ys =>
      misfit s.Q (y - s.F *ᵥ x) + (s.z - s.h ⬝ᵥ y) ^ 2 / s.r + pathCost ss y ys
  | _, _, _ => 0

/-- The cost of a trajectory: its first state off the belief, and the path from there. -/
noncomputable def trackCost (b : Belief n K) (ss : List (Step n K)) (x : n → K)
    (ys : List (n → K)) : K :=
  misfit b.cov (x - b.mean) + pathCost ss x ys

section Track

variable [IsStrictOrderedRing K] {b : Belief n K} (hb : IsCovariance b.cov)
include hb

theorem predict_isCovariance {s : Step n K} (hs : s.Regular) : IsCovariance (b.predict s).cov :=
  (hb.congr hs.unit).add hs.noise

theorem next_isCovariance {s : Step n K} (hs : s.Regular) : IsCovariance (b.next s).cov :=
  correct_isCovariance (predict_isCovariance hb hs) s.h hs.var

/-- A state off a belief and off an observation of it. -/
theorem observe_cost {h : n → K} {r : K} (hr : 0 < r) (z : K) (x : n → K) :
    misfit b.cov (x - b.mean) + (z - h ⬝ᵥ x) ^ 2 / r
      = (z - h ⬝ᵥ b.mean) ^ 2 / innovationVar b.cov h r
        + misfit (b.observe h z r).cov (x - (b.observe h z r).mean) := by
  have hobs : z - h ⬝ᵥ x = z - h ⬝ᵥ b.mean - h ⬝ᵥ (x - b.mean) := by
    rw [dotProduct_sub]
    ring
  have hmean : x - (b.observe h z r).mean
      = x - b.mean - ((z - h ⬝ᵥ b.mean) / innovationVar b.cov h r) • (b.cov *ᵥ h) := by
    rw [Belief.observe, sub_add_eq_sub_sub]
  rw [hobs, observe_split hb h hr, hmean]
  rfl

/-- **One step**: two neighbouring states cost the innovation, what the second is off the next
belief, and what the first is off the one that the second gives back. -/
theorem step_split {s : Step n K} (hs : s.Regular) (x y : n → K) :
    misfit b.cov (x - b.mean) + (misfit s.Q (y - s.F *ᵥ x) + (s.z - s.h ⬝ᵥ y) ^ 2 / s.r)
      = b.innovation s ^ 2 / b.stepVar s + misfit (b.next s).cov (y - (b.next s).mean)
        + (misfit (s.F * b.cov * s.Fᵀ) (s.F *ᵥ (x - b.back s y))
          + misfit s.Q (s.F *ᵥ (x - b.back s y))) := by
  have hA := predict_isCovariance hb hs
  set e := y - (b.predict s).mean with he
  have hsplit := (hb.congr hs.unit).misfit_split hs.noise (s.F *ᵥ (x - b.mean)) e
  rw [hb.misfit_congr hs.unit, show s.F * b.cov * s.Fᵀ + s.Q = (b.predict s).cov from rfl] at hsplit
  have hmove : e - s.F *ᵥ (x - b.mean) = y - s.F *ᵥ x := by
    rw [he, mulVec_sub]
    show y - s.F *ᵥ b.mean - (s.F *ᵥ x - s.F *ᵥ b.mean) = _
    abel
  have hback : s.F *ᵥ (x - b.mean) - (s.F * b.cov * s.Fᵀ) *ᵥ ((b.predict s).cov⁻¹ *ᵥ e)
      = s.F *ᵥ (x - b.back s y) := by
    rw [Belief.back, ← he, mul_assoc, ← mulVec_mulVec, ← mulVec_sub]
    congr 1
    rw [sub_add_eq_sub_sub]
  rw [hmove, hback] at hsplit
  rw [← add_assoc, hsplit, add_right_comm, observe_cost hA hs.var]
  rfl

/-- What a first state off the one given back costs. -/
theorem back_split {s : Step n K} (hs : s.Regular) (x y : n → K) :
    let off := misfit (s.F * b.cov * s.Fᵀ) (s.F *ᵥ (x - b.back s y))
      + misfit s.Q (s.F *ᵥ (x - b.back s y))
    0 ≤ off ∧ (off = 0 ↔ x = b.back s y) := by
  intro off
  have hcov := hb.congr hs.unit
  refine ⟨add_nonneg (hcov.misfit_nonneg _) (hs.noise.misfit_nonneg _), ?_, ?_⟩
  · intro hzero
    have hfirst := ((add_eq_zero_iff_of_nonneg (hcov.misfit_nonneg _)
      (hs.noise.misfit_nonneg _)).mp hzero).1
    have himage := hcov.misfit_eq_zero.mp hfirst
    have hinj := mulVec_injective_iff_isUnit.mpr hs.unit
    exact sub_eq_zero.mp (hinj (by rw [himage, mulVec_zero]))
  · intro hx
    simp only [off]
    rw [hx, sub_self, mulVec_zero, hcov.misfit_eq_zero.mpr rfl, hs.noise.misfit_eq_zero.mpr rfl,
      add_zero]

/-- **The innovations are the least cost**, and only the smoothed states cost it. -/
theorem trackCost_spec {ss : List (Step n K)} (hss : ∀ s ∈ ss, s.Regular) (x : n → K)
    {ys : List (n → K)} (hlen : ys.length = ss.length) :
    b.innovations ss ≤ trackCost b ss x ys ∧
      (trackCost b ss x ys = b.innovations ss ↔ (x, ys) = b.smoothed ss) := by
  induction ss generalizing b x ys with
  | nil =>
      obtain rfl := List.length_eq_zero_iff.mp hlen
      simp only [trackCost, pathCost, Belief.innovations, Belief.smoothed, add_zero]
      refine ⟨hb.misfit_nonneg _, ?_⟩
      rw [hb.misfit_eq_zero, sub_eq_zero, Prod.mk.injEq, and_iff_left rfl]
  | cons s ss ih =>
      obtain ⟨hs, hss⟩ := List.forall_mem_cons.mp hss
      cases ys with
      | nil => cases hlen
      | cons y ys =>
          obtain ⟨hle, heq⟩ := ih (next_isCovariance hb hs) hss y (Nat.succ.inj hlen)
          obtain ⟨hoff, hoff0⟩ := back_split hb hs x y
          have hcost : trackCost b (s :: ss) x (y :: ys)
              = b.innovation s ^ 2 / b.stepVar s + trackCost (b.next s) ss y ys
                + (misfit (s.F * b.cov * s.Fᵀ) (s.F *ᵥ (x - b.back s y))
                  + misfit s.Q (s.F *ᵥ (x - b.back s y))) := by
            rw [trackCost, pathCost, ← add_assoc, step_split hb hs, trackCost]
            ring
          simp only [Belief.innovations, Belief.smoothed]
          refine ⟨by linarith, fun h => ?_, fun h => ?_⟩
          · have hrest : trackCost (b.next s) ss y ys = (b.next s).innovations ss := by linarith
            have hzero : misfit (s.F * b.cov * s.Fᵀ) (s.F *ᵥ (x - b.back s y))
                + misfit s.Q (s.F *ᵥ (x - b.back s y)) = 0 := by linarith
            have hsmooth := heq.mp hrest
            rw [← hsmooth, hoff0.mp hzero]
          · obtain ⟨hx, hys⟩ := Prod.mk.inj h
            obtain ⟨hy, hys'⟩ := List.cons.inj hys
            have hrest := heq.mpr (Prod.ext hy hys')
            rw [hcost, hrest, hoff0.mpr (by rw [hx, hy]), add_zero]

end Track

end Kalman
