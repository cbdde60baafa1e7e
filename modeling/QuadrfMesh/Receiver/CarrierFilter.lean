/-
# The carrier filter (`Receiver::smoothSymbol` in `src/lora/receiver.cpp`)

A carrier and its slope as an integrated random walk, filtered over the short-block observations
of a symbol and smoothed back over them.  What the smoother takes out of the window is the carrier
of least squares through the observations it keeps, and no other has as little
(`smoothSymbol_leastSquares`).  The slip search's metric is the least squares of the best carrier
through the observations as the slips move them (`slipCost_isLeast`).
-/
import QuadrfMesh.Lib.Kalman
import QuadrfMesh.Receiver.SlipSearch

open Kalman Matrix

/-- `kf_x_`, `kf_p_` and `kf_t_`. -/
structure CarrierFilter where
  x0 : ℚ
  x1 : ℚ
  p00 : ℚ
  p01 : ℚ
  p11 : ℚ
  tLast : ℚ
  deriving DecidableEq

/-- A carrier observed at a time, with its weight. -/
structure CarrierObs where
  t : ℚ
  z : ℚ
  weight : ℚ
  deriving DecidableEq

/-- Its variance, with the floor under it. -/
def CarrierObs.var (o : CarrierObs) : ℚ := 1 / max o.weight (1 / 10 ^ 9) + 3 / 100 * (3 / 100)

/-- An entry of `sm_x_`, `sm_p_`, `sm_xp_`, `sm_pp_` and `sm_dt_`. -/
structure SmoothEntry where
  x : ℚ × ℚ
  p : ℚ × ℚ × ℚ
  xp : ℚ × ℚ
  pp : ℚ × ℚ × ℚ
  t : ℚ

namespace CarrierFilter

/-- The filter at time `t`, before anything is observed there. -/
def predict (q : ℚ) (k : CarrierFilter) (t : ℚ) : CarrierFilter :=
  let dt := t - k.tLast
  { x0 := k.x0 + k.x1 * dt
    x1 := k.x1
    p00 := k.p00 + 2 * dt * k.p01 + dt * dt * k.p11 + q * dt * dt * dt / 3
    p01 := k.p01 + dt * k.p11 + q * dt * dt / 2
    p11 := k.p11 + q * dt
    tLast := t }

/-- The filter after an observation. -/
def correct (a : CarrierFilter) (o : CarrierObs) : CarrierFilter :=
  let sv := a.p00 + o.var
  let nu := o.z - a.x0
  let k0 := a.p00 / sv
  let k1 := a.p01 / sv
  { x0 := a.x0 + k0 * nu
    x1 := a.x1 + k1 * nu
    p00 := a.p00 - k0 * a.p00
    p01 := a.p01 - k0 * a.p01
    p11 := a.p11 - k1 * a.p01
    tLast := a.tLast }

/-- An observation too far off its prediction. -/
def outlier (a : CarrierFilter) (o : CarrierObs) : Bool :=
  decide (16 * (a.p00 + o.var) < (o.z - a.x0) * (o.z - a.x0))

/-- What is kept of an observation. -/
def entry (a : CarrierFilter) (o : CarrierObs) : SmoothEntry :=
  let k := a.correct o
  { x := (k.x0, k.x1), p := (k.p00, k.p01, k.p11)
    xp := (a.x0, a.x1), pp := (a.p00, a.p01, a.p11), t := o.t }

/-- The forward pass: outliers are left out, but for the first observation. -/
def forward (q : ℚ) (k : CarrierFilter) (first : Bool) :
    List CarrierObs → CarrierFilter × List SmoothEntry
  | [] => (k, [])
  | o :: os =>
      let a := k.predict q o.t
      if a.outlier o && !first then k.forward q false os
      else
        let rest := (a.correct o).forward q false os
        (rest.1, a.entry o :: rest.2)

end CarrierFilter

/-- One step of the backward pass: `e` given the state `xs` at the next entry. -/
def SmoothEntry.back (e next : SmoothEntry) (xs : ℚ × ℚ) : ℚ × ℚ :=
  let dt := next.t - e.t
  let b00 := e.p.1 + dt * e.p.2.1
  let b01 := e.p.2.1
  let b10 := e.p.2.1 + dt * e.p.2.2
  let b11 := e.p.2.2
  let det := next.pp.1 * next.pp.2.2 - next.pp.2.1 * next.pp.2.1
  if |det| < 1 / 10 ^ 18 then e.x
  else
    let i00 := next.pp.2.2 / det
    let i01 := -next.pp.2.1 / det
    let i11 := next.pp.1 / det
    let c00 := b00 * i00 + b01 * i01
    let c01 := b00 * i01 + b01 * i11
    let c10 := b10 * i00 + b11 * i01
    let c11 := b10 * i01 + b11 * i11
    let r0 := xs.1 - next.xp.1
    let r1 := xs.2 - next.xp.2
    (e.x.1 + c00 * r0 + c01 * r1, e.x.2 + c10 * r0 + c11 * r1)

/-- The backward pass. -/
def smoothBack : List SmoothEntry → List (ℚ × ℚ)
  | [] => []
  | [e] => [e.x]
  | e :: next :: es =>
      let rest := smoothBack (next :: es)
      e.back next (rest.headD next.x) :: rest

/-- The observations of a symbol, at the decided offset. -/
def symbolObs (idx : ℕ) (refPred slopePred d : ℚ) (fine : List (ℚ × ℚ × ℚ)) : List CarrierObs :=
  fine.map fun o =>
    { t := idx + o.1, z := refPred + slopePred * o.1 + o.2.1 + d, weight := o.2.2 }

/-- `store`: an entry of `trk_t_` and of `trk_e_`. -/
def store (idx : ℕ) (refPred slopePred t : ℚ) (x : ℚ × ℚ) : ℚ × ℚ :=
  let ts := t - idx
  (ts, x.1 - (refPred + slopePred * ts))

/-- `smoothSymbol`: the filter at the end of the symbol, and `trk_t_` with `trk_e_`. -/
def smoothSymbol (q : ℚ) (k : CarrierFilter) (idx : ℕ) (refPred slopePred d : ℚ)
    (fine : List (ℚ × ℚ × ℚ)) : CarrierFilter × List (ℚ × ℚ) :=
  let pass := k.forward q true (symbolObs idx refPred slopePred d fine)
  if pass.2.length < 2 then (pass.1, [])
  else
    (pass.1, (pass.2.zip (smoothBack pass.2)).map fun ex =>
      store idx refPred slopePred ex.1.t ex.2)

/-! ## What a carrier costs -/

/-- A deviation under a covariance of two components. -/
def misfit2 (p00 p01 p11 : ℚ) (u : ℚ × ℚ) : ℚ :=
  (p11 * u.1 ^ 2 - 2 * p01 * u.1 * u.2 + p00 * u.2 ^ 2) / (p00 * p11 - p01 ^ 2)

/-- A carrier and slope that go from one to the next over `dt`. -/
def walkCost (q dt : ℚ) (s s' : ℚ × ℚ) : ℚ :=
  misfit2 (q * dt * dt * dt / 3) (q * dt * dt / 2) (q * dt) (s'.1 - (s.1 + s.2 * dt), s'.2 - s.2)

/-- The cost of the carriers and slopes `s'` at the observations after `s` at time `t`. -/
def carrierPath (q : ℚ) : ℚ → ℚ × ℚ → List CarrierObs → List (ℚ × ℚ) → ℚ
  | t, s, o :: os, s' :: ss =>
      walkCost q (o.t - t) s s' + (o.z - s'.1) ^ 2 / o.var + carrierPath q o.t s' os ss
  | _, _, _, _ => 0

/-- The cost of a carrier: the first off the filter's prediction, all off the observations, and
each off where the one before leads. -/
def carrierCost (q : ℚ) (k : CarrierFilter) : List CarrierObs → List (ℚ × ℚ) → ℚ
  | o :: os, s :: ss =>
      let a := k.predict q o.t
      misfit2 a.p00 a.p01 a.p11 (s.1 - a.x0, s.2 - a.x1) + (o.z - s.1) ^ 2 / o.var
        + carrierPath q o.t s os ss
  | _, _ => 0

/-- The observations that are no outliers. -/
def keptObs (q : ℚ) (k : CarrierFilter) (first : Bool) : List CarrierObs → List CarrierObs
  | [] => []
  | o :: os =>
      let a := k.predict q o.t
      if a.outlier o && !first then keptObs q k false os
      else o :: keptObs q (a.correct o) false os

/-! ## The filter as beliefs -/

/-- A step of the walk, and an observation of the carrier. -/
def carrierStep (q dt : ℚ) (o : CarrierObs) : Step (Fin 2) ℚ where
  F := !![1, dt; 0, 1]
  Q := !![q * dt * dt * dt / 3, q * dt * dt / 2; q * dt * dt / 2, q * dt]
  h := ![1, 0]
  z := o.z
  r := o.var

/-- A carrier and slope as a state. -/
def toState (s : ℚ × ℚ) : Fin 2 → ℚ := ![s.1, s.2]

/-- The steps of the observations after time `t`. -/
def carrierSteps (q : ℚ) : ℚ → List CarrierObs → List (Step (Fin 2) ℚ)
  | _, [] => []
  | t, o :: os => carrierStep q (o.t - t) o :: carrierSteps q o.t os

theorem CarrierObs.var_pos (o : CarrierObs) : 0 < o.var := by
  have : 0 < max o.weight (1 / 10 ^ 9) := lt_max_of_lt_right (by norm_num)
  rw [CarrierObs.var]
  positivity

/-- Two components: when the diagonal and the determinant are positive. -/
theorem isCovariance_two {a b c : ℚ} (ha : 0 < a) (hdet : 0 < a * c - b ^ 2) :
    IsCovariance !![a, b; b, c] where
  symm := by
    ext i j
    fin_cases i <;> fin_cases j <;> rfl
  pos := by
    intro v hv
    have hquad : v ⬝ᵥ !![a, b; b, c] *ᵥ v
        = ((a * v 0 + b * v 1) ^ 2 + (a * c - b ^ 2) * v 1 ^ 2) / a := by
      simp only [dotProduct, Fin.sum_univ_two, mulVec, of_apply, cons_val_zero, cons_val_one]
      field_simp
      ring
    rw [hquad]
    by_cases h1 : v 1 = 0
    · have h0 : v 0 ≠ 0 := fun h0 => hv (by ext i; fin_cases i <;> assumption)
      rw [h1]
      have : 0 < (a * v 0) ^ 2 := by positivity
      simpa using div_pos (by simpa using this) ha
    · have : 0 < (a * c - b ^ 2) * v 1 ^ 2 := by positivity
      positivity

/-- The inverse of a covariance of two components. -/
theorem inv_mulVec_two {a b c : ℚ} (ha : 0 < a) (hdet : 0 < a * c - b ^ 2) (u : ℚ × ℚ) :
    (!![a, b; b, c] : Matrix (Fin 2) (Fin 2) ℚ)⁻¹ *ᵥ toState u
      = toState ((c * u.1 - b * u.2) / (a * c - b ^ 2), (a * u.2 - b * u.1) / (a * c - b ^ 2)) := by
  have hne := hdet.ne'
  have himage : !![a, b; b, c] *ᵥ toState
      ((c * u.1 - b * u.2) / (a * c - b ^ 2), (a * u.2 - b * u.1) / (a * c - b ^ 2))
        = toState u := by
    ext i
    fin_cases i
    · show a * ((c * u.1 - b * u.2) / (a * c - b ^ 2))
        + (b * ((a * u.2 - b * u.1) / (a * c - b ^ 2)) + 0) = u.1
      rw [add_zero, mul_div_assoc', mul_div_assoc', ← add_div, div_eq_iff hne]
      ring
    · show b * ((c * u.1 - b * u.2) / (a * c - b ^ 2))
        + (c * ((a * u.2 - b * u.1) / (a * c - b ^ 2)) + 0) = u.2
      rw [add_zero, mul_div_assoc', mul_div_assoc', ← add_div, div_eq_iff hne]
      ring
  rw [← himage, (isCovariance_two ha hdet).inv_mulVec]

theorem misfit_two {a b c : ℚ} (ha : 0 < a) (hdet : 0 < a * c - b ^ 2) (u : ℚ × ℚ) :
    misfit !![a, b; b, c] (toState u) = misfit2 a b c u := by
  have hne := hdet.ne'
  rw [misfit, inv_mulVec_two ha hdet, misfit2]
  show u.1 * ((c * u.1 - b * u.2) / (a * c - b ^ 2))
    + (u.2 * ((a * u.2 - b * u.1) / (a * c - b ^ 2)) + 0) = _
  field_simp
  ring

theorem carrierStep_regular {q dt : ℚ} (hq : 0 < q) (hdt : 0 < dt) (o : CarrierObs) :
    (carrierStep q dt o).Regular where
  unit := by
    rw [isUnit_iff_isUnit_det]
    simp [carrierStep, det_fin_two]
  noise := by
    refine isCovariance_two (by positivity) ?_
    have hdet : q * dt * dt * dt / 3 * (q * dt) - (q * dt * dt / 2) ^ 2 = q ^ 2 * dt ^ 4 / 12 := by
      ring
    rw [hdet]
    positivity
  var := o.var_pos

namespace CarrierFilter

/-- What the filter believes. -/
def belief (k : CarrierFilter) : Belief (Fin 2) ℚ where
  mean := toState (k.x0, k.x1)
  cov := !![k.p00, k.p01; k.p01, k.p11]

/-- A filter whose covariance is one. -/
structure Firm (k : CarrierFilter) : Prop where
  p00_pos : 0 < k.p00
  det_pos : 0 < k.p00 * k.p11 - k.p01 ^ 2

theorem Firm.isCovariance {k : CarrierFilter} (hk : k.Firm) : IsCovariance k.belief.cov :=
  isCovariance_two hk.p00_pos hk.det_pos

theorem belief_predict (q : ℚ) (k : CarrierFilter) (o : CarrierObs) :
    (k.predict q o.t).belief = k.belief.predict (carrierStep q (o.t - k.tLast) o) := by
  simp only [belief, Belief.predict, carrierStep, predict, Belief.mk.injEq]
  constructor
  · ext i
    fin_cases i
    · simp [toState, mulVec, dotProduct, Fin.sum_univ_two]
      ring
    · simp [toState, mulVec, dotProduct, Fin.sum_univ_two]
  · have htranspose : !![1, o.t - k.tLast; 0, 1]ᵀ = !![1, 0; o.t - k.tLast, 1] := by
      ext i j
      fin_cases i <;> fin_cases j <;> rfl
    rw [htranspose]
    ext i j
    fin_cases i <;> fin_cases j <;> simp <;> ring

theorem belief_correct (a : CarrierFilter) (o : CarrierObs) :
    (a.correct o).belief = a.belief.observe ![1, 0] o.z o.var := by
  have hmean : ![(1 : ℚ), 0] ⬝ᵥ a.belief.mean = a.x0 := by
    simp [belief, toState, dotProduct, Fin.sum_univ_two]
  have himage : a.belief.cov *ᵥ ![1, 0] = ![a.p00, a.p01] := by
    ext i
    fin_cases i <;> simp [belief, mulVec, dotProduct, Fin.sum_univ_two]
  have hvar : innovationVar a.belief.cov ![1, 0] o.var = a.p00 + o.var := by
    rw [innovationVar, himage]
    simp [dotProduct, Fin.sum_univ_two]
  rw [Belief.observe, Kalman.correct, hmean, himage, hvar]
  simp only [belief, correct, Belief.mk.injEq]
  constructor
  · ext i
    fin_cases i <;> simp [toState] <;> ring
  · ext i j
    fin_cases i <;> fin_cases j <;> simp [vecMulVec] <;> ring

theorem belief_next (q : ℚ) (k : CarrierFilter) (o : CarrierObs) :
    ((k.predict q o.t).correct o).belief = k.belief.next (carrierStep q (o.t - k.tLast) o) := by
  rw [belief_correct, belief_predict]
  rfl

end CarrierFilter

namespace CarrierFilter

/-- Over time a firm filter's prediction stays firm, and no firmer than the walk lets it. -/
theorem Firm.predict {q : ℚ} (hq : 0 < q) {k : CarrierFilter} (hk : k.Firm) {t : ℚ}
    (ht : k.tLast ≤ t) :
    (k.predict q t).Firm ∧
      q ^ 2 * (t - k.tLast) ^ 4 / 12
        ≤ (k.predict q t).p00 * (k.predict q t).p11 - (k.predict q t).p01 ^ 2 := by
  obtain ⟨h00, hdet⟩ := hk
  set dt := t - k.tLast with hdt
  have hdt0 : 0 ≤ dt := sub_nonneg.mpr ht
  have h11 : 0 < k.p11 := by
    by_contra hneg
    have hle := mul_nonpos_of_nonneg_of_nonpos h00.le (not_lt.mp hneg)
    linarith [sq_nonneg k.p01]
  -- where the slope leads, before the walk
  have hmoved : 0 < k.p00 + 2 * dt * k.p01 + dt * dt * k.p11 := by
    have hsq : k.p11 * (k.p00 + 2 * dt * k.p01 + dt * dt * k.p11)
        = k.p00 * k.p11 - k.p01 ^ 2 + (k.p01 + dt * k.p11) ^ 2 := by ring
    refine pos_of_mul_pos_right ?_ h11.le
    rw [hsq]
    positivity
  set m00 := k.p00 + 2 * dt * k.p01 + dt * dt * k.p11 with hm00
  have hm : m00 * k.p11 - (k.p01 + dt * k.p11) ^ 2 = k.p00 * k.p11 - k.p01 ^ 2 := by
    rw [hm00]
    ring
  -- the two parts add more than their determinants
  have hcross : 0 ≤ m00 * (q * dt) + q * dt * dt * dt / 3 * k.p11
      - 2 * (k.p01 + dt * k.p11) * (q * dt * dt / 2) := by
    have hsplit : m00 * (q * dt) + q * dt * dt * dt / 3 * k.p11
        - 2 * (k.p01 + dt * k.p11) * (q * dt * dt / 2)
          = q * dt * (k.p00 + dt * k.p01 + dt * dt * k.p11 / 3) := by
      rw [hm00]
      ring
    have hrest : 0 ≤ k.p00 + dt * k.p01 + dt * dt * k.p11 / 3 := by
      have hsq : k.p11 * (k.p00 + dt * k.p01 + dt * dt * k.p11 / 3)
          = k.p00 * k.p11 - k.p01 ^ 2 + (k.p01 + dt * k.p11 / 2) ^ 2
            + (dt * k.p11) ^ 2 / 12 := by ring
      refine (pos_of_mul_pos_right ?_ h11.le).le
      rw [hsq]
      positivity
    rw [hsplit]
    positivity
  have hlast : (k.predict q t).p00 * (k.predict q t).p11 - (k.predict q t).p01 ^ 2
      = m00 * k.p11 - (k.p01 + dt * k.p11) ^ 2 + q ^ 2 * dt ^ 4 / 12
        + (m00 * (q * dt) + q * dt * dt * dt / 3 * k.p11
          - 2 * (k.p01 + dt * k.p11) * (q * dt * dt / 2)) := by
    simp only [CarrierFilter.predict, ← hdt, hm00]
    ring
  have hfloor : q ^ 2 * dt ^ 4 / 12
      ≤ (k.predict q t).p00 * (k.predict q t).p11 - (k.predict q t).p01 ^ 2 := by
    rw [hlast, hm]
    linarith
  refine ⟨⟨?_, ?_⟩, hfloor⟩
  · have hnoise : 0 ≤ q * dt * dt * dt / 3 := by positivity
    simp only [CarrierFilter.predict, ← hdt, ← hm00]
    linarith
  · rw [hlast, hm]
    have : 0 ≤ q ^ 2 * dt ^ 4 / 12 := by positivity
    linarith

/-- An observation keeps it firm. -/
theorem Firm.correct {a : CarrierFilter} (ha : a.Firm) (o : CarrierObs) : (a.correct o).Firm := by
  obtain ⟨h00, hdet⟩ := ha
  have hvar := o.var_pos
  have hsv : 0 < a.p00 + o.var := add_pos h00 hvar
  have hp00 : (a.correct o).p00 = a.p00 * o.var / (a.p00 + o.var) := by
    simp only [CarrierFilter.correct]
    field_simp
    ring
  have hdet' : (a.correct o).p00 * (a.correct o).p11 - (a.correct o).p01 ^ 2
      = (a.p00 * a.p11 - a.p01 ^ 2) * o.var / (a.p00 + o.var) := by
    simp only [CarrierFilter.correct]
    field_simp
    ring
  constructor
  · rw [hp00]
    positivity
  · rw [hdet']
    positivity

/-- The entries of observations that are all kept. -/
def entries (q : ℚ) : CarrierFilter → List CarrierObs → List SmoothEntry
  | _, [] => []
  | k, o :: os => (k.predict q o.t).entry o :: entries q ((k.predict q o.t).correct o) os

/-- The filter after observations that are all kept. -/
def filtered (q : ℚ) : CarrierFilter → List CarrierObs → CarrierFilter
  | k, [] => k
  | k, o :: os => filtered q ((k.predict q o.t).correct o) os

theorem forward_eq (q : ℚ) (k : CarrierFilter) (first : Bool) (os : List CarrierObs) :
    k.forward q first os
      = (k.filtered q (keptObs q k first os), k.entries q (keptObs q k first os)) := by
  induction os generalizing k first with
  | nil => rfl
  | cons o os ih =>
      simp only [forward, keptObs]
      split_ifs
      · exact ih k false
      · simp only [ih, filtered, entries]

end CarrierFilter

theorem keptObs_sublist (q : ℚ) (k : CarrierFilter) (first : Bool) (os : List CarrierObs) :
    (keptObs q k first os).Sublist os := by
  induction os generalizing k first with
  | nil => exact .slnil
  | cons o os ih =>
      rw [keptObs]
      split_ifs
      · exact (ih k false).cons o
      · exact (ih _ false).cons_cons o

theorem length_smoothBack : ∀ es : List SmoothEntry, (smoothBack es).length = es.length
  | [] => rfl
  | [_] => rfl
  | _ :: next :: es => by rw [smoothBack, List.length_cons, length_smoothBack (next :: es)]; rfl

/-- Observations far enough apart for the smoother. -/
def SpacedBy (gap : ℚ) (os : List CarrierObs) : Prop := os.IsChain fun o o' => o.t + gap ≤ o'.t

section Smoother

variable {q gap : ℚ} (hq : 0 < q) (hgap : 0 < gap) (hfloor : 12 / 10 ^ 18 ≤ q ^ 2 * gap ^ 4)
include hq hgap hfloor

/-- **A step back** gives the state that the belief gives, the determinant being above the floor
where the source gives up. -/
theorem CarrierFilter.Firm.entry_back {a : CarrierFilter} (ha : a.Firm) {o o' : CarrierObs}
    (hat : a.tLast = o.t) (hspace : o.t + gap ≤ o'.t) (x : ℚ × ℚ) :
    toState ((a.entry o).back (((a.correct o).predict q o'.t).entry o') x)
      = (a.correct o).belief.back (carrierStep q (o'.t - o.t) o') (toState x) := by
  set k := a.correct o with hk
  have hkt : k.tLast = o.t := by rw [hk, CarrierFilter.correct, hat]
  obtain ⟨hfirm, hdet⟩ := (ha.correct o).predict hq (t := o'.t) (by rw [← hk, hkt]; linarith)
  rw [← hk, hkt] at hdet
  have hpred : k.belief.predict (carrierStep q (o'.t - o.t) o') = (k.predict q o'.t).belief := by
    rw [CarrierFilter.belief_predict, hkt]
  rw [← hk] at hfirm
  set a' := k.predict q o'.t with ha'
  have hlarge : 1 / 10 ^ 18 ≤ a'.p00 * a'.p11 - a'.p01 * a'.p01 := by
    have hdt : gap ≤ o'.t - o.t := by linarith
    have hmono : q ^ 2 * gap ^ 4 ≤ q ^ 2 * (o'.t - o.t) ^ 4 := by gcongr
    rw [← sq]
    linarith
  have hkeep : ¬|a'.p00 * a'.p11 - a'.p01 * a'.p01| < 1 / 10 ^ 18 :=
    not_lt.mpr (hlarge.trans (le_abs_self _))
  have hoff : toState x - a'.belief.mean = toState (x.1 - a'.x0, x.2 - a'.x1) := by
    ext i
    fin_cases i <;> rfl
  have hne := hfirm.det_pos.ne'
  have hsq : a'.p01 * a'.p01 = a'.p01 ^ 2 := (sq _).symm
  rw [Belief.back, hpred, hoff, CarrierFilter.belief, CarrierFilter.belief,
    inv_mulVec_two hfirm.p00_pos hfirm.det_pos, ← mulVec_mulVec]
  simp only [SmoothEntry.back, CarrierFilter.entry, if_neg hkeep, ← hk]
  ext i
  fin_cases i <;> simp [toState, carrierStep, hsq] <;> field_simp <;> ring

/-- **The backward pass** gives the smoothed states. -/
theorem smoothBack_entries {a : CarrierFilter} (ha : a.Firm) {o : CarrierObs}
    (hat : a.tLast = o.t) {os : List CarrierObs} (hos : SpacedBy gap (o :: os)) :
    ∃ x ys, smoothBack (a.entry o :: (a.correct o).entries q os) = x :: ys ∧
      (a.correct o).belief.smoothed (carrierSteps q o.t os) = (toState x, ys.map toState) := by
  induction os generalizing a o with
  | nil => exact ⟨_, [], rfl, rfl⟩
  | cons o' os ih =>
      obtain ⟨hspace, hos⟩ := List.isChain_cons_cons.mp hos
      have hkt : (a.correct o).tLast = o.t := by rw [CarrierFilter.correct, hat]
      obtain ⟨hfirm, -⟩ := (ha.correct o).predict hq (t := o'.t) (by rw [hkt]; linarith)
      obtain ⟨x, ys, hback, hsmooth⟩ := ih hfirm rfl hos
      have hstep := CarrierFilter.belief_next q (a.correct o) o'
      rw [hkt] at hstep
      refine ⟨(a.entry o).back (((a.correct o).predict q o'.t).entry o') x, x :: ys, ?_, ?_⟩
      · rw [CarrierFilter.entries, smoothBack]
        simp only [hback, List.headD_cons]
      · simp only [carrierSteps, Belief.smoothed]
        rw [← hstep, hsmooth, ha.entry_back hq hgap hfloor hat hspace, List.map_cons]

end Smoother

/-! ## Least squares -/

/-- The cost of the innovations of observations that are all kept. -/
def innovationCost (q : ℚ) : CarrierFilter → List CarrierObs → ℚ
  | _, [] => 0
  | k, o :: os =>
      let a := k.predict q o.t
      (o.z - a.x0) ^ 2 / (a.p00 + o.var) + innovationCost q (a.correct o) os

/-- A state as a carrier and slope. -/
def ofState (v : Fin 2 → ℚ) : ℚ × ℚ := (v 0, v 1)

@[simp] theorem ofState_toState (s : ℚ × ℚ) : ofState (toState s) = s := rfl

@[simp] theorem toState_ofState (v : Fin 2 → ℚ) : toState (ofState v) = v := by
  ext i
  fin_cases i <;> rfl

theorem ofState_comp_toState : ofState ∘ toState = id := rfl

theorem toState_comp_ofState : toState ∘ ofState = id := funext toState_ofState

/-- The carrier of least squares. -/
noncomputable def bestCarrier (q : ℚ) (k : CarrierFilter) : List CarrierObs → List (ℚ × ℚ)
  | [] => []
  | o :: os =>
      let smoothed := ((k.predict q o.t).correct o).belief.smoothed (carrierSteps q o.t os)
      ofState smoothed.1 :: smoothed.2.map ofState

theorem length_smoothed (b : Belief (Fin 2) ℚ) (ss : List (Step (Fin 2) ℚ)) :
    (b.smoothed ss).2.length = ss.length := by
  induction ss generalizing b with
  | nil => rfl
  | cons s ss ih => rw [Belief.smoothed, List.length_cons, ih, List.length_cons]

theorem length_carrierSteps (q t : ℚ) (os : List CarrierObs) :
    (carrierSteps q t os).length = os.length := by
  induction os generalizing t with
  | nil => rfl
  | cons o os ih => rw [carrierSteps, List.length_cons, ih, List.length_cons]

theorem length_bestCarrier (q : ℚ) (k : CarrierFilter) (os : List CarrierObs) :
    (bestCarrier q k os).length = os.length := by
  cases os with
  | nil => rfl
  | cons o os =>
      rw [bestCarrier, List.length_cons, List.length_map, length_smoothed, length_carrierSteps,
        List.length_cons]

theorem innovations_eq {q t : ℚ} {k : CarrierFilter} (hkt : k.tLast = t) (os : List CarrierObs) :
    k.belief.innovations (carrierSteps q t os) = innovationCost q k os := by
  induction os generalizing k t with
  | nil => rfl
  | cons o os ih =>
      have hnext := CarrierFilter.belief_next q k o
      have hpred := CarrierFilter.belief_predict q k o
      rw [hkt] at hnext hpred
      have hinnovation : k.belief.innovation (carrierStep q (o.t - t) o)
          = o.z - (k.predict q o.t).x0 := by
        rw [Belief.innovation, ← hpred]
        simp [carrierStep, CarrierFilter.belief, toState, dotProduct, Fin.sum_univ_two]
      have hvar : k.belief.stepVar (carrierStep q (o.t - t) o) = (k.predict q o.t).p00 + o.var := by
        rw [Belief.stepVar, ← hpred]
        simp [carrierStep, CarrierFilter.belief, innovationVar, mulVec, dotProduct,
          Fin.sum_univ_two]
      rw [carrierSteps, Belief.innovations, hinnovation, hvar, ← hnext,
        ih (t := o.t) rfl, innovationCost]

section Cost

variable {q : ℚ} (hq : 0 < q)
include hq

theorem carrierSteps_regular {t : ℚ} {os : List CarrierObs}
    (htimes : (t :: os.map CarrierObs.t).IsChain (· < ·)) :
    ∀ s ∈ carrierSteps q t os, s.Regular := by
  induction os generalizing t with
  | nil => exact fun s hs => absurd hs List.not_mem_nil
  | cons o os ih =>
      obtain ⟨hlt, htimes⟩ := List.isChain_cons_cons.mp htimes
      rw [carrierSteps, List.forall_mem_cons]
      exact ⟨carrierStep_regular hq (sub_pos.mpr hlt) o, ih htimes⟩

theorem pathCost_eq {t : ℚ} {s : ℚ × ℚ} {os : List CarrierObs} {ss : List (ℚ × ℚ)}
    (htimes : (t :: os.map CarrierObs.t).IsChain (· < ·)) (hlen : ss.length = os.length) :
    pathCost (carrierSteps q t os) (toState s) (ss.map toState) = carrierPath q t s os ss := by
  induction os generalizing t s ss with
  | nil => rw [List.length_eq_zero_iff.mp hlen, carrierSteps, pathCost, carrierPath] <;> simp
  | cons o os ih =>
      cases ss with
      | nil => cases hlen
      | cons s' ss =>
          obtain ⟨hlt, htimes⟩ := List.isChain_cons_cons.mp htimes
          have hdt : 0 < o.t - t := sub_pos.mpr hlt
          have hdet : 0 < q * (o.t - t) * (o.t - t) * (o.t - t) / 3 * (q * (o.t - t))
              - (q * (o.t - t) * (o.t - t) / 2) ^ 2 := by
            have hsq : q * (o.t - t) * (o.t - t) * (o.t - t) / 3 * (q * (o.t - t))
                - (q * (o.t - t) * (o.t - t) / 2) ^ 2 = q ^ 2 * (o.t - t) ^ 4 / 12 := by ring
            rw [hsq]
            positivity
          have hmove : toState s' - (carrierStep q (o.t - t) o).F *ᵥ toState s
              = toState (s'.1 - (s.1 + s.2 * (o.t - t)), s'.2 - s.2) := by
            ext i
            fin_cases i <;> simp [toState, carrierStep, mul_comm]
          have hwalk := misfit_two (by positivity) hdet
            (s'.1 - (s.1 + s.2 * (o.t - t)), s'.2 - s.2)
          have hseen : (carrierStep q (o.t - t) o).h ⬝ᵥ toState s' = s'.1 := by
            simp [carrierStep, toState, dotProduct, Fin.sum_univ_two]
          rw [carrierSteps, List.map_cons, pathCost, ih htimes (Nat.succ.inj hlen), hseen, hmove,
            carrierPath, walkCost, ← hwalk]
          rfl

omit hq in
/-- A carrier costs the first innovation, and a track from what is believed after it. -/
theorem carrierCost_eq {k : CarrierFilter} {o : CarrierObs} (hfirm : (k.predict q o.t).Firm)
    {os : List CarrierObs} {s : ℚ × ℚ} {ss : List (ℚ × ℚ)}
    (hpath : pathCost (carrierSteps q o.t os) (toState s) (ss.map toState)
      = carrierPath q o.t s os ss) :
    let a := k.predict q o.t
    carrierCost q k (o :: os) (s :: ss) = (o.z - a.x0) ^ 2 / (a.p00 + o.var)
      + trackCost (a.correct o).belief (carrierSteps q o.t os) (toState s) (ss.map toState) := by
  intro a
  have hobserve := observe_cost hfirm.isCovariance (h := ![1, 0]) o.var_pos o.z (toState s)
  have hoff : toState s - a.belief.mean = toState (s.1 - a.x0, s.2 - a.x1) := by
    ext i
    fin_cases i <;> rfl
  have hseen : ![(1 : ℚ), 0] ⬝ᵥ toState s = s.1 := by
    simp [toState, dotProduct, Fin.sum_univ_two]
  have hmean : ![(1 : ℚ), 0] ⬝ᵥ a.belief.mean = a.x0 := by
    simp [CarrierFilter.belief, toState, dotProduct, Fin.sum_univ_two]
  have hvar : innovationVar a.belief.cov ![1, 0] o.var = a.p00 + o.var := by
    simp [CarrierFilter.belief, innovationVar, mulVec, dotProduct, Fin.sum_univ_two]
  rw [hoff, hseen, hmean, hvar, ← CarrierFilter.belief_correct, CarrierFilter.belief,
    misfit_two hfirm.p00_pos hfirm.det_pos] at hobserve
  rw [carrierCost, trackCost, hpath, ← add_assoc, ← hobserve]

/-- **The innovations** cost what the best carrier costs, and every other costs more. -/
theorem carrierCost_spec {k : CarrierFilter} (hk : k.Firm) {os : List CarrierObs}
    (hafter : ∀ t ∈ (os.map CarrierObs.t).head?, k.tLast ≤ t)
    (htimes : (os.map CarrierObs.t).IsChain (· < ·)) :
    carrierCost q k os (bestCarrier q k os) = innovationCost q k os ∧
      ∀ ss, ss.length = os.length → ss ≠ bestCarrier q k os →
        innovationCost q k os < carrierCost q k os ss := by
  cases os with
  | nil =>
      refine ⟨rfl, fun ss hlen hne => absurd ?_ hne⟩
      rw [List.length_eq_zero_iff.mp hlen, bestCarrier]
  | cons o os =>
      obtain ⟨hfirm, -⟩ := hk.predict hq (hafter o.t rfl)
      set b := ((k.predict q o.t).correct o).belief with hb
      set steps := carrierSteps q o.t os with hsteps
      have htrack : ∀ (x : Fin 2 → ℚ) (ys : List (Fin 2 → ℚ)), ys.length = os.length →
          b.innovations steps ≤ trackCost b steps x ys ∧
            (trackCost b steps x ys = b.innovations steps ↔ (x, ys) = b.smoothed steps) := by
        intro x ys hlen
        exact trackCost_spec (hfirm.correct o).isCovariance (carrierSteps_regular hq htimes) x
          (by rw [hlen, length_carrierSteps])
      have hinnovations : b.innovations steps = innovationCost q ((k.predict q o.t).correct o) os :=
        innovations_eq rfl os
      have hlen : (b.smoothed steps).2.length = os.length := by
        rw [length_smoothed, length_carrierSteps]
      constructor
      · have hbest := ((htrack (b.smoothed steps).1 _ hlen).2).mpr rfl
        have hback : ((b.smoothed steps).2.map ofState).map toState = (b.smoothed steps).2 := by
          rw [List.map_map, toState_comp_ofState, List.map_id]
        rw [bestCarrier, carrierCost_eq hfirm (pathCost_eq hq htimes (by rw [List.length_map, hlen])),
          ← hb, ← hsteps, toState_ofState, hback, hbest, hinnovations, innovationCost]
      · intro ss hss hne
        cases ss with
        | nil => cases hss
        | cons s ss =>
            have hss' : ss.length = os.length := Nat.succ.inj hss
            obtain ⟨hle, heq⟩ := htrack (toState s) (ss.map toState) (by rw [List.length_map, hss'])
            rw [carrierCost_eq hfirm (pathCost_eq hq htimes hss'), innovationCost, ← hinnovations]
            refine add_lt_add_right (lt_of_le_of_ne hle fun h => hne ?_) _
            have hsmooth := heq.mp h.symm
            rw [bestCarrier, ← hb, ← hsteps, ← hsmooth, ofState_toState, List.map_map,
              ofState_comp_toState, List.map_id]

end Cost

theorem SpacedBy.times {gap : ℚ} (hgap : 0 < gap) {os : List CarrierObs} (hos : SpacedBy gap os) :
    (os.map CarrierObs.t).IsChain (· < ·) := by
  rw [List.isChain_map]
  exact hos.imp fun o o' h => by linarith

theorem SpacedBy.sublist {gap : ℚ} (hgap : 0 < gap) {os os' : List CarrierObs}
    (hos : SpacedBy gap os) (hsub : os'.Sublist os) : SpacedBy gap os' := by
  have htrans : IsTrans CarrierObs fun o o' => o.t + gap ≤ o'.t :=
    ⟨fun a b c hab hbc => by linarith⟩
  rw [SpacedBy, List.isChain_iff_pairwise] at hos ⊢
  exact hos.sublist hsub

/-- The backward pass over a whole symbol. -/
theorem smoothBack_eq {q gap : ℚ} (hq : 0 < q) (hgap : 0 < gap)
    (hfloor : 12 / 10 ^ 18 ≤ q ^ 2 * gap ^ 4) {k : CarrierFilter} (hk : k.Firm)
    {os : List CarrierObs} (hafter : ∀ t ∈ (os.map CarrierObs.t).head?, k.tLast ≤ t)
    (hos : SpacedBy gap os) : smoothBack (k.entries q os) = bestCarrier q k os := by
  cases os with
  | nil => rfl
  | cons o os =>
      obtain ⟨hfirm, -⟩ := hk.predict hq (hafter o.t rfl)
      obtain ⟨x, ys, hback, hsmooth⟩ := smoothBack_entries hq hgap hfloor hfirm rfl hos
      rw [CarrierFilter.entries, hback, bestCarrier, hsmooth, ofState_toState, List.map_map,
        ofState_comp_toState, List.map_id]

theorem zip_entries (q : ℚ) (k : CarrierFilter) (os : List CarrierObs) (ss : List (ℚ × ℚ))
    (f : ℚ → ℚ × ℚ → ℚ × ℚ) :
    ((k.entries q os).zip ss).map (fun es => f es.1.t es.2)
      = (os.zip ss).map fun s => f s.1.t s.2 := by
  induction os generalizing k ss with
  | nil => rfl
  | cons o os ih =>
      cases ss with
      | nil => rfl
      | cons s ss =>
          simp only [CarrierFilter.entries, List.zip_cons_cons, List.map_cons, ih]
          rfl

theorem CarrierFilter.length_entries (q : ℚ) (k : CarrierFilter) (os : List CarrierObs) :
    (k.entries q os).length = os.length := by
  induction os generalizing k with
  | nil => rfl
  | cons o os ih => rw [entries, List.length_cons, ih, List.length_cons]

theorem CarrierFilter.Firm.filtered {q : ℚ} (hq : 0 < q) {k : CarrierFilter} (hk : k.Firm)
    {os : List CarrierObs} (hafter : ∀ t ∈ (os.map CarrierObs.t).head?, k.tLast ≤ t)
    (htimes : (os.map CarrierObs.t).IsChain (· < ·)) : (k.filtered q os).Firm := by
  induction os generalizing k with
  | nil => exact hk
  | cons o os ih =>
      have hfirm := (hk.predict hq (hafter o.t rfl)).1.correct o
      rw [List.map_cons, List.isChain_cons] at htimes
      exact ih hfirm (fun t ht => (htimes.1 t ht).le) htimes.2

/-- **The smoother takes out the carrier of least squares**: what `trk_e_` holds is a carrier
through the observations that are kept, less the ramp, and any other carrier costs more.  The
filter goes on with a covariance. -/
theorem smoothSymbol_leastSquares {q gap : ℚ} (hq : 0 < q) (hgap : 0 < gap)
    (hfloor : 12 / 10 ^ 18 ≤ q ^ 2 * gap ^ 4) {k : CarrierFilter} (hk : k.Firm) {idx : ℕ}
    (refPred slopePred d : ℚ) {fine : List (ℚ × ℚ × ℚ)}
    (hafter : ∀ o ∈ fine, k.tLast ≤ idx + o.1)
    (hspaced : fine.IsChain fun o o' => o.1 + gap ≤ o'.1) :
    let obs := keptObs q k true (symbolObs idx refPred slopePred d fine)
    let smoothed := smoothSymbol q k idx refPred slopePred d fine
    smoothed.1.Firm ∧ (2 ≤ obs.length → ∃ ss : List (ℚ × ℚ), ss.length = obs.length ∧
      smoothed.2 = (obs.zip ss).map (fun s => store idx refPred slopePred s.1.t s.2) ∧
      ∀ ss' : List (ℚ × ℚ), ss'.length = obs.length → ss' ≠ ss →
        carrierCost q k obs ss < carrierCost q k obs ss') := by
  intro obs smoothed
  have hsub := keptObs_sublist q k true (symbolObs idx refPred slopePred d fine)
  have hall : SpacedBy gap (symbolObs idx refPred slopePred d fine) := by
    rw [SpacedBy, symbolObs, List.isChain_map]
    exact hspaced.imp fun o o' h => by simp only; linarith
  have hobs : SpacedBy gap obs := hall.sublist hgap hsub
  have htimes := hobs.times hgap
  have hhead : ∀ t ∈ (obs.map CarrierObs.t).head?, k.tLast ≤ t := by
    intro t ht
    obtain ⟨o, ho, rfl⟩ := List.mem_map.mp (List.mem_of_mem_head? ht)
    obtain ⟨f, hf, rfl⟩ := List.mem_map.mp (hsub.subset ho)
    exact hafter f hf
  have hpass := k.forward_eq q true (symbolObs idx refPred slopePred d fine)
  have hfilter : smoothed.1 = k.filtered q obs := by
    simp only [smoothed, smoothSymbol, hpass]
    split_ifs <;> rfl
  refine ⟨hfilter ▸ hk.filtered hq hhead htimes, fun htwo => ?_⟩
  refine ⟨bestCarrier q k obs, length_bestCarrier q k obs, ?_, fun ss' hlen hne => ?_⟩
  · have hlen : ¬(k.entries q obs).length < 2 := by
      rw [CarrierFilter.length_entries]
      omega
    simp only [smoothed, smoothSymbol, hpass]
    rw [if_neg hlen, smoothBack_eq hq hgap hfloor hk hhead hobs]
    exact zip_entries q k obs _ (store idx refPred slopePred)
  · obtain ⟨hbest, hleast⟩ := carrierCost_spec hq hk hhead htimes
    rw [hbest]
    exact hleast ss' hlen hne

theorem smoothSymbol_leastSquares_three :
    let k : CarrierFilter := { x0 := 5, x1 := 0, p00 := 1, p01 := 0, p11 := 2, tLast := 0 }
    let fine := [(1 / 8, 1, 100), (1 / 2, 2, 100), (7 / 8, 1, 100)]
    let obs := keptObs 1 k true (symbolObs 0 5 0 0 fine)
    2 ≤ obs.length ∧ ∃ ss : List (ℚ × ℚ), ss.length = obs.length ∧
      (smoothSymbol 1 k 0 5 0 0 fine).2 = (obs.zip ss).map (fun s => store 0 5 0 s.1.t s.2) ∧
      ∀ ss' : List (ℚ × ℚ), ss'.length = obs.length → ss' ≠ ss →
        carrierCost 1 k obs ss < carrierCost 1 k obs ss' := by
  intro k fine obs
  have htwo : 2 ≤ obs.length := by decide +kernel
  have hk : k.Firm := ⟨by norm_num [k], by norm_num [k]⟩
  have h := @smoothSymbol_leastSquares 1 (1 / 4) (by norm_num) (by norm_num) (by norm_num) k hk 0 5 0 0
    fine (by norm_num [fine, k]) (by norm_num [fine])
  exact ⟨htwo, h.2 htwo⟩

/-! ## The metric of the slip search -/

/-- A symbol's observations, moved by its slip. -/
def movedObs (slipObs : List SlipObs) (so : SlipSym × ℤ) : List CarrierObs :=
  (so.1.obs slipObs).map fun ob => { t := ob.t, z := ob.carrier + so.2, weight := ob.weight }

/-- The observations of a path. -/
def pathObs (slipObs : List SlipObs) (sos : List (SlipSym × ℤ)) : List CarrierObs :=
  sos.flatMap (movedObs slipObs)

/-- The symbols at which a path at offset `o` goes to another. -/
def slipCount : ℤ → List (SlipSym × ℤ) → ℕ
  | _, [] => 0
  | o, so :: sos => (if so.2 = o then 0 else 1) + slipCount so.2 sos

/-- The filter that a path starts from. -/
def pathPrior (p : LoraParams) : CarrierFilter where
  x0 := 0
  x1 := 0
  p00 := (SlipCov.initial (sigmaW p)).p00
  p01 := (SlipCov.initial (sigmaW p)).p01
  p11 := (SlipCov.initial (sigmaW p)).p11
  tLast := (SlipCov.initial (sigmaW p)).tLast

namespace SlipFilter

/-- A path's filter is a carrier filter. -/
def carrier (k : SlipFilter) : CarrierFilter where
  x0 := k.f
  x1 := k.fd
  p00 := k.cov.p00
  p01 := k.cov.p01
  p11 := k.cov.p11
  tLast := k.cov.tLast

theorem innovationCost_append (q : ℚ) (k : CarrierFilter) (os os' : List CarrierObs) :
    innovationCost q k (os ++ os')
      = innovationCost q k os + innovationCost q (k.filtered q os) os' := by
  induction os generalizing k with
  | nil => exact (zero_add _).symm
  | cons o os ih =>
      rw [List.cons_append, innovationCost, ih, innovationCost, CarrierFilter.filtered, add_assoc]

/-- An observation of a path is one of its carrier, moved by the slip. -/
theorem carrier_observe (q : ℚ) (k : SlipFilter) (ob : SlipObs) :
    let o : CarrierObs := { t := ob.t, z := ob.carrier + k.o, weight := ob.weight }
    let a := k.carrier.predict q o.t
    (k.observe q ob).carrier = a.correct o ∧
      (k.observe q ob).cost = k.cost + (o.z - a.x0) ^ 2 / (a.p00 + o.var) := by
  intro o a
  have hvar : a.p00 + o.var = a.p00 + 1 / max ob.weight (1 / 10 ^ 9) + kObsFloor := by
    rw [CarrierObs.var, add_assoc]
    rfl
  simp only [observe, carrier, SlipCov.observe, CarrierFilter.correct, hvar]
  exact ⟨rfl, rfl⟩

theorem carrier_foldl_observe (q : ℚ) (k : SlipFilter) (obs : List SlipObs) :
    let moved := obs.map fun ob =>
      ({ t := ob.t, z := ob.carrier + k.o, weight := ob.weight } : CarrierObs)
    (obs.foldl (observe q) k).carrier = k.carrier.filtered q moved ∧
      (obs.foldl (observe q) k).o = k.o ∧
      (obs.foldl (observe q) k).cost = k.cost + innovationCost q k.carrier moved := by
  induction obs generalizing k with
  | nil => exact ⟨rfl, rfl, (add_zero _).symm⟩
  | cons ob obs ih =>
      obtain ⟨hcarrier, hcost⟩ := carrier_observe q k ob
      obtain ⟨hrest, ho, hmore⟩ := ih (k.observe q ob)
      have hkept : (k.observe q ob).o = k.o := rfl
      rw [hkept] at hrest ho hmore
      simp only [List.foldl_cons, List.map_cons]
      refine ⟨?_, ho, ?_⟩
      · rw [hrest, hcarrier, CarrierFilter.filtered]
      · rw [hmore, hcarrier, hcost, innovationCost, add_assoc]

/-- The symbols of a path: what it costs is its slips, and the innovations of its carrier. -/
theorem cost_foldl_symbol (q : ℚ) (slipObs : List SlipObs) (k : SlipFilter)
    (sos : List (SlipSym × ℤ)) :
    (sos.foldl (symbol q slipObs) k).cost
      = k.cost + kSlipCost * slipCount k.o sos
        + innovationCost q k.carrier (pathObs slipObs sos) := by
  induction sos generalizing k with
  | nil => simp [slipCount, pathObs, innovationCost]
  | cons so sos ih =>
      obtain ⟨hcarrier, ho, hcost⟩ := carrier_foldl_observe q
        { k with o := so.2, cost := k.cost + if so.2 = k.o then 0 else kSlipCost }
        (so.1.obs slipObs)
      have hslip : (if so.2 = k.o then 0 else kSlipCost)
          = kSlipCost * ((if so.2 = k.o then 0 else 1 : ℕ) : ℚ) := by
        split_ifs <;> simp
      have hpath : pathObs slipObs (so :: sos) = movedObs slipObs so ++ pathObs slipObs sos :=
        List.flatMap_cons
      rw [List.foldl_cons, ih, symbol, hcarrier, ho, hcost, hpath, innovationCost_append, slipCount,
        hslip, Nat.cast_add, mul_add]
      simp only [carrier, movedObs]
      ring

end SlipFilter

theorem pathPrior_firm {p : LoraParams}
    (hq : 0 < wanderProcessQ (symbolTime p) p.wanderIrwQ (sigmaW p)) (hcap : 0 ≤ p.wanderCapHz) :
    (pathPrior p).Firm := by
  have hsymbol : 0 < symbolTime p := by
    by_contra hneg
    rw [wanderProcessQ, if_pos (Or.inr (not_lt.mp hneg))] at hq
    exact lt_irrefl _ hq
  have hsigma : 0 ≤ sigmaW p := by
    rw [sigmaW, wanderChipsPerSymbol]
    split_ifs with hrate
    · exact le_rfl
    · have := not_le.mp hrate
      positivity
  refine ⟨by norm_num [pathPrior, SlipCov.initial], ?_⟩
  simp only [pathPrior, SlipCov.initial]
  have : 0 < (4 * sigmaW p + 1) ^ 2 := by positivity
  linarith

/-- **The metric of a path is the least there is** for a carrier through its observations as the
slips move them, with what each slip costs. -/
theorem slipCost_isLeast {p : LoraParams}
    (hq : 0 < wanderProcessQ (symbolTime p) p.wanderIrwQ (sigmaW p)) (hcap : 0 ≤ p.wanderCapHz)
    (slipObs : List SlipObs) (slipSyms : List SlipSym) (offs : List ℤ)
    (hstart : ∀ o ∈ pathObs slipObs (slipSyms.zip offs), 0 ≤ o.t)
    (htimes : ((pathObs slipObs (slipSyms.zip offs)).map CarrierObs.t).IsChain (· < ·)) :
    let q := wanderProcessQ (symbolTime p) p.wanderIrwQ (sigmaW p)
    let obs := pathObs slipObs (slipSyms.zip offs)
    IsLeast {c | ∃ ss : List (ℚ × ℚ), ss.length = obs.length ∧
      c = kSlipCost * slipCount 0 (slipSyms.zip offs) + carrierCost q (pathPrior p) obs ss}
      (slipCost p slipObs slipSyms offs) := by
  intro q obs
  have hfirm := pathPrior_firm hq hcap
  have hafter : ∀ t ∈ (obs.map CarrierObs.t).head?, (pathPrior p).tLast ≤ t := by
    intro t ht
    obtain ⟨o, ho, rfl⟩ := List.mem_map.mp (List.mem_of_mem_head? ht)
    exact hstart o ho
  have hcost : slipCost p slipObs slipSyms offs
      = kSlipCost * slipCount 0 (slipSyms.zip offs) + innovationCost q (pathPrior p) obs := by
    have hfold := SlipFilter.cost_foldl_symbol q slipObs { cov := SlipCov.initial (sigmaW p) }
      (slipSyms.zip offs)
    rw [zero_add] at hfold
    exact hfold
  obtain ⟨hbest, hleast⟩ := carrierCost_spec hq hfirm hafter htimes
  rw [hcost]
  constructor
  · exact ⟨bestCarrier q (pathPrior p) obs, length_bestCarrier q _ obs, by rw [hbest]⟩
  · rintro c ⟨ss, hlen, rfl⟩
    by_cases hss : ss = bestCarrier q (pathPrior p) obs
    · rw [hss, hbest]
    · exact add_le_add_right (hleast ss hlen hss).le _

theorem slipCost_isLeast_two :
    let p : LoraParams := { wanderRateHzPerS := 75000, wanderIrwQ := 2 * 10 ^ 12 }
    let slipObs : List SlipObs := [⟨1 / 4, 3, 10⟩, ⟨3 / 4, 3, 10⟩, ⟨5 / 4, 2, 10⟩]
    let sos : List (SlipSym × ℤ) := [(⟨0, 2, false⟩, 0), (⟨2, 3, false⟩, 1)]
    let q := wanderProcessQ (symbolTime p) p.wanderIrwQ (sigmaW p)
    IsLeast {c | ∃ ss : List (ℚ × ℚ), ss.length = (pathObs slipObs sos).length ∧
      c = kSlipCost * slipCount 0 sos + carrierCost q (pathPrior p) (pathObs slipObs sos) ss}
      (slipCost p slipObs (sos.map Prod.fst) (sos.map Prod.snd)) :=
  slipCost_isLeast (by decide +kernel) (by decide +kernel)
    [⟨1 / 4, 3, 10⟩, ⟨3 / 4, 3, 10⟩, ⟨5 / 4, 2, 10⟩] [⟨0, 2, false⟩, ⟨2, 3, false⟩] [0, 1]
    (by decide +kernel) (by decide +kernel)
