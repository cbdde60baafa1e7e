/-
# The carrier fit (`src/lora/wander.cpp`)

`legendreAt`, `ridgeSolve` and the trajectory they make.  `ridgeSolve` eliminates on the normal
matrix with the identity beside it; what it returns is the only minimum of the ridge cost, with
the inverse of the normal matrix (`ridgeSolve_optimal`), and it refuses only where the data
leave some combination of the coefficients free (`exists_of_ridgeSolve_eq_none`).  The slope is
the derivative of the trajectory (`WanderFitOf.hasDerivAt_eval`), its variance is never negative
(`WanderFitOf.fits_var_nonneg`).
-/
import QuadrfMesh.Lib.Elimination
import QuadrfMesh.Lib.LeastSquares

open Finset LeastSquares

/-! ## Legendre polynomials -/

section Legendre

variable {P : Type} [Field P]

/-- `p[i]` of `legendreAt`. -/
def legendre (x : P) : ℕ → P
  | 0 => 1
  | 1 => x
  | i + 2 => ((2 * (i + 2 : ℕ) - 1) * x * legendre x (i + 1) - ((i + 2 : ℕ) - 1) * legendre x i)
      / (i + 2 : ℕ)

/-- `dp[i]` of `legendreAt`. -/
def legendreSlope (x : P) : ℕ → P
  | 0 => 0
  | 1 => 1
  | i + 2 => legendreSlope x i + (2 * (i + 2 : ℕ) - 1) * legendre x (i + 1)

variable [CharZero P] (x : P)

theorem legendre_succ_succ (i : ℕ) :
    (i + 2 : P) * legendre x (i + 2)
      = (2 * i + 3) * x * legendre x (i + 1) - (i + 1) * legendre x i := by
  have hne : ((i + 2 : ℕ) : P) ≠ 0 := Nat.cast_ne_zero.mpr (by omega)
  rw [legendre]
  push_cast at hne ⊢
  field_simp
  ring

/-- Two identities of the slopes, each carrying the other from order to order. -/
theorem legendreSlope_identities (i : ℕ) :
    x * legendreSlope x (i + 1) - legendreSlope x i = (i + 1) * legendre x (i + 1) ∧
      (x ^ 2 - 1) * legendreSlope x (i + 1) = (i + 1) * (x * legendre x (i + 1) - legendre x i) := by
  induction i with
  | zero =>
      simp only [legendreSlope, legendre, Nat.cast_zero, zero_add]
      constructor <;> ring
  | succ i ih =>
      obtain ⟨hback, hsquare⟩ := ih
      have hnext := legendre_succ_succ x i
      have hslope : legendreSlope x (i + 2)
          = x * legendreSlope x (i + 1) + (i + 2) * legendre x (i + 1) := by
        rw [legendreSlope]
        push_cast
        linear_combination -hback
      constructor
      · rw [hslope]
        push_cast
        linear_combination hsquare - hnext
      · rw [hslope]
        push_cast
        linear_combination x * hsquare - x * hnext

/-- **The slopes are the derivatives.** -/
theorem hasDerivAt_legendre (x : ℝ) (i : ℕ) :
    HasDerivAt (fun x => legendre x i) (legendreSlope x i) x := by
  induction i using Nat.twoStepInduction with
  | zero => exact hasDerivAt_const x 1
  | one => exact hasDerivAt_id x
  | more i ih ih' =>
      have hproduct := (((hasDerivAt_id x).const_mul (2 * ((i + 2 : ℕ) : ℝ) - 1)).mul ih').sub
        (ih.const_mul (((i + 2 : ℕ) : ℝ) - 1)) |>.div_const ((i + 2 : ℕ) : ℝ)
      refine hproduct.congr_deriv ?_
      have hne : ((i : ℝ) + 2) ≠ 0 := by positivity
      have hback := (legendreSlope_identities x i).1
      rw [legendreSlope]
      push_cast
      rw [div_eq_iff hne]
      simp only [id_eq, mul_one]
      linear_combination (2 * i + 3) * hback

end Legendre

/-! ## The ridge solver -/

section Ridge

variable {P : Type} [Field P] [LinearOrder P]

/-- `ridgeSolve`: the coefficients and their covariance, unless a pivot is as good as zero. -/
def ridgeSolve (a : ℕ → ℕ → P) (y w : ℕ → P) (rows np : ℕ) (priorInv : ℕ → P) :
    Option ((ℕ → P) × (ℕ → ℕ → P)) :=
  let kMax := 8
  if np < 1 ∨ kMax < np then none
  else
    let fit : Problem P := ⟨rows, np, a, y, w, priorInv⟩
    (Elimination.run (1 / 10 ^ 300) np (Elimination.augmented np fit.normal)).map fun m =>
      (fun i => ∑ j ∈ range np, m i (np + j) * fit.moment j, fun i j => m i (np + j))

variable [IsStrictOrderedRing P] {a : ℕ → ℕ → P} {y w : ℕ → P} {rows np : ℕ} {priorInv : ℕ → P}
  {x : ℕ → P} {cov : ℕ → ℕ → P} (hsolve : ridgeSolve a y w rows np priorInv = some (x, cov))
include hsolve

/-- What `ridgeSolve` returns: the inverse, and the inverse on the moments. -/
theorem ridgeSolve_cases :
    (∀ i < np, ∀ j < np,
      ∑ k ∈ range np, cov i k * (⟨rows, np, a, y, w, priorInv⟩ : Problem P).normal k j
          = (if i = j then 1 else 0) ∧
        ∑ k ∈ range np, (⟨rows, np, a, y, w, priorInv⟩ : Problem P).normal i k * cov k j
          = (if i = j then 1 else 0)) ∧
      ∀ i, x i = ∑ j ∈ range np, cov i j * (⟨rows, np, a, y, w, priorInv⟩ : Problem P).moment j := by
  have htiny : (0 : P) < 1 / 10 ^ 300 := by positivity
  simp only [ridgeSolve] at hsolve
  split_ifs at hsolve
  obtain ⟨m, hm, hx⟩ := Option.map_eq_some_iff.mp hsolve
  obtain ⟨rfl, rfl⟩ := Prod.mk.inj hx
  exact ⟨fun i hi j hj => Elimination.run_inverse htiny hm hi hj, fun i => rfl⟩

/-- What it returns solves the normal equations. -/
theorem ridgeSolve_normal {i : ℕ} (hi : i < np) :
    ∑ j ∈ range np, (⟨rows, np, a, y, w, priorInv⟩ : Problem P).normal i j * x j
      = (⟨rows, np, a, y, w, priorInv⟩ : Problem P).moment i := by
  obtain ⟨hinv, hx⟩ := ridgeSolve_cases hsolve
  simp only [hx]
  exact apply_inverse hi (fun j hj => (hinv i hi j hj).2) _

variable (hw : ∀ r < rows, 0 ≤ w r) (hprior : ∀ i < np, 0 ≤ priorInv i)
include hw hprior

/-- What it returns costs least. -/
theorem ridgeSolve_least :
    let fit : Problem P := ⟨rows, np, a, y, w, priorInv⟩
    (∀ z, fit.cost x ≤ fit.cost z) ∧
      (∀ z, fit.cost z = fit.cost x → ∀ i < np, z i = x i) ∧
      ∀ i < np, ∀ j < np,
        ∑ k ∈ range np, cov i k * fit.normal k j = (if i = j then 1 else 0) ∧
          ∑ k ∈ range np, fit.normal i k * cov k j = if i = j then 1 else 0 := by
  intro fit
  have hfit : fit.Nonneg := ⟨hw, hprior⟩
  have hnormal : ∀ i < fit.n, ∑ j ∈ range fit.n, fit.normal i j * x j = fit.moment i :=
    fun i hi => ridgeSolve_normal hsolve hi
  obtain ⟨hinv, -⟩ := ridgeSolve_cases hsolve
  exact ⟨hfit.cost_le hnormal, fun z hz i hi =>
    hfit.eq_of_cost_eq hnormal (fun i hi j hj => (hinv i hi j hj).1) hz hi, hinv⟩

/-- The variance the covariance gives any combination is not negative. -/
theorem ridgeSolve_var_nonneg (v : ℕ → P) :
    0 ≤ ∑ i ∈ range np, ∑ j ∈ range np, v i * cov i j * v j := by
  obtain ⟨hinv, -⟩ := ridgeSolve_cases hsolve
  set fit : Problem P := ⟨rows, np, a, y, w, priorInv⟩
  have hfit : fit.Nonneg := ⟨hw, hprior⟩
  -- the combination, through the inverse
  set u : ℕ → P := fun i => ∑ j ∈ range np, cov i j * v j with hu
  have hback : ∀ i < np, ∑ j ∈ range np, fit.normal i j * u j = v i := fun i hi =>
    apply_inverse hi (fun j hj => (hinv i hi j hj).2) v
  calc (0 : P) ≤ fit.spread u := hfit.spread_nonneg u
    _ = ∑ i ∈ range np, u i * v i := by
        rw [fit.spread_eq]
        exact sum_congr rfl fun i hi => by rw [hback i (mem_range.mp hi)]
    _ = ∑ i ∈ range np, ∑ j ∈ range np, v i * cov i j * v j := by
        refine sum_congr rfl fun i _ => ?_
        rw [hu, sum_mul]
        exact sum_congr rfl fun j _ => by ring

omit hsolve hw hprior in
/-- **The solver refuses only** where the data leave some combination of the coefficients free. -/
theorem exists_of_ridgeSolve_eq_none (hnp : 1 ≤ np) (hnp' : np ≤ 8)
    (hnone : ridgeSolve a y w rows np priorInv = none) :
    ∃ v : ℕ → P, (∀ i < np, |v i| ≤ 1) ∧ (∃ i < np, |v i| = 1) ∧
      (⟨rows, np, a, y, w, priorInv⟩ : Problem P).spread v < np / 10 ^ 300 := by
  have htiny : (0 : P) < 1 / 10 ^ 300 := by positivity
  set fit : Problem P := ⟨rows, np, a, y, w, priorInv⟩ with hfit
  have hrun : Elimination.run (1 / 10 ^ 300) np (Elimination.augmented np fit.normal) = none := by
    simp only [ridgeSolve] at hnone
    rw [if_neg (by omega)] at hnone
    exact Option.map_eq_none_iff.mp hnone
  obtain ⟨u, col, hcol, hone, hsmall⟩ := Elimination.exists_of_run_eq_none htiny hrun
  -- scaled by its largest coefficient
  obtain ⟨k, hk, hmax⟩ := exists_max_image (range np) (fun i => |u i|) ⟨col, mem_range.mpr hcol⟩
  have hlarge : 1 ≤ |u k| := by
    have := hmax col (mem_range.mpr hcol)
    rwa [hone, abs_one] at this
  have hpos : 0 < |u k| := one_pos.trans_le hlarge
  set v : ℕ → P := fun i => u i / |u k| with hv
  have habs : ∀ i, |v i| = |u i| / |u k| := fun i => by rw [hv, abs_div, abs_abs]
  have hle : ∀ i < np, |v i| ≤ 1 := fun i hi => by
    rw [habs, div_le_one hpos]
    exact hmax i (mem_range.mpr hi)
  refine ⟨v, hle, ⟨k, mem_range.mp hk, by rw [habs, div_self hpos.ne']⟩, ?_⟩
  have hrow : ∀ i < np, |∑ j ∈ range np, fit.normal i j * v j| < 1 / 10 ^ 300 := by
    intro i hi
    have hscaled : ∑ j ∈ range np, fit.normal i j * v j
        = (∑ j ∈ range np, fit.normal i j * u j) / |u k| := by
      rw [sum_div]
      exact sum_congr rfl fun j _ => mul_div_assoc' _ _ _
    rw [hscaled, abs_div, abs_abs]
    exact (div_le_self (abs_nonneg _) hlarge).trans_lt (hsmall i hi)
  rw [fit.spread_eq]
  calc ∑ i ∈ range np, v i * ∑ j ∈ range np, fit.normal i j * v j
      < ∑ _i ∈ range np, (1 / 10 ^ 300 : P) := by
        refine sum_lt_sum_of_nonempty (nonempty_range_iff.mpr (by omega)) fun i hi => ?_
        have hi' := mem_range.mp hi
        calc v i * ∑ j ∈ range np, fit.normal i j * v j
            ≤ |v i| * |∑ j ∈ range np, fit.normal i j * v j| := by
              rw [← abs_mul]
              exact le_abs_self _
          _ ≤ |∑ j ∈ range np, fit.normal i j * v j| :=
              mul_le_of_le_one_left (abs_nonneg _) (hle i hi')
          _ < 1 / 10 ^ 300 := hrow i hi'
    _ = np / 10 ^ 300 := by rw [sum_const, card_range, nsmul_eq_mul, mul_one_div]

omit hsolve in
/-- **The ridge fit is the only minimum**, and its covariance inverts the normal matrix on both
sides; where the solver refuses, the data leave some combination of the coefficients free. -/
theorem ridgeSolve_optimal (hnp : 1 ≤ np) (hnp' : np ≤ 8) :
    let fit : Problem P := ⟨rows, np, a, y, w, priorInv⟩
    match ridgeSolve a y w rows np priorInv with
    | some (x, cov) =>
        (∀ z, fit.cost x ≤ fit.cost z) ∧
          (∀ z, fit.cost z = fit.cost x → ∀ i < np, z i = x i) ∧
          ∀ i < np, ∀ j < np,
            ∑ k ∈ range np, cov i k * fit.normal k j = (if i = j then 1 else 0) ∧
              ∑ k ∈ range np, fit.normal i k * cov k j = if i = j then 1 else 0
    | none =>
        ∃ v : ℕ → P, (∀ i < np, |v i| ≤ 1) ∧ (∃ i < np, |v i| = 1) ∧
          fit.spread v < np / 10 ^ 300 := by
  intro fit
  cases hridge : ridgeSolve a y w rows np priorInv with
  | none => exact exists_of_ridgeSolve_eq_none hnp hnp' hridge
  | some s => exact ridgeSolve_least hridge hw hprior

end Ridge

theorem ridgeSolve_optimal_mean :
    ∃ x cov, ridgeSolve (P := ℚ) (fun _ _ => 1) (fun r => r) (fun _ => 1) 3 1 (fun _ => 0)
        = some (x, cov) ∧
      ∀ z, (⟨3, 1, fun _ _ => 1, fun r => r, fun _ => 1, fun _ => 0⟩ : Problem ℚ).cost x
        ≤ (⟨3, 1, fun _ _ => 1, fun r => r, fun _ => 1, fun _ => 0⟩ : Problem ℚ).cost z := by
  have hsome : (ridgeSolve (P := ℚ) (fun _ _ => 1) (fun r => r) (fun _ => 1) 3 1
      (fun _ => 0)).isSome := by decide +kernel
  have h := @ridgeSolve_optimal ℚ _ _ _ (fun _ _ => 1) (fun r => r) (fun _ => 1) 3 1 (fun _ => 0)
    (by simp) (by simp) le_rfl (by decide)
  obtain ⟨⟨x, cov⟩, hx⟩ := Option.isSome_iff_exists.mp hsome
  rw [hx] at h
  exact ⟨x, cov, hx, h.1⟩

/-! ## The fit -/

/-- What the fit does with samples: a unit phasor by its phase in radians, `std::conj`,
`std::norm`, `std::arg`, and `kTwoPi`. -/
structure CarrierOps (S P : Type) where
  unit : P → S
  conj : S → S
  norm : S → P
  arg : S → P
  twoPi : P

/-- Complex samples under the fit. -/
noncomputable def complexCarrier : CarrierOps ℂ ℝ where
  unit φ := Complex.exp (φ * Complex.I)
  conj := starRingEnd ℂ
  norm := Complex.normSq
  arg := Complex.arg
  twoPi := 2 * Real.pi

/-- `WanderFit`: a trajectory, the observations behind it, and those of the first stage.  An
observation is a time, a residual and a weight. -/
structure WanderFitOf (P : Type) where
  sps : ℕ
  nChips : ℕ
  order : ℕ
  priorInv : ℕ → P
  c : ℕ → P
  cov : ℕ → ℕ → P
  obs : List (P × P × P)
  fine : List (P × P × P)

/-- `WanderFit::Block`. -/
structure CarrierBlock (S P : Type) where
  p : S
  seg : ℕ
  center : P
  len : P

section Fit

variable {S P : Type} [CommRing S] [Field P] [LinearOrder P]

/-- `WanderFit::configure`. -/
def WanderFitOf.configure (sps nChips : ℕ) (sigmaW : P) (order : ℕ) : WanderFitOf P :=
  let kMaxOrder := 5
  let order := max 1 (min order kMaxOrder)
  { sps, nChips, order
    priorInv := fun i =>
      if 1 ≤ i ∧ i ≤ order then
        let sigma := max (sigmaW / (1 + i)) (2 / 100)
        1 / (sigma * sigma)
      else 0
    c := fun _ => 0
    cov := fun _ _ => 0
    obs := []
    fine := [] }

/-- `evalWith`. -/
def WanderFitOf.evalWith (w : WanderFitOf P) (c : ℕ → P) (t : P) : P :=
  ∑ i ∈ range (w.order + 1), c i * legendre (2 * t - 1) i

/-- `eval`. -/
def WanderFitOf.eval (w : WanderFitOf P) (t : P) : P := w.evalWith w.c t

/-- `slope`. -/
def WanderFitOf.slope (w : WanderFitOf P) (t : P) : P :=
  ∑ i ∈ range (w.order + 1), w.c i * 2 * legendreSlope (2 * t - 1) i

/-- `var`. -/
def WanderFitOf.var (w : WanderFitOf P) (t : P) : P :=
  ∑ i ∈ range (w.order + 1), ∑ j ∈ range (w.order + 1),
    legendre (2 * t - 1) i * w.cov i j * legendre (2 * t - 1) j

/-- `meanSlope`. -/
def WanderFitOf.meanSlope (w : WanderFitOf P) : P := if 1 ≤ w.order then 2 * w.c 1 else 0

/-- `derotate`. -/
def WanderFitOf.derotate (w : WanderFitOf P) (ops : CarrierOps S P) (window : List S) (extra : P) :
    List S :=
  window.mapIdx fun n x => x * ops.conj (ops.unit
    (∑ m ∈ range n, ops.twoPi * (w.eval ((m + 1 / 2) * (1 / w.sps)) + extra) * (1 / w.sps)))

/-- Sub-block `m` against the two tones: one block when the wrap is not known, else what lies
before the wrap and after it, less slivers. -/
def blockParts (ops : CarrierOps S P) (sps : ℕ) (z : List S) (b1 b2 wrap : ℤ) (len m : ℕ) :
    List (CarrierBlock S P) :=
  let n0 := m * len
  let oscillator := fun (b : ℤ) (n : ℕ) =>
    ops.unit (-ops.twoPi * b * n0 / sps) * ops.unit (-ops.twoPi * b / sps) ^ n
  if wrap < 0 then
    let p1 := ∑ n ∈ range len, z.getD (n0 + n) 0 * oscillator b1 n
    let p2 := ∑ n ∈ range len, z.getD (n0 + n) 0 * oscillator b2 n
    let first := decide (ops.norm p2 ≤ ops.norm p1)
    [{ p := if first then p1 else p2, seg := if first then 1 else 2
       center := n0 + 1 / 2 * len, len := len }]
  else
    let split := (max 0 (min (wrap - n0) len)).toNat
    let p1 := ∑ n ∈ range split, z.getD (n0 + n) 0 * oscillator b1 n
    let p2 := ∑ n ∈ Ico split len, z.getD (n0 + n) 0 * oscillator b2 n
    let a1 : P := split
    let a2 : P := len - split
    (if len / 8 ≤ a1 then [{ p := p1, seg := 1, center := n0 + 1 / 2 * a1, len := a1 }] else [])
      ++ if len / 8 ≤ a2 then [{ p := p2, seg := 2, center := n0 + a1 + 1 / 2 * a2, len := a2 }]
        else []

/-- The phase step between two neighbours of one segment. -/
def observe (ops : CarrierOps S P) (sps : ℕ) (noiseVar : P) (q0 q1 : CarrierBlock S P) :
    Option (P × P × P) :=
  if q0.seg ≠ q1.seg then none
  else
    let snr := fun q : CarrierBlock S P =>
      max (ops.norm q.p / max (noiseVar * q.len) (1 / 10 ^ 30) - 1) (3 / 10)
    let varCap := ops.twoPi * ops.twoPi / 12
    let varD := min (1 / 2 / snr q0 + 1 / 2 / snr q1) varCap
    let toChips := sps / (ops.twoPi * (q1.center - q0.center))
    some (1 / 2 * (q0.center + q1.center) / sps, ops.arg (q1.p * ops.conj q0.p) * toChips,
      1 / (varD * toChips * toChips))

/-- The phase steps of a list of blocks. -/
def phaseSteps (ops : CarrierOps S P) (sps : ℕ) (noiseVar : P) (blocks : List (CarrierBlock S P)) :
    List (P × P × P) :=
  (blocks.zip blocks.tail).filterMap fun q => observe ops sps noiseVar q.1 q.2

/-- The observations of a window. -/
def observations (ops : CarrierOps S P) (w : WanderFitOf P) (z : List S) (b1 wrap : ℤ)
    (noiseVar : P) (nSub : ℕ) : List (P × P × P) :=
  let sps : ℤ := w.sps
  let b2 := ((b1 - w.nChips) % sps + sps) % sps
  phaseSteps ops w.sps noiseVar
    ((List.range nSub).flatMap (blockParts ops w.sps z b1 b2 wrap (w.sps / nSub)))

/-- `scale` in `solve`: chi² per degree of freedom, never below 1. -/
def WanderFitOf.chiScale (w : WanderFitOf P) (c : ℕ → P) (obs : List (P × P × P)) : P :=
  let np := w.order + 1
  let chi2 := (obs.map fun o =>
    o.2.2 * (o.2.1 - w.evalWith c o.1) * (o.2.1 - w.evalWith c o.1)).sum
  if np < obs.length then max 1 (chi2 / (obs.length - np)) else 1

/-- `WanderFit::solve`. -/
def WanderFitOf.solve (ops : CarrierOps S P) (w : WanderFitOf P) (z : List S) (b1 wrap : ℤ)
    (noiseVar : P) (nSub : ℕ) (priorInv : ℕ → P) : WanderFitOf P × Bool :=
  let reset : WanderFitOf P := { w with c := fun _ => 0, cov := fun _ _ => 0, obs := [] }
  if w.sps = 0 ∨ nSub < 4 ∨ w.sps % nSub ≠ 0 then (reset, false)
  else
    let obs := observations ops w z b1 wrap noiseVar nSub
    let np := w.order + 1
    let at' := fun r => obs.getD r (0, 0, 0)
    if obs.length < 2 then (reset, false)
    else
      match ridgeSolve (fun r i => legendre (2 * (at' r).1 - 1) i) (fun r => (at' r).2.1)
          (fun r => (at' r).2.2) obs.length np priorInv with
      | none => (reset, false)
      | some (c, cov) =>
          let scale := w.chiScale c obs
          ({ w with
              c := c
              cov := fun i j => cov i j * scale
              obs := obs.map fun o => (o.1, o.2.1, o.2.2 / scale) }, true)

/-- `prior2`: the first stage's uncertainty. -/
def WanderFitOf.prior2 (w : WanderFitOf P) (i : ℕ) : P :=
  if 1 ≤ i ∧ i ≤ w.order then 1 / max (w.cov i i) (1 / 10 ^ 6) else 0

/-- `n2`: the long blocks. -/
def WanderFitOf.n2 (w : WanderFitOf P) (nSub : ℕ) : ℕ :=
  min (if 4 ≤ w.order then 32 else 8) (nSub / 2)

/-- `WanderFit::fit`: short blocks first, and what is left of the carrier from long ones. -/
def WanderFitOf.fit (ops : CarrierOps S P) (w : WanderFitOf P) (z : List S) (b1 wrap : ℤ)
    (noiseVar : P) (nSub : ℕ) : WanderFitOf P × Bool :=
  let first := w.solve ops z b1 wrap noiseVar nSub w.priorInv
  if first.2 = false then ({ first.1 with fine := [] }, false)
  else
    let w1 : WanderFitOf P := { first.1 with fine := first.1.obs }
    if nSub < 16 then (w1, true)
    else
      let second := w1.solve ops (w1.derotate ops z 0) b1 wrap noiseVar (w1.n2 nSub) w1.prior2
      if second.2 = false then (w1, true)
      else
        ({ second.1 with
            c := fun i => if i ≤ w.order then second.1.c i + w1.c i else second.1.c i
            obs := second.1.obs.map fun o => (o.1, o.2.1 + w1.eval o.1, o.2.2) }, true)

end Fit

/-! ## The trajectory and its variance -/

/-- **The slope is the derivative of the trajectory**, whatever the coefficients and the order. -/
theorem WanderFitOf.hasDerivAt_eval (w : WanderFitOf ℝ) (t : ℝ) :
    HasDerivAt w.eval (w.slope t) t := by
  have hinner : HasDerivAt (fun t : ℝ => 2 * t - 1) 2 t := by
    have h := ((hasDerivAt_id t).const_mul 2).sub_const 1
    rwa [mul_one] at h
  have hterm : ∀ i ∈ range (w.order + 1), HasDerivAt (fun t => w.c i * legendre (2 * t - 1) i)
      (w.c i * 2 * legendreSlope (2 * t - 1) i) t := by
    intro i _
    have h := ((hasDerivAt_legendre (2 * t - 1) i).comp t hinner).const_mul (w.c i)
    refine h.congr_deriv ?_
    ring
  exact HasDerivAt.fun_sum hterm

section Variance

variable {S P : Type} [CommRing S] [Field P] [LinearOrder P] [IsStrictOrderedRing P]
  {ops : CarrierOps S P}

/-- What `configure` sets up and no fit changes. -/
structure WanderFitOf.Configured (w : WanderFitOf P) : Prop where
  mean_free : w.priorInv 0 = 0
  prior_nonneg : ∀ i, 0 ≤ w.priorInv i

/-- No combination of the coefficients has a negative variance. -/
def WanderFitOf.CovNonneg (w : WanderFitOf P) : Prop :=
  ∀ v : ℕ → P, 0 ≤ ∑ i ∈ range (w.order + 1), ∑ j ∈ range (w.order + 1), v i * w.cov i j * v j

theorem WanderFitOf.configure_configured (sps nChips : ℕ) (sigmaW : P) (order : ℕ) :
    (configure sps nChips sigmaW order).Configured ∧
      (configure sps nChips sigmaW order).CovNonneg := by
  refine ⟨⟨by simp [configure], fun i => ?_⟩, fun v => by simp [configure]⟩
  simp only [configure]
  split_ifs
  · exact one_div_nonneg.mpr (mul_self_nonneg _)
  · exact le_rfl

/-- No observation has a negative weight. -/
theorem observe_weight_nonneg {sps : ℕ} {noiseVar : P} {q0 q1 : CarrierBlock S P}
    {o : P × P × P} (ho : observe ops sps noiseVar q0 q1 = some o) : 0 ≤ o.2.2 := by
  simp only [observe] at ho
  split_ifs at ho
  obtain rfl := Option.some.inj ho
  have hsnr : ∀ x : P, 0 ≤ 1 / 2 / max x (3 / 10) := fun x =>
    div_nonneg (by norm_num) (le_max_of_le_right (by norm_num))
  refine one_div_nonneg.mpr ?_
  rw [mul_assoc]
  exact mul_nonneg (le_min (add_nonneg (hsnr _) (hsnr _))
    (div_nonneg (mul_self_nonneg _) (by norm_num))) (mul_self_nonneg _)

theorem observations_weight_nonneg {w : WanderFitOf P} {z : List S} {b1 wrap : ℤ} {noiseVar : P}
    {nSub : ℕ} {o : P × P × P} (ho : o ∈ observations ops w z b1 wrap noiseVar nSub) :
    0 ≤ o.2.2 := by
  simp only [observations, phaseSteps, List.mem_filterMap] at ho
  obtain ⟨q, -, hq⟩ := ho
  exact observe_weight_nonneg hq

omit [IsStrictOrderedRing P] in
theorem WanderFitOf.one_le_chiScale (w : WanderFitOf P) (c : ℕ → P) (obs : List (P × P × P)) :
    1 ≤ w.chiScale c obs := by
  unfold chiScale
  simp only
  split_ifs
  · exact le_max_left _ _
  · exact le_rfl

omit [IsStrictOrderedRing P] in
/-- What a stage that succeeds hands over. -/
theorem WanderFitOf.solve_cases {w : WanderFitOf P} {z : List S} {b1 wrap : ℤ} {noiseVar : P}
    {nSub : ℕ} {priorInv : ℕ → P} (hok : (w.solve ops z b1 wrap noiseVar nSub priorInv).2 = true) :
    let obs := observations ops w z b1 wrap noiseVar nSub
    let w' := (w.solve ops z b1 wrap noiseVar nSub priorInv).1
    0 < w.sps ∧ 4 ≤ nSub ∧ nSub ∣ w.sps ∧ 2 ≤ obs.length ∧
      w'.order = w.order ∧ w'.priorInv = w.priorInv ∧ w'.sps = w.sps ∧ w'.nChips = w.nChips ∧
      w'.fine = w.fine ∧
      ∃ c cov, ridgeSolve (fun r i => legendre (2 * (obs.getD r (0, 0, 0)).1 - 1) i)
          (fun r => (obs.getD r (0, 0, 0)).2.1) (fun r => (obs.getD r (0, 0, 0)).2.2) obs.length
          (w.order + 1) priorInv = some (c, cov) ∧
        w'.c = c ∧ (w'.cov = fun i j => cov i j * w.chiScale c obs) ∧
        w'.obs = obs.map fun o => (o.1, o.2.1, o.2.2 / w.chiScale c obs) := by
  intro obs w'
  simp only [w', obs]
  unfold solve at hok ⊢
  simp only at hok ⊢
  split_ifs at hok ⊢ with hbad hfew
  split at hok
  · cases hok
  · next c cov hridge =>
    rw [hridge]
    push Not at hbad
    refine ⟨by omega, hbad.2.1, Nat.dvd_of_mod_eq_zero hbad.2.2, by omega, rfl, rfl, rfl, rfl, rfl,
      c, cov, rfl, rfl, rfl, rfl⟩

/-- A stage that succeeds leaves no negative variance. -/
theorem WanderFitOf.solve_covNonneg {w : WanderFitOf P} {z : List S} {b1 wrap : ℤ} {noiseVar : P}
    {nSub : ℕ} {priorInv : ℕ → P} (hprior : ∀ i, 0 ≤ priorInv i)
    (hok : (w.solve ops z b1 wrap noiseVar nSub priorInv).2 = true) :
    (w.solve ops z b1 wrap noiseVar nSub priorInv).1.CovNonneg := by
  obtain ⟨-, -, -, -, horder, -, -, -, -, c, cov, hridge, -, hcov, -⟩ := solve_cases hok
  intro v
  set obs := observations ops w z b1 wrap noiseVar nSub
  rw [horder, hcov]
  have hbase := ridgeSolve_var_nonneg hridge (fun r hr => by
    rw [List.getD_eq_getElem _ _ hr]
    exact observations_weight_nonneg (List.getElem_mem hr)) (fun i _ => hprior i) v
  have hscaled : ∑ i ∈ range (w.order + 1), ∑ j ∈ range (w.order + 1),
      v i * (cov i j * w.chiScale c obs) * v j
        = w.chiScale c obs * ∑ i ∈ range (w.order + 1), ∑ j ∈ range (w.order + 1),
          v i * cov i j * v j := by
    simp only [mul_sum]
    exact sum_congr rfl fun i _ => sum_congr rfl fun j _ => by ring
  rw [hscaled]
  exact mul_nonneg (zero_le_one.trans (w.one_le_chiScale c obs)) hbase

variable (ops) in
/-- Whether or not a stage succeeds, the settings stay and no variance is negative. -/
theorem WanderFitOf.solve_keeps (w : WanderFitOf P) (z : List S) (b1 wrap : ℤ) (noiseVar : P)
    (nSub : ℕ) {priorInv : ℕ → P} (hprior : ∀ i, 0 ≤ priorInv i) :
    let w' := (w.solve ops z b1 wrap noiseVar nSub priorInv).1
    w'.order = w.order ∧ w'.priorInv = w.priorInv ∧ w'.sps = w.sps ∧ w'.nChips = w.nChips ∧
      w'.CovNonneg := by
  intro w'
  by_cases hok : (w.solve ops z b1 wrap noiseVar nSub priorInv).2 = true
  · obtain ⟨-, -, -, -, horder, hinv, hsps, hchips, -⟩ := solve_cases hok
    exact ⟨horder, hinv, hsps, hchips, solve_covNonneg hprior hok⟩
  · have hreset : w' = { w with c := fun _ => 0, cov := fun _ _ => 0, obs := [] } := by
      simp only [w']
      unfold solve at hok ⊢
      simp only at hok ⊢
      split_ifs at hok ⊢
      · rfl
      · rfl
      · split at hok
        · rfl
        · exact absurd rfl hok
    rw [hreset]
    exact ⟨rfl, rfl, rfl, rfl, fun v => by simp⟩

theorem WanderFitOf.prior2_nonneg (w : WanderFitOf P) (i : ℕ) : 0 ≤ w.prior2 i := by
  unfold prior2
  split_ifs
  · exact one_div_nonneg.mpr (le_max_of_le_right (by positivity))
  · exact le_rfl

variable (ops) in
/-- What every fit leaves. -/
theorem WanderFitOf.fit_keeps {w : WanderFitOf P} (hw : w.Configured) (z : List S) (b1 wrap : ℤ)
    (noiseVar : P) (nSub : ℕ) :
    let w' := (w.fit ops z b1 wrap noiseVar nSub).1
    w'.Configured ∧ w'.CovNonneg ∧ w'.order = w.order ∧ w'.priorInv = w.priorInv ∧
      w'.sps = w.sps ∧ w'.nChips = w.nChips := by
  intro w'
  obtain ⟨horder, hinv, hsps, hchips, hcov⟩ := solve_keeps ops w z b1 wrap noiseVar nSub
    hw.prior_nonneg
  set first := w.solve ops z b1 wrap noiseVar nSub w.priorInv with hfirst
  have hconfigured : first.1.Configured := by
    constructor
    · rw [hinv]
      exact hw.mean_free
    · rw [hinv]
      exact hw.prior_nonneg
  simp only [w', fit]
  rw [← hfirst]
  split_ifs with hfail hshort hagain
  · exact ⟨⟨hconfigured.1, hconfigured.2⟩, hcov, horder, hinv, hsps, hchips⟩
  · exact ⟨⟨hconfigured.1, hconfigured.2⟩, hcov, horder, hinv, hsps, hchips⟩
  · exact ⟨⟨hconfigured.1, hconfigured.2⟩, hcov, horder, hinv, hsps, hchips⟩
  · -- the second stage, on what the first leaves
    set w1 : WanderFitOf P := { first.1 with fine := first.1.obs }
    obtain ⟨horder2, hinv2, hsps2, hchips2, hcov2⟩ := solve_keeps ops w1
      (w1.derotate ops z 0) b1 wrap noiseVar (w1.n2 nSub) w1.prior2_nonneg
    refine ⟨⟨?_, ?_⟩, hcov2, horder2.trans horder, hinv2.trans hinv, hsps2.trans hsps,
      hchips2.trans hchips⟩
    · exact (congrFun hinv2 0).trans hconfigured.1
    · exact fun i => (hconfigured.2 i).trans_eq (congrFun hinv2 i).symm

/-- The arguments of one `fit`. -/
structure FitCall (S P : Type) where
  z : List S
  b1 : ℤ
  wrap : ℤ
  noiseVar : P
  nSub : ℕ

/-- The fit after earlier windows. -/
def WanderFitOf.after (ops : CarrierOps S P) (w : WanderFitOf P) (calls : List (FitCall S P)) :
    WanderFitOf P :=
  calls.foldl (fun w q => (w.fit ops q.z q.b1 q.wrap q.noiseVar q.nSub).1) w

/-- **However many windows the fit is given**, and whatever is in them, the variance of the
trajectory is never negative. -/
theorem WanderFitOf.fits_var_nonneg (ops : CarrierOps S P) (sps nChips : ℕ) (sigmaW : P)
    (order : ℕ) (calls : List (FitCall S P)) (t : P) :
    0 ≤ ((configure sps nChips sigmaW order).after ops calls).var t := by
  have hrun : ∀ w : WanderFitOf P, w.Configured ∧ w.CovNonneg → (w.after ops calls).CovNonneg := by
    induction calls with
    | nil => exact fun w hw => hw.2
    | cons q calls ih =>
        intro w hw
        obtain ⟨hconfigured, hcov, -⟩ := fit_keeps ops hw.1 q.z q.b1 q.wrap q.noiseVar q.nSub
        exact ih _ ⟨hconfigured, hcov⟩
  exact hrun _ (configure_configured sps nChips sigmaW order) _

end Variance

theorem WanderFitOf.fits_var_nonneg_real :
    0 ≤ ((configure 16 8 1 3).after complexCarrier [⟨List.replicate 16 1, 3, 6, 1 / 2, 4⟩]).var
      (1 / 2 : ℝ) :=
  fits_var_nonneg complexCarrier 16 8 1 3 [⟨List.replicate 16 1, 3, 6, 1 / 2, 4⟩] (1 / 2)
