/-
# The slip search (`Receiver::slipSearch` in `src/lora/receiver.cpp`)

A beam of 48 carrier paths, each with a cumulative slip for each symbol.  The covariance
recursion does not depend on the slips and runs once; the paths share its gains.  What is
returned are paths that slip by one step a symbol at most, best first, each with the metric a
Kalman filter run along it alone would give it; and while there is room, all of them
(`slipSearch_paths`).
-/
import QuadrfMesh.Lib.Beam
import QuadrfMesh.Receiver.Lattice

open Beam

/-! ## The search -/

/-- `struct SlipSym`. -/
structure SlipSym where
  obs0 : ℕ
  obs1 : ℕ
  reduced : Bool
  deriving DecidableEq

/-- An entry of `slip_obs_`. -/
structure SlipObs where
  t : ℚ := 0
  carrier : ℚ := 0
  weight : ℚ := 0
  deriving DecidableEq

/-- `wanderProcessQ`: the intensity of the carrier's random walk, in chips and symbols. -/
def wanderProcessQ (symbolS irwHz sigmaWChips : ℚ) : ℚ :=
  if irwHz ≤ 0 ∨ symbolS ≤ 0 then 0
  else
    let t2 := symbolS * symbolS
    let q := irwHz * t2 * t2 * symbolS
    let qCap := 3 * sigmaWChips * sigmaWChips
    if q < qCap then q else qCap

def kObsFloor : ℚ := 3 / 100 * (3 / 100)
def kSlipCost : ℚ := 6
def kPaths : ℕ := 48

/-- `p00`, `p01`, `p11` and `t_last`. -/
structure SlipCov where
  p00 : ℚ
  p01 : ℚ
  p11 : ℚ
  tLast : ℚ
  deriving DecidableEq

/-- A row of `gains`. -/
structure SlipGain where
  dt : ℚ
  k0 : ℚ
  k1 : ℚ
  sv : ℚ

/-- `struct Path`. -/
structure SlipPath where
  f : ℚ := 0
  fd : ℚ := 0
  metric : ℚ := 0
  o : ℤ := 0
  parent : ℕ := 0
  deriving DecidableEq

/-- The covariance at the start. -/
def SlipCov.initial (sigmaW : ℚ) : SlipCov :=
  { p00 := 10 ^ 6, p01 := 0, p11 := (4 * sigmaW + 1) ^ 2, tLast := 0 }

/-- One pass of the loop that fills `gains`. -/
def SlipCov.observe (q : ℚ) (c : SlipCov) (ob : SlipObs) : SlipGain × SlipCov :=
  let dt := ob.t - c.tLast
  let a00 := c.p00 + 2 * dt * c.p01 + dt * dt * c.p11 + q * dt * dt * dt / 3
  let a01 := c.p01 + dt * c.p11 + q * dt * dt / 2
  let a11 := c.p11 + q * dt
  let sv := a00 + 1 / max ob.weight (1 / 10 ^ 9) + kObsFloor
  let k0 := a00 / sv
  let k1 := a01 / sv
  ({ dt, k0, k1, sv },
    { p00 := a00 - k0 * a00, p01 := a01 - k0 * a01, p11 := a11 - k1 * a01, tLast := ob.t })

/-- The gains of a symbol's observations, and the covariance after them. -/
def SlipCov.gains (q : ℚ) : SlipCov → List SlipObs → List SlipGain × SlipCov
  | c, [] => ([], c)
  | c, ob :: obs =>
      let first := c.observe q ob
      let rest := gains q first.2 obs
      (first.1 :: rest.1, rest.2)

/-- One observation of a path. -/
def SlipPath.observe (p : SlipPath) (og : SlipObs × SlipGain) : SlipPath :=
  let f := p.f + p.fd * og.2.dt
  let nu := og.1.carrier + p.o - f
  { p with
    f := f + og.2.k0 * nu
    fd := p.fd + og.2.k1 * nu
    metric := p.metric + nu * nu / og.2.sv }

/-- The path with another slip, through the observations of a symbol. -/
def SlipPath.slip (p : SlipPath) (pi : ℕ) (s : ℤ) (obs : List SlipObs) (gains : List SlipGain) :
    SlipPath :=
  (obs.zip gains).foldl SlipPath.observe
    { p with
      o := p.o + s
      metric := p.metric + if s ≠ 0 then kSlipCost else 0
      parent := pi }

/-- A symbol's entries of `slip_obs_`. -/
def SlipSym.obs (slipObs : List SlipObs) (sym : SlipSym) : List SlipObs :=
  (List.range (sym.obs1 - sym.obs0)).map fun j => slipObs.getD (sym.obs0 + j) {}

/-- `step`. -/
def SlipSym.step (sym : SlipSym) : ℤ := if sym.reduced then 4 else 1

/-- The beam: `cur`, `trace` and the covariance. -/
structure SlipBeam where
  cur : List SlipPath := [{}]
  trace : List (List (ℕ × ℤ)) := []
  cov : SlipCov

/-- `std::partial_sort` of paths. -/
abbrev PathSort := PartialSort SlipPath.metric

/-- The loop over the symbols. -/
def SlipBeam.symbol (sort : PathSort) (q : ℚ) (slipObs : List SlipObs) (b : SlipBeam)
    (sym : SlipSym) : SlipBeam :=
  let obs := sym.obs slipObs
  let (gains, cov) := b.cov.gains q obs
  let next := (b.cur.mapIdx fun pi p =>
    [0, -sym.step, sym.step].map fun s => p.slip pi s obs gains).flatten
  let keep := min kPaths next.length
  let next := sort.best keep next
  { cur := next, trace := b.trace ++ [next.map fun p => (p.parent, p.o)], cov }

/-- The beam after the last symbol; none where the search does not run. -/
def slipBeam (sort : PathSort) (p : LoraParams) (slipObs : List SlipObs) (slipSyms : List SlipSym) :
    SlipBeam :=
  let cov := SlipCov.initial (sigmaW p)
  if slipSyms.length = 0 ∨ p.wanderIrwQ ≤ 0 then { cur := [], cov }
  else
    let q := wanderProcessQ (symbolTime p) p.wanderIrwQ (sigmaW p)
    slipSyms.foldl (SlipBeam.symbol sort q slipObs) { cov }

/-- `slipSearch`: the offsets of each path, best first. -/
def slipSearch (sort : PathSort) (p : LoraParams) (slipObs : List SlipObs)
    (slipSyms : List SlipSym) : List (List ℤ) :=
  let b := slipBeam sort p slipObs slipSyms
  (List.range b.cur.length).map (traceback b.trace)

/-! ## The covariance -/

theorem wanderProcessQ_nonneg (symbolS irwHz sigmaWChips : ℚ) :
    0 ≤ wanderProcessQ symbolS irwHz sigmaWChips := by
  unfold wanderProcessQ
  split_ifs with h
  · exact le_rfl
  · obtain ⟨hirw, hsym⟩ := not_or.mp h
    have hirw : 0 < irwHz := not_le.mp hirw
    have hsym : 0 < symbolS := not_le.mp hsym
    simp only
    split_ifs
    · positivity
    · have := mul_self_nonneg sigmaWChips
      linarith

namespace SlipCov

/-- A covariance: no combination of the two has a negative variance. -/
structure Psd (c : SlipCov) : Prop where
  p00_nonneg : 0 ≤ c.p00
  p11_nonneg : 0 ≤ c.p11
  det : c.p01 ^ 2 ≤ c.p00 * c.p11

theorem psd_initial (sigmaW : ℚ) : (initial sigmaW).Psd where
  p00_nonneg := by norm_num [initial]
  p11_nonneg := sq_nonneg _
  det := by
    have := sq_nonneg (4 * sigmaW + 1)
    simp only [initial]
    linarith

/-- The sum of two. -/
theorem det_add {a b c d u v : ℚ} (ha : 0 ≤ a) (hb : 0 ≤ b) (hc : 0 ≤ c) (hd : 0 ≤ d)
    (hab : u ^ 2 ≤ a * b) (hcd : v ^ 2 ≤ c * d) : (u + v) ^ 2 ≤ (a + c) * (b + d) := by
  have hcross : (2 * (u * v)) ^ 2 ≤ (a * d + b * c) ^ 2 := by
    have hmul : u ^ 2 * v ^ 2 ≤ a * b * (c * d) := mul_le_mul hab hcd (sq_nonneg v) (mul_nonneg ha hb)
    have hmean := sq_nonneg (a * d - b * c)
    linarith
  have hpos : 0 ≤ a * d + b * c := add_nonneg (mul_nonneg ha hd) (mul_nonneg hb hc)
  have hle := (le_abs_self _).trans (abs_le_of_sq_le_sq hcross hpos)
  linarith

/-- What an observation predicts. -/
theorem psd_predict {c : SlipCov} (hc : c.Psd) {q dt : ℚ} (hq : 0 ≤ q) (hdt : 0 ≤ dt) :
    0 ≤ c.p00 + 2 * dt * c.p01 + dt * dt * c.p11 + q * dt * dt * dt / 3 ∧
      0 ≤ c.p11 + q * dt ∧
      (c.p01 + dt * c.p11 + q * dt * dt / 2) ^ 2
        ≤ (c.p00 + 2 * dt * c.p01 + dt * dt * c.p11 + q * dt * dt * dt / 3) * (c.p11 + q * dt) := by
  obtain ⟨h00, h11, hdet⟩ := hc
  -- the carrier has moved along its slope
  have hmoved_det : (c.p01 + dt * c.p11) ^ 2 ≤ (c.p00 + 2 * dt * c.p01 + dt * dt * c.p11) * c.p11 := by
    linarith
  have hmoved : 0 ≤ c.p00 + 2 * dt * c.p01 + dt * dt * c.p11 := by
    rcases h11.eq_or_lt with hzero | hpos
    · have hcov : c.p01 = 0 := by
        rw [← hzero, mul_zero] at hdet
        exact pow_eq_zero_iff two_ne_zero |>.mp (le_antisymm hdet (sq_nonneg _))
      rw [hcov, ← hzero]
      linarith
    · exact nonneg_of_mul_nonneg_left (le_trans (sq_nonneg _) hmoved_det) hpos
  -- and its slope has wandered
  have hnoise : 0 ≤ q * dt * dt * dt / 3 := by positivity
  have hnoise_det : (q * dt * dt / 2) ^ 2 ≤ q * dt * dt * dt / 3 * (q * dt) := by
    have hsq := sq_nonneg (q * dt * dt)
    linarith
  exact ⟨add_nonneg hmoved hnoise, add_nonneg h11 (mul_nonneg hq hdt),
    det_add hmoved h11 hnoise (mul_nonneg hq hdt) hmoved_det hnoise_det⟩

/-- What an observation with noise `r` leaves. -/
theorem psd_correct {a00 a01 a11 r : ℚ} (h00 : 0 ≤ a00) (h11 : 0 ≤ a11) (hdet : a01 ^ 2 ≤ a00 * a11)
    (hr : 0 < r) (t : ℚ) :
    Psd { p00 := a00 - a00 / (a00 + r) * a00, p01 := a01 - a00 / (a00 + r) * a01
          p11 := a11 - a01 / (a00 + r) * a01, tLast := t } := by
  have hsv : 0 < a00 + r := by linarith
  have e00 : a00 - a00 / (a00 + r) * a00 = a00 * r / (a00 + r) := by
    field_simp
    ring
  have e01 : a01 - a00 / (a00 + r) * a01 = a01 * r / (a00 + r) := by
    field_simp
    ring
  have e11 : a11 - a01 / (a00 + r) * a01 = (a11 * (a00 + r) - a01 ^ 2) / (a00 + r) := by
    field_simp
  have hrest : 0 ≤ a11 * (a00 + r) - a01 ^ 2 := by
    have := mul_nonneg h11 hr.le
    linarith
  rw [e00, e01, e11]
  refine ⟨by positivity, div_nonneg hrest hsv.le, ?_⟩
  simp only
  rw [div_pow, div_mul_div_comm, ← sq]
  apply div_le_div_of_nonneg_right _ (sq_nonneg _)
  have hscaled : r * (a00 + r) * a01 ^ 2 ≤ r * (a00 + r) * (a00 * a11) :=
    mul_le_mul_of_nonneg_left hdet (mul_nonneg hr.le hsv.le)
  linarith

/-- **One observation**, later than the last: its innovation has a variance, and a covariance
is left. -/
theorem Psd.observe {c : SlipCov} (hc : c.Psd) {q : ℚ} (hq : 0 ≤ q) {ob : SlipObs}
    (ht : c.tLast ≤ ob.t) : 0 < (c.observe q ob).1.sv ∧ (c.observe q ob).2.Psd := by
  obtain ⟨h00, h11, hdet⟩ := psd_predict hc hq (sub_nonneg.mpr ht)
  have hweight : (0 : ℚ) < max ob.weight (1 / 10 ^ 9) := lt_max_of_lt_right (by norm_num)
  have hnoise : 0 < 1 / max ob.weight (1 / 10 ^ 9) + kObsFloor :=
    add_pos (by positivity) (by norm_num [kObsFloor])
  constructor
  · simp only [SlipCov.observe]
    linarith
  · have hpsd := psd_correct h00 h11 hdet hnoise ob.t
    rw [← add_assoc] at hpsd
    exact hpsd

end SlipCov

/-! ## One path alone -/

/-- A Kalman filter along one path: its covariance and means, the slip so far and the cost. -/
structure SlipFilter where
  cov : SlipCov
  f : ℚ := 0
  fd : ℚ := 0
  o : ℤ := 0
  cost : ℚ := 0

namespace SlipFilter

/-- An observation: the carrier is predicted, and corrected by the innovation, whose square
over its variance is the cost. -/
def observe (q : ℚ) (k : SlipFilter) (ob : SlipObs) : SlipFilter :=
  let (g, cov) := k.cov.observe q ob
  let predicted := k.f + k.fd * (ob.t - k.cov.tLast)
  let innovation := ob.carrier + k.o - predicted
  { k with
    cov
    f := predicted + g.k0 * innovation
    fd := k.fd + g.k1 * innovation
    cost := k.cost + innovation ^ 2 / g.sv }

/-- A symbol at offset `o`, which costs a slip where it is another. -/
def symbol (q : ℚ) (slipObs : List SlipObs) (k : SlipFilter) (so : SlipSym × ℤ) : SlipFilter :=
  (so.1.obs slipObs).foldl (observe q)
    { k with o := so.2, cost := k.cost + if so.2 = k.o then 0 else kSlipCost }

end SlipFilter

/-- The cost of a path, from scratch. -/
def slipCost (p : LoraParams) (slipObs : List SlipObs) (slipSyms : List SlipSym) (offs : List ℤ) :
    ℚ :=
  let q := wanderProcessQ (symbolTime p) p.wanderIrwQ (sigmaW p)
  ((slipSyms.zip offs).foldl (SlipFilter.symbol q slipObs)
    { cov := SlipCov.initial (sigmaW p) }).cost

namespace SlipFilter

/-- **One observation**, later than the last, adds to the cost. -/
theorem cost_le_observe {q : ℚ} (hq : 0 ≤ q) {k : SlipFilter} (hk : k.cov.Psd) {ob : SlipObs}
    (ht : k.cov.tLast ≤ ob.t) : k.cost ≤ (k.observe q ob).cost ∧ (k.observe q ob).cov.Psd := by
  obtain ⟨hsv, hcov⟩ := hk.observe hq ht
  exact ⟨le_add_of_nonneg_right (div_nonneg (sq_nonneg _) hsv.le), hcov⟩

/-- A symbol's observations, when all of them go forward in time. -/
theorem cost_le_foldl_observe {q : ℚ} (hq : 0 ≤ q) {obs : List SlipObs} {rest : List ℚ}
    {k : SlipFilter} (hk : k.cov.Psd)
    (htimes : (k.cov.tLast :: (obs.map SlipObs.t ++ rest)).IsChain (· ≤ ·)) :
    k.cost ≤ (obs.foldl (observe q) k).cost ∧ (obs.foldl (observe q) k).cov.Psd ∧
      ((obs.foldl (observe q) k).cov.tLast :: rest).IsChain (· ≤ ·) := by
  induction obs generalizing k with
  | nil => exact ⟨le_rfl, hk, htimes⟩
  | cons ob obs ih =>
      rw [List.map_cons, List.cons_append, List.isChain_cons_cons] at htimes
      obtain ⟨hcost, hcov⟩ := cost_le_observe hq hk htimes.1
      obtain ⟨hmore, hlast, hchain⟩ := ih hcov htimes.2
      exact ⟨hcost.trans hmore, hlast, hchain⟩

/-- The symbols of a path. -/
theorem cost_le_foldl_symbol {q : ℚ} (hq : 0 ≤ q) (slipObs : List SlipObs)
    {sos : List (SlipSym × ℤ)} {k : SlipFilter} (hk : k.cov.Psd)
    (htimes : (k.cov.tLast ::
      (sos.flatMap fun so => so.1.obs slipObs).map SlipObs.t).IsChain (· ≤ ·)) :
    k.cost ≤ (sos.foldl (symbol q slipObs) k).cost := by
  induction sos generalizing k with
  | nil => exact le_rfl
  | cons so sos ih =>
      rw [List.flatMap_cons, List.map_append] at htimes
      have hslip : k.cost ≤ k.cost + if so.2 = k.o then 0 else kSlipCost := by
        apply le_add_of_nonneg_right
        split_ifs <;> norm_num [kSlipCost]
      obtain ⟨hcost, hcov, hchain⟩ := cost_le_foldl_observe hq
        (k := { k with o := so.2, cost := k.cost + if so.2 = k.o then 0 else kSlipCost }) hk htimes
      exact (hslip.trans hcost).trans (ih hcov hchain)

end SlipFilter

/-- **The cost is a sum of squares** over variances, and of slips: nothing in it is negative, as
long as the observations go forward in time. -/
theorem slipCost_nonneg (p : LoraParams) (slipObs : List SlipObs) {slipSyms : List SlipSym}
    {offs : List ℤ} (htimes : (0 :: ((slipSyms.zip offs).flatMap fun so =>
      so.1.obs slipObs).map SlipObs.t).IsChain (· ≤ ·)) :
    0 ≤ slipCost p slipObs slipSyms offs :=
  SlipFilter.cost_le_foldl_symbol (wanderProcessQ_nonneg _ _ _) slipObs
    (SlipCov.psd_initial (sigmaW p)) htimes

/-- Offsets that go on from `o` by none or one step at each symbol. -/
def SlipsFrom : ℤ → List SlipSym → List ℤ → Prop
  | _, [], [] => True
  | o, sym :: syms, o' :: offs =>
      (o' = o ∨ o' = o - sym.step ∨ o' = o + sym.step) ∧ SlipsFrom o' syms offs
  | _, _, _ => False

namespace SlipFilter

variable (q : ℚ) (slipObs : List SlipObs)

/-- The three ways on. -/
def choices (sym : SlipSym) (k : SlipFilter) : List (ℤ × SlipFilter) :=
  [0, -sym.step, sym.step].map fun s => (k.o + s, k.symbol q slipObs (sym, k.o + s))

theorem step_ne_zero (sym : SlipSym) : sym.step ≠ 0 := by
  unfold SlipSym.step
  split_ifs <;> decide

theorem length_choices (sym : SlipSym) (k : SlipFilter) : (choices q slipObs sym k).length = 3 := rfl

/-- The three ways on are at three offsets. -/
theorem nodup_choices (sym : SlipSym) (k : SlipFilter) :
    ((choices q slipObs sym k).map Prod.fst).Nodup := by
  have hstep := step_ne_zero sym
  simp only [choices, List.map_cons, List.map_nil, List.nodup_cons, List.mem_cons,
    List.not_mem_nil, or_false, not_or, List.nodup_nil, and_true, not_false_eq_true]
  omega

@[simp] theorem symbol_o (k : SlipFilter) (so : SlipSym × ℤ) :
    (k.symbol q slipObs so).o = so.2 := by
  have hkept : ∀ (obs : List SlipObs) (k : SlipFilter), (obs.foldl (observe q) k).o = k.o := by
    intro obs
    induction obs with
    | nil => exact fun _ => rfl
    | cons ob obs ih => exact fun k => ih (k.observe q ob)
  exact hkept _ _

/-- **The runs** are the paths that slip by one step at most, each with its filter. -/
theorem mem_runs_iff {k k' : SlipFilter} {syms : List SlipSym} {offs : List ℤ} :
    (offs, k') ∈ runs (choices q slipObs) k syms ↔
      SlipsFrom k.o syms offs ∧ k' = (syms.zip offs).foldl (symbol q slipObs) k := by
  induction syms generalizing k offs with
  | nil =>
      cases offs with
      | nil => simp [runs, SlipsFrom]
      | cons o offs => simp [runs, SlipsFrom]
  | cons sym syms ih =>
      cases offs with
      | nil => simp [runs, SlipsFrom]
      | cons o offs =>
          have hway : ∀ o, (∃ s ∈ [0, -sym.step, sym.step], k.o + s = o) ↔
              (o = k.o ∨ o = k.o - sym.step ∨ o = k.o + sym.step) := by
            intro o
            simp only [List.mem_cons, List.not_mem_nil, or_false, exists_eq_or_imp, exists_eq_left,
              add_zero, ← sub_eq_add_neg, eq_comm]
          rw [runs, List.mem_flatMap]
          constructor
          · rintro ⟨c, hc, hr⟩
            obtain ⟨s, hs, rfl⟩ := List.mem_map.mp hc
            obtain ⟨⟨offs', k''⟩, hrun, heq⟩ := List.mem_map.mp hr
            obtain ⟨⟨rfl, rfl⟩, rfl⟩ : (k.o + s = o ∧ offs' = offs) ∧ k'' = k' := by
              simpa only [Prod.mk.injEq, List.cons.injEq] using heq
            obtain ⟨hslips, hk⟩ := ih.mp hrun
            rw [symbol_o] at hslips
            exact ⟨⟨(hway _).mp ⟨s, hs, rfl⟩, hslips⟩, hk⟩
          · rintro ⟨⟨ho, hslips⟩, rfl⟩
            obtain ⟨s, hs, rfl⟩ := (hway o).mpr ho
            refine ⟨_, List.mem_map_of_mem hs, List.mem_map.mpr ⟨(offs, _), ih.mpr ⟨?_, rfl⟩, rfl⟩⟩
            rw [symbol_o]
            exact hslips

end SlipFilter

/-! ## The shared gains -/

namespace SlipPath

/-- The filter a path stands for, at the covariance all of them share. -/
def toFilter (cov : SlipCov) (p : SlipPath) : SlipFilter :=
  { cov, f := p.f, fd := p.fd, o := p.o, cost := p.metric }

theorem toFilter_observe (q : ℚ) (cov : SlipCov) (p : SlipPath) (ob : SlipObs) :
    (p.observe (ob, (cov.observe q ob).1)).toFilter (cov.observe q ob).2
      = (p.toFilter cov).observe q ob := by
  simp only [toFilter, observe, SlipFilter.observe, SlipCov.observe, sq]

/-- **One symbol**: with the gains computed once, a path does what its filter does. -/
theorem toFilter_foldl (q : ℚ) (obs : List SlipObs) (cov : SlipCov) (p : SlipPath) :
    ((obs.zip (cov.gains q obs).1).foldl observe p).toFilter (cov.gains q obs).2
      = obs.foldl (SlipFilter.observe q) (p.toFilter cov) := by
  induction obs generalizing cov p with
  | nil => rfl
  | cons ob obs ih =>
      rw [SlipCov.gains, List.zip_cons_cons, List.foldl_cons, List.foldl_cons, ih, toFilter_observe]

theorem toFilter_slip (q : ℚ) (slipObs : List SlipObs) (cov : SlipCov) (p : SlipPath) (pi : ℕ)
    (s : ℤ) (sym : SlipSym) :
    (p.slip pi s (sym.obs slipObs) (cov.gains q (sym.obs slipObs)).1).toFilter
        (cov.gains q (sym.obs slipObs)).2
      = (p.toFilter cov).symbol q slipObs (sym, p.o + s) := by
  have hcost : (if s ≠ 0 then kSlipCost else 0) = if p.o + s = p.o then 0 else kSlipCost := by
    rw [ite_not]
    exact if_congr (add_eq_left).symm rfl rfl
  rw [slip, toFilter_foldl, SlipFilter.symbol, hcost]
  rfl

/-- The observations leave a path where it is. -/
theorem slip_o_parent (p : SlipPath) (pi : ℕ) (s : ℤ) (obs : List SlipObs) (gains : List SlipGain) :
    (p.slip pi s obs gains).o = p.o + s ∧ (p.slip pi s obs gains).parent = pi := by
  have hkept : ∀ (ogs : List (SlipObs × SlipGain)) (p : SlipPath),
      (ogs.foldl observe p).o = p.o ∧ (ogs.foldl observe p).parent = p.parent := by
    intro ogs
    induction ogs with
    | nil => exact fun _ => ⟨rfl, rfl⟩
    | cons og ogs ih => exact fun p => ih (p.observe og)
  exact hkept _ _

end SlipPath

/-! ## The beam -/

namespace SlipBeam

variable (sort : PathSort) (q : ℚ) (slipObs : List SlipObs)

/-- The offsets of each path in the beam, with the filter it stands for. -/
def paths (b : SlipBeam) : List (List ℤ × SlipFilter) :=
  pairs (SlipPath.toFilter b.cov) b.trace b.cur

/-- The children of a path. -/
def children (b : SlipBeam) (sym : SlipSym) (pi : ℕ) (p : SlipPath) : List SlipPath :=
  [0, -sym.step, sym.step].map fun s =>
    p.slip pi s (sym.obs slipObs) (b.cov.gains q (sym.obs slipObs)).1

theorem parent_children (b : SlipBeam) (sym : SlipSym) (pi : ℕ) (p : SlipPath) :
    ∀ c ∈ b.children q slipObs sym pi p, c.parent = pi := by
  intro c hc
  obtain ⟨s, -, rfl⟩ := List.mem_map.mp hc
  exact (p.slip_o_parent pi s _ _).2

theorem choices_children (b : SlipBeam) (sym : SlipSym) (pi : ℕ) (p : SlipPath) :
    (b.children q slipObs sym pi p).map
        (fun c => (c.o, c.toFilter (b.cov.gains q (sym.obs slipObs)).2))
      = SlipFilter.choices q slipObs sym (p.toFilter b.cov) := by
  rw [children, SlipFilter.choices, List.map_map]
  refine List.map_congr_left fun s _ => ?_
  show (_, _) = (_, _)
  rw [(p.slip_o_parent pi s _ _).1, SlipPath.toFilter_slip]
  rfl

/-- **The step lemma**: what is kept goes on from what was kept. -/
theorem paths_symbol (b : SlipBeam) (sym : SlipSym) :
    (b.symbol sort q slipObs sym).paths.Subperm
      (extend (SlipFilter.choices q slipObs sym) b.paths) :=
  pairs_step (b.parent_children q slipObs sym) (b.choices_children q slipObs sym) b.trace
    (sort.subperm_best _ _)

/-- **The run lemma**: the paths of the beam are paths that slip by one step at most. -/
theorem paths_foldl (b : SlipBeam) (syms : List SlipSym) {start : SlipFilter}
    (hstart : b.paths = [([], start)]) :
    (syms.foldl (symbol sort q slipObs) b).paths.Subperm
      (runs (SlipFilter.choices q slipObs) start syms) := by
  induction syms using List.reverseRecOn with
  | nil =>
      rw [List.foldl_nil, hstart]
      exact List.Subperm.refl _
  | append_singleton syms sym ih =>
      rw [List.foldl_append, List.foldl_cons, List.foldl_nil, runs_append_singleton]
      exact (paths_symbol sort q slipObs _ sym).trans (extend_subperm _ ih)

/-- While there is room, all ways on are kept. -/
theorem paths_symbol_perm (b : SlipBeam) (sym : SlipSym) (h : b.cur.length * 3 ≤ kPaths) :
    (b.symbol sort q slipObs sym).paths.Perm
      (extend (SlipFilter.choices q slipObs sym) b.paths) := by
  have hparent := b.parent_children q slipObs sym
  have hchoices := b.choices_children q slipObs sym
  have hnext : (b.cur.mapIdx (b.children q slipObs sym)).flatten.length = b.cur.length * 3 := by
    have hall := congrArg List.length (children_pairs hparent hchoices b.trace b.cur)
    rwa [List.length_map, length_extend (SlipFilter.length_choices q slipObs sym),
      length_pairs] at hall
  refine pairs_step_perm hparent hchoices b.trace (sort.perm_best ?_)
  exact le_min (hnext.le.trans h) le_rfl

/-- While there is room, all paths are kept. -/
theorem paths_foldl_perm (b : SlipBeam) (syms : List SlipSym) {start : SlipFilter}
    (hstart : b.paths = [([], start)]) (h : 3 ^ syms.length ≤ kPaths) :
    (syms.foldl (symbol sort q slipObs) b).paths.Perm
      (runs (SlipFilter.choices q slipObs) start syms) := by
  induction syms using List.reverseRecOn with
  | nil =>
      rw [List.foldl_nil, hstart]
      exact List.Perm.refl _
  | append_singleton syms sym ih =>
      rw [List.length_append, List.length_singleton, pow_succ] at h
      have hbefore := ih (le_trans (Nat.le_mul_of_pos_right _ (by norm_num)) h)
      rw [List.foldl_append, List.foldl_cons, List.foldl_nil, runs_append_singleton]
      refine (paths_symbol_perm sort q slipObs _ sym ?_).trans (extend_perm _ hbefore)
      have hlen := hbefore.length_eq
      rw [length_runs (SlipFilter.length_choices q slipObs), paths, length_pairs] at hlen
      rw [hlen]
      exact h

/-- No way on that was dropped is better than one that is kept. -/
theorem dropped_no_better (b : SlipBeam) (sym : SlipSym) {kept dropped : SlipPath}
    (hkept : kept ∈ (b.symbol sort q slipObs sym).cur)
    (hway : dropped ∈ (b.cur.mapIdx (b.children q slipObs sym)).flatten)
    (hdropped : dropped ∉ (b.symbol sort q slipObs sym).cur) : kept.metric ≤ dropped.metric :=
  sort.key_best_le hkept hway hdropped

/-- A beam that was sorted is in order and of the size of the beam. -/
theorem best_first (b : SlipBeam) (syms : List SlipSym) (hne : syms ≠ []) :
    (syms.foldl (symbol sort q slipObs) b).cur.length ≤ kPaths ∧
      (syms.foldl (symbol sort q slipObs) b).cur.Pairwise fun p p' => p.metric ≤ p'.metric := by
  obtain ⟨syms, sym, rfl⟩ := List.eq_nil_or_concat syms |>.resolve_left hne
  rw [List.concat_eq_append, List.foldl_append, List.foldl_cons, List.foldl_nil]
  exact ⟨(sort.length_best_le _ _).trans (min_le_left _ _), sort.sorted _ _⟩

end SlipBeam

/-! ## What is returned -/

section Returned

variable (sort : PathSort) (p : LoraParams) (slipObs : List SlipObs) (slipSyms : List SlipSym)

theorem slipSearch_eq : slipSearch sort p slipObs slipSyms
    = (slipBeam sort p slipObs slipSyms).paths.map Prod.fst :=
  (map_fst_pairs _ _ _).symm

/-- The runs of the filter. -/
def slipRuns : List (List ℤ × SlipFilter) :=
  runs (SlipFilter.choices (wanderProcessQ (symbolTime p) p.wanderIrwQ (sigmaW p)) slipObs)
    { cov := SlipCov.initial (sigmaW p) } slipSyms

/-- Each run has the cost of its offsets. -/
theorem cost_of_mem_slipRuns {r : List ℤ × SlipFilter} (h : r ∈ slipRuns p slipObs slipSyms) :
    SlipsFrom 0 slipSyms r.1 ∧ r.2.cost = slipCost p slipObs slipSyms r.1 := by
  obtain ⟨hslips, hfilter⟩ := (SlipFilter.mem_runs_iff _ _).mp h
  exact ⟨hslips, by rw [hfilter]; rfl⟩

/-- What the beam holds at the end. -/
theorem slipBeam_cases : (slipBeam sort p slipObs slipSyms).cur = [] ∨
    slipSyms ≠ [] ∧ slipBeam sort p slipObs slipSyms
      = slipSyms.foldl (SlipBeam.symbol sort
          (wanderProcessQ (symbolTime p) p.wanderIrwQ (sigmaW p)) slipObs)
        { cov := SlipCov.initial (sigmaW p) } := by
  unfold slipBeam
  simp only
  split_ifs with h
  · exact Or.inl rfl
  · exact Or.inr ⟨fun hnil => h (Or.inl (by rw [hnil]; rfl)), rfl⟩

/-- The paths in the beam are runs of the filter, in order. -/
theorem paths_slipBeam :
    (slipBeam sort p slipObs slipSyms).paths.Subperm (slipRuns p slipObs slipSyms) ∧
      (slipBeam sort p slipObs slipSyms).cur.length ≤ kPaths ∧
      (slipBeam sort p slipObs slipSyms).cur.Pairwise fun p p' => p.metric ≤ p'.metric := by
  rcases slipBeam_cases sort p slipObs slipSyms with hempty | ⟨hne, hrun⟩
  · have hpaths : (slipBeam sort p slipObs slipSyms).paths = [] := by
      rw [SlipBeam.paths, hempty]
      rfl
    rw [hpaths, hempty]
    exact ⟨List.nil_subperm, Nat.zero_le _, List.Pairwise.nil⟩
  · rw [hrun]
    exact ⟨SlipBeam.paths_foldl sort _ slipObs _ slipSyms rfl,
      SlipBeam.best_first sort _ slipObs _ slipSyms hne⟩

theorem length_of_slipsFrom {o : ℤ} {syms : List SlipSym} {offs : List ℤ}
    (h : SlipsFrom o syms offs) : offs.length = syms.length := by
  induction syms generalizing o offs with
  | nil =>
      cases offs with
      | nil => rfl
      | cons _ _ => exact h.elim
  | cons sym syms ih =>
      cases offs with
      | nil => exact h.elim
      | cons o' offs => rw [List.length_cons, List.length_cons, ih h.2]

theorem slipsFrom_of_mem {offs : List ℤ} (h : offs ∈ slipSearch sort p slipObs slipSyms) :
    SlipsFrom 0 slipSyms offs := by
  rw [slipSearch_eq] at h
  obtain ⟨r, hr, rfl⟩ := List.mem_map.mp h
  have hsub := (paths_slipBeam sort p slipObs slipSyms).1
  exact (cost_of_mem_slipRuns p slipObs slipSyms (hsub.subset hr)).1

theorem nodup_slipSearch : (slipSearch sort p slipObs slipSyms).Nodup := by
  rw [slipSearch_eq]
  obtain ⟨rs, hperm, hrs⟩ := (paths_slipBeam sort p slipObs slipSyms).1
  have hnodup : ((slipRuns p slipObs slipSyms).map Prod.fst).Nodup :=
    nodup_labels (fun _ _ => SlipFilter.nodup_choices _ _ _ _) _ _
  exact (hperm.map Prod.fst).nodup_iff.mp (hnodup.sublist (hrs.map Prod.fst))

/-- **The metrics** are the costs of the paths alone. -/
theorem metric_eq_slipCost : (slipBeam sort p slipObs slipSyms).cur.map SlipPath.metric
    = (slipSearch sort p slipObs slipSyms).map (slipCost p slipObs slipSyms) := by
  set b := slipBeam sort p slipObs slipSyms with hb
  have hsub : b.paths.Subperm (slipRuns p slipObs slipSyms) :=
    (paths_slipBeam sort p slipObs slipSyms).1
  have hmetric : b.cur.map SlipPath.metric = b.paths.map fun r => r.2.cost := by
    have hviews := congrArg (List.map SlipFilter.cost)
      (map_snd_pairs (SlipPath.toFilter b.cov) b.trace b.cur)
    rw [List.map_map, List.map_map] at hviews
    exact hviews.symm
  rw [hmetric, slipSearch_eq, ← hb, List.map_map]
  exact List.map_congr_left fun r hr => (cost_of_mem_slipRuns p slipObs slipSyms (hsub.subset hr)).2

/-- Where there is room, the beam holds all runs. -/
theorem paths_slipBeam_perm (hirw : 0 < p.wanderIrwQ) (hsome : 1 ≤ slipSyms.length)
    (hroom : 3 ^ slipSyms.length ≤ kPaths) :
    (slipBeam sort p slipObs slipSyms).paths.Perm (slipRuns p slipObs slipSyms) := by
  have hruns : ¬(slipSyms.length = 0 ∨ p.wanderIrwQ ≤ 0) := by
    rw [not_or, not_le]
    exact ⟨by omega, hirw⟩
  unfold slipBeam
  simp only [if_neg hruns]
  exact SlipBeam.paths_foldl_perm sort _ slipObs _ slipSyms rfl hroom

/-- The offsets of the runs are all that slip by one step at most. -/
theorem mem_map_slipRuns_iff (offs : List ℤ) :
    offs ∈ (slipRuns p slipObs slipSyms).map Prod.fst ↔ SlipsFrom 0 slipSyms offs := by
  constructor
  · intro hoffs
    obtain ⟨r, hr, rfl⟩ := List.mem_map.mp hoffs
    exact (cost_of_mem_slipRuns p slipObs slipSyms hr).1
  · intro hoffs
    exact List.mem_map.mpr ⟨(offs, _), (SlipFilter.mem_runs_iff _ _).mpr ⟨hoffs, rfl⟩, rfl⟩

theorem pairwise_slipCost :
    ((slipSearch sort p slipObs slipSyms).map (slipCost p slipObs slipSyms)).Pairwise (· ≤ ·) := by
  rw [← metric_eq_slipCost, List.pairwise_map]
  exact (paths_slipBeam sort p slipObs slipSyms).2.2

/-- Where there is room for all paths, they are all there. -/
theorem mem_slipSearch_iff (hirw : 0 < p.wanderIrwQ) (hsome : 1 ≤ slipSyms.length)
    (hroom : 3 ^ slipSyms.length ≤ kPaths) (offs : List ℤ) :
    offs ∈ slipSearch sort p slipObs slipSyms ↔ SlipsFrom 0 slipSyms offs := by
  have hperm := paths_slipBeam_perm sort p slipObs slipSyms hirw hsome hroom
  rw [slipSearch_eq, (hperm.map Prod.fst).mem_iff, mem_map_slipRuns_iff]

/-- **The first path**, where there is room for all, is the cheapest of all. -/
theorem slipCost_head_le (hirw : 0 < p.wanderIrwQ) (hsome : 1 ≤ slipSyms.length)
    (hroom : 3 ^ slipSyms.length ≤ kPaths) {best offs : List ℤ}
    (hbest : (slipSearch sort p slipObs slipSyms).head? = some best)
    (hoffs : SlipsFrom 0 slipSyms offs) :
    slipCost p slipObs slipSyms best ≤ slipCost p slipObs slipSyms offs := by
  have hmem := (mem_slipSearch_iff sort p slipObs slipSyms hirw hsome hroom offs).mpr hoffs
  have hsorted := pairwise_slipCost sort p slipObs slipSyms
  obtain ⟨rest, hrest⟩ := List.head?_eq_some_iff.mp hbest
  rw [hrest] at hmem hsorted
  rw [List.map_cons, List.pairwise_cons] at hsorted
  rcases List.mem_cons.mp hmem with rfl | hlater
  · exact le_rfl
  · exact hsorted.1 _ (List.mem_map_of_mem hlater)

/-- **The slip search.**  It returns at most 48 paths and none of them twice; each has one offset
for each symbol, within one step of the offset before, the first within one step of zero; they
come in the order of their metrics, which are the costs of the paths alone; and where there is
room for all such paths, they are all there. -/
theorem slipSearch_paths :
    (slipSearch sort p slipObs slipSyms).length ≤ 48 ∧
    (slipSearch sort p slipObs slipSyms).Nodup ∧
    (∀ offs ∈ slipSearch sort p slipObs slipSyms,
      offs.length = slipSyms.length ∧ SlipsFrom 0 slipSyms offs) ∧
    (slipBeam sort p slipObs slipSyms).cur.map SlipPath.metric
      = (slipSearch sort p slipObs slipSyms).map (slipCost p slipObs slipSyms) ∧
    ((slipSearch sort p slipObs slipSyms).map (slipCost p slipObs slipSyms)).Pairwise (· ≤ ·) ∧
    (0 < p.wanderIrwQ → 1 ≤ slipSyms.length → 3 ^ slipSyms.length ≤ 48 →
      (slipSearch sort p slipObs slipSyms).length = 3 ^ slipSyms.length ∧
      ∀ offs, offs ∈ slipSearch sort p slipObs slipSyms ↔ SlipsFrom 0 slipSyms offs) := by
  refine ⟨?_, nodup_slipSearch sort p slipObs slipSyms, ?_, metric_eq_slipCost sort p slipObs slipSyms,
    pairwise_slipCost sort p slipObs slipSyms, ?_⟩
  · rw [slipSearch, List.length_map, List.length_range]
    exact (paths_slipBeam sort p slipObs slipSyms).2.1
  · intro offs hoffs
    have hslips := slipsFrom_of_mem sort p slipObs slipSyms hoffs
    exact ⟨length_of_slipsFrom hslips, hslips⟩
  · intro hirw hsome hroom
    refine ⟨?_, mem_slipSearch_iff sort p slipObs slipSyms hirw hsome hroom⟩
    rw [slipSearch_eq, List.length_map,
      (paths_slipBeam_perm sort p slipObs slipSyms hirw hsome hroom).length_eq]
    exact length_runs (SlipFilter.length_choices _ slipObs) _ _

end Returned

/-- Two header symbols and one of the payload: all 27 paths are returned, also one that slips
at each of them. -/
theorem slipSearch_paths_three :
    let p : LoraParams := { wanderIrwQ := 1 }
    let slipSyms : List SlipSym := [⟨0, 1, true⟩, ⟨1, 2, true⟩, ⟨2, 2, false⟩]
    let slipObs : List SlipObs := [⟨1 / 2, 4, 1⟩, ⟨3 / 2, 0, 1⟩]
    (slipSearch (PartialSort.ofMergeSort _) p slipObs slipSyms).length = 27 ∧
    [-4, 0, 1] ∈ slipSearch (PartialSort.ofMergeSort _) p slipObs slipSyms := by
  intro p slipSyms slipObs
  obtain ⟨-, -, -, -, -, hall⟩ :=
    slipSearch_paths (PartialSort.ofMergeSort _) p slipObs slipSyms
  obtain ⟨hlen, hmem⟩ := hall (by norm_num [p]) (by decide) (by decide)
  exact ⟨hlen, (hmem _).mpr ⟨by decide, by decide, by decide, trivial⟩⟩

/-! ## What `finalizeData` applies -/

/-- With this search behind the tracker, what `finalizeData` takes out of the values and rows are
slips of one step a symbol at most. -/
theorem Receiver.slipsFrom_slipPath {α τ : Type} (R : Receiver α τ) (sort : PathSort)
    {slipObs : τ → List SlipObs} {slipSyms : τ → List SlipSym}
    (hsearch : ∀ t, R.tracker.slipSearch t = slipSearch sort R.params (slipObs t) (slipSyms t))
    {c : Core τ} {offs : List ℤ} (h : R.slipPath c = some offs) :
    SlipsFrom 0 (slipSyms c.tracker) offs := by
  have hmem : offs ∈ slipSearch sort R.params (slipObs c.tracker) (slipSyms c.tracker) := by
    unfold slipPath at h
    split_ifs at h
    rw [hsearch] at h
    rcases Option.or_eq_some_iff.mp h with hfound | ⟨-, hhead⟩
    · exact List.mem_of_find?_eq_some hfound
    · exact List.mem_of_head? hhead
  exact slipsFrom_of_mem _ _ _ _ hmem
