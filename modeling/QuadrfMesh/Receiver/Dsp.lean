/-
# Signal processing under the receiver

`include/phy/lora/symbol_demod.hpp`, `wander.hpp` and `resampler.cpp` as the receiver
uses them.  The control arithmetic on peaks is written out; transforms, carrier fits and
transcendental functions are parameters: functions of exactly the samples they are
handed.  `std::sort` is a parameter too, which leaves open the order of equals.  `double` and
`float` are exact rationals throughout.
-/
import QuadrfMesh.Lib.Beam
import QuadrfMesh.Lib.Rounding
import QuadrfMesh.Lora.Coding

/-! ## Peaks -/

/-- `struct ChipPeak`: the folded chip-domain peak of one window. -/
structure ChipPeak where
  chip : ℚ := 0
  chipInt : ℕ := 0
  magnitude : ℚ := 0
  noise : ℚ := 0
  chip2Int : ℕ := 0
  mag2 : ℚ := 0
  lobePower : ℚ := 0
  totalPower : ℚ := 0
  seg1 : ℚ × ℚ := (0, 0)
  seg2 : ℚ × ℚ := (0, 0)
  deriving DecidableEq, Repr

/-- Both folds of a data symbol, with the folded bin powers behind them. -/
structure DataPeaks where
  nc : ChipPeak := {}
  co : ChipPeak := {}
  foldedPower : List ℚ := []
  foldedCoherent : List ℚ := []

/-- `wrapSigned`: into half a period either side of zero. -/
def wrapSigned (v period : ℚ) : ℚ :=
  let v := fmod v period
  if period / 2 < v then v - period else if v < -period / 2 then v + period else v

theorem abs_wrapSigned_le (v : ℚ) {period : ℚ} (hp : 0 < period) :
    |wrapSigned v period| ≤ period / 2 := by
  obtain ⟨hlow, hhigh⟩ := abs_lt.mp (abs_fmod_lt v hp)
  unfold wrapSigned
  simp only
  split_ifs with hover hunder
  all_goals
    rw [abs_le]
    constructor <;> linarith

/-- `chipFrac`: fractional chip error against the nearest integer. -/
def chipFrac (relPos : ℚ) : ℚ := relPos - lround relPos

theorem abs_chipFrac_le (relPos : ℚ) : |chipFrac relPos| ≤ 1 / 2 := abs_sub_lround_le relPos

/-- `chipsToRawSamples`. -/
def chipsToRawSamples (chips : ℚ) (os : ℕ) (ratio : ℚ) : ℚ := chips * os * ratio

/-- Position of a peak relative to the reference, from `0` up. -/
def relPosOf (chip ref : ℚ) (nChips : ℕ) : ℚ :=
  let rel := wrapSigned (chip - ref) nChips
  if rel < 0 then rel + nChips else rel

/-- `channelSnrDb`: lobe against off-lobe mean. -/
def channelSnrDb (log10 : ℚ → ℚ) (pk : ChipPeak) (nChips sf : ℕ) : ℚ :=
  if nChips ≤ 5 ∨ sf = 0 ∨ pk.totalPower ≤ 0 then 0
  else
    let noise := pk.totalPower - pk.lobePower
    if noise ≤ 0 ∨ pk.lobePower ≤ 0 then 40
    else
      let nMean := noise / (nChips - 5)
      let s := pk.lobePower - 5 * nMean
      if s ≤ 0 ∨ nMean ≤ 0 then -20
      else 10 * log10 (s / nMean) - 10 * log10 (1 <<< sf : ℕ)

/-! ## Carrier wander -/

/-- `wanderChipsPerSymbol`: expected carrier change over one symbol, in chips. -/
def wanderChipsPerSymbol (symbolS rateHzPerS capHz : ℚ) : ℚ :=
  if rateHzPerS ≤ 0 then 0
  else
    let hz := rateHzPerS * symbolS
    (if hz < capHz then hz else capHz) * symbolS

/-- Symbol duration in seconds. -/
def symbolTime (p : LoraParams) : ℚ := chipCount p / p.bandwidthHz

/-- `sigma_w_`. -/
def sigmaW (p : LoraParams) : ℚ :=
  wanderChipsPerSymbol (symbolTime p) p.wanderRateHzPerS p.wanderCapHz

/-- `wander_`: track the carrier inside each symbol. -/
def wander (p : LoraParams) : Bool := decide (5 / 100 ≤ sigmaW p) && decide (2 ≤ osFactor p)

/-- `step_tol_`: peak step allowed between preamble windows. -/
def stepTol (p : LoraParams) : ℚ := if wander p then max 8 (4 * sigmaW p) else 8

/-- `sync_tol_`: residual allowed at the sync word. -/
def syncTol (p : LoraParams) : ℚ := if wander p then max 3 (3 * sigmaW p) else 3

/-- What `stepSync` reads off a fitted carrier trajectory: its ends, slope and end
variance. -/
structure WanderFit where
  eval0 : ℚ := 0
  eval1 : ℚ := 0
  meanSlope : ℚ := 0
  var1 : ℚ := 0

/-- Candidate for a symbol whose runner-up peak rivaled the winner. -/
structure AltSym where
  idx : ℕ
  value : UInt16
  ratio : ℚ

/-- The kernels of the receive path, each a function of the samples handed to it, and the
library's functions: `std::sort` on `anchors` and on `alts`, and three of `<cmath>`. -/
structure Dsp (α : Type) where
  farrowTap : List α → ℚ → α
  demod : List α → Bool → ChipPeak
  demodData : List α → ℤ → ℚ × ℚ → DataPeaks
  preambleSlope : List α → Option ℚ
  derotate : ℚ → List α → List α
  derotateRamp : ℚ → ℚ → List α → List α
  fitWindow : List α → Bool → ℤ → ℤ → ChipPeak → Option WanderFit
  sortAnchors : Beam.KeySort ℕ ℚ
  sortAlts : Beam.KeySort AltSym ℚ
  sqrt : ℚ → ℚ
  log10 : ℚ → ℚ
  exp : ℚ → ℚ

/-- What the carrier estimator of `trackSymbol` is handed for one symbol. -/
structure TrackInput (α : Type) where
  idx : ℕ
  reduced : Bool
  refPred : ℚ
  slopePred : ℚ
  varPred : ℚ
  v0 : ℤ
  b1 : ℤ
  wrap : ℤ
  window : List α
  peak : ChipPeak

/-- Its result: decision offset, residual, the window with the trajectory taken out
when the fit succeeded, and the carrier predicted at the next symbol start. -/
structure TrackResult (α τ : Type) where
  dHat : ℤ
  r0 : ℚ
  derotated : Option (List α)
  ref : ℚ
  slope : ℚ
  var : ℚ
  state : τ

/-- The carrier estimator behind `trackSymbol` and the slip search (`WanderFit`, the
joint fit and the Kalman filter with its smoother), with a state of its own. -/
structure CarrierTracker (α τ : Type) where
  initial : τ
  clear : τ → τ
  track : τ → TrackInput α → TrackResult α τ
  shift : τ → ℤ → τ
  slipSearch : τ → List (List ℤ)

/-! ## Resampling -/

section Resample

variable {α : Type}

/-- `resampleCatmullRom` from output `k` on, `count` outputs still to come: it stops
where one of the four taps is outside the buffer. -/
def resampleFrom (tap : List α → ℚ → α) (buf : List α) (size : ℕ) (start ratio : ℚ) :
    ℕ → ℕ → List α
  | 0, _ => []
  | count + 1, k =>
      let pos := start + k * ratio
      let i1 := ⌊pos⌋
      if i1 < 1 ∨ (size : ℤ) ≤ i1 + 2 then []
      else
        tap ((buf.drop (i1 - 1).toNat).take 4) (pos - i1)
          :: resampleFrom tap buf size start ratio count (k + 1)

/-- `resampleCatmullRom`. -/
def resampleCatmullRom (tap : List α → ℚ → α) (buf : List α) (start ratio : ℚ) (count : ℕ) :
    List α :=
  resampleFrom tap buf buf.length start ratio count 0

/-- The samples `preambleSlope` reads: whole windows, one fewer than the preamble has,
as far as the buffer goes.  The count is unsigned, so a preamble length of zero wraps. -/
def preambleSamples (sps preambleLen : ℕ) (buf : List α) (start : ℕ) : List α :=
  let wanted := if preambleLen = 0 then 2 ^ 64 - 1 else preambleLen - 1
  let usable := min wanted ((buf.length - start) / sps)
  (buf.drop start).take (usable * sps)

/-- `preambleSlope` on the samples it reads: no slope from fewer than five windows. -/
def slopeOf (dsp : Dsp α) (sps : ℕ) (samples : List α) : Option ℚ :=
  if samples.length / sps < 5 then none else dsp.preambleSlope samples

end Resample
