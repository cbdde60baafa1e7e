/-
# Data symbols (`Receiver::stepData`, `Receiver::trackSymbol`)

One window per symbol, resampled out of the raw buffer at the estimated rate.  A step
here is one pass of the loop in `stepData`: it waits for the window, reads the symbol and
checks the header, or leaves the loop and finalizes the frame.  The symbol is read with
same-symbol window refinement and a PI timing loop, or under wander by the carrier
tracker.
-/
import QuadrfMesh.Receiver.Sync

/-! ## Window refinement -/

/-- The best window so far in `refineSymbolWindow`; `tried` when any trial was demodulated. -/
structure Refinement where
  pk : ChipPeak
  relPos : ℚ
  frac : ℚ
  shift : ℚ := 0
  tried : Bool := false

section Refine

variable {α : Type} (ref : ℚ) (nChips : ℕ) (tryShift : ℚ → Reading α (Option ChipPeak))

/-- `consider`: a trial wins by a louder or tighter peak; on a tie, by being earlier. -/
def consider (best : Refinement) (shift : ℚ) : Reading α Refinement := do
  let trial ← tryShift shift
  match trial with
  | none => pure best
  | some pk2 =>
      let rel2 := relPosOf pk2.chip ref nChips
      let frac2 := chipFrac rel2
      let tighter := decide (|frac2| < |best.frac| - 1 / 1000000)
      let tiedFrac := decide (|(|frac2| - |best.frac|)| ≤ 1 / 1000000)
      let louder := decide (best.pk.magnitude * (102 / 100) < pk2.magnitude)
      let dropTie := tiedFrac && decide (shift < best.shift) &&
        decide (best.pk.magnitude * (98 / 100) ≤ pk2.magnitude)
      if louder || tighter || dropTie then
        pure { pk := pk2, relPos := rel2, frac := frac2, shift, tried := true }
      else pure { best with tried := true }

/-- `refineSymbolWindow`: one sample either way, and a proportional nudge when the
fraction is clearly interior. -/
def refineSymbolWindow (os : ℕ) (ratio : ℚ) (pk : ChipPeak) (relPos frac : ℚ) :
    Reading α Refinement := do
  let best : Refinement := { pk, relPos, frac }
  if |frac| ≤ 1 / 4 then pure best
  else
    let best ← consider ref nChips tryShift best (-1)
    let best ← consider ref nChips tryShift best 1
    if 8 / 100 < |(|frac| - 1 / 2)| then
      consider ref nChips tryShift best (-chipsToRawSamples frac os ratio)
    else pure best

end Refine

namespace Receiver

variable {α τ : Type} (R : Receiver α τ)

/-! ## Reading a symbol -/

/-- `std::abs` of a complex number. -/
def cabs (z : ℚ × ℚ) : ℚ := R.dsp.sqrt (z.1 * z.1 + z.2 * z.2)

/-- The integer reference as a signed chip count. -/
def refPhys (refInt : ℚ) : ℤ := lround (wrapSigned refInt R.nChips)

/-- Coherent fold once the rotation estimate is consistent. -/
def coherent (c : Core τ) : Bool :=
  R.params.coherentFold && decide (0 < c.foldMag) && decide (6 / 10 * c.foldMag < R.cabs c.foldAcc)

/-- The rotation estimate. -/
def foldRot (c : Core τ) : ℚ × ℚ :=
  let a := R.cabs c.foldAcc
  if 0 < a then (c.foldAcc.1 / a, c.foldAcc.2 / a) else (1, 0)

/-- Decision-directed rotation update at the decided peak, with about six symbols of
memory. -/
def updateFold (acc : ℚ × ℚ) (mag : ℚ) (pk : ChipPeak) : (ℚ × ℚ) × ℚ :=
  ((85 / 100 * acc.1 + (pk.seg1.1 * pk.seg2.1 + pk.seg1.2 * pk.seg2.2),
      85 / 100 * acc.2 + (pk.seg1.2 * pk.seg2.1 - pk.seg1.1 * pk.seg2.2)),
    85 / 100 * mag + R.cabs pk.seg1 * R.cabs pk.seg2)

/-- A value on the chip circle. -/
def chipValue (x : ℤ) : UInt16 := UInt16.ofNat (x % R.nChips).toNat

/-- The runner-up's value, when it rivals the winner. -/
def altOf (pk : ChipPeak) (value : UInt16) : Option (UInt16 × ℚ) :=
  if 3 / 10 * pk.magnitude < pk.mag2 then some (value, pk.mag2 / pk.magnitude) else none

/-- Folded magnitudes in value order. -/
def softRow (folded : List ℚ) (refPhys : ℤ) : List ℚ :=
  (List.range R.nChips).map fun v =>
    R.dsp.sqrt (folded.getD (((v : ℤ) + refPhys) % R.nChips).toNat 0)

def snrOf (pk : ChipPeak) : Option ℚ :=
  if 0 < pk.totalPower then
    some (channelSnrDb R.dsp.log10 pk R.nChips R.params.spreadingFactor)
  else none

/-- Samples per symbol at the estimated rate. -/
def stepLen (c : Core τ) : ℚ := R.sps * c.totalRatio

/-- Let go of the samples behind the next symbol. -/
def trimBehind (dataRawF : ℚ) : Reading α Unit :=
  let keep := dataRawF - 8
  if 0 < keep then Reading.trimFront (truncate keep).toNat else pure ()

/-- One trial window of the refinement: refused when the buffer does not have it. -/
def tryWindow (c : Core τ) (derotate : List α → List α) (shift : ℚ) :
    Reading α (Option ChipPeak) := do
  let s2 := c.dataRawF + shift
  let kept ← Reading.kept s2
  if kept then
    let inside ← Reading.before (s2 + R.stepLen c + 3)
    if inside then
      let win ← Reading.resample s2 c.totalRatio R.sps
      pure (if win.length < R.sps then none else some (R.dsp.demod (derotate win) false))
    else pure none
  else pure none

/-- The symbol body of `stepData` on its resampled window. -/
def readSymbol (c : Core τ) (win : List α) : Reading α (SymbolReading τ) := do
  let refInt : ℚ := lround c.ref
  let cfoFrac := c.ref - refInt
  let derotate (w : List α) : List α := if |cfoFrac| < 1 / 1000 then w else R.dsp.derotate cfoFrac w
  let refPhys := R.refPhys refInt
  let coherent := R.coherent c
  let rot := R.foldRot c
  -- timing always reads the power fold
  let first := R.dsp.demodData (derotate win) refPhys rot
  let relPos := relPosOf first.nc.chip refInt R.nChips
  let frac := chipFrac relPos
  let refineOk := decide (R.params.refineMinSnrDb - R.sfGainDb ≤
    channelSnrDb R.dsp.log10 first.nc R.nChips R.params.spreadingFactor)
  let best : Refinement ←
    if refineOk then
      refineSymbolWindow refInt R.nChips (R.tryWindow c derotate) R.os c.totalRatio first.nc
        relPos frac
    else pure { pk := first.nc, relPos, frac }
  -- the shift stays for the rest of the frame
  let moved := decide (best.shift ≠ 0)
  let peaks : DataPeaks ←
    if best.tried then do
      let win ← Reading.resample (c.dataRawF + best.shift) c.totalRatio R.sps
      pure (R.dsp.demodData (derotate win) refPhys rot)
    else pure first
  let nc := if moved then best.pk else first.nc
  let relPos := if moved then best.relPos else relPos
  let frac := if moved then best.frac else frac
  let decided := if coherent then peaks.co else nc
  let fold := R.updateFold (if moved then (0, 0) else c.foldAcc) (if moved then 0 else c.foldMag) decided
  let relPos := if coherent then relPosOf peaks.co.chip refInt R.nChips else relPos
  let timingInt := c.timingInt + R.params.timingKi * frac
  let adj := -chipsToRawSamples (R.params.timingKp * frac + timingInt) R.os c.totalRatio
  let dataRawF := c.dataRawF + best.shift + (R.stepLen c + adj)
  trimBehind dataRawF
  pure
    { value := R.chipValue (lround relPos % 2 ^ 32)
      alt := altOf decided (R.chipValue (lround (relPosOf decided.chip2Int refInt R.nChips) % 2 ^ 32))
      softRow := R.softRow (if coherent then peaks.foldedCoherent else peaks.foldedPower) refPhys
      symFrac := chipFrac relPos
      snr := R.snrOf decided
      foldAcc := fold.1
      foldMag := fold.2
      timingInt
      dataRawF
      ref := c.ref
      trkSlope := c.trkSlope
      trkVar := c.trkVar
      slipSyms := c.slipSyms
      tracker := c.tracker }

/-- `trackSymbol`: the value is read against the predicted carrier, then moved by the
decision offset of the carrier fit. -/
def trackSymbol (c : Core τ) (win : List α) : Reading α (SymbolReading τ) := do
  let refInt : ℚ := lround c.ref
  let win := R.dsp.derotateRamp (c.ref - refInt) c.trkSlope win
  let refPhys := R.refPhys refInt
  let coherent := R.coherent c
  let rot := R.foldRot c
  let first := R.dsp.demodData win refPhys rot
  let provisional := if coherent then first.co else first.nc
  let v0 : ℤ := ((provisional.chipInt : ℤ) - refPhys) % R.nChips
  let fit := R.tracker.track c.tracker
    { idx := c.rawValues.length
      reduced := decide (c.rawValues.length < 8) || R.params.ldro
      refPred := c.ref
      slopePred := c.trkSlope
      varPred := c.trkVar
      v0
      b1 := (v0 + refPhys) % R.sps
      wrap := (R.nChips - v0) * R.os
      window := win
      peak := provisional }
  -- the re-read puts one sharp tone at the decided bin
  let peaks := match fit.derotated with
    | some w => R.dsp.demodData w refPhys rot
    | none => first
  let pk := if coherent then peaks.co else peaks.nc
  let fold := R.updateFold c.foldAcc c.foldMag pk
  let dataRawF := c.dataRawF + R.stepLen c
  trimBehind dataRawF
  pure
    { value := R.chipValue (v0 - fit.dHat)
      alt := altOf pk (R.chipValue (pk.chip2Int - refPhys))
      softRow := R.softRow (if coherent then peaks.foldedCoherent else peaks.foldedPower) refPhys
      symFrac := max (-1 / 2) (min (1 / 2) fit.r0)
      snr := R.snrOf pk
      foldAcc := fold.1
      foldMag := fold.2
      timingInt := c.timingInt
      dataRawF
      ref := fit.ref
      trkSlope := fit.slope
      trkVar := fit.var
      slipSyms := c.slipSyms + 1
      tracker := fit.state }

/-- The body of the loop: the tracker under wander. -/
def demodSymbol (c : Core τ) (win : List α) : Reading α (SymbolReading τ) :=
  if wander R.params then R.trackSymbol c win else R.readSymbol c win

/-! ## The loop -/

/-- One pass of the loop in `stepData`. -/
def stepData (c : Core τ) : Reading α (Option (Core τ)) := do
  if R.collecting c then
    let kept ← Reading.kept c.dataRawF
    if kept then
      let inside ← Reading.before (c.dataRawF + R.stepLen c + 3)
      if inside then
        let win ← Reading.resample c.dataRawF c.totalRatio R.sps
        if win.length < R.sps then pure none
        else
          let r ← R.demodSymbol c win
          match R.collect c r with
          | some c => pure (some c)
          -- bad header; stop early
          | none => some <$> R.finalizeData (c.absorb r)
      -- wait for more input
      else pure none
    -- history lost; finalize with what we have
    else some <$> R.finalizeData c
  else some <$> R.finalizeData c

/-- One pass of the loop in `process`; `none` when there is no progress. -/
def step (c : Core τ) : Reading α (Option (Core τ)) :=
  match c.state with
  | .search => R.stepSearch c
  | .sync => R.stepSync c
  | .data => R.stepData c

/-! ## What a data step does -/

/-- The results of a pass in `stepData`: it waits, reads a symbol the header check lets
pass, stops on one it does not, or closes the frame. -/
inductive DataStep (c : Core τ) : Option (Core τ) → Prop
  | wait : DataStep c none
  | collect {r : SymbolReading τ} {c' : Core τ} (hmore : R.collecting c = true)
      (hpass : R.collect c r = some c') : DataStep c (some c')
  | stop {r : SymbolReading τ} {scanAbs : ℕ} (hmore : R.collecting c = true)
      (hbad : R.collect c r = none) :
      DataStep c (some ((R.emitFrame (c.absorb r)).restart scanAbs))
  | close {scanAbs : ℕ} : DataStep c (some ((R.emitFrame c).restart scanAbs))

variable {R} in
theorem returns_finalizeData {P : Option (Core τ) → Prop} {c : Core τ}
    (h : ∀ scanAbs, P (some ((R.emitFrame c).restart scanAbs))) :
    Asking.Returns P (some <$> R.finalizeData c) := fun scanAbs => h scanAbs

/-- **The step cases** of `stepData`, whatever the buffer answers. -/
theorem returns_stepData (c : Core τ) : Asking.Returns (R.DataStep c) (R.stepData c) := by
  unfold stepData
  split
  · rename_i hmore
    apply Asking.returns_bind
    intro kept
    split
    · apply Asking.returns_bind
      intro inside
      split
      · apply Asking.returns_bind
        intro win
        split
        · exact DataStep.wait
        · apply Asking.returns_bind
          intro r
          rcases hpass : R.collect c r with _ | c'
          · exact returns_finalizeData fun _ => DataStep.stop hmore hpass
          · exact DataStep.collect hmore hpass
      · exact DataStep.wait
    · exact returns_finalizeData fun _ => DataStep.close
  · exact returns_finalizeData fun _ => DataStep.close

end Receiver
