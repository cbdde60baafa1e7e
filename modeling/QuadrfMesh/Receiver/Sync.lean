/-
# Search and sync (`Receiver::stepSearch`, `Receiver::stepSync`)

`stepSearch` looks at one raw window per symbol period for a run of strong windows with
a slowly moving peak.  `stepSync` waits for the whole preamble, sync word and SFD, then
estimates rate, carrier offset and timing in one shot and fixes where the data starts.
A step that has to wait for more input returns `none` and leaves the state alone.
-/
import QuadrfMesh.Receiver.Finalize

namespace Receiver

variable {α τ : Type} (R : Receiver α τ)

/-! ## Search -/

/-- The effect of one searched window. -/
def searchWindow (c : Core τ) (scanAbs : ℕ) (pk : ChipPeak) : Core τ :=
  let strong := decide (0 < pk.noise) && decide (6 * pk.noise < pk.magnitude)
  let contiguous := decide (0 < c.runLen) &&
    decide (|wrapSigned (pk.chip - c.prevChip) R.nChips| < stepTol R.params)
  if strong && (decide (c.runLen = 0) || contiguous) then
    let runStartAbs := if c.runLen = 0 then scanAbs else c.runStartAbs
    let c := { c with
      runStartAbs, runLen := c.runLen + 1, prevChip := pk.chip, scanAbs := scanAbs + R.sps }
    if 6 ≤ c.runLen then { c with foundAbs := runStartAbs, state := .sync } else c
  else
    { c with
      runLen := if strong then 1 else 0
      runStartAbs := scanAbs
      prevChip := pk.chip
      scanAbs := scanAbs + R.sps }

/-- Where the run that a window goes on with begins: at the window, if there is none. -/
def runStart (c : Core τ) (scanAbs : ℕ) : ℕ := if c.runLen = 0 then scanAbs else c.runStartAbs

/-- The results of a window searched: it makes the run long enough, or longer, or breaks it
and may begin one of its own. -/
inductive SearchStep (c : Core τ) (scanAbs : ℕ) : Core τ → Prop
  | found {chip : ℚ} (hlong : 6 ≤ c.runLen + 1) :
      SearchStep c scanAbs
        { c with
          runStartAbs := runStart c scanAbs
          runLen := c.runLen + 1
          prevChip := chip
          scanAbs := scanAbs + R.sps
          foundAbs := runStart c scanAbs
          state := .sync }
  | longer {chip : ℚ} (hshort : c.runLen + 1 < 6) :
      SearchStep c scanAbs
        { c with
          runStartAbs := runStart c scanAbs
          runLen := c.runLen + 1
          prevChip := chip
          scanAbs := scanAbs + R.sps }
  | broken {chip : ℚ} {runLen : ℕ} (hrun : runLen = 0 ∨ (runLen = 1 ∧ 0 < c.runLen)) :
      SearchStep c scanAbs
        { c with
          runLen
          runStartAbs := scanAbs
          prevChip := chip
          scanAbs := scanAbs + R.sps }

/-- **The step cases** of `searchWindow`. -/
theorem searchStep (c : Core τ) (scanAbs : ℕ) (pk : ChipPeak) :
    R.SearchStep c scanAbs (R.searchWindow c scanAbs pk) := by
  unfold searchWindow
  simp only
  split
  · split
    · rename_i hlong
      exact SearchStep.found hlong
    · rename_i hshort
      exact SearchStep.longer (not_le.mp hshort)
  · rename_i hbroken
    refine SearchStep.broken ?_
    split_ifs with hstrong
    · -- a strong window breaks a run only
      refine Or.inr ⟨rfl, Nat.pos_of_ne_zero fun hnone => hbroken ?_⟩
      rw [hstrong, decide_eq_true hnone]
      rfl
    · exact Or.inl rfl

/-- `stepSearch`.  While it waits, only the margin behind the run or scan point is kept;
a waiting search clamps its scan point again when it is called next. -/
def stepSearch (c : Core τ) : Reading α (Option (Core τ)) := do
  let scanAbs ← Reading.clampScan c.scanAbs
  let ready ← Reading.arrived (scanAbs + R.sps)
  if ready then
    let w ← Reading.rawWindow scanAbs R.sps
    pure (some (R.searchWindow c scanAbs (R.dsp.demod w false)))
  else
    let margin := R.sps / 2 + 8
    let keep := if 0 < c.runLen then c.runStartAbs else scanAbs
    let _ ← Reading.trimFront (keep - margin)
    pure none

/-! ## Rate -/

/-- The rate loop of `stepSync` from pass `iter` on: the resampled span and the total
ratio, or `none` when the buffer ends more than two symbols early. -/
def rateEstimate (foundAbs back originAbs resLen : ℕ) :
    ℕ → ℕ → List α → ℚ → Reading α (Option (List α × ℚ))
  | 0, _, resampled, ratio => pure (some (resampled, ratio))
  | passes + 1, iter, resampled, ratio => do
      let fitted : Option ℚ ←
        if wander R.params then pure (some 0)
        else if iter = 0 then do
          let samples ← Reading.preamble foundAbs R.sps R.params.preambleLen
          pure (slopeOf R.dsp R.sps samples)
        else pure (slopeOf R.dsp R.sps (preambleSamples R.sps R.params.preambleLen resampled back))
      match fitted, iter with
      | none, _ + 1 => pure (some (resampled, ratio))
      | fitted, _ =>
          -- a detection too late to fit goes on at ratio one
          let slope := fitted.getD 0
          let ratioI := 1 - slope * R.os / R.sps
          let lim := R.params.maxRatePpm / 1000000
          let ratio :=
            if 0 < R.params.maxRatePpm then max (1 - lim) (min (1 + lim) (ratio * ratioI))
            else ratio * ratioI
          let resampled ← Reading.resample originAbs ratio resLen
          if resampled.length + 2 * R.sps < resLen then pure none
          else if |ratioI - 1| < 30 / 1000000 then pure (some (resampled, ratio))
          else rateEstimate foundAbs back originAbs resLen passes (iter + 1) resampled ratio

/-! ## Preamble -/

/-- A window of the resampled span. -/
def spanPeak (resampled : List α) (pos : ℕ) (down : Bool) : ChipPeak :=
  R.dsp.demod ((resampled.drop pos).take R.sps) down

/-- The strongest of the first six windows, with its magnitude. -/
def strongestEarly (resampled : List α) (back : ℕ) : ℕ × ℚ :=
  ((List.range 6).filter fun k => decide (back + k * R.sps + R.sps ≤ resampled.length)).foldl
    (fun best k =>
      let m := (R.spanPeak resampled (back + k * R.sps) false).magnitude
      if best.2 < m then (back + k * R.sps, m) else best)
    (back, 0)

/-- Back to the preamble start, one window at a time. -/
def walkBack (resampled : List α) (firstMag : ℚ) : ℕ → ℕ → ℕ
  | 0, preStart => preStart
  | fuel + 1, preStart =>
      if preStart < R.sps then preStart
      else
        let prev := R.spanPeak resampled (preStart - R.sps) false
        let cur := R.spanPeak resampled preStart false
        if prev.magnitude < 1 / 4 * firstMag then preStart
        else if stepTol R.params < |wrapSigned (prev.chip - cur.chip) R.nChips| then preStart
        else walkBack resampled firstMag fuel (preStart - R.sps)

/-- Under wide wander only the SFD ends the preamble. -/
def countBySfd : Bool :=
  wander R.params && decide (2 * (syncChip0 R.params : ℚ) ≤ stepTol R.params)

/-- The chips of the preamble windows from `preStart` on. -/
def preambleChips (resampled : List α) (firstMag : ℚ) (preStart : ℕ) : ℕ → List ℚ → List ℚ
  | 0, chips => chips
  | fuel + 1, chips =>
      let pos := preStart + chips.length * R.sps
      if resampled.length < pos + R.sps then chips
      else
        let pk := R.spanPeak resampled pos false
        if R.countBySfd then
          -- a window louder as a down-chirp belongs to the SFD
          if pk.magnitude < 8 / 100 * firstMag ∨
              7 / 10 * pk.magnitude < (R.spanPeak resampled pos true).magnitude then chips
          else if R.params.preambleLen + 4 < chips.length + 1 then chips ++ [pk.chip]
          else preambleChips resampled firstMag preStart fuel (chips ++ [pk.chip])
        else if chips ≠ [] ∧
            max 6 (stepTol R.params) < |wrapSigned (pk.chip - chips.getLastD 0) R.nChips| then chips
        else if R.params.preambleLen + 2 < chips.length + 1 then chips ++ [pk.chip]
        else preambleChips resampled firstMag preStart fuel (chips ++ [pk.chip])

/-- The preamble, without the two sync symbols an SFD count takes in. -/
def countPreamble (resampled : List α) (firstMag : ℚ) (preStart : ℕ) : List ℚ :=
  let chips := R.preambleChips resampled firstMag preStart (R.params.preambleLen + 6) []
  if R.countBySfd && decide (6 ≤ chips.length) then chips.take (chips.length - 2) else chips

/-- The chip the up-chirps read. -/
def upChip (chips : List ℚ) : ℚ :=
  let nPre := chips.length
  let nU := min 3 nPre
  let last := chips.getD (nPre - 1) 0
  if wander R.params && decide ((syncChip0 R.params : ℚ) ≤ max 6 (stepTol R.params)) then
    let first := chips.getD 0 0
    let rel := (chips.map fun x => wrapSigned (x - first) R.nChips).mergeSort fun a b => decide (a ≤ b)
    first + rel.getD (nPre / 2) 0
  else
    last + ((chips.drop (nPre - nU)).map fun x => wrapSigned (x - last) R.nChips).sum / nU

/-! ## Carrier offset and timing -/

/-- Carrier of a window with a known tone: start and end frequency, end slope. -/
structure KnownFit where
  f0 : ℚ := 0
  f1 : ℚ := 0
  slope1 : ℚ := 0
  var1 : ℚ := 0

/-- `fitKnown`. -/
def fitKnown (w : List α) (down aligned : Bool) (expect : ℕ) : Option KnownFit :=
  let pk := R.dsp.demod w down
  let chip : ℚ := lround pk.chip
  let tone : ℚ := if down then 0 else expect
  let b1 : ℤ :=
    if aligned then truncate (tone + wrapSigned (chip - tone) R.nChips)
    else (truncate chip).tmod R.nChips
  let wrap : ℤ := if aligned then (if down then R.sps else ((R.nChips : ℤ) - expect) * R.os) else -1
  (R.dsp.fitWindow w down b1 wrap pk).map fun fit =>
    { f0 := b1 + fit.eval0, f1 := b1 + fit.eval1, slope1 := fit.meanSlope, var1 := fit.var1 }

/-- At the widest spreading the sync word is read off its jumps. -/
def syncByJumps : Bool := wander R.params && decide (2 < sigmaW R.params)

/-- Common offset allowed at the sync word. -/
def commonTol : ℚ :=
  if wander R.params then max (syncTol R.params) (1500 * R.nChips / R.params.bandwidthHz)
  else syncTol R.params

/-- `syncPass`. -/
def syncPass (e0 e1 : ℚ) : Bool :=
  if wander R.params then
    decide (|e1 - e0| < syncTol R.params) && decide (|1 / 2 * (e0 + e1)| < R.commonTol)
  else decide (|e0| < 3) && decide (|e1| < 3)

/-- Carrier, timing and sync position, with the best score so far. -/
structure SyncFix where
  found : Bool := false
  score : ℚ := 0
  kSync : ℕ := 0
  cfo : ℚ := 0
  tau : ℚ := 0
  aligned0 : ℚ := 0
  err0 : ℚ := 0
  err1 : ℚ := 0

/-- Jump residual of a sync word read at `qi`, when the three windows can be fitted. -/
def jumpError (resampled : List α) (qi : ℕ) : Option ℚ := do
  let fitAt (pos : ℕ) : Option KnownFit :=
    R.fitKnown ((resampled.drop pos).take R.sps) false false 0
  if qi < R.sps then none
  let kp ← fitAt (qi - R.sps)
  let k0 ← fitAt qi
  let k1 ← fitAt (qi + R.sps)
  let s0 := syncChip0 R.params
  let s1 := syncChip1 R.params
  let j0 := wrapSigned (k0.f0 - kp.f1 - s0) R.nChips
  let j1 := wrapSigned (k1.f0 - k0.f1 - ((s1 : ℚ) - s0)) R.nChips
  pure (|j0| + |j1|)

/-- One carrier, timing and sync position hypothesis against the best so far. -/
def trySync (resampled : List α) (preStart nPre : ℕ) (best : SyncFix)
    (hyp : (ℚ × ℚ) × ℤ) : SyncFix :=
  let cfoC := hyp.1.1
  let tau := hyp.1.2
  let a0 : ℚ := preStart - tau
  let q := a0 + (nPre + hyp.2) * R.sps
  if q < 0 then best
  else
    let qi := (lround q).toNat
    if resampled.length < qi + 2 * R.sps then best
    else
      let s0 := R.spanPeak resampled qi false
      let s1 := R.spanPeak resampled (qi + R.sps) false
      let e0 := wrapSigned (s0.chip - cfoC - syncChip0 R.params) R.nChips
      let e1 := wrapSigned (s1.chip - cfoC - syncChip1 R.params) R.nChips
      let loudness := s0.magnitude + s1.magnitude
      let score : Option ℚ :=
        if R.syncByJumps && R.syncPass e0 e1 then
          match R.jumpError resampled qi with
          | none => none
          | some jerr => if max 6 (2 * sigmaW R.params) < jerr then none else some (loudness / (1 + jerr))
        else some loudness
      match score with
      | none => best
      | some score =>
          -- a mistimed grid straddles symbols and is weak: the loudest wins
          if R.syncPass e0 e1 && decide (best.score < score) then
            { found := true
              score
              kSync := (nPre + hyp.2).toNat
              cfo := if wander R.params then cfoC + 1 / 2 * (e0 + e1) else cfoC
              tau
              aligned0 := a0
              err0 := e0
              err1 := e1 }
          else best

/-- The carrier and timing hypotheses of one SFD reading. -/
def hypotheses (u dwChip : ℚ) : List (ℚ × ℚ) :=
  let cfoMain := wrapSigned (u + dwChip) R.nChips / 2
  let cfoAlias := if 0 < cfoMain then cfoMain - R.nChips / 2 else cfoMain + R.nChips / 2
  let tau0 := R.os * wrapSigned (u - dwChip) R.nChips / 2
  let tauAlt := if 0 < tau0 then tau0 - R.sps / 2 else tau0 + R.sps / 2
  [(cfoMain, tau0), (cfoMain, tauAlt)] ++
    if |cfoAlias| ≤ R.params.maxCfoHz * R.nChips / R.params.bandwidthHz then
      [(cfoAlias, tau0), (cfoAlias, tauAlt)]
    else []

/-- The sync search over both SFD windows, their runner-ups, the half-symbol timing
ambiguity and the carrier alias. -/
def syncSearch (resampled : List α) (preStart nPre : ℕ) (u : ℚ) : SyncFix :=
  let sfdGrid := preStart + (nPre + 2) * R.sps
  let dw0 := R.spanPeak resampled sfdGrid true
  let dw1 := R.spanPeak resampled (sfdGrid + R.sps) true
  let dwA := if dw0.magnitude < dw1.magnitude then dw1 else dw0
  let dwB := if dw0.magnitude < dw1.magnitude then dw0 else dw1
  let cands := [dwA.chip, dwB.chip] ++
    ([dwA, dwB].filter fun pk => decide (3 / 10 * pk.magnitude < pk.mag2)).map
      fun pk => (pk.chip2Int : ℚ)
  let dks : List ℤ := if wander R.params then [-3, -2, -1, 0, 1] else [-1, 0, 1]
  let tau := R.os * wrapSigned (u - dwA.chip) R.nChips / 2
  let start : SyncFix :=
    { kSync := nPre
      cfo := wrapSigned (u + dwA.chip) R.nChips / 2
      tau
      aligned0 := preStart - tau }
  ((cands.flatMap fun dwChip => R.hypotheses u dwChip).flatMap fun hyp =>
    dks.map fun dk => (hyp, dk)).foldl (R.trySync resampled preStart nPre) start

/-- SFD magnitude on the aligned grid. -/
def sfdSeen (resampled : List α) (firstMag : ℚ) (fix : SyncFix) : Bool :=
  let qi := (lround (max (fix.aligned0 + (fix.kSync + 2) * R.sps) 0)).toNat
  decide (qi + R.sps ≤ resampled.length) &&
    decide (1 / 4 * firstMag < (R.spanPeak resampled qi true).magnitude)

/-! ## Calibration -/

section Calibration

variable (originAbs : ℕ) (ratio : ℚ) (fix : SyncFix)

/-- `calWindow`: the window of symbol `symIdx`, resampled from the raw buffer, if the
buffer has it; `whole` takes it at the nearest sample, this many samples late. -/
def calWindow (symIdx : ℚ) (whole : Bool) : Reading α (Option (List α × ℚ)) := do
  let exact := originAbs + (fix.aligned0 + symIdx * R.sps) * ratio
  let rawF : ℚ := if whole then lround exact else exact
  let kept ← Reading.kept rawF
  if kept then
    let inside ← Reading.before (rawF + R.sps * ratio + 3)
    if inside then
      let win ← Reading.resample rawF ratio R.sps
      pure (if R.sps ≤ win.length then some (win, rawF - exact) else none)
    else pure none
  else pure none

/-- The residuals of the known symbols `(index, expected chip)` that are in bounds. -/
def calErrors (down : Bool) : List (ℚ × ℕ) → Reading α (List ℚ)
  | [] => pure []
  | (symIdx, expect) :: rest => do
      let win ← R.calWindow originAbs ratio fix symIdx false
      let errs ← calErrors down rest
      match win with
      | none => pure errs
      | some (win, _) =>
          let err := wrapSigned ((R.dsp.demod win down).chip - expect - fix.cfo) R.nChips
          pure (if |err| ≤ syncTol R.params then err :: errs else errs)

/-- Reference, timing residual and carrier track at the data start. -/
structure Calibration where
  ref : ℚ
  timingChips : ℚ
  slope : ℚ
  var : ℚ

/-- A known symbol fitted on whole samples, the lateness of its window taken out. -/
def calFit (symIdx : ℚ) (down : Bool) (expect : ℕ) : Reading α (Option KnownFit) := do
  let win ← R.calWindow originAbs ratio fix symIdx true
  match win with
  | none => pure none
  | some (win, shift) =>
      -- a late window reads up-chirps high and down-chirps low
      let late := if down then -(shift / R.os) else shift / R.os
      pure ((R.fitKnown win down true expect).map fun kf =>
        { kf with f0 := kf.f0 - late, f1 := kf.f1 - late })

/-- The averages over sync word, late preamble and SFD. -/
def coarseCalibration : Reading α Calibration := do
  let k : ℚ := fix.kSync
  let ups : List (ℚ × ℕ) :=
    if fix.found then
      [(k, syncChip0 R.params), (k + 1, syncChip1 R.params), (k - 1, 0), (k - 2, 0)]
    else [(k - 1, 0), (k - 2, 0), (k - 3, 0), (k - 4, 0)]
  let up ← R.calErrors originAbs ratio fix false ups
  let dn ← R.calErrors originAbs ratio fix true [(k + 2, 0), (k + 3, 0)]
  let mUp := up.sum / up.length
  let mDn := dn.sum / dn.length
  let var := sigmaW R.params * sigmaW R.params
  if up ≠ [] ∧ dn ≠ [] then
    pure { ref := fix.cfo + (mUp + mDn) / 2, timingChips := (mUp - mDn) / 2, slope := 0, var }
  else if up ≠ [] then pure { ref := fix.cfo + mUp, timingChips := 0, slope := 0, var }
  else pure { ref := fix.cfo, timingChips := 0, slope := 0, var }

/-- Under wander, the carrier at the sync word and SFD boundary, followed through both
down-chirps. -/
def fineCalibration (coarse : Calibration) : Reading α Calibration := do
  let k : ℚ := fix.kSync
  let su ← R.calFit originAbs ratio fix (k + 1) false (syncChip1 R.params)
  match su with
  | none => pure coarse
  | some su =>
      let d0 ← R.calFit originAbs ratio fix (k + 2) true 0
      match d0 with
      | none => pure coarse
      | some d0 =>
          let d1 ← R.calFit originAbs ratio fix (k + 3) true 0
          match d1 with
          | none => pure coarse
          | some d1 =>
              let mUp := wrapSigned (su.f1 - syncChip1 R.params - fix.cfo) R.nChips
              let mDn := wrapSigned (d0.f0 - fix.cfo) R.nChips
              if |mUp| ≤ R.commonTol ∧ |mDn| ≤ R.commonTol then
                let drift := wrapSigned (d1.f1 - d0.f0) R.nChips
                let trkBeta := R.dsp.exp (-symbolTime R.params / (1 / 100))
                pure
                  { ref := fix.cfo + (mUp + mDn) / 2 + drift + 1 / 4 * d1.slope1
                    timingChips := (mUp - mDn) / 2
                    slope := trkBeta * d1.slope1
                    var := 1 / 4 * su.var1 + d1.var1
                      + 625 / 10000 * sigmaW R.params * sigmaW R.params }
              else pure coarse

/-- Both calibrations in turn. -/
def calibrate : Reading α Calibration := do
  let coarse ← R.coarseCalibration originAbs ratio fix
  if wander R.params && fix.found then R.fineCalibration originAbs ratio fix coarse
  else pure coarse

end Calibration

/-! ## Sync -/

/-- Where the data starts, and the state it is read with. -/
def startData (c : Core τ) (fr : ReceivedFrame) (originAbs : ℕ) (ratio : ℚ) (fix : SyncFix)
    (cal : Calibration) : Core τ :=
  let dataQ := fix.aligned0 + (fix.kSync + 2 + 9 / 4) * R.sps
  let exact := originAbs + dataQ * ratio - cal.timingChips * R.os * ratio
  -- under wander every data window sits on whole samples
  let dataRawF : ℚ := if wander R.params then lround exact else exact
  { c with
    state := .data
    originAbs
    totalRatio := ratio
    cur := { fr with
      startSample := originAbs + (truncate (max 0 (fix.aligned0 * ratio))).toNat }
    ref := if wander R.params then cal.ref + (dataRawF - exact) / R.os else cal.ref
    dataRawF
    trkSlope := cal.slope
    trkVar := cal.var
    dataSym := 0
    timingInt := 0
    symFracs := []
    altSyms := []
    softMags := []
    slipSyms := 0
    tracker := R.tracker.clear c.tracker
    neededSyms := 8
    haveLen := false
    foldAcc := (0, 0)
    foldMag := 0
    snrAcc := 0
    metricN := 0 }

/-- A sync that fails queues the frame as far as it got and searches on past the span. -/
def syncFail (c : Core τ) (fr : ReceivedFrame) : Reading α (Core τ) :=
  resetToSearch (c.foundAbs + (R.params.preambleLen + 7 - 2) * R.sps)
    { c with out := c.out ++ [fr] }

/-- The span `stepSync` resamples. -/
def syncSpan : ℕ := (R.params.preambleLen + 7) * R.sps

/-- `stepSync` past its rate estimate: preamble, carrier, timing and calibration. -/
def syncResampled (c : Core τ) (back originAbs : ℕ) (resampled : List α) (ratio : ℚ) :
    Reading α (Core τ) := do
  let early := R.strongestEarly resampled back
  let firstMag := early.2
  let preStart := R.walkBack resampled firstMag early.1 early.1
  let chips := R.countPreamble resampled firstMag preStart
  let nPre := chips.length
  let fr : ReceivedFrame := { rateRatio := ratio, preambleSymbols := nPre }
  if nPre < 4 ∨ resampled.length < preStart + (nPre + 2) * R.sps + 2 * R.sps then R.syncFail c fr
  else
    let fix := R.syncSearch resampled preStart nPre (R.upChip chips)
    let sfdOk := R.sfdSeen resampled firstMag fix
    let cal ← R.calibrate originAbs ratio fix
    let fr := { fr with
      cfoChips := fix.cfo
      tauSamples := fix.tau
      syncErr0 := fix.err0
      syncErr1 := fix.err1
      syncOk := fix.found
      sfdOk
      synced := fix.found && sfdOk }
    pure (R.startData c fr originAbs ratio fix cal)

/-- `stepSync`. -/
def stepSync (c : Core τ) : Reading α (Option (Core τ)) := do
  let ready ← Reading.arrived (c.foundAbs + R.syncSpan + R.sps / 2 + 16)
  if ready then
    let origin ← Reading.resampleOrigin c.foundAbs (R.sps / 2)
    let span ← R.rateEstimate c.foundAbs origin.1 origin.2 R.syncSpan 3 0 [] 1
    match span with
    | none => some <$> R.syncFail c {}
    | some (resampled, ratio) => some <$> R.syncResampled c origin.1 origin.2 resampled ratio
  else pure none

/-! ## What a sync does -/

/-- The results of a sync: it waits, queues a frame that was not decoded, or starts the
data. -/
inductive SyncStep (c : Core τ) : Option (Core τ) → Prop
  | wait : SyncStep c none
  | fail {fr : ReceivedFrame} {scanAbs : ℕ} (hfr : fr.decode = {}) :
      SyncStep c (some (Core.restart { c with out := c.out ++ [fr] } scanAbs))
  | start {fr : ReceivedFrame} {originAbs : ℕ} {ratio : ℚ} {fix : SyncFix} {cal : Calibration}
      (hfr : fr.rawValues = []) :
      SyncStep c (some (R.startData c fr originAbs ratio fix cal))

/-- **The step cases** of `stepSync`, whatever the buffer answers. -/
theorem returns_stepSync (c : Core τ) : Asking.Returns (R.SyncStep c) (R.stepSync c) := by
  have hfail : ∀ fr : ReceivedFrame, fr.decode = {} →
      Asking.Returns (R.SyncStep c) (some <$> R.syncFail c fr) :=
    fun fr hfr scanAbs => SyncStep.fail hfr
  unfold stepSync
  apply Asking.returns_bind
  intro ready
  split
  · apply Asking.returns_bind
    intro origin
    apply Asking.returns_bind
    intro span
    split
    · exact hfail {} rfl
    · unfold syncResampled
      simp only
      split
      · exact hfail _ rfl
      · rw [map_bind]
        exact Asking.returns_bind _ fun cal => SyncStep.start rfl
  · exact SyncStep.wait

end Receiver
