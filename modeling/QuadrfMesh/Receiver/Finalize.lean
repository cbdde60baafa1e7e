/-
# The end of a frame (`Receiver::finalizeData`)

The collected values are decoded once more; where the header is valid and the payload
CRC fails, the soft rows and a list of nearby hard readings are tried.  The frame is
queued whatever comes out.  The signal metrics of the frame are left out.
-/
import QuadrfMesh.Receiver.Buffer
import QuadrfMesh.Receiver.Core

/-- Valid header and passed CRC. -/
def DecodeResult.good (d : DecodeResult) : Bool := d.header.valid && d.crcOk

/-- Valid header that announces a CRC, and the CRC fails. -/
def DecodeResult.crcFailed (d : DecodeResult) : Bool := d.header.valid && d.header.hasCrc && !d.crcOk

namespace Receiver

variable {α τ : Type} (R : Receiver α τ)

/-! ## Slip search -/

/-- `applied`: the values with a path of cumulative slips taken out. -/
def applySlips (nRows : ℕ) (raw : List UInt16) (offs : List ℤ) : List UInt16 :=
  raw.mapIdx fun s v =>
    if s < nRows then UInt16.ofNat (((v.toNat : ℤ) - offs.getD s 0) % R.nChips).toNat else v

/-- Under wander, a frame whose CRC fails takes the first slip path that decodes, else
the likeliest one. -/
def slipCorrect (c : Core τ) : Core τ :=
  if wander R.params && decide (c.slipSyms ≠ 0) && (R.decodeHard c.rawValues).crcFailed then
    let paths := R.tracker.slipSearch c.tracker
    let nRows := min c.rawValues.length (min c.slipSyms c.softMags.length)
    -- the paths come best first
    match (paths.find? fun offs => (R.decodeHard (R.applySlips nRows c.rawValues offs)).good).or
        paths.head? with
    | some offs =>
        { c with
          cur := { c.cur with rawValues := R.applySlips nRows c.rawValues offs }
          softMags := c.softMags.mapIdx fun s row =>
            if s < nRows then rotateSoftRow R.nChips (-offs.getD s 0) row else row }
    | none => c
  else c

/-! ## Nearby hard readings -/

/-- Symbols read closest to the rounding boundary, worst first, at most six. -/
def anchors (symFracs : List ℚ) (raw : List UInt16) : List ℕ :=
  (R.dsp.sortAnchors.partialSort fun s => -|symFracs.getD s 0|).best 6
    ((List.range (min symFracs.length raw.length)).filter
      fun s => decide (1 / 4 < |symFracs.getD s 0|))

/-- Runner-ups swapped in, unless one lies past the end. -/
def swapAlts (raw : List UInt16) (alts : List AltSym) : Option (List UInt16) :=
  if alts.all fun a => decide (a.idx < raw.length) then
    some (alts.foldl (fun cand a => cand.set a.idx a.value) raw)
  else none

/-- Every subset of the strongest six runner-ups, then every pair of the strongest
eight. -/
def altReadings (raw : List UInt16) (altSyms : List AltSym) : List (List UInt16) :=
  let alts := (R.dsp.sortAlts.partialSort fun a => -a.ratio).best 8 altSyms
  let k := min alts.length 6
  let subsets := (List.range (2 ^ k - 1)).map fun i =>
    ((List.range k).filter fun b => (i + 1).testBit b).filterMap fun b => alts[b]?
  let pairs := (List.range alts.length).flatMap fun i =>
    (List.range' (i + 1) (alts.length - (i + 1))).map fun j => [i, j].filterMap fun b => alts[b]?
  (subsets ++ pairs).filterMap (swapAlts raw)

/-- The readings tried when the CRC fails, in order: the frame one chip over, one symbol
one chip over, the tail or head from an anchor one chip over, runner-ups. -/
def hardReadings (c : Core τ) : List (List UInt16) :=
  let raw := c.rawValues
  let moved (sh : ℤ) (p : ℕ → Bool) : List UInt16 :=
    raw.mapIdx fun s v => if p s then shiftValue sh R.nChips v else v
  [shiftValues raw (-1) R.nChips, shiftValues raw 1 R.nChips]
    ++ (List.range raw.length).flatMap (fun m =>
      [-1, 1].map fun sh => moved sh fun s => decide (s = m))
    ++ (R.anchors c.symFracs raw).flatMap (fun m =>
      [-1, 1].flatMap fun sh => [moved sh fun s => decide (m ≤ s), moved sh fun s => decide (s ≤ m)])
    ++ R.altReadings raw c.altSyms

/-! ## The decisions in turn -/

/-- The hard decode of what was collected. -/
def hardDecode (c : Core τ) : Core τ :=
  let d := R.decodeHard c.rawValues
  { c with
    cur := { c.cur with decode := d, synced := c.cur.synced || (d.good && d.header.hasCrc) } }

/-- A soft decode takes the frame over. -/
def takeSoft (c : Core τ) (d : DecodeResult) : Core τ :=
  { c with cur := { c.cur with decode := d, synced := true, softDecoded := true } }

/-- The soft rows, when the hard CRC fails. -/
def softRetry (c : Core τ) : Core τ :=
  if R.params.softDecoding && c.cur.decode.crcFailed then
    let ds := R.decodeSoft (c.softRows c.rawValues.length) 0
    if ds.good then takeSoft c ds else c
  else c

/-- The nearby hard readings, when the CRC still fails. -/
def hardRescue (c : Core τ) : Core τ :=
  if c.cur.decode.crcFailed then
    match (R.hardReadings c).find? fun cand => (R.decodeHard cand).good with
    | some cand => { c with cur := { c.cur with rawValues := cand, decode := R.decodeHard cand } }
    | none => c
  else c

/-- The soft rows one chip over, when the CRC still fails. -/
def softShiftRetry (c : Core τ) : Core τ :=
  if R.params.softDecoding && c.cur.decode.crcFailed then
    match [-1, 1].find? fun sh => (R.decodeSoft (c.softRows c.rawValues.length) sh).good with
    | some sh => takeSoft c (R.decodeSoft (c.softRows c.rawValues.length) sh)
    | none => c
  else c

/-- The rows on the lattice of the accepted values: two or more one-chip differences from
the values as collected are a slip. -/
def slippedRows (hardIn : List UInt16) (c : Core τ) : List (List ℚ) :=
  let slip (s : ℕ) : ℤ :=
    if s < min c.rawValues.length hardIn.length then
      truncate (wrapSigned ((c.rawValues.getD s 0).toNat - (hardIn.getD s 0).toNat) R.nChips)
    else 0
  let slipped (s : ℕ) : Bool := decide (slip s = 1 ∨ slip s = -1)
  if 2 ≤ ((List.range c.softMags.length).filter slipped).length then
    c.softMags.mapIdx fun s row => if slipped s then rotateSoftRow R.nChips (slip s) row else row
  else c.softMags

/-- Below the SNR gate a hard pass must decode to the same payload on the soft rows. -/
def softVerify (hardIn : List UInt16) (c : Core τ) : Core τ :=
  if R.params.softDecoding && !c.cur.softDecoded && c.cur.decode.good && decide (0 < c.metricN)
      && decide (c.snrAcc / c.metricN < R.params.softVerifyBelowSnrDb - R.sfGainDb) then
    let dc := R.decodeSoft ((R.slippedRows hardIn c).take c.rawValues.length) 0
    -- of two payloads that pass, one is wrong
    if dc.good && decide (dc.payload = c.cur.decode.payload) then c
    else { c with cur := { c.cur with decode := { c.cur.decode with crcOk := false }, synced := false } }
  else c

variable {R} in
/-- Without a failed CRC no retry runs. -/
theorem softRetry_of_not_failed {c : Core τ} (h : c.cur.decode.crcFailed = false) :
    R.softRetry c = c := by
  unfold softRetry
  rw [h, Bool.and_false]
  rfl

variable {R} in
theorem hardRescue_of_not_failed {c : Core τ} (h : c.cur.decode.crcFailed = false) :
    R.hardRescue c = c := by
  unfold hardRescue
  rw [h]
  rfl

variable {R} in
theorem softShiftRetry_of_not_failed {c : Core τ} (h : c.cur.decode.crcFailed = false) :
    R.softShiftRetry c = c := by
  unfold softShiftRetry
  rw [h, Bool.and_false]
  rfl

variable {R} in
/-- There is nothing to verify in a frame that has not passed. -/
theorem softVerify_of_not_good {hardIn : List UInt16} {c : Core τ}
    (h : c.cur.decode.good = false) : R.softVerify hardIn c = c := by
  unfold softVerify
  rw [h, Bool.and_false, Bool.false_and, Bool.false_and]
  rfl

/-- The frame `finalizeData` queues. -/
def closeFrame (c : Core τ) : ReceivedFrame :=
  let c := R.slipCorrect c
  (R.softVerify c.rawValues
    (R.softShiftRetry (R.hardRescue (R.softRetry (R.hardDecode c))))).cur

/-- Queue the frame and start over. -/
def emitFrame (c : Core τ) : Core τ :=
  { c with out := c.out ++ [R.closeFrame c], cur := {} }

/-- `resetToSearch`. -/
def resetToSearch (scanFromAbs : ℕ) (c : Core τ) : Reading α (Core τ) := do
  let scanAbs ← Reading.clampScan scanFromAbs
  pure (c.restart scanAbs)

/-- `finalizeData`. -/
def finalizeData (c : Core τ) : Reading α (Core τ) :=
  resetToSearch ((truncate c.dataRawF).toNat + R.sps) (R.emitFrame c)

end Receiver
