/-
# Receiver state and header check

The members of `Receiver` (`include/phy/lora/receiver.hpp`) that are not the sample
buffer, what one demodulated data symbol adds to them, and `checkHeader`, which fixes
the frame length once eight symbols are in.
-/
import QuadrfMesh.Receiver.Dsp

/-- `struct ReceivedFrame`. -/
structure ReceivedFrame where
  startSample : ℕ := 0
  preambleSymbols : ℕ := 0
  rateRatio : ℚ := 1
  cfoChips : ℚ := 0
  tauSamples : ℚ := 0
  syncErr0 : ℚ := 0
  syncErr1 : ℚ := 0
  syncOk : Bool := false
  sfdOk : Bool := false
  synced : Bool := false
  /-- CRC passed on the soft path, not the hard one. -/
  softDecoded : Bool := false
  rawValues : List UInt16 := []
  decode : DecodeResult := {}
  deriving DecidableEq

/-- Frame decoders: hard values, and folded magnitudes with a chip shift. -/
structure Codec where
  decodeFrame : List UInt16 → DecodeResult
  decodeFrameSoft : List (List ℚ) → ℤ → DecodeResult

/-- The hard decoder of `coding.cpp`, beside some soft one. -/
def loraCodec (p : LoraParams) (decodeFrameSoft : List (List ℚ) → ℤ → DecodeResult) : Codec where
  decodeFrame := decodeFrame p
  decodeFrameSoft := decodeFrameSoft

/-- A receiver's parameters and the code it calls. -/
structure Receiver (α τ : Type) where
  params : LoraParams
  dsp : Dsp α
  tracker : CarrierTracker α τ
  codec : Codec

inductive RxState
  | search
  | sync
  | data
  deriving DecidableEq

/-- The members of `Receiver` apart from the sample buffer.  `softMags` holds one row
per raw value, `out` every frame queued so far. -/
structure Core (τ : Type) where
  state : RxState := .search
  scanAbs : ℕ := 0
  runStartAbs : ℕ := 0
  runLen : ℕ := 0
  prevChip : ℚ := 0
  foundAbs : ℕ := 0
  originAbs : ℕ := 0
  totalRatio : ℚ := 1
  dataRawF : ℚ := 0
  timingInt : ℚ := 0
  symFracs : List ℚ := []
  altSyms : List AltSym := []
  softMags : List (List ℚ) := []
  dataSym : ℕ := 0
  neededSyms : ℕ := 8
  haveLen : Bool := false
  ref : ℚ := 0
  foldAcc : ℚ × ℚ := (0, 0)
  foldMag : ℚ := 0
  trkSlope : ℚ := 0
  trkVar : ℚ := 0
  slipSyms : ℕ := 0
  tracker : τ
  snrAcc : ℚ := 0
  metricN : ℕ := 0
  cur : ReceivedFrame := {}
  out : List ReceivedFrame := []

/-- What demodulating one data symbol yields: the value with its runner-up, soft row and
SNR, and the tracking state the next symbol is read with. -/
structure SymbolReading (τ : Type) where
  value : UInt16
  alt : Option (UInt16 × ℚ)
  softRow : List ℚ
  symFrac : ℚ
  snr : Option ℚ
  foldAcc : ℚ × ℚ
  foldMag : ℚ
  timingInt : ℚ
  dataRawF : ℚ
  ref : ℚ
  trkSlope : ℚ
  trkVar : ℚ
  slipSyms : ℕ
  tracker : τ

namespace Core

variable {τ : Type}

/-- `cur_.raw_values`. -/
def rawValues (c : Core τ) : List UInt16 := c.cur.rawValues

/-- The bookkeeping at the end of one symbol: every reading adds one raw value, one soft
row and one to the symbol count. -/
def absorb (c : Core τ) (r : SymbolReading τ) : Core τ :=
  { c with
    symFracs := c.symFracs ++ [r.symFrac]
    altSyms := c.altSyms ++
      match r.alt with
      | some (v, ratio) => if v ≠ r.value then [⟨c.rawValues.length, v, ratio⟩] else []
      | none => []
    cur := { c.cur with rawValues := c.rawValues ++ [r.value] }
    softMags := c.softMags ++ [r.softRow]
    snrAcc := c.snrAcc + r.snr.getD 0
    metricN := if r.snr.isSome then c.metricN + 1 else c.metricN
    foldAcc := r.foldAcc
    foldMag := r.foldMag
    timingInt := r.timingInt
    dataRawF := r.dataRawF
    dataSym := c.dataSym + 1
    ref := r.ref
    trkSlope := r.trkSlope
    trkVar := r.trkVar
    slipSyms := r.slipSyms
    tracker := r.tracker }

/-- Back to the search state. -/
def restart (c : Core τ) (scanAbs : ℕ) : Core τ :=
  { c with state := .search, runLen := 0, scanAbs }

/-- `softRows`: the first `nSyms` stored rows. -/
def softRows (c : Core τ) (nSyms : ℕ) : List (List ℚ) := c.softMags.take nSyms

@[simp] theorem rawValues_absorb (c : Core τ) (r : SymbolReading τ) :
    (c.absorb r).rawValues = c.rawValues ++ [r.value] := rfl

@[simp] theorem dataSym_absorb (c : Core τ) (r : SymbolReading τ) :
    (c.absorb r).dataSym = c.dataSym + 1 := rfl

@[simp] theorem haveLen_absorb (c : Core τ) (r : SymbolReading τ) :
    (c.absorb r).haveLen = c.haveLen := rfl

end Core

/-- One value `sh` chips over, on 32-bit unsigned arithmetic. -/
def shiftValue (sh : ℤ) (nChips : ℕ) (x : UInt16) : UInt16 :=
  UInt16.ofNat (((x.toNat : ℤ) + sh + nChips) % 2 ^ 32 % nChips).toNat

/-- `shiftValues`. -/
def shiftValues (v : List UInt16) (sh : ℤ) (nChips : ℕ) : List UInt16 :=
  v.map (shiftValue sh nChips)

/-- `rotateSoftRow`: value `u` now reads what value `u - sh` held. -/
def rotateSoftRow (nChips : ℕ) (sh : ℤ) (row : List ℚ) : List ℚ :=
  row.rotate ((nChips - (sh % nChips).toNat) % nChips)

namespace Receiver

variable {α τ : Type} (R : Receiver α τ)

def sps : ℕ := samplesPerSymbol R.params
def nChips : ℕ := chipCount R.params
def os : ℕ := osFactor R.params

/-- `sf_gain_db_`: processing gain over SF7. -/
def sfGainDb : ℚ := 10 * R.dsp.log10 (R.nChips / 128)

/-- The cap on data symbols in `stepData`. -/
def maxSyms : ℕ := frameSymbolCount R.params 255 + 2

/-- `enforceCrcFlag`: on a link with CRC a header without it is noise. -/
def enforceCrcFlag (d : DecodeResult) : DecodeResult :=
  if R.params.hasCrc && d.header.valid && !d.header.hasCrc then
    { d with header := { d.header with valid := false }, crcOk := false }
  else d

/-- `decodeHard`. -/
def decodeHard (values : List UInt16) : DecodeResult :=
  R.enforceCrcFlag (R.codec.decodeFrame values)

/-- `decodeSoft`, with the tail-margin gate. -/
def decodeSoft (rows : List (List ℚ)) (shift : ℤ) : DecodeResult :=
  let d := R.enforceCrcFlag (R.codec.decodeFrameSoft rows shift)
  if d.crcOk && decide (d.tailMargin < R.params.softTailMargin) then { d with crcOk := false }
  else d

/-! ## The header check -/

/-- The chip shifts tried on an invalid header, smallest first; whole lattice steps only
under wander. -/
def headerShifts : List ℤ :=
  if wander R.params then
    let kMax := max 1 (min 8 ⌈3 / 2 * sigmaW R.params / 4⌉)
    [1, -1] ++ (List.range kMax.toNat).flatMap fun k => [4 * (k + 1 : ℤ), -4 * (k + 1 : ℤ)]
  else [1, -1]

/-- The frame re-read `sh` chips over, and the carrier with it. -/
def shiftLattice (c : Core τ) (sh : ℤ) : Core τ :=
  { c with
    cur := { c.cur with rawValues := shiftValues c.rawValues sh R.nChips }
    softMags := (c.softMags.take c.rawValues.length).map (rotateSoftRow R.nChips sh)
      ++ c.softMags.drop c.rawValues.length
    ref := c.ref - sh
    tracker := R.tracker.shift c.tracker sh }

/-- The frame length from an accepted header. -/
def acceptHeader (c : Core τ) (h : HeaderInfo) : Core τ :=
  { c with
    neededSyms := frameSymbolCount { R.params with cr := h.cr, hasCrc := h.hasCrc } h.payloadLen
    haveLen := true }

/-- `checkHeader`: `none` for an invalid header.  The hard values first, then the soft
rows, then the hard values shifted, then with one runner-up symbol swapped in. -/
def checkHeader (c : Core τ) : Option (Core τ) :=
  if c.haveLen || decide (c.rawValues.length < 8) then some c
  else if (R.decodeHard c.rawValues).header.valid then
    some (R.acceptHeader c (R.decodeHard c.rawValues).header)
  else if R.params.softDecoding && (R.decodeSoft (c.softRows 8) 0).header.valid then
    some (R.acceptHeader c (R.decodeSoft (c.softRows 8) 0).header)
  else
    -- the whole grid may be off by a chip
    match R.headerShifts.find? fun sh =>
        (R.decodeHard (shiftValues c.rawValues sh R.nChips)).header.valid with
    | some sh =>
        some (R.acceptHeader (R.shiftLattice c sh)
          (R.decodeHard (shiftValues c.rawValues sh R.nChips)).header)
    | none =>
        -- or one symbol of the header block may be a sideband
        match c.altSyms.find? fun a => decide (a.idx < 8) &&
            (R.decodeHard (c.rawValues.set a.idx a.value)).header.valid with
        | some a =>
            some (R.acceptHeader
              { c with cur := { c.cur with rawValues := c.rawValues.set a.idx a.value } }
              (R.decodeHard (c.rawValues.set a.idx a.value)).header)
        | none => none

/-! ## The collecting loop -/

/-- The condition of the loop in `stepData`. -/
def collecting (c : Core τ) : Bool :=
  decide (c.rawValues.length < c.neededSyms) && decide (c.dataSym < R.maxSyms)

/-- One pass of that loop on a symbol read; `none` when it breaks on a bad header. -/
def collect (c : Core τ) (r : SymbolReading τ) : Option (Core τ) := R.checkHeader (c.absorb r)

/-- What the header check changes: the values read, the grid they lie on and the length. -/
theorem checkHeader_changes {c c' : Core τ} (h : R.checkHeader c = some c') :
    ∃ cur softMags ref tracker neededSyms haveLen,
      c' = { c with cur, softMags, ref, tracker, neededSyms, haveLen } := by
  unfold checkHeader at h
  split at h
  · exact ⟨_, _, _, _, _, _, (Option.some.inj h).symm⟩
  · split at h
    · exact ⟨_, _, _, _, _, _, (Option.some.inj h).symm⟩
    · split at h
      · exact ⟨_, _, _, _, _, _, (Option.some.inj h).symm⟩
      · split at h
        · exact ⟨_, _, _, _, _, _, (Option.some.inj h).symm⟩
        · split at h
          · exact ⟨_, _, _, _, _, _, (Option.some.inj h).symm⟩
          · exact absurd h (by simp)

/-- The header check changes neither the state nor what is queued. -/
theorem checkHeader_frame {c c' : Core τ} (h : R.checkHeader c = some c') :
    c'.state = c.state ∧ c'.out = c.out := by
  obtain ⟨_, _, _, _, _, _, rfl⟩ := R.checkHeader_changes h
  exact ⟨rfl, rfl⟩

/-- Once the length is known every symbol passes. -/
theorem collect_of_haveLen {c : Core τ} (h : c.haveLen = true) (r : SymbolReading τ) :
    R.collect c r = some (c.absorb r) := by
  unfold collect checkHeader
  rw [Core.haveLen_absorb, h, Bool.true_or]
  rfl

end Receiver
