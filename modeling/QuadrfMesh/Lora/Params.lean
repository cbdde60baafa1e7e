/-
# LoRa parameters (`include/phy/lora/params.hpp`)

The parameter record every part of the PHY shares, with the source's defaults.
Bytes and 16-bit fields are natural numbers here; frequencies, rates, gains and
SNR gates, `double` in the source, are exact rationals.
-/
import Mathlib

/-- `struct LoraParams`.  `cr` is the coding-rate index: 1..4 for 4/5..4/8. -/
structure LoraParams where
  spreadingFactor : ℕ := 11
  cr : ℕ := 1
  hasCrc : Bool := true
  /-- Low data rate optimization: reduced-rate payload blocks. -/
  ldro : Bool := false
  syncWord : ℕ := 0x2B
  preambleLen : ℕ := 16
  bandwidthHz : ℚ := 500000
  sampleRateHz : ℚ := 1000000
  maxRatePpm : ℚ := 0
  maxCfoHz : ℚ := 0
  rxNoiseBwHz : ℚ := 0
  coherentFold : Bool := true
  timingKp : ℚ := 1 / 5
  timingKi : ℚ := 3 / 100
  refineMinSnrDb : ℚ := 6
  softDecoding : Bool := true
  softVerifyBelowSnrDb : ℚ := 0
  softTailMargin : ℚ := 2
  wanderRateHzPerS : ℚ := 0
  wanderCapHz : ℚ := 750
  wanderIrwQ : ℚ := 0
  deriving DecidableEq, Repr

/-- `chipCount`: chips (chirp values) per symbol. -/
def chipCount (p : LoraParams) : ℕ := 1 <<< p.spreadingFactor

/-- `osFactor`: samples per chip, the rounded rate ratio. -/
def osFactor (p : LoraParams) : ℕ := ⌊p.sampleRateHz / p.bandwidthHz + 1 / 2⌋.toNat

/-- `samplesPerSymbol`. -/
def samplesPerSymbol (p : LoraParams) : ℕ := chipCount p * osFactor p

/-- `syncChip0`: high sync-word nibble as a modulated chip value. -/
def syncChip0 (p : LoraParams) : ℕ := ((p.syncWord >>> 4) &&& 0x0F) <<< 3

/-- `syncChip1`: low sync-word nibble as a modulated chip value. -/
def syncChip1 (p : LoraParams) : ℕ := (p.syncWord &&& 0x0F) <<< 3

theorem chipCount_eq (p : LoraParams) : chipCount p = 2 ^ p.spreadingFactor := by
  rw [chipCount, Nat.shiftLeft_eq, one_mul]

theorem chipCount_pos (p : LoraParams) : 0 < chipCount p := by
  rw [chipCount_eq]
  positivity
