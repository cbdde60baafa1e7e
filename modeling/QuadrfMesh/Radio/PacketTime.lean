/-
# The air time of a packet (`integrations/meshtastic/backend/QuadRFRadio.cpp`)

`getPacketTime` charges for the payload symbols by a formula of its own, which multiplies by
the coded length before it rounds up; `frameSymbolCount` counts whole blocks.  The node
never charges more symbols than the frame has, and as many exactly when the last block lacks
less than one symbol (`packetTime_iff`).
-/
import QuadrfMesh.Lib.Rounding
import QuadrfMesh.Lora.Frame
import QuadrfMesh.Phy.Presets

/-- `struct PhyPreset`. -/
structure PhyPreset where
  preset : MeshtasticPreset
  id : ℕ
  bwKhz : ℚ
  sf : ℕ
  cr : ℕ
  deriving DecidableEq

/-- `kPhyPresets`. -/
def kPhyPresets : List PhyPreset :=
  [⟨.shortTurbo, 0, 500, 7, 5⟩,
   ⟨.shortFast, 1, 250, 7, 5⟩,
   ⟨.shortSlow, 2, 250, 8, 5⟩,
   ⟨.mediumFast, 3, 250, 9, 5⟩,
   ⟨.mediumSlow, 4, 250, 10, 5⟩,
   ⟨.longFast, 5, 250, 11, 5⟩,
   ⟨.longModerate, 6, 125, 11, 8⟩,
   ⟨.longSlow, 7, 125, 12, 8⟩,
   ⟨.veryLongSlow, 8, 125 / 2, 12, 8⟩,
   ⟨.longTurbo, 9, 500, 11, 8⟩]

/-- The fields of `RadioInterface` that `getPacketTime` reads. -/
structure RadioInterface where
  bw : ℚ
  sf : ℕ
  cr : ℕ
  preambleLength : ℕ := 16

namespace RadioInterface

variable (r : RadioInterface) (pl : ℕ)

/-- `tSym`. -/
def tSym : ℚ := (1 <<< r.sf : ℕ) / (r.bw * 1000)

/-- `lowDataOptEn`. -/
def lowDataOptEn : Bool := decide (16 / 1000 < r.tSym)

/-- `numPayloadSym`. -/
def numPayloadSym : ℤ :=
  8 + max ⌈((8 * pl - 4 * r.sf + 28 + 16 : ℚ) / (4 * (r.sf - 2 * (if r.lowDataOptEn then 1 else 0))))
    * r.cr⌉ 0

/-- `getPacketTime`, in milliseconds. -/
def getPacketTime : ℕ :=
  let tPreamble := (r.preambleLength + 17 / 4) * r.tSym
  (truncate ((tPreamble + r.numPayloadSym pl * r.tSym) * 1000)).toNat

end RadioInterface

/-- The samples of `Modulator::frame`: preamble, sync word, 2.25 downchirps and the chips. -/
def frameSamples (p : LoraParams) (chips : ℕ) : ℕ :=
  let sps := samplesPerSymbol p
  p.preambleLen * sps + sps + sps + sps + sps + sps / 4 + chips * sps

/-- The milliseconds a modulated frame takes. -/
def frameMs (p : LoraParams) (payloadLen : ℕ) : ℚ :=
  frameSamples p (frameSymbolCount p payloadLen) / p.sampleRateHz * 1000

/-- The nibbles the last data block of a frame has room for and does not carry. -/
def lastBlockPad (p : LoraParams) (payloadLen : ℕ) : ℕ :=
  dataBlockCount p (frameNibbles p.hasCrc payloadLen) * sfAppOf p false
    - (frameNibbles p.hasCrc payloadLen - (p.spreadingFactor - 2))

/-! ## The symbols charged -/

section Symbols

variable {r : RadioInterface} {p : LoraParams} (hsf : 3 ≤ p.spreadingFactor)
  (hrsf : r.sf = p.spreadingFactor) (hcr : r.cr = p.cr + 4) (hldro : r.lowDataOptEn = p.ldro)
  (hcrc : p.hasCrc = true) (pl : ℕ)
include hsf

theorem sfAppOf_pos : 0 < sfAppOf p false := by
  unfold sfAppOf
  split <;> omega

include hrsf hldro

/-- The divisor of the formula is the data bits of a symbol. -/
theorem sfApp_eq : (r.sf - 2 * (if r.lowDataOptEn then 1 else 0) : ℚ) = sfAppOf p false := by
  rw [hrsf, hldro, sfAppOf, Bool.false_or]
  cases p.ldro with
  | false => simp
  | true =>
      simp only [if_true, mul_one]
      push_cast [show 2 ≤ p.spreadingFactor by omega]
      rfl

include hcr hcrc

/-- **The symbols charged** are those of the frame, less the whole symbols that the empty
places of its last block are worth. -/
theorem numPayloadSym_eq :
    r.numPayloadSym pl
      = frameSymbolCount p pl - (lastBlockPad p pl * r.cr / sfAppOf p false : ℕ) := by
  have hpos := sfAppOf_pos hsf
  have hspec := (dataBlockCount_spec p (frameNibbles true pl) hpos).1
  have hnibbles : frameNibbles true pl = 9 + 2 * pl := by
    simp only [frameNibbles, if_true]
    omega
  rw [frameSymbolCount_eq p hsf, hcrc, ← hcr, RadioInterface.numPayloadSym,
    sfApp_eq hsf hrsf hldro, hrsf, lastBlockPad, hcrc]
  set a := sfAppOf p false
  set b := dataBlockCount p (frameNibbles true pl) with hb
  by_cases hfits : frameNibbles true pl ≤ p.spreadingFactor - 2
  · -- the header block holds the frame, and the formula is not positive
    have hb0 : b = 0 := by
      rw [hb, dataBlockCount, Nat.sub_eq_zero_of_le hfits]
      exact Nat.div_eq_of_lt (by omega)
    have hneg : (8 * pl - 4 * p.spreadingFactor + 28 + 16 : ℚ) ≤ 0 := by
      have : (8 * pl + 44 : ℚ) ≤ 4 * p.spreadingFactor := by
        exact_mod_cast (by omega : 8 * pl + 44 ≤ 4 * p.spreadingFactor)
      linarith
    have hceil : ⌈(8 * pl - 4 * p.spreadingFactor + 28 + 16 : ℚ) / (4 * a) * r.cr⌉ ≤ 0 := by
      rw [Int.ceil_le, Int.cast_zero]
      exact mul_nonpos_of_nonpos_of_nonneg (div_nonpos_of_nonpos_of_nonneg hneg (by positivity))
        (Nat.cast_nonneg _)
    rw [max_eq_right hceil, hb0]
    simp
  · push Not at hfits
    obtain ⟨pad, hpad⟩ : ∃ pad, b * a = frameNibbles true pl - (p.spreadingFactor - 2) + pad :=
      Nat.exists_eq_add_of_le (by omega)
    have hrest : (8 * pl - 4 * p.spreadingFactor + 28 + 16 : ℚ) = 4 * (b * a - pad) := by
      have hsum : b * a + p.spreadingFactor = 11 + 2 * pl + pad := by omega
      have hsum' : (b * a + p.spreadingFactor : ℚ) = 11 + 2 * pl + pad := by exact_mod_cast hsum
      linarith
    have hle : pad * r.cr / a ≤ b * r.cr := by
      refine Nat.div_le_of_le_mul ?_
      calc pad * r.cr ≤ (b * a) * r.cr := Nat.mul_le_mul_right _ (by omega)
        _ = a * (b * r.cr) := by ring
    rw [hrest, mul_div_mul_left _ _ (by norm_num : (4 : ℚ) ≠ 0), ceil_blocks_mul hpos,
      show b * a - (frameNibbles true pl - (p.spreadingFactor - 2)) = pad by omega,
      max_eq_left (by omega)]
    push_cast
    ring

end Symbols

/-! ## The time charged -/

section Time

variable {p : LoraParams} {os : ℕ} (hos : 0 < os) (hsf : 3 ≤ p.spreadingFactor)
  (hbw : 0 < p.bandwidthHz) (hrate : p.sampleRateHz = os * p.bandwidthHz) (pl : ℕ)
include hos hsf hbw hrate

/-- A modulated frame in symbols, at a whole number of samples per chip. -/
theorem frameMs_eq :
    frameMs p pl = (p.preambleLen + 17 / 4 + frameSymbolCount p pl)
      * ((2 ^ p.spreadingFactor : ℕ) / p.bandwidthHz) * 1000 := by
  have hos' : (os : ℚ) ≠ 0 := Nat.cast_ne_zero.mpr hos.ne'
  have hfactor : osFactor p = os := by
    rw [osFactor, hrate, mul_div_cancel_right₀ _ hbw.ne']
    have hfloor : ⌊(os : ℚ) + 1 / 2⌋ = (os : ℤ) := by
      rw [Int.floor_eq_iff]
      constructor <;> push_cast <;> linarith
    rw [hfloor, Int.toNat_natCast]
  obtain ⟨q, hq⟩ : 4 ∣ 2 ^ p.spreadingFactor := pow_dvd_pow 2 (by omega : 2 ≤ p.spreadingFactor)
  have hsps : samplesPerSymbol p = 4 * (q * os) := by
    rw [samplesPerSymbol, chipCount_eq, hfactor, hq, mul_assoc]
  rw [frameMs, frameSamples, hsps, Nat.mul_div_cancel_left _ (by norm_num : 0 < 4), hq, hrate]
  push_cast
  field_simp
  ring

variable {r : RadioInterface} (hrsf : r.sf = p.spreadingFactor) (hrbw : r.bw * 1000 = p.bandwidthHz)
  (hpreamble : r.preambleLength = p.preambleLen)
include hrsf hrbw hpreamble

/-- The time charged is the time of the symbols charged, in whole milliseconds. -/
theorem getPacketTime_eq {lost : ℕ}
    (hlost : r.numPayloadSym pl = frameSymbolCount p pl - (lost : ℤ)) (hle : 0 ≤ r.numPayloadSym pl) :
    (r.getPacketTime pl : ℤ)
      = ⌊frameMs p pl - lost * ((2 ^ p.spreadingFactor : ℕ) / p.bandwidthHz) * 1000⌋ := by
  have htSym : r.tSym = (2 ^ p.spreadingFactor : ℕ) / p.bandwidthHz := by
    rw [RadioInterface.tSym, hrsf, hrbw, Nat.one_shiftLeft]
  have hnonneg : 0 ≤ ((r.preambleLength + 17 / 4) * r.tSym + r.numPayloadSym pl * r.tSym) * 1000 := by
    have hsymbols : (0 : ℚ) ≤ r.numPayloadSym pl := Int.cast_nonneg hle
    have htime : 0 ≤ r.tSym := by
      rw [htSym]
      positivity
    positivity
  rw [RadioInterface.getPacketTime, truncate_of_nonneg hnonneg,
    Int.toNat_of_nonneg (Int.floor_nonneg.mpr hnonneg), frameMs_eq hos hsf hbw hrate, htSym,
    hpreamble, hlost]
  congr 1
  push_cast
  ring

end Time

/-- What the two tables have in common. -/
theorem kPhyPresets_spec : ∀ e ∈ kPhyPresets,
    (meshtasticPresetInfo e.preset).sf = e.sf ∧ 3 ≤ e.sf ∧ 0 < e.bwKhz ∧
      e.bwKhz * 1000 = (meshtasticPresetInfo e.preset).bandwidthHz ∧
      decide (16 / 1000 < ((1 <<< e.sf : ℕ) : ℚ) / (e.bwKhz * 1000))
        = (meshtasticParams e.preset 0).ldro := by
  decide +kernel

/-- **The node charges the time of the frame exactly when the last block is all but full.**
For every preset, coding rate from 4/5 on and payload length: the symbols charged are those of
the frame iff the empty places of its last block are worth less than one symbol, and the time
charged covers the modulated frame iff moreover that takes a whole number of milliseconds. -/
theorem packetTime_iff (e : PhyPreset) (he : e ∈ kPhyPresets) (os cr pl : ℕ) (hos : 0 < os)
    (hcr : 5 ≤ cr) :
    let p := { meshtasticParams e.preset (os * (meshtasticPresetInfo e.preset).bandwidthHz) with
      cr := cr - 4 }
    let r : RadioInterface := { bw := e.bwKhz, sf := e.sf, cr }
    (r.numPayloadSym pl = frameSymbolCount p pl ↔ lastBlockPad p pl * cr < sfAppOf p false) ∧
    (frameMs p pl ≤ r.getPacketTime pl ↔
      lastBlockPad p pl * cr < sfAppOf p false ∧ ∃ ms : ℕ, frameMs p pl = ms) := by
  intro p r
  obtain ⟨hsf, h3, hpos, hbw, hldro⟩ := kPhyPresets_spec e he
  have hp3 : 3 ≤ p.spreadingFactor := h3.trans hsf.ge
  have hpbw : 0 < p.bandwidthHz := by
    change 0 < (meshtasticPresetInfo e.preset).bandwidthHz
    rw [← hbw]
    positivity
  have hcr' : r.cr = p.cr + 4 := by
    change cr = cr - 4 + 4
    omega
  have happ := sfAppOf_pos hp3
  set lost := lastBlockPad p pl * cr / sfAppOf p false with hlost_def
  have hcharged : r.numPayloadSym pl = frameSymbolCount p pl - (lost : ℤ) :=
    numPayloadSym_eq hp3 hsf.symm hcr' hldro rfl pl
  have hlost : lastBlockPad p pl * cr < sfAppOf p false ↔ lost = 0 := by
    rw [hlost_def, Nat.div_eq_zero_iff_lt happ]
  have htime := getPacketTime_eq (p := p) hos hp3 hpbw rfl pl (r := r) hsf.symm hbw rfl hcharged
    (by
      rw [RadioInterface.numPayloadSym]
      positivity)
  have hsymbol : (0 : ℚ) < (2 ^ p.spreadingFactor : ℕ) / p.bandwidthHz * 1000 := by positivity
  rw [mul_assoc] at htime
  rw [hlost]
  refine ⟨?_, le_floor_sub_iff hsymbol htime⟩
  rw [hcharged]
  omega

/-- Short Turbo with a payload of 26 bytes, whose last block is full. -/
theorem packetTime_iff_26 :
    (⟨500, 7, 5, 16⟩ : RadioInterface).numPayloadSym 26
      = frameSymbolCount { meshtasticParams .shortTurbo (2 * 500000) with cr := 5 - 4 } 26 :=
  (packetTime_iff ⟨.shortTurbo, 0, 500, 7, 5⟩ (by decide) 2 5 26 (by decide) (by decide)).1.mpr
    (by decide +kernel)

/-- Short Turbo with a payload of 23 bytes: 44 symbols and 16 ms for a frame of 48 symbols,
which takes 17.472 ms. -/
theorem packetTime_short :
    let p := { meshtasticParams .shortTurbo (2 * 500000) with cr := 5 - 4 }
    let r : RadioInterface := { bw := 500, sf := 7, cr := 5 }
    r.numPayloadSym 23 = 44 ∧ frameSymbolCount p 23 = 48 ∧
      r.getPacketTime 23 = 16 ∧ frameMs p 23 = 17472 / 1000 := by
  decide +kernel
