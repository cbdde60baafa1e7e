/-
# Meshtastic presets (`include/phy/lora/presets.hpp`, `apps/quadrf_lora_phy.cpp`)

The preset table, the preset a `SetModem` id or a command-line name selects, and its
LoRa parameters.
-/
import QuadrfMesh.Lora.Params

/-- `enum class MeshtasticPreset`, in the order of the Air-IPC ids. -/
inductive MeshtasticPreset
  | shortTurbo | shortFast | shortSlow | mediumFast | mediumSlow | longFast | longModerate
  | longSlow | veryLongSlow | longTurbo
  deriving DecidableEq, Repr

/-- `struct MeshtasticPresetInfo`. -/
structure MeshtasticPresetInfo where
  preset : MeshtasticPreset
  key : String
  modemName : String
  bandwidthHz : ℚ
  sf : ℕ
  cr : ℕ

/-- `kMeshtasticPresetInfo`. -/
def kMeshtasticPresetInfo : List MeshtasticPresetInfo :=
  [⟨.shortTurbo, "shortturbo", "SHORT_TURBO", 500000, 7, 1⟩,
   ⟨.shortFast, "shortfast", "SHORT_FAST", 250000, 7, 1⟩,
   ⟨.shortSlow, "shortslow", "SHORT_SLOW", 250000, 8, 1⟩,
   ⟨.mediumFast, "mediumfast", "MEDIUM_FAST", 250000, 9, 1⟩,
   ⟨.mediumSlow, "mediumslow", "MEDIUM_SLOW", 250000, 10, 1⟩,
   ⟨.longFast, "longfast", "LONG_FAST", 250000, 11, 1⟩,
   ⟨.longModerate, "longmoderate", "LONG_MODERATE", 125000, 11, 4⟩,
   ⟨.longSlow, "longslow", "LONG_SLOW", 125000, 12, 4⟩,
   ⟨.veryLongSlow, "verylongslow", "VERY_LONG_SLOW", 62500, 12, 4⟩,
   ⟨.longTurbo, "longturbo", "LONG_TURBO", 500000, 11, 4⟩]

/-- `meshtasticPresetInfo`. -/
def meshtasticPresetInfo (preset : MeshtasticPreset) : MeshtasticPresetInfo :=
  (kMeshtasticPresetInfo.find? fun info => info.preset = preset).getD
    ⟨.shortTurbo, "shortturbo", "SHORT_TURBO", 500000, 7, 1⟩

/-- `meshtasticPresetFromId`. -/
def meshtasticPresetFromId (id : UInt8) : Option MeshtasticPreset :=
  kMeshtasticPresetInfo[id.toNat]?.map fun info => info.preset

/-- `meshtasticPresetKey`. -/
def meshtasticPresetKey (preset : MeshtasticPreset) : String := (meshtasticPresetInfo preset).key

/-- `parseMeshtasticPreset`: separators are skipped and case is ignored. -/
def parseMeshtasticPreset (name : String) : Option MeshtasticPreset :=
  let key := (name.toList.filter fun c => !(c = '-' || c = '_' || c = ' ')).map Char.toLower
  (kMeshtasticPresetInfo.find? fun info => key = info.key.toList).map fun info => info.preset

/-- `meshtasticRxRate`: twice the bandwidth. -/
def meshtasticRxRate (p : LoraParams) : ℚ := 2 * p.bandwidthHz

/-- `meshtasticParams`; reduced-rate payload blocks from 16.384 ms per symbol on. -/
def meshtasticParams (preset : MeshtasticPreset) (sampleRateHz : ℚ) : LoraParams :=
  let info := meshtasticPresetInfo preset
  { syncWord := 0x2B
    preambleLen := 16
    hasCrc := true
    sampleRateHz
    maxRatePpm := 15
    maxCfoHz := 20000
    wanderRateHzPerS := 75000
    wanderCapHz := 750
    wanderIrwQ := 2 * 10 ^ 12
    bandwidthHz := info.bandwidthHz
    spreadingFactor := info.sf
    cr := info.cr
    ldro := decide (16384 / 10 ^ 6 ≤ ((1 <<< info.sf : ℕ) : ℚ) / info.bandwidthHz) }

/-- `parsePreset`. -/
def parsePreset (name : String) : Option LoraParams :=
  (parseMeshtasticPreset name).map fun preset => meshtasticParams preset (10 ^ 6)

/-- `presetKeyFromId`. -/
def presetKeyFromId (id : UInt8) : Option String :=
  (meshtasticPresetFromId id).map meshtasticPresetKey

/-- `scaledSymbols`: Short Turbo symbols in symbols of `p`; `roundUp` for the gap. -/
def scaledSymbols (stSyms : ℤ) (p : LoraParams) (roundUp : Bool) : ℕ :=
  let tSym := (chipCount p : ℚ) / p.bandwidthHz
  let n := (max stSyms 0 : ℤ) * (128 / 500000 : ℚ) / tSym
  if roundUp then ⌈n - 1 / 10 ^ 9⌉.toNat else ⌊n + 1 / 2⌋.toNat

/-- **Keys parse.**  The key of a preset names that preset. -/
theorem parseMeshtasticPreset_key (preset : MeshtasticPreset) :
    parseMeshtasticPreset (meshtasticPresetKey preset) = some preset := by
  cases preset <;> decide +kernel

/-- The key of a known id parses to the parameters of its preset. -/
theorem parsePreset_of_id {id : UInt8} {name : String} (h : presetKeyFromId id = some name) :
    ∃ preset, meshtasticPresetFromId id = some preset ∧
      parsePreset name = some (meshtasticParams preset (10 ^ 6)) := by
  obtain ⟨preset, hid, rfl⟩ := Option.map_eq_some_iff.mp h
  refine ⟨preset, hid, ?_⟩
  rw [parsePreset, parseMeshtasticPreset_key]
  rfl
