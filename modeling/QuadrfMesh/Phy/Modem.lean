/-
# Switching presets (`applyModem` in `apps/quadrf_lora_phy.cpp`)

A `SetModem` message rebuilds transmitter, receiver and down-converter for another
preset, if the down-converter can be built at the configured RX rate and IF
(`Ddc::Ddc` in `src/dsp/ddc.cpp` and `designKaiserLowpass` throw otherwise).  The
transmitter's queue is cleared before that is known, so a rejected preset leaves the
state as it was exactly when no frame was waiting (`applyModem_rejected_iff`).

The receiver, the sample type and the noise bandwidth of a filter cascade are
parameters.
-/
import QuadrfMesh.Lib.Rounding
import QuadrfMesh.Lib.Transition
import QuadrfMesh.Phy.Presets
import QuadrfMesh.Phy.Transmitter

open Transition

/-! ## The down-converter -/

/-- `Ddc::Config`. -/
structure DdcConfig where
  fsIn : ℚ := 8000000
  fsOut : ℚ := 1000000
  fIf : ℚ := 0
  passHz : ℚ := 270000
  stopHz : ℚ := 330000
  attenDb : ℚ := 70
  deriving DecidableEq, Repr

/-- `rxChannelFilter`. -/
def rxChannelFilter (rx : LoraParams) (fsIn fIf : ℚ) : DdcConfig :=
  let passHz := rx.bandwidthHz / 2 + (if 0 < rx.maxCfoHz then rx.maxCfoHz else 20000)
  { fsIn, fsOut := rx.sampleRateHz, fIf, passHz, stopHz := passHz + 12 / 100 * rx.bandwidthHz }

/-- The band edges `designKaiserLowpass` accepts. -/
def bandEdgesOk (fs passHz stopHz : ℚ) : Bool :=
  decide (passHz < stopHz) && decide (0 < passHz) && decide (stopHz < fs / 2)

/-- `class Ddc`, without filter taps, oscillator table and pending samples. -/
structure Ddc where
  cfg : DdcConfig := {}
  passthrough : Bool := true
  useSt1 : Bool := false
  noiseBwHz : ℚ := 0
  deriving DecidableEq, Repr

/-- `Ddc::Ddc`; `none` where it throws. -/
def Ddc.new (noiseBandwidth : DdcConfig → ℚ) (cfg : DdcConfig) : Option Ddc :=
  let r := cfg.fsIn / cfg.fsOut
  let ratio := (lround r % 2 ^ 32).toNat
  if ratio < 1 ∨ 1 / 10 ^ 9 < |r - ratio| then none
  else if ratio = 1 then
    if cfg.fIf ≠ 0 then none else some { cfg, passthrough := true, noiseBwHz := cfg.fsIn }
  else if ratio % 2 ≠ 0 then none
  else if cfg.fsIn / 2 ≤ |cfg.fIf| + cfg.passHz then none
  else
    let fsMid := 2 * cfg.fsOut
    let useSt1 := decide (2 < ratio)
    if useSt1 && !bandEdgesOk cfg.fsIn cfg.stopHz (fsMid - cfg.stopHz) then none
    else if !bandEdgesOk fsMid cfg.passHz cfg.stopHz then none
    else some { cfg, passthrough := false, useSt1, noiseBwHz := noiseBandwidth cfg }

/-! ## The modem -/

/-- What the command line fixes. -/
structure ModemConfig where
  rxRateHz : ℚ
  rxIfKhz : ℚ
  warmupSyms : ℤ
  gapSyms : ℤ

/-- The modem as `applyModem` rebuilds it; `chunks` is the queue of host-rate input. -/
structure ModemState (Sample Receiver : Type) where
  params : LoraParams
  rxParams : LoraParams
  ddc : Ddc
  receiver : Receiver
  presetName : String
  tx : Transmitter Sample
  chunks : List (List Sample) := []

section Model

variable {Sample Receiver : Type} (noiseBandwidth : DdcConfig → ℚ)
  (newReceiver : LoraParams → Receiver) (cfg : ModemConfig)

/-- `makeDdc`: the receiver's parameters and its down-converter. -/
def makeDdc (txP : LoraParams) : Option (LoraParams × Ddc) :=
  let rxP := { txP with sampleRateHz := meshtasticRxRate txP }
  (Ddc.new noiseBandwidth (rxChannelFilter rxP cfg.rxRateHz (cfg.rxIfKhz * 1000))).map fun d =>
    ({ rxP with rxNoiseBwHz := d.noiseBwHz }, d)

/-- The preset an id asks for, at the TX sample rate of the session. -/
def requested (s : ModemState Sample Receiver) (id : UInt8) : Option (String × LoraParams) :=
  (presetKeyFromId id).bind fun name => (parsePreset name).map fun next =>
    (name, { next with sampleRateHz := s.params.sampleRateHz })

/-- The modem already runs this preset. -/
def sameModem (s : ModemState Sample Receiver) (next : LoraParams) : Bool :=
  decide (next.bandwidthHz = s.params.bandwidthHz) &&
    decide (next.spreadingFactor = s.params.spreadingFactor) && decide (next.cr = s.params.cr)

/-- `applyModem`. -/
def applyModem (s : ModemState Sample Receiver) (id : UInt8) : ModemState Sample Receiver :=
  match requested s id with
  | none => s
  | some (name, next) =>
      if sameModem s next then s
      else
        -- the queue goes before the down-converter can fail
        let s := { s with tx := s.tx.clearQueue }
        match makeDdc noiseBandwidth cfg next with
        | none => s
        | some (rxNext, ddcNext) =>
            { params := next
              rxParams := rxNext
              ddc := ddcNext
              receiver := newReceiver rxNext
              presetName := name
              tx :=
                { Transmitter.new next s.tx.amplitude with
                  warmupSyms := scaledSymbols cfg.warmupSyms next false
                  gapSyms := scaledSymbols cfg.gapSyms next true }
              chunks := [] }

/-- The requests `applyModem` does not follow: an unknown id, or a preset whose
down-converter cannot be built. -/
def Rejected (s : ModemState Sample Receiver) (id : UInt8) : Prop :=
  match requested s id with
  | none => True
  | some (_, next) => sameModem s next = false ∧ makeDdc noiseBandwidth cfg next = none

instance (s : ModemState Sample Receiver) (id : UInt8) :
    Decidable (Rejected noiseBandwidth cfg s id) :=
  match h : requested s id with
  | none => isTrue (by rw [Rejected, h]; trivial)
  | some (_, next) =>
      decidable_of_iff (sameModem s next = false ∧ makeDdc noiseBandwidth cfg next = none)
        (by rw [Rejected, h])

/-- A known id always names a preset. -/
theorem requested_eq_none_iff (s : ModemState Sample Receiver) (id : UInt8) :
    requested s id = none ↔ presetKeyFromId id = none := by
  unfold requested
  constructor
  · intro h
    rcases hkey : presetKeyFromId id with - | name
    · rfl
    · obtain ⟨preset, -, hparse⟩ := parsePreset_of_id hkey
      rw [hkey, Option.bind_some, hparse] at h
      exact absurd h (by simp)
  · intro h
    rw [h]
    rfl

/-- What a rejected request does. -/
theorem applyModem_of_rejected {s : ModemState Sample Receiver} {id : UInt8}
    (h : Rejected noiseBandwidth cfg s id) :
    applyModem noiseBandwidth newReceiver cfg s id
      = if (presetKeyFromId id).isNone then s else { s with tx := s.tx.clearQueue } := by
  have hnone := requested_eq_none_iff s id
  unfold Rejected at h
  unfold applyModem
  rcases hreq : requested s id with - | ⟨name, next⟩
  · rw [if_pos (by rw [hnone.mp hreq]; rfl)]
  · rw [hreq] at h
    obtain ⟨hsame, hddc⟩ := h
    have hkey : ¬ (presetKeyFromId id).isNone = true := by
      intro hk
      rw [hnone.mpr (Option.isNone_iff_eq_none.mp hk)] at hreq
      exact absurd hreq (by simp)
    simp only [hsame, Bool.false_eq_true, if_false, hddc]
    rw [if_neg hkey]

/-- The steps of a session that change the modem. -/
inductive ModemAction
  /-- A `TxEnqueue` message. -/
  | enqueueAir (air : List UInt8)
  /-- The TX thread pulls `n` samples. -/
  | pull (n : ℕ)
  /-- A `SetModem` message. -/
  | setModem (id : UInt8)
  deriving DecidableEq

/-- One step of a session. -/
def modemStep [Zero Sample] (frame : LoraParams → List UInt16 → List Sample)
    (s : ModemState Sample Receiver) : ModemAction → Option (ModemState Sample Receiver)
  | .enqueueAir air => some { s with tx := (s.tx.enqueue frame air).getD s.tx }
  | .pull n => some { s with tx := (s.tx.pull n).tx }
  | .setModem id => some (applyModem noiseBandwidth newReceiver cfg s id)

/-- The modem `main` builds from the preset on the command line, if its down-converter
can be built. -/
def modemStart (name : String) (amplitude : Sample) : Option (ModemState Sample Receiver) :=
  (parsePreset name).bind fun params => (makeDdc noiseBandwidth cfg params).map fun (rxParams, ddc) =>
    { params, rxParams, ddc
      receiver := newReceiver rxParams
      presetName := name
      tx :=
        { Transmitter.new params amplitude with
          warmupSyms := scaledSymbols cfg.warmupSyms params false
          gapSyms := scaledSymbols cfg.gapSyms params true } }

/-- The start of a session. -/
def ModemInit (s : ModemState Sample Receiver) : Prop :=
  ∃ name amplitude, modemStart noiseBandwidth newReceiver cfg name amplitude = some s

end Model

/-! ## A preset the RX rate cannot serve -/

/-- An RX rate of 500 kHz at zero IF serves Short Fast, and not Short Turbo. -/
def narrowConfig : ModemConfig where
  rxRateHz := 500000
  rxIfKhz := 0
  warmupSyms := 0
  gapSyms := 0

/-- A Short Fast session at that rate. -/
def narrowSession (actions : List ModemAction) : Option (ModemState ℕ Unit) :=
  (modemStart (fun _ => 0) (fun _ => ()) narrowConfig "shortfast" 9).bind fun s =>
    exec (modemStep (fun _ => 0) (fun _ => ()) narrowConfig
      fun _ chips => chips.map fun c => c.toNat + 1) s actions
