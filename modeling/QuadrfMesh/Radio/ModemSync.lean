/-
# One modem on both sides (`integrations/meshtastic/backend/QuadRFRadio.cpp`)

The node reckons with a bandwidth, a spreading factor and a coding rate, and tells the PHY a
preset.  `pushModemToPhy` makes the two one: a preset of the table goes out, a configuration
that is none goes back to Short Turbo, a coding rate on top of a preset is dropped, and
`VERY_LONG_SLOW`, for which the firmware has other numbers, gets the PHY's.

Over every run of configuration changes, requests on the control socket, messages and frames:
once the PHY has handled what was sent, it runs what the node reckons with, unless its RX rate
does not serve the preset (`node_phy_agree`).

The firmware's own `RadioInterface::reconfigure`, `computeSlotTimeMsec` and
`MeshService::reloadConfig` are parameters (`FirmwareModem`, `FirmwareReload`).  A write that fails
only leaves its message unsent here, and nothing is said after one.
-/
import QuadrfMesh.Lib.Transition
import QuadrfMesh.Phy.Modem
import QuadrfMesh.Radio.PacketTime

open Transition

/-! ## The node -/

/-- `meshtastic_Config_LoRaConfig_ModemPreset`. -/
inductive ModemPreset
  | known (preset : MeshtasticPreset)
  /-- One that the PHY does not have. -/
  | other (value : ℕ)
  deriving DecidableEq

/-- `config.lora`, as far as the backend and the modem settings go. -/
structure LoRaConfig where
  usePreset : Bool := true
  modemPreset : ModemPreset
  codingRate : ℕ := 0
  bandwidth : ℕ := 0
  spreadFactor : ℕ := 0
  channelNum : ℕ := 0
  overrideFrequency : ℚ := 0
  deriving DecidableEq

/-- The configuration, the one on disk, and what the node reckons with. -/
structure NodeModem where
  config : LoRaConfig
  disk : LoRaConfig
  radio : RadioInterface
  slotTimeMsec : ℕ := 0
  preambleTimeMsec : ℕ := 0

/-- `phyPresetFor`. -/
def phyPresetFor (preset : ModemPreset) : Option PhyPreset :=
  kPhyPresets.find? fun p => decide (.known p.preset = preset)

/-- `phyPresetForParams`. -/
def phyPresetForParams (bwKhz : ℚ) (sf cr : ℕ) : Option PhyPreset :=
  kPhyPresets.find? fun p => decide (|p.bwKhz - bwKhz| < 1 / 2 ∧ p.sf = sf ∧ p.cr = cr)

namespace NodeModem

/-- `nodeDB->saveToDisk`. -/
def saveToDisk (s : NodeModem) : NodeModem := { s with disk := s.config }

/-- `clearMeshtasticOverrideFrequency`, and whether it did. -/
def clearMeshtasticOverrideFrequency (s : NodeModem) : NodeModem × Bool :=
  if s.config.overrideFrequency = 0 then (s, false)
  else (saveToDisk { s with config := { s.config with overrideFrequency := 0 } }, true)

/-- `revertToShortTurbo`. -/
def revertToShortTurbo (s : NodeModem) : NodeModem :=
  saveToDisk { s with
    config := { s.config with
      usePreset := true
      modemPreset := .known .shortTurbo
      codingRate := 0 } }

variable (base : NodeModem → NodeModem) (slotTime : RadioInterface → ℕ)

/-- `phyPresetFromMeshtastic`, with `base` for `RadioInterface::reconfigure`. -/
def phyPresetFromMeshtastic (s : NodeModem) : NodeModem × ℕ :=
  if s.config.usePreset then
    match phyPresetFor s.config.modemPreset with
    | none => (base s.revertToShortTurbo, 0)
    | some p =>
        if 5 ≤ s.config.codingRate ∧ s.config.codingRate ≤ 8 ∧ s.config.codingRate ≠ p.cr then
          (base (saveToDisk { s with config := { s.config with codingRate := 0 } }), p.id)
        else (s, p.id)
  else
    match phyPresetForParams s.radio.bw s.radio.sf s.radio.cr with
    | none => (base s.revertToShortTurbo, 0)
    | some p => (s, p.id)

/-- `applyPhyModemTiming`. -/
def applyPhyModemTiming (s : NodeModem) : NodeModem :=
  if s.config.usePreset = true ∧ s.config.modemPreset = .known .veryLongSlow then
    match phyPresetFor s.config.modemPreset with
    | none => s
    | some p =>
        let radio := { s.radio with bw := p.bwKhz, sf := p.sf, cr := p.cr }
        { s with
          radio
          slotTimeMsec := slotTime radio
          preambleTimeMsec :=
            (truncate (radio.preambleLength * ((1 <<< radio.sf : ℕ) / radio.bw))).toNat }
  else s

/-- `pushModemToPhy`: the node, and the preset of the message. -/
def pushModemToPhy (s : NodeModem) : NodeModem × ℕ :=
  let r := s.phyPresetFromMeshtastic base
  (r.1.applyPhyModemTiming slotTime, r.2)

/-- `reconfigure`. -/
def reconfigure (s : NodeModem) : NodeModem × ℕ :=
  (base s.clearMeshtasticOverrideFrequency.1).pushModemToPhy base slotTime

/-- `init`, the modem; `base` also stands for `RadioInterface::init`. -/
def init (s : NodeModem) : NodeModem × ℕ :=
  let r := (base s).clearMeshtasticOverrideFrequency
  let s := if r.2 then base r.1 else r.1
  (s.applyPhyModemTiming slotTime).pushModemToPhy base slotTime

/-- `applyPresetRequest` up to its `service->reloadConfig`; `none` where it returns before. -/
def applyPresetRequest (s : NodeModem) (id : ℕ) : Option NodeModem :=
  (kPhyPresets.foldl (fun p e => if e.id = id then some e else p) none).bind fun p =>
    if s.config.usePreset = true ∧ s.config.modemPreset = .known p.preset ∧
        s.config.codingRate = 0 then
      none
    else
      some { s with
        config := { s.config with
          usePreset := true
          modemPreset := .known p.preset
          codingRate := 0
          channelNum := 0
          overrideFrequency := 0 } }

end NodeModem

/-- What the backend relies on in `RadioInterface::reconfigure`: it reads the configuration, and
for a preset of the table, `VERY_LONG_SLOW` excepted, without another coding rate, it sets the
numbers of the table. -/
structure FirmwareModem (base : NodeModem → NodeModem) : Prop where
  config : ∀ s, (base s).config = s.config
  disk : ∀ s, (base s).disk = s.disk
  preset : ∀ s, s.config.usePreset = true → ∀ p ∈ kPhyPresets,
    s.config.modemPreset = .known p.preset → p.preset ≠ .veryLongSlow →
    ¬ (5 ≤ s.config.codingRate ∧ s.config.codingRate ≤ 8 ∧ s.config.codingRate ≠ p.cr) →
    (base s).radio.bw = p.bwKhz ∧ (base s).radio.sf = p.sf ∧ (base s).radio.cr = p.cr

/-- What it relies on in `MeshService::reloadConfig`: the radio is reconfigured once, whatever is on
disk then, and the configuration it leaves is saved. -/
def FirmwareReload (reload : (NodeModem → NodeModem × ℕ) → NodeModem → NodeModem × ℕ) : Prop :=
  ∀ reconfigure s, ∃ disk, reload reconfigure s
    = ((reconfigure { s with disk }).1.saveToDisk, (reconfigure { s with disk }).2)

namespace NodeModem

/-- The node reckons with the preset `p`, to half a kilohertz; if the configuration names a preset
it is this one, exactly. -/
structure Reckons (s : NodeModem) (p : PhyPreset) : Prop where
  bw : |p.bwKhz - s.radio.bw| < 1 / 2
  sf : s.radio.sf = p.sf
  cr : s.radio.cr = p.cr
  exact : s.config.usePreset = true → s.config.modemPreset = .known p.preset ∧ s.radio.bw = p.bwKhz
  overrideFrequency : s.config.overrideFrequency = 0

/-- It does, and its configuration is the one on disk. -/
structure Runs (s : NodeModem) (p : PhyPreset) : Prop extends s.Reckons p where
  saved : s.disk = s.config

/-- The numbers are those the firmware sets for the configuration. -/
def Current (s : NodeModem) : Prop :=
  s.config.usePreset = true → ∀ p ∈ kPhyPresets,
    s.config.modemPreset = .known p.preset → p.preset ≠ .veryLongSlow →
    ¬ (5 ≤ s.config.codingRate ∧ s.config.codingRate ≤ 8 ∧ s.config.codingRate ≠ p.cr) →
    s.radio.bw = p.bwKhz ∧ s.radio.sf = p.sf ∧ s.radio.cr = p.cr

end NodeModem

/-! ## The tables -/

/-- A preset of the table is the only one of its name. -/
theorem phyPresetFor_known : ∀ p ∈ kPhyPresets, phyPresetFor (.known p.preset) = some p := by
  decide +kernel

theorem of_phyPresetFor {preset : ModemPreset} {p : PhyPreset} (h : phyPresetFor preset = some p) :
    p ∈ kPhyPresets ∧ preset = .known p.preset := by
  unfold phyPresetFor at h
  have htest := List.find?_some h
  exact ⟨List.mem_of_find?_eq_some h, (of_decide_eq_true htest).symm⟩

theorem of_phyPresetForParams {bwKhz : ℚ} {sf cr : ℕ} {p : PhyPreset}
    (h : phyPresetForParams bwKhz sf cr = some p) :
    p ∈ kPhyPresets ∧ |p.bwKhz - bwKhz| < 1 / 2 ∧ p.sf = sf ∧ p.cr = cr := by
  unfold phyPresetForParams at h
  have htest := List.find?_some h
  exact ⟨List.mem_of_find?_eq_some h, of_decide_eq_true htest⟩

/-- **The tables of node and PHY agree.** -/
theorem phyPreset_info : ∀ p ∈ kPhyPresets,
    meshtasticPresetFromId (UInt8.ofNat p.id) = some p.preset ∧
      (meshtasticPresetInfo p.preset).bandwidthHz = 1000 * p.bwKhz ∧
      (meshtasticPresetInfo p.preset).sf = p.sf ∧
      (meshtasticPresetInfo p.preset).cr + 4 = p.cr := by
  decide +kernel

namespace NodeModem

variable {base : NodeModem → NodeModem} (hbase : FirmwareModem base) {slotTime : RadioInterface → ℕ}
  {s : NodeModem}
include hbase

theorem current_base (s : NodeModem) : (base s).Current := by
  intro huse p hp hpreset hne hrate
  rw [hbase.config] at huse hpreset hrate
  exact hbase.preset s huse p hp hpreset hne hrate

omit hbase in
/-- Where the configuration names a preset of the table and no other coding rate, the timing is
put right. -/
theorem reckons_applyPhyModemTiming {p : PhyPreset} (hp : p ∈ kPhyPresets) (hcurrent : s.Current)
    (huse : s.config.usePreset = true) (hpreset : s.config.modemPreset = .known p.preset)
    (hrate : ¬ (5 ≤ s.config.codingRate ∧ s.config.codingRate ≤ 8 ∧ s.config.codingRate ≠ p.cr))
    (hoverride : s.config.overrideFrequency = 0) :
    (s.applyPhyModemTiming slotTime).Reckons p := by
  have hnear : |p.bwKhz - p.bwKhz| < 1 / 2 := by norm_num
  unfold applyPhyModemTiming
  split
  · rw [hpreset, phyPresetFor_known p hp]
    exact ⟨hnear, rfl, rfl, fun _ => ⟨hpreset, rfl⟩, hoverride⟩
  · rename_i hvls
    have hne : p.preset ≠ .veryLongSlow := by
      intro heq
      exact hvls ⟨huse, heq ▸ hpreset⟩
    obtain ⟨hbw, hsf, hcr⟩ := hcurrent huse p hp hpreset hne hrate
    exact ⟨hbw ▸ hnear, hsf, hcr, fun _ => ⟨hpreset, hbw⟩, hoverride⟩

/-- Back to Short Turbo. -/
theorem reckons_revert (s : NodeModem) (hoverride : s.config.overrideFrequency = 0) :
    ((base s.revertToShortTurbo).applyPhyModemTiming slotTime).Reckons
      ⟨.shortTurbo, 0, 500, 7, 5⟩ := by
  have hcurrent := current_base hbase s.revertToShortTurbo
  refine reckons_applyPhyModemTiming (by decide) hcurrent ?_ ?_ ?_ ?_
  · rw [hbase.config]
    rfl
  · rw [hbase.config]
    rfl
  · rw [hbase.config]
    rintro ⟨hlow, -⟩
    exact absurd hlow (by simp [revertToShortTurbo, saveToDisk])
  · rw [hbase.config]
    exact hoverride

variable (slotTime) in
/-- **What is pushed is what the node reckons with.** -/
theorem reckons_pushModemToPhy (hcurrent : s.Current) (hoverride : s.config.overrideFrequency = 0) :
    ∃ p ∈ kPhyPresets, (s.pushModemToPhy base slotTime).2 = p.id ∧
      (s.pushModemToPhy base slotTime).1.Reckons p := by
  unfold pushModemToPhy phyPresetFromMeshtastic
  cases huse : s.config.usePreset with
  | true =>
      rw [if_pos rfl]
      rcases hfind : phyPresetFor s.config.modemPreset with _ | p
      · exact ⟨_, by decide, rfl, reckons_revert hbase s hoverride⟩
      · obtain ⟨hp, hpreset⟩ := of_phyPresetFor hfind
        refine ⟨p, hp, ?_⟩
        simp only
        split
        · -- the coding rate on top is dropped
          refine ⟨rfl, reckons_applyPhyModemTiming hp (current_base hbase _) ?_ ?_ ?_ ?_⟩
          · rw [hbase.config]
            exact huse
          · rw [hbase.config]
            exact hpreset
          · rw [hbase.config]
            rintro ⟨hlow, -⟩
            exact absurd hlow (by simp [saveToDisk])
          · rw [hbase.config]
            exact hoverride
        · rename_i hrate
          exact ⟨rfl, reckons_applyPhyModemTiming hp hcurrent huse hpreset hrate hoverride⟩
  | false =>
      rw [if_neg Bool.false_ne_true]
      rcases hfind : phyPresetForParams s.radio.bw s.radio.sf s.radio.cr with _ | p
      · exact ⟨_, by decide, rfl, reckons_revert hbase s hoverride⟩
      · obtain ⟨hp, hbw, hsf, hcr⟩ := of_phyPresetForParams hfind
        refine ⟨p, hp, rfl, ?_⟩
        have hkeep : s.applyPhyModemTiming slotTime = s := by
          rw [applyPhyModemTiming, if_neg]
          rintro ⟨htrue, -⟩
          rw [huse] at htrue
          exact absurd htrue (by decide)
        simp only [hkeep]
        refine ⟨hbw, hsf.symm, hcr.symm, fun htrue => ?_, hoverride⟩
        rw [huse] at htrue
        exact absurd htrue (by decide)

variable (slotTime) in
omit hbase in
/-- The timing is not part of the configuration. -/
theorem applyPhyModemTiming_config (s : NodeModem) :
    (s.applyPhyModemTiming slotTime).config = s.config ∧
      (s.applyPhyModemTiming slotTime).disk = s.disk := by
  unfold applyPhyModemTiming
  split
  · split <;> exact ⟨rfl, rfl⟩
  · exact ⟨rfl, rfl⟩

/-- A push leaves the configuration on disk. -/
theorem saved_pushModemToPhy (hsaved : s.disk = s.config) :
    (s.pushModemToPhy base slotTime).1.disk = (s.pushModemToPhy base slotTime).1.config := by
  obtain ⟨hconfig, hdisk⟩ :=
    applyPhyModemTiming_config slotTime (s.phyPresetFromMeshtastic base).1
  rw [pushModemToPhy, hconfig, hdisk, phyPresetFromMeshtastic]
  split
  · split
    · rw [hbase.config, hbase.disk]
      rfl
    · split
      · rw [hbase.config, hbase.disk]
        rfl
      · exact hsaved
  · split
    · rw [hbase.config, hbase.disk]
      rfl
    · exact hsaved

end NodeModem

/-! ## Node and PHY -/

/-- The node, the `SetModem` messages on their way, and the PHY. -/
structure ModemLink (Sample Receiver : Type) where
  node : NodeModem
  /-- `pending_preset_`. -/
  pending : Option ℕ := none
  wire : List UInt8 := []
  /-- A write has failed. -/
  writeFailed : Bool := false
  phy : ModemState Sample Receiver

/-- What happens to the modem of node and PHY. -/
inductive LinkAction
  /-- The firmware replaces the configuration and calls `reloadConfig`. -/
  | reconfigure (config : LoRaConfig) (sent : Bool)
  /-- The control thread: `SET PRESET`. -/
  | setPreset (id : ℕ)
  /-- The radio thread takes the request. -/
  | applyPreset (sent : Bool)
  /-- The PHY handles the next `SetModem`. -/
  | handleIpc
  /-- The PHY queues a frame, or pulls samples. -/
  | enqueueAir (air : List UInt8)
  | pull (n : ℕ)
  deriving DecidableEq

section Link

variable {Sample Receiver : Type} [Zero Sample] (base : NodeModem → NodeModem)
  (slotTime : RadioInterface → ℕ)
  (reload : (NodeModem → NodeModem × ℕ) → NodeModem → NodeModem × ℕ) (noiseBandwidth : DdcConfig → ℚ)
  (newReceiver : LoraParams → Receiver) (cfg : ModemConfig)
  (frame : LoraParams → List UInt16 → List Sample)

/-- The node after a push, and its message if it could be written. -/
def ModemLink.send (s : ModemLink Sample Receiver) (r : NodeModem × ℕ) (sent : Bool) :
    ModemLink Sample Receiver :=
  { s with
    node := r.1
    wire := if sent then s.wire ++ [UInt8.ofNat r.2] else s.wire
    writeFailed := s.writeFailed || !sent }

/-- One step; `none` where the PHY has no message. -/
def linkStep (s : ModemLink Sample Receiver) : LinkAction → Option (ModemLink Sample Receiver)
  | .reconfigure config sent =>
      some (s.send (reload (NodeModem.reconfigure base slotTime) { s.node with config }) sent)
  | .setPreset id =>
      let known := kPhyPresets.any fun e => decide (e.id = id)
      some (if known then { s with pending := some id } else s)
  | .applyPreset sent =>
      match s.pending with
      | none => some s
      | some id =>
          let s := { s with pending := none }
          match s.node.applyPresetRequest id with
          | none => some s
          | some node => some (s.send (reload (NodeModem.reconfigure base slotTime) node) sent)
  | .handleIpc =>
      match s.wire with
      | [] => none
      | id :: wire =>
          some { s with wire, phy := applyModem noiseBandwidth newReceiver cfg s.phy id }
  | .enqueueAir air =>
      (modemStep noiseBandwidth newReceiver cfg frame s.phy (.enqueueAir air)).map fun phy =>
        { s with phy }
  | .pull n =>
      (modemStep noiseBandwidth newReceiver cfg frame s.phy (.pull n)).map fun phy => { s with phy }

/-- A PHY with the preset of its command line, and a node that has just started. -/
def LinkInit (s : ModemLink Sample Receiver) : Prop :=
  ∃ node name amplitude phy sent, node.disk = node.config ∧
    modemStart noiseBandwidth newReceiver cfg name amplitude = some phy ∧
    s = ModemLink.send { node, phy } (node.init base slotTime) sent

/-- The PHY runs the preset `p`, or cannot: its down-converter cannot be built. -/
def PhyRuns (phy : ModemState Sample Receiver) (p : PhyPreset) : Prop :=
  (phy.params.bandwidthHz = 1000 * p.bwKhz ∧ phy.params.spreadingFactor = p.sf ∧
    phy.params.cr + 4 = p.cr) ∨
  makeDdc noiseBandwidth cfg
    { meshtasticParams p.preset (10 ^ 6) with sampleRateHz := phy.params.sampleRateHz } = none

variable {base slotTime reload noiseBandwidth newReceiver cfg frame}

omit [Zero Sample] in
/-- **The PHY follows a preset of the table** if it can. -/
theorem phyRuns_applyModem (phy : ModemState Sample Receiver) {p : PhyPreset}
    (hp : p ∈ kPhyPresets) :
    PhyRuns noiseBandwidth cfg
      (applyModem noiseBandwidth newReceiver cfg phy (UInt8.ofNat p.id)) p := by
  obtain ⟨hid, hbw, hsf, hcr⟩ := phyPreset_info p hp
  set next : LoraParams :=
    { meshtasticParams p.preset (10 ^ 6) with sampleRateHz := phy.params.sampleRateHz } with hnext
  have hreq : requested phy (UInt8.ofNat p.id) = some (meshtasticPresetKey p.preset, next) := by
    rw [requested, presetKeyFromId, hid, Option.map_some, Option.bind_some, parsePreset,
      parseMeshtasticPreset_key]
    rfl
  unfold applyModem
  rw [hreq]
  simp only
  cases hsame : sameModem phy next with
  | true =>
      rw [if_pos rfl]
      simp only [sameModem, Bool.and_eq_true, decide_eq_true_eq] at hsame
      obtain ⟨⟨hbw', hsf'⟩, hcr'⟩ := hsame
      exact Or.inl ⟨hbw'.symm.trans hbw, hsf'.symm.trans hsf,
        (congrArg (· + 4) hcr'.symm).trans hcr⟩
  | false =>
      rw [if_neg Bool.false_ne_true]
      rcases hddc : makeDdc noiseBandwidth cfg next with _ | ⟨rxNext, ddcNext⟩
      · exact Or.inr hddc
      · exact Or.inl ⟨hbw, hsf, hcr⟩

/-- The last message is the node's preset; where there is none, the PHY has it. -/
def ModemLink.Synced (noiseBandwidth : DdcConfig → ℚ) (cfg : ModemConfig)
    (s : ModemLink Sample Receiver) (p : PhyPreset) : Prop :=
  s.writeFailed = false →
    (s.wire = [] ∧ PhyRuns noiseBandwidth cfg s.phy p) ∨
      s.wire.getLast? = some (UInt8.ofNat p.id)

/-- What every run keeps. -/
def LinkInv (noiseBandwidth : DdcConfig → ℚ) (cfg : ModemConfig)
    (s : ModemLink Sample Receiver) : Prop :=
  ∃ p ∈ kPhyPresets, s.node.Runs p ∧ s.Synced noiseBandwidth cfg p

omit [Zero Sample] in
/-- **A push** makes its preset the last message. -/
theorem LinkInv.send {r : NodeModem × ℕ} {p : PhyPreset} (hp : p ∈ kPhyPresets)
    (hid : r.2 = p.id) (hruns : r.1.Runs p) (s : ModemLink Sample Receiver) (sent : Bool) :
    LinkInv noiseBandwidth cfg (s.send r sent) := by
  refine ⟨p, hp, hruns, fun hok => ?_⟩
  cases sent with
  | false => exact absurd hok (by simp [ModemLink.send])
  | true =>
      right
      simp only [ModemLink.send, if_true, hid, List.getLast?_append, List.getLast?_singleton,
        Option.some_or]

variable (hbase : FirmwareModem base)
include hbase

/-- A reconfiguration pushes the preset that the node reckons with then. -/
theorem reckons_reconfigure (slotTime : RadioInterface → ℕ) (node : NodeModem) :
    ∃ p ∈ kPhyPresets, (node.reconfigure base slotTime).2 = p.id ∧
      (node.reconfigure base slotTime).1.Reckons p := by
  unfold NodeModem.reconfigure
  apply NodeModem.reckons_pushModemToPhy hbase slotTime (NodeModem.current_base hbase _)
  rw [hbase.config, NodeModem.clearMeshtasticOverrideFrequency]
  split
  · rename_i hzero
    exact hzero
  · rfl

/-- With what the firmware does around it, the configuration is saved too. -/
theorem runs_reload (hreload : FirmwareReload reload) (slotTime : RadioInterface → ℕ)
    (node : NodeModem) :
    ∃ p ∈ kPhyPresets, (reload (NodeModem.reconfigure base slotTime) node).2 = p.id ∧
      (reload (NodeModem.reconfigure base slotTime) node).1.Runs p := by
  obtain ⟨disk, hsame⟩ := hreload (NodeModem.reconfigure base slotTime) node
  obtain ⟨p, hp, hid, hreckons⟩ := reckons_reconfigure hbase slotTime { node with disk }
  rw [hsame]
  exact ⟨p, hp, hid, ⟨hreckons.bw, hreckons.sf, hreckons.cr, hreckons.exact,
    hreckons.overrideFrequency⟩, rfl⟩

/-- So does the start of the node. -/
theorem runs_init {node : NodeModem} (hsaved : node.disk = node.config) :
    ∃ p ∈ kPhyPresets, (node.init base slotTime).2 = p.id ∧
      (node.init base slotTime).1.Runs p := by
  -- the timing set before the push matters for no configuration the firmware has numbers for
  have htimed : ∀ s : NodeModem, s.Current → s.disk = s.config → s.config.overrideFrequency = 0 →
      ∃ p ∈ kPhyPresets, ((s.applyPhyModemTiming slotTime).pushModemToPhy base slotTime).2 = p.id ∧
        ((s.applyPhyModemTiming slotTime).pushModemToPhy base slotTime).1.Runs p := by
    intro s hcurrent hs hoverride
    obtain ⟨hconfig, hdisk⟩ := NodeModem.applyPhyModemTiming_config slotTime s
    have hcurrent' : (s.applyPhyModemTiming slotTime).Current := by
      intro huse p hp hpreset hne hrate
      rw [hconfig] at huse hpreset hrate
      rw [NodeModem.applyPhyModemTiming, if_neg]
      · exact hcurrent huse p hp hpreset hne hrate
      · rintro ⟨-, hvls⟩
        rw [hpreset] at hvls
        exact hne (ModemPreset.known.inj hvls)
    obtain ⟨p, hp, hid, hreckons⟩ :=
      NodeModem.reckons_pushModemToPhy hbase slotTime hcurrent' (by rw [hconfig, hoverride])
    exact ⟨p, hp, hid, hreckons, NodeModem.saved_pushModemToPhy hbase (by rw [hconfig, hdisk, hs])⟩
  unfold NodeModem.init NodeModem.clearMeshtasticOverrideFrequency
  split
  · rename_i hzero
    apply htimed _ (NodeModem.current_base hbase _) _ hzero
    rw [hbase.config, hbase.disk, hsaved]
  · apply htimed _ (NodeModem.current_base hbase _)
    · simp only [hbase.config, hbase.disk]
      rfl
    · simp only [hbase.config]
      rfl

/-- **The step lemma.** -/
theorem LinkInv.step (hreload : FirmwareReload reload) {s t : ModemLink Sample Receiver}
    {a : LinkAction} (hinv : LinkInv noiseBandwidth cfg s)
    (hstep : linkStep base slotTime reload noiseBandwidth newReceiver cfg frame s a = some t) :
    LinkInv noiseBandwidth cfg t := by
  obtain ⟨p, hp, hruns, hsynced⟩ := hinv
  cases a with
  | reconfigure config sent =>
      obtain rfl := Option.some.inj hstep
      obtain ⟨q, hq, hid, hq'⟩ := runs_reload hbase hreload slotTime { s.node with config }
      exact LinkInv.send hq hid hq' s sent
  | setPreset id =>
      obtain rfl := Option.some.inj hstep
      split
      · exact ⟨p, hp, hruns, hsynced⟩
      · exact ⟨p, hp, hruns, hsynced⟩
  | applyPreset sent =>
      rcases hpending : s.pending with _ | id
      · simp only [linkStep, hpending] at hstep
        obtain rfl := Option.some.inj hstep
        exact ⟨p, hp, hruns, hsynced⟩
      · rcases hrequest : s.node.applyPresetRequest id with _ | node
        · simp only [linkStep, hpending, hrequest] at hstep
          obtain rfl := Option.some.inj hstep
          exact ⟨p, hp, hruns, hsynced⟩
        · simp only [linkStep, hpending, hrequest] at hstep
          obtain rfl := Option.some.inj hstep
          obtain ⟨q, hq, hid, hq'⟩ := runs_reload hbase hreload slotTime node
          exact LinkInv.send hq hid hq' { s with pending := none } sent
  | handleIpc =>
      rcases hwire : s.wire with _ | ⟨id, wire⟩
      · simp only [linkStep, hwire] at hstep
        exact absurd hstep (by simp)
      · simp only [linkStep, hwire] at hstep
        obtain rfl := Option.some.inj hstep
        refine ⟨p, hp, hruns, fun hok => ?_⟩
        rcases hsynced hok with ⟨hempty, -⟩ | hlast
        · rw [hwire] at hempty
          exact absurd hempty (List.cons_ne_nil _ _)
        · rw [hwire] at hlast
          rcases wire with _ | ⟨id', wire⟩
          · -- the last message is handled
            obtain rfl := Option.some.inj hlast
            exact Or.inl ⟨rfl, phyRuns_applyModem s.phy hp⟩
          · exact Or.inr hlast
  | enqueueAir air =>
      obtain rfl := Option.some.inj hstep
      exact ⟨p, hp, hruns, hsynced⟩
  | pull n =>
      obtain rfl := Option.some.inj hstep
      exact ⟨p, hp, hruns, hsynced⟩

/-- **One modem on both sides.**  After any run of configuration changes, requests on the control
socket, messages and frames, the node reckons with the numbers of a preset of the table, the one
its configuration names if it names one, and this is the configuration on disk.  If every write
went through and the PHY has handled every message, it runs that preset, unless its RX rate does
not serve it. -/
theorem node_phy_agree (hreload : FirmwareReload reload) {s : ModemLink Sample Receiver}
    (hs : Reach (LinkInit base slotTime noiseBandwidth newReceiver cfg)
      (Steps (linkStep base slotTime reload noiseBandwidth newReceiver cfg frame)) s) :
    ∃ p ∈ kPhyPresets, s.node.Runs p ∧
      (s.writeFailed = false → s.wire = [] → PhyRuns noiseBandwidth cfg s.phy p) := by
  have hinv : LinkInv noiseBandwidth cfg s := by
    refine Reach.invariant (LinkInv noiseBandwidth cfg) ?_ (fun s a t h hst => h.step hbase hreload hst) hs
    rintro s ⟨node, name, amplitude, phy, sent, hsaved, -, rfl⟩
    obtain ⟨p, hp, hid, hruns⟩ := runs_init hbase hsaved
    exact LinkInv.send hp hid hruns _ sent
  obtain ⟨p, hp, hruns, hsynced⟩ := hinv
  refine ⟨p, hp, hruns, fun hok hempty => ?_⟩
  rcases hsynced hok with ⟨-, hphy⟩ | hlast
  · exact hphy
  · rw [hempty] at hlast
    exact absurd hlast (by simp)

end Link

/-! ## A preset the firmware has other numbers for -/

/-- A firmware: a preset by the table, but Long Fast for `VERY_LONG_SLOW`, with a coding rate on
top; the custom settings otherwise. -/
def tableFirmware (s : NodeModem) : NodeModem :=
  if s.config.usePreset then
    match phyPresetFor s.config.modemPreset with
    | none => s
    | some p =>
        let p := if p.preset = .veryLongSlow then ⟨.longFast, 5, 250, 11, 5⟩ else p
        let cr :=
          if 5 ≤ s.config.codingRate ∧ s.config.codingRate ≤ 8 then s.config.codingRate else p.cr
        { s with radio := { s.radio with bw := p.bwKhz, sf := p.sf, cr } }
  else
    { s with radio := { s.radio with
        bw := s.config.bandwidth, sf := s.config.spreadFactor, cr := s.config.codingRate } }

theorem firmwareModem_table : FirmwareModem tableFirmware := by
  refine ⟨?_, ?_, ?_⟩
  · intro s
    unfold tableFirmware
    split
    · split <;> rfl
    · rfl
  · intro s
    unfold tableFirmware
    split
    · split <;> rfl
    · rfl
  · intro s huse p hp hpreset hne hrate
    unfold tableFirmware
    have htable : (if p.preset = .veryLongSlow then ⟨.longFast, 5, 250, 11, 5⟩ else p) = p :=
      if_neg hne
    rw [if_pos huse, hpreset, phyPresetFor_known p hp]
    simp only [htable, true_and]
    split
    · rename_i hset
      by_contra hother
      exact hrate ⟨hset.1, hset.2, hother⟩
    · rfl

/-- It reconfigures the radio and saves. -/
def tableReload (reconfigure : NodeModem → NodeModem × ℕ) (s : NodeModem) : NodeModem × ℕ :=
  ((reconfigure s).1.saveToDisk, (reconfigure s).2)

/-- An RX rate of 8 MHz. -/
def wideConfig : ModemConfig where
  rxRateHz := 8000000
  rxIfKhz := 0
  warmupSyms := 0
  gapSyms := 0

/-- Custom settings that are those of Short Fast. -/
def customShortFast : LoRaConfig where
  usePreset := false
  modemPreset := .other 9
  codingRate := 5
  bandwidth := 250
  spreadFactor := 7

/-- A node with these settings, before it has started. -/
def startedNode : NodeModem where
  config := customShortFast
  disk := customShortFast
  radio := { bw := 0, sf := 0, cr := 0 }

/-- `VERY_LONG_SLOW` is asked for on the control socket, then a preset the PHY does not have, and
`VERY_LONG_SLOW` again. -/
def presetRun : List LinkAction :=
  [.handleIpc, .setPreset 8, .applyPreset true, .enqueueAir [0x42],
    .reconfigure { modemPreset := .other 12, codingRate := 6 } true, .setPreset 8, .handleIpc,
    .applyPreset true, .handleIpc, .handleIpc]

theorem node_phy_agree_veryLongSlow :
    ∃ s : ModemLink ℕ Unit, s.node.radio.bw = 125 / 2 ∧ s.wire = [] ∧
      ∃ p ∈ kPhyPresets, s.node.Runs p ∧ PhyRuns (fun _ => 0) wideConfig s.phy p := by
  have hrun : ((modemStart (fun _ => 0) (fun _ => ()) wideConfig "shortturbo" 9).bind fun phy =>
      exec (linkStep tableFirmware (fun _ => 0) tableReload (fun _ => 0) (fun _ => ()) wideConfig
        fun _ chips => chips.map fun c => c.toNat + 1)
        (ModemLink.send { node := startedNode, phy }
          (startedNode.init tableFirmware fun _ => 0) true) presetRun).any
      (fun s : ModemLink ℕ Unit => decide (s.node.radio.bw = 125 / 2 ∧ s.wire = [] ∧
        s.writeFailed = false)) = true := by decide +kernel
  obtain ⟨s, hs, hp⟩ := (Option.any_eq_true _ _).mp hrun
  obtain ⟨hbw, hwire, hok⟩ := of_decide_eq_true hp
  obtain ⟨phy, hphy, hexec⟩ := Option.bind_eq_some_iff.mp hs
  have hreload : FirmwareReload tableReload := fun _ s => ⟨s.disk, rfl⟩
  obtain ⟨p, hmem, hruns, hagree⟩ := node_phy_agree firmwareModem_table hreload
    (Reach.exec (Reach.start ⟨startedNode, _, _, phy, true, rfl, hphy, rfl⟩) hexec)
  exact ⟨s, hbw, hwire, p, hmem, hruns, hagree hok hwire⟩
