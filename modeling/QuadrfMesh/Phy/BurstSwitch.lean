/-
# Preset switches against the burst on the air (`applyModem` in `apps/quadrf_lora_phy.cpp`)

A session with the bursts its transmitter started and the burst samples the TX thread
pulled written beside it.  `clearQueue` lets the burst on the air finish; the
transmitter `applyModem` builds in place of the old one does not have it.  So bursts
stay whole as long as no preset is switched with a burst on the air
(`bursts_whole`), and a switch in mid-burst cuts it (`switch_cuts_burst`).
-/
import QuadrfMesh.Phy.Modem
import QuadrfMesh.Phy.TxStream

open Transition

namespace Transmitter

variable {Sample : Type} [Zero Sample]

/-- The bursts a `pull` starts. -/
def startedBy (tx : Transmitter Sample) (n : ℕ) : List (List Sample) :=
  (tx.queue.take ((tx.pull n).tx.framesStarted - tx.framesStarted)).map tx.burstOf

/-- The burst samples of a `pull`; what follows them is silence. -/
def airedBy (tx : Transmitter Sample) (n : ℕ) : List Sample :=
  (tx.pull n).out.take (tx.pull n).fromBurst

/-- What was left on the air and what was started was pulled or is left. -/
theorem rest_append_startedBy (tx : Transmitter Sample) (n : ℕ) :
    tx.rest ++ (tx.startedBy n).flatten = tx.airedBy n ++ (tx.pull n).tx.rest := by
  obtain ⟨started, h⟩ := pull_spec tx n
  have htake : tx.queue.take ((tx.pull n).tx.framesStarted - tx.framesStarted) = started := by
    rw [h.framesStarted_eq, h.queue_eq, Nat.add_sub_cancel_left, List.take_left']
    rfl
  rw [startedBy, htake]
  exact h.air_eq

/-- A `pull` as long as what is left on the air takes all of it. -/
theorem rest_prefix_airedBy (tx : Transmitter Sample) {n : ℕ} (hn : tx.rest.length ≤ n) :
    tx.rest <+: tx.airedBy n := by
  obtain ⟨started, h⟩ := pull_spec tx n
  have hle := h.fromBurst_le
  have hlen : (tx.airedBy n).length = (tx.pull n).fromBurst := by
    rw [airedBy, List.length_take, h.length_out, Nat.min_eq_left hle]
  have hsplit := rest_append_startedBy tx n
  rcases Nat.lt_or_ge (tx.pull n).fromBurst n with hlt | hge
  · rw [h.rest_of_silence hlt, List.append_nil] at hsplit
    exact ⟨_, hsplit⟩
  · apply List.prefix_of_prefix_length_le ⟨_, hsplit⟩ (List.prefix_append _ _)
    omega

end Transmitter

section Model

variable {Sample Receiver : Type} [Zero Sample] (noiseBandwidth : DdcConfig → ℚ)
  (newReceiver : LoraParams → Receiver) (cfg : ModemConfig)
  (frame : LoraParams → List UInt16 → List Sample)

/-- A session, the bursts started in it and the burst samples pulled so far. -/
structure AirSession (Sample Receiver : Type) where
  modem : ModemState Sample Receiver
  started : List (List Sample) := []
  aired : List Sample := []

/-- One step of a session, written down. -/
def airStep (s : AirSession Sample Receiver) (a : ModemAction) :
    Option (AirSession Sample Receiver) :=
  (modemStep noiseBandwidth newReceiver cfg frame s.modem a).map fun modem =>
    match a with
    | .pull n =>
        { modem
          started := s.started ++ s.modem.tx.startedBy n
          aired := s.aired ++ s.modem.tx.airedBy n }
    | _ => { s with modem }

/-- The start of a session. -/
def AirInit (s : AirSession Sample Receiver) : Prop :=
  ModemInit noiseBandwidth newReceiver cfg s.modem ∧ s.started = [] ∧ s.aired = []

/-- Every burst started was pulled from its first sample to its last, but for what the
transmitter still has on the air. -/
def BurstsWhole (s : AirSession Sample Receiver) : Prop :=
  s.started.flatten = s.aired ++ s.modem.tx.rest

instance [DecidableEq Sample] (s : AirSession Sample Receiver) : Decidable (BurstsWhole s) :=
  inferInstanceAs (Decidable (s.started.flatten = s.aired ++ s.modem.tx.rest))

/-- `applyModem` follows the request: a known preset, not the running one, whose
down-converter can be built. -/
def Rebuilds (s : ModemState Sample Receiver) (id : UInt8) : Prop :=
  match requested s id with
  | none => False
  | some (_, next) => sameModem s next = false ∧ (makeDdc noiseBandwidth cfg next).isSome = true

instance (s : ModemState Sample Receiver) (id : UInt8) :
    Decidable (Rebuilds noiseBandwidth cfg s id) :=
  match h : requested s id with
  | none => isFalse (by rw [Rebuilds, h]; exact not_false)
  | some (_, next) =>
      decidable_of_iff
        (sameModem s next = false ∧ (makeDdc noiseBandwidth cfg next).isSome = true)
        (by rw [Rebuilds, h])

/-- No preset is switched with a burst on the air. -/
def SwitchesIdle (s : AirSession Sample Receiver) (a : ModemAction) : Prop :=
  match a with
  | .setModem id => Rebuilds noiseBandwidth cfg s.modem id → s.modem.tx.rest = []
  | _ => True

instance [DecidableEq Sample] (s : AirSession Sample Receiver) (a : ModemAction) :
    Decidable (SwitchesIdle noiseBandwidth cfg s a) :=
  match a with
  | .setModem id =>
      inferInstanceAs (Decidable (Rebuilds noiseBandwidth cfg s.modem id → s.modem.tx.rest = []))
  | .enqueueAir _ => isTrue trivial
  | .pull _ => isTrue trivial

omit [Zero Sample] in
/-- A preset switch leaves nothing on the air. -/
theorem applyModem_rest_of_rebuilds {s : ModemState Sample Receiver} {id : UInt8}
    (h : Rebuilds noiseBandwidth cfg s id) :
    (applyModem noiseBandwidth newReceiver cfg s id).tx.rest = [] := by
  unfold Rebuilds at h
  unfold applyModem
  rcases hreq : requested s id with - | ⟨name, next⟩
  · rw [hreq] at h
    exact h.elim
  · rw [hreq] at h
    obtain ⟨hsame, hddc⟩ := h
    obtain ⟨⟨rxNext, ddcNext⟩, hddc⟩ := Option.isSome_iff_exists.mp hddc
    simp only [hsame, Bool.false_eq_true, if_false, hddc]
    rfl

omit [Zero Sample] in
/-- A request that is not followed leaves the burst on the air alone. -/
theorem applyModem_rest_of_not_rebuilds {s : ModemState Sample Receiver} {id : UInt8}
    (h : ¬ Rebuilds noiseBandwidth cfg s id) :
    (applyModem noiseBandwidth newReceiver cfg s id).tx.rest = s.tx.rest := by
  unfold applyModem
  rcases hreq : requested s id with - | ⟨name, next⟩
  · rfl
  · simp only
    cases hsame : sameModem s next with
    | true => rfl
    | false =>
        rcases hddc : makeDdc noiseBandwidth cfg next with - | ⟨rxNext, ddcNext⟩
        · rfl
        · apply absurd _ h
          rw [Rebuilds, hreq]
          exact ⟨hsame, by rw [hddc]; rfl⟩

/-- **The step lemma**: from whole bursts, a step leaves the bursts whole exactly when it
does not switch the preset with a burst on the air. -/
theorem bursts_whole_step {s t : AirSession Sample Receiver} {a : ModemAction}
    (h : BurstsWhole s) (hstep : airStep noiseBandwidth newReceiver cfg frame s a = some t) :
    BurstsWhole t ↔ SwitchesIdle noiseBandwidth cfg s a := by
  obtain ⟨modem, hmodem, rfl⟩ := Option.map_eq_some_iff.mp hstep
  unfold BurstsWhole at h
  cases a with
  | enqueueAir air =>
      obtain rfl := Option.some.inj hmodem
      have hrest : ((s.modem.tx.enqueue frame air).getD s.modem.tx).rest = s.modem.tx.rest := by
        unfold Transmitter.enqueue
        split <;> rfl
      have hwhole : s.started.flatten
          = s.aired ++ ((s.modem.tx.enqueue frame air).getD s.modem.tx).rest := by rw [hrest, h]
      exact iff_of_true hwhole trivial
  | pull n =>
      obtain rfl := Option.some.inj hmodem
      have hwhole : (s.started ++ s.modem.tx.startedBy n).flatten
          = s.aired ++ s.modem.tx.airedBy n ++ (s.modem.tx.pull n).tx.rest := by
        rw [List.flatten_append, h, List.append_assoc, s.modem.tx.rest_append_startedBy n,
          List.append_assoc]
      exact iff_of_true hwhole trivial
  | setModem id =>
      obtain rfl := Option.some.inj hmodem
      show s.started.flatten
        = s.aired ++ (applyModem noiseBandwidth newReceiver cfg s.modem id).tx.rest ↔ _
      rw [h, List.append_cancel_left_eq]
      constructor
      · intro heq hre
        rw [heq, applyModem_rest_of_rebuilds noiseBandwidth newReceiver cfg hre]
      · intro hidle
        by_cases hre : Rebuilds noiseBandwidth cfg s.modem id
        · rw [applyModem_rest_of_rebuilds noiseBandwidth newReceiver cfg hre]
          exact hidle hre
        · rw [applyModem_rest_of_not_rebuilds noiseBandwidth newReceiver cfg hre]

/-- **Bursts on the air stay whole.**  In every run that switches no preset with a burst on
the air, every burst started was pulled whole, but for what is left on the air, and a
`pull` as long as that takes it all; and a further step keeps the bursts whole exactly when
it does not switch the preset with a burst on the air. -/
theorem bursts_whole {s : AirSession Sample Receiver}
    (hs : Reach (AirInit noiseBandwidth newReceiver cfg)
      (Restrict (Steps (airStep noiseBandwidth newReceiver cfg frame))
        (SwitchesIdle noiseBandwidth cfg)) s) :
    BurstsWhole s ∧
    (∀ n, s.modem.tx.rest.length ≤ n → s.started.flatten <+: s.aired ++ s.modem.tx.airedBy n) ∧
    ∀ a t, airStep noiseBandwidth newReceiver cfg frame s a = some t →
      (BurstsWhole t ↔ SwitchesIdle noiseBandwidth cfg s a) := by
  have hwhole : BurstsWhole s := by
    apply Reach.invariant BurstsWhole ?_ ?_ hs
    · rintro s ⟨⟨name, amplitude, hstart⟩, hstarted, haired⟩
      unfold modemStart at hstart
      obtain ⟨params, -, hstart⟩ := Option.bind_eq_some_iff.mp hstart
      obtain ⟨ddc, -, hmodem⟩ := Option.map_eq_some_iff.mp hstart
      rw [BurstsWhole, hstarted, haired, ← hmodem]
      rfl
    · rintro s a t h ⟨hstep, hok⟩
      exact (bursts_whole_step noiseBandwidth newReceiver cfg frame h hstep).mpr hok
  refine ⟨hwhole, ?_, fun a t => bursts_whole_step noiseBandwidth newReceiver cfg frame hwhole⟩
  intro n hn
  obtain ⟨tail, htail⟩ := s.modem.tx.rest_prefix_airedBy hn
  rw [BurstsWhole] at hwhole
  rw [hwhole, ← htail]
  exact ⟨tail, List.append_assoc ..⟩

end Model

/-! ## A switch in mid-burst -/

/-- A Short Fast session at the 500 kHz RX rate, with its bursts written down. -/
def narrowAirStep : AirSession ℕ Unit → ModemAction → Option (AirSession ℕ Unit) :=
  airStep (fun _ => 0) (fun _ => ()) narrowConfig fun _ chips => chips.map fun c => c.toNat + 1

/-- Switched after the burst has been pulled, the preset leaves it whole. -/
theorem bursts_whole_narrow :
    ∃ s : AirSession ℕ Unit, s.modem.params.spreadingFactor = 8 ∧ s.started ≠ [] ∧
      BurstsWhole s := by
  have hrun : ((modemStart (fun _ => 0) (fun _ => ()) narrowConfig "shortfast" 9).bind fun modem =>
      exec (guarded narrowAirStep (SwitchesIdle (fun _ => 0) narrowConfig)) { modem }
        [.enqueueAir [0x42], .pull 1000, .setModem 2]).any
      (fun s => decide (s.modem.params.spreadingFactor = 8 ∧ s.started ≠ [])) = true := by
    decide +kernel
  obtain ⟨s, hs, hp⟩ := (Option.any_eq_true _ _).mp hrun
  obtain ⟨hsf, hstarted⟩ := of_decide_eq_true hp
  obtain ⟨modem, hstart, hexec⟩ := Option.bind_eq_some_iff.mp hs
  exact ⟨s, hsf, hstarted, (bursts_whole (fun _ => 0) (fun _ => ()) narrowConfig _
    (Reach.exec_guarded (Reach.start ⟨⟨_, _, hstart⟩, rfl, rfl⟩) hexec)).1⟩

/-- **A cut burst.**  One sample of a burst is pulled, then the preset is switched from Short
Fast to Short Slow. -/
theorem switch_cuts_burst :
    ¬ ∀ s : AirSession ℕ Unit,
        Reach (AirInit (fun _ => 0) (fun _ => ()) narrowConfig) (Steps narrowAirStep) s →
          BurstsWhole s := by
  intro hall
  have hrun : ((modemStart (fun _ => 0) (fun _ => ()) narrowConfig "shortfast" 9).bind fun modem =>
      exec narrowAirStep { modem } [.enqueueAir [0x42], .pull 1, .setModem 2]).any
      (fun s => !decide (BurstsWhole s)) = true := by decide +kernel
  obtain ⟨s, hs, hp⟩ := (Option.any_eq_true _ _).mp hrun
  obtain ⟨modem, hstart, hexec⟩ := Option.bind_eq_some_iff.mp hs
  rw [Bool.not_eq_true', decide_eq_false_iff_not] at hp
  exact hp (hall s (Reach.exec (Reach.start ⟨⟨_, _, hstart⟩, rfl, rfl⟩) hexec))
