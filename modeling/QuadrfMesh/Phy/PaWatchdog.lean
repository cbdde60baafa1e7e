/-
# The PA mute watchdog against the TX thread (`apps/quadrf_lora_phy.cpp`)

An on-air session (`--ota`, not `--rx-only`) as two threads that interleave: the
TX thread (`tx_thread`) pulls a chunk under `modem_mu`, unmutes the PA, writes the
chunk and mutes after idle; the main loop tests the transmitter, the `tx_unmuted`
flag and register 0x23 and mutes a PA some other program enabled.  Each section
under one lock and each hardware call is one step; timers may expire at any time.

The main loop acts on a test it made earlier.  As long as no watchdog mute is
taken after the TX thread has unmuted (`MuteFresh`), a chunk with burst samples
is only ever written with the PA on (`burst_write_unmuted`).
-/
import QuadrfMesh.Lib.Transition
import QuadrfMesh.Phy.Transmitter

open Transition

/-- Where the TX thread stands. -/
inductive TxPc
  | top | unmute | write | muteCheck | stopped
  deriving DecidableEq, Repr

/-- Where the main loop stands: before the idle test, at the `tx_unmuted` test, in
the watchdog, at its second test, at `paMute`, in the rest of the iteration. -/
inductive MainPc
  | top | flagCheck | watch | recheck | mute | rest | joined
  deriving DecidableEq, Repr

/-- The state the two threads share, and their locals. -/
structure PaState (Sample : Type) where
  tx : Transmitter Sample
  txUnmuted : Bool := false
  /-- The last PA command was `paUnmute`. -/
  paUnmuted : Bool := false
  txPc : TxPc := .top
  /-- Burst samples in the chunk the TX thread holds. -/
  chunkBurst : ℕ := 0
  wantMuteCheck : Bool := false
  idleTiming : Bool := false
  mainPc : MainPc := .top
  txIdle : Bool := false
  stillIdle : Bool := false
  paWaitingToMute : Bool := false
  deriving DecidableEq

/-- The steps of the two threads. -/
inductive PaAction
  /-- TX thread, under `modem_mu`: idle test, `pull`, second idle test. -/
  | txSection
  /-- `unmuteTxRf`. -/
  | unmuteTxRf
  /-- A stream write that timed out or took part of the chunk. -/
  | writePart
  /-- The stream write that took the last sample of the chunk. -/
  | writeDone
  /-- The idle timer, `drained` when `pa_drain` has passed, then `muteTxRf`. -/
  | muteCheck (drained : Bool)
  /-- Stream error or `g_running` cleared. -/
  | txStop
  /-- Main loop, under `modem_mu`: `tx_idle = tx.isIdle()`. -/
  | idleCheck
  /-- Main loop: `ota && tx_idle && !tx_unmuted`. -/
  | flagCheck
  /-- Watchdog: its timer (`elapsed`), then the register read, or `still_idle`. -/
  | watch (elapsed : Bool) (reg23 : ℕ)
  /-- Watchdog: `still_idle && !tx_unmuted`. -/
  | recheck
  /-- Watchdog: `rf.paMute()`. -/
  | paMute
  /-- Main loop: a `TxEnqueue` message. -/
  | enqueueAir (air : List UInt8)
  /-- Main loop: a `SetModem` message, after which the transmitter is a new one. -/
  | applyModem (next : LoraParams) (warmupSyms gapSyms : ℕ)
  /-- Main loop: the next iteration. -/
  | again
  /-- Main loop: TX thread joined, then `muteTxRf`. -/
  | join
  deriving DecidableEq

section Model

variable {Sample : Type}

/-- `muteTxRf`. -/
def muteTxRf (s : PaState Sample) : PaState Sample :=
  if s.txUnmuted then { s with paUnmuted := false, txUnmuted := false } else s

/-- One step of the two threads; `none` when the thread does not stand there. -/
def paStep [Zero Sample] (frame : LoraParams → List UInt16 → List Sample) (chunkLen : ℕ)
    (s : PaState Sample) : PaAction → Option (PaState Sample)
  | .txSection =>
      if s.txPc = .top then
        let wantUnmute := !s.tx.isIdle
        let r := s.tx.pull chunkLen
        some
          { s with
            tx := r.tx
            chunkBurst := r.fromBurst
            wantMuteCheck := r.tx.isIdle && s.txUnmuted
            txPc := if wantUnmute then .unmute else .write }
      else none
  | .unmuteTxRf =>
      if s.txPc = .unmute then
        some { s with paUnmuted := s.paUnmuted || !s.txUnmuted, txUnmuted := true
                      idleTiming := false, txPc := .write }
      else none
  | .writePart => if s.txPc = .write then some s else none
  | .writeDone =>
      if s.txPc = .write then
        some { s with txPc := if s.wantMuteCheck then .muteCheck else .top }
      else none
  | .muteCheck drained =>
      if s.txPc = .muteCheck then
        some { (if s.idleTiming && drained then muteTxRf s else s) with
          idleTiming := true, txPc := .top }
      else none
  | .txStop =>
      if s.txPc = .top ∨ s.txPc = .write then some { s with txPc := .stopped } else none
  | .idleCheck =>
      if s.mainPc = .top then some { s with txIdle := s.tx.isIdle, mainPc := .flagCheck }
      else none
  | .flagCheck =>
      if s.mainPc = .flagCheck then
        some { s with mainPc := if s.txIdle && !s.txUnmuted then .watch else .rest }
      else none
  | .watch elapsed reg23 =>
      if s.mainPc = .watch then
        some (if !elapsed then { s with mainPc := .rest }
          else if !s.paWaitingToMute then
            -- the PA is on although this program has not unmuted it
            { s with paWaitingToMute := decide (reg23 &&& 0x0001 = 0), mainPc := .rest }
          else { s with paWaitingToMute := false, stillIdle := s.tx.isIdle, mainPc := .recheck })
      else none
  | .recheck =>
      if s.mainPc = .recheck then
        some { s with mainPc := if s.stillIdle && !s.txUnmuted then .mute else .rest }
      else none
  | .paMute => if s.mainPc = .mute then some { s with paUnmuted := false, mainPc := .rest } else none
  | .enqueueAir air =>
      if s.mainPc = .rest then some { s with tx := (s.tx.enqueue frame air).getD s.tx } else none
  | .applyModem next warmupSyms gapSyms =>
      if s.mainPc = .rest then
        some { s with tx := { Transmitter.new next s.tx.amplitude with warmupSyms, gapSyms } }
      else none
  | .again => if s.mainPc = .rest then some { s with mainPc := .top } else none
  | .join =>
      if s.mainPc = .rest ∧ s.txPc = .stopped then some { muteTxRf s with mainPc := .joined }
      else none

/-- The start of a session: PA muted, TX thread and main loop at their top. -/
def PaInit (s : PaState Sample) : Prop :=
  s.txUnmuted = false ∧ s.paUnmuted = false ∧ s.txPc = .top ∧ s.mainPc = .top

/-- A chunk with burst samples in it is being written to the TX stream. -/
def WritingBurst (s : PaState Sample) : Prop := s.txPc = .write ∧ 0 < s.chunkBurst

instance (s : PaState Sample) : Decidable (WritingBurst s) :=
  inferInstanceAs (Decidable (s.txPc = .write ∧ 0 < s.chunkBurst))

/-- The watchdog's `paMute` is taken while `tx_unmuted` is still false. -/
def MuteFresh (s : PaState Sample) (a : PaAction) : Prop :=
  a = .paMute → s.txUnmuted = false

instance (s : PaState Sample) (a : PaAction) : Decidable (MuteFresh s a) :=
  inferInstanceAs (Decidable (a = .paMute → s.txUnmuted = false))

/-- What a run whose watchdog mutes are fresh keeps: the flag tells the PA, and the
flag is up while burst samples are written. -/
structure PaInv (s : PaState Sample) : Prop where
  flag_pa : s.txUnmuted = true → s.paUnmuted = true
  write_flag : WritingBurst s → s.txUnmuted = true

theorem PaInv.of_init {s : PaState Sample} (h : PaInit s) : PaInv s := by
  obtain ⟨hflag, -, hpc, -⟩ := h
  constructor
  · intro h
    rw [hflag] at h
    exact absurd h (by decide)
  · rintro ⟨hw, -⟩
    rw [hpc] at hw
    exact absurd hw (by decide)

/-- `muteTxRf` keeps the flag and the PA together. -/
theorem muteTxRf_flag_pa {s : PaState Sample} (h : s.txUnmuted = true → s.paUnmuted = true) :
    (muteTxRf s).txUnmuted = true → (muteTxRf s).paUnmuted = true := by
  unfold muteTxRf
  split
  · intro h'
    exact absurd h' (by simp)
  · exact h

/-- What the TX thread shares with the rest of the machine: the steps of the main
loop other than `paMute` and `join` leave it alone. -/
theorem PaInv.congr {s t : PaState Sample} (hinv : PaInv s) (hflag : t.txUnmuted = s.txUnmuted)
    (hpa : t.paUnmuted = s.paUnmuted) (hpc : t.txPc = s.txPc)
    (hburst : t.chunkBurst = s.chunkBurst) : PaInv t := by
  constructor
  · rw [hflag, hpa]
    exact hinv.flag_pa
  · unfold WritingBurst
    rw [hpc, hburst, hflag]
    exact hinv.write_flag

/-- A state whose TX thread does not write needs only the flag to tell the PA. -/
theorem PaInv.of_not_writing {s : PaState Sample} (hpc : s.txPc ≠ .write)
    (hpa : s.txUnmuted = true → s.paUnmuted = true) : PaInv s :=
  ⟨hpa, fun h => absurd h.1 hpc⟩

variable [Zero Sample] (frame : LoraParams → List UInt16 → List Sample) (chunkLen : ℕ)

/-- **The step lemma.**  Only the watchdog's mute needs the condition. -/
theorem PaInv.step {s t : PaState Sample} {a : PaAction} (hinv : PaInv s)
    (hstep : paStep frame chunkLen s a = some t) (hok : MuteFresh s a) : PaInv t := by
  cases a <;> simp only [paStep, Option.ite_none_right_eq_some, Option.some.injEq] at hstep <;>
    obtain ⟨hpc, rfl⟩ := hstep
  case txSection =>
    refine ⟨hinv.flag_pa, ?_⟩
    rintro ⟨hw, hburst⟩
    -- a chunk with burst samples goes through `unmuteTxRf` first
    have hbusy := Transmitter.not_isIdle_of_fromBurst s.tx chunkLen hburst
    simp [hbusy] at hw
  case unmuteTxRf =>
    constructor
    · intro _
      show (s.paUnmuted || !s.txUnmuted) = true
      cases hflag : s.txUnmuted with
      | false => simp
      | true => rw [hinv.flag_pa hflag]; rfl
    · intro _
      rfl
  case writePart => exact hinv
  case writeDone =>
    refine PaInv.of_not_writing ?_ hinv.flag_pa
    show (if s.wantMuteCheck = true then TxPc.muteCheck else .top) ≠ .write
    split <;> simp
  case muteCheck drained =>
    refine PaInv.of_not_writing (by simp) ?_
    show (if s.idleTiming && drained then muteTxRf s else s).txUnmuted = true →
      (if s.idleTiming && drained then muteTxRf s else s).paUnmuted = true
    split
    · exact muteTxRf_flag_pa hinv.flag_pa
    · exact hinv.flag_pa
  case txStop => exact PaInv.of_not_writing (by simp) hinv.flag_pa
  case idleCheck => exact hinv.congr rfl rfl rfl rfl
  case flagCheck => exact hinv.congr rfl rfl rfl rfl
  case watch elapsed reg23 =>
    split
    · exact hinv.congr rfl rfl rfl rfl
    · split <;> exact hinv.congr rfl rfl rfl rfl
  case recheck => exact hinv.congr rfl rfl rfl rfl
  case paMute =>
    constructor
    · intro hflag
      -- a fresh mute finds the flag down
      have hdown : s.txUnmuted = false := hok rfl
      have hup : s.txUnmuted = true := hflag
      rw [hdown] at hup
      exact absurd hup (by decide)
    · exact hinv.write_flag
  case enqueueAir air => exact hinv.congr rfl rfl rfl rfl
  case applyModem next warmupSyms gapSyms => exact hinv.congr rfl rfl rfl rfl
  case again => exact hinv.congr rfl rfl rfl rfl
  case join =>
    have htx : (muteTxRf s).txPc = s.txPc := by
      unfold muteTxRf
      split <;> rfl
    refine PaInv.of_not_writing ?_ (muteTxRf_flag_pa hinv.flag_pa)
    show (muteTxRf s).txPc ≠ .write
    rw [htx, hpc.2]
    simp

/-- **Burst samples go out with the PA on**, in every run whose watchdog mutes are
taken while `tx_unmuted` is still false. -/
theorem burst_write_unmuted {s : PaState Sample}
    (h : Reach PaInit (Restrict (Steps (paStep frame chunkLen)) MuteFresh) s)
    (hw : WritingBurst s) : s.paUnmuted = true := by
  have hinv : PaInv s := h.invariant PaInv (fun _ => PaInv.of_init)
    (fun _ _ _ hinv hst => hinv.step frame chunkLen hst.1 hst.2)
  exact hinv.flag_pa (hinv.write_flag hw)

end Model

/-! ## The race -/

/-- A session at 128 samples per symbol with a one-symbol gap. -/
def raceStart : PaState ℕ where
  tx := { Transmitter.new
      { spreadingFactor := 7, bandwidthHz := 500000, sampleRateHz := 500000 } 9 with gapSyms := 1 }

/-- A stand-in modulator: one sample per chip. -/
def raceFrame (_ : LoraParams) (chips : List UInt16) : List ℕ := chips.map fun c => c.toNat + 1

/-- The watchdog mutes a PA that an external program has enabled; then a frame is queued, pulled,
unmuted and written. -/
def quietRun : List PaAction :=
  [.idleCheck, .flagCheck, .watch true 0, .again, .idleCheck, .flagCheck, .watch true 0, .recheck,
    .paMute, .enqueueAir [0x42], .txSection, .unmuteTxRf]

/-- A run in which the frame goes out with the PA on. -/
theorem burst_write_unmuted_quiet :
    ∃ s : PaState ℕ, exec (guarded (paStep raceFrame 256) MuteFresh) raceStart quietRun = some s ∧
      WritingBurst s ∧ s.paUnmuted = true := by
  have hrun : (exec (guarded (paStep raceFrame 256) MuteFresh) raceStart quietRun).any (fun s =>
      decide (WritingBurst s)) = true := by decide +kernel
  obtain ⟨s, hs, hp⟩ := (Option.any_eq_true _ _).mp hrun
  have hw : WritingBurst s := of_decide_eq_true hp
  exact ⟨s, hs, hw, burst_write_unmuted raceFrame 256
    (Reach.exec_guarded (Reach.start (s := raceStart) ⟨rfl, rfl, rfl, rfl⟩) hs) hw⟩

/-- An external program enables the PA; while the watchdog waits, a frame is queued
and pulled whole, so the transmitter is idle again at the second test; the TX thread
unmutes and starts to write, and then the watchdog mutes. -/
def raceRun : List PaAction :=
  [.idleCheck, .flagCheck, .watch true 0, .enqueueAir [0x42], .txSection, .again, .idleCheck,
    .flagCheck, .watch true 0, .recheck, .unmuteTxRf, .paMute]

/-- **The race.**  A run that writes burst samples with the PA muted. -/
theorem burst_write_muted :
    ¬ ∀ s : PaState ℕ, Reach PaInit (Steps (paStep raceFrame 256)) s → WritingBurst s →
        s.paUnmuted = true := by
  intro hall
  have hrun : (exec (paStep raceFrame 256) raceStart raceRun).any (fun s =>
      decide (WritingBurst s ∧ s.paUnmuted = false)) = true := by
    decide +kernel
  obtain ⟨s, hs, hp⟩ := (Option.any_eq_true _ _).mp hrun
  obtain ⟨hw, hoff⟩ := of_decide_eq_true hp
  have hreach : Reach PaInit (Steps (paStep raceFrame 256)) s :=
    Reach.exec (Reach.start (s := raceStart) ⟨rfl, rfl, rfl, rfl⟩) hs
  have hon := hall s hreach hw
  rw [hoff] at hon
  exact absurd hon (by decide)
