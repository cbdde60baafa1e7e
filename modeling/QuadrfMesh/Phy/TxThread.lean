/-
# The TX thread alone (`apps/quadrf_lora_phy.cpp`)

The loop of an on-air session's `tx_thread` with its stream writes and the RX gain it
ducks: idle test and `pull` under `modem_mu`, `unmuteTxRf`, the write loop, and the idle
timer before `muteTxRf`.  Frames may be queued at any time, a write may take any part of
what is left, time out or fail, and `g_running` may be cleared at any time; nothing else
writes the gain register or the PA.

Chunks with burst samples go out unmuted, the chunk before a mute is pure silence, and
each mute restores the gain read before the duck (`tx_thread_safe`).  The chunk of silence
is written whole unless the session is stopping: a failed write is followed by the mute it
was to be followed by (`mute_after_stream_error`).

A `jtag` write that fails ends the process and is left out.
-/
import QuadrfMesh.Lib.Transition
import QuadrfMesh.Phy.PaWatchdog
import QuadrfMesh.Phy.TxStream

open Transition

/-- `setRxGainNoSetup`: what register 0x6A holds then. -/
def setRxGainNoSetup (gainDb : ℤ) : ℕ := (max 0 (min gainDb 63)).toNat

/-- `readRxGainNoSetup`, of what register 0x6A holds. -/
def readRxGainNoSetup (reg : ℕ) : ℤ := ((reg &&& 0x3F : ℕ) : ℤ)

/-- A gain that was read is written back as it was. -/
theorem setRxGainNoSetup_read (reg : ℕ) :
    setRxGainNoSetup (readRxGainNoSetup reg) = reg &&& 0x3F := by
  have hle : reg &&& 0x3F ≤ 63 := Nat.and_le_right
  unfold setRxGainNoSetup readRxGainNoSetup
  omega

/-- What one call of `streams.write` returns. -/
inductive StreamWrite
  | took (n : ℕ)
  | timeout
  | error
  deriving DecidableEq, Repr

/-- A chunk whose write loop has ended: its burst samples, and how much of it was sent. -/
structure ChunkWrite where
  burst : ℕ
  sent : ℕ
  deriving DecidableEq, Repr

/-- What the thread does to the RX gain: a duck with the register as it found it and
whether it could be read, and the gain a mute restores. -/
inductive GainEvent
  | duck (reg : ℕ) (readOk : Bool)
  | restore (gainDb : ℤ)
  deriving DecidableEq, Repr

/-- The thread, what it shares, and a record of its writes. -/
structure TxThread (Sample : Type) where
  tx : Transmitter Sample
  /-- Register 0x6A. -/
  gainReg : ℕ
  running : Bool := true
  pc : TxPc := .top
  txUnmuted : Bool := false
  paOn : Bool := false
  rxGainRestore : ℤ
  idleTiming : Bool := false
  wantMuteCheck : Bool := false
  /-- Burst samples in the chunk. -/
  chunkBurst : ℕ := 0
  sent : ℕ := 0
  written : List ChunkWrite := []
  gains : List GainEvent := []
  deriving DecidableEq

/-- The steps of the thread, and what others do to it. -/
inductive TxThreadAction (Sample : Type)
  /-- Another thread queues a modulated frame. -/
  | enqueueFrame (frame : List Sample)
  /-- Another thread clears `g_running`. -/
  | stop
  /-- The loop test; under `modem_mu`: idle test, `pull`, second idle test. -/
  | txSection
  /-- `unmuteTxRf`, with a register read that works or not. -/
  | unmuteTxRf (readOk : Bool)
  /-- One `streams.write`. -/
  | write (ret : StreamWrite)
  /-- The write loop ends. -/
  | writeDone
  /-- The idle timer; `drained` when `pa_drain` has passed. -/
  | muteCheck (drained : Bool)
  deriving DecidableEq

namespace TxThread

variable {Sample : Type}

/-- `unmuteTxRf`. -/
def unmuteTxRf (rxGain : ℤ) (s : TxThread Sample) (readOk : Bool) : TxThread Sample :=
  if s.txUnmuted then s
  else
    { s with
      rxGainRestore := if readOk then readRxGainNoSetup s.gainReg else rxGain
      gainReg := setRxGainNoSetup 0
      paOn := true
      txUnmuted := true
      gains := s.gains ++ [.duck s.gainReg readOk] }

/-- `muteTxRf`. -/
def muteTxRf (s : TxThread Sample) : TxThread Sample :=
  if s.txUnmuted then
    { s with
      paOn := false
      txUnmuted := false
      gainReg := setRxGainNoSetup s.rxGainRestore
      gains := s.gains ++ [.restore s.rxGainRestore] }
  else s

/-- One step; `none` when the thread does not stand there. -/
def step [Zero Sample] (chunkLen : ℕ) (rxGain : ℤ) (s : TxThread Sample) :
    TxThreadAction Sample → Option (TxThread Sample)
  | .enqueueFrame frame => some { s with tx := s.tx.enqueueFrame frame }
  | .stop => some { s with running := false }
  | .txSection =>
      if s.pc = .top then
        if s.running then
          let wantUnmute := !s.tx.isIdle
          let r := s.tx.pull chunkLen
          some
            { s with
              tx := r.tx
              chunkBurst := r.fromBurst
              sent := 0
              wantMuteCheck := r.tx.isIdle && s.txUnmuted
              pc := if wantUnmute then .unmute else .write }
        else some { s with pc := .stopped }
      else none
  | .unmuteTxRf readOk =>
      if s.pc = .unmute then
        some { unmuteTxRf rxGain s readOk with idleTiming := false, pc := .write }
      else none
  | .write ret =>
      if s.pc = .write ∧ s.running = true ∧ s.sent < chunkLen then
        match ret with
        | .took n => if 0 < n ∧ n ≤ chunkLen - s.sent then some { s with sent := s.sent + n } else none
        | .timeout => some s
        | .error => some { s with running := false }
      else none
  | .writeDone =>
      if s.pc = .write ∧ (s.running = false ∨ chunkLen ≤ s.sent) then
        some { s with written := s.written ++ [⟨s.chunkBurst, s.sent⟩], pc := .muteCheck }
      else none
  | .muteCheck drained =>
      if s.pc = .muteCheck then
        some (if !s.wantMuteCheck then { s with pc := .top }
          else if !s.idleTiming then { s with idleTiming := true, pc := .top }
          else if drained then { muteTxRf s with pc := .top }
          else { s with pc := .top })
      else none

/-- The start of the thread, with 0x6A holding `reg`. -/
def Init (rxGain : ℤ) (reg : ℕ) (s : TxThread Sample) : Prop :=
  ∃ params amplitude warmupSyms gapSyms,
    s = { tx := { Transmitter.new params amplitude with warmupSyms, gapSyms }
          gainReg := reg, rxGainRestore := rxGain }

/-! ## What is recorded -/

/-- The RX gain: the register while muted, the gain to restore while ducked. -/
inductive GainState
  | idle (reg : ℕ)
  | ducked (restore : ℤ)

/-- Ducks and restores alternate; a duck reads the register as the last restore left it, and
the restore after it writes what was read, or the configured gain if the read failed. -/
inductive GainLog (rxGain : ℤ) (reg₀ : ℕ) : List GainEvent → GainState → Prop
  | start : GainLog rxGain reg₀ [] (.idle reg₀)
  | duck {es : List GainEvent} {reg : ℕ} (h : GainLog rxGain reg₀ es (.idle reg)) (readOk : Bool) :
      GainLog rxGain reg₀ (es ++ [.duck reg readOk])
        (.ducked (if readOk then readRxGainNoSetup reg else rxGain))
  | restore {es : List GainEvent} {gainDb : ℤ} (h : GainLog rxGain reg₀ es (.ducked gainDb)) :
      GainLog rxGain reg₀ (es ++ [.restore gainDb]) (.idle (setRxGainNoSetup gainDb))

/-- Where the RX gain stands. -/
def gainState (s : TxThread Sample) : GainState :=
  if s.txUnmuted then .ducked s.rxGainRestore else .idle s.gainReg

/-- The gains a muted session may have: the one it started with, or the configured one. -/
def OwnGain (rxGain : ℤ) (reg₀ reg : ℕ) : Prop :=
  reg &&& 0x3F = reg₀ &&& 0x3F ∨ reg = setRxGainNoSetup rxGain

/-- **Never the ducked value**: a duck restores only gains that were there before it. -/
theorem GainLog.ownGain {rxGain : ℤ} {reg₀ : ℕ} {es : List GainEvent} {st : GainState}
    (h : GainLog rxGain reg₀ es st) :
    (∀ reg, st = .idle reg → OwnGain rxGain reg₀ reg) ∧
      ∀ gainDb, st = .ducked gainDb → OwnGain rxGain reg₀ (setRxGainNoSetup gainDb) := by
  induction h with
  | start =>
      refine ⟨?_, fun gainDb h => GainState.noConfusion h⟩
      rintro reg ⟨⟩
      exact Or.inl rfl
  | @duck es reg h readOk ih =>
      refine ⟨fun reg h => GainState.noConfusion h, ?_⟩
      rintro gainDb ⟨⟩
      cases readOk with
      | false => exact Or.inr rfl
      | true =>
          rcases ih.1 reg rfl with hreg | hreg
          · left
            rw [if_pos rfl, setRxGainNoSetup_read, Nat.and_assoc, Nat.and_self, hreg]
          · right
            -- a restored gain has no bit above the field
            have hle : setRxGainNoSetup rxGain < 2 ^ 6 := by
              unfold setRxGainNoSetup
              omega
            rw [if_pos rfl, setRxGainNoSetup_read, hreg]
            exact (Nat.and_two_pow_sub_one_eq_mod _ 6).trans (Nat.mod_eq_of_lt hle)
  | @restore es gainDb h ih =>
      refine ⟨?_, fun gainDb h => GainState.noConfusion h⟩
      rintro reg ⟨⟩
      exact ih.2 gainDb rfl

/-- A chunk of pure silence was written whole after the last chunk with burst samples. -/
def SilenceWritten (chunkLen : ℕ) (written : List ChunkWrite) : Prop :=
  ∃ before w after, written = before ++ w :: after ∧ w.burst = 0 ∧ w.sent = chunkLen ∧
    ∀ c ∈ after, c.burst = 0

/-! ## The invariant -/

/-- What every run keeps. -/
structure Inv (chunkLen : ℕ) (rxGain : ℤ) (reg₀ : ℕ) (s : TxThread Sample) : Prop where
  flag_pa : s.paOn = s.txUnmuted
  burst_unmuted : s.pc = .write ∨ s.pc = .muteCheck → 0 < s.chunkBurst →
    s.txUnmuted = true ∧ s.idleTiming = false
  last_written : s.pc = .muteCheck → (∃ before, s.written = before ++ [⟨s.chunkBurst, s.sent⟩]) ∧
    (s.running = false ∨ chunkLen ≤ s.sent)
  sent_le : s.sent ≤ chunkLen
  gains : GainLog rxGain reg₀ s.gains s.gainState

theorem Inv.of_init {chunkLen : ℕ} {rxGain : ℤ} {reg₀ : ℕ} {s : TxThread Sample}
    (h : Init rxGain reg₀ s) : Inv chunkLen rxGain reg₀ s := by
  obtain ⟨params, amplitude, warmupSyms, gapSyms, rfl⟩ := h
  refine ⟨rfl, ?_, ?_, Nat.zero_le _, GainLog.start⟩
  · intro h
    rcases h with h | h <;> exact TxPc.noConfusion h
  · intro h
    exact TxPc.noConfusion h

/-- `unmuteTxRf` ducks a gain that was not ducked. -/
theorem unmuteTxRf_spec {rxGain : ℤ} {reg₀ : ℕ} {s : TxThread Sample} (readOk : Bool)
    (hpa : s.paOn = s.txUnmuted) (h : GainLog rxGain reg₀ s.gains s.gainState) :
    (unmuteTxRf rxGain s readOk).txUnmuted = true ∧
      (unmuteTxRf rxGain s readOk).paOn = true ∧
      (unmuteTxRf rxGain s readOk).sent = s.sent ∧
      GainLog rxGain reg₀ (unmuteTxRf rxGain s readOk).gains
        (unmuteTxRf rxGain s readOk).gainState := by
  unfold unmuteTxRf
  cases hflag : s.txUnmuted with
  | true =>
      rw [if_pos rfl]
      exact ⟨hflag, hpa.trans hflag, rfl, h⟩
  | false =>
      rw [if_neg Bool.false_ne_true]
      rw [gainState, hflag] at h
      exact ⟨rfl, rfl, rfl, GainLog.duck h readOk⟩

/-- `muteTxRf` restores what the last duck read. -/
theorem muteTxRf_spec {rxGain : ℤ} {reg₀ : ℕ} {s : TxThread Sample}
    (hpa : s.paOn = s.txUnmuted) (h : GainLog rxGain reg₀ s.gains s.gainState) :
    s.muteTxRf.paOn = s.muteTxRf.txUnmuted ∧ s.muteTxRf.sent = s.sent ∧
      GainLog rxGain reg₀ s.muteTxRf.gains s.muteTxRf.gainState := by
  unfold muteTxRf
  cases hflag : s.txUnmuted with
  | true =>
      rw [if_pos rfl]
      rw [gainState, hflag] at h
      exact ⟨rfl, rfl, GainLog.restore h⟩
  | false =>
      rw [if_neg Bool.false_ne_true]
      exact ⟨hpa, rfl, h⟩

variable {chunkLen : ℕ} {rxGain : ℤ} {reg₀ : ℕ}

/-- Away from the write loop and the idle timer only the flags and the gain matter. -/
theorem Inv.of_pc {s : TxThread Sample} (hwrite : s.pc ≠ .write) (hcheck : s.pc ≠ .muteCheck)
    (hpa : s.paOn = s.txUnmuted) (hsent : s.sent ≤ chunkLen)
    (hgains : GainLog rxGain reg₀ s.gains s.gainState) : Inv chunkLen rxGain reg₀ s := by
  refine ⟨hpa, ?_, fun h => absurd h hcheck, hsent, hgains⟩
  rintro (h | h)
  · exact absurd h hwrite
  · exact absurd h hcheck

variable [Zero Sample]

/-- **The step lemma.** -/
theorem Inv.step {s t : TxThread Sample} {a : TxThreadAction Sample}
    (hinv : Inv chunkLen rxGain reg₀ s) (hstep : step chunkLen rxGain s a = some t) :
    Inv chunkLen rxGain reg₀ t := by
  cases a with
  | enqueueFrame frame =>
      obtain rfl := Option.some.inj hstep
      exact ⟨hinv.flag_pa, hinv.burst_unmuted, hinv.last_written, hinv.sent_le, hinv.gains⟩
  | stop =>
      obtain rfl := Option.some.inj hstep
      exact ⟨hinv.flag_pa, hinv.burst_unmuted,
        fun h => ⟨(hinv.last_written h).1, Or.inl rfl⟩, hinv.sent_le, hinv.gains⟩
  | txSection =>
      obtain ⟨hpc, hstep⟩ := Option.ite_none_right_eq_some.mp hstep
      cases hrun : s.running with
      | false =>
          rw [hrun, if_neg Bool.false_ne_true] at hstep
          obtain rfl := Option.some.inj hstep
          exact Inv.of_pc (by simp) (by simp) hinv.flag_pa hinv.sent_le hinv.gains
      | true =>
          rw [hrun, if_pos rfl] at hstep
          simp only at hstep
          cases hidle : s.tx.isIdle with
          | false =>
              rw [hidle] at hstep
              obtain rfl := Option.some.inj hstep
              exact Inv.of_pc (by simp) (by simp) hinv.flag_pa (Nat.zero_le _) hinv.gains
          | true =>
              -- an idle transmitter gives no burst samples
              rw [hidle] at hstep
              obtain rfl := Option.some.inj hstep
              refine ⟨hinv.flag_pa, ?_, fun h => TxPc.noConfusion h, Nat.zero_le _, hinv.gains⟩
              intro _ hburst
              have hbusy := Transmitter.not_isIdle_of_fromBurst s.tx chunkLen hburst
              rw [hidle] at hbusy
              exact absurd hbusy (by decide)
  | unmuteTxRf readOk =>
      obtain ⟨hpc, hstep⟩ := Option.ite_none_right_eq_some.mp hstep
      obtain rfl := Option.some.inj hstep
      obtain ⟨hflag, hpa, hsent, hgains⟩ := unmuteTxRf_spec readOk hinv.flag_pa hinv.gains
      exact ⟨hpa.trans hflag.symm, fun _ _ => ⟨hflag, rfl⟩, fun h => TxPc.noConfusion h,
        hsent.trans_le hinv.sent_le, hgains⟩
  | write ret =>
      obtain ⟨⟨hpc, hrun, hlt⟩, hstep⟩ := Option.ite_none_right_eq_some.mp hstep
      have hnot : s.pc ≠ .muteCheck := by
        rw [hpc]
        decide
      cases ret with
      | took n =>
          obtain ⟨hn, hstep⟩ := Option.ite_none_right_eq_some.mp hstep
          obtain rfl := Option.some.inj hstep
          refine ⟨hinv.flag_pa, hinv.burst_unmuted, fun h => absurd h hnot, ?_, hinv.gains⟩
          show s.sent + n ≤ chunkLen
          omega
      | timeout =>
          obtain rfl := Option.some.inj hstep
          exact hinv
      | error =>
          obtain rfl := Option.some.inj hstep
          exact ⟨hinv.flag_pa, hinv.burst_unmuted, fun h => absurd h hnot, hinv.sent_le, hinv.gains⟩
  | writeDone =>
      obtain ⟨hpc, hstep⟩ := Option.ite_none_right_eq_some.mp hstep
      obtain rfl := Option.some.inj hstep
      exact ⟨hinv.flag_pa, fun _ => hinv.burst_unmuted (Or.inl hpc.1),
        fun _ => ⟨⟨_, rfl⟩, hpc.2⟩, hinv.sent_le, hinv.gains⟩
  | muteCheck drained =>
      obtain ⟨hpc, hstep⟩ := Option.ite_none_right_eq_some.mp hstep
      rw [← Option.some.inj hstep]
      obtain ⟨hpa, hsent, hgains⟩ := muteTxRf_spec hinv.flag_pa hinv.gains
      split_ifs
      · exact Inv.of_pc (by simp) (by simp) hinv.flag_pa hinv.sent_le hinv.gains
      · exact Inv.of_pc (by simp) (by simp) hinv.flag_pa hinv.sent_le hinv.gains
      · exact Inv.of_pc (by simp) (by simp) hpa (hsent.trans_le hinv.sent_le) hgains
      · exact Inv.of_pc (by simp) (by simp) hinv.flag_pa hinv.sent_le hinv.gains

/-- A mute is a step of the idle timer, which was running. -/
theorem muteCheck_of_mute {s t : TxThread Sample} {a : TxThreadAction Sample}
    (hstep : step chunkLen rxGain s a = some t) (hs : s.txUnmuted = true)
    (ht : t.txUnmuted = false) : s.pc = .muteCheck ∧ s.idleTiming = true := by
  have hkeep : t.txUnmuted = s.txUnmuted → s.pc = .muteCheck ∧ s.idleTiming = true := by
    intro h
    rw [h, hs] at ht
    exact absurd ht (by decide)
  cases a with
  | enqueueFrame frame =>
      obtain rfl := Option.some.inj hstep
      exact hkeep rfl
  | stop =>
      obtain rfl := Option.some.inj hstep
      exact hkeep rfl
  | txSection =>
      obtain ⟨-, hstep⟩ := Option.ite_none_right_eq_some.mp hstep
      split_ifs at hstep
      all_goals
        obtain rfl := Option.some.inj hstep
        exact hkeep rfl
  | unmuteTxRf readOk =>
      obtain ⟨-, hstep⟩ := Option.ite_none_right_eq_some.mp hstep
      obtain rfl := Option.some.inj hstep
      apply hkeep
      simp only [unmuteTxRf, if_pos hs]
  | write ret =>
      obtain ⟨-, hstep⟩ := Option.ite_none_right_eq_some.mp hstep
      cases ret with
      | took n =>
          obtain ⟨-, hstep⟩ := Option.ite_none_right_eq_some.mp hstep
          obtain rfl := Option.some.inj hstep
          exact hkeep rfl
      | timeout =>
          obtain rfl := Option.some.inj hstep
          exact hkeep rfl
      | error =>
          obtain rfl := Option.some.inj hstep
          exact hkeep rfl
  | writeDone =>
      obtain ⟨-, hstep⟩ := Option.ite_none_right_eq_some.mp hstep
      obtain rfl := Option.some.inj hstep
      exact hkeep rfl
  | muteCheck drained =>
      obtain ⟨hpc, hstep⟩ := Option.ite_none_right_eq_some.mp hstep
      refine ⟨hpc, ?_⟩
      have heq := Option.some.inj hstep
      cases htiming : s.idleTiming with
      | true => rfl
      | false =>
          rw [htiming] at heq
          -- the timer only starts in this step
          have hflag : t.txUnmuted = s.txUnmuted := by
            rw [← heq]
            split_ifs <;> first | rfl | contradiction
          exact absurd (hkeep hflag).2 (by rw [htiming]; decide)

/-- **The TX thread alone.**  In every run: a chunk with burst samples is written only while
the PA is unmuted; before a mute the chunk written last is pure silence and was written
whole, unless `g_running` was cleared meanwhile; ducks and restores alternate, each restore
writing the gain its duck read (the configured one if the read failed), so that a muted
session has the gain it started with or the configured one. -/
theorem tx_thread_safe {s : TxThread Sample}
    (hs : Reach (Init rxGain reg₀) (Steps (TxThread.step chunkLen rxGain)) s) :
    (s.pc = .write → 0 < s.chunkBurst → s.txUnmuted = true ∧ s.paOn = true) ∧
    (∀ a t, step chunkLen rxGain s a = some t → s.txUnmuted = true → t.txUnmuted = false →
      SilenceWritten chunkLen s.written ∨
        ∃ before w, s.written = before ++ [w] ∧ w.burst = 0 ∧ w.sent < chunkLen ∧
          s.running = false) ∧
    GainLog rxGain reg₀ s.gains s.gainState ∧
    (s.txUnmuted = false → OwnGain rxGain reg₀ s.gainReg) := by
  have hinv : Inv chunkLen rxGain reg₀ s := hs.invariant (Inv chunkLen rxGain reg₀)
    (fun _ => Inv.of_init) (fun _ _ _ hinv hst => hinv.step hst)
  refine ⟨?_, ?_, hinv.gains, ?_⟩
  · intro hpc hburst
    have hflag := (hinv.burst_unmuted (Or.inl hpc) hburst).1
    exact ⟨hflag, hinv.flag_pa.trans hflag⟩
  · intro a t hstep hflag hmuted
    obtain ⟨hpc, htiming⟩ := muteCheck_of_mute hstep hflag hmuted
    obtain ⟨⟨before, hlast⟩, hend⟩ := hinv.last_written hpc
    have hburst : s.chunkBurst = 0 := by
      by_contra hne
      have hoff := (hinv.burst_unmuted (Or.inr hpc) (by omega)).2
      rw [htiming] at hoff
      exact absurd hoff (by decide)
    rcases Nat.lt_or_ge s.sent chunkLen with hlt | hge
    · right
      refine ⟨before, _, hlast, hburst, hlt, ?_⟩
      rcases hend with h | h
      · exact h
      · omega
    · left
      refine ⟨before, _, [], hlast, hburst, le_antisymm hinv.sent_le hge, ?_⟩
      intro c hc
      exact absurd hc List.not_mem_nil
  · intro hflag
    have hgains := hinv.gains
    rw [gainState, hflag, if_neg Bool.false_ne_true] at hgains
    exact hgains.ownGain.1 _ rfl

/-! ## A stream error -/

/-- A session without warmup and gap, with 45 dB in 0x6A. -/
def start : TxThread ℕ where
  tx := { Transmitter.new { : LoraParams} 9 with warmupSyms := 0, gapSyms := 0 }
  gainReg := 45
  rxGainRestore := 45

/-- A frame of three samples goes out in chunks of two, and the transmitter is idle again
before the second is written. -/
def burstRun : List (TxThreadAction ℕ) :=
  [.enqueueFrame [1, 2, 3], .txSection, .unmuteTxRf true, .write (.took 2), .writeDone,
    .muteCheck false, .txSection, .unmuteTxRf true, .write .timeout, .write (.took 2), .writeDone,
    .muteCheck false, .txSection]

/-- A chunk of silence is written and the PA muted. -/
theorem tx_thread_safe_burst :
    ∃ s : TxThread ℕ, s.gains = [.duck 45 true, .restore 45] ∧ OwnGain 45 45 s.gainReg := by
  have hrun : (exec (TxThread.step 2 45) start (burstRun ++ [.write (.took 1), .write (.took 1),
      .writeDone, .muteCheck true])).any (fun s =>
        decide (s.gains = [.duck 45 true, .restore 45] ∧ s.txUnmuted = false)) = true := by
    decide +kernel
  obtain ⟨s, hs, hp⟩ := (Option.any_eq_true _ _).mp hrun
  obtain ⟨hgains, hflag⟩ := of_decide_eq_true hp
  have hinit : Init 45 45 start := ⟨_, _, _, _, rfl⟩
  exact ⟨s, hgains, (tx_thread_safe (Reach.exec (Reach.start hinit) hs)).2.2.2 hflag⟩

/-- **A mute without silence.**  The write of the chunk of silence fails at once, and the PA
is muted although the last chunk written whole held burst samples. -/
theorem mute_after_stream_error :
    ¬ ∀ s : TxThread ℕ, Reach (Init 45 45) (Steps (TxThread.step 2 45)) s → ∀ a t,
        TxThread.step 2 45 s a = some t → s.txUnmuted = true → t.txUnmuted = false →
          SilenceWritten 2 s.written := by
  intro hall
  have hrun : (exec (TxThread.step 2 45) start (burstRun ++ [.write .error, .writeDone])).any
      (fun s => decide (s.written = [⟨2, 2⟩, ⟨1, 2⟩, ⟨0, 0⟩] ∧ s.txUnmuted = true) &&
        (TxThread.step 2 45 s (.muteCheck true)).any fun t => !t.txUnmuted) = true := by
    decide +kernel
  obtain ⟨s, hs, hp⟩ := (Option.any_eq_true _ _).mp hrun
  obtain ⟨hp, hmute⟩ := Bool.and_eq_true_iff.mp hp
  obtain ⟨hwritten, hflag⟩ := of_decide_eq_true hp
  obtain ⟨t, hstep, hmuted⟩ := (Option.any_eq_true _ _).mp hmute
  rw [Bool.not_eq_true'] at hmuted
  obtain ⟨before, w, after, heq, hburst, hsent, -⟩ := hall s
    (Reach.exec (Reach.start ⟨_, _, _, _, rfl⟩) hs) _ t hstep hflag hmuted
  have hmem : w ∈ s.written := by
    rw [heq]
    exact List.mem_append_right _ (List.mem_cons_self ..)
  rw [hwritten] at hmem
  have hno : ∀ w ∈ ([⟨2, 2⟩, ⟨1, 2⟩, ⟨0, 0⟩] : List ChunkWrite),
      ¬ (w.burst = 0 ∧ w.sent = 2) := by decide
  exact hno w hmem ⟨hburst, hsent⟩

end TxThread
