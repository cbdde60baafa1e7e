/-
# LO following (`pollLoFollow` in `apps/quadrf_lora_phy.cpp`)

The PHY polls both synthesizers while idle and re-places them when an external
write moved one.  A poll whose write failed still records the settings it wanted as
the ones to expect, so the next poll takes a chip that was not written for one the
user moved.  In a run whose retunes write the chip that did not move (`OtherWritten`)
the channel goes from the old one to the LO the user set, and stays there
(`channel_follows`).
-/
import QuadrfMesh.Lib.Transition
import QuadrfMesh.Radio.Synth

open Transition

/-- The registers of one chip that the follower reads and writes. -/
structure SynthChip where
  main0 : ℕ := 0
  main6 : ℕ := 0
  main15 : ℕ
  main16 : ℕ
  main17 : ℕ
  deriving DecidableEq, Repr

namespace SynthChip

/-- The LO the chip runs at. -/
def lo (c : SynthChip) : ℚ := synthLoMhz c.main15 c.main16 c.main17

/-- `readLo`: `none` when the transaction fails or the readback is implausible. -/
def readLo (c : SynthChip) (io : Bool) : Option ℚ :=
  if !io then none
  else if c.main15 &&& 0x200 = 0 ∨ (c.main15 = 0x3FF ∧ c.main16 = 0x3FF ∧ c.main17 = 0x3FF) then
    none
  else some c.lo

/-- `programLo`: a failed transaction leaves the chip as it was. -/
def programLo (c : SynthChip) (io : Bool) (loMhz : ℚ) (main0 main6 : Option ℕ) : SynthChip :=
  if !io then c
  else
    { main0 := main0.getD c.main0
      main6 := main6.getD c.main6
      main15 := (synthWords loMhz).w15 &&& 0x3FF
      main16 := (synthWords loMhz).w16 &&& 0x3FF
      main17 := (synthWords loMhz).w17 &&& 0x3FF }

/-- A successful write runs the chip at the LO asked for, up to the FDIV step. -/
theorem lo_programLo (c : SynthChip) (loMhz : ℚ) (main0 main6 : Option ℕ) :
    (c.programLo true loMhz main0 main6).lo = quantLo loMhz :=
  synthLoMhz_data _ _ _

/-- What a read returns is the LO. -/
theorem readLo_eq_some {c : SynthChip} {io : Bool} {lo : ℚ} (h : c.readLo io = some lo) :
    lo = c.lo := by
  unfold readLo at h
  split at h
  · exact absurd h (by simp)
  · split at h
    · exact absurd h (by simp)
    · exact (Option.some.inj h).symm

end SynthChip

/-- What `configureRx` left in RX Main0 and Main6, restored when an RX retune changed
them. -/
structure RxDefaults where
  main0 : ℕ
  main6 : ℕ

/-- The follower, whether it has been primed, the center it reports, and the chips. -/
structure LoState where
  follower : LoFollower
  loPrimed : Bool := false
  centerMhz : ℚ
  tx : SynthChip
  rx : SynthChip
  deriving DecidableEq, Repr

/-- Which register transactions of a poll succeed, in the order `pollLoFollow` makes
them, and whether the PA is on. -/
structure PollIo where
  txUnmuted : Bool := false
  readTx : Bool := true
  readRx : Bool := true
  programRx : Bool := true
  programTx : Bool := true
  readbackTx : Bool := true
  readbackRx : Bool := true
  deriving DecidableEq, Repr

/-- What a poll observes: nothing when it is skipped, a read fails or it only primes. -/
def pollObserve (s : LoState) (io : PollIo) : Option LoFollower.Retune :=
  if io.txUnmuted then none
  else
    match s.tx.readLo io.readTx, s.rx.readLo io.readRx with
    | some txLo, some rxLo => if s.loPrimed then (s.follower.observe txLo rxLo).1 else none
    | _, _ => none

/-- The rest of a poll that retunes: `s` holds the follower as `observe` left it. -/
def retune (defaults : RxDefaults) (s : LoState) (io : PollIo) (rt : LoFollower.Retune) : LoState :=
  let channel := rt.channelMhz
  let rxTarget := s.follower.rxLoMhz
  let fix0 := if rt.rxMoved && decide (s.rx.main0 ≠ defaults.main0) then some defaults.main0 else none
  let fix6 := if rt.rxMoved && decide (s.rx.main6 ≠ defaults.main6) then some defaults.main6 else none
  let rx := s.rx.programLo io.programRx rxTarget fix0 fix6
  let tx := s.tx.programLo io.programTx channel none none
  let computed := (quantLo channel, quantLo rxTarget)
  let expect :=
    if io.programRx && io.programTx then
      match tx.readLo io.readbackTx, rx.readLo io.readbackRx with
      | some txRb, some rxRb => (txRb, rxRb)
      | _, _ => computed
    -- a failed write leaves the computed settings expected
    else computed
  { s with follower := s.follower.programmed expect.1 expect.2, centerMhz := channel, tx, rx }

/-- `pollLoFollow`. -/
def pollLoFollow (defaults : RxDefaults) (s : LoState) (io : PollIo) : LoState :=
  if io.txUnmuted then s
  else
    match s.tx.readLo io.readTx, s.rx.readLo io.readRx with
    | some txLo, some rxLo =>
        -- the first readings only prime the follower
        if !s.loPrimed then { s with follower := s.follower.programmed txLo rxLo, loPrimed := true }
        else
          match s.follower.observe txLo rxLo with
          | (none, _) => s
          | (some rt, follower) => retune defaults { s with follower } io rt
    | _, _ => s

/-! ## What a poll does -/

namespace LoFollower

/-- What `observe` reports. -/
theorem observe_eq_some {f g : LoFollower} {txLo rxLo : ℚ} {rt : Retune}
    (h : f.observe txLo rxLo = (some rt, g)) :
    rt.txMoved = decide (f.tolMhz < |txLo - f.txExpectMhz|) ∧
      rt.rxMoved = decide (f.tolMhz < |rxLo - f.rxExpectMhz|) ∧
      (rt.txMoved = true ∨ rt.rxMoved = true) ∧
      rt.channelMhz = (if rt.txMoved then txLo else rxLo) ∧
      g = { f with channelMhz := rt.channelMhz } := by
  unfold observe at h
  simp only at h
  split at h
  · exact absurd h (by simp)
  · rename_i hmoved
    obtain ⟨hrt, rfl⟩ := Prod.mk.inj h
    obtain rfl := Option.some.inj hrt
    refine ⟨rfl, rfl, ?_, rfl, rfl⟩
    rw [Bool.and_eq_true, Bool.not_eq_true', Bool.not_eq_true'] at hmoved
    by_contra hnone
    rw [not_or, Bool.not_eq_true, Bool.not_eq_true] at hnone
    exact hmoved hnone

end LoFollower

/-- A poll that observes nothing changes nothing. -/
theorem pollLoFollow_of_none (defaults : RxDefaults) {s : LoState} {io : PollIo}
    (hprimed : s.loPrimed = true) (h : pollObserve s io = none) :
    pollLoFollow defaults s io = s := by
  unfold pollObserve at h
  unfold pollLoFollow
  split
  · rfl
  · rename_i hmute
    rw [if_neg hmute] at h
    split
    · rename_i txLo rxLo htx hrx
      rw [htx, hrx] at h
      simp only [hprimed, if_true] at h
      simp only [hprimed, Bool.not_true, Bool.false_eq_true, if_false]
      split
      · rfl
      · rename_i rt follower hobs
        rw [hobs] at h
        exact absurd h (by simp)
    · rfl

/-- A poll that observes a move: which LO it found moved, and the retune it makes. -/
theorem pollLoFollow_of_some (defaults : RxDefaults) {s : LoState} {io : PollIo}
    {rt : LoFollower.Retune} (h : pollObserve s io = some rt) :
    rt.txMoved = decide (s.follower.tolMhz < |s.tx.lo - s.follower.txExpectMhz|) ∧
      rt.rxMoved = decide (s.follower.tolMhz < |s.rx.lo - s.follower.rxExpectMhz|) ∧
      (rt.txMoved = true ∨ rt.rxMoved = true) ∧
      rt.channelMhz = (if rt.txMoved then s.tx.lo else s.rx.lo) ∧
      pollLoFollow defaults s io
        = retune defaults { s with follower := { s.follower with channelMhz := rt.channelMhz } }
            io rt := by
  unfold pollObserve at h
  split at h
  · exact absurd h (by simp)
  · rename_i hmute
    split at h
    · rename_i txLo rxLo htx hrx
      split at h
      · rename_i hprimed
        obtain ⟨follower, hobs⟩ : ∃ g, s.follower.observe txLo rxLo = (some rt, g) :=
          ⟨(s.follower.observe txLo rxLo).2, by rw [← h]⟩
        obtain ⟨h1, h2, h3, h4, rfl⟩ := LoFollower.observe_eq_some hobs
        have htx' := SynthChip.readLo_eq_some htx
        have hrx' := SynthChip.readLo_eq_some hrx
        subst htx' hrx'
        refine ⟨h1, h2, h3, h4, ?_⟩
        unfold pollLoFollow
        rw [if_neg hmute, htx, hrx]
        simp only [hprimed, Bool.not_true, Bool.false_eq_true, if_false]
        rw [hobs]
      · exact absurd h (by simp)
    · exact absurd h (by simp)

section Retune

variable (defaults : RxDefaults) (s : LoState) (io : PollIo) (rt : LoFollower.Retune)

/-- After a retune the follower expects both chips at their new settings, whether or not
they were written. -/
theorem retune_expect :
    (retune defaults s io rt).follower.txExpectMhz = quantLo rt.channelMhz ∧
      (retune defaults s io rt).follower.rxExpectMhz = quantLo s.follower.rxLoMhz := by
  unfold retune LoFollower.programmed
  simp only
  by_cases hok : (io.programRx && io.programTx) = true
  · rw [if_pos hok]
    rw [Bool.and_eq_true] at hok
    split
    · rename_i txRb rxRb htx hrx
      rw [hok.2] at htx
      rw [hok.1] at hrx
      constructor
      · rw [SynthChip.readLo_eq_some htx, SynthChip.lo_programLo]
      · rw [SynthChip.readLo_eq_some hrx, SynthChip.lo_programLo]
    · exact ⟨rfl, rfl⟩
  · rw [if_neg hok]
    exact ⟨rfl, rfl⟩

/-- The chips after a retune. -/
theorem retune_lo :
    (retune defaults s io rt).tx.lo = (if io.programTx then quantLo rt.channelMhz else s.tx.lo) ∧
      (retune defaults s io rt).rx.lo
        = (if io.programRx then quantLo s.follower.rxLoMhz else s.rx.lo) := by
  constructor
  · show (s.tx.programLo io.programTx rt.channelMhz none none).lo = _
    cases io.programTx with
    | false => rfl
    | true => exact SynthChip.lo_programLo _ _ _ _
  · show (s.rx.programLo io.programRx s.follower.rxLoMhz _ _).lo = _
    cases io.programRx with
    | false => rfl
    | true => exact SynthChip.lo_programLo _ _ _ _

theorem retune_rest :
    (retune defaults s io rt).loPrimed = s.loPrimed ∧
      (retune defaults s io rt).follower.channelMhz = s.follower.channelMhz ∧
      (retune defaults s io rt).follower.ifMhz = s.follower.ifMhz ∧
      (retune defaults s io rt).follower.tolMhz = s.follower.tolMhz :=
  ⟨rfl, rfl, rfl, rfl⟩

end Retune

/-! ## Runs with one external write -/

/-- The LO state, with what the run has seen: the LO the external write set, and
whether a poll has observed it. -/
structure LoRun where
  lo : LoState
  written : Option ℚ := none
  observed : Bool := false
  deriving DecidableEq, Repr

/-- A poll, or another program writing one chip's LO registers. -/
inductive LoAction
  | poll (io : PollIo)
  | writeTx (chip : SynthChip)
  | writeRx (chip : SynthChip)
  deriving DecidableEq, Repr

/-- One step of a run; only one external write is made. -/
def loStep (defaults : RxDefaults) (s : LoRun) : LoAction → Option LoRun
  | .poll io =>
      some { s with
        lo := pollLoFollow defaults s.lo io
        observed := s.observed || (pollObserve s.lo io).isSome }
  | .writeTx chip =>
      if s.written = none then some { s with lo := { s.lo with tx := chip }, written := some chip.lo }
      else none
  | .writeRx chip =>
      if s.written = none then some { s with lo := { s.lo with rx := chip }, written := some chip.lo }
      else none

/-- A settled start on `channel`: primed, and both chips where they are expected. -/
def Settled (channel : ℚ) (s : LoRun) : Prop :=
  s.lo.loPrimed = true ∧ s.lo.follower.channelMhz = channel ∧
    s.lo.follower.txExpectMhz = s.lo.tx.lo ∧ s.lo.follower.rxExpectMhz = s.lo.rx.lo ∧
    0 ≤ s.lo.follower.tolMhz ∧ s.written = none ∧ s.observed = false

/-- A poll that retunes after one chip moved writes the other one, unless that one is
within the tolerance of its new setting already. -/
def OtherWritten (s : LoRun) : LoAction → Prop
  | .poll io =>
      ∀ rt ∈ pollObserve s.lo io,
        (rt.rxMoved = false → io.programRx = true ∨
          |s.lo.rx.lo - quantLo (rt.channelMhz - s.lo.follower.ifMhz)| ≤ s.lo.follower.tolMhz) ∧
        (rt.txMoved = false → io.programTx = true ∨
          |s.lo.tx.lo - quantLo rt.channelMhz| ≤ s.lo.follower.tolMhz)
  | _ => True

/-- What a run from a settled start on `channel` keeps, by how far the external write
has been followed. -/
inductive LoPhase (channel : ℚ) (s : LoRun) : Prop
  | before (hw : s.written = none) (hobs : s.observed = false)
      (hch : s.lo.follower.channelMhz = channel) (htx : s.lo.follower.txExpectMhz = s.lo.tx.lo)
      (hrx : s.lo.follower.rxExpectMhz = s.lo.rx.lo)
  | pendingTx (hw : s.written = some s.lo.tx.lo) (hobs : s.observed = false)
      (hch : s.lo.follower.channelMhz = channel) (hrx : s.lo.follower.rxExpectMhz = s.lo.rx.lo)
  | pendingRx (hw : s.written = some s.lo.rx.lo) (hobs : s.observed = false)
      (hch : s.lo.follower.channelMhz = channel) (htx : s.lo.follower.txExpectMhz = s.lo.tx.lo)
  | following (f : ℚ) (hw : s.written = some f) (hobs : s.observed = true)
      (hch : s.lo.follower.channelMhz = f) (hq : quantLo f = f)
      (hexp : s.lo.follower.txExpectMhz = f) (htx : |s.lo.tx.lo - f| ≤ s.lo.follower.tolMhz)
      (hrx : |s.lo.rx.lo - s.lo.follower.rxExpectMhz| ≤ s.lo.follower.tolMhz ∨ s.lo.rx.lo = f)

/-- The invariant of such a run. -/
structure LoInv (channel : ℚ) (s : LoRun) : Prop where
  primed : s.lo.loPrimed = true
  tol : 0 ≤ s.lo.follower.tolMhz
  phase : LoPhase channel s

theorem LoInv.of_settled {channel : ℚ} {s : LoRun} (h : Settled channel s) : LoInv channel s := by
  obtain ⟨hp, hch, htx, hrx, htol, hw, hobs⟩ := h
  exact ⟨hp, htol, LoPhase.before hw hobs hch htx hrx⟩

/-- A retune to an LO `f` one of the chips runs at, the other one written. -/
theorem LoInv.of_retune (defaults : RxDefaults) {channel f : ℚ} {s : LoRun} (hinv : LoInv channel s)
    {io : PollIo} {rt : LoFollower.Retune} (hrt : pollObserve s.lo io = some rt)
    (hw : s.written = some f) (hch : rt.channelMhz = f) (hq : quantLo f = f)
    (htx : s.lo.tx.lo = f ∨ io.programTx = true ∨ |s.lo.tx.lo - f| ≤ s.lo.follower.tolMhz)
    (hrx : s.lo.rx.lo = f ∨ io.programRx = true ∨
      |s.lo.rx.lo - quantLo (f - s.lo.follower.ifMhz)| ≤ s.lo.follower.tolMhz) :
    LoInv channel { s with
      lo := pollLoFollow defaults s.lo io
      observed := s.observed || (pollObserve s.lo io).isSome } := by
  obtain ⟨-, -, -, -, hpoll⟩ := pollLoFollow_of_some defaults hrt
  subst hch
  set s' : LoState := { s.lo with follower := { s.lo.follower with channelMhz := rt.channelMhz } }
    with hs'
  obtain ⟨hexpTx, hexpRx⟩ := retune_expect defaults s' io rt
  obtain ⟨hloTx, hloRx⟩ := retune_lo defaults s' io rt
  obtain ⟨hprimed, hchan, -, htol⟩ := retune_rest defaults s' io rt
  have hzero : |(0 : ℚ)| ≤ s.lo.follower.tolMhz := by rw [abs_zero]; exact hinv.tol
  rw [hpoll, hrt]
  refine ⟨hprimed.trans hinv.primed, ?_, LoPhase.following rt.channelMhz hw (by simp) hchan hq
    (hexpTx.trans hq) ?_ ?_⟩
  · rw [htol]
    exact hinv.tol
  · show |(retune defaults s' io rt).tx.lo - rt.channelMhz|
      ≤ (retune defaults s' io rt).follower.tolMhz
    rw [hloTx, htol]
    by_cases hprog : io.programTx = true
    · rw [if_pos hprog, hq, sub_self]
      exact hzero
    · rw [if_neg hprog]
      rcases htx with h | h | h
      · rw [show s'.tx.lo = rt.channelMhz from h, sub_self]
        exact hzero
      · exact absurd h hprog
      · exact h
  · show |(retune defaults s' io rt).rx.lo - (retune defaults s' io rt).follower.rxExpectMhz|
        ≤ (retune defaults s' io rt).follower.tolMhz ∨
      (retune defaults s' io rt).rx.lo = rt.channelMhz
    rw [hloRx, hexpRx, htol]
    by_cases hprog : io.programRx = true
    · left
      rw [if_pos hprog, sub_self]
      exact hzero
    · rw [if_neg hprog]
      rcases hrx with h | h | h
      · exact Or.inr h
      · exact absurd h hprog
      · exact Or.inl h

/-- A run in which nothing has been written. -/
theorem LoPhase.of_unwritten {channel : ℚ} {s : LoRun} (h : LoPhase channel s)
    (hw : s.written = none) :
    s.observed = false ∧ s.lo.follower.channelMhz = channel ∧
      s.lo.follower.txExpectMhz = s.lo.tx.lo ∧ s.lo.follower.rxExpectMhz = s.lo.rx.lo := by
  cases h with
  | before _ hobs hch htx hrx => exact ⟨hobs, hch, htx, hrx⟩
  | pendingTx hw' => exact absurd (hw'.symm.trans hw) (by simp)
  | pendingRx hw' => exact absurd (hw'.symm.trans hw) (by simp)
  | following f hw' => exact absurd (hw'.symm.trans hw) (by simp)

/-- **A poll that observes a write** follows it. -/
theorem LoInv.poll_step (defaults : RxDefaults) {channel : ℚ} {s : LoRun} {io : PollIo}
    {rt : LoFollower.Retune} (hinv : LoInv channel s) (hrt : pollObserve s.lo io = some rt)
    (hok : OtherWritten s (.poll io)) :
    LoInv channel { s with
      lo := pollLoFollow defaults s.lo io
      observed := s.observed || (pollObserve s.lo io).isSome } := by
  obtain ⟨hmTx, hmRx, hmoved, hch, -⟩ := pollLoFollow_of_some defaults hrt
  obtain ⟨hokRx, hokTx⟩ := hok rt hrt
  have still : ∀ x : ℚ, decide (s.lo.follower.tolMhz < |x - x|) = false := by
    intro x
    rw [sub_self, abs_zero, decide_eq_false (not_lt.mpr hinv.tol)]
  cases hinv.phase with
  | before _ _ _ htx hrx =>
      -- nothing moved, so nothing is observed
      rw [htx, still] at hmTx
      rw [hrx, still] at hmRx
      rw [hmTx, hmRx] at hmoved
      exact absurd hmoved (by decide)
  | pendingTx hw hobs hch' hrx =>
      -- TX is seen at the written LO, and RX is to follow it
      rw [hrx, still] at hmRx
      have htxMoved : rt.txMoved = true := by simpa [hmRx] using hmoved
      rw [htxMoved, if_pos rfl] at hch
      exact hinv.of_retune defaults hrt hw hch (quantLo_synthLoMhz _ _ _) (Or.inl rfl)
        (Or.inr (hch ▸ hokRx hmRx))
  | pendingRx hw hobs hch' htx =>
      -- RX is seen at the written LO, and TX is to follow it
      rw [htx, still] at hmTx
      rw [hmTx] at hch
      have hch : rt.channelMhz = s.lo.rx.lo := hch
      have hq : quantLo s.lo.rx.lo = s.lo.rx.lo := quantLo_synthLoMhz _ _ _
      refine hinv.of_retune defaults hrt hw hch hq (Or.inr ?_) (Or.inl rfl)
      have h := hokTx hmTx
      rwa [hch, hq] at h
  | following f hw hobs hch' hq hexp htx hrx =>
      -- only an RX LO that stands at `f` can look moved
      have hmTx' : rt.txMoved = false := by
        rw [hmTx, hexp, decide_eq_false (not_lt.mpr htx)]
      have hrxMoved : rt.rxMoved = true := by simpa [hmTx'] using hmoved
      have hrxLo : s.lo.rx.lo = f := by
        rcases hrx with h | h
        · rw [hmRx, decide_eq_true_eq] at hrxMoved
          exact absurd hrxMoved (not_lt.mpr h)
        · exact h
      rw [hmTx'] at hch
      have hch : rt.channelMhz = f := hch.trans hrxLo
      exact hinv.of_retune defaults hrt hw hch hq (Or.inr (Or.inr htx)) (Or.inl hrxLo)

/-- **The step lemma.** -/
theorem LoInv.step (defaults : RxDefaults) {channel : ℚ} {s t : LoRun} {a : LoAction}
    (hinv : LoInv channel s) (hstep : loStep defaults s a = some t) (hok : OtherWritten s a) :
    LoInv channel t := by
  cases a with
  | writeTx chip =>
      simp only [loStep] at hstep
      split at hstep
      · rename_i hw
        obtain rfl := Option.some.inj hstep
        obtain ⟨hobs, hch, -, hrx⟩ := hinv.phase.of_unwritten hw
        exact ⟨hinv.primed, hinv.tol, LoPhase.pendingTx rfl hobs hch hrx⟩
      · exact absurd hstep (by simp)
  | writeRx chip =>
      simp only [loStep] at hstep
      split at hstep
      · rename_i hw
        obtain rfl := Option.some.inj hstep
        obtain ⟨hobs, hch, htx, -⟩ := hinv.phase.of_unwritten hw
        exact ⟨hinv.primed, hinv.tol, LoPhase.pendingRx rfl hobs hch htx⟩
      · exact absurd hstep (by simp)
  | poll io =>
      simp only [loStep] at hstep
      obtain rfl := Option.some.inj hstep
      rcases hrt : pollObserve s.lo io with - | rt
      · rw [pollLoFollow_of_none defaults hinv.primed hrt]
        have hs : { s with lo := s.lo, observed := s.observed || (none : Option LoFollower.Retune).isSome }
            = s := by simp
        rw [hs]
        exact hinv
      · rw [← hrt]
        exact hinv.poll_step defaults hrt hok

/-- **The channel follows the user.**  In a run from a settled start whose retunes write
the chip that did not move, the channel is the old one until a poll observes the
external write, and from then on the LO that write set. -/
theorem channel_follows (defaults : RxDefaults) {channel : ℚ} {s : LoRun}
    (h : Reach (Settled channel) (Restrict (Steps (loStep defaults)) OtherWritten) s) :
    (s.observed = false → s.lo.follower.channelMhz = channel) ∧
      (s.observed = true → s.written = some s.lo.follower.channelMhz) := by
  have hinv : LoInv channel s := h.invariant (LoInv channel) (fun _ => LoInv.of_settled)
    (fun _ _ _ hinv hst => hinv.step defaults hst.1 hst.2)
  cases hinv.phase with
  | before _ hobs hch => exact ⟨fun _ => hch, fun h => absurd (hobs.symm.trans h) (by decide)⟩
  | pendingTx _ hobs hch => exact ⟨fun _ => hch, fun h => absurd (hobs.symm.trans h) (by decide)⟩
  | pendingRx _ hobs hch => exact ⟨fun _ => hch, fun h => absurd (hobs.symm.trans h) (by decide)⟩
  | following f hw hobs hch =>
      exact ⟨fun h => absurd (hobs.symm.trans h) (by decide), fun _ => by rw [hch]; exact hw⟩

/-! ## A retune that misses one chip -/

instance : (s : LoRun) → (a : LoAction) → Decidable (OtherWritten s a)
  | s, .poll io => inferInstanceAs (Decidable (∀ rt ∈ pollObserve s.lo io, _ ∧ _))
  | _, .writeTx _ => isTrue trivial
  | _, .writeRx _ => isTrue trivial

/-- A chip set to `loMhz` by a successful write. -/
def chipAt (loMhz : ℚ) : SynthChip :=
  SynthChip.programLo { main15 := 0, main16 := 0, main17 := 0 } true loMhz none none

/-- Settled on 5800 MHz at an IF of 500 kHz. -/
def settledStart : LoRun where
  lo :=
    { follower :=
        { LoFollower.new 5800 (1 / 2) with
          txExpectMhz := (chipAt 5800).lo, rxExpectMhz := (chipAt (5800 - 1 / 2)).lo }
      loPrimed := true
      centerMhz := 5800
      tx := chipAt 5800
      rx := chipAt (5800 - 1 / 2) }

theorem settled_settledStart : Settled 5800 settledStart :=
  ⟨rfl, rfl, rfl, rfl, by decide +kernel, rfl, rfl⟩

/-- The user moves TX to 5820 MHz and both writes of the next poll succeed. -/
theorem channel_follows_tx :
    ∃ s, exec (guarded (loStep ⟨0, 0⟩) OtherWritten) settledStart
        [.writeTx (chipAt 5820), .poll {}, .poll {}] = some s ∧
      s.written = some s.lo.follower.channelMhz := by
  have hrun : (exec (guarded (loStep ⟨0, 0⟩) OtherWritten) settledStart
      [.writeTx (chipAt 5820), .poll {}, .poll {}]).any (fun s => s.observed) = true := by
    decide +kernel
  obtain ⟨s, hs, hobs⟩ := (Option.any_eq_true _ _).mp hrun
  exact ⟨s, hs, (channel_follows ⟨0, 0⟩
    (Reach.exec_guarded (Reach.start settled_settledStart) hs)).2 hobs⟩

/-- **A stale LO.**  The user moves TX to 5820 MHz, the poll's RX write fails, and the next
poll takes the RX LO it never moved for a user's choice. -/
theorem channel_follows_stale :
    ¬ ∀ s, Reach (Settled 5800) (Steps (loStep ⟨0, 0⟩)) s → ∀ f, s.written = some f →
        s.lo.follower.channelMhz = 5800 ∨ s.lo.follower.channelMhz = f := by
  intro hall
  have hrun : (exec (loStep ⟨0, 0⟩) settledStart
      [.writeTx (chipAt 5820), .poll { programRx := false }, .poll {}]).any (fun s =>
        decide (s.written = some 5820 ∧ s.lo.follower.channelMhz ≠ 5800 ∧
          s.lo.follower.channelMhz ≠ 5820)) = true := by
    decide +kernel
  obtain ⟨s, hs, hp⟩ := (Option.any_eq_true _ _).mp hrun
  obtain ⟨hw, hold, hnew⟩ := of_decide_eq_true hp
  rcases hall s (Reach.exec (Reach.start settled_settledStart) hs) 5820 hw with h | h
  · exact hold h
  · exact hnew h
