/-
# The sync flag of a rescued frame

A frame is collected also when its sync word was not found, with the sync flag down.  A
decode that passes its CRC raises the flag on the first hard pass and on the soft rows,
but not on a nearby hard reading, and `drainRx` drops the frame for it.  A frame queued as
good has the flag exactly when `finalizeData` is called in a state that keeps it
(`frames_flagged_iff`).

Which readings are near depends on the order in which the two sorts of `finalizeData` leave
equal symbols, and the condition is exact for every such order.
-/
import QuadrfMesh.Phy.Echo
import QuadrfMesh.Receiver.FrameCheck

open Transition

/-- The frames `drainRx` drops unread. -/
def ReceivedFrame.dropped (r : ReceivedFrame) : Bool :=
  !r.synced || !r.decode.header.valid || !r.decode.crcOk

/-- A frame that passed its CRC has the sync flag, so it is not dropped. -/
def ReceivedFrame.Flagged (f : ReceivedFrame) : Prop :=
  f.decode.header.valid = true → f.decode.crcOk = true → f.synced = true ∧ f.dropped = false

namespace ReceivedFrame

/-- `drainRx` on a frame of the receiver. -/
theorem drainRx_eq {Sample : Type} (selftest : Bool) (s : EchoState Sample) (f : ReceivedFrame) :
    drainRx selftest s f.synced f.decode
      = if f.dropped then s
        else if !selftest && isRecentTxEcho s.recentTx f.decode.payload then s
        else { s with rxIndicates := s.rxIndicates ++ [f.decode.payload] } :=
  rfl

theorem flagged_of_synced {f : ReceivedFrame} (h : f.decode.good = true → f.synced = true) :
    f.Flagged := by
  intro hvalid hok
  have hsynced := h (f.decode.good_iff.mpr ⟨hvalid, hok⟩)
  exact ⟨hsynced, by simp [dropped, hsynced, hvalid, hok]⟩

theorem Flagged.synced {f : ReceivedFrame} (h : f.Flagged) (hgood : f.decode.good = true) :
    f.synced = true := by
  obtain ⟨hvalid, hok⟩ := f.decode.good_iff.mp hgood
  exact (h hvalid hok).1

theorem flagged_of_not_good {f : ReceivedFrame} (h : f.decode.good = false) : f.Flagged :=
  flagged_of_synced fun hgood => absurd hgood (by simp [h])

end ReceivedFrame

namespace Receiver

variable {α τ : Type} (R : Receiver α τ)

/-! ## The condition -/

/-- The first of the nearby readings that passes. -/
def FirstPassing (c : Core τ) (cand : List UInt16) : Prop :=
  (R.decodeHard cand).good = true ∧
    ∃ before after, R.hardReadings c = before ++ cand :: after ∧
      ∀ other ∈ before, (R.decodeHard other).good = false

/-- The state with the reading in place of the values. -/
def withReading (c : Core τ) (cand : List UInt16) : Core τ :=
  { c with cur := { c.cur with rawValues := cand } }

/-- The soft rows, turned where the reading differs from the values, decode to its payload. -/
def BearsOut (c : Core τ) (cand : List UInt16) : Prop :=
  let dc := R.decodeSoft ((R.slippedRows c.rawValues (withReading c cand)).take cand.length) 0
  dc.good = true ∧ dc.payload = (R.decodeHard cand).payload

/-- At an SNR at which a reading has to be borne out, it is not. -/
def Refutes (c : Core τ) (cand : List UInt16) : Prop :=
  (R.params.softDecoding = true ∧ c.cur.softDecoded = false ∧ 0 < c.metricN ∧
    c.snrAcc / c.metricN < R.params.softVerifyBelowSnrDb - R.sfGainDb) ∧ ¬ R.BearsOut c cand

/-- A state, its slips taken out, in which a good frame gets its flag: it is up already,
the hard values do not fail their CRC, the soft rows decode, or the first nearby reading that
passes, if one does, is refuted. -/
def KeepsFlag (c : Core τ) : Prop :=
  c.cur.synced = true ∨ (R.decodeHard c.rawValues).crcFailed = false ∨
    (R.params.softDecoding = true ∧
      (R.decodeSoft (c.softRows c.rawValues.length) 0).good = true) ∨
    ∀ cand, R.FirstPassing c cand → R.Refutes c cand

/-- The frame with a reading taken. -/
def rescued (c : Core τ) (cand : List UInt16) : Core τ :=
  { R.hardDecode c with
    cur := { (R.hardDecode c).cur with rawValues := cand, decode := R.decodeHard cand } }

variable {R}

/-! ## The decisions in turn -/

/-- The last check leaves no good frame without its flag. -/
theorem flagged_softVerify {c : Core τ} (hardIn : List UInt16)
    (h : c.cur.decode.good = true → c.cur.synced = true) :
    (R.softVerify hardIn c).cur.Flagged := by
  unfold softVerify
  simp only
  split
  · split
    · exact ReceivedFrame.flagged_of_synced h
    · exact ReceivedFrame.flagged_of_not_good (by simp [DecodeResult.good])
  · exact ReceivedFrame.flagged_of_synced h

/-- A soft decode that is taken stands to the end, with the flag. -/
theorem flagged_takeSoft {c : Core τ} {d : DecodeResult} (hardIn : List UInt16)
    (hd : d.good = true) :
    (R.softVerify hardIn (R.softShiftRetry (R.hardRescue (takeSoft c d)))).cur.Flagged := by
  have hdone : (takeSoft c d).cur.decode.crcFailed = false := DecodeResult.crcFailed_of_good hd
  rw [hardRescue_of_not_failed hdone, softShiftRetry_of_not_failed hdone]
  exact flagged_softVerify hardIn fun _ => rfl

theorem flagged_softShiftRetry {c : Core τ} (hardIn : List UInt16)
    (h : c.cur.decode.good = false) :
    (R.softVerify hardIn (R.softShiftRetry c)).cur.Flagged := by
  have hsame : (R.softVerify hardIn c).cur.Flagged := by
    rw [softVerify_of_not_good h]
    exact ReceivedFrame.flagged_of_not_good h
  unfold softShiftRetry
  split
  · split
    · exact flagged_softVerify hardIn fun _ => rfl
    · exact hsame
  · exact hsame

/-- The first hard pass raises the flag itself. -/
theorem flagged_hardDecode (hcrc : R.params.hasCrc = true) {c : Core τ} (hardIn : List UInt16)
    (h : (R.decodeHard c.rawValues).crcFailed = false) :
    (R.softVerify hardIn
      (R.softShiftRetry (R.hardRescue (R.softRetry (R.hardDecode c))))).cur.Flagged := by
  have hdone : (R.hardDecode c).cur.decode.crcFailed = false := h
  rw [softRetry_of_not_failed hdone, hardRescue_of_not_failed hdone,
    softShiftRetry_of_not_failed hdone]
  refine flagged_softVerify hardIn fun hgood => ?_
  have hgood' : (R.decodeHard c.rawValues).good = true := hgood
  simp [hardDecode, hgood', hasCrc_of_good_decodeHard hcrc hgood']

/-- The first reading that passes is the one that is found. -/
theorem find_hardReadings_iff {c : Core τ} {cand : List UInt16} :
    ((R.hardReadings c).find? fun cand => (R.decodeHard cand).good) = some cand ↔
      R.FirstPassing c cand := by
  rw [List.find?_eq_some_iff_append, FirstPassing]
  simp only [Bool.not_eq_true']

/-- What the last check does to a reading that was taken. -/
theorem softVerify_rescued {c : Core τ} {cand : List UInt16}
    (hcand : (R.decodeHard cand).good = true) :
    (R.Refutes c cand → R.softVerify c.rawValues (R.rescued c cand)
      = { R.rescued c cand with
          cur := { (R.rescued c cand).cur with
            decode := { R.decodeHard cand with crcOk := false }
            synced := false } }) ∧
    (¬ R.Refutes c cand → R.softVerify c.rawValues (R.rescued c cand) = R.rescued c cand) := by
  have hgate : (R.params.softDecoding && !(R.rescued c cand).cur.softDecoded
        && (R.rescued c cand).cur.decode.good && decide (0 < (R.rescued c cand).metricN)
        && decide ((R.rescued c cand).snrAcc / (R.rescued c cand).metricN
          < R.params.softVerifyBelowSnrDb - R.sfGainDb)) = true ↔
      R.params.softDecoding = true ∧ c.cur.softDecoded = false ∧ 0 < c.metricN ∧
        c.snrAcc / c.metricN < R.params.softVerifyBelowSnrDb - R.sfGainDb := by
    rw [show (R.rescued c cand).cur.decode.good = true from hcand, Bool.and_true]
    simp only [Bool.and_eq_true, Bool.not_eq_true', decide_eq_true_eq, and_assoc]
    rfl
  have hbears : ((R.decodeSoft ((R.slippedRows c.rawValues (R.rescued c cand)).take
          (R.rescued c cand).rawValues.length) 0).good
        && decide ((R.decodeSoft ((R.slippedRows c.rawValues (R.rescued c cand)).take
          (R.rescued c cand).rawValues.length) 0).payload = (R.rescued c cand).cur.decode.payload))
        = true ↔ R.BearsOut c cand := by
    rw [Bool.and_eq_true, decide_eq_true_eq]
    rfl
  unfold softVerify Refutes
  simp only
  constructor
  · rintro ⟨hlow, hnot⟩
    rw [if_pos (hgate.mpr hlow), if_neg (mt hbears.mp hnot)]
    rfl
  · intro hnot
    split
    · rename_i hlow
      rw [if_pos (hbears.mpr (by_contra fun h => hnot ⟨hgate.mp hlow, h⟩))]
    · rfl

/-- A reading that comes through `hardRescue` keeps the flag it had. -/
theorem flagged_rescued_iff {c : Core τ} {cand : List UInt16}
    (hbad : (R.decodeHard c.rawValues).good = false) (hcand : (R.decodeHard cand).good = true) :
    (R.softVerify c.rawValues (R.rescued c cand)).cur.Flagged ↔
      c.cur.synced = true ∨ R.Refutes c cand := by
  have hsynced : (R.rescued c cand).cur.synced = c.cur.synced := by simp [rescued, hardDecode, hbad]
  obtain ⟨htaken, hleft⟩ := softVerify_rescued (c := c) hcand
  by_cases hrefutes : R.Refutes c cand
  · rw [htaken hrefutes]
    exact ⟨fun _ => Or.inr hrefutes,
      fun _ => ReceivedFrame.flagged_of_not_good (by simp [DecodeResult.good])⟩
  · rw [hleft hrefutes]
    constructor
    · intro h
      left
      rw [← hsynced]
      exact h.synced hcand
    · rintro (h | h)
      · exact ReceivedFrame.flagged_of_synced fun _ => hsynced.trans h
      · exact absurd h hrefutes

/-! ## One frame -/

section CloseFrame

variable {c : Core τ}

/-- The soft rows take the frame. -/
theorem softRetry_hardDecode (hfailed : (R.decodeHard c.rawValues).crcFailed = true)
    (hsoft : R.params.softDecoding = true ∧
      (R.decodeSoft (c.softRows c.rawValues.length) 0).good = true) :
    R.softRetry (R.hardDecode c)
      = takeSoft (R.hardDecode c) (R.decodeSoft (c.softRows c.rawValues.length) 0) := by
  have hfailed' : (R.hardDecode c).cur.decode.crcFailed = true := hfailed
  unfold softRetry
  rw [if_pos (by rw [hsoft.1, hfailed', Bool.and_self])]
  exact if_pos hsoft.2

/-- They do not. -/
theorem softRetry_hardDecode_of_not
    (hsoft : ¬ (R.params.softDecoding = true ∧
      (R.decodeSoft (c.softRows c.rawValues.length) 0).good = true)) :
    R.softRetry (R.hardDecode c) = R.hardDecode c := by
  unfold softRetry
  split
  · rename_i hcond
    rw [Bool.and_eq_true] at hcond
    exact if_neg fun hgood => hsoft ⟨hcond.1, hgood⟩
  · rfl

/-- The first nearby reading that decodes is taken. -/
theorem hardRescue_hardDecode (hfailed : (R.decodeHard c.rawValues).crcFailed = true) :
    R.hardRescue (R.hardDecode c)
      = match (R.hardReadings c).find? fun cand => (R.decodeHard cand).good with
        | some cand => R.rescued c cand
        | none => R.hardDecode c := by
  have hfailed' : (R.hardDecode c).cur.decode.crcFailed = true := hfailed
  unfold hardRescue
  rw [if_pos hfailed']
  rfl

/-- **One frame** gets its flag exactly in a state that keeps it. -/
theorem flagged_closeFrame_iff (hcrc : R.params.hasCrc = true) (c : Core τ) :
    (R.closeFrame c).Flagged ↔ R.KeepsFlag (R.slipCorrect c) := by
  have hclose : R.closeFrame c = (R.softVerify (R.slipCorrect c).rawValues (R.softShiftRetry
      (R.hardRescue (R.softRetry (R.hardDecode (R.slipCorrect c)))))).cur := rfl
  rw [hclose]
  generalize R.slipCorrect c = c
  rcases hfailed : (R.decodeHard c.rawValues).crcFailed with _ | _
  · exact ⟨fun _ => Or.inr (Or.inl hfailed), fun _ => flagged_hardDecode hcrc _ hfailed⟩
  have hbad : (R.decodeHard c.rawValues).good = false := by
    by_contra hgood
    rw [DecodeResult.crcFailed_of_good (Bool.eq_true_of_not_eq_false hgood)] at hfailed
    exact absurd hfailed (by simp)
  by_cases hsoft : R.params.softDecoding = true ∧
      (R.decodeSoft (c.softRows c.rawValues.length) 0).good = true
  · rw [softRetry_hardDecode hfailed hsoft]
    exact ⟨fun _ => Or.inr (Or.inr (Or.inl hsoft)), fun _ => flagged_takeSoft _ hsoft.2⟩
  rw [softRetry_hardDecode_of_not hsoft, hardRescue_hardDecode hfailed]
  rcases hcand : (R.hardReadings c).find? fun cand => (R.decodeHard cand).good with _ | cand
  -- no nearby reading passes
  · refine ⟨fun _ => Or.inr (Or.inr (Or.inr ?_)), fun _ => flagged_softShiftRetry _ hbad⟩
    intro cand hfirst
    rw [← find_hardReadings_iff, hcand] at hfirst
    exact absurd hfirst (by simp)
  -- one does, and the flag stays what it was
  · have hfirst : R.FirstPassing c cand := find_hardReadings_iff.mp hcand
    have honly : ∀ other, R.FirstPassing c other → other = cand := by
      intro other hother
      rw [← find_hardReadings_iff, hcand] at hother
      exact (Option.some.inj hother).symm
    have hdone : (R.rescued c cand).cur.decode.crcFailed = false :=
      DecodeResult.crcFailed_of_good hfirst.1
    simp only
    rw [softShiftRetry_of_not_failed hdone, flagged_rescued_iff hbad hfirst.1]
    constructor
    · rintro (hsynced | hrefutes)
      · exact Or.inl hsynced
      · refine Or.inr (Or.inr (Or.inr ?_))
        intro other hother
        rwa [honly other hother]
    · rintro (hsynced | hpassed | htook | hall)
      · exact Or.inl hsynced
      · rw [hfailed] at hpassed
        exact absurd hpassed (by simp)
      · exact absurd htook hsoft
      · exact Or.inr (hall cand hfirst)

end CloseFrame

/-! ## Whole runs -/

/-- **Every good frame has its flag** in a run exactly when `finalizeData` is called only
in states that keep it. -/
theorem frames_flagged_iff (hcrc : R.params.hasCrc = true) (chunks : List (List α)) (n : ℕ) :
    (∀ f ∈ (R.runFor (R.start chunks) n).core.out, f.Flagged) ↔
      ∀ k < n, ∀ c, R.closing (R.runFor (R.start chunks) k) = some c →
        R.KeepsFlag (R.slipCorrect c) := by
  rw [forall_queued_iff ReceivedFrame.Flagged]
  · simp only [flagged_closeFrame_iff hcrc]
  · intro f hf
    refine ReceivedFrame.flagged_of_not_good ?_
    rw [hf]
    rfl

/-- The frame rescued without its sync comes of such a state. -/
theorem frames_flagged_iff_unsynced :
    ¬ ∀ k < 22, ∀ c, unsyncedReceiver.closing (unsynced k) = some c →
      unsyncedReceiver.KeepsFlag (unsyncedReceiver.slipCorrect c) := by
  intro h
  obtain ⟨f, hf, hgood, hunsynced⟩ := unsynced_queued
  have hflagged := (frames_flagged_iff (R := unsyncedReceiver) rfl [List.range 3400] 22).mpr h f hf
  rw [hflagged.synced hgood] at hunsynced
  exact absurd hunsynced (by simp)

/-- A frame whose sync word is read wrong and whose one symbol read a chip high is put
right passes its CRC and is dropped. -/
theorem rescued_frame_dropped :
    ¬ ∀ (p : LoraParams) (dsp : Dsp ℕ) (tracker : CarrierTracker ℕ Unit) (m : SoftMath)
        (chunks : List (List ℕ)) (s : Session ℕ Unit),
      p.hasCrc = true → (loraReceiver p dsp tracker (m.decodeFrameSoft p)).Reached chunks s →
      ∀ f ∈ s.core.out, f.decode.header.valid = true → f.decode.crcOk = true →
        f.synced = true ∧ f.dropped = false := by
  intro h
  obtain ⟨f, hf, hgood, hunsynced⟩ := unsynced_queued
  obtain ⟨hvalid, hok⟩ := f.decode.good_iff.mp hgood
  have hkept := h sf7Chips _ _ flatMath [List.range 3400] (unsynced 22) rfl (reached_runFor _ 22)
    f hf hvalid hok
  rw [hkept.1] at hunsynced
  exact absurd hunsynced (by simp)

end Receiver
