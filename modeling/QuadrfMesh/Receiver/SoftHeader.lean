/-
# Headers accepted on the soft rows

`checkHeader` takes a header from the soft rows when the hard one is invalid, and the
frame is collected to the length it announces.  `finalizeData` decodes the hard values
again and lets no soft retry run without a valid hard header; the first eight values are
still those the hard header failed on, so the frame is queued without a header
(`soft_header_thrown_away`).
-/
import QuadrfMesh.Receiver.Session
import QuadrfMesh.Lora.Frame

open Transition

namespace Receiver

variable {α τ : Type} {R : Receiver α τ}

/-! ## Frames without a hard header -/

theorem header_enforceCrcFlag (d : DecodeResult) :
    (R.enforceCrcFlag d).header
      = if R.params.hasCrc && d.header.valid && !d.header.hasCrc then
          { d.header with valid := false }
        else d.header := by
  unfold enforceCrcFlag
  split <;> rfl

/-- A decoder that reads the header off the first eight values still does so under
`enforceCrcFlag`. -/
theorem header_decodeHard_take
    (hfirst : ∀ raw, (R.codec.decodeFrame raw).header = (R.codec.decodeFrame (raw.take 8)).header)
    (raw : List UInt16) : (R.decodeHard raw).header = (R.decodeHard (raw.take 8)).header := by
  rw [decodeHard, decodeHard, header_enforceCrcFlag, header_enforceCrcFlag, ← hfirst raw]

/-- **No way back.**  Without a valid hard header no retry of `finalizeData` runs. -/
theorem closeFrame_of_invalid (c : Core τ)
    (hhard : (R.decodeHard c.rawValues).header.valid = false) :
    (R.closeFrame c).decode = R.decodeHard c.rawValues := by
  have hfailed : (R.decodeHard c.rawValues).crcFailed = false := by
    simp [DecodeResult.crcFailed, hhard]
  have hgood : (R.decodeHard c.rawValues).good = false := by
    simp [DecodeResult.good, hhard]
  -- every stage asks for a valid header first
  have hslip : R.slipCorrect c = c := by
    unfold slipCorrect
    rw [hfailed, Bool.and_false]
    rfl
  have hsoft : R.softRetry (R.hardDecode c) = R.hardDecode c := softRetry_of_not_failed hfailed
  have hrescue : R.hardRescue (R.hardDecode c) = R.hardDecode c :=
    hardRescue_of_not_failed hfailed
  have hshift : R.softShiftRetry (R.hardDecode c) = R.hardDecode c :=
    softShiftRetry_of_not_failed hfailed
  have hverify : R.softVerify c.rawValues (R.hardDecode c) = R.hardDecode c :=
    softVerify_of_not_good hgood
  unfold closeFrame
  simp only
  rw [hslip, hsoft, hrescue, hshift, hverify]
  rfl

/-! ## The frame while it is collected -/

/-- A frame being collected whose header the hard values do not have. -/
structure SoftHeaderOnly (R : Receiver α τ) (c : Core τ) : Prop where
  state : c.state = .data
  have_len : c.haveLen = true
  eight : 8 ≤ c.rawValues.length
  hard : (R.decodeHard (c.rawValues.take 8)).header.valid = false

/-- What `checkHeader` does with a header only the soft rows have. -/
theorem checkHeader_soft {c : Core τ} (hsoft : R.params.softDecoding = true)
    (hfresh : c.haveLen = false) (height : c.rawValues.length = 8)
    (hhard : (R.decodeHard c.rawValues).header.valid = false)
    (hrows : (R.decodeSoft (c.softRows 8) 0).header.valid = true) :
    R.checkHeader c = some (R.acceptHeader c (R.decodeSoft (c.softRows 8) 0).header) := by
  unfold checkHeader
  rw [if_neg (by simp [hfresh, height]), if_neg (by simp [hhard]), if_pos (by simp [hsoft, hrows])]

theorem acceptHeader_self (c : Core τ) (h : HeaderInfo) (hlen : c.haveLen = true)
    (hneeded : c.neededSyms = (R.acceptHeader c h).neededSyms) : R.acceptHeader c h = c := by
  cases c
  simp only [acceptHeader] at hneeded hlen ⊢
  rw [← hneeded, hlen]

/-- A state with such a header is one `checkHeader` has left. -/
theorem checkHeader_of_accepted {c : Core τ} (hsoft : R.params.softDecoding = true)
    (hlen : c.haveLen = true) (height : c.rawValues.length = 8)
    (hhard : (R.decodeHard c.rawValues).header.valid = false)
    (hrows : (R.decodeSoft (c.softRows 8) 0).header.valid = true)
    (hneeded : c.neededSyms
      = (R.acceptHeader c (R.decodeSoft (c.softRows 8) 0).header).neededSyms) :
    R.checkHeader { c with haveLen := false, neededSyms := 8 } = some c := by
  have h : R.checkHeader { c with haveLen := false, neededSyms := 8 }
      = some (R.acceptHeader c (R.decodeSoft (c.softRows 8) 0).header) :=
    checkHeader_soft (c := { c with haveLen := false, neededSyms := 8 }) hsoft rfl height hhard hrows
  rw [h, acceptHeader_self c _ hlen hneeded]

/-- Reading further symbols leaves the first eight values alone. -/
theorem SoftHeaderOnly.absorb {c : Core τ} (h : SoftHeaderOnly R c) (r : SymbolReading τ) :
    SoftHeaderOnly R (c.absorb r) := by
  have height := h.eight
  refine ⟨h.state, h.have_len, ?_, ?_⟩
  · rw [Core.rawValues_absorb, List.length_append]
    omega
  · rw [Core.rawValues_absorb, List.take_append_of_le_length height]
    exact h.hard

/-- **Step lemma.**  The frame goes on without a hard header, or is queued as it is. -/
theorem SoftHeaderOnly.advance {s t : Session α τ} (h : SoftHeaderOnly R s.core)
    (hst : R.advance s = some t) :
    (SoftHeaderOnly R t.core ∧ t.core.out = s.core.out) ∨
      t.core.out = s.core.out ++ [R.closeFrame s.core] := by
  rcases advance_data_cases h.state hst with hsame | ⟨r, -, hpass⟩ | hqueued | ⟨r, -, hbad, -⟩
  · rw [hsame]
    exact Or.inl ⟨h, rfl⟩
  · rw [collect_of_haveLen R h.have_len] at hpass
    rw [← Option.some.inj hpass]
    exact Or.inl ⟨h.absorb r, rfl⟩
  · exact Or.inr hqueued
  · rw [collect_of_haveLen R h.have_len] at hbad
    exact absurd hbad (by simp)

/-- **Run lemma.**  As long as no frame is queued, the frame goes on without a hard
header. -/
theorem SoftHeaderOnly.run {s₁ s : Session α τ} (h : SoftHeaderOnly R s₁.core)
    (hrun : Reach (· = s₁) (Restrict (Steps fun s (_ : Unit) => R.advance s)
      fun s _ => s.core.out = s₁.core.out) s)
    (hopen : s.core.out = s₁.core.out) : SoftHeaderOnly R s.core := by
  apply invariant_while_open (SoftHeaderOnly R) h ?_ hrun hopen
  intro s t hs hst
  rcases hs.advance hst with ⟨hnext, -⟩ | hqueued
  · exact Or.inl hnext
  · exact Or.inr ⟨_, hqueued⟩

/-- **A soft header is thrown away.**  Whenever `checkHeader` accepts a header only the
soft rows have, the frame queued next lacks it, whatever the soft rows decode to by
then. -/
theorem soft_header_thrown_away {s₁ s t : Session α τ} {c : Core τ} {f : ReceivedFrame}
    (hfirst : ∀ raw, (R.codec.decodeFrame raw).header = (R.codec.decodeFrame (raw.take 8)).header)
    (hsoft : R.params.softDecoding = true) (hdata : c.state = .data) (hfresh : c.haveLen = false)
    (height : c.rawValues.length = 8)
    (hhard : (R.decodeHard c.rawValues).header.valid = false)
    (hrows : (R.decodeSoft (c.softRows 8) 0).header.valid = true)
    (hcheck : R.checkHeader c = some s₁.core)
    (hrun : Reach (· = s₁) (Restrict (Steps fun s (_ : Unit) => R.advance s)
      fun s _ => s.core.out = s₁.core.out) s)
    (hopen : s.core.out = s₁.core.out) (hclose : R.advance s = some t)
    (hframe : t.core.out = s.core.out ++ [f]) :
    ¬ (f.decode.header.valid = true ∧ f.decode.crcOk = true ∧
      f.decode.payload
        = (R.decodeSoft (s.core.softRows s.core.rawValues.length) 0).payload) := by
  have hstart : SoftHeaderOnly R s₁.core := by
    rw [checkHeader_soft hsoft hfresh height hhard hrows, Option.some.injEq] at hcheck
    rw [← hcheck]
    refine ⟨hdata, rfl, height.ge, ?_⟩
    show (R.decodeHard (c.rawValues.take 8)).header.valid = false
    rwa [List.take_of_length_le height.le]
  have hinv := hstart.run hrun hopen
  rcases hinv.advance hclose with ⟨-, hsame⟩ | hqueued
  · rw [hsame] at hframe
    exact absurd (congrArg List.length hframe) (by simp)
  · rw [hframe] at hqueued
    obtain rfl : f = R.closeFrame s.core := List.singleton_inj.mp (List.append_cancel_left hqueued)
    -- the first eight values still decide the header
    have hinvalid : (R.decodeHard s.core.rawValues).header.valid = false := by
      rw [header_decodeHard_take hfirst]
      exact hinv.hard
    rintro ⟨hvalid, -, -⟩
    rw [closeFrame_of_invalid s.core hinvalid, hinvalid] at hvalid
    exact absurd hvalid (by simp)

/-! ## A frame only the soft rows can read -/

/-- The grid receiver with a soft decoder that always finds a frame of one byte. -/
def softReceiver : Receiver ℕ Unit :=
  { gridReceiver sf5 with
    codec := loraCodec sf5 fun _ _ =>
      { header := { valid := true, payloadLen := 1, cr := 1, hasCrc := true }
        crcOk := true
        payload := [0x42] } }

/-- Its session after the header check of the one frame in the stream. -/
def softAccepted : Session ℕ Unit :=
  softReceiver.runFor (softReceiver.start [List.range 1100]) 16

/-- The state that check was made in. -/
def softUnchecked : Core Unit := { softAccepted.core with haveLen := false, neededSyms := 8 }

/-- The header is only in the soft rows. -/
theorem softAccepted_header :
    (softUnchecked.state = .data ∧ softUnchecked.haveLen = false ∧
      softUnchecked.rawValues.length = 8 ∧
      (softReceiver.decodeHard softUnchecked.rawValues).header.valid = false ∧
      (softReceiver.decodeSoft (softUnchecked.softRows 8) 0).header.valid = true) ∧
    softAccepted.core.haveLen = true ∧ softAccepted.core.rawValues.length = 8 ∧
      (softReceiver.decodeHard softAccepted.core.rawValues).header.valid = false ∧
      (softReceiver.decodeSoft (softAccepted.core.softRows 8) 0).header.valid = true ∧
      softAccepted.core.neededSyms = (softReceiver.acceptHeader softAccepted.core
        (softReceiver.decodeSoft (softAccepted.core.softRows 8) 0).header).neededSyms := by
  decide +kernel

theorem softAccepted_checkHeader :
    softReceiver.checkHeader softUnchecked = some softAccepted.core := by
  obtain ⟨-, hlen, height, hhard, hrows, hneeded⟩ := softAccepted_header
  exact checkHeader_of_accepted rfl hlen height hhard hrows hneeded

/-- Ten more symbols come in before the frame is queued, and the soft rows still decode
then. -/
theorem softAccepted_run :
    (∀ k < 11, (softReceiver.runFor softAccepted k).core.out = softAccepted.core.out) ∧
    (softReceiver.advance (softReceiver.runFor softAccepted 10)).isSome = true ∧
    (softReceiver.decodeSoft ((softReceiver.runFor softAccepted 10).core.softRows
      (softReceiver.runFor softAccepted 10).core.rawValues.length) 0).good = true ∧
    ((softReceiver.runFor softAccepted 11).core.out
      = (softReceiver.runFor softAccepted 10).core.out
        ++ [(softReceiver.runFor softAccepted 11).core.out.headD {}]) ∧
    ((softReceiver.runFor softAccepted 11).core.out.headD {}).decode.header.valid = false := by
  decide +kernel

theorem soft_header_thrown_away_sf5 :
    ¬ (((softReceiver.runFor softAccepted 11).core.out.headD {}).decode.header.valid = true ∧
      ((softReceiver.runFor softAccepted 11).core.out.headD {}).decode.crcOk = true ∧
      ((softReceiver.runFor softAccepted 11).core.out.headD {}).decode.payload
        = (softReceiver.decodeSoft ((softReceiver.runFor softAccepted 10).core.softRows
            (softReceiver.runFor softAccepted 10).core.rawValues.length) 0).payload) := by
  obtain ⟨⟨hdata, hfresh, height, hhard, hrows⟩, -⟩ := softAccepted_header
  obtain ⟨hopen, hsome, -, hframe, -⟩ := softAccepted_run
  exact soft_header_thrown_away (fun raw => decodeFrame_header_take (by decide) raw) rfl hdata
    hfresh height hhard hrows softAccepted_checkHeader
    (reach_runFor softAccepted 10 fun k hk => hopen k (by omega)) (hopen 10 (by omega))
    (advance_runFor softAccepted 10 hsome) hframe

/-- The frame above, queued without a header although the soft rows decode throughout. -/
theorem soft_header_lost :
    ¬ ∀ (R : Receiver ℕ Unit) (chunks : List (List ℕ)) (c : Core Unit) (s₁ s t : Session ℕ Unit)
        (f : ReceivedFrame),
      (∀ raw, (R.codec.decodeFrame raw).header = (R.codec.decodeFrame (raw.take 8)).header) →
      (∀ rows shift, (R.codec.decodeFrameSoft rows shift).header
        = (R.codec.decodeFrameSoft (rows.take 8) shift).header) →
      R.params.softDecoding = true → R.Reached chunks s₁ → c.state = .data → c.haveLen = false →
      c.rawValues.length = 8 → (R.decodeHard c.rawValues).header.valid = false →
      (R.decodeSoft (c.softRows 8) 0).header.valid = true → R.checkHeader c = some s₁.core →
      Reach (· = s₁) (Restrict (Steps fun s (_ : Unit) => R.advance s)
        fun s _ => s.core.out = s₁.core.out) s →
      s.core.out = s₁.core.out → R.advance s = some t → t.core.out = s.core.out ++ [f] →
      (R.decodeSoft (s.core.softRows s.core.rawValues.length) 0).good = true →
      f.decode.header.valid = true ∧ f.decode.crcOk = true ∧
        f.decode.payload = (R.decodeSoft (s.core.softRows s.core.rawValues.length) 0).payload := by
  intro h
  obtain ⟨⟨hdata, hfresh, height, hhard, hrows⟩, -⟩ := softAccepted_header
  obtain ⟨hopen, hsome, hgood, hframe, hlost⟩ := softAccepted_run
  have hkept := h softReceiver [List.range 1100] softUnchecked softAccepted
    (softReceiver.runFor softAccepted 10) (softReceiver.runFor softAccepted 11) _
    (fun raw => decodeFrame_header_take (by decide) raw) (fun _ _ => rfl) rfl
    (reached_runFor _ 16) hdata hfresh height hhard hrows softAccepted_checkHeader
    (reach_runFor softAccepted 10 fun k hk => hopen k (by omega)) (hopen 10 (by omega))
    (advance_runFor softAccepted 10 hsome) hframe hgood
  rw [hlost] at hkept
  exact absurd hkept.1 (by decide)

end Receiver
