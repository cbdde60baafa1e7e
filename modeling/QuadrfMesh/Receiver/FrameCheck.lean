/-
# What a queued frame has passed

Whatever branch of `finalizeData` a decode comes from, a frame queued with a valid header
and a passed CRC announces a CRC, has a payload of the announced length, and its CRC is
the one computed of that payload; and unless it was decoded on the soft rows, its decode
is that of the values queued with it (`queued_frame_checked`).
-/
import QuadrfMesh.Receiver.Queue
import QuadrfMesh.Lora.Soft

open Transition

/-- A decode with a CRC that was checked on all of its payload. -/
structure DecodeResult.Passed (d : DecodeResult) : Prop extends d.Checked where
  hasCrc : d.header.hasCrc = true

theorem DecodeResult.good_iff (d : DecodeResult) :
    d.good = true ↔ d.header.valid = true ∧ d.crcOk = true := by
  rw [DecodeResult.good, Bool.and_eq_true]

theorem DecodeResult.crcFailed_of_good {d : DecodeResult} (h : d.good = true) :
    d.crcFailed = false := by
  rw [DecodeResult.crcFailed, (d.good_iff.mp h).2, Bool.not_true, Bool.and_false]

namespace Receiver

variable {α τ : Type} {R : Receiver α τ}

/-! ## One decode -/

/-- Decoders whose passed CRC is one of the whole payload. -/
structure CodecChecks (R : Receiver α τ) : Prop where
  hard : ∀ raw, (R.codec.decodeFrame raw).crcOk = true → (R.codec.decodeFrame raw).Checked
  soft : ∀ rows shift, (R.codec.decodeFrameSoft rows shift).crcOk = true →
    (R.codec.decodeFrameSoft rows shift).Checked

/-- The decoders of `coding.cpp` are such. -/
theorem codecChecks_lora (p : LoraParams) (dsp : Dsp α) (tracker : CarrierTracker α τ)
    (m : SoftMath) : (loraReceiver p dsp tracker (m.decodeFrameSoft p)).CodecChecks :=
  ⟨decodeFrame_checked p, m.decodeFrameSoft_checked p⟩

/-- A decode that is good is left as it is. -/
theorem enforceCrcFlag_of_good {d : DecodeResult} (h : (R.enforceCrcFlag d).good = true) :
    R.enforceCrcFlag d = d := by
  rw [DecodeResult.good_iff] at h
  unfold enforceCrcFlag at h ⊢
  split at h
  · exact absurd h.1 (by simp)
  · rename_i hkeep
    rw [if_neg hkeep]

/-- On a link with CRC a header that stands announces one. -/
theorem hasCrc_of_good_enforceCrcFlag (hcrc : R.params.hasCrc = true) {d : DecodeResult}
    (h : (R.enforceCrcFlag d).good = true) : (R.enforceCrcFlag d).header.hasCrc = true := by
  have hvalid := (DecodeResult.good_iff _).mp h |>.1
  rw [enforceCrcFlag_of_good h] at hvalid ⊢
  by_contra hno
  have hoff : d.header.hasCrc = false := Bool.eq_false_iff.mpr hno
  -- without one it would have been struck out
  have hstruck : (R.enforceCrcFlag d).good = false := by
    unfold enforceCrcFlag
    rw [if_pos (by simp [hcrc, hvalid, hoff])]
    rfl
  rw [h] at hstruck
  exact absurd hstruck (by simp)

theorem passed_enforceCrcFlag (hcrc : R.params.hasCrc = true) {d : DecodeResult}
    (hd : d.crcOk = true → d.Checked) (h : (R.enforceCrcFlag d).good = true) :
    (R.enforceCrcFlag d).Passed := by
  have hok := (DecodeResult.good_iff _).mp h |>.2
  have hchecked : (R.enforceCrcFlag d).Checked := by
    rw [enforceCrcFlag_of_good h] at hok ⊢
    exact hd hok
  exact ⟨hchecked, hasCrc_of_good_enforceCrcFlag hcrc h⟩

theorem hasCrc_of_good_decodeHard (hcrc : R.params.hasCrc = true) {raw : List UInt16}
    (h : (R.decodeHard raw).good = true) : (R.decodeHard raw).header.hasCrc = true :=
  hasCrc_of_good_enforceCrcFlag hcrc h

theorem CodecChecks.decodeHard (hR : R.CodecChecks) (hcrc : R.params.hasCrc = true)
    {raw : List UInt16} (h : (R.decodeHard raw).good = true) : (R.decodeHard raw).Passed :=
  passed_enforceCrcFlag hcrc (hR.hard raw) h

/-- The tail margin only takes a pass away. -/
theorem decodeSoft_of_good {rows : List (List ℚ)} {shift : ℤ}
    (h : (R.decodeSoft rows shift).good = true) :
    R.decodeSoft rows shift = R.enforceCrcFlag (R.codec.decodeFrameSoft rows shift) := by
  rw [DecodeResult.good_iff] at h
  unfold decodeSoft at h ⊢
  simp only at h ⊢
  split at h
  · exact absurd h.2 (by simp)
  · rename_i hkeep
    rw [if_neg hkeep]

theorem CodecChecks.decodeSoft (hR : R.CodecChecks) (hcrc : R.params.hasCrc = true)
    {rows : List (List ℚ)} {shift : ℤ} (h : (R.decodeSoft rows shift).good = true) :
    (R.decodeSoft rows shift).Passed := by
  have heq := decodeSoft_of_good h
  rw [heq] at h ⊢
  exact passed_enforceCrcFlag hcrc (hR.soft rows shift) h

/-! ## The decisions in turn -/

/-- A frame that is what its decode says: a pass is a real one, and without the soft rows
it is the decode of the hard values. -/
structure Honest (R : Receiver α τ) (f : ReceivedFrame) : Prop where
  passed : f.decode.good = true → f.decode.Passed
  hard : f.decode.good = true → f.softDecoded = false → R.decodeHard f.rawValues = f.decode

theorem honest_hardDecode (hR : R.CodecChecks) (hcrc : R.params.hasCrc = true) (c : Core τ) :
    R.Honest (R.hardDecode c).cur :=
  ⟨fun h => hR.decodeHard hcrc h, fun _ _ => rfl⟩

theorem honest_takeSoft (hR : R.CodecChecks) (hcrc : R.params.hasCrc = true) (c : Core τ)
    {rows : List (List ℚ)} {shift : ℤ} (h : (R.decodeSoft rows shift).good = true) :
    R.Honest (takeSoft c (R.decodeSoft rows shift)).cur := by
  refine ⟨fun _ => hR.decodeSoft hcrc h, ?_⟩
  intro _ hsoft
  exact absurd hsoft (by simp [takeSoft])

theorem Honest.softRetry {c : Core τ} (h : R.Honest c.cur) (hR : R.CodecChecks)
    (hcrc : R.params.hasCrc = true) : R.Honest (R.softRetry c).cur := by
  unfold Receiver.softRetry
  simp only
  split
  · split
    · rename_i hgood
      exact honest_takeSoft hR hcrc c hgood
    · exact h
  · exact h

theorem Honest.hardRescue {c : Core τ} (h : R.Honest c.cur) (hR : R.CodecChecks)
    (hcrc : R.params.hasCrc = true) : R.Honest (R.hardRescue c).cur := by
  unfold Receiver.hardRescue
  split
  · split
    · exact ⟨fun hgood => hR.decodeHard hcrc hgood, fun _ _ => rfl⟩
    · exact h
  · exact h

theorem Honest.softShiftRetry {c : Core τ} (h : R.Honest c.cur) (hR : R.CodecChecks)
    (hcrc : R.params.hasCrc = true) : R.Honest (R.softShiftRetry c).cur := by
  unfold Receiver.softShiftRetry
  split
  · split
    · rename_i sh hfind
      exact honest_takeSoft hR hcrc c (List.find?_some (p := fun sh =>
        (R.decodeSoft (c.softRows c.rawValues.length) sh).good) hfind)
    · exact h
  · exact h

/-- A pass the soft rows do not bear out is no pass any more. -/
theorem Honest.softVerify {c : Core τ} (h : R.Honest c.cur) (hardIn : List UInt16) :
    R.Honest (R.softVerify hardIn c).cur := by
  unfold Receiver.softVerify
  simp only
  split
  · split
    · exact h
    · constructor
      · intro hgood
        exact absurd (DecodeResult.good_iff _ |>.mp hgood).2 (by simp)
      · intro hgood
        exact absurd (DecodeResult.good_iff _ |>.mp hgood).2 (by simp)
  · exact h

/-- **Every branch of `finalizeData`** leaves such a frame. -/
theorem honest_closeFrame (hR : R.CodecChecks) (hcrc : R.params.hasCrc = true) (c : Core τ) :
    R.Honest (R.closeFrame c) := by
  have hdecode := honest_hardDecode hR hcrc (R.slipCorrect c)
  have hsoft := hdecode.softRetry hR hcrc
  have hrescue := hsoft.hardRescue hR hcrc
  have hshift := hrescue.softShiftRetry hR hcrc
  exact hshift.softVerify (R.slipCorrect c).rawValues

/-! ## Whole runs -/

/-- A frame without a decode says nothing. -/
theorem honest_undecoded {f : ReceivedFrame} (h : f.decode = {}) : R.Honest f := by
  constructor
  · intro hgood
    rw [h] at hgood
    exact absurd hgood (by decide)
  · intro hgood
    rw [h] at hgood
    exact absurd hgood (by decide)

/-- **Run lemma.**  Every queued frame is what its decode says. -/
theorem Reached.honest {chunks : List (List α)} {s : Session α τ} (hs : R.Reached chunks s)
    (hR : R.CodecChecks) (hcrc : R.params.hasCrc = true) : ∀ f ∈ s.core.out, R.Honest f := by
  obtain ⟨n, rfl⟩ := hs.exists_runFor
  refine (forall_queued_iff R.Honest (fun f hf => honest_undecoded hf) chunks n).mpr ?_
  intro k _ c _
  exact honest_closeFrame hR hcrc c

/-- **Every frame queued as good is good.**  On a link with CRC, whatever the samples and
the chunks they come in, a frame queued with a valid header and a passed CRC announces a
CRC, has the payload length its header announces, and the CRC received is that of the
payload; and if it is not decoded on the soft rows, its decode is the hard decode of its
values. -/
theorem queued_frame_checked (p : LoraParams) (dsp : Dsp α) (tracker : CarrierTracker α τ)
    (m : SoftMath) (hcrc : p.hasCrc = true) (chunks : List (List α)) (s : Session α τ)
    (hs : (loraReceiver p dsp tracker (m.decodeFrameSoft p)).Reached chunks s)
    (f : ReceivedFrame) (hf : f ∈ s.core.out) (hvalid : f.decode.header.valid = true)
    (hok : f.decode.crcOk = true) :
    f.decode.header.hasCrc = true ∧
      f.decode.payload.length = f.decode.header.payloadLen ∧
      f.decode.crcReceived = f.decode.crcExpected ∧
      f.decode.crcExpected = payloadCrc f.decode.payload ∧
      (f.softDecoded = false →
        (loraReceiver p dsp tracker (m.decodeFrameSoft p)).decodeHard f.rawValues = f.decode) := by
  have hhonest := hs.honest (codecChecks_lora p dsp tracker m) hcrc f hf
  have hgood : f.decode.good = true := f.decode.good_iff.mpr ⟨hvalid, hok⟩
  have hpassed := hhonest.passed hgood
  obtain ⟨hreceived, hexpected⟩ := hpassed.crc hpassed.hasCrc
  exact ⟨hpassed.hasCrc, hpassed.length, hreceived, hexpected, hhonest.hard hgood⟩

/-! ## A receiver on a line of symbols -/

/-- Peaks on numbered samples: strong raw windows, a preamble of eight symbols on the
resampled grid, a first sync symbol read at `syncChip`, and data symbols with the given
chips and runner-ups, zero for none. -/
def linePeak (syncChip : ℚ) (symbols : List (ℕ × ℕ)) (head : ℕ) : ChipPeak :=
  let loud (chip : ℚ) (second : ℕ) : ChipPeak :=
    { chip, magnitude := 100, noise := 1, chip2Int := second
      mag2 := if second = 0 then 0 else 60
      lobePower := 1, totalPower := 1 }
  if head % 128 = 0 then loud 0 0
  else if head % 128 = 33 ∧ 12 ≤ head / 128 then
    let symbol := symbols.getD (head / 128 - 12) (0, 0)
    loud symbol.1 symbol.2
  else if head % 128 = 1 then
    if head / 128 = 8 then loud syncChip 0
    else if head / 128 = 9 then loud 88 0
    else loud 0 0
  else { magnitude := 1, noise := 1 }

/-- Logarithm and exponential that make every bit as likely as not. -/
def flatMath : SoftMath := { sqrt := id, log := fun _ => 0, exp := fun _ => 0 }

/-- A receiver with these peaks and no likelihoods to speak of. -/
def lineReceiver (syncChip : ℚ) (symbols : List (ℕ × ℕ)) : Receiver ℕ Unit :=
  loraReceiver sf7Chips
    { (gridReceiver sf7Chips).dsp with
      demod := fun w down =>
        if down then linePeak 0 [] (w.getD 0 0) else linePeak syncChip symbols (w.getD 0 0)
      demodData := fun w _ _ => { nc := linePeak syncChip symbols (w.getD 0 0) }
      preambleSlope := fun _ => none }
    (gridReceiver sf7Chips).tracker (flatMath.decodeFrameSoft sf7Chips)

/-- The chips of a frame of one byte. -/
def lineChips : List ℕ := (encodeFrame sf7Chips [0x42]).map UInt16.toNat

/-- The first sync symbol is read wrong, and the tenth data symbol one chip high. -/
def unsyncedReceiver : Receiver ℕ Unit :=
  lineReceiver 40 ((lineChips.modify 9 (· + 1)).map fun chip => (chip, 0))

/-- Its session on the whole line. -/
def unsynced (n : ℕ) : Session ℕ Unit :=
  unsyncedReceiver.runFor (unsyncedReceiver.start [List.range 3400]) n

/-- The frame is queued on a nearby hard reading, without its sync. -/
theorem unsynced_queued :
    ∃ f ∈ (unsynced 22).core.out, f.decode.good = true ∧ f.synced = false := by
  have hout : (unsynced 22).core.out.map (fun f => (f.decode.good, f.synced)) = [(true, false)] := by
    decide +kernel
  obtain ⟨f, hf, hfields⟩ := List.map_eq_singleton_iff.mp hout
  rw [Prod.mk.injEq] at hfields
  exact ⟨f, by rw [hf]; exact List.mem_singleton.mpr rfl, hfields⟩

theorem queued_frame_checked_line :
    ∃ f ∈ (unsynced 22).core.out, f.decode.header.hasCrc = true ∧
      f.decode.payload.length = f.decode.header.payloadLen := by
  obtain ⟨f, hf, hgood, -⟩ := unsynced_queued
  obtain ⟨hvalid, hok⟩ := f.decode.good_iff.mp hgood
  have h := queued_frame_checked sf7Chips _ _ flatMath rfl [List.range 3400] (unsynced 22)
    (reached_runFor _ 22) f hf hvalid hok
  exact ⟨f, hf, h.1, h.2.1⟩

end Receiver
