/-
# Frames a chip off

The nearby hard readings of `finalizeData` are complete for values that are off by one
chip on every symbol or on one: the header survives the error, the values sent are among
the readings tried, and the first reading that decodes is queued with its own decode
(`finalizeData_recovers`).
-/
import QuadrfMesh.Lora.ChipErrors
import QuadrfMesh.Receiver.FrameCheck

/-- Every symbol one chip up, every symbol one chip down, or one symbol one chip over. -/
def OneChipOff (len : ℕ) (e : ℕ → ℤ) : Prop :=
  (∀ i, e i = 1) ∨ (∀ i, e i = -1) ∨
    ∃ m < len, (e m = 1 ∨ e m = -1) ∧ ∀ i, i ≠ m → e i = 0

theorem OneChipOff.near {len : ℕ} {e : ℕ → ℤ} (h : OneChipOff len e) (i : ℕ) :
    e i = -1 ∨ e i = 0 ∨ e i = 1 ∨ e i = 2 := by
  rcases h with h | h | ⟨m, -, hm, h⟩
  · exact Or.inr (Or.inr (Or.inl (h i)))
  · exact Or.inl (h i)
  · by_cases him : i = m
    · subst him
      rcases hm with hm | hm
      · exact Or.inr (Or.inr (Or.inl hm))
      · exact Or.inl hm
    · exact Or.inr (Or.inl (h i him))

/-- The shift back of a chip that is `e` over. -/
theorem shiftValue_chipError {n : ℕ} (hn : n ≤ 2 ^ 16) {c : UInt16} (hc : c.toNat < n) {e sh : ℤ}
    (he : e + sh = 0) (hsh : -1 ≤ sh ∧ sh ≤ 1) : shiftValue sh n (chipError n e c) = c := by
  have hx := toNat_chipError hn hc e
  have h0 := Int.emod_nonneg ((c.toNat : ℤ) + e) (b := (n : ℤ)) (by omega)
  have h1 := Int.emod_lt_of_pos ((c.toNat : ℤ) + e) (b := (n : ℤ)) (by omega)
  have hback : (((chipError n e c).toNat : ℤ) + sh + n) % n = c.toNat := by
    have hsum : ((c.toNat : ℤ) + e) % n + sh + n = ((c.toNat : ℤ) + e) % n + (sh + n) := by ring
    have hcancel : (c.toNat : ℤ) + e + (sh + n) = c.toNat + n := by linarith
    rw [hx, hsum, Int.emod_add_emod, hcancel, Int.add_emod_right]
    exact Int.emod_eq_of_lt (by omega) (by omega)
  -- the sum stays below 32 bits
  rw [shiftValue, Int.emod_eq_of_lt (b := 2 ^ 32) (by omega) (by omega), hback, Int.toNat_natCast,
    UInt16.ofNat_toNat]

namespace Receiver

section Recovery

variable {α τ : Type} {p : LoraParams} (hp : LegalParams p) (hcrc : p.hasCrc = true)
  {payload : List UInt8} {e : ℕ → ℤ} (hoff : OneChipOff (encodeFrame p payload).length e)
  (hlen : 1 ≤ payload.length) (hlen' : payload.length ≤ 255)
  (dsp : Dsp α) (tracker : CarrierTracker α τ) (soft : List (List ℚ) → ℤ → DecodeResult)

/-- The values sent, with the errors. -/
abbrev offChips (p : LoraParams) (payload : List UInt8) (e : ℕ → ℤ) : List UInt16 :=
  chipErrors (chipCount p) e (encodeFrame p payload)

include hp hoff hlen hlen' in
/-- **The header survives** an error of one chip. -/
theorem header_offChips : (decodeFrame p (offChips p payload e)).header = sentHeader p payload := by
  -- the errors of the header block alone
  have hhead : (offChips p payload e).take 8
      = (offChips p payload fun i => if i < 8 then e i else 0).take 8 := by
    apply List.ext_getElem?
    intro i
    rw [List.getElem?_take, List.getElem?_take]
    split_ifs with hi
    · simp [chipErrors, hi]
    · rfl
  have hsame := (sameWords_chipErrors hp payload (e := fun i => if i < 8 then e i else 0)
    (by
      intro i _
      split_ifs
      · exact hoff.near i
      · exact Or.inr (Or.inl rfl))
    (by
      intro i hi
      rw [not_or] at hi
      exact if_neg hi.1)).decodeFrame_eq
  have hsf := hp.sf_ge
  rw [decodeFrame_header_take (by omega), hhead, ← decodeFrame_header_take (by omega), hsame,
    decodeFrame_encodeFrame hp hlen hlen']
  rfl

include hp in
theorem shiftValues_offChips {sh : ℤ} (hsh : -1 ≤ sh ∧ sh ≤ 1) (he : ∀ i, e i + sh = 0) :
    shiftValues (offChips p payload e) sh (chipCount p) = encodeFrame p payload := by
  have hn : chipCount p ≤ 2 ^ 16 := (chipCount_le hp).trans (by norm_num)
  apply List.ext_getElem
  · rw [shiftValues, List.length_map, length_chipErrors]
  · intro i _ hi
    simp only [shiftValues, chipErrors, List.getElem_map, List.getElem_mapIdx]
    exact shiftValue_chipError hn (getElem_encodeFrame_lt hp payload hi) (he i) hsh

include hp hoff in
/-- **The values sent are tried.** -/
theorem sent_mem_hardReadings {c : Core τ} (hraw : c.rawValues = offChips p payload e) :
    encodeFrame p payload ∈ (loraReceiver p dsp tracker soft).hardReadings c := by
  have hn : chipCount p ≤ 2 ^ 16 := (chipCount_le hp).trans (by norm_num)
  unfold hardReadings
  rw [hraw]
  rcases hoff with hup | hdown | ⟨m, hm, hone, hzero⟩
  · -- the whole frame one chip down
    have hsent : shiftValues (offChips p payload e) (-1) (chipCount p) = encodeFrame p payload :=
      shiftValues_offChips hp (by omega) fun i => by rw [hup i]; rfl
    simp only [List.mem_append, List.mem_cons]
    exact Or.inl (Or.inl (Or.inl (Or.inl hsent.symm)))
  · have hsent : shiftValues (offChips p payload e) 1 (chipCount p) = encodeFrame p payload :=
      shiftValues_offChips hp (by omega) fun i => by rw [hdown i]; rfl
    simp only [List.mem_append, List.mem_cons]
    exact Or.inl (Or.inl (Or.inl (Or.inr (Or.inl hsent.symm))))
  · -- the one symbol, shifted back
    have hsent : ∀ sh : ℤ, -1 ≤ sh ∧ sh ≤ 1 → e m + sh = 0 →
        (offChips p payload e).mapIdx (fun s v => if decide (s = m) = true then
          shiftValue sh (chipCount p) v else v) = encodeFrame p payload := by
      intro sh hsh he
      apply List.ext_getElem
      · rw [List.length_mapIdx, length_chipErrors]
      · intro i _ hi
        have hc := getElem_encodeFrame_lt hp payload hi
        simp only [chipErrors, List.getElem_mapIdx, decide_eq_true_eq]
        split_ifs with him
        · subst him
          exact shiftValue_chipError hn hc he hsh
        · rw [hzero i him, chipError_zero hn hc]
    have hmem : ∃ sh ∈ [(-1 : ℤ), 1], e m + sh = 0 ∧ -1 ≤ sh ∧ sh ≤ 1 := by
      rcases hone with hup | hdown
      · exact ⟨-1, by simp, by rw [hup]; rfl, by omega⟩
      · exact ⟨1, by simp, by rw [hdown]; rfl, by omega⟩
    obtain ⟨sh, hsh, hback, hbound⟩ := hmem
    refine List.mem_append_left _ (List.mem_append_left _ (List.mem_append_right _ ?_))
    rw [List.mem_flatMap]
    refine ⟨m, List.mem_range.mpr (by rw [length_chipErrors]; exact hm), ?_⟩
    rw [List.mem_map]
    exact ⟨sh, hsh, hsent sh hbound hback⟩

include hp hcrc hoff hlen hlen' in
/-- The hard values have a valid header with CRC, so they are good or fail their CRC. -/
theorem decodeHard_offChips :
    ((loraReceiver p dsp tracker soft).decodeHard (offChips p payload e)).header
      = sentHeader p payload := by
  have hheader := header_offChips hp hoff hlen hlen'
  show ((loraReceiver p dsp tracker soft).enforceCrcFlag (decodeFrame p _)).header = _
  unfold enforceCrcFlag
  rw [if_neg (by simp [hheader, sentHeader, hcrc]), hheader]

end Recovery

variable {α τ : Type} {R : Receiver α τ}

/-- Without soft decoding and wander the frame queued is that of the hard values and their
nearby readings. -/
theorem closeFrame_hard (hsoft : R.params.softDecoding = false) (hwander : wander R.params = false)
    (c : Core τ) : R.closeFrame c = (R.hardRescue (R.hardDecode c)).cur := by
  have hslip : R.slipCorrect c = c := by simp [slipCorrect, hwander]
  have hretry : ∀ c : Core τ, R.softRetry c = c := fun c => by simp [softRetry, hsoft]
  have hshift : ∀ c : Core τ, R.softShiftRetry c = c := fun c => by simp [softShiftRetry, hsoft]
  have hverify : ∀ (raw : List UInt16) (c : Core τ), R.softVerify raw c = c :=
    fun raw c => by simp [softVerify, hsoft]
  simp only [closeFrame, hslip, hretry, hshift, hverify]

/-- The search among the readings: a good one is found when there is one. -/
theorem hardRescue_good {c : Core τ} {sent : List UInt16} (hmem : sent ∈ R.hardReadings c)
    (hsent : (R.decodeHard sent).good = true)
    (h : c.cur.decode.good = true ∨ c.cur.decode.crcFailed = true)
    (hdecode : c.cur.decode = R.decodeHard c.rawValues) :
    (R.hardRescue c).cur.decode.good = true ∧
      (R.hardRescue c).cur.decode = R.decodeHard (R.hardRescue c).cur.rawValues := by
  rcases h with hgood | hfailed
  · rw [hardRescue_of_not_failed (DecodeResult.crcFailed_of_good hgood)]
    exact ⟨hgood, hdecode⟩
  · unfold hardRescue
    rw [if_pos hfailed]
    rcases hfind : (R.hardReadings c).find? fun cand => (R.decodeHard cand).good with - | cand
    · -- the good reading would have been found
      have hnone := List.find?_eq_none.mp hfind sent hmem
      exact absurd hsent hnone
    · exact ⟨List.find?_some (p := fun cand => (R.decodeHard cand).good) hfind, rfl⟩

/-- The frame one chip down is the first reading tried. -/
theorem hardRescue_first {c : Core τ} {sent : List UInt16}
    (hfirst : shiftValues c.rawValues (-1) R.nChips = sent)
    (hsent : (R.decodeHard sent).good = true)
    (hfailed : (R.hardDecode c).cur.decode.crcFailed = true) :
    (R.hardRescue (R.hardDecode c)).cur.decode = R.decodeHard sent := by
  have hfind : (R.hardReadings (R.hardDecode c)).find? (fun cand => (R.decodeHard cand).good)
      = some sent := by
    rw [hardReadings, List.cons_append, List.cons_append]
    show ((shiftValues c.rawValues (-1) R.nChips) :: _).find? _ = some sent
    rw [List.find?_cons, hfirst, hsent]
  unfold hardRescue
  rw [if_pos hfailed, hfind]

theorem out_finalizeData (b : Buffer α) (c : Core τ) :
    (Asking.run R.serve b (R.finalizeData c)).1.out = c.out ++ [R.closeFrame c] := rfl

/-- **Frames a chip off are recovered.**  Where the values collected are the chips of a
frame with every symbol one chip up, every symbol one chip down, or one symbol one chip
over, `finalizeData` without soft decoding and wander queues a frame with a valid header and
a passed CRC, whose decode is that of the values queued; and the payload is the one sent
when every symbol is one up and the values do not pass as they are. -/
theorem finalizeData_recovers {p : LoraParams} (hp : LegalParams p) (hcrc : p.hasCrc = true)
    (hsoft : p.softDecoding = false) (hwander : wander p = false) {payload : List UInt8}
    (hlen : 1 ≤ payload.length) (hlen' : payload.length ≤ 255) {e : ℕ → ℤ}
    (hoff : OneChipOff (encodeFrame p payload).length e) (dsp : Dsp α)
    (tracker : CarrierTracker α τ) (soft : List (List ℚ) → ℤ → DecodeResult) {c : Core τ}
    (hraw : c.rawValues = chipErrors (chipCount p) e (encodeFrame p payload)) :
    ∃ f : ReceivedFrame,
      (∀ b : Buffer α,
        (Asking.run (loraReceiver p dsp tracker soft).serve b
          ((loraReceiver p dsp tracker soft).finalizeData c)).1.out = c.out ++ [f]) ∧
      f.decode.header.valid = true ∧ f.decode.crcOk = true ∧
      f.decode = (loraReceiver p dsp tracker soft).decodeHard f.rawValues ∧
      ((∀ i, e i = 1) →
        ((loraReceiver p dsp tracker soft).decodeHard c.rawValues).crcOk = false →
          f.decode.payload = payload) := by
  have hheader : ((loraReceiver p dsp tracker soft).decodeHard c.rawValues).header
      = sentHeader p payload := by
    rw [hraw]
    exact decodeHard_offChips hp hcrc hoff hlen hlen' dsp tracker soft
  have hsent := decodeHard_encodeFrame hp rfl rfl hcrc hlen hlen' dsp tracker soft
  have hmem := sent_mem_hardReadings hp hoff dsp tracker soft hraw
  generalize hR : loraReceiver p dsp tracker soft = R at hheader hsent hmem ⊢
  have hparams : R.params = p := by rw [← hR]; rfl
  have hsentgood : (R.decodeHard (encodeFrame p payload)).good = true := by
    rw [hsent]
    rfl
  have hclose : R.closeFrame c = (R.hardRescue (R.hardDecode c)).cur :=
    closeFrame_hard (by rw [hparams, hsoft]) (by rw [hparams, hwander]) c
  -- the hard values are good, or their CRC fails
  have hsplit : (R.hardDecode c).cur.decode.good = true ∨
      (R.hardDecode c).cur.decode.crcFailed = true := by
    show (R.decodeHard c.rawValues).good = true ∨ (R.decodeHard c.rawValues).crcFailed = true
    rw [DecodeResult.good, DecodeResult.crcFailed, hheader]
    simp only [sentHeader, hcrc, Bool.true_and]
    cases (R.decodeHard c.rawValues).crcOk
    · exact Or.inr rfl
    · exact Or.inl rfl
  obtain ⟨hgood, hdecode⟩ := hardRescue_good (c := R.hardDecode c) hmem hsentgood hsplit rfl
  rw [← hclose] at hgood hdecode
  obtain ⟨hvalid, hok⟩ := (DecodeResult.good_iff _).mp hgood
  refine ⟨R.closeFrame c, fun b => out_finalizeData b c, hvalid, hok, hdecode, ?_⟩
  intro hup hfail
  -- the first reading is the frame one chip down
  have hfirst : shiftValues c.rawValues (-1) R.nChips = encodeFrame p payload := by
    rw [hraw, nChips, hparams]
    exact shiftValues_offChips hp (by omega) fun i => by rw [hup i]; rfl
  rw [hclose, hardRescue_first hfirst hsentgood (hsplit.resolve_left ?_), hsent]
  · rfl
  · rw [DecodeResult.good_iff]
    rintro ⟨-, hok'⟩
    have hok'' : (R.decodeHard c.rawValues).crcOk = true := hok'
    rw [hfail] at hok''
    exact absurd hok'' Bool.false_ne_true

/-- Spreading factor 7 without soft decoding. -/
def sf7Hard : LoraParams := { sf7Chips with softDecoding := false }

/-- A frame of one byte, collected with every symbol one chip up. -/
def allUp : Core Unit :=
  { cur := { rawValues := chipErrors 128 (fun _ => 1) (encodeFrame sf7Hard [0x42]) }, tracker := () }

/-- Its values as they are fail the CRC, and the frame queued has the byte. -/
theorem finalizeData_recovers_allUp :
    ∃ f : ReceivedFrame, ((Asking.run (gridReceiver sf7Hard).serve {}
      ((gridReceiver sf7Hard).finalizeData allUp)).1.out = [f]) ∧ f.decode.payload = [0x42] := by
  have hfail : ((gridReceiver sf7Hard).decodeHard allUp.rawValues).crcOk = false := by
    decide +kernel
  have hlen : 1 ≤ [(0x42 : UInt8)].length := by decide
  obtain ⟨f, hout, -, -, -, hpayload⟩ := finalizeData_recovers (p := sf7Hard)
    ⟨by decide, by decide, by decide, by decide⟩ rfl rfl (by decide +kernel) hlen (by decide)
    (e := fun _ => 1) (Or.inl fun _ => rfl) (gridReceiver sf7Hard).dsp
    (gridReceiver sf7Hard).tracker (fun _ _ => {}) (c := allUp) rfl
  exact ⟨f, hout {}, hpayload (fun _ => rfl) hfail⟩

end Receiver
