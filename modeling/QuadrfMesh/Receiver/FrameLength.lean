/-
# How many symbols a frame gets

The loop of `stepData` on the values it is handed, from the start of the data to the
symbol count the header announces or the cap, which is computed from the receiver's own
coding rate.  The chips of a frame come through as a whole exactly when the cap admits
them (`dataLoop_decodes_iff`).
-/
import QuadrfMesh.Receiver.Session
import QuadrfMesh.Lora.FrameRoundTrip

open Transition

namespace Receiver

variable {α τ : Type} (R : Receiver α τ)

/-! ## The loop -/

/-- The loop of `stepData` on the symbols read, one after the other; it is left when the
frame is complete, at the cap, or on a bad header. -/
def dataLoop : Core τ → List (SymbolReading τ) → Core τ
  | c, [] => c
  | c, r :: rs =>
      if R.collecting c then
        match R.collect c r with
        | some c' => dataLoop c' rs
        | none => c.absorb r
      else c

/-- Symbols that all pass the header check. -/
inductive Passes (c : Core τ) : List (SymbolReading τ) → Core τ → Prop
  | nil : Passes c [] c
  | snoc {rs : List (SymbolReading τ)} {r : SymbolReading τ} {c' c'' : Core τ}
      (h : Passes c rs c') (hmore : R.collecting c' = true) (hpass : R.collect c' r = some c'') :
      Passes c (rs ++ [r]) c''

variable {R}

/-- The loop goes on from where the passing symbols have led. -/
theorem Passes.dataLoop_append {c c' : Core τ} {rs : List (SymbolReading τ)}
    (h : R.Passes c rs c') (rs' : List (SymbolReading τ)) :
    R.dataLoop c (rs ++ rs') = R.dataLoop c' rs' := by
  induction h generalizing rs' with
  | nil => rfl
  | @snoc rs r c' c'' _ hmore hpass ih =>
      rw [List.append_assoc, ih, List.singleton_append, dataLoop, if_pos hmore, hpass]

theorem Passes.dataLoop_eq {c c' : Core τ} {rs : List (SymbolReading τ)} (h : R.Passes c rs c') :
    R.dataLoop c rs = c' := by
  have happend := h.dataLoop_append []
  rwa [List.append_nil] at happend

/-- **The loop in a session.**  While a frame is received, the state is what the loop
makes of the symbols read since. -/
theorem passes_of_run {s₁ s : Session α τ} (hdata : s₁.core.state = .data)
    (hrun : Reach (· = s₁) (Restrict (Steps fun s (_ : Unit) => R.advance s)
      fun s _ => s.core.out = s₁.core.out) s)
    (hopen : s.core.out = s₁.core.out) :
    s.core.state = .data ∧ ∃ rs, R.Passes s₁.core rs s.core := by
  apply invariant_while_open (fun c => c.state = .data ∧ ∃ rs, R.Passes s₁.core rs c)
    ⟨hdata, [], Passes.nil⟩ ?_ hrun hopen
  rintro s t ⟨hs, rs, hrs⟩ hst
  rcases advance_data_cases hs hst with hsame | ⟨r, hmore, hpass⟩ | hqueued | ⟨r, -, -, hqueued⟩
  · rw [hsame]
    exact Or.inl ⟨hs, rs, hrs⟩
  · exact Or.inl ⟨(R.checkHeader_frame hpass).1.trans hs, rs ++ [r], hrs.snoc hmore hpass⟩
  · exact Or.inr ⟨_, hqueued⟩
  · exact Or.inr ⟨_, hqueued⟩

/-- **The frame queued** at the end is that of the loop on the symbols read. -/
theorem frame_of_dataLoop {s₁ s t : Session α τ} {f : ReceivedFrame}
    (hdata : s₁.core.state = .data)
    (hrun : Reach (· = s₁) (Restrict (Steps fun s (_ : Unit) => R.advance s)
      fun s _ => s.core.out = s₁.core.out) s)
    (hopen : s.core.out = s₁.core.out) (hclose : R.advance s = some t)
    (hframe : t.core.out = s.core.out ++ [f]) :
    ∃ rs, f = R.closeFrame (R.dataLoop s₁.core rs) := by
  obtain ⟨hs, rs, hrs⟩ := passes_of_run hdata hrun hopen
  have hframe' : ∀ g, t.core.out = s.core.out ++ [g] → f = g := by
    intro g hg
    rw [hframe] at hg
    exact List.singleton_inj.mp (List.append_cancel_left hg)
  rcases advance_data_cases hs hclose with hsame | ⟨r, -, hpass⟩ | hqueued |
    ⟨r, hmore, hbad, hqueued⟩
  · rw [hsame] at hframe
    exact absurd (congrArg List.length hframe) (by simp)
  · rw [(R.checkHeader_frame hpass).2] at hframe
    exact absurd (congrArg List.length hframe) (by simp [Core.absorb])
  · exact ⟨rs, by rw [hrs.dataLoop_eq, hframe' _ hqueued]⟩
  · refine ⟨rs ++ [r], ?_⟩
    rw [hrs.dataLoop_append, dataLoop, if_pos hmore, hbad, hframe' _ hqueued]

/-! ## The start of the data -/

/-- The state in which the data starts. -/
structure FreshData (c : Core τ) : Prop where
  raw : c.rawValues = []
  sym : c.dataSym = 0
  needed : c.neededSyms = 8
  len : c.haveLen = false

/-! ## The chips of a frame -/

section Chips

variable {p q : LoraParams} (hq : LegalParams q) (hsf : p.spreadingFactor = q.spreadingFactor)
  (hldro : p.ldro = q.ldro) (hcrc : q.hasCrc = true) {payload : List UInt8}
  (hlen : 1 ≤ payload.length) (hlen' : payload.length ≤ 255)
  (dsp : Dsp α) (tracker : CarrierTracker α τ) (soft : List (List ℚ) → ℤ → DecodeResult)

/-- A receiver with the hard decoder of `coding.cpp`. -/
def loraReceiver (p : LoraParams) (dsp : Dsp α) (tracker : CarrierTracker α τ)
    (soft : List (List ℚ) → ℤ → DecodeResult) : Receiver α τ where
  params := p
  dsp := dsp
  tracker := tracker
  codec := loraCodec p soft

/-- The loop state with `k` chips of a frame of `chips` in. -/
structure ChipsIn (chips : List UInt16) (k : ℕ) (c : Core τ) : Prop where
  raw : c.rawValues = chips.take k
  sym : c.dataSym = k
  before : k < 8 → c.neededSyms = 8 ∧ c.haveLen = false
  after : 8 ≤ k → c.neededSyms = chips.length ∧ c.haveLen = true

theorem FreshData.chipsIn {c : Core τ} (h : FreshData c) (chips : List UInt16) :
    ChipsIn chips 0 c :=
  ⟨by rw [h.raw, List.take_zero], h.sym, fun _ => ⟨h.needed, h.len⟩, fun h8 => absurd h8 (by omega)⟩

/-- A frame has as many chips as `frameSymbolCount` says, at least eight. -/
theorem length_encodeFrame_eq (hq : LegalParams q) (payload : List UInt8) :
    (encodeFrame q payload).length = frameSymbolCount q payload.length := by
  have hge := hq.sf_ge
  rw [length_encodeFrame_blocks hq, frameSymbolCount_eq q (by omega), length_nibbleStream]

include hq hsf hldro hcrc hlen hlen'

/-- The header the hard values of a frame carry, on a receiver of any coding rate. -/
theorem decodeHard_header :
    ((loraReceiver p dsp tracker soft).decodeHard ((encodeFrame q payload).take 8)).header
      = sentHeader q payload := by
  have hge := hq.sf_ge
  have hchips := length_encodeFrame_blocks hq payload
  have hlen8 : ((encodeFrame q payload).take 8).length = 8 := by
    rw [List.length_take]
    omega
  have hhead : (decodeFrame p ((encodeFrame q payload).take 8)).header = sentHeader q payload := by
    rw [decodeFrame_congr hsf hldro, decodeFrame_header (by omega) _ hlen8.ge, List.take_take,
      Nat.min_self]
    exact parseHeader_sent hq hlen hlen' _
      (decodeBlock_header hq hlen' _ 8 rfl (fun i _ _ => rfl))
  have hkeep : (loraReceiver p dsp tracker soft).enforceCrcFlag
        (decodeFrame p ((encodeFrame q payload).take 8))
      = decodeFrame p ((encodeFrame q payload).take 8) := by
    unfold enforceCrcFlag
    rw [hhead, if_neg (by simp [sentHeader, hcrc])]
  show ((loraReceiver p dsp tracker soft).enforceCrcFlag (decodeFrame p _)).header = _
  rw [hkeep, hhead]

/-- The hard decode of the whole frame. -/
theorem decodeHard_encodeFrame :
    (loraReceiver p dsp tracker soft).decodeHard (encodeFrame q payload)
      = frameResult q payload (encodeFrame q payload).length := by
  show (loraReceiver p dsp tracker soft).enforceCrcFlag (decodeFrame p _) = _
  rw [decodeFrame_congr hsf hldro, decodeFrame_encodeFrame hq hlen hlen']
  unfold enforceCrcFlag
  rw [if_neg (by simp [frameResult, sentHeader, hcrc])]

/-- The header check with the eighth chip in. -/
theorem checkHeader_chips {c : Core τ} (hraw : c.rawValues = (encodeFrame q payload).take 8)
    (hfresh : c.haveLen = false) :
    (loraReceiver p dsp tracker soft).checkHeader c
      = some { c with neededSyms := (encodeFrame q payload).length, haveLen := true } := by
  have hchips := length_encodeFrame_blocks hq payload
  have height : c.rawValues.length = 8 := by
    rw [hraw, List.length_take]
    omega
  have hheader := decodeHard_header hq hsf hldro hcrc hlen hlen' dsp tracker soft
  have hcount : (loraReceiver p dsp tracker soft).acceptHeader c (sentHeader q payload)
      = { c with neededSyms := (encodeFrame q payload).length, haveLen := true } := by
    have hsame : frameSymbolCount { p with cr := q.cr, hasCrc := q.hasCrc } payload.length
        = frameSymbolCount q payload.length :=
      frameSymbolCount_congr (p := { p with cr := q.cr, hasCrc := q.hasCrc }) hsf rfl hldro rfl _
    rw [length_encodeFrame_eq hq, ← hsame]
    rfl
  unfold checkHeader
  rw [if_neg (by simp [hfresh, height]), hraw, hheader,
    if_pos (show (sentHeader q payload).valid = true from rfl), hcount]

/-- **Step lemma.**  Below frame length and cap, one more chip comes in. -/
theorem ChipsIn.next {c : Core τ} {k : ℕ} (h : ChipsIn (encodeFrame q payload) k c)
    (hk : k < (encodeFrame q payload).length)
    (hcap : k < (loraReceiver p dsp tracker soft).maxSyms) (r : SymbolReading τ)
    (hr : (encodeFrame q payload)[k]? = some r.value) :
    (loraReceiver p dsp tracker soft).collecting c = true ∧
      ∃ c', (loraReceiver p dsp tracker soft).collect c r = some c' ∧
        ChipsIn (encodeFrame q payload) (k + 1) c' := by
  have hrawlen : c.rawValues.length = k := by
    rw [h.raw, List.length_take]
    omega
  have hrawnext : (c.absorb r).rawValues = (encodeFrame q payload).take (k + 1) := by
    rw [Core.rawValues_absorb, h.raw, List.take_add_one, hr, Option.toList_some]
  have hsymnext : (c.absorb r).dataSym = k + 1 := by rw [Core.dataSym_absorb, h.sym]
  rcases Nat.lt_or_ge k 8 with hlt | hge
  · obtain ⟨hneeded, hfresh⟩ := h.before hlt
    refine ⟨by simp [collecting, hrawlen, hneeded, h.sym, hlt, hcap], ?_⟩
    rcases Nat.lt_or_ge (k + 1) 8 with hlt' | hge'
    · -- still fewer than eight values
      refine ⟨c.absorb r, ?_, hrawnext, hsymnext, fun _ => ⟨hneeded, hfresh⟩, by omega⟩
      have hshort : (c.absorb r).rawValues.length < 8 := by
        rw [Core.rawValues_absorb, List.length_append, hrawlen]
        exact hlt'
      unfold collect checkHeader
      rw [if_pos (by simp only [decide_eq_true hshort, Bool.or_true])]
    -- the eighth value brings the header check
    · obtain rfl : k = 7 := by omega
      refine ⟨_, checkHeader_chips hq hsf hldro hcrc hlen hlen' dsp tracker soft hrawnext hfresh,
        hrawnext, hsymnext, by omega, fun _ => ⟨rfl, rfl⟩⟩
  · obtain ⟨hneeded, hhave⟩ := h.after hge
    refine ⟨by simp [collecting, hrawlen, hneeded, h.sym, hk, hcap], c.absorb r,
      collect_of_haveLen _ hhave r, hrawnext, hsymnext, by omega, fun _ => ⟨hneeded, hhave⟩⟩

/-- **Run lemma.**  The loop takes the chips in up to the frame length or the cap. -/
theorem ChipsIn.run {c : Core τ} {k : ℕ} (h : ChipsIn (encodeFrame q payload) k c)
    (rs : List (SymbolReading τ))
    (hrs : rs.map SymbolReading.value = (encodeFrame q payload).drop k)
    (hk : k ≤ (encodeFrame q payload).length)
    (hcap : k ≤ (loraReceiver p dsp tracker soft).maxSyms) :
    ChipsIn (encodeFrame q payload)
      (min (encodeFrame q payload).length (loraReceiver p dsp tracker soft).maxSyms)
      ((loraReceiver p dsp tracker soft).dataLoop c rs) := by
  induction rs generalizing c k with
  | nil =>
      have hend : (encodeFrame q payload).length ≤ k := List.drop_eq_nil_iff.mp hrs.symm
      rw [show min _ _ = k by omega]
      exact h
  | cons r rs ih =>
      have hlt : k < (encodeFrame q payload).length := by
        by_contra hge
        rw [List.drop_eq_nil_of_le (by omega)] at hrs
        exact absurd hrs (by simp)
      have hchip : (encodeFrame q payload)[k]? = some r.value := by
        have hhead := congrArg List.head? hrs
        rw [List.head?_drop] at hhead
        exact hhead.symm
      have htail : rs.map SymbolReading.value = (encodeFrame q payload).drop (k + 1) := by
        have htl := congrArg List.tail hrs
        rwa [List.tail_drop] at htl
      rcases Nat.lt_or_ge k (loraReceiver p dsp tracker soft).maxSyms with hmore | hfull
      · obtain ⟨hcol, c', hpass, hc'⟩ :=
          h.next hq hsf hldro hcrc hlen hlen' dsp tracker soft hlt hmore r hchip
        rw [dataLoop, if_pos hcol, hpass]
        exact ih hc' htail (by omega) (by omega)
      · have hsym := h.sym
        rw [dataLoop, if_neg (by simp [collecting, hsym]; omega), show min _ _ = k by omega]
        exact h

/-- **The cap decides.**  Handed the chips of a frame, the loop collects the symbols the
header asks for, and they decode to the payload, exactly when the frame is no longer than
the receiver's own longest frame and two symbols. -/
theorem dataLoop_decodes_iff {c : Core τ} (hc : FreshData c) (rs : List (SymbolReading τ))
    (hrs : rs.map SymbolReading.value = encodeFrame q payload) :
    (((loraReceiver p dsp tracker soft).dataLoop c rs).rawValues.length
          = ((loraReceiver p dsp tracker soft).dataLoop c rs).neededSyms ∧
        ((loraReceiver p dsp tracker soft).decodeHard
          ((loraReceiver p dsp tracker soft).dataLoop c rs).rawValues).payload = payload ∧
        ((loraReceiver p dsp tracker soft).decodeHard
          ((loraReceiver p dsp tracker soft).dataLoop c rs).rawValues).crcOk = true) ↔
      frameSymbolCount q payload.length ≤ frameSymbolCount p 255 + 2 := by
  have hchips := length_encodeFrame_blocks hq payload
  have hmax : (loraReceiver p dsp tracker soft).maxSyms = frameSymbolCount p 255 + 2 := rfl
  have hin := (hc.chipsIn (encodeFrame q payload)).run hq hsf hldro hcrc hlen hlen' dsp tracker
    soft rs hrs (Nat.zero_le _) (Nat.zero_le _)
  rw [← length_encodeFrame_eq hq payload, ← hmax]
  have hcap : 8 ≤ (loraReceiver p dsp tracker soft).maxSyms := by
    have hge := hq.sf_ge
    rw [hmax, frameSymbolCount_eq p (by omega)]
    omega
  have hneeded := (hin.after (by omega)).1
  constructor
  -- cut at the cap, the values are fewer than the header asks for
  · rintro ⟨hcount, -, -⟩
    rw [hneeded, hin.raw, List.length_take] at hcount
    omega
  · intro hle
    rw [hneeded, hin.raw, Nat.min_eq_left hle, List.take_length,
      decodeHard_encodeFrame hq hsf hldro hcrc hlen hlen']
    exact ⟨rfl, rfl, rfl⟩

end Chips

/-! ## Frames at two coding rates -/

/-- A symbol read with a clear value and no change of carrier or timing. -/
def plainReading (value : UInt16) : SymbolReading Unit where
  value := value
  alt := none
  softRow := []
  symFrac := 0
  snr := none
  foldAcc := (0, 0)
  foldMag := 0
  timingInt := 0
  dataRawF := 0
  ref := 0
  trkSlope := 0
  trkVar := 0
  slipSyms := 0
  tracker := ()

theorem map_value_plainReading (chips : List UInt16) :
    (chips.map plainReading).map SymbolReading.value = chips := by
  rw [List.map_map, show SymbolReading.value ∘ plainReading = id from rfl, List.map_id]

/-- Rate 4/6 received with 4/5 configured. -/
theorem dataLoop_decodes_cr2 :
    ((loraReceiver { spreadingFactor := 7 } (gridReceiver sf7).dsp (gridReceiver sf7).tracker
        fun _ _ => {}).decodeHard
      ((loraReceiver { spreadingFactor := 7 } (gridReceiver sf7).dsp (gridReceiver sf7).tracker
        fun _ _ => {}).dataLoop { tracker := () }
          ((encodeFrame { spreadingFactor := 7, cr := 2 } [0x42, 0x17]).map
            plainReading)).rawValues).payload = [0x42, 0x17] :=
  ((dataLoop_decodes_iff (p := { spreadingFactor := 7 }) (q := { spreadingFactor := 7, cr := 2 })
    ⟨by decide, by decide, by decide, by decide⟩ rfl rfl rfl
    (by decide : 1 ≤ [(0x42 : UInt8), 0x17].length) (by decide) _ _ _ ⟨rfl, rfl, rfl, rfl⟩ _
    (map_value_plainReading _)).mpr (by decide)).2.1

/-- A frame of 255 bytes at 4/8, received with 4/5 configured, is cut off at the cap. -/
theorem frame_cut_at_cap :
    ¬ ∀ (p q : LoraParams) (payload : List UInt8) (dsp : Dsp ℕ) (tracker : CarrierTracker ℕ Unit)
        (soft : List (List ℚ) → ℤ → DecodeResult) (c : Core Unit) (rs : List (SymbolReading Unit)),
      LegalParams p → LegalParams q → p.spreadingFactor = q.spreadingFactor → p.ldro = q.ldro →
      q.hasCrc = true → 1 ≤ payload.length → payload.length ≤ 255 → FreshData c →
      rs.map SymbolReading.value = encodeFrame q payload →
      ((loraReceiver p dsp tracker soft).dataLoop c rs).rawValues.length
          = ((loraReceiver p dsp tracker soft).dataLoop c rs).neededSyms ∧
        ((loraReceiver p dsp tracker soft).decodeHard
          ((loraReceiver p dsp tracker soft).dataLoop c rs).rawValues).payload = payload ∧
        ((loraReceiver p dsp tracker soft).decodeHard
          ((loraReceiver p dsp tracker soft).dataLoop c rs).rawValues).crcOk = true := by
  intro h
  have hp : LegalParams { spreadingFactor := 7 } := ⟨by decide, by decide, by decide, by decide⟩
  have hq : LegalParams { spreadingFactor := 7, cr := 4 } :=
    ⟨by decide, by decide, by decide, by decide⟩
  have hpay : (List.replicate 255 (0x42 : UInt8)).length = 255 := List.length_replicate
  have hcount := (h _ _ (List.replicate 255 0x42) (gridReceiver sf7).dsp (gridReceiver sf7).tracker
    (fun _ _ => {}) { tracker := () } _ hp hq rfl rfl rfl (by omega) (by omega) ⟨rfl, rfl, rfl, rfl⟩
    (map_value_plainReading _)).1
  have hin := (FreshData.chipsIn (c := { tracker := () }) ⟨rfl, rfl, rfl, rfl⟩
    (encodeFrame { spreadingFactor := 7, cr := 4 } (List.replicate 255 0x42))).run hq
    (p := { spreadingFactor := 7 }) rfl rfl rfl (by omega) (by omega) (gridReceiver sf7).dsp
    (gridReceiver sf7).tracker (fun _ _ => {}) _ (map_value_plainReading _) (Nat.zero_le _)
    (Nat.zero_le _)
  have hlong : (encodeFrame { spreadingFactor := 7, cr := 4 } (List.replicate 255 0x42)).length
      = 600 := by
    rw [length_encodeFrame_eq hq, hpay]
    decide
  have hcap : (loraReceiver { spreadingFactor := 7 } (gridReceiver sf7).dsp
      (gridReceiver sf7).tracker fun _ _ => {}).maxSyms = 380 := by
    decide
  rw [hlong, hcap, List.drop_zero] at hin
  have hneeded := (hin.after (by omega)).1
  rw [hneeded, hin.raw, List.length_take, hlong] at hcount
  omega

end Receiver
