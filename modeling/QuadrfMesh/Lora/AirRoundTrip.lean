/-
# A frame over the air

The samples of a whole frame through a flat channel: a gain, and a carrier that is off by whole
chips.  Every window the receiver reads, on whatever chip of the preamble it starts, dechirps to
a tone (`dechirps_preamble`, `dechirps_chirp`, `dechirps_down`), so the demodulator reads
exactly the chip sent plus the carrier.  The data symbols read against the preamble are then the
chips of the encoder, and the frame decodes to the payload.
-/
import QuadrfMesh.Lora.FrameRoundTrip
import QuadrfMesh.Lora.SymbolDemod

open Finset Fourier

/-- A flat channel: gain `g`, and a carrier off by `q` turns a sample. -/
noncomputable def channel (g : ℂ) (q : ℚ) (xs : List ℂ) : List ℂ :=
  xs.mapIdx fun n x => g * cis (q * n) * x

/-- The samples of one symbol. -/
def windowAt {S : Type} (p : LoraParams) (xs : List S) (start : ℕ) : List S :=
  (xs.drop start).take (samplesPerSymbol p)

/-- Where the data symbols start, after 2.25 downchirps. -/
def dataStart (p : LoraParams) : ℕ :=
  (p.preambleLen + 4) * samplesPerSymbol p + samplesPerSymbol p / 4

/-- `v0` of `trackSymbol`: the value of a peak against the reference chip. -/
def peakValue {S P : Type} (p : LoraParams) (refPhys : ℤ) (pk : ChipPeakOf S P) : UInt16 :=
  let n : ℤ := chipCount p
  UInt16.ofNat (((pk.chipInt - refPhys) % n + n) % n).toNat

/-- The first `n` data symbols of a frame that starts with the samples, each read against the
first window of the preamble. -/
def frameValues {S P : Type} [Field P] [LinearOrder P] [Zero S] [Add S] [Mul S] (ops : SampleOps S P)
    (p : LoraParams) (air : List S) (n : ℕ) : List UInt16 :=
  let ref : ℤ := (ops.demod p (windowAt p air 0) false).chipInt
  (List.range n).map fun k =>
    peakValue p ref (ops.demod p (windowAt p air (dataStart p + k * samplesPerSymbol p)) false)

/-! ## The layout of a frame -/

section Layout

variable {S P : Type} (ops : SampleOps S P) (p : LoraParams) (amplitude : P) (chips : List UInt16)

theorem windowAt_append {xs ys zs : List S} {start : ℕ} (hstart : xs.length = start)
    (hlen : ys.length = samplesPerSymbol p) : windowAt p (xs ++ (ys ++ zs)) start = ys := by
  rw [windowAt, ← hstart, List.drop_left, ← hlen, List.take_left]

theorem length_preamble :
    (List.replicate p.preambleLen (upChirp ops p amplitude)).flatten.length
      = p.preambleLen * samplesPerSymbol p := by
  simp

/-- The sync word. -/
theorem windowAt_sync :
    windowAt p (modulate ops amplitude p chips) (p.preambleLen * samplesPerSymbol p)
        = buildUpchirp ops (syncChip0 p) p.spreadingFactor (osFactor p) amplitude ∧
      windowAt p (modulate ops amplitude p chips) ((p.preambleLen + 1) * samplesPerSymbol p)
        = buildUpchirp ops (syncChip1 p) p.spreadingFactor (osFactor p) amplitude := by
  have hlen : ∀ id, (buildUpchirp ops id p.spreadingFactor (osFactor p) amplitude).length
      = samplesPerSymbol p := fun id => by rw [length_buildUpchirp, samplesPerSymbol_eq]
  constructor
  · rw [modulate]
    simp only [List.append_assoc]
    exact windowAt_append p (length_preamble ops p amplitude) (hlen _)
  · rw [modulate]
    simp only [List.append_assoc]
    rw [← List.append_assoc]
    refine windowAt_append p ?_ (hlen _)
    rw [List.length_append, length_preamble, hlen, Nat.succ_mul]

/-- A sample of the two downchirps and the quarter. -/
theorem getD_downs [Zero S] {t : ℕ} (ht : t < 2 * samplesPerSymbol p + samplesPerSymbol p / 4) :
    (modulate ops amplitude p chips).getD ((p.preambleLen + 2) * samplesPerSymbol p + t) 0
      = (downChirp ops p amplitude).getD (t % samplesPerSymbol p) 0 := by
  set head := (List.replicate p.preambleLen (upChirp ops p amplitude)).flatten
    ++ buildUpchirp ops (syncChip0 p) p.spreadingFactor (osFactor p) amplitude
    ++ buildUpchirp ops (syncChip1 p) p.spreadingFactor (osFactor p) amplitude with hhead
  set rest := chips.flatMap fun chip =>
    buildUpchirp ops chip.toNat p.spreadingFactor (osFactor p) amplitude
  have hsplit : modulate ops amplitude p chips
      = head ++ (downChirp ops p amplitude ++ (downChirp ops p amplitude
          ++ ((downChirp ops p amplitude).take (samplesPerSymbol p / 4) ++ rest))) := by
    rw [modulate, hhead]
    simp only [List.append_assoc]
    rfl
  have hlen : head.length = (p.preambleLen + 2) * samplesPerSymbol p := by
    rw [hhead, List.length_append, List.length_append, length_preamble, length_buildUpchirp,
      length_buildUpchirp, ← samplesPerSymbol_eq]
    ring
  have hdown := length_downChirp ops p amplitude
  rw [hsplit, List.getD_append_right _ _ _ _ (by omega), hlen, Nat.add_sub_cancel_left]
  rcases Nat.lt_or_ge t (samplesPerSymbol p) with hfirst | hmore
  · rw [List.getD_append _ _ _ _ (by omega), Nat.mod_eq_of_lt hfirst]
  rw [List.getD_append_right _ _ _ _ (by omega), hdown]
  rcases Nat.lt_or_ge t (2 * samplesPerSymbol p) with hsecond | hquarter
  · rw [List.getD_append _ _ _ _ (by omega), Nat.mod_eq_sub_mod hmore,
      Nat.mod_eq_of_lt (by omega)]
  · have hn : t - samplesPerSymbol p - samplesPerSymbol p < samplesPerSymbol p / 4 := by omega
    have htake : ((downChirp ops p amplitude).take (samplesPerSymbol p / 4)).length
        = samplesPerSymbol p / 4 := by
      rw [List.length_take, hdown]
      omega
    rw [List.getD_append_right _ _ _ _ (by omega), hdown, List.getD_append _ _ _ _ (by omega),
      Nat.mod_eq_sub_mod hmore, Nat.mod_eq_sub_mod (by omega), Nat.mod_eq_of_lt (by omega),
      List.getD_eq_getElem?_getD, List.getElem?_take_of_lt hn, ← List.getD_eq_getElem?_getD]

/-- The data symbols. -/
theorem windowAt_data {k : ℕ} (hk : k < chips.length) :
    windowAt p (modulate ops amplitude p chips) (dataStart p + k * samplesPerSymbol p)
      = buildUpchirp ops chips[k].toNat p.spreadingFactor (osFactor p) amplitude := by
  have hlen : ∀ id, (buildUpchirp ops id p.spreadingFactor (osFactor p) amplitude).length
      = samplesPerSymbol p := fun id => by rw [length_buildUpchirp, samplesPerSymbol_eq]
  have hchips : chips = chips.take k ++ chips[k] :: chips.drop (k + 1) := by
    rw [List.cons_getElem_drop_succ, List.take_append_drop]
  have hbefore := length_modulate ops p amplitude (chips.take k)
  have hsplit : modulate ops amplitude p chips
      = modulate ops amplitude p (chips.take k)
        ++ (buildUpchirp ops chips[k].toNat p.spreadingFactor (osFactor p) amplitude
          ++ (chips.drop (k + 1)).flatMap fun chip =>
            buildUpchirp ops chip.toNat p.spreadingFactor (osFactor p) amplitude) := by
    have hdata := congrArg (List.flatMap fun chip : UInt16 =>
      buildUpchirp ops chip.toNat p.spreadingFactor (osFactor p) amplitude) hchips
    rw [List.flatMap_append, List.flatMap_cons] at hdata
    rw [modulate, hdata, modulate]
    simp only [List.append_assoc]
  rw [hsplit]
  refine windowAt_append p ?_ (hlen _)
  rw [hbefore, List.length_take, min_eq_left hk.le, frameSamples, dataStart]
  ring

/-- A sample of the preamble. -/
theorem getD_preamble [Zero S] {m : ℕ} (hm : m < p.preambleLen * samplesPerSymbol p) :
    (modulate ops amplitude p chips).getD m 0
      = ops.polar amplitude (upchirpTurns 0 p.spreadingFactor (osFactor p)
          (m % samplesPerSymbol p)) := by
  have hsps : 0 < samplesPerSymbol p := Nat.pos_of_mul_pos_left (Nat.zero_lt_of_lt hm)
  have hrun : (List.replicate p.preambleLen (upChirp ops p amplitude)).flatten
      = (List.range p.preambleLen).flatMap fun _ => upChirp ops p amplitude := by
    rw [List.flatMap_def, List.map_const', List.length_range]
  have hdiv : m / samplesPerSymbol p < p.preambleLen := Nat.div_lt_of_lt_mul (by rwa [mul_comm])
  rw [modulate]
  simp only [List.append_assoc]
  rw [List.getD_append _ _ _ _ (by rw [length_preamble]; exact hm), hrun]
  conv_lhs => rw [← Nat.div_add_mod' m (samplesPerSymbol p)]
  rw [Chunks.getD_flatMap_range _ _ (fun _ => length_upChirp ops p amplitude) _ _ _ _ hdiv
    (Nat.mod_lt _ hsps), upChirp, buildUpchirp, Chunks.getD_map_range]
  rw [Nat.one_shiftLeft, ← samplesPerSymbol_eq]
  exact Nat.mod_lt _ hsps

end Layout

/-! ## Windows behind the channel -/

section Windows

variable {p : LoraParams} {forward : List ℂ → List ℂ} {amplitude : ℝ} {g : ℂ} {c : ℤ}
  {xs : List ℂ} {start : ℕ}

/-- A carrier off by `c` whole chips. -/
def chipOffset (p : LoraParams) (c : ℤ) : ℚ := c / samplesPerSymbol p

@[simp] theorem length_channel (g : ℂ) (q : ℚ) (xs : List ℂ) :
    (channel g q xs).length = xs.length := by
  simp [channel]

theorem getD_channel {q : ℚ} {n : ℕ} (hn : n < xs.length) :
    (channel g q xs).getD n 0 = g * cis (q * n) * xs.getD n 0 := by
  simp [channel, List.getD_eq_getElem?_getD, hn]

/-- The gain a window sees. -/
noncomputable def windowGain (p : LoraParams) (g : ℂ) (c : ℤ) (start : ℕ) : ℂ :=
  g * cis (chipOffset p c * start)

theorem windowGain_ne_zero (hg : g ≠ 0) : windowGain p g c start ≠ 0 :=
  mul_ne_zero hg (cis_ne_zero _)

theorem normSq_windowGain : Complex.normSq (windowGain p g c start) = Complex.normSq g := by
  rw [windowGain, Complex.normSq_mul, Complex.normSq_eq_norm_sq (cis _), norm_cis, one_pow, mul_one]

variable (hend : start + samplesPerSymbol p ≤ xs.length)
include hend

theorem length_windowAt_channel :
    (windowAt p (channel g (chipOffset p c) xs) start).length = samplesPerSymbol p := by
  rw [windowAt, List.length_take, List.length_drop, length_channel]
  omega

theorem getD_windowAt_channel {n : ℕ} (hn : n < samplesPerSymbol p) :
    (windowAt p (channel g (chipOffset p c) xs) start).getD n 0
      = windowGain p g c start * cis (c * n / samplesPerSymbol p) * (windowAt p xs start).getD n 0 := by
  have hphase : chipOffset p c * (start + n : ℕ)
      = chipOffset p c * start + c * n / samplesPerSymbol p := by
    rw [chipOffset]
    push_cast
    ring
  rw [windowAt, Chunks.getD_drop_take _ _ _ _ _ hn, windowAt, Chunks.getD_drop_take _ _ _ _ _ hn,
    getD_channel (by omega), hphase, cis_add, windowGain]
  ring

variable (hos : 0 < osFactor p) (hfits : samplesPerSymbol p < 2 ^ 32)

omit hend in
theorem getD_buildUpchirp {id n : ℕ} (hn : n < samplesPerSymbol p) :
    (buildUpchirp (complexOps forward) id p.spreadingFactor (osFactor p) amplitude).getD n 0
      = amplitude * cis (upchirpTurns id p.spreadingFactor (osFactor p) n) := by
  rw [samplesPerSymbol_eq] at hn
  rw [buildUpchirp, Chunks.getD_map_range _ _ _ _ (by rwa [Nat.one_shiftLeft])]
  rfl

include hos hfits

/-- Samples of a chirp, some fixed phase on. -/
theorem dechirps_of_turns {id : ℕ} (hid : id < chipCount p) {u : ℂ} (phase : ℕ → ℚ) {q : ℚ}
    (hwindow : ∀ n < samplesPerSymbol p, (windowAt p xs start).getD n 0 = u * cis (phase n))
    (hphase : ∀ n < samplesPerSymbol p, ∃ k : ℤ,
      phase n = upchirpTurns id p.spreadingFactor (osFactor p) n + q + k) :
    Dechirps p false (windowAt p (channel g (chipOffset p c) xs) start)
      (windowGain p g c start * (u * cis q))
      (stepping (chipCount p) (osFactor p) (chipCount p - id) (id + c)) where
  length_eq := length_windowAt_channel hend
  sample := by
    intro n hn
    obtain ⟨k, hk⟩ := hphase n hn
    have hn' : n < 2 ^ p.spreadingFactor * osFactor p := by rwa [← samplesPerSymbol_eq]
    rw [samplesPerSymbol_eq] at hfits
    rw [chipCount_eq] at hid
    have hsub := upchirpTurns_sub hos hfits hid hn'
    rw [getD_windowAt_channel hend hn, hwindow n hn, hk, cis_add_intCast, cis_add, refTurns,
      if_neg Bool.false_ne_true, stepping, ← samplesPerSymbol, chipCount_eq]
    -- the tone of the chirp against the base chirp, and the carrier
    have htone : cis (c * n / samplesPerSymbol p)
        * (cis (upchirpTurns id p.spreadingFactor (osFactor p) n)
          * cis (-upchirpTurns 0 p.spreadingFactor (osFactor p) n))
        = cis (((id + c : ℤ) : ℚ) * n / samplesPerSymbol p)
          * if n < (2 ^ p.spreadingFactor - id) * osFactor p then 1 else cis (-(n / osFactor p)) := by
      have hsplit : ((id + c : ℤ) : ℚ) * n / samplesPerSymbol p
          = c * n / samplesPerSymbol p + id * n / samplesPerSymbol p := by
        push_cast
        ring
      rw [← cis_add (upchirpTurns _ _ _ _), ← sub_eq_add_neg, hsub, ← samplesPerSymbol_eq, hsplit,
        cis_add (c * n / samplesPerSymbol p)]
      split_ifs
      · rw [add_zero, mul_one]
      · rw [cis_add]
        ring
    rw [← htone]
    ring

/-- **A chirp** moves up by the carrier. -/
theorem dechirps_chirp {id : ℕ} (hid : id < chipCount p)
    (hwindow : windowAt p xs start
      = buildUpchirp (complexOps forward) id p.spreadingFactor (osFactor p) amplitude) :
    Dechirps p false (windowAt p (channel g (chipOffset p c) xs) start)
      (windowGain p g c start * amplitude)
      (stepping (chipCount p) (osFactor p) (chipCount p - id) (id + c)) := by
  have h := dechirps_of_turns (g := g) (c := c) (u := amplitude) (q := 0) hend hos hfits hid
    (upchirpTurns id p.spreadingFactor (osFactor p))
    (fun n hn => by rw [hwindow, getD_buildUpchirp hn]) fun n _ => ⟨0, by simp⟩
  rwa [cis_zero, mul_one] at h

variable (forward amplitude g c) in
omit hend in
/-- **A window `d` chips into the preamble** reads `d` on top of the carrier. -/
theorem dechirps_preamble (chips : List UInt16) {d m : ℕ} (hd : d < chipCount p)
    (hinside : (m * chipCount p + d) * osFactor p + samplesPerSymbol p
      ≤ p.preambleLen * samplesPerSymbol p) :
    ∃ u : ℂ, Complex.normSq u = amplitude ^ 2 ∧ Dechirps p false (windowAt p
      (channel g (chipOffset p c) (modulate (complexOps forward) amplitude p chips))
        ((m * chipCount p + d) * osFactor p))
      (windowGain p g c ((m * chipCount p + d) * osFactor p) * u)
      (stepping (chipCount p) (osFactor p) (chipCount p - d) (d + c)) := by
  set q := upchirpTurns 0 p.spreadingFactor (osFactor p) (d * osFactor p) with hq
  refine ⟨amplitude * cis q, ?_, ?_⟩
  · rw [Complex.normSq_mul, Complex.normSq_eq_norm_sq (cis _), norm_cis, Complex.normSq_ofReal]
    ring
  have hframe : (m * chipCount p + d) * osFactor p + samplesPerSymbol p
      ≤ (modulate (complexOps forward) amplitude p chips).length := by
    rw [length_modulate, frameSamples]
    omega
  refine dechirps_of_turns hframe hos hfits hd (fun n =>
    upchirpTurns 0 p.spreadingFactor (osFactor p) ((n + d * osFactor p) % samplesPerSymbol p)) ?_ ?_
  · intro n hn
    have hmod : ((m * chipCount p + d) * osFactor p + n) % samplesPerSymbol p
        = (n + d * osFactor p) % samplesPerSymbol p := by
      have hsum : (m * chipCount p + d) * osFactor p + n
          = n + d * osFactor p + samplesPerSymbol p * m := by
        rw [samplesPerSymbol]
        ring
      rw [hsum, Nat.add_mul_mod_self_left]
    rw [windowAt, Chunks.getD_drop_take _ _ _ _ _ hn, getD_preamble _ _ _ _ (by omega), hmod]
    rfl
  · intro n hn
    rw [chipCount_eq] at hd
    simp only [samplesPerSymbol_eq] at hn hfits ⊢
    exact upchirpTurns_shift hos hfits hd hn

omit hend hos hfits in
/-- A downchirp runs backwards. -/
theorem getD_downChirp {n : ℕ} (hn : n < samplesPerSymbol p) :
    (downChirp (complexOps forward) p amplitude).getD n 0
      = amplitude * cis (-upchirpTurns 0 p.spreadingFactor (osFactor p) n) := by
  have hup : (buildUpchirp (complexOps forward) 0 p.spreadingFactor (osFactor p) amplitude).getD
      n 0 = _ := getD_buildUpchirp hn
  rw [List.getD_eq_getElem _ _ (by simpa [samplesPerSymbol_eq] using hn)] at hup
  rw [List.getD_eq_getElem _ _ (by simpa using hn)]
  simp only [downChirp, upChirp, List.getElem_map, hup]
  show (starRingEnd ℂ) _ = _
  rw [map_mul, conj_cis, Complex.conj_ofReal]

variable (forward amplitude g c) in
omit hend in
/-- **A window `d` chips into the downchirps**, whole ones later perhaps, reads the carrier, less
`d`. -/
theorem dechirps_down (chips : List UInt16) {d m : ℕ} (hd : d < chipCount p)
    (hinside : (m * chipCount p + d) * osFactor p + samplesPerSymbol p
      ≤ 2 * samplesPerSymbol p + samplesPerSymbol p / 4) :
    ∃ u : ℂ, Complex.normSq u = amplitude ^ 2 ∧ Dechirps p true (windowAt p
      (channel g (chipOffset p c) (modulate (complexOps forward) amplitude p chips))
        ((p.preambleLen + 2) * samplesPerSymbol p + (m * chipCount p + d) * osFactor p))
      (windowGain p g c
        ((p.preambleLen + 2) * samplesPerSymbol p + (m * chipCount p + d) * osFactor p) * u)
      (fun j => (starRingEnd ℂ) (stepping (chipCount p) (osFactor p) (chipCount p - d) (d - c) j)) := by
  set start := (p.preambleLen + 2) * samplesPerSymbol p + (m * chipCount p + d) * osFactor p
    with hstart
  have hframe : start + samplesPerSymbol p
      ≤ (modulate (complexOps forward) amplitude p chips).length := by
    rw [length_modulate, frameSamples, hstart, add_mul]
    omega
  set q := upchirpTurns 0 p.spreadingFactor (osFactor p) (d * osFactor p) with hq
  refine ⟨amplitude * cis (-q), ?_, length_windowAt_channel hframe, ?_⟩
  · rw [Complex.normSq_mul, Complex.normSq_eq_norm_sq (cis _), norm_cis, Complex.normSq_ofReal]
    ring
  intro n hn
  have hsps := samplesPerSymbol_eq p
  have hmod : ((m * chipCount p + d) * osFactor p + n) % samplesPerSymbol p
      = (n + d * osFactor p) % (2 ^ p.spreadingFactor * osFactor p) := by
    have hsum : (m * chipCount p + d) * osFactor p + n
        = n + d * osFactor p + samplesPerSymbol p * m := by
      rw [samplesPerSymbol]
      ring
    rw [hsum, Nat.add_mul_mod_self_left, hsps]
  rw [chipCount_eq] at hd
  rw [hsps] at hfits
  have hn' : n < 2 ^ p.spreadingFactor * osFactor p := by rwa [← hsps]
  obtain ⟨k, hk⟩ := upchirpTurns_shift hos hfits hd hn'
  have hsub := upchirpTurns_sub hos hfits hd hn'
  have hsample : (windowAt p (modulate (complexOps forward) amplitude p chips) start).getD n 0
      = amplitude * cis (-(upchirpTurns d p.spreadingFactor (osFactor p) n + q)) := by
    have hphase : -(upchirpTurns d p.spreadingFactor (osFactor p) n + q + k)
        = -(upchirpTurns d p.spreadingFactor (osFactor p) n + q) + ((-k : ℤ) : ℚ) := by
      push_cast
      ring
    rw [windowAt, Chunks.getD_drop_take _ _ _ _ _ hn, hstart, add_assoc,
      getD_downs _ _ _ _ (by omega), getD_downChirp (Nat.mod_lt _ (by omega)), hmod, hk, hphase,
      cis_add_intCast]
  rw [getD_windowAt_channel hframe hn, hsample, refTurns, if_pos rfl]
  -- the chirp of `d` backwards, and the carrier
  have htone : cis (c * n / samplesPerSymbol p)
      * (cis (-upchirpTurns d p.spreadingFactor (osFactor p) n)
        * cis (upchirpTurns 0 p.spreadingFactor (osFactor p) n))
      = (starRingEnd ℂ) (stepping (chipCount p) (osFactor p) (chipCount p - d) (d - c) n) := by
    have hsplit : -(((d - c : ℤ) : ℚ) * n / samplesPerSymbol p)
        = c * n / samplesPerSymbol p + -(d * n / samplesPerSymbol p) := by
      push_cast
      ring
    have hdiff : -upchirpTurns d p.spreadingFactor (osFactor p) n
        + upchirpTurns 0 p.spreadingFactor (osFactor p) n
        = -(upchirpTurns d p.spreadingFactor (osFactor p) n
          - upchirpTurns 0 p.spreadingFactor (osFactor p) n) := by
      ring
    rw [stepping, map_mul, conj_cis, ← samplesPerSymbol, hsplit, cis_add (c * n / _), ← cis_add, hdiff,
      hsub, ← hsps, chipCount_eq]
    split_ifs
    · rw [add_zero, map_one, mul_one]
    · rw [conj_cis, neg_add, cis_add]
      ring
  rw [← htone, neg_add, cis_add]
  ring

end Windows

/-! ## Reading the frame -/

section Frame

variable {p : LoraParams} (hp : LegalParams p) (hos : 0 < osFactor p)
  (hfits : samplesPerSymbol p < 2 ^ 32)
  {forward : List ℂ → List ℂ} (hforward : ∀ x, forward x = dft x)
  {amplitude : ℝ} (hamp : amplitude ≠ 0) {g : ℂ} (hg : g ≠ 0) (c : ℤ)

/-- What arrives of a frame. -/
noncomputable def onAir (p : LoraParams) (forward : List ℂ → List ℂ) (amplitude : ℝ) (g : ℂ) (c : ℤ)
    (chips : List UInt16) : List ℂ :=
  channel g (chipOffset p c) (modulate (complexOps forward) amplitude p chips)

/-- The chip circle. -/
def onCircle (p : LoraParams) (x : ℤ) : ℕ := (x % chipCount p).toNat

include hp

theorem chipCount_ge : 128 ≤ chipCount p := by
  rw [chipCount_eq]
  exact Nat.pow_le_pow_right two_pos hp.sf_ge

omit hp in
theorem onCircle_spec (x : ℤ) :
    onCircle p x < chipCount p ∧ (onCircle p x : ℤ) = x % chipCount p ∧
      (chipCount p : ℤ) ∣ x - onCircle p x := by
  have hN : (0 : ℤ) < chipCount p := by exact_mod_cast chipCount_pos p
  have hcast : (onCircle p x : ℤ) = x % chipCount p := Int.toNat_of_nonneg (Int.emod_nonneg _ hN.ne')
  have hlt := Int.emod_lt_of_pos x hN
  refine ⟨by omega, hcast, ?_⟩
  rw [hcast]
  exact Int.dvd_self_sub_emod

theorem syncChip_lt : syncChip0 p < chipCount p ∧ syncChip1 p < chipCount p := by
  have h128 := chipCount_ge hp
  have hnibble : ∀ w : ℕ, (w &&& 0x0F) <<< 3 < 128 := by
    intro w
    have : w &&& 0x0F ≤ 0x0F := Nat.and_le_right
    rw [Nat.shiftLeft_eq]
    omega
  exact ⟨(hnibble _).trans_le h128, (hnibble _).trans_le h128⟩

include hos hforward hamp hg

/-- A window of the channel's output that dechirps to a centred tone. -/
theorem demod_onAir {down : Bool} {window : List ℂ} {start : ℕ} {u : ℂ} {x : ℕ → ℂ} {f : ℤ}
    (hu : Complex.normSq u = amplitude ^ 2) (h : Dechirps p down window (windowGain p g c start * u) x)
    (hx : Centred (chipCount p) (osFactor p) x f) :
    ((complexOps forward).demod p window down).chipInt = onCircle p f ∧
      ((complexOps forward).demod p window down).chip = onCircle p f := by
  have h128 := chipCount_ge hp
  have hu0 : u ≠ 0 := by
    intro h0
    rw [h0, map_zero] at hu
    exact hamp (pow_eq_zero_iff two_ne_zero |>.mp hu.symm)
  obtain ⟨hlt, -, hdvd⟩ := onCircle_spec (p := p) f
  obtain ⟨hchip, hcentre, -⟩ := demod_of_dechirps hforward h hos (by omega)
    (mul_ne_zero (windowGain_ne_zero hg) hu0) hx hlt hdvd
  exact ⟨hchip, hcentre⟩

include hfits

/-- One chirp behind the channel. -/
theorem demod_chirp {chips : List UInt16} {start id : ℕ} (hid : id < chipCount p)
    (hend : start + samplesPerSymbol p ≤ frameSamples p chips.length)
    (hwindow : windowAt p (modulate (complexOps forward) amplitude p chips) start
      = buildUpchirp (complexOps forward) id p.spreadingFactor (osFactor p) amplitude) :
    ((complexOps forward).demod p (windowAt p (onAir p forward amplitude g c chips) start)
      false).chipInt = onCircle p (id + c) := by
  have h128 := chipCount_ge hp
  rw [← length_modulate (complexOps forward) p amplitude] at hend
  refine (demod_onAir hp hos hforward hamp hg c ?_
    (dechirps_chirp hend hos hfits hid hwindow)
    (centred_stepping (chipCount_pos p) hos (by omega) (Nat.sub_le _ _) _)).1
  rw [Complex.normSq_ofReal, sq]

/-- A window inside the preamble, `d` chips late. -/
theorem demod_preamble (chips : List UInt16) {d m : ℕ} (hd : d < chipCount p)
    (hm : (m * chipCount p + d) * osFactor p + samplesPerSymbol p
      ≤ p.preambleLen * samplesPerSymbol p) :
    let read := (complexOps forward).demod p (windowAt p (onAir p forward amplitude g c chips)
      ((m * chipCount p + d) * osFactor p)) false
    read.chipInt = onCircle p (c + d) ∧ read.chip = onCircle p (c + d) := by
  have h128 := chipCount_ge hp
  obtain ⟨u, hu, h⟩ := dechirps_preamble forward amplitude g c hos hfits chips hd hm
  rw [add_comm c]
  exact demod_onAir hp hos hforward hamp hg c hu h
    (centred_stepping (chipCount_pos p) hos (by omega) (Nat.sub_le _ _) _)

/-- A window inside the downchirps, `d` chips late. -/
theorem demod_down (chips : List UInt16) {d m : ℕ} (hd : d < chipCount p)
    (hm : (m * chipCount p + d) * osFactor p + samplesPerSymbol p
      ≤ 2 * samplesPerSymbol p + samplesPerSymbol p / 4) :
    let read := (complexOps forward).demod p (windowAt p (onAir p forward amplitude g c chips)
      ((p.preambleLen + 2) * samplesPerSymbol p + (m * chipCount p + d) * osFactor p)) true
    read.chipInt = onCircle p (c - d) ∧ read.chip = onCircle p (c - d) := by
  have h128 := chipCount_ge hp
  obtain ⟨u, hu, h⟩ := dechirps_down forward amplitude g c hos hfits chips hd hm
  rw [← neg_sub]
  exact demod_onAir hp hos hforward hamp hg c hu h
    (centred_stepping (chipCount_pos p) hos (by omega) (Nat.sub_le _ _) _
      |>.conj (chipCount_pos p) hos)

/-- **Acquisition.**  With the receiver's grid `d` chips late and the carrier `c` chips off, every
window inside the preamble reads `c + d` and every window inside the two downchirps and the quarter
reads `c - d`, exactly; on the grid, the sync word reads its two chips above the carrier. -/
theorem onAir_acquisition (chips : List UInt16) {d : ℕ} (hd : d < chipCount p) :
    let read := fun start => (complexOps forward).demod p
      (windowAt p (onAir p forward amplitude g c chips) start)
    (∀ m, (m * chipCount p + d) * osFactor p + samplesPerSymbol p
        ≤ p.preambleLen * samplesPerSymbol p →
      (read ((m * chipCount p + d) * osFactor p) false).chipInt = onCircle p (c + d) ∧
        (read ((m * chipCount p + d) * osFactor p) false).chip = onCircle p (c + d)) ∧
      (∀ m, (m * chipCount p + d) * osFactor p + samplesPerSymbol p
          ≤ 2 * samplesPerSymbol p + samplesPerSymbol p / 4 →
        let start := (p.preambleLen + 2) * samplesPerSymbol p + (m * chipCount p + d) * osFactor p
        (read start true).chipInt = onCircle p (c - d) ∧
          (read start true).chip = onCircle p (c - d)) ∧
      (read (p.preambleLen * samplesPerSymbol p) false).chipInt = onCircle p (syncChip0 p + c) ∧
      (read ((p.preambleLen + 1) * samplesPerSymbol p) false).chipInt
        = onCircle p (syncChip1 p + c) := by
  intro read
  have hsync := windowAt_sync (complexOps forward) p amplitude chips
  have hlen : (p.preambleLen + 2) * samplesPerSymbol p ≤ frameSamples p chips.length := by
    rw [frameSamples, add_mul]
    omega
  refine ⟨fun m hm => demod_preamble hp hos hfits hforward hamp hg c chips hd hm,
    fun m hm => demod_down hp hos hfits hforward hamp hg c chips hd hm, ?_, ?_⟩
  · refine demod_chirp hp hos hfits hforward hamp hg c (syncChip_lt hp).1 ?_ hsync.1
    rw [add_mul] at hlen
    omega
  · refine demod_chirp hp hos hfits hforward hamp hg c (syncChip_lt hp).2 ?_ hsync.2
    rw [add_mul] at hlen ⊢
    omega

omit hp hos hfits hforward hamp hg in
theorem onAir_acquisition_sf7 :
    ((complexOps dft).demod { spreadingFactor := 7 } (windowAt { spreadingFactor := 7 }
      (onAir { spreadingFactor := 7 } dft 1 1 (-40) [0]) ((14 * 128 + 5) * 2)) false).chipInt = 93 ∧
    ((complexOps dft).demod { spreadingFactor := 7 } (windowAt { spreadingFactor := 7 }
      (onAir { spreadingFactor := 7 } dft 1 1 (-40) [0])
        (18 * (128 * 2) + (1 * 128 + 5) * 2)) true).chipInt = 83 := by
  have hos : osFactor { spreadingFactor := 7 } = 2 := by
    norm_num [osFactor]
    rfl
  have hN : chipCount { spreadingFactor := 7 } = 128 := rfl
  have h := onAir_acquisition (p := { spreadingFactor := 7 }) ⟨by decide, by decide, by decide,
    by decide⟩ (by rw [hos]; decide) (by rw [samplesPerSymbol, hos, hN]; decide) (fun _ => rfl)
    one_ne_zero one_ne_zero (-40) [0] (show 5 < 128 by decide)
  have hup := (h.1 14 (by rw [samplesPerSymbol, hos, hN]; decide)).1
  have hdown := (h.2.1 1 (by rw [samplesPerSymbol, hos, hN]; decide)).1
  rw [samplesPerSymbol, hos, hN] at hdown
  rw [hos, hN] at hup
  exact ⟨hup, hdown⟩

/-- The data symbols of a frame, read against what the preamble reads, are the chips sent. -/
theorem frameValues_onAir (payload : List UInt8) (hpre : 0 < p.preambleLen) :
    frameValues (complexOps forward) p (onAir p forward amplitude g c (encodeFrame p payload))
      (frameSymbolCount p payload.length) = encodeFrame p payload := by
  set air := onAir p forward amplitude g c (encodeFrame p payload) with hair
  set ref : ℤ := (((complexOps forward).demod p (windowAt p air 0) false).chipInt : ℤ) with href'
  have hN : (0 : ℤ) < chipCount p := by exact_mod_cast chipCount_pos p
  have hcount : (encodeFrame p payload).length = frameSymbolCount p payload.length := by
    rw [length_encodeFrame_blocks hp, frameSymbolCount_eq p (by have := hp.sf_ge; omega),
      length_nibbleStream]
  -- the reference is the carrier
  have href : ref = c % chipCount p := by
    have hzero : (0 * chipCount p + 0) * osFactor p + samplesPerSymbol p
        ≤ p.preambleLen * samplesPerSymbol p := by
      rw [zero_mul, add_zero, zero_mul, zero_add]
      exact Nat.le_mul_of_pos_left _ hpre
    obtain ⟨hread, -⟩ := demod_preamble hp hos hfits hforward hamp hg c (encodeFrame p payload)
      (chipCount_pos p) hzero
    rw [zero_mul, add_zero, zero_mul, Nat.cast_zero, add_zero] at hread
    show ((_ : ℕ) : ℤ) = _
    rw [hread, (onCircle_spec c).2.1]
  refine List.ext_getElem (by simp [frameValues, hcount]) fun k hk hk' => ?_
  have hchip : (encodeFrame p payload)[k].toNat < chipCount p := by
    rw [chipCount_eq]
    exact encodeFrame_lt hp payload _ (List.getElem_mem hk')
  have hend : dataStart p + k * samplesPerSymbol p + samplesPerSymbol p
      ≤ frameSamples p (encodeFrame p payload).length := by
    have : (k + 1) * samplesPerSymbol p ≤ (encodeFrame p payload).length * samplesPerSymbol p :=
      Nat.mul_le_mul_right _ hk'
    rw [Nat.succ_mul] at this
    rw [dataStart, frameSamples, add_mul]
    omega
  have hread := demod_chirp hp hos hfits hforward hamp hg c hchip hend
    (windowAt_data (complexOps forward) p amplitude (encodeFrame p payload) hk')
  simp only [frameValues, List.getElem_map, List.getElem_range, peakValue]
  rw [hread, ← href', (onCircle_spec _).2.1, href, Int.add_emod_right,
    Int.emod_emod_of_dvd _ (dvd_refl _), ← Int.sub_emod, add_sub_cancel_right,
    Int.emod_eq_of_lt (by omega) (by omega), Int.toNat_natCast, UInt16.ofNat_toNat]

/-- **Over the air and back.**  Whatever the gain and the carrier, the data symbols of a frame,
read against what the preamble reads, decode to the payload. -/
theorem onAir_roundTrip {payload : List UInt8} (hlen : 1 ≤ payload.length)
    (hlen' : payload.length ≤ 255) (hpre : 0 < p.preambleLen) :
    frameValues (complexOps forward) p (onAir p forward amplitude g c (encodeFrame p payload))
        (frameSymbolCount p payload.length) = encodeFrame p payload ∧
      decodeFrame p (frameValues (complexOps forward) p
        (onAir p forward amplitude g c (encodeFrame p payload))
        (frameSymbolCount p payload.length))
          = frameResult p payload (frameSymbolCount p payload.length) := by
  have hvalues := frameValues_onAir hp hos hfits hforward hamp hg c payload hpre
  have hcount : (encodeFrame p payload).length = frameSymbolCount p payload.length := by
    rw [length_encodeFrame_blocks hp, frameSymbolCount_eq p (by have := hp.sf_ge; omega),
      length_nibbleStream]
  refine ⟨hvalues, ?_⟩
  rw [hvalues, decodeFrame_encodeFrame hp hlen hlen', hcount]

omit hp hos hfits hforward hamp hg in
theorem onAir_roundTrip_sf7 :
    (decodeFrame { spreadingFactor := 7 } (frameValues (complexOps dft) { spreadingFactor := 7 }
      (onAir { spreadingFactor := 7 } dft 1 Complex.I 61
        (encodeFrame { spreadingFactor := 7 } [0xC0, 0xFF, 0xEE]))
      (frameSymbolCount { spreadingFactor := 7 } 3))).payload = [0xC0, 0xFF, 0xEE] := by
  have hos : osFactor { spreadingFactor := 7 } = 2 := by
    norm_num [osFactor]
    rfl
  have hN : chipCount { spreadingFactor := 7 } = 128 := rfl
  have h := (onAir_roundTrip (p := { spreadingFactor := 7 }) ⟨by decide, by decide, by decide,
    by decide⟩ (by rw [hos]; decide) (by rw [samplesPerSymbol, hos, hN]; decide) (fun _ => rfl)
    one_ne_zero Complex.I_ne_zero 61
    (show 1 ≤ ([0xC0, 0xFF, 0xEE] : List UInt8).length by decide) (by decide) (by decide)).2
  exact congrArg DecodeResult.payload h

/-- **A data symbol read coherently.**  At two samples a chip both folds of every data symbol peak
on its chip; the coherent one has all the power there, whatever the chirp's fold splits it into,
and the two segments it adds are in phase. -/
theorem onAir_coherent (h2 : osFactor p = 2) {chips : List UInt16} {k : ℕ} (hk : k < chips.length)
    (hchip : chips[k].toNat < chipCount p) :
    let id := chips[k].toNat
    let power := Complex.normSq g * amplitude ^ 2
    let peaks := (complexOps forward).demodData p (windowAt p (onAir p forward amplitude g c chips)
      (dataStart p + k * samplesPerSymbol p)) c 1
    let nc := peaks.1
    let co := peaks.2
    nc.chipInt = onCircle p (id + c) ∧ co.chipInt = onCircle p (id + c) ∧
      nc.magnitude = power * (4 * ((chipCount p - id : ℝ) ^ 2 + id ^ 2)) ∧
      co.magnitude = power * (2 * chipCount p) ^ 2 ∧ co.mag2 = 0 ∧ co.totalPower = co.magnitude ∧
      co.seg1 * (starRingEnd ℂ) co.seg2 = (power * (4 * ((chipCount p - id) * id)) : ℝ) := by
  intro id power peaks nc co
  have h128 := chipCount_ge hp
  have hend : dataStart p + k * samplesPerSymbol p + samplesPerSymbol p
      ≤ (modulate (complexOps forward) amplitude p chips).length := by
    have : (k + 1) * samplesPerSymbol p ≤ chips.length * samplesPerSymbol p :=
      Nat.mul_le_mul_right _ hk
    rw [Nat.succ_mul] at this
    rw [length_modulate, dataStart, frameSamples, add_mul]
    omega
  have hamp' : (amplitude : ℂ) ≠ 0 := Complex.ofReal_ne_zero.mpr hamp
  obtain ⟨hlt, -, hdvd⟩ := onCircle_spec (p := p) (id + c)
  have hpower : Complex.normSq (windowGain p g c (dataStart p + k * samplesPerSymbol p) * amplitude)
      = power := by
    rw [Complex.normSq_mul, normSq_windowGain, Complex.normSq_ofReal, ← sq]
  have hrest : (chipCount p : ℝ) - (chipCount p - id : ℕ) = id := by
    rw [Nat.cast_sub hchip.le, sub_sub_cancel]
  have hfirst : ((chipCount p - id : ℕ) : ℝ) = chipCount p - id := Nat.cast_sub hchip.le
  have h := demodData_of_dechirps hforward (dechirps_chirp hend hos hfits hchip
    (windowAt_data (complexOps forward) p amplitude chips hk)) hos h2 (Nat.sub_le _ _) (by omega)
    (mul_ne_zero (windowGain_ne_zero hg) hamp') (show c ≤ (id : ℤ) + c by omega) (by omega) hlt hdvd
  obtain ⟨hnc, -, hncmag, hco, hcomag, hmag2, htotal, hseg1, hseg2, hco1, hco2⟩ := h
  rw [hpower] at hncmag hcomag
  rw [hrest, hfirst] at hncmag
  refine ⟨hnc, hco, hncmag, hcomag, hmag2, htotal, ?_⟩
  have hz : ∀ z : ℂ, Complex.normSq z = power →
      z * (2 * (chipCount p - id : ℕ))
          * (starRingEnd ℂ) (z * (2 * (chipCount p - (chipCount p - id : ℕ))))
        = (power * (4 * ((chipCount p - id) * id)) : ℝ) := by
    intro z hz
    have hback : (chipCount p : ℂ) - (chipCount p - id : ℕ) = (id : ℝ) := by
      rw [← hrest]
      push_cast
      rfl
    have hforth : ((chipCount p - id : ℕ) : ℂ) = (chipCount p - id : ℝ) := by
      rw [← hfirst]
      push_cast
      rfl
    rw [hback, hforth, map_mul, map_mul, Complex.conj_ofReal, map_ofNat, ← hz]
    push_cast
    rw [Complex.normSq_eq_conj_mul_self]
    ring
  exact (congrArg₂ (fun s1 s2 => s1 * (starRingEnd ℂ) s2) (hco1.trans hseg1)
    (hco2.trans hseg2)).trans (hz _ hpower)

omit hp hos hfits hforward hamp hg in
theorem onAir_coherent_sf7 :
    ((complexOps dft).demodData { spreadingFactor := 7 } (windowAt { spreadingFactor := 7 }
      (onAir { spreadingFactor := 7 } dft 1 1 3 [127])
      (dataStart { spreadingFactor := 7 })) 3 1).2.chipInt = 2 := by
  have hos : osFactor { spreadingFactor := 7 } = 2 := by
    norm_num [osFactor]
    rfl
  have hN : chipCount { spreadingFactor := 7 } = 128 := rfl
  have h := (onAir_coherent (p := { spreadingFactor := 7 }) ⟨by decide, by decide, by decide,
    by decide⟩ (by rw [hos]; decide) (by rw [samplesPerSymbol, hos, hN]; decide) (fun _ => rfl)
    one_ne_zero one_ne_zero 3 hos (show 0 < ([127] : List UInt16).length by decide) (by decide)).2.1
  rw [zero_mul, add_zero] at h
  exact h

end Frame
