/-
# The symbol demodulator (`src/lora/symbol_demod.cpp`)

Dechirp, transform, fold the images of the oversampled spectrum onto the chips, and pick the
peak, with a parabola for what lies between the bins.  On complex samples, a window that
dechirps to a tone of whole periods reads exactly its chip, wherever the tone steps down
(`demod_of_dechirps`); at two samples a chip the coherent fold has all its power there and no
second peak (`demodData_of_dechirps`).
-/
import QuadrfMesh.Lib.Chunks
import QuadrfMesh.Lora.Modulator

open Finset Fourier

/-! ## Peaks -/

/-- `struct ChipPeak` over any samples; `ChipPeak` is this one at exact rationals. -/
structure ChipPeakOf (S P : Type) where
  chip : P
  chipInt : ℕ
  magnitude : P
  noise : P
  chip2Int : ℕ
  mag2 : P
  lobePower : P
  totalPower : P
  seg1 : S
  seg2 : S

section Peak

variable {S P : Type} [Field P] [LinearOrder P]

/-- The search loops of `peakOf`: the bin that first beats all before it, among those `ok`. -/
def strongest (n : ℕ) (bins : ℕ → P) (ok : ℕ → Bool) (start : ℕ) : ℕ × P :=
  (List.range n).foldl (fun best k =>
    if ok k && decide (best.2 < bins k) then (k, bins k) else best) (start, 0)

/-- `peakOf`. -/
def peakOf [Zero S] (n : ℕ) (folded : List P) : ChipPeakOf S P :=
  let bins := fun k => folded.getD k 0
  let (peak, peakP) := strongest n bins (fun _ => true) 0
  let tot := ((List.range n).map bins).sum
  let lobe := ((List.range 5).map fun d => bins ((peak + n - 2 + d) % n)).sum
  let outside := fun k =>
    let d := if peak ≤ k then k - peak else peak - k
    decide (2 < min d (n - d))
  let (peak2, peak2P) := strongest n bins outside peak
  let a := bins ((peak + n - 1) % n)
  let b := bins peak
  let c := bins ((peak + 1) % n)
  let denom := a - (2 : ℕ) * b + c
  let delta := if 1 / (10 ^ 20 : ℕ) < |denom| then 1 / (2 : ℕ) * (a - c) / denom else 0
  { chip := peak + delta
    chipInt := peak
    magnitude := peakP
    noise := (folded.mergeSort fun x y => decide (x ≤ y)).getD (folded.length / 2) 0
    chip2Int := peak2
    mag2 := peak2P
    lobePower := lobe
    totalPower := tot
    seg1 := 0
    seg2 := 0 }

/-- The strongest bin is found, if it is above all others and above zero. -/
theorem strongest_eq {n p : ℕ} (bins : ℕ → P) (ok : ℕ → Bool) (start : ℕ) (hp : p < n)
    (hok : ok p = true) (hpos : 0 < bins p)
    (hless : ∀ k < n, k ≠ p → ok k = true → bins k < bins p) :
    strongest n bins ok start = (p, bins p) := by
  have hscan : ∀ m ≤ n, if m ≤ p then (strongest m bins ok start).2 < bins p
      else strongest m bins ok start = (p, bins p) := by
    intro m hm
    induction m with
    | zero => exact hpos
    | succ m ih =>
        have hstep : strongest (m + 1) bins ok start
            = if ok m && decide ((strongest m bins ok start).2 < bins m) then (m, bins m)
              else strongest m bins ok start := by
          rw [strongest, List.range_succ, List.foldl_append, List.foldl_cons, List.foldl_nil]
          rfl
        have ih := ih (by omega)
        rw [hstep]
        rcases lt_trichotomy m p with hbefore | rfl | hafter
        · -- below the peak, whatever leads is weaker
          rw [if_pos hbefore.le] at ih
          rw [if_pos (show m + 1 ≤ p from hbefore)]
          split_ifs with htake
          · exact hless m (by omega) hbefore.ne (Bool.and_eq_true_iff.mp htake).1
          · exact ih
        · rw [if_pos le_rfl] at ih
          rw [if_neg (show ¬ m + 1 ≤ m by omega), hok, decide_eq_true ih]
          rfl
        · rw [if_neg (show ¬ m ≤ p by omega)] at ih
          rw [if_neg (show ¬ m + 1 ≤ p by omega), ih]
          split_ifs with htake
          · obtain ⟨hokm, hbeats⟩ := Bool.and_eq_true_iff.mp htake
            exact absurd (of_decide_eq_true hbeats) (hless m (by omega) hafter.ne' hokm).not_gt
          · rfl
  have h := hscan n le_rfl
  rwa [if_neg (by omega)] at h

/-- Where nothing is above zero, nothing is found. -/
theorem strongest_eq_start (n : ℕ) (bins : ℕ → P) (ok : ℕ → Bool) (start : ℕ)
    (hnone : ∀ k < n, ok k = true → bins k ≤ 0) : strongest n bins ok start = (start, 0) := by
  induction n with
  | zero => rfl
  | succ n ih =>
      have hstep : strongest (n + 1) bins ok start
          = if ok n && decide ((strongest n bins ok start).2 < bins n) then (n, bins n)
            else strongest n bins ok start := by
        rw [strongest, List.range_succ, List.foldl_append, List.foldl_cons, List.foldl_nil]
        rfl
      rw [hstep, ih fun k hk => hnone k (by omega)]
      refine if_neg fun htake => ?_
      obtain ⟨hok, hbeats⟩ := Bool.and_eq_true_iff.mp htake
      exact absurd (of_decide_eq_true hbeats) (hnone n (by omega) hok).not_gt

variable [Zero S] {n p : ℕ} {folded : List P} (hp : p < n) (hpos : 0 < folded.getD p 0)
  (hless : ∀ k < n, k ≠ p → folded.getD k 0 < folded.getD p 0)
include hp hpos hless

/-- The peak and its power. -/
theorem peakOf_peak :
    (peakOf n folded : ChipPeakOf S P).chipInt = p ∧
      (peakOf n folded : ChipPeakOf S P).magnitude = folded.getD p 0 := by
  have hfound := strongest_eq (fun k => folded.getD k 0) (fun _ => true) 0 hp rfl hpos
    fun k hk hne _ => hless k hk hne
  simp only [peakOf, hfound]
  exact ⟨trivial, trivial⟩

/-- **Between equal neighbours** the parabola adds nothing. -/
theorem peakOf_chip
    (hsides : folded.getD ((p + n - 1) % n) 0 = folded.getD ((p + 1) % n) 0) :
    (peakOf n folded : ChipPeakOf S P).chip = p := by
  have hfound := strongest_eq (fun k => folded.getD k 0) (fun _ => true) 0 hp rfl hpos
    fun k hk hne _ => hless k hk hne
  simp only [peakOf, hfound, hsides, sub_self, mul_zero, zero_div, ite_self, add_zero]

omit hpos hless in
/-- **A lone peak** is all of the power, and there is no second. -/
theorem peakOf_alone [IsStrictOrderedRing P] (hpos : 0 < folded.getD p 0)
    (halone : ∀ k < n, k ≠ p → folded.getD k 0 = 0) :
    (peakOf n folded : ChipPeakOf S P).mag2 = 0 ∧
      (peakOf n folded : ChipPeakOf S P).totalPower = folded.getD p 0 := by
  have hfound := strongest_eq (fun k => folded.getD k 0) (fun _ => true) 0 hp rfl hpos
    fun k hk hne _ => (halone k hk hne).trans_lt hpos
  have hnone := strongest_eq_start n (fun k => folded.getD k 0)
    (fun k => decide (2 < min (if p ≤ k then k - p else p - k)
      (n - if p ≤ k then k - p else p - k))) p fun k hk hok => by
        refine (halone k hk ?_).le
        rintro rfl
        simp at hok
  have htotal : ((List.range n).map fun k => folded.getD k 0).sum = folded.getD p 0 := by
    rw [← List.sum_toFinset _ List.nodup_range, List.toFinset_range]
    exact sum_eq_single p (fun k hk hne => halone k (mem_range.mp hk) hne)
      fun hmem => absurd (mem_range.mpr hp) hmem
  simp only [peakOf, hfound]
  exact ⟨congrArg Prod.snd hnone, htotal⟩

end Peak

/-! ## The demodulator -/

section Demod

variable {S P : Type} [Field P] [LinearOrder P] [Zero S] [Add S] [Mul S]

/-- The dechirped spectrum of a window. -/
def dechirpedSpectrum (ops : SampleOps S P) (p : LoraParams) (window : List S) (downchirpRef : Bool) :
    List S :=
  let up := buildUpchirp ops 0 p.spreadingFactor (osFactor p) 1
  let ref := if downchirpRef then up else up.map ops.conj
  ops.forward (List.zipWith (· * ·) window ref)

/-- The power fold of all images. -/
def foldedPower (ops : SampleOps S P) (p : LoraParams) (spec : List S) : List P :=
  (List.range (chipCount p)).map fun k =>
    ((List.range (samplesPerSymbol p / chipCount p)).map fun im =>
      ops.norm (spec.getD (k + im * chipCount p) 0)).sum

/-- `SymbolDemod::demod`. -/
def SampleOps.demod (ops : SampleOps S P) (p : LoraParams) (window : List S)
    (downchirpRef : Bool) : ChipPeakOf S P :=
  peakOf (chipCount p) (foldedPower ops p (dechirpedSpectrum ops p window downchirpRef))

/-- `b1`: the unfolded bin of the first segment of folded bin `j`. -/
def firstBin (p : LoraParams) (refPhys : ℤ) (j : ℕ) : ℕ :=
  let n : ℤ := chipCount p
  let sps : ℤ := samplesPerSymbol p
  let v := ((j - refPhys) % n + n) % n
  (((v + refPhys) % sps + sps) % sps).toNat

/-- `b2`, one chip rate below. -/
def secondBin (p : LoraParams) (b1 : ℕ) : ℕ :=
  (b1 + samplesPerSymbol p - chipCount p) % samplesPerSymbol p

/-- The coherent fold. -/
def foldedCoherent (ops : SampleOps S P) (p : LoraParams) (refPhys : ℤ) (rot : S)
    (spec : List S) : List P :=
  (List.range (chipCount p)).map fun j =>
    let b1 := firstBin p refPhys j
    ops.norm (spec.getD b1 0 + rot * spec.getD (secondBin p b1) 0)

/-- `SymbolDemod::demodData`: the peaks of both folds, with the segments at each. -/
def SampleOps.demodData (ops : SampleOps S P) (p : LoraParams) (window : List S) (refPhys : ℤ)
    (rot : S) : ChipPeakOf S P × ChipPeakOf S P :=
  let spec := dechirpedSpectrum ops p window false
  let segments := fun pk : ChipPeakOf S P =>
    let b1 := firstBin p refPhys pk.chipInt
    { pk with seg1 := spec.getD b1 0, seg2 := spec.getD (secondBin p b1) 0 }
  (segments (peakOf (chipCount p) (foldedPower ops p spec)),
    segments (peakOf (chipCount p) (foldedCoherent ops p refPhys rot spec)))

end Demod

/-! ## Tones -/

/-- Complex samples, over a transform. -/
noncomputable def complexOps (forward : List ℂ → List ℂ) : SampleOps ℂ ℝ where
  polar a q := a * cis q
  conj := starRingEnd ℂ
  norm := Complex.normSq
  forward := forward

/-- The phase `demod` takes off sample `n`. -/
def refTurns (p : LoraParams) (downchirpRef : Bool) (n : ℕ) : ℚ :=
  let up := upchirpTurns 0 p.spreadingFactor (osFactor p) n
  if downchirpRef then up else -up

/-- A window that dechirps to the tone `x`, times `z`. -/
structure Dechirps (p : LoraParams) (downchirpRef : Bool) (window : List ℂ) (z : ℂ)
    (x : ℕ → ℂ) : Prop where
  length_eq : window.length = samplesPerSymbol p
  sample : ∀ n < samplesPerSymbol p, window.getD n 0 * cis (refTurns p downchirpRef n) = z * x n

section Tone

variable {p : LoraParams} {forward : List ℂ → List ℂ} {downchirpRef : Bool} {window : List ℂ}
  {z : ℂ} {x : ℕ → ℂ} (hforward : ∀ x, forward x = dft x) (h : Dechirps p downchirpRef window z x)
include hforward h

/-- The spectrum of the window is that of the tone. -/
theorem getD_dechirpedSpectrum {k : ℕ} (hk : k < samplesPerSymbol p) :
    (dechirpedSpectrum (complexOps forward) p window downchirpRef).getD k 0
      = z * bin (samplesPerSymbol p) x k := by
  set ref := (if downchirpRef then
    buildUpchirp (complexOps forward) 0 p.spreadingFactor (osFactor p) 1 else
    (buildUpchirp (complexOps forward) 0 p.spreadingFactor (osFactor p) 1).map
      (complexOps forward).conj) with href
  have hreflen : ref.length = samplesPerSymbol p := by
    rw [href, samplesPerSymbol_eq]
    split_ifs <;> simp
  have href_at : ∀ n < samplesPerSymbol p, ref.getD n 0 = cis (refTurns p downchirpRef n) := by
    intro n hn
    rw [samplesPerSymbol_eq] at hn
    rw [href, refTurns]
    cases downchirpRef <;>
      simp [buildUpchirp, complexOps, Nat.one_shiftLeft, List.getD_eq_getElem?_getD, hn, conj_cis]
  have hlen : (List.zipWith (· * ·) window ref).length = samplesPerSymbol p := by
    rw [List.length_zipWith, h.length_eq, hreflen, min_self]
  have hsample : ∀ n < samplesPerSymbol p, (List.zipWith (· * ·) window ref).getD n 0
      = z * x n := by
    intro n hn
    rw [← h.sample n hn, ← href_at n hn, List.getD_eq_getElem _ _ (by rw [hlen]; exact hn),
      List.getD_eq_getElem _ _ (by rw [h.length_eq]; exact hn),
      List.getD_eq_getElem _ _ (by rw [hreflen]; exact hn), List.getElem_zipWith]
  show (forward (List.zipWith (· * ·) window ref)).getD k 0 = _
  rw [hforward, getD_dft (by rw [hlen]; exact hk), hlen, bin_congr hsample, bin_const_mul]

theorem getD_foldedPower {k : ℕ} (hk : k < chipCount p) :
    (foldedPower (complexOps forward) p
      (dechirpedSpectrum (complexOps forward) p window downchirpRef)).getD k 0
        = Complex.normSq z * foldPower (chipCount p) (osFactor p) x k := by
  have hN := chipCount_pos p
  have himage : ∀ im < osFactor p, k + im * chipCount p < samplesPerSymbol p := by
    intro im him
    calc k + im * chipCount p < chipCount p + im * chipCount p := by omega
      _ = (im + 1) * chipCount p := by ring
      _ ≤ osFactor p * chipCount p := Nat.mul_le_mul_right _ him
      _ = samplesPerSymbol p := Nat.mul_comm _ _
  have hdiv : samplesPerSymbol p / chipCount p = osFactor p := Nat.mul_div_cancel_left _ hN
  rw [foldedPower, Chunks.getD_map_range _ _ _ _ hk, hdiv, ← foldPower_const_mul, foldPower,
    ← List.sum_toFinset _ List.nodup_range, List.toFinset_range]
  refine sum_congr rfl fun im him => ?_
  rw [getD_dechirpedSpectrum hforward h (himage im (mem_range.mp him)), bin_const_mul]
  push_cast
  rfl

variable {f : ℤ} {c : ℕ} (hos : 0 < osFactor p) (h2N : 2 ≤ chipCount p) (hz : z ≠ 0)
  (hx : Centred (chipCount p) (osFactor p) x f) (hc : c < chipCount p)
  (hcf : (chipCount p : ℤ) ∣ f - c)
include h2N hz hx hc hcf

/-- The tone's chip leads the power fold. -/
theorem foldedPower_peak :
    let folded := foldedPower (complexOps forward) p
      (dechirpedSpectrum (complexOps forward) p window downchirpRef)
    0 < folded.getD c 0 ∧ ∀ k < chipCount p, k ≠ c → folded.getD k 0 < folded.getD c 0 := by
  intro folded
  have hN := chipCount_pos p
  have hzpos : 0 < Complex.normSq z := Complex.normSq_pos.mpr hz
  have hless : ∀ k < chipCount p, k ≠ c → folded.getD k 0 < folded.getD c 0 := by
    intro k hk hne
    rw [getD_foldedPower hforward h hk, getD_foldedPower hforward h hc]
    refine mul_lt_mul_of_pos_left (hx.lt _ _ hcf fun hkf => hne ?_) hzpos
    have hdvd : (chipCount p : ℤ) ∣ k - c := by
      have := dvd_sub hcf hkf
      rwa [sub_sub_sub_cancel_left] at this
    have := Int.eq_zero_of_abs_lt_dvd hdvd (abs_lt.mpr ⟨by omega, by omega⟩)
    omega
  refine ⟨?_, hless⟩
  -- some other bin is at least zero
  obtain ⟨k, hk, hne⟩ : ∃ k < chipCount p, k ≠ c := by
    rcases Nat.eq_zero_or_pos c with rfl | hcpos
    · exact ⟨1, by omega, one_ne_zero⟩
    · exact ⟨0, hN, hcpos.ne⟩
  refine lt_of_le_of_lt ?_ (hless k hk hne)
  rw [getD_foldedPower hforward h hk]
  exact mul_nonneg hzpos.le (sum_nonneg fun im _ => Complex.normSq_nonneg _)

include hos

/-- **A tone reads its chip**: the peak is at the chip, on the chip, and as strong as the tone. -/
theorem demod_of_dechirps :
    let pk := (complexOps forward).demod p window downchirpRef
    pk.chipInt = c ∧ pk.chip = c ∧
      pk.magnitude = Complex.normSq z * foldPower (chipCount p) (osFactor p) x f := by
  intro pk
  have hN := chipCount_pos p
  obtain ⟨hpos, hless⟩ := foldedPower_peak hforward h h2N hz hx hc hcf
  have hpeak := peakOf_peak (S := ℂ) hc hpos hless
  refine ⟨hpeak.1, ?_, hpeak.2.trans ?_⟩
  · refine peakOf_chip hc hpos hless ?_
    rw [getD_foldedPower hforward h (Nat.mod_lt _ hN), getD_foldedPower hforward h (Nat.mod_lt _ hN)]
    congr 1
    -- both neighbours, next to the tone itself
    calc foldPower _ _ _ (((c + chipCount p - 1) % chipCount p : ℕ) : ℤ)
        = foldPower (chipCount p) (osFactor p) x (f - 1) := by
          refine foldPower_natMod hN hos _ ?_
          rw [Nat.cast_sub (by omega)]
          push_cast
          have heq : (c : ℤ) + chipCount p - 1 - (f - 1) = chipCount p - (f - c) := by ring
          rw [heq]
          exact dvd_sub (dvd_refl _) hcf
      _ = foldPower (chipCount p) (osFactor p) x (f + 1) := hx.sides
      _ = foldPower _ _ _ (((c + 1) % chipCount p : ℕ) : ℤ) := by
          refine (foldPower_natMod hN hos _ ?_).symm
          push_cast
          rw [add_sub_add_right_eq_sub]
          exact dvd_sub_comm.mp hcf
  · rw [getD_foldedPower hforward h hc]
    congr 1
    exact foldPower_congr_mod hN hos _ hcf

end Tone

/-! ## The coherent fold -/

section Coherent

variable {p : LoraParams}

theorem firstBin_eq (refPhys : ℤ) (j : ℕ) (hos : 0 < osFactor p) :
    (firstBin p refPhys j : ℤ)
      = ((j - refPhys) % chipCount p + refPhys) % samplesPerSymbol p := by
  have hsps : (0 : ℤ) < samplesPerSymbol p := by
    exact_mod_cast Nat.mul_pos (chipCount_pos p) hos
  rw [firstBin, Int.toNat_of_nonneg (Int.emod_nonneg _ hsps.ne'), Int.add_emod_right,
    Int.emod_emod_of_dvd _ (dvd_refl _), Int.add_emod_right, Int.emod_emod_of_dvd _ (dvd_refl _)]

theorem firstBin_lt (refPhys : ℤ) (j : ℕ) (hos : 0 < osFactor p) :
    firstBin p refPhys j < samplesPerSymbol p := by
  have hsps : (0 : ℤ) < samplesPerSymbol p := by
    exact_mod_cast Nat.mul_pos (chipCount_pos p) hos
  have := Int.emod_lt_of_pos ((j - refPhys) % chipCount p + refPhys : ℤ) hsps
  rw [← firstBin_eq refPhys j hos] at this
  exact_mod_cast this

theorem secondBin_eq {b1 : ℕ} (hos : 0 < osFactor p) :
    (secondBin p b1 : ℤ) = (b1 - chipCount p : ℤ) % samplesPerSymbol p := by
  have hle : chipCount p ≤ samplesPerSymbol p := Nat.le_mul_of_pos_right _ hos
  rw [secondBin, Int.natCast_mod, Nat.cast_sub (by omega)]
  push_cast
  rw [add_sub_right_comm, Int.add_emod_right]

variable {forward : List ℂ → List ℂ} {window : List ℂ} {z : ℂ} {a : ℕ} {f : ℤ}
  (hforward : ∀ x, forward x = dft x)
  (h : Dechirps p false window z (stepping (chipCount p) (osFactor p) a f))
  (hos : 0 < osFactor p)
include hforward h hos

/-- The two segments of a folded bin. -/
theorem getD_segments (refPhys : ℤ) (j : ℕ) :
    let spec := dechirpedSpectrum (complexOps forward) p window false
    let tone := stepping (chipCount p) (osFactor p) a f
    let w := (j - refPhys) % chipCount p + refPhys
    spec.getD (firstBin p refPhys j) 0 = z * bin (samplesPerSymbol p) tone w ∧
      spec.getD (secondBin p (firstBin p refPhys j)) 0
        = z * bin (samplesPerSymbol p) tone (w - chipCount p) := by
  intro spec tone w
  have hsps : 0 < samplesPerSymbol p := Nat.mul_pos (chipCount_pos p) hos
  constructor
  · rw [getD_dechirpedSpectrum hforward h (firstBin_lt refPhys j hos), firstBin_eq refPhys j hos,
      bin_emod hsps]
  · have hlt : secondBin p (firstBin p refPhys j) < samplesPerSymbol p := Nat.mod_lt _ hsps
    rw [getD_dechirpedSpectrum hforward h hlt, secondBin_eq hos, bin_emod hsps,
      firstBin_eq refPhys j hos]
    congr 1
    rw [← bin_emod hsps, Int.emod_sub_emod, bin_emod hsps]

variable (h2 : osFactor p = 2) (ha : a ≤ chipCount p)
include h2 ha

/-- At two samples a chip the coherent fold is the tone's power on its chip, and nothing else. -/
theorem getD_foldedCoherent (refPhys : ℤ) {j : ℕ} (hj : j < chipCount p) :
    (foldedCoherent (complexOps forward) p refPhys 1
      (dechirpedSpectrum (complexOps forward) p window false)).getD j 0
        = if (chipCount p : ℤ) ∣ f - j then Complex.normSq z * (2 * chipCount p) ^ 2 else 0 := by
  have hN := chipCount_pos p
  set w : ℤ := (j - refPhys) % chipCount p + refPhys with hw
  set tone := stepping (chipCount p) (osFactor p) a f with htone
  obtain ⟨hseg1, hseg2⟩ := getD_segments hforward h hos refPhys j
  have hsps : samplesPerSymbol p = chipCount p * 2 := by rw [samplesPerSymbol, h2]
  -- the second segment is the other image
  have himage : bin (samplesPerSymbol p) tone (w - chipCount p)
      = bin (chipCount p * 2) tone (w + (1 : ℕ) * chipCount p) := by
    rw [hsps, ← bin_add_mul (Nat.mul_pos hN two_pos) tone (w - chipCount p) 1]
    congr 1
    push_cast
    ring
  have hboth : bin (samplesPerSymbol p) tone w + bin (samplesPerSymbol p) tone (w - chipCount p)
      = 2 * if (chipCount p : ℤ) ∣ f - w then (chipCount p : ℂ) else 0 := by
    have hsum := sum_images hN two_pos tone w
    have hphase : phaseBin (chipCount p) 2 tone w 0
        = if (chipCount p : ℤ) ∣ f - w then (chipCount p : ℂ) else 0 := by
      rw [htone, h2, phaseBin_stepping_zero hN two_pos ha]
    rw [sum_range, Fin.sum_univ_two, hphase] at hsum
    rw [himage, hsps]
    simpa using hsum
  have hdvd : (chipCount p : ℤ) ∣ f - w ↔ (chipCount p : ℤ) ∣ f - j := by
    have hwj : f - w = f - j + chipCount p * ((j - refPhys) / chipCount p) := by
      rw [hw, Int.emod_def]
      ring
    rw [hwj, dvd_add_left (Dvd.intro _ rfl)]
  rw [foldedCoherent, Chunks.getD_map_range _ _ _ _ hj]
  show Complex.normSq (_ + 1 * _) = _
  rw [hseg1, hseg2, one_mul, ← mul_add, hboth, Complex.normSq_mul]
  by_cases hd : (chipCount p : ℤ) ∣ f - j
  · have hreal : (2 * (chipCount p : ℂ)) = ((2 * chipCount p : ℝ) : ℂ) := by push_cast; rfl
    rw [if_pos (hdvd.mpr hd), if_pos hd, hreal, Complex.normSq_ofReal, sq]
  · rw [if_neg fun hd' => hd (hdvd.mp hd'), if_neg hd]
    simp

/-- **A data symbol through both folds.**  Both peak on the chip sent; the coherent fold has all
its power there, and the segments are the two parts of the chirp, in phase. -/
theorem demodData_of_dechirps (h4 : 4 ≤ chipCount p) (hz : z ≠ 0) {refPhys : ℤ}
    (href : refPhys ≤ f) (href' : f < refPhys + chipCount p) {c : ℕ} (hc : c < chipCount p)
    (hcf : (chipCount p : ℤ) ∣ f - c) :
    let peaks := (complexOps forward).demodData p window refPhys 1
    let nc := peaks.1
    let co := peaks.2
    nc.chipInt = c ∧ nc.chip = c ∧
      nc.magnitude = Complex.normSq z * (4 * (a ^ 2 + (chipCount p - a : ℝ) ^ 2)) ∧
      co.chipInt = c ∧ co.magnitude = Complex.normSq z * (2 * chipCount p) ^ 2 ∧
      co.mag2 = 0 ∧ co.totalPower = co.magnitude ∧
      nc.seg1 = z * (2 * a) ∧ nc.seg2 = z * (2 * (chipCount p - a)) ∧
      co.seg1 = nc.seg1 ∧ co.seg2 = nc.seg2 := by
  intro peaks nc co
  have hN := chipCount_pos p
  have hzpos : 0 < Complex.normSq z := Complex.normSq_pos.mpr hz
  obtain ⟨hchip, hcentre, hmag⟩ := demod_of_dechirps hforward h hos (by omega) hz
    (centred_stepping hN hos h4 ha f) hc hcf
  -- the coherent fold
  set spec := dechirpedSpectrum (complexOps forward) p window false with hspec
  set coherent := foldedCoherent (complexOps forward) p refPhys 1 spec with hcoherent
  have hat := fun j hj => getD_foldedCoherent hforward h hos h2 ha refPhys (j := j) hj
  have hpeak : coherent.getD c 0 = Complex.normSq z * (2 * chipCount p) ^ 2 := by
    rw [hcoherent, hat c hc, if_pos hcf]
  have hpos : 0 < coherent.getD c 0 := by
    rw [hpeak]
    positivity
  have halone : ∀ k < chipCount p, k ≠ c → coherent.getD k 0 = 0 := by
    intro k hk hne
    rw [hcoherent, hat k hk]
    refine if_neg fun hkf => hne ?_
    have hdvd := dvd_sub hcf hkf
    rw [sub_sub_sub_cancel_left] at hdvd
    have := Int.eq_zero_of_abs_lt_dvd hdvd (abs_lt.mpr ⟨by omega, by omega⟩)
    omega
  obtain ⟨hcochip, hcomag⟩ := peakOf_peak (S := ℂ) hc hpos fun k hk hne =>
    (halone k hk hne).trans_lt hpos
  obtain ⟨hcomag2, hcototal⟩ := peakOf_alone (S := ℂ) hc hpos halone
  -- the segments of the tone's own bin
  have hown : (c - refPhys) % chipCount p + refPhys = f := by
    obtain ⟨t, ht⟩ := hcf
    have hc' : (c : ℤ) - refPhys = (f - refPhys) + chipCount p * -t := by linarith
    rw [hc', Int.add_mul_emod_self_left, Int.emod_eq_of_lt (by omega) (by omega)]
    ring
  obtain ⟨hseg1, hseg2⟩ := getD_segments hforward h hos refPhys c
  obtain ⟨hbin1, hbin2⟩ := bin_stepping_self hN hos h2.ge ha f
  rw [hown, samplesPerSymbol, hbin1, h2] at hseg1
  rw [hown, samplesPerSymbol, hbin2, h2] at hseg2
  push_cast at hseg1 hseg2
  have hself := foldPower_stepping_self hN hos ha (f := f) (k := f) (by simp)
  rw [if_neg (by omega)] at hself
  refine ⟨hchip, hcentre, ?_, hcochip, hcomag.trans hpeak, hcomag2, hcototal.trans hcomag.symm,
    ?_, ?_, ?_, ?_⟩
  · refine hmag.trans ?_
    rw [hself, h2]
    push_cast
    ring
  · exact (congrArg (fun j => spec.getD (firstBin p refPhys j) 0) hchip).trans hseg1
  · exact (congrArg (fun j => spec.getD (secondBin p (firstBin p refPhys j)) 0) hchip).trans hseg2
  · exact congrArg (fun j => spec.getD (firstBin p refPhys j) 0) (hcochip.trans hchip.symm)
  · exact congrArg (fun j => spec.getD (secondBin p (firstBin p refPhys j)) 0)
      (hcochip.trans hchip.symm)

end Coherent
