/-
# Where sync and data leave the receiver

The bounds behind the progress of `process` (`src/lora/receiver.cpp`).  The rate stays above
an eighth, every timing hypothesis lies within half a symbol and every residual within half
the chip circle, so the data never starts before the run that was found; and with a timing
correction below a symbol each data window lies after the one before it.
-/
import QuadrfMesh.Lib.Fit
import QuadrfMesh.Receiver.Calls

open Asking

/-- What a step relies on in an answer, with the stream up to `len` fed. -/
def Request.Truthful {α : Type} (len : ℕ) : (q : Request) → q.Answer α → Prop
  | .clampScan abs, (scanAbs : ℕ) => abs ≤ scanAbs
  | .arrived abs, (ready : Bool) => ready = true → abs ≤ len
  | .resampleOrigin foundAbs half, (origin : ℕ × ℕ) => foundAbs ≤ origin.2 + half
  | _, _ => True

/-- The buffer answers so, and no answer changes what has been fed. -/
theorem Memory.serve_truthful {α : Type} (tap : List α → ℚ → α) {len : ℕ} (m : Memory α)
    (q : Request) (h : m.nextAbs = len) :
    q.Truthful len (m.serve tap q).1 ∧ (m.serve tap q).2.nextAbs = len := by
  cases q with
  | clampScan abs => exact ⟨le_max_left abs m.buf.base, h⟩
  | arrived abs =>
      refine ⟨fun hready => ?_, h⟩
      rw [← h]
      exact of_decide_eq_true hready
  | resampleOrigin foundAbs half =>
      refine ⟨?_, h⟩
      show foundAbs ≤ (m.buf.resampleOrigin foundAbs half).2 + half
      unfold Buffer.resampleOrigin
      simp only
      split_ifs <;> omega
  | trimFront | rawWindow | preamble | kept | before | resample => exact ⟨trivial, h⟩

/-- `max_syms` in `stepData`. -/
def maxDataSyms (p : LoraParams) : ℕ := frameSymbolCount p 255 + 2

/-- The timing loop never corrects by as much as a symbol: half a chip of error in every
symbol of the longest frame leaves eight chips. -/
structure Paced (p : LoraParams) : Prop where
  os_pos : 0 < osFactor p
  timing : (|p.timingKp| + |p.timingKi| * maxDataSyms p) / 2 + 8 ≤ chipCount p

/-- A correction below a symbol needs a symbol of eight chips. -/
theorem Paced.eight_le {p : LoraParams} (hp : Paced p) : (8 : ℚ) ≤ chipCount p := by
  have h := hp.timing
  have hcorrection : 0 ≤ (|p.timingKp| + |p.timingKi| * maxDataSyms p) / 2 := by positivity
  linarith

/-- The longest frame, at the lowest spreading factor and rate. -/
theorem maxDataSyms_le {p : LoraParams} (hsf : 5 ≤ p.spreadingFactor) (hcr : p.cr ≤ 4) :
    maxDataSyms p ≤ 1386 := by
  unfold maxDataSyms frameSymbolCount
  simp only
  have hbits : 3 ≤ if p.ldro then p.spreadingFactor - 2 else p.spreadingFactor := by
    split_ifs <;> omega
  generalize (if p.ldro then p.spreadingFactor - 2 else p.spreadingFactor) = sfApp at hbits
  have hnibbles : 5 + 2 * 255 + (if p.hasCrc then 4 else 0) - (p.spreadingFactor - 2) ≤ 516 := by
    split_ifs <;> omega
  generalize (5 + 2 * 255 + (if p.hasCrc then 4 else 0) - (p.spreadingFactor - 2)) = rest at hnibbles
  have hblocks : (rest + sfApp - 1) / sfApp ≤ 172 := by
    rw [← Nat.lt_succ_iff, Nat.div_lt_iff_lt_mul (by omega)]
    omega
  have hsyms : (rest + sfApp - 1) / sfApp * (p.cr + 4) ≤ 172 * 8 :=
    Nat.mul_le_mul hblocks (by omega)
  split_ifs <;> omega

/-- The default gains correct by less than 21 chips. -/
theorem paced_of_gains {p : LoraParams} (hsf : 5 ≤ p.spreadingFactor) (hcr : p.cr ≤ 4)
    (hos : 0 < osFactor p) (hkp : p.timingKp = 1 / 5) (hki : p.timingKi = 3 / 100) : Paced p := by
  refine ⟨hos, ?_⟩
  have hsyms : (maxDataSyms p : ℚ) ≤ 1386 := by exact_mod_cast maxDataSyms_le hsf hcr
  have hchips : (32 : ℚ) ≤ chipCount p := by
    rw [chipCount_eq]
    exact_mod_cast Nat.pow_le_pow_right two_pos hsf
  rw [hkp, hki, abs_of_pos (by norm_num), abs_of_pos (by norm_num)]
  linarith

namespace Receiver

variable {α τ : Type}

/-- The slope of a preamble is a mean of wrapped differences. -/
def SlopeInRange (R : Receiver α τ) : Prop :=
  ∀ samples slope, R.dsp.preambleSlope samples = some slope → |slope| ≤ R.nChips / 2

variable {R : Receiver α τ}

theorem cast_nChips_pos : (0 : ℚ) < R.nChips := Nat.cast_pos.mpr (chipCount_pos R.params)

theorem half_chips_nonneg : (0 : ℚ) ≤ R.nChips / 2 := div_nonneg cast_nChips_pos.le (by norm_num)

theorem abs_zero_le_half_chips : |(0 : ℚ)| ≤ R.nChips / 2 := abs_zero.trans_le half_chips_nonneg

theorem sps_pos (hos : 0 < R.os) : 0 < R.sps := Nat.mul_pos (chipCount_pos R.params) hos

theorem sps_eq : (R.sps : ℚ) = R.nChips * R.os := Nat.cast_mul _ _

/-! ## Rate -/

section Rate

variable {len : ℕ}

/-- One pass of the rate loop at most halves the ratio. -/
theorem rate_step (hos : 0 < R.os) {slope ratio : ℚ} (hs : |slope| ≤ R.nChips / 2) {e : ℕ}
    (hratio : (1 / 2) ^ e ≤ ratio) :
    (1 / 2) ^ (e + 1) ≤
      if 0 < R.params.maxRatePpm then
        max (1 - R.params.maxRatePpm / 1000000)
          (min (1 + R.params.maxRatePpm / 1000000) (ratio * (1 - slope * R.os / R.sps)))
      else ratio * (1 - slope * R.os / R.sps) := by
  have hos' : (0 : ℚ) < R.os := Nat.cast_pos.mpr hos
  have hpass : 1 / 2 ≤ 1 - slope * R.os / R.sps := by
    have hslope : slope / R.nChips ≤ 1 / 2 := by
      rw [div_le_iff₀ cast_nChips_pos]
      linarith [le_abs_self slope]
    have hcancel : slope * R.os / R.sps = slope / R.nChips := by
      rw [sps_eq, mul_div_mul_right _ _ hos'.ne']
    linarith
  have hpos : (0 : ℚ) ≤ (1 / 2) ^ e := by positivity
  have hproduct : (1 / 2) ^ (e + 1) ≤ ratio * (1 - slope * R.os / R.sps) := by
    rw [pow_succ]
    exact mul_le_mul hratio hpass (by norm_num) (hpos.trans hratio)
  split_ifs with hlim
  · refine le_max_of_le_right (le_min ?_ hproduct)
    have hone : ((1 : ℚ) / 2) ^ (e + 1) ≤ 1 := pow_le_one₀ (by norm_num) (by norm_num)
    have hadd : 0 < R.params.maxRatePpm / 1000000 := by positivity
    linarith
  · exact hproduct

/-- After three passes an eighth is left. -/
theorem eighth_le {ratio : ℚ} {e : ℕ} (he : e ≤ 3) (hratio : (1 / 2) ^ e ≤ ratio) :
    1 / 8 ≤ ratio := by
  refine le_trans ?_ hratio
  calc (1 / 8 : ℚ) = (1 / 2) ^ 3 := by norm_num
    _ ≤ (1 / 2) ^ e := pow_le_pow_of_le_one (by norm_num) (by norm_num) he

/-- The slope a pass goes on with is in range. -/
theorem returnsIf_fitted {β : Type} (hslope : SlopeInRange R) {P : β → Prop}
    {next : Option ℚ → Reading α β}
    (hnext : ∀ fitted : Option ℚ, |fitted.getD 0| ≤ R.nChips / 2 →
      ReturnsIf (Request.Truthful len) P (next fitted))
    (foundAbs back iter : ℕ) (resampled : List α) :
    ReturnsIf (Request.Truthful len) P
      (if wander R.params then pure (some 0) >>= next
      else if iter = 0 then
        Reading.preamble foundAbs R.sps R.params.preambleLen >>= fun samples =>
          pure (slopeOf R.dsp R.sps samples) >>= next
      else pure (slopeOf R.dsp R.sps
        (preambleSamples R.sps R.params.preambleLen resampled back)) >>= next) := by
  have hfit : ∀ samples : List α, |(slopeOf R.dsp R.sps samples).getD 0| ≤ R.nChips / 2 := by
    intro samples
    unfold slopeOf
    split_ifs
    · exact abs_zero_le_half_chips
    · rcases hfitted : R.dsp.preambleSlope samples with _ | slope
      · exact abs_zero_le_half_chips
      · exact hslope samples slope hfitted
  split_ifs
  · exact hnext _ abs_zero_le_half_chips
  · exact returnsIf_bind _ fun samples => hnext _ (hfit samples)
  · exact hnext _ (hfit _)

/-- **The rate** stays above an eighth. -/
theorem returnsIf_rateEstimate (hos : 0 < R.os) (hslope : SlopeInRange R)
    (foundAbs back originAbs resLen passes iter : ℕ) (resampled : List α) {ratio : ℚ} {e : ℕ}
    (he : passes + e = 3) (hratio : (1 / 2) ^ e ≤ ratio) :
    ReturnsIf (Request.Truthful len) (fun out => ∀ span r, out = some (span, r) → 1 / 8 ≤ r)
      (R.rateEstimate foundAbs back originAbs resLen passes iter resampled ratio) := by
  -- on the passes left
  induction passes generalizing iter resampled ratio e with
  | zero =>
      rintro span r ⟨⟩
      exact eighth_le (by omega) hratio
  | succ passes ih =>
      unfold rateEstimate
      refine returnsIf_fitted hslope ?_ foundAbs back iter resampled
      intro fitted hfitted
      have hpass := rate_step hos hfitted hratio
      rcases fitted with _ | slope <;> cases iter
      case none.succ =>
        rintro span r ⟨⟩
        exact eighth_le (by omega) hratio
      all_goals
        dsimp only at hpass ⊢
        generalize (if 0 < R.params.maxRatePpm then _ else _) = next at hpass ⊢
        refine returnsIf_bind _ fun resampled => ?_
        split_ifs
        · rintro span r ⟨⟩
        · rintro span r ⟨⟩
          exact eighth_le (by omega) hpass
        · exact ih _ _ (by omega) hpass

end Rate

/-! ## Timing -/

/-- Timing within a quarter of a symbol. -/
theorem abs_tau_le (v : ℚ) : |R.os * wrapSigned v R.nChips / 2| ≤ R.sps / 4 := by
  have hw := abs_wrapSigned_le v (cast_nChips_pos (R := R))
  calc |R.os * wrapSigned v R.nChips / 2| = R.os * |wrapSigned v R.nChips| / 2 := by
        rw [abs_div, abs_mul, Nat.abs_cast, abs_two]
    _ ≤ R.os * (R.nChips / 2) / 2 := by gcongr
    _ = R.sps / 4 := by
        rw [sps_eq]
        ring

/-- Every hypothesis places the grid within half a symbol. -/
theorem abs_hypothesis_le {u dwChip : ℚ} {hyp : ℚ × ℚ} (h : hyp ∈ R.hypotheses u dwChip) :
    |hyp.2| ≤ R.sps / 2 := by
  obtain ⟨hlow, hhigh⟩ := abs_le.mp (abs_tau_le (R := R) (u - dwChip))
  have hsps : (0 : ℚ) ≤ R.sps := Nat.cast_nonneg _
  have hmain : |R.os * wrapSigned (u - dwChip) R.nChips / 2| ≤ R.sps / 2 := by
    rw [abs_le]
    constructor <;> linarith
  have halt : |if 0 < R.os * wrapSigned (u - dwChip) R.nChips / 2 then
      R.os * wrapSigned (u - dwChip) R.nChips / 2 - R.sps / 2
      else R.os * wrapSigned (u - dwChip) R.nChips / 2 + R.sps / 2| ≤ R.sps / 2 := by
    split_ifs
    all_goals
      rw [abs_le]
      constructor <;> linarith
  unfold hypotheses at h
  simp only at h
  rcases List.mem_append.mp h with h | h
  · simp only [List.mem_cons, List.not_mem_nil, or_false] at h
    rcases h with rfl | rfl
    · exact hmain
    · exact halt
  · obtain ⟨-, h⟩ := List.mem_ite_nil_right.mp h
    simp only [List.mem_cons, List.not_mem_nil, or_false] at h
    rcases h with rfl | rfl
    · exact hmain
    · exact halt

variable (R) in
/-- The sync word is found after the first symbol of a grid that begins less than half a
symbol before the span. -/
def Placed (fix : SyncFix) : Prop := 1 ≤ fix.kSync ∧ -(R.sps / 2 : ℚ) ≤ fix.aligned0

theorem place_ge (preStart : ℕ) {tau : ℚ} (h : |tau| ≤ R.sps / 2) :
    -(R.sps / 2 : ℚ) ≤ preStart - tau := by
  have hpreStart : (0 : ℚ) ≤ preStart := Nat.cast_nonneg _
  linarith [(abs_le.mp h).2]

theorem placed_trySync {resampled : List α} {preStart nPre : ℕ} (hpre : 4 ≤ nPre) {best : SyncFix}
    {hyp : (ℚ × ℚ) × ℤ} (htau : |hyp.1.2| ≤ R.sps / 2) (hdk : -3 ≤ hyp.2) (h : R.Placed best) :
    R.Placed (R.trySync resampled preStart nPre best hyp) := by
  have hnew : 1 ≤ ((nPre : ℤ) + hyp.2).toNat ∧ -(R.sps / 2 : ℚ) ≤ preStart - hyp.1.2 :=
    ⟨by omega, place_ge preStart htau⟩
  unfold trySync
  simp only
  split
  · exact h
  · split
    · exact h
    · split
      · exact h
      · split
        · exact hnew
        · exact h

theorem placed_syncSearch (resampled : List α) (preStart : ℕ) {nPre : ℕ} (hpre : 4 ≤ nPre) (u : ℚ) :
    R.Placed (R.syncSearch resampled preStart nPre u) := by
  unfold syncSearch
  simp only
  refine List.foldlRecOn _ _ ?_ ?_
  · have hquarter : (R.sps : ℚ) / 4 ≤ R.sps / 2 := by
      have hsps : (0 : ℚ) ≤ R.sps := Nat.cast_nonneg _
      linarith
    exact ⟨le_trans (by norm_num) hpre, place_ge preStart ((abs_tau_le _).trans hquarter)⟩
  · intro best hbest hyp hmem
    obtain ⟨cand, hcand, hdk⟩ := List.mem_flatMap.mp hmem
    obtain ⟨dwChip, -, hcand⟩ := List.mem_flatMap.mp hcand
    obtain ⟨dk, hmove, rfl⟩ := List.mem_map.mp hdk
    have hdk_ge : ∀ dk ∈ (if wander R.params then [-3, -2, -1, 0, 1] else [-1, 0, 1] : List ℤ),
        -3 ≤ dk := by
      split_ifs <;> decide
    exact placed_trySync hpre (abs_hypothesis_le hcand) (hdk_ge dk hmove) hbest

/-! ## Calibration -/

section Calibration

variable (originAbs : ℕ) (ratio : ℚ) (fix : SyncFix)

/-- Half the difference of two residuals. -/
theorem abs_half_sub_le {a b c : ℚ} (ha : |a| ≤ c) (hb : |b| ≤ c) : |(a - b) / 2| ≤ c := by
  rw [abs_le] at *
  constructor <;> linarith

theorem returns_calErrors (down : Bool) (symbols : List (ℚ × ℕ)) :
    Returns (fun errs : List ℚ => ∀ e ∈ errs, |e| ≤ (R.nChips : ℚ) / 2)
      (R.calErrors originAbs ratio fix down symbols) := by
  induction symbols with
  | nil =>
      intro e he
      exact absurd he List.not_mem_nil
  | cons symbol symbols ih =>
      unfold calErrors
      refine returns_bind _ fun win => ih.bind fun errs herrs => ?_
      cases win with
      | none => exact herrs
      | some win =>
          obtain ⟨win, shift⟩ := win
          simp only
          split_ifs
          · exact List.forall_mem_cons.mpr ⟨abs_wrapSigned_le _ cast_nChips_pos, herrs⟩
          · exact herrs

theorem returns_coarseCalibration :
    Returns (fun cal : Calibration => |cal.timingChips| ≤ R.nChips / 2)
      (R.coarseCalibration originAbs ratio fix) := by
  unfold coarseCalibration
  refine (returns_calErrors originAbs ratio fix _ _).bind fun up hup => ?_
  refine (returns_calErrors originAbs ratio fix _ _).bind fun dn hdn => ?_
  split_ifs
  · exact abs_half_sub_le (Fit.abs_mean_le half_chips_nonneg hup) (Fit.abs_mean_le half_chips_nonneg hdn)
  · exact abs_zero_le_half_chips
  · exact abs_zero_le_half_chips

theorem returns_calibrate :
    Returns (fun cal : Calibration => |cal.timingChips| ≤ R.nChips / 2)
      (R.calibrate originAbs ratio fix) := by
  unfold calibrate
  refine (returns_coarseCalibration originAbs ratio fix).bind fun coarse hcoarse => ?_
  split_ifs
  · unfold fineCalibration
    refine returns_bind _ fun su => ?_
    cases su with
    | none => exact hcoarse
    | some su =>
        refine returns_bind _ fun d0 => ?_
        cases d0 with
        | none => exact hcoarse
        | some d0 =>
            refine returns_bind _ fun d1 => ?_
            cases d1 with
            | none => exact hcoarse
            | some d1 =>
                simp only
                split_ifs
                · exact abs_half_sub_le (abs_wrapSigned_le _ cast_nChips_pos)
                    (abs_wrapSigned_le _ cast_nChips_pos)
                · exact hcoarse
  · exact hcoarse

end Calibration

/-! ## Sync -/

/-- Back in the search, past the run that was found. -/
structure Resumed (c c₁ : Core τ) : Prop where
  state : c₁.state = .search
  runLen : c₁.runLen = 0
  scan : c.foundAbs < c₁.scanAbs

/-- The next data window does not lie before the run, and the timing loop has moved by half a
chip for each symbol at most. -/
structure OnGrid (p : LoraParams) (c : Core τ) : Prop where
  ratio : 1 / 8 ≤ c.totalRatio
  timing : |c.timingInt| ≤ |p.timingKi| / 2 * c.dataSym
  start : (c.foundAbs : ℚ) ≤ c.dataRawF

section Sync

variable {len : ℕ} {c : Core τ}

/-- `resetToSearch` does not go back. -/
theorem returnsIf_resetToSearch {P : Core τ → Prop} {scanFromAbs : ℕ}
    (h : ∀ scanAbs, scanFromAbs ≤ scanAbs → P (c.restart scanAbs)) :
    ReturnsIf (Request.Truthful (α := α) len) P (resetToSearch scanFromAbs c) :=
  fun scanAbs hscan => h scanAbs hscan

theorem returnsIf_syncFail (hos : 0 < R.os) (fr : ReceivedFrame) :
    ReturnsIf (Request.Truthful len) (Resumed c) (R.syncFail c fr) := by
  refine returnsIf_resetToSearch fun scanAbs hscan => ⟨rfl, rfl, ?_⟩
  have hsps := sps_pos hos
  have hspan : 0 < (R.params.preambleLen + 7 - 2) * R.sps := Nat.mul_pos (by omega) hsps
  show c.foundAbs < scanAbs
  omega

/-- **The data starts** at or after the run. -/
theorem startData_ge (hp : Paced R.params) {originAbs : ℕ} {ratio : ℚ} {fix : SyncFix}
    {cal : Calibration} (horigin : c.foundAbs ≤ originAbs + R.sps / 2) (hratio : 1 / 8 ≤ ratio)
    (hfix : R.Placed fix) (hcal : |cal.timingChips| ≤ R.nChips / 2) (fr : ReceivedFrame) :
    (c.foundAbs : ℚ) ≤ (R.startData c fr originAbs ratio fix cal).dataRawF := by
  have hsps : (0 : ℚ) ≤ R.sps := Nat.cast_nonneg _
  have hk : (1 : ℚ) ≤ fix.kSync := Nat.one_le_cast.mpr hfix.1
  have hfound : (c.foundAbs : ℚ) ≤ originAbs + R.sps / 2 := by
    have hhalf : ((R.sps / 2 : ℕ) : ℚ) ≤ R.sps / 2 := Nat.cast_div_le
    have hcast : (c.foundAbs : ℚ) ≤ originAbs + (R.sps / 2 : ℕ) := by exact_mod_cast horigin
    linarith
  have htiming : cal.timingChips * R.os ≤ R.sps / 2 := by
    calc cal.timingChips * R.os ≤ R.nChips / 2 * R.os :=
          mul_le_mul_of_nonneg_right (abs_le.mp hcal).2 (Nat.cast_nonneg _)
      _ = R.sps / 2 := by
          rw [sps_eq]
          ring
  have hgrid : 17 / 4 * R.sps
      ≤ fix.aligned0 + (fix.kSync + 2 + 9 / 4) * R.sps - cal.timingChips * R.os := by
    have hsync : (1 + 2 + 9 / 4) * R.sps ≤ (fix.kSync + 2 + 9 / 4) * (R.sps : ℚ) :=
      mul_le_mul_of_nonneg_right (by linarith) hsps
    linarith [hfix.2]
  have hexact : (c.foundAbs : ℚ) + R.sps / 32
      ≤ originAbs + (fix.aligned0 + (fix.kSync + 2 + 9 / 4) * R.sps) * ratio
        - cal.timingChips * R.os * ratio := by
    have hmove : 17 / 4 * R.sps * (1 / 8)
        ≤ (fix.aligned0 + (fix.kSync + 2 + 9 / 4) * R.sps - cal.timingChips * R.os) * ratio :=
      mul_le_mul hgrid hratio (by norm_num) ((mul_nonneg (by norm_num) hsps).trans hgrid)
    rw [sub_mul] at hmove
    linarith
  show (c.foundAbs : ℚ) ≤ if wander R.params then ((lround _ : ℤ) : ℚ) else _
  split_ifs with hwander
  · -- a whole sample is at most half a sample early
    have hround := (abs_le.mp (abs_sub_lround_le (originAbs
      + (fix.aligned0 + (fix.kSync + 2 + 9 / 4) * R.sps) * ratio
      - cal.timingChips * R.os * ratio))).2
    have hos : (2 : ℚ) ≤ R.os := by
      unfold wander at hwander
      rw [Bool.and_eq_true, decide_eq_true_eq, decide_eq_true_eq] at hwander
      exact_mod_cast hwander.2
    have hlong : (8 * 2 : ℚ) ≤ R.sps := by
      rw [sps_eq]
      exact mul_le_mul hp.eight_le hos (by norm_num) cast_nChips_pos.le
    linarith
  · linarith

/-- A frame is being collected. -/
structure Begun (p : LoraParams) (c c₁ : Core τ) : Prop where
  state : c₁.state = .data
  foundAbs : c₁.foundAbs = c.foundAbs
  dataSym : c₁.dataSym = 0
  onGrid : OnGrid p c₁

/-- **Sync** ends past the run or in the data. -/
theorem returnsIf_stepSync (hp : Paced R.params) (hslope : SlopeInRange R) :
    ReturnsIf (Request.Truthful len)
      (fun out => ∀ c₁, out = some c₁ → Resumed c c₁ ∨ Begun R.params c c₁) (R.stepSync c) := by
  have hfail : ∀ fr : ReceivedFrame, ReturnsIf (Request.Truthful len)
      (fun out => ∀ c₁, out = some c₁ → Resumed c c₁ ∨ Begun R.params c c₁)
      (some <$> R.syncFail c fr) := by
    intro fr
    refine (returnsIf_syncFail hp.os_pos fr).bind ?_
    rintro c₁ hc₁ _ ⟨⟩
    exact Or.inl hc₁
  unfold stepSync
  refine returnsIf_bind _ fun ready => ?_
  split_ifs
  · refine returnsIf_request _ fun origin horigin => ?_
    refine (returnsIf_rateEstimate hp.os_pos hslope _ _ _ _ 3 0 [] (e := 0) rfl
      (by norm_num)).bind fun span hratio => ?_
    rcases span with _ | ⟨resampled, ratio⟩
    · exact hfail {}
    · have hratio := hratio resampled ratio rfl
      simp only
      unfold syncResampled
      simp only
      split_ifs with hshort
      · exact hfail _
      · push Not at hshort
        rw [map_bind]
        refine ((returns_calibrate origin.2 ratio _).returnsIf).bind ?_
        rintro cal hcal _ ⟨⟩
        refine Or.inr ⟨rfl, rfl, rfl, hratio, ?_, ?_⟩
        · show |(0 : ℚ)| ≤ |R.params.timingKi| / 2 * (0 : ℕ)
          simp
        · exact startData_ge hp horigin hratio (placed_syncSearch _ _ hshort.1 _) hcal _
  · rintro c₁ ⟨⟩

end Sync

/-! ## Data symbols -/

section Refine

variable {ref : ℚ} {nChips : ℕ} {tryShift : ℚ → Reading α (Option ChipPeak)}

/-- A window moved by `b` samples at most, and its fraction of a chip. -/
def Nudged (b : ℚ) (best : Refinement) : Prop := |best.shift| ≤ b ∧ |best.frac| ≤ 1 / 2

/-- Whether or not the window moved. -/
theorem Nudged.choose {b : ℚ} {best : Refinement} (h : Nudged b best) (p : Prop) [Decidable p]
    (x : ℚ) : Nudged b { best with frac := if p then best.frac else chipFrac x } := by
  refine ⟨h.1, ?_⟩
  simp only
  split_ifs
  · exact h.2
  · exact abs_chipFrac_le x

theorem returns_consider {b shift : ℚ} {best : Refinement} (hbest : Nudged b best)
    (hshift : |shift| ≤ b) : Returns (Nudged b) (consider ref nChips tryShift best shift) := by
  unfold consider
  refine returns_bind _ fun trial => ?_
  cases trial with
  | none => exact hbest
  | some pk =>
      simp only
      split_ifs
      · exact ⟨hshift, abs_chipFrac_le _⟩
      · exact hbest

/-- The refinement moves the window by a sample, or by half a chip. -/
theorem returns_refineSymbolWindow {os : ℕ} {ratio : ℚ} (hratio : 0 ≤ ratio) (pk : ChipPeak)
    {relPos frac : ℚ} (hfrac : |frac| ≤ 1 / 2) :
    Returns (Nudged (max 1 (os * ratio / 2)))
      (refineSymbolWindow ref nChips tryShift os ratio pk relPos frac) := by
  have hone : (1 : ℚ) ≤ max 1 (os * ratio / 2) := le_max_left _ _
  have hstart : Nudged (max 1 (os * ratio / 2)) { pk, relPos, frac } := by
    refine ⟨?_, hfrac⟩
    rw [abs_zero]
    linarith
  have hchip : |-chipsToRawSamples frac os ratio| ≤ max 1 (os * ratio / 2) := by
    have hscale : (0 : ℚ) ≤ os * ratio := mul_nonneg (Nat.cast_nonneg _) hratio
    calc |-chipsToRawSamples frac os ratio| = |frac| * (os * ratio) := by
          rw [abs_neg, chipsToRawSamples, mul_assoc, abs_mul, abs_of_nonneg hscale]
      _ ≤ 1 / 2 * (os * ratio) := mul_le_mul_of_nonneg_right hfrac hscale
      _ = os * ratio / 2 := by ring
      _ ≤ max 1 (os * ratio / 2) := le_max_right _ _
  unfold refineSymbolWindow
  simp only
  split
  · exact hstart
  · refine (returns_consider hstart (by rwa [abs_neg, abs_one])).bind fun best hbest => ?_
    refine (returns_consider hbest (by rwa [abs_one])).bind fun best hbest => ?_
    split_ifs
    · exact returns_consider hbest hchip
    · exact hbest

end Refine

section Data

variable {len : ℕ} {c : Core τ}

/-- **One symbol on**: a window that moved by a sample or half a chip, and by the timing
correction, still lies after the one before. -/
theorem advance_ge (hp : Paced R.params) (hgrid : OnGrid R.params c)
    (hmore : c.dataSym < maxDataSyms R.params) {best : Refinement}
    (hbest : Nudged (max 1 (R.os * c.totalRatio / 2)) best) :
    |c.timingInt + R.params.timingKi * best.frac| ≤ |R.params.timingKi| / 2 * (c.dataSym + 1) ∧
    c.dataRawF ≤ c.dataRawF + best.shift + (R.stepLen c
      + -chipsToRawSamples (R.params.timingKp * best.frac
        + (c.timingInt + R.params.timingKi * best.frac)) R.os c.totalRatio) := by
  have hki : |R.params.timingKi * best.frac| ≤ |R.params.timingKi| / 2 := by
    rw [abs_mul]
    linarith [mul_le_mul_of_nonneg_left hbest.2 (abs_nonneg R.params.timingKi)]
  have hkp : |R.params.timingKp * best.frac| ≤ |R.params.timingKp| / 2 := by
    rw [abs_mul]
    linarith [mul_le_mul_of_nonneg_left hbest.2 (abs_nonneg R.params.timingKp)]
  have hint : |c.timingInt + R.params.timingKi * best.frac|
      ≤ |R.params.timingKi| / 2 * (c.dataSym + 1) := by
    linarith [abs_add_le c.timingInt (R.params.timingKi * best.frac), hgrid.timing]
  refine ⟨hint, ?_⟩
  have hsyms : |R.params.timingKi| / 2 * (c.dataSym + 1)
      ≤ |R.params.timingKi| / 2 * maxDataSyms R.params := by
    refine mul_le_mul_of_nonneg_left ?_ (by positivity)
    exact_mod_cast hmore
  -- eight chips of the symbol are left, which is a sample and half a chip
  have hleft : 8 ≤ R.nChips - (R.params.timingKp * best.frac
      + (c.timingInt + R.params.timingKi * best.frac)) := by
    have htiming : (|R.params.timingKp| + |R.params.timingKi| * maxDataSyms R.params) / 2 + 8
        ≤ R.nChips := hp.timing
    linarith [(abs_le.mp hkp).2, (abs_le.mp hint).2]
  have hos : (1 : ℚ) ≤ R.os := Nat.one_le_cast.mpr hp.os_pos
  have hscale : (1 / 8 : ℚ) ≤ R.os * c.totalRatio := by
    linarith [mul_le_mul_of_nonneg_right hos (le_trans (by norm_num) hgrid.ratio), hgrid.ratio]
  have hstep : R.stepLen c + -chipsToRawSamples (R.params.timingKp * best.frac
      + (c.timingInt + R.params.timingKi * best.frac)) R.os c.totalRatio
      = R.os * c.totalRatio * (R.nChips - (R.params.timingKp * best.frac
        + (c.timingInt + R.params.timingKi * best.frac))) := by
    rw [stepLen, chipsToRawSamples, sps_eq]
    ring
  have hmove : R.os * c.totalRatio * 8 ≤ R.os * c.totalRatio * (R.nChips
      - (R.params.timingKp * best.frac + (c.timingInt + R.params.timingKi * best.frac))) :=
    mul_le_mul_of_nonneg_left hleft (by linarith)
  have hshift : max 1 (R.os * c.totalRatio / 2) ≤ R.os * c.totalRatio * 8 :=
    max_le (by linarith) (by linarith)
  rw [hstep]
  linarith [(abs_le.mp hbest.1).1]

/-- A symbol read leaves the grid in order. -/
def Steady (p : LoraParams) (c : Core τ) (r : SymbolReading τ) : Prop :=
  |r.timingInt| ≤ |p.timingKi| / 2 * (c.dataSym + 1) ∧ c.dataRawF ≤ r.dataRawF

theorem returns_readSymbol (hp : Paced R.params) (hgrid : OnGrid R.params c)
    (hmore : c.dataSym < maxDataSyms R.params) (win : List α) :
    Returns (Steady R.params c) (R.readSymbol c win) := by
  have hratio : 0 ≤ c.totalRatio := le_trans (by norm_num) hgrid.ratio
  have hnone : |(0 : ℚ)| ≤ max 1 (R.os * c.totalRatio / 2) := by
    rw [abs_zero]
    exact le_max_of_le_left (by norm_num)
  unfold readSymbol
  refine Returns.ite_bind (P := Nudged (max 1 (R.os * c.totalRatio / 2)))
    (returns_refineSymbolWindow hratio _ (abs_chipFrac_le _)) ⟨hnone, abs_chipFrac_le _⟩
    fun best hbest => ?_
  have hadvance := fun x : ℚ => advance_ge hp hgrid hmore
    (hbest.choose (decide (best.shift ≠ 0) = true) x)
  beta_reduce
  by_cases htried : best.tried = true
  · rw [if_pos htried]
    exact returns_bind _ fun _ => returns_bind _ fun _ => returns_bind _ fun _ =>
      ⟨(hadvance _).1, (hadvance _).2⟩
  · rw [if_neg htried]
    exact returns_bind _ fun _ => returns_bind _ fun _ => ⟨(hadvance _).1, (hadvance _).2⟩

/-- The tracker moves on by whole symbols. -/
theorem returns_trackSymbol (hgrid : OnGrid R.params c) (win : List α) :
    Returns (Steady R.params c) (R.trackSymbol c win) := by
  have hratio : 0 ≤ c.totalRatio := le_trans (by norm_num) hgrid.ratio
  unfold trackSymbol
  refine returns_bind _ fun _ => ⟨?_, ?_⟩
  · show |c.timingInt| ≤ |R.params.timingKi| / 2 * (c.dataSym + 1)
    linarith [hgrid.timing, abs_nonneg R.params.timingKi]
  · show c.dataRawF ≤ c.dataRawF + R.sps * c.totalRatio
    linarith [mul_nonneg (Nat.cast_nonneg (α := ℚ) R.sps) hratio]

/-- One more symbol of the frame, as long as the cap allows it. -/
structure Collected (p : LoraParams) (c c₁ : Core τ) : Prop where
  state : c₁.state = .data
  foundAbs : c₁.foundAbs = c.foundAbs
  dataSym : c₁.dataSym = c.dataSym + 1
  capped : c₁.dataSym ≤ maxDataSyms p
  onGrid : OnGrid p c₁

/-- A symbol that the header check lets pass. -/
theorem collected (hstate : c.state = .data) (hgrid : OnGrid R.params c)
    (hmore : c.dataSym < maxDataSyms R.params) {r : SymbolReading τ} (hr : Steady R.params c r)
    {c₁ : Core τ} (hpass : R.collect c r = some c₁) : Collected R.params c c₁ := by
  obtain ⟨_, _, _, _, _, _, rfl⟩ := R.checkHeader_changes hpass
  refine ⟨hstate, rfl, rfl, hmore, hgrid.ratio, ?_, hgrid.start.trans hr.2⟩
  show |r.timingInt| ≤ |R.params.timingKi| / 2 * (c.dataSym + 1 : ℕ)
  push_cast
  exact hr.1

/-- A frame ends past its run. -/
theorem returnsIf_finalizeData (hos : 0 < R.os) {c' : Core τ}
    (hfound : (c.foundAbs : ℚ) ≤ c'.dataRawF) :
    ReturnsIf (Request.Truthful len) (Resumed c) (R.finalizeData c') := by
  refine returnsIf_resetToSearch fun scanAbs hscan => ⟨rfl, rfl, ?_⟩
  have hsps := sps_pos hos
  have hstart : (c.foundAbs : ℤ) ≤ truncate c'.dataRawF := by
    rw [truncate_of_nonneg ((Nat.cast_nonneg _).trans hfound)]
    exact Int.le_floor.mpr (by exact_mod_cast hfound)
  show c.foundAbs < scanAbs
  omega

/-- **Data** goes on by a symbol, or ends past the run. -/
theorem returnsIf_stepData (hp : Paced R.params) (hstate : c.state = .data)
    (hgrid : OnGrid R.params c) :
    ReturnsIf (Request.Truthful len)
      (fun out => ∀ c₁, out = some c₁ → Resumed c c₁ ∨ Collected R.params c c₁) (R.stepData c) := by
  have hwait : ∀ c₁ : Core τ, none = some c₁ → Resumed c c₁ ∨ Collected R.params c c₁ := by
    rintro c₁ ⟨⟩
  have hend : ∀ c' : Core τ, (c.foundAbs : ℚ) ≤ c'.dataRawF → ReturnsIf (Request.Truthful len)
      (fun out => ∀ c₁, out = some c₁ → Resumed c c₁ ∨ Collected R.params c c₁)
      (some <$> R.finalizeData c') := by
    intro c' hfound
    refine (returnsIf_finalizeData hp.os_pos hfound).bind ?_
    rintro c₁ hc₁ _ ⟨⟩
    exact Or.inl hc₁
  unfold stepData
  by_cases hcollecting : R.collecting c = true
  · rw [if_pos hcollecting]
    have hmore : c.dataSym < maxDataSyms R.params :=
      of_decide_eq_true (Bool.and_eq_true_iff.mp hcollecting).2
    have hread : ∀ win : List α, Returns (Steady R.params c) (R.demodSymbol c win) := by
      intro win
      unfold demodSymbol
      split_ifs
      · exact returns_trackSymbol hgrid win
      · exact returns_readSymbol hp hgrid hmore win
    refine returnsIf_bind _ fun kept => ?_
    split
    · refine returnsIf_bind _ fun inside => ?_
      split
      · refine returnsIf_bind _ fun win => ?_
        split
        · exact hwait
        · refine (hread win).returnsIf.bind fun r hr => ?_
          rcases hpass : R.collect c r with _ | c'
          · exact hend _ (hgrid.start.trans hr.2)
          · rintro _ ⟨⟩
            exact Or.inr (collected hstate hgrid hmore hr hpass)
      · exact hwait
    · exact hend c hgrid.start
  · rw [if_neg hcollecting]
    exact hend c hgrid.start

end Data

end Receiver
