/-
# The slope of a preamble (`preambleSlope`)

The chip position drifts by the rate offset from one preamble window to the next.  The
positions are unwrapped, a line is fitted through the windows that look like preamble, and
where these are too few the steps near the median step are averaged
(`src/lora/symbol_demod.cpp`).  Either way the slope stays within half the chip circle, as
the rate loop of `stepSync` relies on (`slopeInRange_of_eq`).
-/
import QuadrfMesh.Receiver.Advance

/-! ## Unwrapping -/

/-- `while (d > half_chips)`. -/
def wrapDown (nChips d : ℚ) : ℚ :=
  if 0 < nChips ∧ nChips / 2 < d then wrapDown nChips (d - nChips) else d
termination_by (⌊d / nChips⌋ + 1).toNat
decreasing_by
  rename_i h
  obtain ⟨hpos, hd⟩ := h
  have hquot : 0 ≤ ⌊d / nChips⌋ := Int.floor_nonneg.mpr (div_nonneg (by linarith) hpos.le)
  rw [sub_div, div_self hpos.ne', Int.floor_sub_one]
  omega

/-- `while (d < -half_chips)`. -/
def wrapUp (nChips d : ℚ) : ℚ :=
  if 0 < nChips ∧ d < -(nChips / 2) then wrapUp nChips (d + nChips) else d
termination_by (-⌊d / nChips⌋).toNat
decreasing_by
  rename_i h
  obtain ⟨hpos, hd⟩ := h
  have hquot : ⌊d / nChips⌋ < 0 := Int.floor_lt_zero.mpr (div_neg_of_neg_of_pos (by linarith) hpos)
  rw [add_div, div_self hpos.ne', Int.floor_add_one]
  omega

/-- A step of the trajectory, with both loops run on it. -/
def unwrapStep (nChips d : ℚ) : ℚ := wrapUp nChips (wrapDown nChips d)

theorem wrapDown_le {nChips : ℚ} (hpos : 0 < nChips) (d : ℚ) : wrapDown nChips d ≤ nChips / 2 := by
  fun_induction wrapDown nChips d with
  | case1 d h ih => exact ih
  | case2 d h => exact not_lt.mp fun hover => h ⟨hpos, hover⟩

theorem abs_wrapUp_le {nChips : ℚ} (hpos : 0 < nChips) {d : ℚ} (hd : d ≤ nChips / 2) :
    |wrapUp nChips d| ≤ nChips / 2 := by
  fun_induction wrapUp nChips d with
  | case1 d h ih => exact ih (by linarith)
  | case2 d h =>
      rw [abs_le]
      exact ⟨not_lt.mp fun hunder => h ⟨hpos, hunder⟩, hd⟩

/-- A step is at most half the circle. -/
theorem abs_unwrapStep_le {nChips : ℚ} (hpos : 0 < nChips) (d : ℚ) :
    |unwrapStep nChips d| ≤ nChips / 2 := abs_wrapUp_le hpos (wrapDown_le hpos d)

/-- The trajectory from `prev` on. -/
def unwrapFrom (nChips : ℚ) : ℚ → List ℚ → List ℚ
  | _, [] => []
  | prev, chip :: chips =>
      let next := prev + unwrapStep nChips (chip - prev)
      next :: unwrapFrom nChips next chips

/-- `traj`: each position unwrapped against the one before it. -/
def unwrap (nChips : ℚ) : List ℚ → List ℚ
  | [] => []
  | chip :: chips => chip :: unwrapFrom nChips chip chips

/-- `steps`. -/
def trajSteps (traj : List ℚ) : List ℚ := List.zipWith (fun next pos => next - pos) traj.tail traj

theorem abs_step_unwrapFrom {nChips : ℚ} (hpos : 0 < nChips) (prev : ℚ) (chips : List ℚ) :
    ∀ step ∈ trajSteps (prev :: unwrapFrom nChips prev chips), |step| ≤ nChips / 2 := by
  induction chips generalizing prev with
  | nil =>
      intro step hstep
      exact absurd hstep List.not_mem_nil
  | cons chip chips ih =>
      intro step hstep
      rcases List.mem_cons.mp hstep with rfl | hstep
      · show |prev + unwrapStep nChips (chip - prev) - prev| ≤ nChips / 2
        rw [add_sub_cancel_left]
        exact abs_unwrapStep_le hpos _
      · exact ih _ step hstep

/-- **The steps are wrapped differences.** -/
theorem abs_step_unwrap {nChips : ℚ} (hpos : 0 < nChips) (chips : List ℚ) :
    ∀ step ∈ trajSteps (unwrap nChips chips), |step| ≤ nChips / 2 := by
  cases chips with
  | nil =>
      intro step hstep
      exact absurd hstep List.not_mem_nil
  | cons chip chips => exact abs_step_unwrapFrom hpos chip chips

theorem length_unwrapFrom (nChips prev : ℚ) (chips : List ℚ) :
    (unwrapFrom nChips prev chips).length = chips.length := by
  induction chips generalizing prev with
  | nil => rfl
  | cons chip chips ih => exact congrArg (· + 1) (ih _)

@[simp] theorem length_unwrap (nChips : ℚ) (chips : List ℚ) :
    (unwrap nChips chips).length = chips.length := by
  cases chips with
  | nil => rfl
  | cons chip chips => exact congrArg (· + 1) (length_unwrapFrom _ _ _)

/-- Positions lie no further apart than the steps between them. -/
theorem abs_sub_le_of_steps {traj : List ℚ} {b : ℚ} (hsteps : ∀ step ∈ trajSteps traj, |step| ≤ b)
    {i k : ℕ} (hk : i + k < traj.length) :
    |traj.getD (i + k) 0 - traj.getD i 0| ≤ b * k := by
  induction k with
  | zero => simp
  | succ k ih =>
      have hstep : |traj.getD (i + k + 1) 0 - traj.getD (i + k) 0| ≤ b := by
        refine hsteps _ (List.mem_of_getElem? (i := i + k) ?_)
        have hnext : i + k + 1 < traj.length := hk
        simp [trajSteps, List.getElem?_zipWith, List.getD_eq_getElem?_getD, hnext,
          Nat.lt_of_succ_lt hnext]
      have hprev := ih (by omega)
      have htri := abs_sub_le (traj.getD (i + (k + 1)) 0) (traj.getD (i + k) 0) (traj.getD i 0)
      push_cast
      rw [← Nat.add_assoc] at htri ⊢
      linarith

/-! ## The slope -/

/-- `preambleSlope` on the samples of at least five windows. -/
def preambleSlope {α : Type} (demod : List α → ChipPeak) (sps : ℕ) (nChips : ℚ) (samples : List α) :
    Option ℚ :=
  let usable := samples.length / sps
  let peaks := (List.range usable).map fun s => demod ((samples.drop (s * sps)).take sps)
  let traj := unwrap nChips (peaks.map ChipPeak.chip)
  let mags := peaks.map ChipPeak.magnitude
  let steps := trajSteps traj
  let medStep := steps.mergeSort.getD (steps.length / 2) 0
  -- the first window straddles the detection boundary; sync word and SFD end the run
  let fitBegin := 1
  let fitEnd := fitBegin + 1 + ((List.range' (fitBegin + 1) (usable - (fitBegin + 1))).takeWhile fun s =>
    decide (1 / 4 * mags.getD fitBegin 0 < mags.getD s 0) &&
      decide (|steps.getD (s - 1) 0 - medStep| < 4)).length
  let nFit := fitEnd - fitBegin
  if nFit < 4 then
    let near := steps.filter fun st => decide (|st - medStep| ≤ 1)
    if 3 ≤ near.length then some (near.sum / near.length) else none
  else
    let fit := Finset.Ico fitBegin fitEnd
    let sx := ∑ s ∈ fit, (s : ℚ)
    let sy := ∑ s ∈ fit, traj.getD s 0
    let sxx := ∑ s ∈ fit, (s : ℚ) * s
    let sxy := ∑ s ∈ fit, s * traj.getD s 0
    some ((nFit * sxy - sx * sy) / (nFit * sxx - sx * sx))

/-- A line through unwrapped positions is no steeper than their steps. -/
theorem abs_fit_le {traj : List ℚ} {b : ℚ} (hb : 0 ≤ b)
    (hsteps : ∀ step ∈ trajSteps traj, |step| ≤ b) (first : ℕ) {last : ℕ} (hlast : last ≤ traj.length) :
    |Fit.slope (Finset.Ico first last) (fun s => (s : ℚ)) fun s => traj.getD s 0| ≤ b := by
  refine Fit.abs_slope_le hb fun i _ j hj hij => ?_
  obtain ⟨k, rfl⟩ := Nat.exists_eq_add_of_le (Nat.cast_lt.mp hij).le
  have hk : i + k < traj.length := (Finset.mem_Ico.mp hj).2.trans_le hlast
  have hfar := abs_sub_le_of_steps hsteps hk
  push_cast
  rwa [add_sub_cancel_left]

/-- **The slope is in range.** -/
theorem abs_preambleSlope_le {α : Type} (demod : List α → ChipPeak) (sps : ℕ) {nChips : ℚ}
    (hpos : 0 < nChips) {samples : List α} {slope : ℚ}
    (h : preambleSlope demod sps nChips samples = some slope) : |slope| ≤ nChips / 2 := by
  have hhalf : 0 ≤ nChips / 2 := by linarith
  unfold preambleSlope at h
  simp only at h
  generalize hpeaks : (List.range (samples.length / sps)).map
    (fun s => demod ((samples.drop (s * sps)).take sps)) = peaks at h
  have hsteps := abs_step_unwrap hpos (peaks.map ChipPeak.chip)
  have hlength : (unwrap nChips (peaks.map ChipPeak.chip)).length = samples.length / sps := by
    rw [length_unwrap, List.length_map, ← hpeaks, List.length_map, List.length_range]
  generalize unwrap nChips (peaks.map ChipPeak.chip) = traj at h hsteps hlength
  generalize hrun : List.takeWhile _ _ = run at h
  have hrun_le : run.length ≤ samples.length / sps - 2 := by
    rw [← hrun]
    exact (List.takeWhile_sublist _).length_le.trans_eq List.length_range'
  split at h
  · split at h
    · obtain rfl := Option.some.inj h
      exact Fit.abs_mean_le hhalf fun st hst => hsteps st (List.mem_of_mem_filter hst)
    · exact absurd h (by simp)
  · obtain rfl := Option.some.inj h
    have hend : 1 + 1 + run.length ≤ traj.length := by omega
    have hfit := abs_fit_le hhalf hsteps 1 hend
    rwa [Fit.slope, Nat.card_Ico] at hfit

namespace Receiver

/-- The receiver's preamble slope, as the source computes it, is in range. -/
theorem slopeInRange_of_eq {α τ : Type} {R : Receiver α τ}
    (h : ∀ samples, R.dsp.preambleSlope samples
      = preambleSlope (fun w => R.dsp.demod w false) R.sps R.nChips samples) : SlopeInRange R :=
  fun samples _ hslope => abs_preambleSlope_le _ _ cast_nChips_pos ((h samples).symm.trans hslope)

end Receiver
