/-
# The noise bandwidth of the chain (`Ddc::Ddc` in `src/dsp/ddc.cpp`)

From the impulse response of the cascade the constructor works out `noise_bw_hz_`, which the
receiver's metrics are corrected with.  White input of density `N0` leaves the power
`N0 * noise_bw_hz_` in each sample the chain writes (`noise_bandwidth`).

Samples are random variables: elements of a commutative ring with an involution and a linear
expectation.  Taps and oscillator are constants in it.
-/
import QuadrfMesh.Dsp.Cascade
import QuadrfMesh.Lib.WhiteNoise

namespace Dsp

open Noise Streaming

section Noise

variable {K A : Type*} [CommRing K] [CommRing A] [Algebra K A] [StarRing K]

/-! ## The oscillator -/

/-- A constant of unit magnitude. -/
def IsUnitPhase (u : A) : Prop := ∃ c : K, u = algebraMap K A c ∧ star c * c = 1

/-- An oscillator of unit magnitude. -/
def Nco.UnitPhase (K : Type*) {A : Type*} [CommRing K] [CommRing A] [Algebra K A] [StarRing K]
    (renorm : A → A) : Nco A → Prop
  | off => True
  | table nco _ => ∀ u ∈ nco, IsUnitPhase (K := K) u
  | phasor rot rotStep _ =>
      IsUnitPhase (K := K) rot ∧ IsUnitPhase (K := K) rotStep ∧
        ∀ u, IsUnitPhase (K := K) u → IsUnitPhase (K := K) (renorm u)

theorem IsUnitPhase.mul {u v : A} (hu : IsUnitPhase (K := K) u) (hv : IsUnitPhase (K := K) v) :
    IsUnitPhase (K := K) (u * v) := by
  obtain ⟨c, rfl, hc⟩ := hu
  obtain ⟨d, rfl, hd⟩ := hv
  refine ⟨c * d, (map_mul _ _ _).symm, ?_⟩
  rw [star_mul, mul_comm (star d), mul_mul_mul_comm, hc, hd, one_mul]

/-- **The mixer rotates each sample**: what answers each sample with the sample times a unit,
from states that meet `P`, does so on every input. -/
theorem perItem_rotates {σ : Type*} {step : σ → A → σ × A} {P : σ → Prop}
    (hstep : ∀ s x, P s → P (step s x).1 ∧ ∃ u, IsUnitPhase (K := K) u ∧ (step s x).2 = x * u)
    {s : σ} (hs : P s) (xs : List A) :
    ∀ i < xs.length, ∃ c : K, star c * c = 1 ∧
      (perItem step s xs).2.getD i 0 = c • xs.getD i 0 := by
  induction xs generalizing s with
  | nil =>
      intro i hi
      exact absurd hi (Nat.not_lt_zero i)
  | cons x xs ih =>
      obtain ⟨hnext, u, ⟨c, rfl, hc⟩, hout⟩ := hstep s x hs
      rintro (_ | i) hi
      · refine ⟨c, hc, ?_⟩
        rw [perItem_cons, List.getD_cons_zero, List.getD_cons_zero, hout, mul_comm,
          Algebra.smul_def]
      · rw [perItem_cons, List.getD_cons_succ, List.getD_cons_succ]
        exact ih hnext i (Nat.lt_of_succ_lt_succ hi)

/-- **An oscillator of unit magnitude** turns each sample by a unit. -/
theorem mix_rotates {renorm : A → A} {nco : Nco A} (hnco : nco.UnitPhase K renorm) (xs : List A) :
    ∀ i < xs.length, ∃ c : K, star c * c = 1 ∧
      (nco.mix renorm xs).2.getD i 0 = c • xs.getD i 0 := by
  cases nco with
  | off =>
      intro i _
      exact ⟨1, by rw [star_one, one_mul], (one_smul K _).symm⟩
  | table nco pos =>
      simp only [Nco.mix, Nco.mixTable_eq]
      refine perItem_rotates (P := fun _ => True) ?_ trivial xs
      intro pos x _
      exact ⟨trivial, _, hnco _ (List.get_mem nco pos), rfl⟩
  | phasor rot rotStep rotCount =>
      obtain ⟨hrot, hrotStep, hrenorm⟩ := hnco
      refine perItem_rotates (P := fun s : A × ℕ => IsUnitPhase (K := K) s.1) ?_ hrot xs
      intro s x hs
      refine ⟨?_, s.1, hs, rfl⟩
      have hturned := hs.mul hrotStep
      unfold Nco.mixPhasor
      simp only
      split
      · exact hrenorm _ hturned
      · exact hturned

/-! ## Real taps -/

/-- The loop over the taps keeps real taps real. -/
theorem real_cascade {h1 h2 : List K} (m1 : ℕ) (hh1 : ∀ v ∈ h1, star v = v)
    (hh2 : ∀ v ∈ h2, star v = v) : ∀ v ∈ cascade h1 h2 m1, star v = v := by
  have hget : ∀ {h : List K}, (∀ v ∈ h, star v = v) → ∀ i, star (h.getD i 0) = h.getD i 0 := by
    intro h hh i
    rw [List.getD_eq_getElem?_getD]
    rcases hi : h[i]? with _ | v
    · exact star_zero K
    · exact hh v (List.mem_of_getElem? hi)
  unfold cascade
  apply List.foldlRecOn (motive := fun h : List K => ∀ v ∈ h, star v = v)
  · intro v hv
    rw [List.eq_of_mem_replicate hv, star_zero]
  · intro h hh j _
    apply List.foldlRecOn (motive := fun h : List K => ∀ v ∈ h, star v = v)
    · exact hh
    · intro h' hh' i _ v hv
      rcases List.mem_or_eq_of_mem_set hv with hold | rfl
      · exact hh' v hold
      · rw [star_add, hget hh', star_mul, hget hh1, hget hh2, mul_comm (h2.getD j 0)]

theorem real_impulse {h1 h2 : List K} (ratio : ℕ) (hh1 : ∀ v ∈ h1, star v = v)
    (hh2 : ∀ v ∈ h2, star v = v) : ∀ v ∈ impulse ratio h1 h2, star v = v := by
  have hpad : ∀ {h : List K}, (∀ v ∈ h, star v = v) → ∀ v ∈ coefficients h, star v = v := by
    intro h hh v hv
    rcases List.mem_append.mp hv with hold | hnew
    · exact hh v hold
    · rw [List.eq_of_mem_replicate hnew, star_zero]
  unfold impulse
  split
  · exact real_cascade _ (hpad hh1) (hpad hh2)
  · exact hpad hh2

/-! ## The noise bandwidth -/

/-- `noise_bw_hz_`, as the constructor works it out. -/
def noiseBwHz (fsIn : K) (ratio : ℕ) (h1 h2 : List K) : K :=
  fsIn * (impulse ratio h1 h2).foldl (fun e v => e + v * v) 0

omit [StarRing K] in
theorem foldl_energy (h : List K) :
    h.foldl (fun e v => e + v * v) 0 = ∑ k ∈ Finset.range h.length, h.getD k 0 * h.getD k 0 := by
  induction h using List.reverseRecOn with
  | nil => rfl
  | append_singleton h v ih =>
      rw [List.foldl_append, ih, List.length_append, List.length_singleton,
        Finset.sum_range_succ, List.foldl_cons, List.foldl_nil]
      congr 1
      · apply Finset.sum_congr rfl
        intro k hk
        rw [List.getD_append _ _ _ _ (Finset.mem_range.mp hk)]
      · simp

variable {ratio : ℕ} (hratio : 2 ≤ ratio) (nco : Nco A) {h1 h2 : List K}
  (hh1 : h1.map (algebraMap K A) ≠ []) (hh2 : h2.map (algebraMap K A) ≠ [])

/-- **Noise bandwidth.**  White input of density `N0` at the rate `fsIn`, whatever way it is cut,
leaves the power `N0 * noiseBwHz` in every sample the chain writes from a window inside the
input: the oscillator turns samples without changing their power, and the two stages together
weigh them with the impulse response. -/
theorem noise_bandwidth [StarRing A] [StarModule K A] (heven : 2 ∣ ratio) {renorm : A → A}
    (hnco : nco.UnitPhase K renorm)
    (hreal1 : ∀ v ∈ h1, star v = v) (hreal2 : ∀ v ∈ h2, star v = v) {expect : A →ₗ[K] K}
    {N0 fsIn : K} {chunks : List (List A)}
    (hwhite : White expect (N0 * fsIn) chunks.flatten.length fun i => chunks.flatten.getD i 0)
    {m : ℕ} {y : A}
    (hy : (run (Ddc.process renorm) (Ddc.ofPrototypes ratio hratio nco (h1.map (algebraMap K A))
        (h2.map (algebraMap K A)) hh1 hh2) chunks).2[m]? = some y)
    (hinside : (impulse ratio h1 h2).length ≤ m * ratio + 1) :
    expect (star y * y) = N0 * noiseBwHz fsIn ratio h1 h2 := by
  set h := impulse ratio h1 h2 with hh
  set xs := chunks.flatten with hxs
  rw [(Ddc.splits_process renorm).run_eq_of_nil (Ddc.process_nil renorm _) chunks,
    getElem?_process_impulse hratio nco hh1 hh2 heven renorm xs m, ← hh] at hy
  obtain ⟨hlt, hval⟩ := Option.ite_none_right_eq_some.mp hy
  -- the mixed input is white
  have hturn := mix_rotates hnco xs
  choose! c hunit hmixed using hturn
  have hmixedWhite : White expect (N0 * fsIn) xs.length fun i => (nco.mix renorm xs).2.getD i 0 :=
    (hwhite.rotate hunit).congr hmixed
  have hsum : y = ∑ k ∈ Finset.range h.length,
      h.getD k 0 • (nco.mix renorm xs).2.getD (m * ratio + 1 - h.length + k) 0 := by
    rw [← Option.some.inj hval]
    apply weigh_congr
    intro k hk
    rw [getD_zeros_append, if_neg (by omega)]
    congr 1
    omega
  have hpower := hmixedWhite.power_sum (fun k => h.getD k 0) (m * ratio + 1 - h.length) h.length
    (by omega)
  rw [hsum, hpower, noiseBwHz, foldl_energy, ← hh, mul_assoc]
  congr 2
  apply Finset.sum_congr rfl
  intro k hk
  have hk' := Finset.mem_range.mp hk
  have hmem : h.getD k 0 ∈ h := by
    rw [List.getD_eq_getElem _ _ hk']
    exact List.getElem_mem hk'
  rw [real_impulse ratio hreal1 hreal2 _ hmem]

/-- The expectation over thirteen outcomes of weight one. -/
def overOutcomes : (Fin 13 → ℚ) →ₗ[ℚ] ℚ := ∑ outcome, LinearMap.proj outcome

/-- Thirteen uncorrelated samples, each nonzero in one outcome. -/
def separate : List (Fin 13 → ℚ) := List.ofFn fun i => Pi.single i 1

theorem white_separate :
    White overOutcomes (1 / 2 * 2) separate.length fun i => separate.getD i 0 := by
  have hlen : separate.length = 13 := List.length_ofFn
  have hget : ∀ i (hi : i < 13), separate.getD i 0 = Pi.single (⟨i, hi⟩ : Fin 13) (1 : ℚ) := by
    intro i hi
    rw [List.getD_eq_getElem _ _ (by rwa [hlen])]
    exact List.getElem_ofFn _
  rw [hlen]
  intro i hi j hj
  simp only [hget i hi, hget j hj]
  by_cases hij : i = j
  · subst hij
    simp [overOutcomes, Pi.single_apply]
  · have hji : ¬ j = i := fun h => hij h.symm
    simp [overOutcomes, Pi.single_apply, hij, hji]

/-- The two stages from before behind an oscillator of two phases: the energy of their taps is
ten. -/
theorem noise_bandwidth_four :
    ∃ y, (run (Ddc.process id) (Ddc.ofPrototypes 4 (by decide) (.table [1, -1] ⟨0, by decide⟩)
        ([1, 2].map (algebraMap ℚ (Fin 13 → ℚ))) ([1, 1].map (algebraMap ℚ (Fin 13 → ℚ)))
        (by simp) (by simp)) [separate.take 5, [], separate.drop 5]).2[3]? = some y ∧
      overOutcomes (star y * y) = 10 := by
  have hflat : [separate.take 5, [], separate.drop 5].flatten = separate := by
    simp [List.take_append_drop]
  have hphase : (Nco.table [1, -1] ⟨0, by decide⟩ : Nco (Fin 13 → ℚ)).UnitPhase ℚ id := by
    intro u hu
    rcases List.mem_cons.mp hu with rfl | hu
    · exact ⟨1, (map_one _).symm, by norm_num⟩
    · rw [List.mem_singleton.mp hu]
      exact ⟨-1, by rw [map_neg, map_one], by norm_num⟩
  have himpulse : impulse 4 ([1, 2] : List ℚ) [1, 1] = [1, 2, 1, 2, 0, 0, 0, 0, 0, 0] := by
    decide +kernel
  have hbw : (1 / 2 : ℚ) * noiseBwHz 2 4 [1, 2] [1, 1] = 10 := by
    rw [noiseBwHz, himpulse]
    norm_num
  obtain ⟨y, hy⟩ : ∃ y, (run (Ddc.process id) (Ddc.ofPrototypes 4 (by decide)
      (.table [1, -1] ⟨0, by decide⟩) ([1, 2].map (algebraMap ℚ (Fin 13 → ℚ)))
      ([1, 1].map (algebraMap ℚ (Fin 13 → ℚ))) (by simp) (by simp))
      [separate.take 5, [], separate.drop 5]).2[3]? = some y := by
    rw [(Ddc.splits_process id).run_eq_of_nil (Ddc.process_nil id _), hflat,
      getElem?_process_impulse _ _ _ _ (by decide) id separate 3, if_pos]
    · exact ⟨_, rfl⟩
    · simp [separate]
  refine ⟨y, hy, ?_⟩
  rw [← hbw]
  refine noise_bandwidth _ _ _ _ (by decide) hphase ?_ ?_ ?_ hy ?_
  · intro v _
    exact star_trivial v
  · intro v _
    exact star_trivial v
  · rw [hflat]
    exact white_separate
  · rw [himpulse]
    decide

end Noise

end Dsp
