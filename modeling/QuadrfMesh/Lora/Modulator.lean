/-
# The modulator (`src/lora/modulator.cpp`)

Upchirps with their frequency fold, and the frame: preamble, sync word, 2.25 downchirps and
the data.  A sample is what the phase makes of it: phases are exact rationals in turns, and the
operations on samples are a parameter.  A chirp against the base chirp is a tone that steps
down where the chirp folds (`upchirpTurns_sub`), and a base chirp from some chips on, with the
next one after it, is the chirp of that many chips up to a phase (`upchirpTurns_shift`).
-/
import QuadrfMesh.Lib.Fourier
import QuadrfMesh.Radio.PacketTime

/-- What the modulator and the demodulator do with samples: `Sample(a * cos, a * sin)` of a
phase in turns, `std::conj`, `std::norm`, and the transform behind `FftEngine::forward`. -/
structure SampleOps (S P : Type) where
  polar : P → ℚ → S
  conj : S → S
  norm : S → P
  forward : List S → List S

/-- The phase of sample `n` in `buildUpchirp`, in turns.  `n_fold` is unsigned. -/
def upchirpTurns (id sf os n : ℕ) : ℚ :=
  let nChips : ℕ := 1 <<< sf
  let total := nChips * os
  let nFold := (total + (2 ^ 32 - id * os % 2 ^ 32)) % 2 ^ 32
  let quad : ℚ := n * n / (2 * nChips) / (os * os)
  let lin : ℚ := if n < nFold then id / nChips - 1 / 2 else id / nChips - 3 / 2
  quad + lin * n / os

/-- `buildUpchirp`. -/
def buildUpchirp {S P : Type} (ops : SampleOps S P) (id sf os : ℕ) (amplitude : P) : List S :=
  (List.range ((1 <<< sf) * os)).map fun n => ops.polar amplitude (upchirpTurns id sf os n)

/-- `up_` of the modulator. -/
def upChirp {S P : Type} (ops : SampleOps S P) (p : LoraParams) (amplitude : P) : List S :=
  buildUpchirp ops 0 p.spreadingFactor (osFactor p) amplitude

/-- `down_` of the modulator. -/
def downChirp {S P : Type} (ops : SampleOps S P) (p : LoraParams) (amplitude : P) : List S :=
  (upChirp ops p amplitude).map ops.conj

/-- `Modulator::frame`. -/
def modulate {S P : Type} (ops : SampleOps S P) (amplitude : P) (p : LoraParams)
    (chips : List UInt16) : List S :=
  let chirp := fun id => buildUpchirp ops id p.spreadingFactor (osFactor p) amplitude
  let down := downChirp ops p amplitude
  (List.replicate p.preambleLen (upChirp ops p amplitude)).flatten
    ++ chirp (syncChip0 p) ++ chirp (syncChip1 p)
    ++ down ++ down ++ down.take (samplesPerSymbol p / 4)
    ++ chips.flatMap fun chip => chirp chip.toNat

section Length

variable {S P : Type} (ops : SampleOps S P) (p : LoraParams) (amplitude : P)

@[simp] theorem length_buildUpchirp (id sf os : ℕ) :
    (buildUpchirp ops id sf os amplitude).length = 2 ^ sf * os := by
  rw [buildUpchirp, List.length_map, List.length_range, Nat.one_shiftLeft]

theorem samplesPerSymbol_eq : samplesPerSymbol p = 2 ^ p.spreadingFactor * osFactor p := by
  rw [samplesPerSymbol, chipCount_eq]

@[simp] theorem length_upChirp : (upChirp ops p amplitude).length = samplesPerSymbol p := by
  rw [upChirp, length_buildUpchirp, samplesPerSymbol_eq]

@[simp] theorem length_downChirp : (downChirp ops p amplitude).length = samplesPerSymbol p := by
  rw [downChirp, List.length_map, length_upChirp]

/-- The samples of the frame are as many as its air time charges for. -/
theorem length_modulate (chips : List UInt16) :
    (modulate ops amplitude p chips).length = frameSamples p chips.length := by
  have hdata : (chips.flatMap fun chip =>
      buildUpchirp ops chip.toNat p.spreadingFactor (osFactor p) amplitude).length
        = chips.length * samplesPerSymbol p := by
    rw [List.length_flatMap, List.map_congr_left (g := fun _ => samplesPerSymbol p), List.map_const',
      List.sum_replicate, smul_eq_mul]
    intro chip _
    rw [length_buildUpchirp, samplesPerSymbol_eq]
  have hquarter : samplesPerSymbol p / 4 ≤ samplesPerSymbol p := Nat.div_le_self _ _
  simp only [modulate, List.length_append, hdata, List.length_flatten, List.map_replicate,
    List.sum_replicate, length_upChirp, length_buildUpchirp, length_downChirp, List.length_take,
    ← samplesPerSymbol_eq, min_eq_left hquarter, smul_eq_mul, frameSamples]

end Length

/-! ## Phases -/

section Phases

variable {sf os : ℕ} (hos : 0 < os) (hfits : 2 ^ sf * os < 2 ^ 32)
include hos hfits

/-- Where the chirp folds. -/
theorem lt_nFold_iff {id : ℕ} (hid : id < 2 ^ sf) {n : ℕ} (hn : n < 2 ^ sf * os) :
    n < (2 ^ sf * os + (2 ^ 32 - id * os % 2 ^ 32)) % 2 ^ 32 ↔ n < (2 ^ sf - id) * os := by
  have hlt : id * os < 2 ^ sf * os := Nat.mul_lt_mul_of_pos_right hid hos
  have hsplit : (2 ^ sf - id) * os + id * os = 2 ^ sf * os := by
    rw [← add_mul, Nat.sub_add_cancel hid.le]
  rw [Nat.mod_eq_of_lt (hlt.trans hfits),
    show 2 ^ sf * os + (2 ^ 32 - id * os) = (2 ^ sf - id) * os + 2 ^ 32 by omega,
    Nat.add_mod_right, Nat.mod_eq_of_lt (by omega)]

/-- The phase of a chirp. -/
theorem upchirpTurns_eq {id : ℕ} (hid : id < 2 ^ sf) {n : ℕ} (hn : n < 2 ^ sf * os) :
    upchirpTurns id sf os n = n * n / (2 * (2 ^ sf : ℕ)) / (os * os)
      + (if n < (2 ^ sf - id) * os then (id / (2 ^ sf : ℕ) - 1 / 2 : ℚ)
        else id / (2 ^ sf : ℕ) - 3 / 2) * n / os := by
  simp only [upchirpTurns, Nat.one_shiftLeft, lt_nFold_iff hos hfits hid hn]

/-- **Against the base chirp**, a chirp is a tone that steps down where it folds. -/
theorem upchirpTurns_sub {id : ℕ} (hid : id < 2 ^ sf) {n : ℕ} (hn : n < 2 ^ sf * os) :
    upchirpTurns id sf os n - upchirpTurns 0 sf os n
      = id * n / (2 ^ sf * os : ℕ) + if n < (2 ^ sf - id) * os then 0 else -(n / os : ℚ) := by
  have hN : ((2 ^ sf : ℕ) : ℚ) ≠ 0 := by positivity
  have hos' : (os : ℚ) ≠ 0 := Nat.cast_ne_zero.mpr hos.ne'
  rw [upchirpTurns_eq hos hfits hid hn, upchirpTurns_eq hos hfits (by positivity) hn,
    if_pos (show n < (2 ^ sf - 0) * os from hn)]
  split_ifs <;> push_cast <;> field_simp <;> ring

/-- A base chirp from `d` chips on, and then the next one, is the chirp of `d` chips. -/
theorem upchirpTurns_shift {d : ℕ} (hd : d < 2 ^ sf) {n : ℕ} (hn : n < 2 ^ sf * os) :
    ∃ k : ℤ, upchirpTurns 0 sf os ((n + d * os) % (2 ^ sf * os))
      = upchirpTurns d sf os n + upchirpTurns 0 sf os (d * os) + k := by
  have hN : ((2 ^ sf : ℕ) : ℚ) ≠ 0 := by positivity
  have hos' : (os : ℚ) ≠ 0 := Nat.cast_ne_zero.mpr hos.ne'
  have hlt : d * os < 2 ^ sf * os := Nat.mul_lt_mul_of_pos_right hd hos
  have hsplit : (2 ^ sf - d) * os + d * os = 2 ^ sf * os := by
    rw [← add_mul, Nat.sub_add_cancel hd.le]
  have hzero : ∀ m < 2 ^ sf * os, upchirpTurns 0 sf os m
      = m * m / (2 * (2 ^ sf : ℕ)) / (os * os) - 1 / 2 * m / os := by
    intro m hm
    rw [upchirpTurns_eq hos hfits (by positivity) hm, if_pos (show m < (2 ^ sf - 0) * os from hm)]
    push_cast
    ring
  rw [upchirpTurns_eq hos hfits hd hn, hzero _ hlt]
  by_cases hfold : n < (2 ^ sf - d) * os
  · -- still in the first of the two
    refine ⟨0, ?_⟩
    rw [if_pos hfold, Nat.mod_eq_of_lt (by omega), hzero _ (by omega)]
    push_cast
    field_simp
    ring
  · refine ⟨2 ^ sf - d, ?_⟩
    have hmod : (n + d * os) % (2 ^ sf * os) = n + d * os - 2 ^ sf * os := by
      rw [Nat.mod_eq_sub_mod (by omega), Nat.mod_eq_of_lt (by omega)]
    rw [if_neg hfold, hmod, hzero _ (by omega), Nat.cast_sub (by omega)]
    push_cast
    field_simp
    ring

end Phases
