/-
# The down-converter (`class Ddc` in `src/dsp/ddc.cpp`)

A sample is mixed with the oscillator, then goes through one or two decimating filters.
The table of the oscillator is read in spans (`mixTable`), which is reading it sample by
sample (`mixTable_eq`); so every part splits, and so does the chain (`splits_process`).
-/
import QuadrfMesh.Dsp.DecimatingFir

namespace Dsp

open Streaming

/-- The oscillator of `Ddc`: none without an IF offset, a table of whole periods with the
position in it, or a phasor that turns at every sample. -/
inductive Nco (R : Type*)
  | off
  | table (nco : List R) (pos : Fin nco.length)
  | phasor (rot rotStep : R) (rotCount : ℕ)

namespace Nco

variable {R : Type*} [CommRing R]

/-- `nco_pos_` after a span: the end of the table is its start. -/
def wrap {n : ℕ} (hn : 0 < n) (pos : ℕ) (hpos : pos ≤ n) : Fin n :=
  if h : pos = n then ⟨0, hn⟩ else ⟨pos, by omega⟩

/-- The mixing loop over the table: spans up to the end of the table. -/
def mixTable (nco : List R) (pos : Fin nco.length) (input : List R) :
    Fin nco.length × List R :=
  if h : input = [] then (pos, [])
  else
    let span := min input.length (nco.length - pos)
    let rest := mixTable nco (wrap pos.pos (pos + span) (by omega)) (input.drop span)
    (rest.1, List.zipWith (· * ·) (input.take span) (nco.drop pos) ++ rest.2)
termination_by input.length
decreasing_by
  have hpos := List.length_pos_of_ne_nil h
  have hlt := pos.isLt
  rw [List.length_drop]
  omega

/-- The mixing loop over the phasor; `renorm` divides a phasor by its magnitude. -/
def mixPhasor (renorm : R → R) (rotStep : R) (s : R × ℕ) (x : R) : (R × ℕ) × R :=
  let rot := s.1 * rotStep
  let rotCount := s.2 + 1
  (if rotCount = 1024 then (renorm rot, 0) else (rot, rotCount), x * s.1)

/-- The first step of `process`: `src`, the input or what the mixer made of it. -/
def mix (renorm : R → R) : Nco R → List R → Nco R × List R
  | off, input => (off, input)
  | table nco pos, input =>
      let r := mixTable nco pos input
      (table nco r.1, r.2)
  | phasor rot rotStep rotCount, input =>
      let r := perItem (mixPhasor renorm rotStep) (rot, rotCount) input
      (phasor r.1.1 rotStep r.1.2, r.2)

/-! ## Sample by sample -/

/-- One sample mixed with the table. -/
def mixOne (nco : List R) (pos : Fin nco.length) (x : R) : Fin nco.length × R :=
  (wrap pos.pos (pos + 1) pos.isLt, x * nco.get pos)

theorem wrap_of_lt {n : ℕ} (hn : 0 < n) {pos : ℕ} (h : pos < n) (hpos : pos ≤ n) :
    wrap hn pos hpos = ⟨pos, h⟩ := dif_neg (by omega)

/-- A span that ends with the table or before. -/
theorem perItem_mixOne_span (nco : List R) (pos : Fin nco.length) (input : List R)
    (h : pos + input.length ≤ nco.length) :
    perItem (mixOne nco) pos input
      = (wrap pos.pos (pos + input.length) h, List.zipWith (· * ·) input (nco.drop pos)) := by
  induction input generalizing pos with
  | nil =>
      rw [List.zipWith_nil_left]
      apply Prod.ext
      · exact (wrap_of_lt pos.pos pos.isLt pos.isLt.le).symm
      · rfl
  | cons x xs ih =>
      rw [List.drop_eq_getElem_cons pos.isLt, List.zipWith_cons_cons]
      rw [List.length_cons] at h
      rcases eq_or_ne xs [] with rfl | hxs
      · rw [List.zipWith_nil_left]
        rfl
      · -- the table goes on
        have hlt : (pos : ℕ) + 1 < nco.length := by
          have := List.length_pos_of_ne_nil hxs
          omega
        have hnext : (mixOne nco pos x).1 = ⟨pos + 1, hlt⟩ := wrap_of_lt pos.pos hlt hlt.le
        have hrest := ih ⟨pos + 1, hlt⟩ (by simp only; omega)
        have hend : (pos : ℕ) + 1 + xs.length = pos + (x :: xs).length := by
          rw [List.length_cons]
          omega
        simp only [perItem_cons, hnext, hrest, hend]
        rfl

/-- **Reading the table in spans is reading it sample by sample.** -/
theorem mixTable_eq (nco : List R) (pos : Fin nco.length) (input : List R) :
    mixTable nco pos input = perItem (mixOne nco) pos input := by
  induction pos, input using mixTable.induct nco with
  | case1 pos =>
      rw [mixTable, dif_pos rfl]
      rfl
  | case2 pos input h span ih =>
      have hspan : (pos : ℕ) + (input.take span).length ≤ nco.length := by
        have := pos.isLt
        have hs : span = min input.length (nco.length - pos) := rfl
        rw [List.length_take]
        omega
      have hlen : (input.take span).length = span := by
        rw [List.length_take]
        exact Nat.min_eq_left (Nat.min_le_left ..)
      have hsplit := splits_perItem (mixOne nco) pos (input.take span) (input.drop span)
      rw [List.take_append_drop, perItem_mixOne_span nco pos _ hspan] at hsplit
      simp only [hlen, ← ih] at hsplit
      rw [mixTable, dif_neg h, hsplit]

/-- **The mixer splits**, whatever its oscillator. -/
theorem splits_mix (renorm : R → R) : Splits (mix renorm) := by
  intro nco xs ys
  cases nco with
  | off => rfl
  | table nco pos =>
      simp only [mix, mixTable_eq, splits_perItem (mixOne nco) pos xs ys]
  | phasor rot rotStep rotCount =>
      simp only [mix, splits_perItem (mixPhasor renorm rotStep) (rot, rotCount) xs ys]

theorem mix_nil (renorm : R → R) (nco : Nco R) : nco.mix renorm [] = (nco, []) := by
  cases nco with
  | off => rfl
  | table nco pos =>
      rw [mix, mixTable, dif_pos rfl]
  | phasor rot rotStep rotCount => rfl

end Nco

/-- `class Ddc`, the parts `process` uses. -/
@[ext]
structure Ddc (R : Type*) where
  passthrough : Bool
  useSt1 : Bool
  nco : Nco R
  st1 : DecimatingFir R
  st2 : DecimatingFir R
  /-- a filter in use has been designed -/
  st1_taps : useSt1 = true → st1.taps ≠ []
  st2_taps : passthrough = false → st2.taps ≠ []

namespace Ddc

variable {R : Type*} [CommRing R]

/-- The stages `Ddc::Ddc` sets up for `fs_in / fs_out = ratio`, from the prototypes
designed for them. -/
def ofPrototypes (ratio : ℕ) (hratio : 2 ≤ ratio) (nco : Nco R) (h1 h2 : List R) (hh1 : h1 ≠ [])
    (hh2 : h2 ≠ []) : Ddc R where
  passthrough := false
  useSt1 := decide (2 < ratio)
  nco
  st1 := DecimatingFir.ofPrototype h1 (ratio / 2) (by omega)
  st2 := DecimatingFir.ofPrototype h2 2 (by omega)
  st1_taps := fun _ => List.append_ne_nil_of_left_ne_nil hh1 _
  st2_taps := fun _ => List.append_ne_nil_of_left_ne_nil hh2 _

/-- `process`. -/
def process (renorm : R → R) (d : Ddc R) (input : List R) : Ddc R × List R :=
  if d.passthrough then (d, input)
  else
    let src := d.nco.mix renorm input
    if d.useSt1 then
      let mid := d.st1.process src.2
      let out := d.st2.process mid.2
      ({ d with nco := src.1, st1 := mid.1, st2 := out.1
                st1_taps := d.st1_taps, st2_taps := d.st2_taps }, out.2)
    else
      let out := d.st2.process src.2
      ({ d with nco := src.1, st2 := out.1, st2_taps := d.st2_taps }, out.2)

/-- **The chain splits.** -/
theorem splits_process (renorm : R → R) : Splits (process renorm) := by
  intro d xs ys
  have hmix := Nco.splits_mix renorm d.nco xs ys
  cases hpass : d.passthrough with
  | true => simp only [process, hpass, if_true]
  | false =>
      cases huse : d.useSt1 with
      | true =>
          simp only [process, hpass, huse, hmix, DecimatingFir.splits_process _ _ _, if_true,
            Bool.false_eq_true, if_false]
      | false =>
          simp only [process, hpass, huse, hmix, DecimatingFir.splits_process _ _ _,
            Bool.false_eq_true, if_false]

theorem process_nil (renorm : R → R) (d : Ddc R) : d.process renorm [] = (d, []) := by
  cases hpass : d.passthrough with
  | true => simp only [process, hpass, if_true]
  | false =>
      have hst2 := DecimatingFir.process_nil (d.st2_taps hpass)
      cases huse : d.useSt1 with
      | true =>
          have hst1 := DecimatingFir.process_nil (d.st1_taps huse)
          simp only [process, hpass, huse, Nco.mix_nil, hst1, hst2, if_true,
            Bool.false_eq_true, if_false]
          exact Prod.ext (Ddc.ext hpass.symm huse.symm rfl rfl rfl) rfl
      | false =>
          simp only [process, hpass, huse, Nco.mix_nil, hst2, Bool.false_eq_true, if_false]
          exact Prod.ext (Ddc.ext hpass.symm huse.symm rfl rfl rfl) rfl

/-- **How the input is cut does not matter.**  After a reset the filter writes, for every
`m`, the window at `m * decim` of its taps less one zeros followed by the input, as long as
it fits; and the down-converter fed in pieces ends and writes as after one call. -/
theorem chunking (renorm : R → R) :
    (∀ (d : DecimatingFir R) (chunks : List (List R)), d.taps ≠ [] ∨ chunks ≠ [] →
      ∀ m, (run DecimatingFir.process d.reset chunks).2[m]?
        = if m * d.decim + d.taps.length
              ≤ (List.replicate (d.taps.length - 1) 0 ++ chunks.flatten).length then
            some (∑ k ∈ Finset.range d.taps.length, d.taps.getD k 0
              * (List.replicate (d.taps.length - 1) 0 ++ chunks.flatten).getD (m * d.decim + k) 0)
          else none) ∧
    ∀ (d : Ddc R) (chunks : List (List R)),
      run (process renorm) d chunks = d.process renorm chunks.flatten := by
  constructor
  · intro d chunks hcut m
    have hrun : run DecimatingFir.process d.reset chunks = d.reset.process chunks.flatten := by
      rcases hcut with htaps | hne
      · have hnil := DecimatingFir.process_nil (d := d.reset) htaps
        exact DecimatingFir.splits_process.run_eq_of_nil hnil chunks
      · exact DecimatingFir.splits_process.run_eq d.reset hne
    rw [hrun]
    exact DecimatingFir.getElem?_process_reset d chunks.flatten m
  · intro d chunks
    exact (splits_process renorm).run_eq_of_nil (process_nil renorm d) chunks

/-- Two taps and every third window, and a table of two entries before one stage: the chunks
are shorter than the taps, the decimation and the table. -/
theorem chunking_short :
    (run DecimatingFir.process
        (DecimatingFir.ofPrototype [2, 1] 3 (by decide) : DecimatingFir ℤ).reset
        [[5], [], [7, 9, 4]]).2[1]? = some 17 ∧
      (run (process id)
        (ofPrototypes 2 (by decide) (.table [1, -1] ⟨0, by decide⟩) [1] [1, 1] (by decide)
          (by decide) : Ddc ℤ) [[3], [], [4, 5]]).2
        = ((ofPrototypes 2 (by decide) (.table [1, -1] ⟨0, by decide⟩) [1] [1, 1] (by decide)
          (by decide) : Ddc ℤ).process id [3, 4, 5]).2 :=
  ⟨((chunking id).1 _ [[5], [], [7, 9, 4]] (Or.inr (by decide)) 1).trans (by decide),
    congrArg Prod.snd ((chunking id).2 _ [[3], [], [4, 5]])⟩

end Ddc

end Dsp
