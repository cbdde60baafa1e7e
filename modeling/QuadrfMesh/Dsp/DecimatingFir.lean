/-
# The decimating FIR filter (`class DecimatingFir` in `src/dsp/ddc.cpp`)

Samples and taps are taken in a commutative ring.  A call reads the windows that are
complete (`windows`), the start of the next one counted from the samples kept; what is
written does not depend on how the input is cut (`splits_process`), and entry `m` is the
window at `m * decim` (`getElem?_process_reset`).
-/
import Mathlib
import QuadrfMesh.Lib.Streaming

namespace Dsp

open Streaming

/-- `dotReal`, without NEON. -/
def dotReal {R : Type*} [CommRing R] (h x : List R) (n : ℕ) : R :=
  (List.range n).foldl (fun acc k => acc + h.getD k 0 * x.getD k 0) 0

/-- `class DecimatingFir`. -/
@[ext]
structure DecimatingFir (R : Type*) where
  /-- the taps, reversed -/
  taps : List R
  decim : ℕ
  /-- the input still needed -/
  buf : List R
  /-- the next window, counted from the start of `buf`; it may lie past its end -/
  phase : ℕ
  decim_pos : 0 < decim
  /-- no window is complete between calls -/
  waiting : taps ≠ [] → buf.length < phase + taps.length
  /-- nothing is kept before the next window -/
  trimmed : phase = 0 ∨ buf = []

namespace DecimatingFir

variable {R : Type*} [CommRing R]

/-- `reset`. -/
def reset (d : DecimatingFir R) : DecimatingFir R :=
  { d with
    buf := List.replicate (d.taps.length - 1) 0
    phase := 0
    waiting := by
      intro h
      have hpos := List.length_pos_of_ne_nil h
      rw [List.length_replicate]
      omega
    trimmed := Or.inl rfl }

/-- The constructor, from the lowpass prototype it designs: taps padded with zeros to a
multiple of four. -/
def ofPrototype (h : List R) (decim : ℕ) (hd : 0 < decim) : DecimatingFir R :=
  let taps := h ++ List.replicate ((h.length + 3) / 4 * 4 - h.length) 0
  reset { taps, decim, buf := [], phase := 0, decim_pos := hd
          waiting := fun hne => by simpa using List.length_pos_of_ne_nil hne
          trimmed := Or.inl rfl }

/-- The loop of `process`: the complete windows from `phase` on, and the start of the
first one that is not complete. -/
def windows (taps : List R) {decim : ℕ} (hd : 0 < decim) (buf : List R) (phase : ℕ) :
    ℕ × List R :=
  if phase + taps.length ≤ buf.length then
    let rest := windows taps hd buf (phase + decim)
    (rest.1, dotReal taps (buf.drop phase) taps.length :: rest.2)
  else (phase, [])
termination_by buf.length + 1 - phase

/-! ## The loop -/

theorem windows_of_le {taps : List R} {decim : ℕ} (hd : 0 < decim) {buf : List R} {phase : ℕ}
    (h : phase + taps.length ≤ buf.length) :
    windows taps hd buf phase = ((windows taps hd buf (phase + decim)).1,
      dotReal taps (buf.drop phase) taps.length :: (windows taps hd buf (phase + decim)).2) := by
  rw [windows, if_pos h]

theorem windows_of_lt {taps : List R} {decim : ℕ} (hd : 0 < decim) {buf : List R} {phase : ℕ}
    (h : buf.length < phase + taps.length) : windows taps hd buf phase = (phase, []) := by
  rw [windows, if_neg (by omega)]

/-- The loop ends before a window that is not complete, and does not go back. -/
theorem windows_next (taps : List R) {decim : ℕ} (hd : 0 < decim) (buf : List R) (phase : ℕ) :
    buf.length < (windows taps hd buf phase).1 + taps.length ∧
      phase ≤ (windows taps hd buf phase).1 := by
  induction phase using windows.induct taps hd buf with
  | case1 phase h ih =>
      rw [windows_of_le hd h]
      exact ⟨ih.1, by have := ih.2; omega⟩
  | case2 phase h =>
      rw [windows_of_lt hd (by omega)]
      exact ⟨by omega, le_rfl⟩

/-- `process`. -/
def process (d : DecimatingFir R) (input : List R) : DecimatingFir R × List R :=
  let buf := d.buf ++ input
  let r := windows d.taps d.decim_pos buf d.phase
  let drop := min r.1 buf.length
  ({ d with
      buf := buf.drop drop
      phase := r.1 - drop
      waiting := by
        intro _
        have hlt : buf.length < r.1 + d.taps.length :=
          (windows_next d.taps d.decim_pos buf d.phase).1
        have hdrop : drop = min r.1 buf.length := rfl
        rw [List.length_drop]
        omega
      trimmed := by
        rcases Nat.le_total r.1 buf.length with h | h
        · exact Or.inl (Nat.sub_eq_zero_of_le (le_min le_rfl h))
        · exact Or.inr (List.drop_of_length_le (le_min h le_rfl)) }, r.2)

/-- **Entry `m` of the loop** is the window `m` steps on, if it is complete. -/
theorem getElem?_windows (taps : List R) {decim : ℕ} (hd : 0 < decim) (buf : List R)
    (phase m : ℕ) :
    (windows taps hd buf phase).2[m]?
      = if phase + m * decim + taps.length ≤ buf.length then
          some (dotReal taps (buf.drop (phase + m * decim)) taps.length)
        else none := by
  induction m generalizing phase with
  | zero =>
      by_cases h : phase + taps.length ≤ buf.length
      · rw [windows_of_le hd h, if_pos (by omega), Nat.zero_mul, Nat.add_zero]
        rfl
      · rw [windows_of_lt hd (by omega), if_neg (by omega)]
        rfl
  | succ m ih =>
      have hstep : phase + (m + 1) * decim = phase + decim + m * decim := by ring
      rw [hstep]
      by_cases h : phase + taps.length ≤ buf.length
      · rw [windows_of_le hd h, List.getElem?_cons_succ, ih]
      · rw [windows_of_lt hd (by omega), if_neg (by omega)]
        rfl

/-- A window lies in the samples it was complete in. -/
theorem dotReal_append {taps buf : List R} {phase : ℕ} (h : phase + taps.length ≤ buf.length)
    (more : List R) :
    dotReal taps ((buf ++ more).drop phase) taps.length
      = dotReal taps (buf.drop phase) taps.length := by
  unfold dotReal
  apply List.foldl_ext
  intro acc k hk
  have hlt : k < (buf.drop phase).length := by
    rw [List.length_drop]
    have := List.mem_range.mp hk
    omega
  rw [List.drop_append_of_le_length (by omega), List.getD_append _ _ _ _ hlt]

/-- Samples that arrive later leave the windows already complete as they are. -/
theorem windows_append (taps : List R) {decim : ℕ} (hd : 0 < decim) (buf more : List R)
    (phase : ℕ) :
    windows taps hd (buf ++ more) phase
      = ((windows taps hd (buf ++ more) (windows taps hd buf phase).1).1,
          (windows taps hd buf phase).2
            ++ (windows taps hd (buf ++ more) (windows taps hd buf phase).1).2) := by
  induction phase using windows.induct taps hd buf with
  | case1 phase h ih =>
      have hmore : phase + taps.length ≤ (buf ++ more).length := by
        rw [List.length_append]
        omega
      rw [windows_of_le hd hmore, windows_of_le hd h, dotReal_append h, ih]
      rfl
  | case2 phase h =>
      have hlt : buf.length < phase + taps.length := by omega
      rw [windows_of_lt hd hlt]
      rfl

/-- Dropping samples before the next window moves the windows along. -/
theorem windows_drop (taps : List R) {decim : ℕ} (hd : 0 < decim) (buf : List R) {drop : ℕ}
    (hdrop : drop ≤ buf.length) (phase : ℕ) :
    windows taps hd (buf.drop drop) phase
      = ((windows taps hd buf (drop + phase)).1 - drop,
          (windows taps hd buf (drop + phase)).2) := by
  induction phase using windows.induct taps hd (buf.drop drop) with
  | case1 phase h ih =>
      have hbuf : drop + phase + taps.length ≤ buf.length := by
        rw [List.length_drop] at h
        omega
      rw [windows_of_le hd h, windows_of_le hd hbuf, ih, List.drop_drop, ← Nat.add_assoc]
  | case2 phase h =>
      have hlt : (buf.drop drop).length < phase + taps.length := by omega
      have hbuf : buf.length < drop + phase + taps.length := by
        rw [List.length_drop] at hlt
        omega
      rw [windows_of_lt hd hlt, windows_of_lt hd hbuf, Nat.add_sub_cancel_left]

/-! ## Calls -/

/-- What is kept after a call, and what more samples make of it. -/
theorem windows_kept (taps : List R) {decim : ℕ} (hd : 0 < decim) (buf more : List R) (next : ℕ) :
    windows taps hd (buf.drop (min next buf.length) ++ more) (next - min next buf.length)
      = ((windows taps hd (buf ++ more) next).1 - min next buf.length,
          (windows taps hd (buf ++ more) next).2) := by
  have hle : min next buf.length ≤ buf.length := Nat.min_le_right ..
  rw [← List.drop_append_of_le_length hle,
    windows_drop taps hd (buf ++ more) (by rw [List.length_append]; omega),
    Nat.add_sub_cancel' (Nat.min_le_left ..)]

/-- What two calls drop, counted from the start. -/
theorem min_add_min_sub (next last n m : ℕ) (h : next ≤ last) :
    min next n + min (last - min next n) (n - min next n + m) = min last (n + m) := by omega

/-- **Two calls are one call** on the input joined, in what is written and what is kept. -/
theorem splits_process : Splits (process : DecimatingFir R → List R → DecimatingFir R × List R) := by
  intro d xs ys
  have hwhole := windows_append d.taps d.decim_pos (d.buf ++ xs) ys d.phase
  have hsecond := windows_kept d.taps d.decim_pos (d.buf ++ xs) ys
    (windows d.taps d.decim_pos (d.buf ++ xs) d.phase).1
  have hle := (windows_next d.taps d.decim_pos (d.buf ++ xs ++ ys)
    (windows d.taps d.decim_pos (d.buf ++ xs) d.phase).1).2
  have hdrop := min_add_min_sub _ _ (d.buf ++ xs).length ys.length hle
  have hlen : ∀ k, ((d.buf ++ xs).drop k ++ ys).length = (d.buf ++ xs).length - k + ys.length := by
    intro k
    rw [List.length_append, List.length_drop]
  have hmin : min (windows d.taps d.decim_pos (d.buf ++ xs) d.phase).1 (d.buf ++ xs).length
      ≤ (d.buf ++ xs).length := Nat.min_le_right ..
  rw [← List.length_append] at hdrop
  apply Prod.ext
  · apply DecimatingFir.ext
    · rfl
    · rfl
    · simp only [process, ← List.append_assoc, hwhole, hsecond]
      rw [hlen, ← List.drop_append_of_le_length hmin, List.drop_drop, hdrop]
    · simp only [process, ← List.append_assoc, hwhole, hsecond]
      rw [hlen, Nat.sub_sub, hdrop]
  · simp only [process, ← List.append_assoc, hwhole, hsecond]

/-- A call without samples does nothing, if there are taps. -/
theorem process_nil {d : DecimatingFir R} (h : d.taps ≠ []) : d.process [] = (d, []) := by
  have hw : windows d.taps d.decim_pos (d.buf ++ []) d.phase = (d.phase, []) := by
    rw [List.append_nil]
    exact windows_of_lt d.decim_pos (d.waiting h)
  have hdrop : min d.phase (d.buf ++ []).length = 0 := by
    rcases d.trimmed with h0 | h0
    · rw [h0, Nat.zero_min]
    · rw [h0]
      exact Nat.min_zero _
  apply Prod.ext
  · apply DecimatingFir.ext
    · rfl
    · rfl
    · simp only [process, hw, hdrop, List.drop_zero]
      exact List.append_nil _
    · simp only [process, hw, hdrop, Nat.sub_zero]
  · simp only [process, hw]

/-- What the filter reads: zeros before the input. -/
def padded (d : DecimatingFir R) (input : List R) : List R :=
  List.replicate (d.taps.length - 1) 0 ++ input

theorem dotReal_eq_sum (h x : List R) (n : ℕ) :
    dotReal h x n = ∑ k ∈ Finset.range n, h.getD k 0 * x.getD k 0 := by
  unfold dotReal
  induction n with
  | zero => rfl
  | succ n ih =>
      rw [List.range_succ, List.foldl_append, ih, Finset.sum_range_succ]
      rfl

/-- **Entry `m` of the output** after a reset: the window at `m * decim` of the padded
input, if it fits. -/
theorem getElem?_process_reset (d : DecimatingFir R) (input : List R) (m : ℕ) :
    (d.reset.process input).2[m]?
      = if m * d.decim + d.taps.length ≤ (d.padded input).length then
          some (∑ k ∈ Finset.range d.taps.length,
            d.taps.getD k 0 * (d.padded input).getD (m * d.decim + k) 0)
        else none := by
  have hentry := getElem?_windows d.taps d.decim_pos (d.padded input) 0 m
  rw [Nat.zero_add] at hentry
  show (windows d.taps d.decim_pos (d.padded input) 0).2[m]? = _
  rw [hentry, dotReal_eq_sum]
  congr 2
  apply Finset.sum_congr rfl
  intro k _
  simp only [List.getD_eq_getElem?_getD, List.getElem?_drop]

end DecimatingFir

end Dsp
