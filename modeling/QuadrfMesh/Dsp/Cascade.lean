/-
# The cascade as one filter (`Ddc::Ddc` in `src/dsp/ddc.cpp`)

The constructor works out the impulse response of the filter cascade, with which it states the
noise bandwidth of the chain.  That response is the chain: the two decimating stages write
what one filter with these taps writes, decimating by the whole ratio (`process_eq_impulse`).
-/
import QuadrfMesh.Dsp.Ddc

namespace Dsp

open Streaming

variable {K A : Type*} [CommRing K] [CommRing A] [Algebra K A]

/-! ## The loop over the taps -/

/-- `h[q] += v`. -/
def addAt (h : List K) (q : ℕ) (v : K) : List K := h.set q (h.getD q 0 + v)

/-- The loop of `Ddc::Ddc` over the taps of both stages: `h1` and `h2` upsampled by `m1`,
convolved. -/
def cascade (h1 h2 : List K) (m1 : ℕ) : List K :=
  (List.range h2.length).foldl (fun h j =>
      (List.range h1.length).foldl (fun h i => addAt h (i + j * m1) (h1.getD i 0 * h2.getD j 0)) h)
    (List.replicate (h1.length + (h2.length - 1) * m1) 0)

/-- The taps weighted with a sequence. -/
def weigh (h : List K) (w : ℕ → A) : A := ∑ i ∈ Finset.range h.length, h.getD i 0 • w i

theorem length_addAt (h : List K) (q : ℕ) (v : K) : (addAt h q v).length = h.length :=
  List.length_set

theorem weigh_addAt (h : List K) {q : ℕ} (hq : q < h.length) (v : K) (w : ℕ → A) :
    weigh (addAt h q v) w = weigh h w + v • w q := by
  have hmem : q ∈ Finset.range h.length := Finset.mem_range.mpr hq
  unfold weigh
  rw [length_addAt, ← Finset.add_sum_erase _ _ hmem, ← Finset.add_sum_erase _ _ hmem]
  have hat : (addAt h q v).getD q 0 = h.getD q 0 + v := by
    simp [addAt, List.getD_eq_getElem?_getD, List.getElem?_set_self hq]
  have hrest : ∀ i ∈ (Finset.range h.length).erase q,
      (addAt h q v).getD i 0 • w i = h.getD i 0 • w i := by
    intro i hi
    have hne : q ≠ i := (Finset.ne_of_mem_erase hi).symm
    simp [addAt, List.getD_eq_getElem?_getD, List.getElem?_set_ne hne]
  rw [hat, add_smul, Finset.sum_congr rfl hrest]
  exact add_right_comm _ _ _

theorem sum_map_range (f : ℕ → A) (n : ℕ) :
    ((List.range n).map f).sum = ∑ k ∈ Finset.range n, f k := rfl

/-- A loop that adds `v i` at place `q i`. -/
theorem foldl_addAt (is : List ℕ) (h : List K) {q : ℕ → ℕ} (v : ℕ → K)
    (hq : ∀ i ∈ is, q i < h.length) (w : ℕ → A) :
    (is.foldl (fun h i => addAt h (q i) (v i)) h).length = h.length ∧
      weigh (is.foldl (fun h i => addAt h (q i) (v i)) h) w
        = weigh h w + (is.map fun i => v i • w (q i)).sum := by
  induction is generalizing h with
  | nil => exact ⟨rfl, (add_zero _).symm⟩
  | cons i is ih =>
      have hi := hq i List.mem_cons_self
      obtain ⟨hlen, hsum⟩ := ih (addAt h (q i) (v i)) fun k hk => by
        rw [length_addAt]
        exact hq k (List.mem_cons_of_mem _ hk)
      refine ⟨hlen.trans (length_addAt _ _ _), ?_⟩
      rw [List.foldl_cons, hsum, weigh_addAt h hi, List.map_cons, List.sum_cons, add_assoc]

/-- The loop over both stages. -/
theorem foldl_foldl_addAt (h1 h2 : List K) (m1 : ℕ) (js : List ℕ) (h : List K)
    (hq : ∀ j ∈ js, ∀ i < h1.length, i + j * m1 < h.length) (w : ℕ → A) :
    (js.foldl (fun h j => (List.range h1.length).foldl
        (fun h i => addAt h (i + j * m1) (h1.getD i 0 * h2.getD j 0)) h) h).length = h.length ∧
      weigh (js.foldl (fun h j => (List.range h1.length).foldl
          (fun h i => addAt h (i + j * m1) (h1.getD i 0 * h2.getD j 0)) h) h) w
        = weigh h w + (js.map fun j => h2.getD j 0 • weigh h1 fun i => w (i + j * m1)).sum := by
  induction js generalizing h with
  | nil => exact ⟨rfl, (add_zero _).symm⟩
  | cons j js ih =>
      obtain ⟨hlen, hsum⟩ := foldl_addAt (List.range h1.length) h
        (fun i => h1.getD i 0 * h2.getD j 0)
        (fun i hi => hq j List.mem_cons_self i (List.mem_range.mp hi)) w
      obtain ⟨hlen', hsum'⟩ := ih _ fun k hk i hi => by
        rw [hlen]
        exact hq k (List.mem_cons_of_mem _ hk) i hi
      have hinner : ((List.range h1.length).map fun i =>
          (h1.getD i 0 * h2.getD j 0) • w (i + j * m1)).sum
          = h2.getD j 0 • weigh h1 fun i => w (i + j * m1) := by
        rw [weigh, Finset.smul_sum, sum_map_range]
        apply Finset.sum_congr rfl
        intro i _
        rw [smul_smul, mul_comm]
      refine ⟨hlen'.trans hlen, ?_⟩
      rw [List.foldl_cons, hsum', hsum, hinner, List.map_cons, List.sum_cons, add_assoc]

theorem weigh_replicate (n : ℕ) (w : ℕ → A) : weigh (List.replicate n (0 : K)) w = 0 := by
  apply Finset.sum_eq_zero
  intro i hi
  rw [List.length_replicate] at hi
  rw [List.getD_replicate _ (Finset.mem_range.mp hi), zero_smul]

theorem weigh_congr (h : List K) {v w : ℕ → A} (hvw : ∀ k < h.length, v k = w k) :
    weigh h v = weigh h w := by
  apply Finset.sum_congr rfl
  intro k hk
  rw [hvw k (Finset.mem_range.mp hk)]

theorem weigh_zero (h : List K) : weigh h (fun _ => (0 : A)) = 0 := by
  apply Finset.sum_eq_zero
  intro k _
  exact smul_zero _

/-- **What the loop computes**: a window weighted with the cascade is the second stage's window
of the first stage's. -/
theorem weigh_cascade (h1 h2 : List K) (m1 : ℕ) (w : ℕ → A) :
    (cascade h1 h2 m1).length = h1.length + (h2.length - 1) * m1 ∧
      weigh (cascade h1 h2 m1) w
        = weigh h2 fun j => weigh h1 fun i => w (i + j * m1) := by
  obtain ⟨hlen, hsum⟩ := foldl_foldl_addAt h1 h2 m1 (List.range h2.length)
    (List.replicate (h1.length + (h2.length - 1) * m1) 0) (fun j hj i hi => by
      have hle : j * m1 ≤ (h2.length - 1) * m1 := by
        apply Nat.mul_le_mul_right
        have := List.mem_range.mp hj
        omega
      rw [List.length_replicate]
      omega) w
  rw [weigh_replicate, zero_add, sum_map_range] at hsum
  exact ⟨hlen.trans List.length_replicate, hsum⟩

/-! ## Two stages -/

/-- What a filter reads from a stream: `0` before its start. -/
theorem getD_zeros_append (n : ℕ) (xs : List A) (i : ℕ) :
    (List.replicate n 0 ++ xs).getD i 0 = if i < n then 0 else xs.getD (i - n) 0 := by
  split
  · rename_i hlt
    rw [List.getD_append _ _ _ _ (by rwa [List.length_replicate]), List.getD_replicate _ hlt]
  · rename_i hge
    rw [List.getD_append_right _ _ _ _ (by rw [List.length_replicate]; omega),
      List.length_replicate]

/-- A filter with constant taps, after a reset: entry `m` of what it writes. -/
theorem getElem?_process_map (d : DecimatingFir A) {h : List K}
    (htaps : d.taps = h.map (algebraMap K A)) (hh : h ≠ []) (xs : List A) (m : ℕ) :
    (d.reset.process xs).2[m]?
      = if m * d.decim < xs.length then
          some (weigh h fun k => (List.replicate (h.length - 1) 0 ++ xs).getD (m * d.decim + k) 0)
        else none := by
  have hpos := List.length_pos_of_ne_nil hh
  have hlen : d.taps.length = h.length := by rw [htaps, List.length_map]
  have hfits : m * d.decim + d.taps.length ≤ (d.padded xs).length ↔ m * d.decim < xs.length := by
    rw [DecimatingFir.padded, List.length_append, List.length_replicate, hlen]
    omega
  have hsum : (∑ k ∈ Finset.range d.taps.length,
      d.taps.getD k 0 * (d.padded xs).getD (m * d.decim + k) 0)
      = weigh h fun k => (List.replicate (h.length - 1) 0 ++ xs).getD (m * d.decim + k) 0 := by
    rw [weigh, DecimatingFir.padded, hlen]
    apply Finset.sum_congr rfl
    intro k hk
    have hk' := Finset.mem_range.mp hk
    rw [Algebra.smul_def, htaps]
    congr 1
    simp [List.getD_eq_getElem?_getD, hk']
  rw [DecimatingFir.getElem?_process_reset, hsum]
  simp only [hfits]

/-- **The first stage on zeros is zeros**: the history the second stage starts with is what the
first would have made of a longer one of its own. -/
theorem getD_zeros_process (d : DecimatingFir A) {h : List K}
    (htaps : d.taps = h.map (algebraMap K A)) (hh : h ≠ []) (xs : List A) {n p : ℕ}
    (hp : p < n + (d.reset.process xs).2.length) :
    (List.replicate n 0 ++ (d.reset.process xs).2).getD p 0
      = weigh h fun k =>
          (List.replicate (h.length + n * d.decim - 1) 0 ++ xs).getD (p * d.decim + k) 0 := by
  have hpos := List.length_pos_of_ne_nil hh
  rw [getD_zeros_append]
  split
  · rename_i hlt
    -- the window lies in the zeros
    have hmul : (p + 1) * d.decim ≤ n * d.decim := Nat.mul_le_mul_right _ hlt
    have hdecim := d.decim_pos
    rw [add_mul, one_mul] at hmul
    refine ((weigh_congr h fun k hk => ?_).trans (weigh_zero h)).symm
    rw [getD_zeros_append, if_pos (by omega)]
  · rename_i hge
    obtain ⟨q, rfl⟩ := Nat.exists_eq_add_of_le (Nat.not_lt.mp hge)
    have hentry := getElem?_process_map d htaps hh xs q
    have hq : q < (d.reset.process xs).2.length := by omega
    rw [List.getElem?_eq_getElem hq] at hentry
    obtain ⟨-, hval⟩ := Option.ite_none_right_eq_some.mp hentry.symm
    rw [Nat.add_sub_cancel_left, List.getD_eq_getElem _ _ hq, ← Option.some.inj hval]
    apply weigh_congr
    intro k _
    rw [getD_zeros_append, getD_zeros_append, add_mul]
    by_cases hzero : q * d.decim + k < h.length - 1
    · rw [if_pos hzero, if_pos (by omega)]
    · rw [if_neg hzero, if_neg (by omega)]
      congr 1
      omega

/-- **Two filters are one**: its taps are the cascade, and it decimates by both. -/
theorem getElem?_process_process (f g : DecimatingFir A) {h1 h2 : List K}
    (hf : f.taps = h1.map (algebraMap K A)) (hg : g.taps = h2.map (algebraMap K A))
    (hh1 : h1 ≠ []) (hh2 : h2 ≠ []) (xs : List A) (m : ℕ) :
    (g.reset.process (f.reset.process xs).2).2[m]?
      = if m * (f.decim * g.decim) < xs.length then
          some (weigh (cascade h1 h2 f.decim) fun k =>
            (List.replicate ((cascade h1 h2 f.decim).length - 1) 0 ++ xs).getD
              (m * (f.decim * g.decim) + k) 0)
        else none := by
  have hpos := List.length_pos_of_ne_nil hh2
  -- where the first stage has written
  have hwritten : ∀ q, q < (f.reset.process xs).2.length ↔ q * f.decim < xs.length := by
    intro q
    have hentry := getElem?_process_map f hf hh1 xs q
    constructor
    · intro hq
      by_contra hge
      rw [if_neg hge] at hentry
      have := List.getElem?_eq_none_iff.mp hentry
      omega
    · intro hq
      rw [if_pos hq] at hentry
      exact (List.getElem?_eq_some_iff.mp hentry).1
  have hcomm : ∀ j, (m * g.decim + j) * f.decim = m * (f.decim * g.decim) + j * f.decim := by
    intro j
    ring
  have hlen := (weigh_cascade h1 h2 f.decim fun _ => (0 : A)).1
  have hin : m * g.decim < (f.reset.process xs).2.length
      ↔ m * (f.decim * g.decim) < xs.length := by
    rw [hwritten, Nat.mul_assoc, Nat.mul_comm g.decim]
  rw [getElem?_process_map g hg hh2]
  by_cases hlt : m * (f.decim * g.decim) < xs.length
  · rw [if_pos (hin.mpr hlt), if_pos hlt]
    congr 1
    rw [(weigh_cascade h1 h2 f.decim _).2, hlen]
    apply weigh_congr
    intro j hj
    have hwrote := hin.mpr hlt
    rw [getD_zeros_process f hf hh1 xs (by omega)]
    apply weigh_congr
    intro k _
    rw [hcomm, Nat.add_assoc, Nat.add_comm k]
  · rw [if_neg fun h => hlt (hin.mp h), if_neg hlt]

/-! ## The chain -/

/-- `coefficients()` of a stage: the prototype, padded to a multiple of four taps. -/
def coefficients (h : List K) : List K :=
  h ++ List.replicate ((h.length + 3) / 4 * 4 - h.length) 0

/-- The impulse response that `Ddc::Ddc` works out. -/
def impulse (ratio : ℕ) (h1 h2 : List K) : List K :=
  if 2 < ratio then cascade (coefficients h1) (coefficients h2) (ratio / 2) else coefficients h2

theorem taps_ofPrototype (h : List K) (decim : ℕ) (hd : 0 < decim) :
    (DecimatingFir.ofPrototype (h.map (algebraMap K A)) decim hd).taps
      = (coefficients h).map (algebraMap K A) := by
  rw [coefficients, List.map_append, List.map_replicate, map_zero,
    ← List.length_map (algebraMap K A)]
  rfl

theorem coefficients_ne_nil {h : List K} (hh : h ≠ []) : coefficients h ≠ [] :=
  List.append_ne_nil_of_left_ne_nil hh _

/-- The mixer answers each sample with one. -/
theorem length_perItem {σ α β : Type*} (step : σ → α → σ × β) (s : σ) (xs : List α) :
    (perItem step s xs).2.length = xs.length := by
  induction xs generalizing s with
  | nil => rfl
  | cons x xs ih => rw [perItem_cons, List.length_cons, ih, List.length_cons]

theorem length_mix (renorm : A → A) (nco : Nco A) (xs : List A) :
    (nco.mix renorm xs).2.length = xs.length := by
  cases nco with
  | off => rfl
  | table nco pos => simp only [Nco.mix, Nco.mixTable_eq, length_perItem]
  | phasor rot rotStep rotCount => simp only [Nco.mix, length_perItem]

variable {ratio : ℕ} (hratio : 2 ≤ ratio) (nco : Nco A) {h1 h2 : List K}
  (hh1 : h1.map (algebraMap K A) ≠ []) (hh2 : h2.map (algebraMap K A) ≠ [])

/-- Entry `m` of what the chain makes of one call. -/
theorem getElem?_process_impulse (heven : 2 ∣ ratio) (renorm : A → A) (xs : List A) (m : ℕ) :
    ((Ddc.ofPrototypes ratio hratio nco (h1.map (algebraMap K A)) (h2.map (algebraMap K A)) hh1
        hh2).process renorm xs).2[m]?
      = if m * ratio < xs.length then
          some (weigh (impulse ratio h1 h2) fun k =>
            (List.replicate ((impulse ratio h1 h2).length - 1) 0 ++ (nco.mix renorm xs).2).getD
              (m * ratio + k) 0)
        else none := by
  have hne1 : coefficients h1 ≠ [] := coefficients_ne_nil fun h => hh1 (by rw [h, List.map_nil])
  have hne2 : coefficients h2 ≠ [] := coefficients_ne_nil fun h => hh2 (by rw [h, List.map_nil])
  have htaps2 := taps_ofPrototype (A := A) h2 2 (by omega)
  rw [Ddc.process, if_neg (by simp [Ddc.ofPrototypes])]
  rw [← length_mix renorm nco xs]
  by_cases htwo : 2 < ratio
  · have htaps1 := taps_ofPrototype (A := A) h1 (ratio / 2) (by omega)
    have hboth := getElem?_process_process _ _ htaps1 htaps2 hne1 hne2 (nco.mix renorm xs).2 m
    have hdecim : ratio / 2 * 2 = ratio := Nat.div_mul_cancel heven
    rw [if_pos (by simpa [Ddc.ofPrototypes] using htwo), impulse, if_pos htwo]
    simp only [DecimatingFir.ofPrototype, DecimatingFir.reset, hdecim] at hboth ⊢
    exact hboth
  · obtain rfl : ratio = 2 := by omega
    have hone := getElem?_process_map _ htaps2 hne2 (nco.mix renorm xs).2 m
    rw [if_neg (by simp [Ddc.ofPrototypes]), impulse, if_neg htwo]
    exact hone

/-- **The cascade is one filter.**  However the input is cut, entry `m` of what the chain writes
is the window at `m * ratio` of the mixed input, after zeros, weighted with the impulse response
that the constructor works out. -/
theorem process_eq_impulse (heven : 2 ∣ ratio) (renorm : A → A) (chunks : List (List A)) (m : ℕ) :
    (run (Ddc.process renorm) (Ddc.ofPrototypes ratio hratio nco (h1.map (algebraMap K A))
        (h2.map (algebraMap K A)) hh1 hh2) chunks).2[m]?
      = if m * ratio < chunks.flatten.length then
          some (∑ k ∈ Finset.range (impulse ratio h1 h2).length, (impulse ratio h1 h2).getD k 0 •
            (List.replicate ((impulse ratio h1 h2).length - 1) 0
              ++ (nco.mix renorm chunks.flatten).2).getD (m * ratio + k) 0)
        else none := by
  rw [(Ddc.splits_process renorm).run_eq_of_nil (Ddc.process_nil renorm _) chunks,
    getElem?_process_impulse hratio nco hh1 hh2 heven renorm chunks.flatten m]
  rfl

/-- An input in three pieces through two stages, `1 + 2z` and `1 + z`, that decimate by four. -/
theorem process_eq_impulse_four :
    (run (Ddc.process id) (Ddc.ofPrototypes 4 (by decide) .off ([1, 2].map (algebraMap ℤ ℤ))
        ([1, 1].map (algebraMap ℤ ℤ)) (by decide) (by decide))
        [[1], [], [10, 100, 0, 0, 0, 0, 0, 0]]).2[2]?
      = some 212 := by
  rw [process_eq_impulse (by decide) .off (by decide) (by decide) (by decide) id]
  decide +kernel

end Dsp
