/-
# Gauss-Jordan elimination

Elimination with partial pivoting on a matrix with an identity beside it.  A step keeps the
solutions of the rows (`Step.solves_iff`) and clears one more column (`step_cleared`), so a run
that finds every pivot leaves the inverse in the right half, on either side (`run_inverse`).
-/
import Mathlib

open Finset

namespace Elimination

variable {K : Type*} [Field K] [LinearOrder K]

/-- The row at or below `col` whose entry in the column is the largest, the first of equals. -/
def pivotRow (n : ℕ) (m : ℕ → ℕ → K) (col : ℕ) : ℕ :=
  (List.range' (col + 1) (n - (col + 1))).foldl
    (fun piv r => if |m piv col| < |m r col| then r else piv) col

/-- Row `i` for row `j`. -/
def swapRows (m : ℕ → ℕ → K) (i j : ℕ) : ℕ → ℕ → K := fun r => m (Equiv.swap i j r)

/-- Row `col` divided by its entry in the column. -/
def scaleRow (m : ℕ → ℕ → K) (col : ℕ) : ℕ → ℕ → K :=
  fun r j => if r = col then m col j * (1 / m col col) else m r j

/-- Row `col` taken out of every other row. -/
def clearColumn (m : ℕ → ℕ → K) (col : ℕ) : ℕ → ℕ → K :=
  fun r j => if r = col ∨ m r col = 0 then m r j else m r j - m r col * m col j

/-- One column, unless its pivot is below `tiny`. -/
def step (tiny : K) (n : ℕ) (m : ℕ → ℕ → K) (col : ℕ) : Option (ℕ → ℕ → K) :=
  let piv := pivotRow n m col
  if |m piv col| < tiny then none
  else some (clearColumn (scaleRow (swapRows m piv col) col) col)

/-- All columns, from the left. -/
def run (tiny : K) (n : ℕ) (m : ℕ → ℕ → K) : Option (ℕ → ℕ → K) :=
  (List.range n).foldlM (step tiny n) m

theorem pivotRow_bounds {n : ℕ} (m : ℕ → ℕ → K) {col : ℕ} (hcol : col < n) :
    col ≤ pivotRow n m col ∧ pivotRow n m col < n := by
  have hscan : ∀ (rows : List ℕ) (piv : ℕ), (∀ r ∈ rows, col ≤ r ∧ r < n) → col ≤ piv → piv < n →
      col ≤ rows.foldl (fun piv r => if |m piv col| < |m r col| then r else piv) piv ∧
        rows.foldl (fun piv r => if |m piv col| < |m r col| then r else piv) piv < n := by
    intro rows
    induction rows with
    | nil => exact fun _ _ hle hlt => ⟨hle, hlt⟩
    | cons r rows ih =>
        intro piv hrows hle hlt
        obtain ⟨hr, hrest⟩ := List.forall_mem_cons.mp hrows
        rw [List.foldl_cons]
        split_ifs with hbeats
        · exact ih r hrest hr.1 hr.2
        · exact ih piv hrest hle hlt
  refine hscan _ col (fun r hr => ?_) le_rfl hcol
  rw [List.mem_range'_1] at hr
  omega

/-- No row from `col` on has more in the column. -/
theorem le_pivotRow {n : ℕ} (m : ℕ → ℕ → K) {col r : ℕ} (hr : col ≤ r) (hrn : r < n) :
    |m r col| ≤ |m (pivotRow n m col) col| := by
  have hscan : ∀ (rows : List ℕ) (piv : ℕ),
      |m piv col| ≤ |m (rows.foldl (fun piv r => if |m piv col| < |m r col| then r else piv) piv) col| ∧
        ∀ r ∈ rows, |m r col|
          ≤ |m (rows.foldl (fun piv r => if |m piv col| < |m r col| then r else piv) piv) col| := by
    intro rows
    induction rows with
    | nil => exact fun piv => ⟨le_rfl, fun r hr => absurd hr List.not_mem_nil⟩
    | cons r rows ih =>
        intro piv
        rw [List.foldl_cons]
        split_ifs with hbeats
        · obtain ⟨hhead, htail⟩ := ih r
          refine ⟨hbeats.le.trans hhead, fun r' hr' => ?_⟩
          rcases List.mem_cons.mp hr' with rfl | hr'
          · exact hhead
          · exact htail r' hr'
        · obtain ⟨hhead, htail⟩ := ih piv
          refine ⟨hhead, fun r' hr' => ?_⟩
          rcases List.mem_cons.mp hr' with rfl | hr'
          · exact (not_lt.mp hbeats).trans hhead
          · exact htail r' hr'
  rcases hr.eq_or_lt with rfl | hlt
  · exact (hscan _ col).1
  · refine (hscan _ col).2 r ?_
    rw [List.mem_range'_1]
    omega

/-! ## Solutions -/

/-- The first `n` rows all vanish on `z`. -/
def Solves (n width : ℕ) (m : ℕ → ℕ → K) (z : ℕ → K) : Prop :=
  ∀ r < n, ∑ j ∈ range width, m r j * z j = 0

omit [LinearOrder K] in
theorem solves_swapRows {n width i j : ℕ} (hi : i < n) (hj : j < n) {m : ℕ → ℕ → K} {z : ℕ → K} :
    Solves n width (swapRows m i j) z ↔ Solves n width m z := by
  have hswap : ∀ r < n, Equiv.swap i j r < n := by
    intro r hr
    rw [Equiv.swap_apply_def]
    split_ifs <;> omega
  constructor
  · intro h r hr
    have := h _ (hswap r hr)
    rwa [swapRows, Equiv.swap_apply_self] at this
  · exact fun h r hr => h _ (hswap r hr)

omit [LinearOrder K] in
theorem solves_scaleRow {n width col : ℕ} (hcol : col < n) {m : ℕ → ℕ → K} (hpiv : m col col ≠ 0)
    {z : ℕ → K} : Solves n width (scaleRow m col) z ↔ Solves n width m z := by
  have hrow : ∑ j ∈ range width, scaleRow m col col j * z j
      = (1 / m col col) * ∑ j ∈ range width, m col j * z j := by
    rw [mul_sum]
    refine sum_congr rfl fun j _ => ?_
    rw [scaleRow, if_pos rfl]
    ring
  have hother : ∀ r, r ≠ col → ∀ j, scaleRow m col r j = m r j := fun r hr j => if_neg hr
  constructor
  · intro h r hr
    by_cases hrc : r = col
    · subst hrc
      have hzero := h r hcol
      rw [hrow] at hzero
      exact (mul_eq_zero.mp hzero).resolve_left (one_div_ne_zero hpiv)
    · have hzero := h r hr
      simp only [hother r hrc] at hzero
      exact hzero
  · intro h r hr
    by_cases hrc : r = col
    · subst hrc
      rw [hrow, h r hcol, mul_zero]
    · simp only [hother r hrc]
      exact h r hr

/-- An entry after the column is cleared. -/
theorem clearColumn_eq (m : ℕ → ℕ → K) (col r j : ℕ) :
    clearColumn m col r j = if r = col then m r j else m r j - m r col * m col j := by
  rw [clearColumn]
  by_cases hr : r = col
  · rw [if_pos (Or.inl hr), if_pos hr]
  · rw [if_neg hr]
    by_cases hz : m r col = 0
    · rw [if_pos (Or.inr hz), hz, zero_mul, sub_zero]
    · rw [if_neg (by tauto)]

theorem solves_clearColumn {n width col : ℕ} (hcol : col < n) {m : ℕ → ℕ → K} {z : ℕ → K} :
    Solves n width (clearColumn m col) z ↔ Solves n width m z := by
  have hpivot : ∑ j ∈ range width, clearColumn m col col j * z j
      = ∑ j ∈ range width, m col j * z j :=
    sum_congr rfl fun j _ => by rw [clearColumn_eq, if_pos rfl]
  have hother : ∀ r, r ≠ col → ∑ j ∈ range width, clearColumn m col r j * z j
      = ∑ j ∈ range width, m r j * z j - m r col * ∑ j ∈ range width, m col j * z j := by
    intro r hr
    rw [mul_sum, ← sum_sub_distrib]
    refine sum_congr rfl fun j _ => ?_
    rw [clearColumn_eq, if_neg hr]
    ring
  constructor
  · intro h r hr
    have hcolumn := h col hcol
    rw [hpivot] at hcolumn
    by_cases hrc : r = col
    · rwa [hrc]
    · have hzero := h r hr
      rwa [hother r hrc, hcolumn, mul_zero, sub_zero] at hzero
  · intro h r hr
    by_cases hrc : r = col
    · rw [hrc, hpivot, h col hcol]
    · rw [hother r hrc, h r hr, h col hcol, mul_zero, sub_zero]

/-! ## A step -/

/-- The first `c` columns are those of the identity. -/
def Cleared (n c : ℕ) (m : ℕ → ℕ → K) : Prop :=
  ∀ r < n, ∀ j < c, m r j = if r = j then 1 else 0

variable [IsStrictOrderedRing K] {tiny : K} {n : ℕ} {m m' : ℕ → ℕ → K} {col : ℕ}
  (htiny : 0 < tiny) (hcol : col < n) (hstep : step tiny n m col = some m')
include htiny hstep

omit hcol in
/-- What a step does: a swap with a pivot that is not zero, and the column cleared with it. -/
theorem step_cases : m (pivotRow n m col) col ≠ 0 ∧
    m' = clearColumn (scaleRow (swapRows m (pivotRow n m col) col) col) col := by
  simp only [step] at hstep
  split_ifs at hstep with hbelow
  refine ⟨fun hzero => hbelow ?_, (Option.some.inj hstep).symm⟩
  rw [hzero, abs_zero]
  exact htiny

include hcol

/-- **A step keeps the solutions.** -/
theorem step_solves {width : ℕ} {z : ℕ → K} : Solves n width m' z ↔ Solves n width m z := by
  obtain ⟨hpiv, rfl⟩ := step_cases htiny hstep
  have hswapped : swapRows m (pivotRow n m col) col col col ≠ 0 := by
    rwa [swapRows, Equiv.swap_apply_right]
  rw [solves_clearColumn hcol, solves_scaleRow hcol hswapped,
    solves_swapRows (pivotRow_bounds m hcol).2 hcol]

/-- **A step clears one more column.** -/
theorem step_cleared (hcleared : Cleared n col m) : Cleared n (col + 1) m' := by
  obtain ⟨hpiv, rfl⟩ := step_cases htiny hstep
  obtain ⟨hle, hlt⟩ := pivotRow_bounds m hcol
  set s := swapRows m (pivotRow n m col) col with hs
  have hscc : s col col ≠ 0 := by rwa [hs, swapRows, Equiv.swap_apply_right]
  -- the rows swapped are both zero in the columns before
  have hbefore : Cleared n col s := by
    intro r hr j hj
    rw [hs, swapRows, Equiv.swap_apply_def]
    split_ifs with hrp hrc hrj hrj hrj
    · omega
    · rw [hcleared col hcol j hj, if_neg (by omega)]
    · omega
    · rw [hcleared _ hlt j hj, if_neg (by omega)]
    · rw [hcleared r hr j hj, if_pos hrj]
    · rw [hcleared r hr j hj, if_neg hrj]
  have hscale : ∀ j, scaleRow s col col j = s col j * (1 / s col col) := fun j => if_pos rfl
  have hother : ∀ r, r ≠ col → ∀ j, scaleRow s col r j = s r j := fun r hr j => if_neg hr
  intro r hr j hj
  rw [clearColumn_eq]
  rcases Nat.lt_succ_iff_lt_or_eq.mp hj with hj | rfl
  · have hzero : scaleRow s col col j = 0 := by
      rw [hscale, hbefore col hcol j hj, if_neg (by omega), zero_mul]
    by_cases hrc : r = col
    · rw [if_pos hrc, hrc, hzero, if_neg (by omega)]
    · rw [if_neg hrc, hzero, mul_zero, sub_zero, hother r hrc, hbefore r hr j hj]
  · have hone : scaleRow s j j j = 1 := by rw [hscale, mul_one_div_cancel hscc]
    by_cases hrc : r = j
    · rw [if_pos hrc, if_pos hrc, hrc, hone]
    · rw [if_neg hrc, if_neg hrc, hone, mul_one, sub_self]

/-- Where the rows done vanish, the rows of `h` are, in some order, zero and the rows to do. -/
def Remaining (n width c : ℕ) (h m : ℕ → ℕ → K) : Prop :=
  ∃ σ : Equiv.Perm ℕ, (∀ r < n, σ r < n) ∧
    ∀ z : ℕ → K, (∀ r < c, ∑ j ∈ range width, m r j * z j = 0) →
      ∀ r < n, ∑ j ∈ range width, h (σ r) j * z j
        = if r < c then 0 else ∑ j ∈ range width, m r j * z j

/-- A step leaves the rows to do, with one fewer of them. -/
theorem step_remaining {width : ℕ} {h : ℕ → ℕ → K} (hrem : Remaining n width col h m) :
    Remaining n width (col + 1) h m' := by
  obtain ⟨hpiv, rfl⟩ := step_cases htiny hstep
  obtain ⟨hle, hlt⟩ := pivotRow_bounds m hcol
  obtain ⟨σ, hσn, hσ⟩ := hrem
  set piv := pivotRow n m col with hpivdef
  set s := swapRows m piv col with hs
  have hscc : s col col ≠ 0 := by rwa [hs, swapRows, Equiv.swap_apply_right]
  have hswap : ∀ r < n, Equiv.swap piv col r < n := by
    intro r hr
    rw [Equiv.swap_apply_def]
    split_ifs <;> omega
  refine ⟨(Equiv.swap piv col).trans σ, fun r hr => hσn _ (hswap r hr), fun z hz => ?_⟩
  -- the pivot row vanishes, so clearing with it changes nothing
  have hpivot : ∑ j ∈ range width, s col j * z j = 0 := by
    have h := hz col (Nat.lt_succ_self _)
    have hterm : ∀ j ∈ range width, clearColumn (scaleRow s col) col col j * z j
        = (1 / s col col) * (s col j * z j) := by
      intro j _
      rw [clearColumn_eq, if_pos rfl, scaleRow, if_pos rfl]
      ring
    rw [sum_congr rfl hterm, ← mul_sum] at h
    exact (mul_eq_zero.mp h).resolve_left (one_div_ne_zero hscc)
  have hother : ∀ r, r ≠ col → ∑ j ∈ range width, clearColumn (scaleRow s col) col r j * z j
      = ∑ j ∈ range width, s r j * z j := by
    intro r hr
    have hterm : ∀ j ∈ range width, clearColumn (scaleRow s col) col r j * z j
        = s r j * z j - s r col * (1 / s col col) * (s col j * z j) := by
      intro j _
      rw [clearColumn_eq, if_neg hr, scaleRow, if_neg hr, scaleRow, if_neg hr, scaleRow, if_pos rfl]
      ring
    rw [sum_congr rfl hterm, sum_sub_distrib, ← mul_sum, hpivot, mul_zero, sub_zero]
  have hbefore : ∀ r < col, s r = m r := fun r hr => by
    rw [hs, swapRows, Equiv.swap_apply_of_ne_of_ne (by omega) (by omega)]
  have hdone : ∀ r < col, ∑ j ∈ range width, m r j * z j = 0 := fun r hr => by
    rw [← hbefore r hr, ← hother r (by omega)]
    exact hz r (by omega)
  intro r hr
  rw [Equiv.trans_apply, hσ z hdone _ (hswap r hr)]
  rcases lt_trichotomy r col with hrc | rfl | hrc
  · rw [Equiv.swap_apply_of_ne_of_ne (by omega) (by omega), if_pos hrc, if_pos (by omega)]
  · rw [Equiv.swap_apply_right, if_neg (by omega), if_pos (Nat.lt_succ_self _)]
    have hrow : s r = m piv := by rw [hs, swapRows, Equiv.swap_apply_right]
    rw [← hrow]
    exact hpivot
  · rw [if_neg (by omega : ¬ r < col + 1), hother r (by omega)]
    have hrow : s r = m (Equiv.swap piv col r) := rfl
    rw [hrow, if_neg]
    rw [Equiv.swap_apply_def]
    split_ifs <;> omega

/-! ## A run -/

omit hcol hstep in
/-- The columns done, the solutions kept and the rows to do. -/
theorem columns_spec {c : ℕ} (hc : c ≤ n)
    (hrun : (List.range c).foldlM (step tiny n) m = some m') :
    Cleared n c m' ∧ (∀ width z, Solves n width m' z ↔ Solves n width m z) ∧
      ∀ width, Remaining n width c m m' := by
  induction c generalizing m' with
  | zero =>
      rw [List.range_zero, List.foldlM_nil] at hrun
      obtain rfl := Option.some.inj hrun
      exact ⟨fun _ _ _ hj => absurd hj (Nat.not_lt_zero _), fun _ _ => Iff.rfl, fun _ =>
        ⟨Equiv.refl ℕ, fun _ hr => hr, fun _ _ _ _ => by
          rw [if_neg (Nat.not_lt_zero _), Equiv.refl_apply]⟩⟩
  | succ c ih =>
      rw [List.range_succ, List.foldlM_append] at hrun
      obtain ⟨m₁, hm₁, hlast⟩ := Option.bind_eq_some_iff.mp hrun
      obtain ⟨hcleared, hsolves, hrem⟩ := ih (by omega) hm₁
      have hstep : step tiny n m₁ c = some m' := by simpa using hlast
      exact ⟨step_cleared htiny (by omega) hstep hcleared,
        fun width z => (step_solves htiny (by omega) hstep).trans (hsolves width z),
        fun width => step_remaining htiny (by omega) hstep (hrem width)⟩

/-- `h` with the identity beside it. -/
def augmented (n : ℕ) (h : ℕ → ℕ → K) : ℕ → ℕ → K :=
  fun r j => if j < n then h r j else if j = n + r then 1 else 0

omit [LinearOrder K] [IsStrictOrderedRing K] htiny hcol hstep in
theorem solves_augmented {h : ℕ → ℕ → K} {z : ℕ → K} :
    Solves n (n + n) (augmented n h) z ↔ ∀ r < n, ∑ j ∈ range n, h r j * z j + z (n + r) = 0 := by
  have hrow : ∀ r < n, ∑ j ∈ range (n + n), augmented n h r j * z j
      = ∑ j ∈ range n, h r j * z j + z (n + r) := by
    intro r hr
    have hleft : ∀ j ∈ range n, augmented n h r j * z j = h r j * z j := fun j hj => by
      rw [augmented, if_pos (mem_range.mp hj)]
    have hright : ∀ j ∈ range n, augmented n h r (n + j) * z (n + j)
        = if j = r then z (n + r) else 0 := by
      intro j _
      rw [augmented, if_neg (by omega)]
      by_cases hj : j = r
      · rw [if_pos (by omega), if_pos hj, hj, one_mul]
      · rw [if_neg (by omega), if_neg hj, zero_mul]
    rw [sum_range_add, sum_congr rfl hleft, sum_congr rfl hright, sum_ite_eq',
      if_pos (mem_range.mpr hr)]
  exact forall₂_congr fun r hr => by rw [hrow r hr]

omit [LinearOrder K] [IsStrictOrderedRing K] htiny hcol hstep in
theorem solves_cleared (hm : Cleared n n m) {z : ℕ → K} :
    Solves n (n + n) m z ↔ ∀ r < n, z r + ∑ j ∈ range n, m r (n + j) * z (n + j) = 0 := by
  have hrow : ∀ r < n, ∑ j ∈ range n, m r j * z j = z r := by
    intro r hr
    have hterm : ∀ j ∈ range n, m r j * z j = if r = j then z j else 0 := fun j hj => by
      rw [hm r hr j (mem_range.mp hj), ite_mul, one_mul, zero_mul]
    rw [sum_congr rfl hterm, sum_ite_eq, if_pos (mem_range.mpr hr)]
  exact forall₂_congr fun r hr => by rw [sum_range_add, hrow r hr]

omit hcol hstep in
/-- **A run leaves the inverse** beside the identity, on both sides. -/
theorem run_inverse {h : ℕ → ℕ → K} (hrun : run tiny n (augmented n h) = some m') {i j : ℕ}
    (hi : i < n) (hj : j < n) :
    ∑ k ∈ range n, m' i (n + k) * h k j = (if i = j then 1 else 0) ∧
      ∑ k ∈ range n, h i k * m' k (n + j) = (if i = j then 1 else 0) := by
  obtain ⟨hcleared, hsolves, -⟩ := columns_spec htiny le_rfl hrun
  have hboth : ∀ z : ℕ → K, (∀ r < n, z r + ∑ k ∈ range n, m' r (n + k) * z (n + k) = 0) ↔
      ∀ r < n, ∑ k ∈ range n, h r k * z k + z (n + r) = 0 := fun z => by
    rw [← solves_cleared hcleared, hsolves, solves_augmented]
  constructor
  · -- a unit vector on the left
    set z : ℕ → K := fun k => if k < n then (if k = j then 1 else 0) else -h (k - n) j with hz
    have hzn : ∀ k, z (n + k) = -h k j := fun k => by
      rw [hz]
      simp
    have hunit : ∀ r, ∑ k ∈ range n, h r k * z k = h r j := by
      intro r
      have hterm : ∀ k ∈ range n, h r k * z k = if k = j then h r j else 0 := fun k hk => by
        simp only [hz, if_pos (mem_range.mp hk)]
        split_ifs with hkj
        · rw [hkj, mul_one]
        · rw [mul_zero]
      rw [sum_congr rfl hterm, sum_ite_eq', if_pos (mem_range.mpr hj)]
    have hrow := (hboth z).mpr (fun r _ => by rw [hunit, hzn, add_neg_cancel]) i hi
    simp only [hzn, mul_neg, sum_neg_distrib] at hrow
    have hzi : z i = if i = j then 1 else 0 := by rw [hz]; simp only [if_pos hi]
    rw [← hzi]
    exact (sub_eq_zero.mp (by rw [sub_eq_add_neg]; exact hrow)).symm
  · -- a unit vector on the right
    set z : ℕ → K := fun k => if k < n then -m' k (n + j) else if k = n + j then 1 else 0 with hz
    have hzn : ∀ k, z (n + k) = if k = j then 1 else 0 := fun k => by
      rw [hz]
      simp
    have hunit : ∀ r, ∑ k ∈ range n, m' r (n + k) * z (n + k) = m' r (n + j) := by
      intro r
      have hterm : ∀ k ∈ range n, m' r (n + k) * z (n + k)
          = if k = j then m' r (n + j) else 0 := fun k _ => by
        rw [hzn]
        split_ifs with hkj
        · rw [hkj, mul_one]
        · rw [mul_zero]
      rw [sum_congr rfl hterm, sum_ite_eq', if_pos (mem_range.mpr hj)]
    have hzr : ∀ r < n, z r = -m' r (n + j) := fun r hr => by rw [hz]; simp only [if_pos hr]
    have hrow := (hboth z).mp (fun r hr => by rw [hunit, hzr r hr, neg_add_cancel]) i hi
    have hterm : ∀ k ∈ range n, h i k * z k = -(h i k * m' k (n + j)) := fun k hk => by
      rw [hzr k (mem_range.mp hk), mul_neg]
    rw [sum_congr rfl hterm, sum_neg_distrib, hzn, neg_add_eq_zero] at hrow
    exact hrow

/-! ## A run that fails -/

omit hcol hstep in
/-- **A run fails only** where `h` all but kills a vector with a one in it. -/
theorem exists_of_run_eq_none {h : ℕ → ℕ → K} (hrun : run tiny n (augmented n h) = none) :
    ∃ v : ℕ → K, ∃ col < n, v col = 1 ∧ ∀ i < n, |∑ j ∈ range n, h i j * v j| < tiny := by
  -- the columns before the one that fails
  obtain ⟨col, hcol, m, hm, hfail⟩ : ∃ col < n, ∃ m,
      (List.range col).foldlM (step tiny n) (augmented n h) = some m ∧ step tiny n m col = none := by
    have hcolumns : ∀ c ≤ n, (List.range c).foldlM (step tiny n) (augmented n h) = none →
        ∃ col < n, ∃ m, (List.range col).foldlM (step tiny n) (augmented n h) = some m ∧
          step tiny n m col = none := by
      intro c
      induction c with
      | zero => intro _ hnone; simp at hnone
      | succ c ih =>
          intro hc hnone
          cases hm : (List.range c).foldlM (step tiny n) (augmented n h) with
          | none => exact ih (by omega) hm
          | some m =>
              refine ⟨c, by omega, m, hm, ?_⟩
              rw [List.range_succ, List.foldlM_append, hm] at hnone
              simpa using hnone
    exact hcolumns n le_rfl hrun
  obtain ⟨hcleared, -, hrem⟩ := columns_spec htiny hcol.le hm
  obtain ⟨σ, hσn, hσ⟩ := hrem (n + n)
  have hsmall : ∀ r, col ≤ r → r < n → |m r col| < tiny := by
    intro r hr hrn
    refine (le_pivotRow m hr hrn).trans_lt ?_
    simp only [step] at hfail
    split_ifs at hfail with hbelow
    exact hbelow
  -- one in the column, and what the rows done make of it in the columns before
  set v : ℕ → K := fun j => if j < col then -m j col else if j = col then 1 else 0 with hv
  have hvcol : v col = 1 := by rw [hv]; simp
  set z : ℕ → K := fun j => if j < n then v j else 0 with hz
  have hhalf : ∀ row : ℕ → K, ∑ j ∈ range (n + n), row j * z j = ∑ j ∈ range n, row j * v j := by
    intro row
    have hright : ∑ j ∈ range n, row (n + j) * z (n + j) = 0 :=
      sum_eq_zero fun j _ => by simp [hz]
    rw [sum_range_add, hright, add_zero]
    exact sum_congr rfl fun j hj => by simp only [hz, if_pos (mem_range.mp hj)]
  have hrows : ∀ r < n, ∑ j ∈ range (n + n), m r j * z j = if r < col then 0 else m r col := by
    intro r hr
    have hterm : ∀ j ∈ range n, m r j * v j
        = (if j = r then (if r < col then -m r col else 0) else 0)
          + if j = col then m r col else 0 := by
      intro j hj
      rcases lt_trichotomy j col with hjc | rfl | hjc
      · rw [hcleared r hr j hjc, hv, if_neg hjc.ne]
        simp only [if_pos hjc, add_zero]
        by_cases hrj : r = j
        · rw [if_pos hrj, if_pos hrj.symm, if_pos (hrj ▸ hjc), one_mul, hrj]
        · rw [if_neg hrj, if_neg fun h => hrj h.symm, zero_mul]
      · rw [hvcol, mul_one, if_pos rfl]
        by_cases hrj : j = r
        · rw [if_pos hrj, if_neg (by omega), zero_add]
        · rw [if_neg hrj, zero_add]
      · rw [hv, if_neg hjc.ne']
        simp only [if_neg hjc.not_gt, if_neg hjc.ne', mul_zero, add_zero]
        by_cases hrj : j = r
        · rw [if_pos hrj, if_neg (by omega)]
        · rw [if_neg hrj]
    rw [hhalf, sum_congr rfl hterm, sum_add_distrib, sum_ite_eq', sum_ite_eq',
      if_pos (mem_range.mpr hr), if_pos (mem_range.mpr hcol)]
    split_ifs
    · rw [neg_add_cancel]
    · rw [zero_add]
  refine ⟨v, col, hcol, hvcol, fun i hi => ?_⟩
  -- the rows of `h`, in the order of the swaps
  obtain ⟨r, hr, rfl⟩ : ∃ r < n, σ r = i := by
    have hinj : Set.InjOn σ (range n : Set ℕ) := σ.injective.injOn
    have hmaps : Set.MapsTo σ (range n : Set ℕ) (range n) := fun r hr => by
      rw [coe_range, Set.mem_Iio] at hr ⊢
      exact hσn r hr
    obtain ⟨r, hr, hri⟩ := surjOn_of_injOn_of_card_le σ hmaps hinj le_rfl
      (show i ∈ (range n : Set ℕ) by rwa [coe_range, Set.mem_Iio])
    rw [coe_range, Set.mem_Iio] at hr
    exact ⟨r, hr, hri⟩
  have hread := hσ z (fun r hr' => by rw [hrows r (hr'.trans hcol), if_pos hr']) r hr
  have horig : ∑ j ∈ range (n + n), augmented n h (σ r) j * z j = ∑ j ∈ range n, h (σ r) j * v j := by
    rw [hhalf]
    exact sum_congr rfl fun j hj => by rw [augmented, if_pos (mem_range.mp hj)]
  rw [← horig, hread]
  split_ifs with hrc
  · rwa [abs_zero]
  · rw [hrows r hr, if_neg hrc]
    exact hsmall r (by omega) hr

end Elimination
