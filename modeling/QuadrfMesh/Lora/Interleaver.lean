/-
# The diagonal interleaver

`diag sfApp i j` is the codeword that carries bit `j` of symbol `i`.  For a fixed
symbol it is an involution on the codeword indices, so every codeword takes
exactly one bit from each symbol; this is what makes `deinterleaveBlock` undo
`interleaveBlock`, and what confines a wrong symbol to one bit per codeword.
-/
import QuadrfMesh.Lora.Coding
import QuadrfMesh.Lib.BitWord

open BitWord

/-! ## The diagonal -/

/-- The double truncated `%` of the source is the Euclidean remainder. -/
theorem diag_eq_emod (n i j : ℕ) (hn : 0 < n) :
    diag n i j = (((i : ℤ) - j - 1) % n).toNat := by
  -- the first remainder is above `-n`, so adding `n` makes it nonnegative
  have hlow : -(n : ℤ) < ((i : ℤ) - j - 1).tmod n := by
    have h := Int.lt_tmod_of_pos ((i : ℤ) - j - 1) (b := n) (by exact_mod_cast hn)
    exact h
  rw [diag, Int.tmod_eq_emod_of_nonneg (by omega), Int.add_emod_right,
    Int.tmod_eq_emod]
  congr 1
  split
  · rw [Nat.cast_zero, sub_zero, Int.emod_emod_of_dvd _ (dvd_refl _)]
  · rw [Int.natAbs_natCast, Int.sub_emod_right, Int.emod_emod_of_dvd _ (dvd_refl _)]

theorem diag_lt (n i j : ℕ) (hn : 0 < n) : diag n i j < n := by
  rw [diag_eq_emod n i j hn]
  have h0 := Int.emod_nonneg ((i : ℤ) - j - 1) (b := (n : ℤ)) (by omega)
  have h1 := Int.emod_lt_of_pos ((i : ℤ) - j - 1) (b := (n : ℤ)) (by exact_mod_cast hn)
  omega

/-- For a fixed symbol the diagonal is an involution on the codeword indices. -/
theorem diag_diag (n i c : ℕ) (hc : c < n) : diag n i (diag n i c) = c := by
  have hn : 0 < n := by omega
  have h0 := Int.emod_nonneg ((i : ℤ) - c - 1) (b := (n : ℤ)) (by omega)
  have hcast : ((diag n i c : ℕ) : ℤ) = ((i : ℤ) - c - 1) % n := by
    rw [diag_eq_emod n i c hn, Int.toNat_of_nonneg h0]
  rw [diag_eq_emod n i _ hn, hcast]
  have hmod : ((i : ℤ) - ((i : ℤ) - c - 1) % n - 1) % n = c := by
    have hdiv := Int.emod_add_mul_ediv ((i : ℤ) - c - 1) n
    have heq : (i : ℤ) - ((i : ℤ) - c - 1) % n - 1 = c + n * (((i : ℤ) - c - 1) / n) := by
      linarith
    rw [heq, Int.add_mul_emod_self_left]
    exact Int.emod_eq_of_lt (by omega) (by exact_mod_cast hc)
  rw [hmod]
  exact Int.toNat_natCast c

/-- The only bit of symbol `i` that lands in codeword `c`. -/
theorem diag_eq_iff (n i j c : ℕ) (hj : j < n) (hc : c < n) :
    diag n i j = c ↔ j = diag n i c := by
  constructor
  · intro h
    rw [← h, diag_diag n i j hj]
  · intro h
    rw [h, diag_diag n i c hc]

/-! ## Interleaving -/

/-- The bits of symbol `i`, most significant first, before the reduced-rate
padding. -/
def symbolBits (cw : List ℕ) (sfApp cwLen i : ℕ) : List Bool :=
  (List.range sfApp).map fun j => (cw.getD (diag sfApp i j) 0).testBit (cwLen - 1 - i)

@[simp] theorem length_symbolBits (cw : List ℕ) (sfApp cwLen i : ℕ) :
    (symbolBits cw sfApp cwLen i).length = sfApp := by
  simp [symbolBits]

/-- The symbol accumulator of `interleaveBlock` spells the symbol's bits and
counts its ones. -/
theorem foldl_symbol_bits (f : ℕ → ℕ) (k n : ℕ) :
    (List.range n).foldl (fun (s : ℕ × ℕ) j =>
        let bit := (f j >>> k) &&& 0x1
        ((s.1 <<< 1) ||| bit, s.2 + bit)) (0, 0)
      = (ofBits ((List.range n).map fun j => (f j).testBit k),
          (((List.range n).map fun j => (f j).testBit k).map Bool.toNat).sum) := by
  have hbit : ∀ x : ℕ, (x >>> k) &&& 0x1 = (x.testBit k).toNat := by
    intro x
    rw [Nat.and_one_is_mod, Nat.toNat_testBit, Nat.shiftRight_eq_div_pow]
  induction n with
  | zero => rfl
  | succ n ih =>
      simp only [List.range_succ, List.foldl_append, List.foldl_cons, List.foldl_nil,
        List.map_append, List.map_singleton, ofBits_concat, List.sum_append, List.sum_singleton]
      rw [ih, hbit]

/-- Symbol `i` of an interleaved block before the cast to 16 bits. -/
def symbolWord (cw : List ℕ) (sf sfApp cwLen : ℕ) (reduced : Bool) (i : ℕ) : ℕ :=
  let bits := symbolBits cw sfApp cwLen i
  if reduced then ofBits (bits ++ [parity bits]) <<< (sf - sfApp - 1) else ofBits bits

/-- `interleaveBlock`, symbol by symbol. -/
theorem interleaveBlock_eq (cw : List ℕ) (sf sfApp cwLen : ℕ) (reduced : Bool) :
    interleaveBlock cw sf sfApp cwLen reduced
      = (List.range cwLen).map fun i => UInt16.ofNat (symbolWord cw sf sfApp cwLen reduced i) := by
  rw [interleaveBlock]
  apply List.map_congr_left
  intro i _
  have h := foldl_symbol_bits (fun j => cw.getD (diag sfApp i j) 0) (cwLen - 1 - i) sfApp
  simp only at h ⊢
  rw [h, symbolWord, ofBits_concat, parity_toNat]
  rfl

@[simp] theorem length_interleaveBlock (cw : List ℕ) (sf sfApp cwLen : ℕ) (reduced : Bool) :
    (interleaveBlock cw sf sfApp cwLen reduced).length = cwLen := by
  simp [interleaveBlock_eq]

/-! ## Deinterleaving -/

/-- Entry `c` after the first `m` bits of symbol `i` have each changed the entry they land
in: only bit `diag sfApp i c` touches it. -/
theorem getD_foldl_modify_diag {β : Type*} (f : ℕ → β → β) (d : β) {sfApp i c : ℕ} {out : List β}
    (hc : c < sfApp) (hout : sfApp ≤ out.length) (m : ℕ) (hm : m ≤ sfApp) :
    let res := (List.range m).foldl (fun out j => out.modify (diag sfApp i j) (f j)) out
    res.length = out.length ∧ res.getD c d =
      if diag sfApp i c < m then f (diag sfApp i c) (out.getD c d) else out.getD c d := by
  induction m with
  | zero => simp
  | succ m ih =>
      obtain ⟨hlen, hget⟩ := ih (by omega)
      simp only at hlen hget ⊢
      simp only [List.range_succ, List.foldl_append, List.foldl_cons, List.foldl_nil,
        List.length_modify]
      refine ⟨hlen, ?_⟩
      rw [List.getD_eq_getElem _ _ (by rw [List.length_modify, hlen]; omega),
        List.getElem_modify]
      rw [List.getD_eq_getElem _ _ (by rw [hlen]; omega)] at hget
      -- bit `m` lands in entry `c`, or leaves it alone
      by_cases hcm : diag sfApp i m = c
      · have hm' : m = diag sfApp i c := (diag_eq_iff sfApp i m c (by omega) hc).mp hcm
        rw [if_pos hcm, hget, if_neg (by omega), if_pos (by omega), ← hm']
      · have hm' : m ≠ diag sfApp i c := fun h => hcm ((diag_eq_iff sfApp i m c (by omega) hc).mpr h)
        rw [if_neg hcm, hget]
        by_cases hlt : diag sfApp i c < m
        · rw [if_pos hlt, if_pos (by omega)]
        · rw [if_neg hlt, if_neg (by omega)]

/-- Codeword `c` after the first `m` bits of symbol `i` have been ORed in. -/
theorem getD_foldl_deinterleave (symbol : UInt16) (sfApp cwLen i c : ℕ) (out : List ℕ)
    (hc : c < sfApp) (hout : out.length = sfApp) (m : ℕ) (hm : m ≤ sfApp) :
    let res := (List.range m).foldl (fun out j =>
      let bit := (symbol.toNat >>> (sfApp - 1 - j)) &&& 0x1
      out.modify (diag sfApp i j) fun w => u8 (w ||| (bit <<< (cwLen - 1 - i)))) out
    res.length = sfApp ∧ res.getD c 0 =
      if diag sfApp i c < m then
        u8 (out.getD c 0 |||
          (((symbol.toNat >>> (sfApp - 1 - diag sfApp i c)) &&& 0x1) <<< (cwLen - 1 - i)))
      else out.getD c 0 := by
  have h := getD_foldl_modify_diag
    (fun j w => u8 (w ||| (((symbol.toNat >>> (sfApp - 1 - j)) &&& 0x1) <<< (cwLen - 1 - i)))) 0
    (i := i) hc hout.ge m hm
  rw [hout] at h
  exact h

/-- Codeword `c` after symbol `i` has been ORed in. -/
theorem getD_deinterleaveSymbol (symbol : UInt16) (sfApp cwLen i c : ℕ) (out : List ℕ)
    (hc : c < sfApp) (hout : out.length = sfApp) :
    (deinterleaveSymbol symbol sfApp cwLen i out).getD c 0
      = u8 (out.getD c 0 |||
          (((symbol.toNat >>> (sfApp - 1 - diag sfApp i c)) &&& 0x1) <<< (cwLen - 1 - i))) := by
  have h := (getD_foldl_deinterleave symbol sfApp cwLen i c out hc hout sfApp le_rfl).2
  rw [if_pos (diag_lt sfApp i c (by omega))] at h
  exact h

theorem length_deinterleaveSymbol (symbol : UInt16) (sfApp cwLen i : ℕ) (out : List ℕ)
    (hn : 0 < sfApp) (hout : out.length = sfApp) :
    (deinterleaveSymbol symbol sfApp cwLen i out).length = sfApp :=
  (getD_foldl_deinterleave symbol sfApp cwLen i 0 out hn hout sfApp le_rfl).1

/-- The codewords after the first `n` symbols: bit `cwLen - 1 - i` of codeword `c`
is the diagonal bit of symbol `i`, and the bits of later symbols are still zero. -/
theorem testBit_foldl_deinterleave (symbols : List UInt16) (sfApp cwLen c : ℕ)
    (hc : c < sfApp) (hcw : cwLen ≤ 8) (n : ℕ) (hn : n ≤ cwLen) :
    let res := (List.range n).foldl (fun out i =>
      deinterleaveSymbol (symbols.getD i 0) sfApp cwLen i out) (List.replicate sfApp 0)
    res.length = sfApp ∧ ∀ b, (res.getD c 0).testBit b =
      (decide (b < cwLen) && decide (cwLen - 1 - b < n) &&
        (symbols.getD (cwLen - 1 - b) 0).toNat.testBit
          (sfApp - 1 - diag sfApp (cwLen - 1 - b) c)) := by
  induction n with
  | zero => simp [hc]
  | succ n ih =>
      obtain ⟨hlen, hbit⟩ := ih (by omega)
      simp only at hlen hbit ⊢
      simp only [List.range_succ, List.foldl_append, List.foldl_cons, List.foldl_nil]
      refine ⟨length_deinterleaveSymbol _ _ _ _ _ (by omega) hlen, ?_⟩
      intro b
      rw [getD_deinterleaveSymbol _ _ _ _ _ _ hc hlen, u8, Nat.testBit_mod_two_pow,
        Nat.testBit_or, hbit, Nat.testBit_shiftLeft, Nat.testBit_and, Nat.testBit_shiftRight]
      -- symbol `n` sets bit `cwLen - 1 - n` and no other
      by_cases hb : b < cwLen
      · by_cases hbn : b = cwLen - 1 - n
        · have hn' : cwLen - 1 - b = n := by omega
          rw [hn', hbn]
          simp [show cwLen - 1 - n < 8 by omega, show cwLen - 1 - n < cwLen by omega]
        · have hzero : (decide (b ≥ cwLen - 1 - n) && (((symbols.getD n 0).toNat.testBit
              (sfApp - 1 - diag sfApp n c + (b - (cwLen - 1 - n)))) &&
                (0x1 : ℕ).testBit (b - (cwLen - 1 - n)))) = false := by
            rcases Nat.lt_or_ge b (cwLen - 1 - n) with h | h
            · simp [show ¬ (b ≥ cwLen - 1 - n) by omega]
            · have h1 : (0x1 : ℕ).testBit (b - (cwLen - 1 - n)) = false :=
                Nat.testBit_lt_two_pow (Nat.one_lt_two_pow (by omega))
              rw [h1, Bool.and_false, Bool.and_false]
          rw [hzero, Bool.or_false]
          simp [show b < 8 by omega, hb,
            show (cwLen - 1 - b < n + 1) ↔ (cwLen - 1 - b < n) by omega]
      · have h1 : (0x1 : ℕ).testBit (b - (cwLen - 1 - n)) = false :=
          Nat.testBit_lt_two_pow (Nat.one_lt_two_pow (by omega))
        simp [hb, h1]

@[simp] theorem length_deinterleaveBlock (symbols : List UInt16) (sfApp cwLen : ℕ)
    (hn : 0 < sfApp) (hcw : cwLen ≤ 8) :
    (deinterleaveBlock symbols sfApp cwLen).length = sfApp :=
  (testBit_foldl_deinterleave symbols sfApp cwLen 0 hn hcw cwLen le_rfl).1

/-- **The deinterleaver.**  Bit `cwLen - 1 - i` of codeword `c` is the diagonal bit
of symbol `i`; no other bit is set. -/
theorem testBit_deinterleaveBlock (symbols : List UInt16) (sfApp cwLen c b : ℕ)
    (hc : c < sfApp) (hcw : cwLen ≤ 8) :
    ((deinterleaveBlock symbols sfApp cwLen).getD c 0).testBit b =
      (decide (b < cwLen) && (symbols.getD (cwLen - 1 - b) 0).toNat.testBit
        (sfApp - 1 - diag sfApp (cwLen - 1 - b) c)) := by
  have h := (testBit_foldl_deinterleave symbols sfApp cwLen c hc hcw cwLen le_rfl).2 b
  rw [deinterleaveBlock, h]
  by_cases hb : b < cwLen
  · simp [hb, show cwLen - 1 - b < cwLen by omega]
  · simp [hb]
