/-
# Chip errors a reduced-rate symbol takes (`reducedValue`, `include/phy/lora/coding.hpp`)

`decodeFrame` reads a vector only through the Gray word of each symbol
(`decodeFrame_of_words`).  The chips of a reduced-rate symbol are `4 q + 1`, and a chip from
one below to two above still reads as `q`; so errors of that size on the header symbols,
and with LDRO on every symbol, leave the whole result as it is (`decodeFrame_chipErrors`).
-/
import QuadrfMesh.Lora.FrameRoundTrip

open Chunks

/-! ## What the decoder reads of a symbol -/

/-- A block is read through its Gray words. -/
theorem decodeBlock_of_words {p : LoraParams} {firstBlock : Bool} (crApp : ℕ)
    {xs ys : List UInt16}
    (h : xs.map (fun v => wordOf p (firstBlock || p.ldro) v.toNat)
      = ys.map fun v => wordOf p (firstBlock || p.ldro) v.toNat) :
    decodeBlock p firstBlock crApp xs = decodeBlock p firstBlock crApp ys := by
  have hdec : ∀ block : List UInt16, decodeBlock p firstBlock crApp block
      = (deinterleaveBlock ((block.map fun v => wordOf p (firstBlock || p.ldro) v.toNat).map
          UInt16.ofNat) (sfAppOf p firstBlock) (u8 (crApp + 4))).map
            fun w => hammingDecode w crApp := by
    intro block
    rw [List.map_map]
    rfl
  rw [hdec, hdec, h]

/-- Two vectors with the same Gray words: the first eight symbols at the reduced rate, the
others at that of the data. -/
structure SameWords (p : LoraParams) (xs ys : List UInt16) : Prop where
  length : xs.length = ys.length
  word : ∀ i, wordOf p (decide (i < 8) || p.ldro) (xs.getD i 0).toNat
    = wordOf p (decide (i < 8) || p.ldro) (ys.getD i 0).toNat

namespace SameWords

variable {p : LoraParams} {xs ys : List UInt16} (h : SameWords p xs ys)
include h

theorem take_drop (firstBlock : Bool) (a b : ℕ)
    (hfirst : ∀ i < b, decide (a + i < 8) = firstBlock) :
    ((xs.drop a).take b).map (fun v => wordOf p (firstBlock || p.ldro) v.toNat)
      = ((ys.drop a).take b).map fun v => wordOf p (firstBlock || p.ldro) v.toNat := by
  have hlen : ((xs.drop a).take b).length = ((ys.drop a).take b).length := by
    rw [List.length_take, List.length_take, List.length_drop, List.length_drop, h.length]
  apply List.ext_getElem
  · rw [List.length_map, List.length_map, hlen]
  · intro i hx hy
    rw [List.length_map] at hx hy
    have hib : i < b := by
      rw [List.length_take] at hx
      omega
    have hword := h.word (a + i)
    rw [hfirst i hib, ← getD_drop_take xs a b i 0 hib, ← getD_drop_take ys a b i 0 hib,
      List.getD_eq_getElem _ _ hx, List.getD_eq_getElem _ _ hy] at hword
    rw [List.getElem_map, List.getElem_map]
    exact hword

theorem header_block :
    decodeBlock p true 4 (xs.take 8) = decodeBlock p true 4 (ys.take 8) := by
  have hwords := h.take_drop true 0 8 fun i hi => by
    rw [zero_add]
    exact decide_eq_true hi
  rw [List.drop_zero, List.drop_zero] at hwords
  exact decodeBlock_of_words 4 hwords

theorem data_block (crApp : ℕ) {a : ℕ} (ha : 8 ≤ a) (b : ℕ) :
    decodeBlock p false crApp ((xs.drop a).take b)
      = decodeBlock p false crApp ((ys.drop a).take b) :=
  decodeBlock_of_words crApp
    (h.take_drop false a b fun i _ => decide_eq_false (by omega))

/-- Past the header block both loops read the same nibbles. -/
theorem decodeLoop_data (fuel : ℕ) :
    ∀ st : DecodeState, st.firstBlock = false → 8 ≤ st.symIdx →
      decodeLoop p xs fuel st = decodeLoop p ys fuel st := by
  induction fuel with
  | zero => exact fun _ _ _ => rfl
  | succ fuel ih =>
      intro st hfirst hsym
      rw [decodeLoop, decodeLoop, h.length]
      simp only [hfirst, Bool.false_eq_true, if_false, h.data_block _ hsym]
      split
      · split
        · rfl
        · exact ih _ rfl (Nat.le_add_right_of_le hsym)
      · rfl

/-- **`decodeFrame` reads a vector through its Gray words.** -/
theorem decodeFrame_eq : decodeFrame p xs = decodeFrame p ys := by
  have hu8 : u8 (4 + 4) = 8 := by decide
  have hloop : ∀ needed, decodeLoop p xs (xs.length + 1) { nibblesNeeded := needed }
      = decodeLoop p ys (ys.length + 1) { nibblesNeeded := needed } := by
    intro needed
    rw [decodeLoop, decodeLoop, h.length]
    simp only [if_true, hu8, List.drop_zero, h.header_block]
    split
    · split
      · rfl
      · split
        · rfl
        · exact h.decodeLoop_data _ _ rfl (le_refl 8)
    · rfl
  unfold decodeFrame
  rw [hloop]

end SameWords

/-! ## Chips of reduced-rate symbols -/

section Legal

variable {p : LoraParams} (hp : LegalParams p)
include hp

/-- A reduced-rate symbol is sent on a chip `4 q + 1`. -/
theorem encodeBlock_mod_four (nibbles : List ℕ) (idx i : ℕ) {firstBlock : Bool}
    (hr : (firstBlock || p.ldro) = true) (hi : i < blockRate p firstBlock + 4) :
    ((encodeBlock p nibbles idx firstBlock).getD i 0).toNat % 4 = 1 := by
  have hsf := hp.sf_ge
  have happ : sfAppOf p firstBlock = p.spreadingFactor - 2 := by simp [sfAppOf, hr]
  have hlen := length_symbolBits
    (blockCodewords p nibbles idx firstBlock (blockRate p firstBlock)) (sfAppOf p firstBlock)
    (blockRate p firstBlock + 4) i
  rw [toNat_encodeBlock hp nibbles idx i firstBlock hi, hr, symbolWord_reduced (by omega)]
  exact (chipOf_parityWord p _ (by omega)).2

/-- A symbol of a frame is a symbol of one of its blocks. -/
theorem encodeFrame_mod_four (payload : List UInt8) {i : ℕ}
    (hi : i < (encodeFrame p payload).length) (hr : (decide (i < 8) || p.ldro) = true) :
    ((encodeFrame p payload).getD i 0).toNat % 4 = 1 := by
  rw [length_encodeFrame_blocks hp] at hi
  rcases Nat.lt_or_ge i 8 with h8 | h8
  · rw [getD_encodeFrame_header hp payload i h8]
    exact encodeBlock_mod_four hp _ 0 i rfl h8
  · rw [decide_eq_false (by omega)] at hr
    -- symbol `j` of data block `k`
    have hsplit := Nat.div_add_mod (i - 8) (p.cr + 4)
    have hj := Nat.mod_lt (i - 8) (show 0 < p.cr + 4 by omega)
    have hk : (i - 8) / (p.cr + 4) < dataBlockCount p (nibbleStream p payload).length :=
      Nat.div_lt_of_lt_mul (by rw [Nat.mul_comm]; omega)
    have heq : i = 8 + (i - 8) / (p.cr + 4) * (p.cr + 4) + (i - 8) % (p.cr + 4) := by
      rw [Nat.mul_comm]
      omega
    rw [heq, getD_encodeFrame_data hp payload _ _ hk hj]
    exact encodeBlock_mod_four hp _ _ _ hr hj

end Legal

/-- A chip `e` over, modulo the chip count. -/
def chipError (nChips : ℕ) (e : ℤ) (c : UInt16) : UInt16 :=
  UInt16.ofNat (((c.toNat : ℤ) + e) % nChips).toNat

/-- A vector received with an error on each symbol. -/
def chipErrors (nChips : ℕ) (e : ℕ → ℤ) (chips : List UInt16) : List UInt16 :=
  chips.mapIdx fun i c => chipError nChips (e i) c

section ChipError

variable {n : ℕ} (hn : n ≤ 2 ^ 16) {c : UInt16} (hc : c.toNat < n)
include hn hc

theorem toNat_chipError (e : ℤ) :
    ((chipError n e c).toNat : ℤ) = ((c.toNat : ℤ) + e) % n := by
  have h0 := Int.emod_nonneg ((c.toNat : ℤ) + e) (b := (n : ℤ)) (by omega)
  have h1 := Int.emod_lt_of_pos ((c.toNat : ℤ) + e) (b := (n : ℤ)) (by omega)
  rw [chipError, UInt16.toNat_ofNat', Nat.mod_eq_of_lt (by omega), Int.toNat_of_nonneg h0]

theorem chipError_zero : chipError n 0 c = c := by
  have h := toNat_chipError hn hc 0
  rw [add_zero, Int.emod_eq_of_lt (by omega) (by omega)] at h
  exact UInt16.toNat_inj.mp (by exact_mod_cast h)

/-- From one chip below `4 q + 1` to two above it the reading is `q`. -/
theorem reducedValue_chipError (hn4 : n % 4 = 0) (hc4 : c.toNat % 4 = 1) {e : ℤ}
    (he : e = -1 ∨ e = 0 ∨ e = 1 ∨ e = 2) :
    reducedValue (chipError n e c).toNat n = reducedValue c.toNat n := by
  have h := toNat_chipError hn hc e
  -- no error of that size leaves the range of the chips
  rw [Int.emod_eq_of_lt (by omega) (by omega)] at h
  rw [reducedValue, reducedValue, Nat.mod_eq_of_lt (by omega), Nat.mod_eq_of_lt hc,
    Nat.shiftRight_eq_div_pow, Nat.shiftRight_eq_div_pow]
  omega

end ChipError

@[simp] theorem length_chipErrors (nChips : ℕ) (e : ℕ → ℤ) (chips : List UInt16) :
    (chipErrors nChips e chips).length = chips.length := List.length_mapIdx

section Errors

variable {p : LoraParams} (hp : LegalParams p)
include hp

theorem chipCount_le : chipCount p ≤ 2 ^ 12 := by
  rw [chipCount_eq]
  exact Nat.pow_le_pow_right (by norm_num) hp.sf_le

theorem four_dvd_chipCount : chipCount p % 4 = 0 := by
  have hsf := hp.sf_ge
  obtain ⟨k, hk⟩ : ∃ k, p.spreadingFactor = k + 2 := ⟨p.spreadingFactor - 2, by omega⟩
  rw [chipCount_eq, hk, pow_add]
  omega

theorem getElem_encodeFrame_lt (payload : List UInt8) {i : ℕ}
    (hi : i < (encodeFrame p payload).length) :
    ((encodeFrame p payload)[i]).toNat < chipCount p := by
  rw [chipCount_eq]
  exact encodeFrame_lt hp payload _ (List.getElem_mem hi)

/-- Errors that reduced-rate symbols take do not change a Gray word. -/
theorem sameWords_chipErrors (payload : List UInt8) {e : ℕ → ℤ}
    (hreduced : ∀ i, i < 8 ∨ p.ldro = true → e i = -1 ∨ e i = 0 ∨ e i = 1 ∨ e i = 2)
    (hfull : ∀ i, ¬ (i < 8 ∨ p.ldro = true) → e i = 0) :
    SameWords p (chipErrors (chipCount p) e (encodeFrame p payload)) (encodeFrame p payload) := by
  have hn : chipCount p ≤ 2 ^ 16 := (chipCount_le hp).trans (by norm_num)
  refine ⟨length_chipErrors _ _ _, ?_⟩
  intro i
  rcases Nat.lt_or_ge i (encodeFrame p payload).length with hi | hi
  · have hc := getElem_encodeFrame_lt hp payload hi
    have hget : (chipErrors (chipCount p) e (encodeFrame p payload)).getD i 0
        = chipError (chipCount p) (e i) (encodeFrame p payload)[i] := by
      rw [List.getD_eq_getElem _ _ (by rw [length_chipErrors]; exact hi)]
      exact List.getElem_mapIdx
    rw [hget, List.getD_eq_getElem _ _ hi]
    by_cases hr : i < 8 ∨ p.ldro = true
    · have hr' : (decide (i < 8) || p.ldro) = true := by simpa using hr
      have hfour := encodeFrame_mod_four hp payload hi hr'
      rw [List.getD_eq_getElem _ _ hi] at hfour
      rw [hr', wordOf, wordOf, if_pos rfl, if_pos rfl,
        reducedValue_chipError hn hc (four_dvd_chipCount hp) hfour (hreduced i hr)]
    · rw [hfull i hr, chipError_zero hn hc]
  · rw [List.getD_eq_default _ _ (by rw [length_chipErrors]; exact hi),
      List.getD_eq_default _ _ hi]

end Errors

/-- **Chip errors.**  Errors from `-1` to `2` chips on the header symbols, and with LDRO on
every symbol, leave the result of `decodeFrame` as it is without them. -/
theorem decodeFrame_chipErrors {p : LoraParams} (hp : LegalParams p) (payload : List UInt8)
    {e : ℕ → ℤ}
    (hreduced : ∀ i, i < 8 ∨ p.ldro = true → e i = -1 ∨ e i = 0 ∨ e i = 1 ∨ e i = 2)
    (hfull : ∀ i, ¬ (i < 8 ∨ p.ldro = true) → e i = 0) :
    decodeFrame p (chipErrors (chipCount p) e (encodeFrame p payload))
      = decodeFrame p (encodeFrame p payload) :=
  (sameWords_chipErrors hp payload hreduced hfull).decodeFrame_eq

/-- Every symbol of a frame with LDRO two chips up. -/
theorem decodeFrame_chipErrors_ldro :
    decodeFrame { spreadingFactor := 7, ldro := true } (chipErrors 128 (fun _ => 2)
        (encodeFrame { spreadingFactor := 7, ldro := true } [0x42]))
      = decodeFrame { spreadingFactor := 7, ldro := true }
        (encodeFrame { spreadingFactor := 7, ldro := true } [0x42]) :=
  decodeFrame_chipErrors (p := { spreadingFactor := 7, ldro := true })
    ⟨by decide, by decide, by decide, by decide⟩ [0x42]
    (fun _ _ => Or.inr (Or.inr (Or.inr rfl))) (fun _ h => absurd (Or.inr rfl) h)
