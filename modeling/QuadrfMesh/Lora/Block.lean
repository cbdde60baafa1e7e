/-
# One interleaver block

A symbol sent through the Gray map and the chip offset comes back as its data
bits, at full and at reduced rate; a block of symbols of which at most one is
wrong comes back as the nibbles sent when the block's Hamming code corrects
single errors (coding rates 3 and 4), and an untouched block always does.
-/
import QuadrfMesh.Lora.Interleaver

open BitWord

/-! ## Hamming -/

theorem hammingEncode_lt (nib crApp : ℕ) (hcr : 1 ≤ crApp) (hcr' : crApp ≤ 4) :
    hammingEncode nib crApp < 2 ^ (crApp + 4) := by
  unfold hammingEncode
  cases nib.testBit 0 <;> cases nib.testBit 1 <;> cases nib.testBit 2 <;> cases nib.testBit 3 <;>
    (interval_cases crApp <;> decide)

/-- An intact codeword decodes to its nibble, at every coding rate. -/
theorem hammingDecode_hammingEncode (nib crApp : ℕ) (hnib : nib < 16) (hcr : 1 ≤ crApp)
    (hcr' : crApp ≤ 4) : hammingDecode (hammingEncode nib crApp) crApp = nib := by
  interval_cases crApp <;> interval_cases nib <;> decide

/-- **Single-error correction.**  At coding rates 3 and 4 one flipped bit, parity
bits included, does not change the decoded nibble. -/
theorem hammingDecode_flip (nib crApp k : ℕ) (hnib : nib < 16) (hcr : 3 ≤ crApp) (hcr' : crApp ≤ 4)
    (hk : k < crApp + 4) :
    hammingDecode (hammingEncode nib crApp ^^^ 2 ^ k) crApp = nib := by
  have h3 : ∀ n : Fin 16, ∀ k : Fin 7, hammingDecode (hammingEncode n 3 ^^^ 2 ^ k.val) 3 = n := by
    decide
  have h4 : ∀ n : Fin 16, ∀ k : Fin 8, hammingDecode (hammingEncode n 4 ^^^ 2 ^ k.val) 4 = n := by
    decide
  rcases Nat.eq_or_lt_of_le hcr with h | h
  · subst h
    exact h3 ⟨nib, hnib⟩ ⟨k, hk⟩
  · obtain rfl : crApp = 4 := by omega
    exact h4 ⟨nib, hnib⟩ ⟨k, hk⟩

/-- A number that differs from `x` in at most bit `k` is `x` or `x` with that bit
flipped. -/
theorem eq_or_eq_flip (x y k : ℕ) (h : ∀ b, b ≠ k → y.testBit b = x.testBit b) :
    y = x ∨ y = x ^^^ 2 ^ k := by
  by_cases hk : y.testBit k = x.testBit k
  · left
    apply Nat.eq_of_testBit_eq
    intro b
    by_cases hb : b = k
    · rw [hb, hk]
    · exact h b hb
  · right
    apply Nat.eq_of_testBit_eq
    intro b
    rw [Nat.testBit_xor, Nat.testBit_two_pow]
    by_cases hb : b = k
    · subst hb
      revert hk
      cases y.testBit b <;> cases x.testBit b <;> simp
    · rw [h b hb, decide_eq_false (fun hkb => hb hkb.symm), Bool.xor_false]

/-! ## Gray map and chip offset -/

theorem grayDecode_eq_xorShifts (g bits : ℕ) : grayDecode g bits = xorShifts g (bits - 1) :=
  foldl_xor_shiftRight g (bits - 1)

theorem grayEncode_grayDecode (g bits : ℕ) (hbits : 0 < bits) (hg : g < 2 ^ bits) :
    grayEncode (grayDecode g bits) = g := by
  rw [grayDecode_eq_xorShifts, grayEncode]
  exact xorShifts_encode g (bits - 1) (by rwa [Nat.sub_add_cancel hbits])

theorem grayDecode_lt (g bits w : ℕ) (hg : g < 2 ^ w) : grayDecode g bits < 2 ^ w := by
  rw [grayDecode_eq_xorShifts]
  exact xorShifts_lt g (bits - 1) w hg

/-- The Gray encoder commutes with dropping low bits. -/
theorem grayEncode_shiftRight (v k : ℕ) : grayEncode (v >>> k) = grayEncode v >>> k := by
  rw [grayEncode, grayEncode, Nat.shiftRight_xor_distrib, ← Nat.shiftRight_add,
    ← Nat.shiftRight_add, Nat.add_comm k 1]

/-- The chip `encodeFrame` sends for a symbol word. -/
def chipOf (p : LoraParams) (word : ℕ) : ℕ :=
  (grayDecode word p.spreadingFactor + 1) % chipCount p

/-- The Gray word `decodeFrame` reads off a raw value. -/
def wordOf (p : LoraParams) (reduced : Bool) (raw : ℕ) : ℕ :=
  grayEncode (if reduced then reducedValue raw (chipCount p)
    else (raw + chipCount p - 1) % chipCount p)

/-- At full rate the receiver reads the word sent. -/
theorem wordOf_chipOf_full (p : LoraParams) (hsf : 0 < p.spreadingFactor) (word : ℕ)
    (hw : word < 2 ^ p.spreadingFactor) : wordOf p false (chipOf p word) = word := by
  have hlt := grayDecode_lt word p.spreadingFactor _ hw
  have hpos := chipCount_pos p
  have hv : (chipOf p word + chipCount p - 1) % chipCount p
      = grayDecode word p.spreadingFactor := by
    rw [← chipCount_eq] at hlt
    rw [chipOf]
    rcases Nat.lt_or_ge (grayDecode word p.spreadingFactor + 1) (chipCount p) with h | h
    · rw [Nat.mod_eq_of_lt h, show grayDecode word p.spreadingFactor + 1 + chipCount p - 1
          = grayDecode word p.spreadingFactor + chipCount p by omega, Nat.add_mod_right,
        Nat.mod_eq_of_lt hlt]
    · have heq : grayDecode word p.spreadingFactor + 1 = chipCount p := by omega
      rw [heq, Nat.mod_self, zero_add, Nat.mod_eq_of_lt (by omega)]
      omega
  simp only [wordOf, Bool.false_eq_true, if_false]
  rw [hv, grayEncode_grayDecode word _ hsf hw]

/-- The parity bit and the zero land the chip on `4 q + 1`. -/
theorem chipOf_parityWord (p : LoraParams) (bits : List Bool)
    (hsf : p.spreadingFactor = bits.length + 2) :
    chipOf p (ofBits (bits ++ [parity bits] ++ [false]))
        = grayDecode (ofBits (bits ++ [parity bits] ++ [false])) p.spreadingFactor + 1 ∧
      chipOf p (ofBits (bits ++ [parity bits] ++ [false])) % 4 = 1 := by
  set word := ofBits (bits ++ [parity bits] ++ [false]) with hword
  have hw : word < 2 ^ p.spreadingFactor := by
    have hlen : (bits ++ [parity bits] ++ [false]).length = bits.length + 2 := by simp
    rw [hsf, ← hlen]
    exact ofBits_lt _
  have hlt := grayDecode_lt word p.spreadingFactor _ hw
  have hfour : grayDecode word p.spreadingFactor % 4 = 0 := by
    rw [grayDecode_eq_xorShifts, hsf]
    exact xorShifts_parity_word bits
  have hpow : chipCount p % 4 = 0 := by
    rw [chipCount_eq, hsf, pow_add]
    omega
  rw [← chipCount_eq] at hlt
  have hchip : chipOf p word = grayDecode word p.spreadingFactor + 1 := by
    rw [chipOf, Nat.mod_eq_of_lt (by omega)]
  exact ⟨hchip, by omega⟩

/-- At reduced rate the receiver reads the data bits of the word sent. -/
theorem wordOf_chipOf_reduced (p : LoraParams) (bits : List Bool)
    (hsf : p.spreadingFactor = bits.length + 2) :
    wordOf p true (chipOf p (ofBits (bits ++ [parity bits] ++ [false]))) = ofBits bits := by
  obtain ⟨hchip, hfour⟩ := chipOf_parityWord p bits hsf
  set word := ofBits (bits ++ [parity bits] ++ [false]) with hword
  have hw : word < 2 ^ p.spreadingFactor := by
    have hlen : (bits ++ [parity bits] ++ [false]).length = bits.length + 2 := by simp
    rw [hsf, ← hlen]
    exact ofBits_lt _
  have hlt : chipOf p word < chipCount p := Nat.mod_lt _ (chipCount_pos p)
  have hred : reducedValue (chipOf p word) (chipCount p)
      = grayDecode word p.spreadingFactor >>> 2 := by
    rw [reducedValue, Nat.mod_eq_of_lt hlt, hchip, Nat.shiftRight_eq_div_pow,
      Nat.shiftRight_eq_div_pow]
    omega
  simp only [wordOf, if_true]
  rw [hred, grayEncode_shiftRight, grayEncode_grayDecode word _ (by omega) hw, hword,
    ofBits_concat_eq, ofBits_concat_eq, Nat.shiftRight_eq_div_pow]
  have hb : (parity bits).toNat < 2 := by cases parity bits <;> decide
  simp only [Bool.toNat_false]
  omega

/-! ## The block round trip -/

/-- The codewords of the block that starts at nibble `idx`. -/
def blockCodewords (p : LoraParams) (nibbles : List ℕ) (idx : ℕ) (firstBlock : Bool)
    (crApp : ℕ) : List ℕ :=
  (List.range (sfAppOf p firstBlock)).map fun i =>
    hammingEncode (nibbles.getD (idx + i) 0) crApp

theorem getD_blockCodewords (p : LoraParams) (nibbles : List ℕ) (idx : ℕ) (firstBlock : Bool)
    (crApp c : ℕ) (hc : c < sfAppOf p firstBlock) :
    (blockCodewords p nibbles idx firstBlock crApp).getD c 0
      = hammingEncode (nibbles.getD (idx + c) 0) crApp := by
  rw [blockCodewords, List.getD_eq_getElem _ _ (by simpa using hc)]
  simp

/-- The coding rate a block is sent at. -/
def blockRate (p : LoraParams) (firstBlock : Bool) : ℕ := if firstBlock then 4 else p.cr

/-- A legal spreading factor and coding rate. -/
structure LegalParams (p : LoraParams) : Prop where
  sf_ge : 7 ≤ p.spreadingFactor
  sf_le : p.spreadingFactor ≤ 12
  cr_ge : 1 ≤ p.cr
  cr_le : p.cr ≤ 4

section Legal

variable {p : LoraParams} (hp : LegalParams p)
include hp

theorem blockRate_bounds (firstBlock : Bool) :
    1 ≤ blockRate p firstBlock ∧ blockRate p firstBlock ≤ 4 := by
  cases firstBlock
  · exact ⟨hp.cr_ge, hp.cr_le⟩
  · simp [blockRate]

theorem sfAppOf_bounds (firstBlock : Bool) :
    5 ≤ sfAppOf p firstBlock ∧ sfAppOf p firstBlock ≤ p.spreadingFactor := by
  have h1 := hp.sf_ge
  unfold sfAppOf
  split <;> constructor <;> omega

theorem u8_blockRate (firstBlock : Bool) :
    u8 (blockRate p firstBlock + 4) = blockRate p firstBlock + 4 := by
  have h := (blockRate_bounds hp firstBlock).2
  exact Nat.mod_eq_of_lt (by omega)

omit hp in
/-- A reduced-rate symbol ends in its parity and a zero. -/
theorem symbolWord_reduced {sf sfApp : ℕ} (hsf : sf = sfApp + 2) (cw : List ℕ) (cwLen i : ℕ) :
    symbolWord cw sf sfApp cwLen true i
      = ofBits (symbolBits cw sfApp cwLen i ++ [parity (symbolBits cw sfApp cwLen i)]
          ++ [false]) := by
  have hone : sf - sfApp - 1 = 1 := by omega
  have hpad := ofBits_concat (symbolBits cw sfApp cwLen i
    ++ [parity (symbolBits cw sfApp cwLen i)]) false
  rw [Bool.toNat_false, Nat.or_zero] at hpad
  simp only [symbolWord, if_true]
  rw [hone, ← hpad]

/-- The word `decodeFrame` reads off chip `i` of a block is the symbol's data
bits. -/
theorem wordOf_chipOf_symbolWord (cw : List ℕ) (cwLen i : ℕ) (firstBlock : Bool) :
    wordOf p (firstBlock || p.ldro)
        (chipOf p (symbolWord cw p.spreadingFactor (sfAppOf p firstBlock) cwLen
          (firstBlock || p.ldro) i))
      = ofBits (symbolBits cw (sfAppOf p firstBlock) cwLen i) := by
  have hsf := hp.sf_ge
  have hlen := length_symbolBits cw (sfAppOf p firstBlock) cwLen i
  cases hr : firstBlock || p.ldro
  · have happ : sfAppOf p firstBlock = p.spreadingFactor := by simp [sfAppOf, hr]
    simp only [symbolWord, Bool.false_eq_true, if_false]
    refine wordOf_chipOf_full p (by omega) _ ?_
    have h := ofBits_lt (symbolBits cw (sfAppOf p firstBlock) cwLen i)
    rw [← happ]
    rwa [hlen] at h
  · have happ : sfAppOf p firstBlock = p.spreadingFactor - 2 := by simp [sfAppOf, hr]
    rw [symbolWord_reduced (by omega)]
    exact wordOf_chipOf_reduced p _ (by omega)

theorem symbolWord_lt (cw : List ℕ) (cwLen i : ℕ) (firstBlock : Bool) :
    symbolWord cw p.spreadingFactor (sfAppOf p firstBlock) cwLen (firstBlock || p.ldro) i
      < 2 ^ p.spreadingFactor := by
  have hsf := hp.sf_ge
  have hlen := length_symbolBits cw (sfAppOf p firstBlock) cwLen i
  cases hr : firstBlock || p.ldro
  · have happ : sfAppOf p firstBlock = p.spreadingFactor := by simp [sfAppOf, hr]
    have h := ofBits_lt (symbolBits cw (sfAppOf p firstBlock) cwLen i)
    simp only [symbolWord, Bool.false_eq_true, if_false]
    rw [← happ]
    rwa [hlen] at h
  · have happ : sfAppOf p firstBlock = p.spreadingFactor - 2 := by simp [sfAppOf, hr]
    have hone : p.spreadingFactor - sfAppOf p firstBlock - 1 = 1 := by omega
    have h := ofBits_lt (symbolBits cw (sfAppOf p firstBlock) cwLen i
      ++ [parity (symbolBits cw (sfAppOf p firstBlock) cwLen i)])
    rw [List.length_append, hlen, List.length_singleton] at h
    simp only [symbolWord, if_true]
    rw [hone, Nat.shiftLeft_eq, pow_one]
    have hpow : 2 ^ p.spreadingFactor = 2 ^ (sfAppOf p firstBlock + 1) * 2 := by
      rw [← pow_succ]
      congr 1
      omega
    omega

/-- The chips of a block, one per symbol word. -/
theorem encodeBlock_eq (nibbles : List ℕ) (idx : ℕ) (firstBlock : Bool) :
    encodeBlock p nibbles idx firstBlock
      = (List.range (blockRate p firstBlock + 4)).map fun i =>
          UInt16.ofNat (chipOf p (symbolWord
            (blockCodewords p nibbles idx firstBlock (blockRate p firstBlock))
            p.spreadingFactor (sfAppOf p firstBlock) (blockRate p firstBlock + 4)
            (firstBlock || p.ldro) i)) := by
  have hu8 := u8_blockRate hp firstBlock
  unfold blockRate at hu8 ⊢
  rw [encodeBlock, hu8, interleaveBlock_eq, List.map_map]
  apply List.map_congr_left
  intro i _
  have hw := symbolWord_lt hp (blockCodewords p nibbles idx firstBlock (blockRate p firstBlock))
    (blockRate p firstBlock + 4) i firstBlock
  have hsf : 2 ^ p.spreadingFactor ≤ 2 ^ 12 := Nat.pow_le_pow_right (by norm_num) hp.sf_le
  have h16 : (UInt16.ofNat (symbolWord
      (blockCodewords p nibbles idx firstBlock (blockRate p firstBlock)) p.spreadingFactor
      (sfAppOf p firstBlock) (blockRate p firstBlock + 4) (firstBlock || p.ldro) i)).toNat
      = symbolWord (blockCodewords p nibbles idx firstBlock (blockRate p firstBlock))
          p.spreadingFactor (sfAppOf p firstBlock) (blockRate p firstBlock + 4)
          (firstBlock || p.ldro) i := by
    rw [UInt16.toNat_ofNat']
    exact Nat.mod_eq_of_lt (by omega)
  unfold blockRate blockCodewords at h16
  simp only [Function.comp_apply]
  rw [h16]
  rfl

@[simp] theorem length_encodeBlock (nibbles : List ℕ) (idx : ℕ) (firstBlock : Bool) :
    (encodeBlock p nibbles idx firstBlock).length = blockRate p firstBlock + 4 := by
  simp [encodeBlock_eq hp]

/-- Every chip of a block is a chirp value. -/
theorem encodeBlock_lt (nibbles : List ℕ) (idx : ℕ) (firstBlock : Bool) :
    ∀ c ∈ encodeBlock p nibbles idx firstBlock, c.toNat < 2 ^ p.spreadingFactor := by
  intro c hc
  rw [encodeBlock_eq hp, List.mem_map] at hc
  obtain ⟨i, -, rfl⟩ := hc
  rw [UInt16.toNat_ofNat', ← chipCount_eq]
  exact lt_of_le_of_lt (Nat.mod_le _ _) (Nat.mod_lt _ (chipCount_pos p))

/-- Symbol `i` of a block on the air. -/
theorem toNat_encodeBlock (nibbles : List ℕ) (idx i : ℕ) (firstBlock : Bool)
    (hi : i < blockRate p firstBlock + 4) :
    ((encodeBlock p nibbles idx firstBlock).getD i 0).toNat
      = chipOf p (symbolWord (blockCodewords p nibbles idx firstBlock (blockRate p firstBlock))
          p.spreadingFactor (sfAppOf p firstBlock) (blockRate p firstBlock + 4)
          (firstBlock || p.ldro) i) := by
  have hsf : 2 ^ p.spreadingFactor ≤ 2 ^ 12 := Nat.pow_le_pow_right (by norm_num) hp.sf_le
  have hlt : ∀ w, chipOf p w < 2 ^ 16 := by
    intro w
    have h : chipOf p w < chipCount p := Nat.mod_lt _ (chipCount_pos p)
    rw [chipCount_eq] at h
    omega
  rw [encodeBlock_eq hp, List.getD_eq_getElem _ _ (by simpa using hi)]
  simp only [List.getElem_map, List.getElem_range]
  rw [UInt16.toNat_ofNat', Nat.mod_eq_of_lt (hlt _)]

/-- The Gray word the receiver reads off an intact symbol of a block. -/
theorem wordOf_encodeBlock (nibbles : List ℕ) (idx i : ℕ) (firstBlock : Bool)
    (hi : i < blockRate p firstBlock + 4) :
    wordOf p (firstBlock || p.ldro) ((encodeBlock p nibbles idx firstBlock).getD i 0).toNat
      = ofBits (symbolBits (blockCodewords p nibbles idx firstBlock (blockRate p firstBlock))
          (sfAppOf p firstBlock) (blockRate p firstBlock + 4) i) := by
  rw [toNat_encodeBlock hp nibbles idx i firstBlock hi]
  exact wordOf_chipOf_symbolWord hp _ _ _ _

/-- Codeword `c` as deinterleaved from a block in which only symbol `i₀` may be
wrong differs from the codeword sent in at most one bit. -/
theorem testBit_deinterleaved (nibbles : List ℕ) (idx : ℕ) (firstBlock : Bool)
    (block : List UInt16) (i₀ c b : ℕ) (hc : c < sfAppOf p firstBlock)
    (hblock : block.length = blockRate p firstBlock + 4)
    (hagree : ∀ i, i < blockRate p firstBlock + 4 → i ≠ i₀ →
      block.getD i 0 = (encodeBlock p nibbles idx firstBlock).getD i 0)
    (hb : b < blockRate p firstBlock + 4 → blockRate p firstBlock + 4 - 1 - b ≠ i₀) :
    ((deinterleaveBlock (block.map fun raw =>
        UInt16.ofNat (wordOf p (firstBlock || p.ldro) raw.toNat))
        (sfAppOf p firstBlock) (blockRate p firstBlock + 4)).getD c 0).testBit b
      = (hammingEncode (nibbles.getD (idx + c) 0) (blockRate p firstBlock)).testBit b := by
  obtain ⟨hr1, hr4⟩ := blockRate_bounds hp firstBlock
  obtain ⟨ha5, hasf⟩ := sfAppOf_bounds hp firstBlock
  have hsf := hp.sf_le
  rw [testBit_deinterleaveBlock _ _ _ _ _ hc (by omega)]
  by_cases hbc : b < blockRate p firstBlock + 4
  · set i := blockRate p firstBlock + 4 - 1 - b with hi
    have hib : blockRate p firstBlock + 4 - 1 - i = b := by omega
    have hilt : i < blockRate p firstBlock + 4 := by omega
    have hword : wordOf p (firstBlock || p.ldro) (block.getD i 0).toNat
        = ofBits (symbolBits (blockCodewords p nibbles idx firstBlock (blockRate p firstBlock))
            (sfAppOf p firstBlock) (blockRate p firstBlock + 4) i) := by
      rw [hagree i hilt (hb hbc)]
      exact wordOf_encodeBlock hp nibbles idx i firstBlock hilt
    have hget : (block.map fun raw =>
        UInt16.ofNat (wordOf p (firstBlock || p.ldro) raw.toNat)).getD i 0
        = UInt16.ofNat (wordOf p (firstBlock || p.ldro) (block.getD i 0).toNat) := by
      rw [List.getD_eq_getElem _ _ (by rw [List.length_map, hblock]; exact hilt),
        List.getElem_map, List.getD_eq_getElem _ _ (by rw [hblock]; exact hilt)]
    have hbits := length_symbolBits
      (blockCodewords p nibbles idx firstBlock (blockRate p firstBlock))
      (sfAppOf p firstBlock) (blockRate p firstBlock + 4) i
    have hlt := ofBits_lt (symbolBits
      (blockCodewords p nibbles idx firstBlock (blockRate p firstBlock))
      (sfAppOf p firstBlock) (blockRate p firstBlock + 4) i)
    have hpow : 2 ^ sfAppOf p firstBlock ≤ 2 ^ 12 :=
      Nat.pow_le_pow_right (by norm_num) (by omega)
    have hdiag := diag_lt (sfAppOf p firstBlock) i c (by omega)
    rw [hbits] at hlt
    rw [decide_eq_true hbc, Bool.true_and, hget, hword, UInt16.toNat_ofNat',
      Nat.mod_eq_of_lt (by omega), testBit_ofBits _ _ (by rw [hbits]; omega), hbits,
      show sfAppOf p firstBlock - 1 - (sfAppOf p firstBlock - 1 - diag (sfAppOf p firstBlock) i c)
        = diag (sfAppOf p firstBlock) i c by omega,
      List.getD_eq_getElem _ _ (by rw [hbits]; exact hdiag)]
    simp only [symbolBits, List.getElem_map, List.getElem_range]
    rw [diag_diag _ _ _ hc, getD_blockCodewords p nibbles idx firstBlock _ c hc, hib]
  · have hlt := hammingEncode_lt (nibbles.getD (idx + c) 0) (blockRate p firstBlock) hr1 hr4
    have hpow : 2 ^ (blockRate p firstBlock + 4) ≤ 2 ^ b :=
      Nat.pow_le_pow_right (by norm_num) (by omega)
    rw [decide_eq_false hbc, Bool.false_and, Nat.testBit_lt_two_pow (by omega)]

/-- **One block.**  A block of symbols of which at most symbol `i₀` differs from
the block sent decodes to the nibbles sent, when the coding rate corrects single
errors or the block is intact. -/
theorem decodeBlock_encodeBlock (nibbles : List ℕ) (idx : ℕ) (firstBlock : Bool)
    (block : List UInt16) (i₀ : ℕ) (hnib : ∀ i, nibbles.getD i 0 < 16)
    (hblock : block.length = blockRate p firstBlock + 4)
    (hagree : ∀ i, i < blockRate p firstBlock + 4 → i ≠ i₀ →
      block.getD i 0 = (encodeBlock p nibbles idx firstBlock).getD i 0)
    (hrate : 3 ≤ blockRate p firstBlock ∨ blockRate p firstBlock + 4 ≤ i₀) :
    decodeBlock p firstBlock (blockRate p firstBlock) block
      = (List.range (sfAppOf p firstBlock)).map fun i => nibbles.getD (idx + i) 0 := by
  obtain ⟨hr1, hr4⟩ := blockRate_bounds hp firstBlock
  obtain ⟨ha5, hasf⟩ := sfAppOf_bounds hp firstBlock
  have hlen : (deinterleaveBlock (block.map fun raw =>
      UInt16.ofNat (wordOf p (firstBlock || p.ldro) raw.toNat))
      (sfAppOf p firstBlock) (blockRate p firstBlock + 4)).length = sfAppOf p firstBlock :=
    length_deinterleaveBlock _ _ _ (by omega) (by omega)
  have hdec : decodeBlock p firstBlock (blockRate p firstBlock) block
      = (deinterleaveBlock (block.map fun raw =>
          UInt16.ofNat (wordOf p (firstBlock || p.ldro) raw.toNat))
          (sfAppOf p firstBlock) (blockRate p firstBlock + 4)).map
            fun w => hammingDecode w (blockRate p firstBlock) := by
    rw [decodeBlock, u8_blockRate hp firstBlock]
    rfl
  rw [hdec]
  apply List.ext_getElem
  · rw [List.length_map, hlen, List.length_map, List.length_range]
  · intro c hc1 hc2
    rw [List.length_map, hlen] at hc1
    have hbits := fun b => testBit_deinterleaved hp nibbles idx firstBlock block i₀ c b hc1
      hblock hagree
    rw [List.getD_eq_getElem _ _ (by rw [hlen]; exact hc1)] at hbits
    simp only [List.getElem_map, List.getElem_range]
    rcases Nat.lt_or_ge i₀ (blockRate p firstBlock + 4) with hi₀ | hi₀
    · -- the wrong symbol reaches codeword `c` in one bit
      have hr3 : 3 ≤ blockRate p firstBlock := by omega
      rcases eq_or_eq_flip _ _ (blockRate p firstBlock + 4 - 1 - i₀)
        (fun b hb => hbits b (fun h1 h2 => hb (by omega))) with h | h
      · rw [h]
        exact hammingDecode_hammingEncode _ _ (hnib _) hr1 hr4
      · rw [h]
        exact hammingDecode_flip _ _ _ (hnib _) hr3 hr4 (by omega)
    · have h := Nat.eq_of_testBit_eq fun b => hbits b (fun h1 h2 => by omega)
      rw [h]
      exact hammingDecode_hammingEncode _ _ (hnib _) hr1 hr4

end Legal
