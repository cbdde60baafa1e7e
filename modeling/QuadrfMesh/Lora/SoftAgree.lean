/-
# Soft and hard decoding agree

`decodeFrameSoft` on given bit likelihoods, in place of those `symbolLlrs` computes of the
folded magnitudes.  Where the likelihoods speak for the Gray bits of a vector of raw values,
it decodes what `decodeFrame` decodes of them: as long as every codeword is a valid one,
and with likelihoods of one size also where the Hamming code of the block corrects the
codeword (`decodeFrameLlrs_agrees`).
-/
import QuadrfMesh.Lib.Correlation
import QuadrfMesh.Lora.Soft

open Correlation

/-! ## Given likelihoods -/

/-- `cw_llr` of a block, `llrs i` the likelihoods of its symbol `i`. -/
def scatterLlrs (llrs : ℕ → List ℚ) (sfApp cwLen : ℕ) : List (List ℚ) :=
  (List.range cwLen).foldl (fun out i =>
    (List.range sfApp).foldl (fun out j =>
      out.modify (diag sfApp i j) fun w => w.set i ((llrs i).getD j 0)) out)
    (List.replicate 16 (List.replicate 8 0))

/-- One pass of the block loop. -/
def decodeBlockLlrs (p : LoraParams) (llrs : ℕ → Bool → List ℚ) (firstBlock : Bool)
    (crApp symIdx : ℕ) : List (ℕ × ℚ) :=
  let reduced := firstBlock || p.ldro
  let sfApp := sfAppOf p firstBlock
  let cwLlr := scatterLlrs (fun i => llrs (symIdx + i) reduced) sfApp (u8 (crApp + 4))
  (List.range sfApp).map fun c => SoftMath.hammingDecodeSoft (cwLlr.getD c []) crApp

/-- The block loop of `decodeFrameSoft` on `nSyms` symbols, on `fuel` passes at most. -/
def decodeLoopLlrs (p : LoraParams) (llrs : ℕ → Bool → List ℚ) (nSyms : ℕ) :
    ℕ → SoftMath.LoopState → SoftMath.LoopState
  | 0, st => st
  | fuel + 1, st =>
      if st.nibbles.length < st.nibblesNeeded ∧ st.symIdx < nSyms then
        let crApp := if st.firstBlock then 4 else st.header.cr
        let cwLen := u8 (crApp + 4)
        if st.symIdx + cwLen > nSyms then st
        else
          let nibbles := st.nibbles ++ decodeBlockLlrs p llrs st.firstBlock crApp st.symIdx
          let st' := { st with nibbles, symIdx := st.symIdx + cwLen }
          if st.firstBlock then
            let header := parseHeader (nibbles.map Prod.fst)
            if !header.valid then { st' with header }
            else decodeLoopLlrs p llrs nSyms fuel
              { st' with header, nibblesNeeded := nibblesNeeded header, firstBlock := false }
          else decodeLoopLlrs p llrs nSyms fuel st'
      else st

/-- `decodeFrameSoft` on given likelihoods. -/
def decodeFrameLlrs (p : LoraParams) (llrs : ℕ → Bool → List ℚ) (nSyms : ℕ) : DecodeResult :=
  let st := decodeLoopLlrs p llrs nSyms (nSyms + 1) { nibblesNeeded := p.spreadingFactor - 2 }
  let result : DecodeResult := { header := st.header, symbolsConsumed := st.symIdx }
  if st.header.valid && decide (st.nibblesNeeded ≤ st.nibbles.length) then
    let d := finishPayload (st.nibbles.map Prod.fst) result
    if st.header.hasCrc && decide (2 ≤ st.header.payloadLen) then
      { d with
        tailMargin := SoftMath.tailMargin (st.nibbles.map Prod.snd) st.header.payloadLen }
    else d
  else result

namespace SoftMath

/-- The likelihoods of folded magnitudes. -/
def rowLlrs (m : SoftMath) (p : LoraParams) (rows : List (List ℚ)) (shift : ℤ) (s : ℕ)
    (reduced : Bool) : List ℚ :=
  let scale := m.estimateSoftScale rows (chipCount p)
  m.symbolLlrs (rows.getD s []) p.spreadingFactor reduced scale.1 scale.2 shift

/-- **`decodeFrameSoft`** is that on the likelihoods of its rows. -/
theorem decodeFrameSoft_eq (m : SoftMath) (p : LoraParams) (rows : List (List ℚ)) (shift : ℤ) :
    m.decodeFrameSoft p rows shift = decodeFrameLlrs p (m.rowLlrs p rows shift) rows.length := by
  have hloop : ∀ fuel st, m.decodeLoop p rows shift fuel st
      = decodeLoopLlrs p (m.rowLlrs p rows shift) rows.length fuel st := by
    intro fuel
    induction fuel with
    | zero => exact fun _ => rfl
    | succ fuel ih =>
        intro st
        have hblock : ∀ crApp, m.decodeBlock p rows shift st.firstBlock crApp st.symIdx
            = decodeBlockLlrs p (m.rowLlrs p rows shift) st.firstBlock crApp st.symIdx :=
          fun _ => rfl
        rw [decodeLoop, decodeLoopLlrs]
        simp only [hblock, ih]
  unfold decodeFrameSoft decodeFrameLlrs
  rw [hloop]

end SoftMath

/-! ## Codewords -/

/-- The bits of a codeword, in the order they are sent. -/
def codewordBits (crApp w : ℕ) : Fin (crApp + 4) → Bool := fun i => w.testBit (crApp + 4 - 1 - i)

/-- A codeword that some nibble has. -/
def ValidCodeword (crApp w : ℕ) : Prop := ∃ nib < 16, w = hammingEncode nib crApp

/-- A codeword with at most one wrong bit. -/
def OneWrongBit (crApp w : ℕ) : Prop :=
  ∃ nib < 16, hammingDist (codewordBits crApp (hammingEncode nib crApp)) (codewordBits crApp w) ≤ 1

instance (crApp w : ℕ) : Decidable (ValidCodeword crApp w) :=
  inferInstanceAs (Decidable (∃ nib < 16, _))

instance (crApp w : ℕ) : Decidable (OneWrongBit crApp w) :=
  inferInstanceAs (Decidable (∃ nib < 16, _))

/-- Codewords of different nibbles differ. -/
theorem codewordBits_ne {crApp : ℕ} (h1 : 1 ≤ crApp) (h4 : crApp ≤ 4) {n m : ℕ} (hn : n < 16)
    (hm : m < 16) (hne : n ≠ m) :
    codewordBits crApp (hammingEncode n crApp) ≠ codewordBits crApp (hammingEncode m crApp) := by
  have hall : ∀ r < 4, ∀ n < 16, ∀ m < 16, n ≠ m → 0 < hammingDist
      (codewordBits (r + 1) (hammingEncode n (r + 1)))
      (codewordBits (r + 1) (hammingEncode m (r + 1))) := by
    decide +kernel
  obtain ⟨r, rfl⟩ : ∃ r, crApp = r + 1 := ⟨crApp - 1, by omega⟩
  exact hammingDist_pos.mp (hall r (by omega) n hn m hm hne)

/-- At coding rates 3 and 4 they differ in three bits. -/
theorem three_le_hammingDist {crApp : ℕ} (h3 : 3 ≤ crApp) (h4 : crApp ≤ 4) {n m : ℕ} (hn : n < 16)
    (hm : m < 16) (hne : n ≠ m) :
    3 ≤ hammingDist (codewordBits crApp (hammingEncode n crApp))
      (codewordBits crApp (hammingEncode m crApp)) := by
  have hall : ∀ r < 2, ∀ n < 16, ∀ m < 16, n ≠ m → 3 ≤ hammingDist
      (codewordBits (r + 3) (hammingEncode n (r + 3)))
      (codewordBits (r + 3) (hammingEncode m (r + 3))) := by
    decide +kernel
  obtain ⟨r, rfl⟩ : ∃ r, crApp = r + 3 := ⟨crApp - 3, by omega⟩
  exact hall r (by omega) n hn m hm hne

/-- `hammingDecode` on a codeword with at most one wrong bit. -/
theorem hammingDecode_of_near {crApp nib w : ℕ} (h3 : 3 ≤ crApp) (h4 : crApp ≤ 4) (hnib : nib < 16)
    (hw : w < 2 ^ (crApp + 4))
    (hnear : hammingDist (codewordBits crApp (hammingEncode nib crApp)) (codewordBits crApp w) ≤ 1) :
    hammingDecode w crApp = nib := by
  have hlt := hammingEncode_lt nib crApp (by omega) h4
  -- outside one position the codewords agree
  obtain ⟨k, hk⟩ : ∃ k : Fin (crApp + 4), ∀ i, i ≠ k →
      codewordBits crApp (hammingEncode nib crApp) i = codewordBits crApp w i := by
    by_cases hall : codewordBits crApp (hammingEncode nib crApp) = codewordBits crApp w
    · exact ⟨0, fun i _ => congrFun hall i⟩
    · obtain ⟨k, hk⟩ := Function.ne_iff.mp hall
      refine ⟨k, ?_⟩
      intro i hik
      by_contra hne
      have hone := Finset.card_le_one.mp hnear i (by simpa using hne) k (by simpa using hk)
      exact hik hone
  have hbits : ∀ b, b ≠ crApp + 4 - 1 - k.val → w.testBit b = (hammingEncode nib crApp).testBit b := by
    intro b hb
    rcases Nat.lt_or_ge b (crApp + 4) with hlt' | hge
    · have hi := hk ⟨crApp + 4 - 1 - b, by omega⟩ (by
        intro heq
        have hval := congrArg Fin.val heq
        simp only at hval
        omega)
      have hback : crApp + 4 - 1 - (crApp + 4 - 1 - b) = b := by omega
      simp only [codewordBits, hback] at hi
      exact hi.symm
    · have hpow : 2 ^ (crApp + 4) ≤ 2 ^ b := Nat.pow_le_pow_right (by norm_num) hge
      rw [Nat.testBit_lt_two_pow (by omega), Nat.testBit_lt_two_pow (by omega)]
  rcases eq_or_eq_flip _ _ _ hbits with h | h
  · rw [h]
    exact hammingDecode_hammingEncode nib crApp hnib (by omega) h4
  · rw [h]
    exact hammingDecode_flip nib crApp _ hnib h3 h4 (by omega)

/-! ## The likeliest nibble -/

/-- The score of a nibble in `hammingDecodeSoft`. -/
def nibbleScore (llr : List ℚ) (crApp nib : ℕ) : ℚ :=
  (((List.range (u8 (crApp + 4))).filter fun i =>
    (hammingEncode nib crApp).testBit (u8 (crApp + 4) - 1 - i)).map fun i => llr.getD i 0).sum

/-- The weights of the positions of a codeword. -/
def codewordWeights (llr : List ℚ) (crApp : ℕ) : Fin (crApp + 4) → ℚ := fun i => llr.getD i 0

theorem nibbleScore_eq {crApp : ℕ} (h4 : crApp ≤ 4) (llr : List ℚ) (nib : ℕ) :
    nibbleScore llr crApp nib
      = score (codewordWeights llr crApp) (codewordBits crApp (hammingEncode nib crApp)) := by
  have hu8 : u8 (crApp + 4) = crApp + 4 := Nat.mod_eq_of_lt (by omega)
  have hsum : ∀ (n : ℕ) (q : ℕ → Bool) (f : ℕ → ℚ),
      (((List.range n).filter q).map f).sum = ∑ i ∈ Finset.range n, if q i then f i else 0 := by
    intro n q f
    induction n with
    | zero => rfl
    | succ n ih =>
        rw [List.range_succ, List.filter_append, List.map_append, List.sum_append, ih,
          Finset.sum_range_succ, List.filter_singleton]
        cases q n <;> simp
  rw [nibbleScore, hu8, hsum, Finset.sum_range]
  rfl

/-- One turn of the loop in `hammingDecodeSoft`. -/
def tryNibble (score : ℕ → ℚ) (r : SoftMath.BestNibble) (nib : ℕ) : SoftMath.BestNibble :=
  if r.bestScore < score nib then
    { best := nib, bestScore := score nib, secondScore := r.bestScore }
  else if r.secondScore < score nib then { r with secondScore := score nib }
  else r

theorem hammingDecodeSoft_fst (llr : List ℚ) (crApp : ℕ) :
    (SoftMath.hammingDecodeSoft llr crApp).1
      = ((List.range 16).foldl (tryNibble (nibbleScore llr crApp)) {}).best := by
  have hstep : (fun (r : SoftMath.BestNibble) nib =>
      let s := nibbleScore llr crApp nib
      if r.bestScore < s then { best := nib, bestScore := s, secondScore := r.bestScore }
      else if r.secondScore < s then { r with secondScore := s }
      else r) = tryNibble (nibbleScore llr crApp) := by
    funext r nib
    rfl
  rw [← hstep]
  unfold SoftMath.hammingDecodeSoft nibbleScore
  dsimp only

/-- The loop ends on a nibble that beats every other. -/
theorem foldl_tryNibble {score : ℕ → ℚ} {nib : ℕ} (hpos : 0 ≤ score nib)
    (hbest : ∀ n < 16, n ≠ nib → score n < score nib) (n : ℕ) (hn : n ≤ 16) :
    let r := (List.range n).foldl (tryNibble score) {}
    if nib < n then r.best = nib ∧ r.bestScore = score nib else r.bestScore < score nib := by
  induction n with
  | zero =>
      have hinit : (-10 ^ 300 : ℚ) < 0 := neg_lt_zero.mpr (pow_pos (by norm_num) 300)
      exact lt_of_lt_of_le hinit hpos
  | succ n ih =>
      have ih := ih (by omega)
      simp only [List.range_succ, List.foldl_append, List.foldl_cons, List.foldl_nil] at ih ⊢
      generalize (List.range n).foldl _ _ = r at ih ⊢
      unfold tryNibble
      rcases Nat.lt_trichotomy nib n with hlt | rfl | hgt
      · -- no later nibble displaces it
        obtain ⟨hnibr, hscore⟩ := (if_pos hlt).mp ih
        have hle : ¬ r.bestScore < score n := by
          rw [hscore]
          exact not_lt.mpr (hbest n (by omega) (by omega)).le
        rw [if_pos (by omega), if_neg hle]
        split <;> exact ⟨hnibr, hscore⟩
      · rw [if_neg (lt_irrefl nib)] at ih
        rw [if_pos (Nat.lt_succ_self nib), if_pos ih]
        exact ⟨rfl, rfl⟩
      · rw [if_neg (by omega)] at ih ⊢
        split
        · exact hbest n (by omega) (by omega)
        · split <;> exact ih

theorem hammingDecodeSoft_eq {llr : List ℚ} {crApp nib : ℕ} (hnib : nib < 16)
    (hpos : 0 ≤ nibbleScore llr crApp nib)
    (hbest : ∀ n < 16, n ≠ nib → nibbleScore llr crApp n < nibbleScore llr crApp nib) :
    (SoftMath.hammingDecodeSoft llr crApp).1 = nib := by
  have h := foldl_tryNibble hpos hbest 16 le_rfl
  rw [hammingDecodeSoft_fst]
  simp only [if_pos hnib] at h
  exact h.1

theorem nibbleScore_zero (llr : List ℚ) (crApp : ℕ) : nibbleScore llr crApp 0 = 0 := by
  have henc : hammingEncode 0 crApp = 0 := by
    unfold hammingEncode
    split <;> simp
  simp [nibbleScore, henc]

/-- A nibble that beats every other also beats the start of the loop. -/
theorem hammingDecodeSoft_of_best {llr : List ℚ} {crApp nib : ℕ} (hnib : nib < 16)
    (hbest : ∀ n < 16, n ≠ nib → nibbleScore llr crApp n < nibbleScore llr crApp nib) :
    (SoftMath.hammingDecodeSoft llr crApp).1 = nib := by
  refine hammingDecodeSoft_eq hnib ?_ hbest
  rcases Nat.eq_zero_or_pos nib with rfl | hpos
  · exact (nibbleScore_zero llr crApp).ge
  · have hzero := hbest 0 (by omega) (by omega)
    rw [nibbleScore_zero] at hzero
    exact hzero.le

section OneCodeword

variable {crApp nib w : ℕ} (h1 : 1 ≤ crApp) (h4 : crApp ≤ 4) (hnib : nib < 16) {llr : List ℚ}
include h4 hnib

include h1 in
/-- **A valid codeword.** -/
theorem hammingDecodeSoft_of_favours
    (h : Favours (codewordWeights llr crApp) (codewordBits crApp (hammingEncode nib crApp))) :
    (SoftMath.hammingDecodeSoft llr crApp).1 = nib := by
  refine hammingDecodeSoft_of_best hnib ?_
  intro n hn hne
  rw [nibbleScore_eq h4, nibbleScore_eq h4]
  exact score_lt_of_favours h (codewordBits_ne h1 h4 hn hnib hne)

/-- **A codeword with one wrong bit**, on likelihoods of one size. -/
theorem hammingDecodeSoft_of_near (h3 : 3 ≤ crApp) {a : ℚ} (ha : 0 < a)
    (h : ∀ i, codewordWeights llr crApp i = if codewordBits crApp w i then a else -a)
    (hnear : hammingDist (codewordBits crApp (hammingEncode nib crApp)) (codewordBits crApp w) ≤ 1) :
    (SoftMath.hammingDecodeSoft llr crApp).1 = nib := by
  refine hammingDecodeSoft_of_best hnib ?_
  intro n hn hne
  have hfar := three_le_hammingDist h3 h4 hn hnib hne
  rw [nibbleScore_eq h4, nibbleScore_eq h4]
  exact score_lt_of_near ha h (by omega)

end OneCodeword

/-! ## One block -/

/-- Entry `i` of codeword `c` is the likelihood of the diagonal bit of symbol `i`. -/
theorem getD_scatterLlrs (llrs : ℕ → List ℚ) {sfApp cwLen c i : ℕ} (hc : c < sfApp)
    (happ : sfApp ≤ 16) (hcw : cwLen ≤ 8) (hi : i < cwLen) :
    ((scatterLlrs llrs sfApp cwLen).getD c []).getD i 0 = (llrs i).getD (diag sfApp i c) 0 := by
  have hfold : ∀ n ≤ cwLen,
      let res := (List.range n).foldl (fun out i =>
        (List.range sfApp).foldl (fun out j =>
          out.modify (diag sfApp i j) fun w => w.set i ((llrs i).getD j 0)) out)
        (List.replicate 16 (List.replicate 8 (0 : ℚ)))
      res.length = 16 ∧ (res.getD c []).length = 8 ∧
        ∀ i < n, (res.getD c []).getD i 0 = (llrs i).getD (diag sfApp i c) 0 := by
    intro n hn
    induction n with
    | zero =>
        refine ⟨rfl, ?_, fun i hi => absurd hi (Nat.not_lt_zero i)⟩
        show ((List.replicate 16 (List.replicate 8 (0 : ℚ))).getD c []).length = 8
        rw [List.getD_replicate _ (by omega), List.length_replicate]
    | succ n ih =>
        obtain ⟨hlen, hrow, hget⟩ := ih (by omega)
        simp only [List.range_succ, List.foldl_append, List.foldl_cons, List.foldl_nil]
          at hlen hrow hget ⊢
        have hsym := getD_foldl_modify_diag (fun j (w : List ℚ) => w.set n ((llrs n).getD j 0)) []
          (i := n) hc (by rw [hlen]; exact happ) sfApp le_rfl
        rw [if_pos (diag_lt sfApp n c (by omega)), hlen] at hsym
        obtain ⟨hlen', hentry⟩ := hsym
        refine ⟨hlen', ?_, ?_⟩
        · rw [hentry, List.length_set, hrow]
        · intro i hi
          rw [hentry]
          -- symbol `n` sets position `n` and no other
          rcases Nat.lt_succ_iff_lt_or_eq.mp hi with hlt | rfl
          · rw [List.getD_eq_getElem?_getD, List.getElem?_set_ne (by omega),
              ← List.getD_eq_getElem?_getD]
            exact hget i hlt
          · rw [List.getD_eq_getElem?_getD, List.getElem?_set_self (by rw [hrow]; omega)]
            rfl
  exact (hfold cwLen le_rfl).2.2 i hi

/-- The codewords `decodeFrame` reads off a block. -/
def codewordsOf (p : LoraParams) (firstBlock : Bool) (crApp : ℕ) (block : List UInt16) : List ℕ :=
  deinterleaveBlock (block.map fun raw =>
    UInt16.ofNat (wordOf p (firstBlock || p.ldro) raw.toNat)) (sfAppOf p firstBlock) (u8 (crApp + 4))

theorem decodeBlock_eq (p : LoraParams) (firstBlock : Bool) (crApp : ℕ) (block : List UInt16) :
    decodeBlock p firstBlock crApp block
      = (codewordsOf p firstBlock crApp block).map fun w => hammingDecode w crApp := rfl

/-- A codeword has no more bits than its length. -/
theorem codewordsOf_lt {p : LoraParams} {firstBlock : Bool} {crApp c : ℕ} (h4 : crApp ≤ 4)
    (block : List UInt16) (hc : c < sfAppOf p firstBlock) :
    (codewordsOf p firstBlock crApp block).getD c 0 < 2 ^ (crApp + 4) := by
  have hu8 : u8 (crApp + 4) = crApp + 4 := Nat.mod_eq_of_lt (by omega)
  refine Nat.lt_pow_two_of_testBit _ ?_
  intro b hb
  have hge : ¬ b < crApp + 4 := not_lt.mpr hb
  rw [codewordsOf, hu8, testBit_deinterleaveBlock _ _ _ _ _ hc (by omega), decide_eq_false hge,
    Bool.false_and]

/-- Likelihoods that speak for the Gray bits of the raw values: positive for a one and
negative for a zero. -/
def SpeakFor (p : LoraParams) (raw : List UInt16) (llrs : ℕ → Bool → List ℚ) : Prop :=
  ∀ s < raw.length, ∀ j < sfAppOf p (decide (s < 8)),
    if (wordOf p (decide (s < 8) || p.ldro) (raw.getD s 0).toNat).testBit
        (sfAppOf p (decide (s < 8)) - 1 - j) then
      0 < (llrs s (decide (s < 8) || p.ldro)).getD j 0
    else (llrs s (decide (s < 8) || p.ldro)).getD j 0 < 0

/-- Likelihoods of one size. -/
def OfSize (p : LoraParams) (raw : List UInt16) (llrs : ℕ → Bool → List ℚ) (a : ℚ) : Prop :=
  ∀ s < raw.length, ∀ j < sfAppOf p (decide (s < 8)),
    |(llrs s (decide (s < 8) || p.ldro)).getD j 0| = a

theorem grayEncode_lt {v k : ℕ} (hv : v < 2 ^ k) : grayEncode v < 2 ^ k := by
  refine Nat.xor_lt_two_pow hv ?_
  rw [Nat.shiftRight_eq_div_pow]
  exact lt_of_le_of_lt (Nat.div_le_self _ _) hv

theorem wordOf_lt (p : LoraParams) (reduced : Bool) (raw : ℕ) :
    wordOf p reduced raw < 2 ^ p.spreadingFactor := by
  refine grayEncode_lt ?_
  rw [← chipCount_eq]
  split
  · rw [reducedValue, Nat.shiftRight_eq_div_pow]
    exact lt_of_le_of_lt (Nat.div_le_self _ _) (Nat.mod_lt _ (chipCount_pos p))
  · exact Nat.mod_lt _ (chipCount_pos p)

section Block

variable {p : LoraParams} (hsf : 7 ≤ p.spreadingFactor ∧ p.spreadingFactor ≤ 12)
  {raw : List UInt16} {llrs : ℕ → Bool → List ℚ} {firstBlock : Bool} {crApp a : ℕ}
  (h4 : crApp ≤ 4) (hfit : a + (crApp + 4) ≤ raw.length)
include hsf h4 hfit

/-- The bits of codeword `c` of the block at symbol `a`. -/
theorem codewordBits_codewordsOf {c : ℕ} (hc : c < sfAppOf p firstBlock) (i : Fin (crApp + 4)) :
    codewordBits crApp
        ((codewordsOf p firstBlock crApp ((raw.drop a).take (crApp + 4))).getD c 0) i
      = (wordOf p (firstBlock || p.ldro) (raw.getD (a + i) 0).toNat).testBit
          (sfAppOf p firstBlock - 1 - diag (sfAppOf p firstBlock) i c) := by
  have hu8 : u8 (crApp + 4) = crApp + 4 := Nat.mod_eq_of_lt (by omega)
  have hpow : 2 ^ p.spreadingFactor ≤ 2 ^ 12 := Nat.pow_le_pow_right (by norm_num) hsf.2
  have hword := wordOf_lt p (firstBlock || p.ldro) (raw.getD (a + i) 0).toNat
  have hi := i.isLt
  have hlt : crApp + 4 - 1 - i < crApp + 4 := by omega
  have hback : crApp + 4 - 1 - (crApp + 4 - 1 - i) = i := by omega
  have hlen : ((raw.drop a).take (crApp + 4)).length = crApp + 4 := by
    rw [List.length_take, List.length_drop]
    omega
  rw [codewordBits, codewordsOf, hu8, testBit_deinterleaveBlock _ _ _ _ _ hc (by omega),
    decide_eq_true hlt, Bool.true_and, hback]
  have hget : (((raw.drop a).take (crApp + 4)).map fun raw =>
      UInt16.ofNat (wordOf p (firstBlock || p.ldro) raw.toNat)).getD i 0
      = UInt16.ofNat (wordOf p (firstBlock || p.ldro) (raw.getD (a + i) 0).toNat) := by
    rw [← Chunks.getD_drop_take raw a (crApp + 4) i 0 hi,
      List.getD_eq_getElem _ _ (by rw [List.length_map, hlen]; exact hi), List.getElem_map,
      List.getD_eq_getElem _ _ (by rw [hlen]; exact hi)]
  rw [hget, UInt16.toNat_ofNat', Nat.mod_eq_of_lt (by omega)]

omit hsf hfit in
/-- The weights of codeword `c`. -/
theorem codewordWeights_scatterLlrs (hsf : p.spreadingFactor ≤ 12) {c : ℕ}
    (hc : c < sfAppOf p firstBlock) (sym : ℕ → List ℚ) (i : Fin (crApp + 4)) :
    codewordWeights ((scatterLlrs sym (sfAppOf p firstBlock) (u8 (crApp + 4))).getD c []) crApp i
      = (sym i).getD (diag (sfAppOf p firstBlock) i c) 0 := by
  have hu8 : u8 (crApp + 4) = crApp + 4 := Nat.mod_eq_of_lt (by omega)
  have happ : sfAppOf p firstBlock ≤ 16 := by
    unfold sfAppOf
    split <;> omega
  rw [codewordWeights, hu8]
  exact getD_scatterLlrs sym hc happ (by omega) i.isLt

section Speak

variable (hwhich : ∀ i < crApp + 4, decide (a + i < 8) = firstBlock)
  (hspeak : SpeakFor p raw llrs)
include hwhich hspeak

/-- The weights of a codeword speak for its bits. -/
theorem favours_codewordsOf {c : ℕ} (hc : c < sfAppOf p firstBlock) :
    Favours (codewordWeights ((scatterLlrs (fun i => llrs (a + i) (firstBlock || p.ldro))
        (sfAppOf p firstBlock) (u8 (crApp + 4))).getD c []) crApp)
      (codewordBits crApp
        ((codewordsOf p firstBlock crApp ((raw.drop a).take (crApp + 4))).getD c 0)) := by
  intro i
  have hi := i.isLt
  have hbit := hspeak (a + i) (by omega)
  rw [hwhich i hi] at hbit
  rw [codewordWeights_scatterLlrs h4 hsf.2 hc, codewordBits_codewordsOf hsf h4 hfit hc]
  exact hbit _ (diag_lt _ _ _ (by omega))

/-- Weights of one size are that size for a one and its negative for a zero. -/
theorem weights_codewordsOf {size : ℚ} (hsize : OfSize p raw llrs size) {c : ℕ}
    (hc : c < sfAppOf p firstBlock) (i : Fin (crApp + 4)) :
    0 < size ∧ codewordWeights ((scatterLlrs (fun i => llrs (a + i) (firstBlock || p.ldro))
        (sfAppOf p firstBlock) (u8 (crApp + 4))).getD c []) crApp i
      = if codewordBits crApp
            ((codewordsOf p firstBlock crApp ((raw.drop a).take (crApp + 4))).getD c 0) i then size
        else -size := by
  have hi := i.isLt
  have hfav := favours_codewordsOf hsf h4 hfit hwhich hspeak hc i
  have habs := hsize (a + i) (by omega)
  rw [hwhich i hi] at habs
  have habs' := habs _ (diag_lt (sfAppOf p firstBlock) i c (by omega))
  rw [← codewordWeights_scatterLlrs h4 hsf.2 hc (fun i => llrs (a + i) (firstBlock || p.ldro)) i]
    at habs'
  split_ifs at hfav ⊢
  · rw [abs_of_pos hfav] at habs'
    exact ⟨habs' ▸ hfav, habs'⟩
  · rw [abs_of_neg hfav] at habs'
    exact ⟨by linarith, by linarith⟩

/-- **One block** is decoded alike. -/
theorem decodeBlockLlrs_eq (h1 : 1 ≤ crApp)
    (hok : (∀ w ∈ codewordsOf p firstBlock crApp ((raw.drop a).take (crApp + 4)),
        ValidCodeword crApp w) ∨
      (3 ≤ crApp ∧ (∃ size, OfSize p raw llrs size) ∧
        ∀ w ∈ codewordsOf p firstBlock crApp ((raw.drop a).take (crApp + 4)),
          OneWrongBit crApp w)) :
    (decodeBlockLlrs p llrs firstBlock crApp a).map Prod.fst
      = decodeBlock p firstBlock crApp ((raw.drop a).take (crApp + 4)) := by
  have hu8 : u8 (crApp + 4) = crApp + 4 := Nat.mod_eq_of_lt (by omega)
  have happ : 0 < sfAppOf p firstBlock := by
    unfold sfAppOf
    split <;> omega
  have hlen : (codewordsOf p firstBlock crApp ((raw.drop a).take (crApp + 4))).length
      = sfAppOf p firstBlock :=
    length_deinterleaveBlock _ _ _ happ (by omega)
  rw [decodeBlock_eq]
  apply List.ext_getElem
  · rw [List.length_map, List.length_map, hlen, decodeBlockLlrs]
    simp
  · intro c hc hc'
    rw [List.length_map, hlen] at hc'
    have hwget := List.getD_eq_getElem
      (codewordsOf p firstBlock crApp ((raw.drop a).take (crApp + 4))) 0 (by rw [hlen]; exact hc')
    have hmem : (codewordsOf p firstBlock crApp ((raw.drop a).take (crApp + 4))).getD c 0
        ∈ codewordsOf p firstBlock crApp ((raw.drop a).take (crApp + 4)) := by
      rw [hwget]
      exact List.getElem_mem _
    simp only [decodeBlockLlrs, List.getElem_map, List.getElem_range]
    rw [← hwget]
    rcases hok with hvalid | ⟨h3, ⟨size, hsize⟩, hnear⟩
    · obtain ⟨nib, hnib, hw⟩ := hvalid _ hmem
      have hfav := favours_codewordsOf hsf h4 hfit hwhich hspeak hc'
      rw [hw] at hfav ⊢
      rw [hammingDecodeSoft_of_favours h1 h4 hnib hfav, hammingDecode_hammingEncode nib crApp hnib h1 h4]
    · obtain ⟨nib, hnib, hdist⟩ := hnear _ hmem
      have hweights := weights_codewordsOf hsf h4 hfit hwhich hspeak hsize hc'
      rw [hammingDecodeSoft_of_near h4 hnib h3 (hweights ⟨0, by omega⟩).1
          (fun i => (hweights i).2) hdist,
        hammingDecode_of_near h3 h4 hnib (codewordsOf_lt h4 _ hc') hdist]

end Speak

end Block

/-! ## The whole frame -/

/-- `ok` holds of every codeword of every block `decodeFrame` decodes, with the coding rate
of its block. -/
structure Codewords (p : LoraParams) (raw : List UInt16) (ok : ℕ → ℕ → Prop) : Prop where
  header : 8 ≤ raw.length → ∀ w ∈ codewordsOf p true 4 (raw.take 8), ok 4 w
  data : ∀ h, (decodeFrame p raw).header = h → h.valid = true → ∀ k < headerBlocks p h,
    8 + (k + 1) * (h.cr + 4) ≤ raw.length → ∀ w ∈ codewordsOf p false h.cr (dataBlock h.cr raw k),
      ok h.cr w

/-- Two results that differ in the tail margin at most. -/
structure DecodeResult.Agrees (d d' : DecodeResult) : Prop where
  header : d.header = d'.header
  payload : d.payload = d'.payload
  crcOk : d.crcOk = d'.crcOk
  crcExpected : d.crcExpected = d'.crcExpected
  crcReceived : d.crcReceived = d'.crcReceived
  symbolsConsumed : d.symbolsConsumed = d'.symbolsConsumed

/-- Loop states alike but for the margins. -/
structure SameLoop (soft : SoftMath.LoopState) (hard : DecodeState) : Prop where
  nibbles : soft.nibbles.map Prod.fst = hard.nibbles
  symIdx : soft.symIdx = hard.symIdx
  firstBlock : soft.firstBlock = hard.firstBlock
  nibblesNeeded : soft.nibblesNeeded = hard.nibblesNeeded
  header : soft.header = hard.header

section Frame

variable {p : LoraParams} (hsf : 7 ≤ p.spreadingFactor ∧ p.spreadingFactor ≤ 12)
  {raw : List UInt16} {llrs : ℕ → Bool → List ℚ}

/-- Every block is decoded alike. -/
structure BlocksAgree (p : LoraParams) (raw : List UInt16) (llrs : ℕ → Bool → List ℚ) : Prop where
  header : 8 ≤ raw.length →
    (decodeBlockLlrs p llrs true 4 0).map Prod.fst = decodeBlock p true 4 (raw.take 8)
  data : ∀ h, (decodeFrame p raw).header = h → h.valid = true → ∀ k < headerBlocks p h,
    8 + (k + 1) * (h.cr + 4) ≤ raw.length →
      (decodeBlockLlrs p llrs false h.cr (8 + k * (h.cr + 4))).map Prod.fst
        = decodeBlock p false h.cr (dataBlock h.cr raw k)

include hsf

/-- The blocks read with nibbles still missing are among those the header asks for. -/
theorem lt_headerBlocks {h : HeaderInfo} {k : ℕ}
    (hmore : p.spreadingFactor - 2 + k * sfAppOf p false < nibblesNeeded h) :
    k < headerBlocks p h := by
  have happ : 0 < sfAppOf p false := by
    unfold sfAppOf
    split <;> omega
  have hneed := (dataBlockCount_spec p (nibblesNeeded h) happ).1
  by_contra hge
  have hmul : dataBlockCount p (nibblesNeeded h) * sfAppOf p false ≤ k * sfAppOf p false :=
    Nat.mul_le_mul_right _ (not_lt.mp hge)
  omega

/-- Past the header block both loops take the same blocks. -/
theorem sameLoop_data {h : HeaderInfo} (hcr : h.cr ≤ 4)
    (hblock : ∀ k < headerBlocks p h, 8 + (k + 1) * (h.cr + 4) ≤ raw.length →
      (decodeBlockLlrs p llrs false h.cr (8 + k * (h.cr + 4))).map Prod.fst
        = decodeBlock p false h.cr (dataBlock h.cr raw k)) (fuel : ℕ) :
    ∀ k st, SameLoop st (dataState p raw h k) →
      SameLoop (decodeLoopLlrs p llrs raw.length fuel st)
        (decodeLoop p raw fuel (dataState p raw h k)) := by
  have hu8 : u8 (h.cr + 4) = h.cr + 4 := Nat.mod_eq_of_lt (by omega)
  have hsf3 : 3 ≤ p.spreadingFactor := by omega
  induction fuel with
  | zero => exact fun _ _ hst => hst
  | succ fuel ih =>
      intro k st hst
      have hlen := length_dataState_nibbles hsf3 raw h hcr k
      have hstlen : st.nibbles.length = p.spreadingFactor - 2 + k * sfAppOf p false := by
        rw [← hlen, ← hst.nibbles, List.length_map]
      have hfirst : st.firstBlock = false := hst.firstBlock
      have hheader : st.header = h := hst.header
      have hsym : st.symIdx = 8 + k * (h.cr + 4) := hst.symIdx
      have hneeded : st.nibblesNeeded = nibblesNeeded h := hst.nibblesNeeded
      have hnext : (k + 1) * (h.cr + 4) = k * (h.cr + 4) + (h.cr + 4) := by ring
      rcases Nat.lt_or_ge (p.spreadingFactor - 2 + k * sfAppOf p false) (nibblesNeeded h)
        with hmore | hdone
      · rcases Nat.lt_or_ge raw.length (8 + (k + 1) * (h.cr + 4)) with hshort | hfit
        · -- the next block is cut short
          rw [decodeLoop_dataState_stuck raw h hcr k _ hshort, decodeLoopLlrs]
          split
          · simp only [hfirst, hheader, hsym, Bool.false_eq_true, if_false, hu8]
            rw [if_pos (by omega)]
            exact hst
          · exact hst
        · have hnib := hblock k (lt_headerBlocks hsf hmore) hfit
          rw [decodeLoop_dataState_succ hsf3 raw h hcr k fuel hmore hfit, decodeLoopLlrs,
            if_pos ⟨by omega, by omega⟩]
          simp only [hfirst, hheader, hsym, Bool.false_eq_true, if_false, hu8]
          rw [if_neg (by omega)]
          refine ih (k + 1) _ ⟨?_, ?_, rfl, hneeded, rfl⟩
          · show (st.nibbles ++ _).map Prod.fst = _
            rw [List.map_append, hnib, hst.nibbles]
            simp only [dataState, dataNibbles, List.range_succ, List.flatMap_append,
              List.flatMap_cons, List.flatMap_nil, List.append_nil, List.append_assoc]
          · show 8 + k * (h.cr + 4) + (h.cr + 4) = 8 + (k + 1) * (h.cr + 4)
            omega
      · rw [decodeLoop_dataState_done hsf3 raw h hcr k _ hdone, decodeLoopLlrs, if_neg (by omega)]
        exact hst

/-- **The block loops** go alike. -/
theorem sameLoop_frame (hblocks : BlocksAgree p raw llrs) :
    SameLoop
      (decodeLoopLlrs p llrs raw.length (raw.length + 1) { nibblesNeeded := p.spreadingFactor - 2 })
      (decodeLoop p raw (raw.length + 1) { nibblesNeeded := p.spreadingFactor - 2 }) := by
  have hu8 : u8 (4 + 4) = 8 := by decide
  have hsf3 : 3 ≤ p.spreadingFactor := by omega
  rcases Nat.lt_or_ge raw.length 8 with hshort | hraw
  · -- not even a header block
    have hsoft : decodeLoopLlrs p llrs raw.length (raw.length + 1)
        { nibblesNeeded := p.spreadingFactor - 2 } = { nibblesNeeded := p.spreadingFactor - 2 } := by
      rw [decodeLoopLlrs]
      split
      · simp only [if_true]
        rw [hu8, if_pos (by omega)]
      · rfl
    rw [hsoft, decodeLoop_headerless p hshort]
    exact ⟨rfl, rfl, rfl, rfl, rfl⟩
  · have hnib := hblocks.header hraw
    have hheader := decodeFrame_header hsf3 raw hraw
    rw [decodeLoopLlrs, if_pos ⟨by simp; omega, by simp; omega⟩]
    simp only [if_true, hu8, List.nil_append, zero_add]
    rw [if_neg (by omega), hnib]
    cases hvalid : (parseHeader (decodeBlock p true 4 (raw.take 8))).valid with
    | false =>
        simp only [Bool.not_false, if_true]
        rw [decodeLoop, if_pos ⟨by simp; omega, by simp; omega⟩]
        simp only [if_true, hu8, List.nil_append, zero_add, List.drop_zero, hvalid, Bool.not_false]
        rw [if_neg (by omega)]
        exact ⟨hnib, rfl, rfl, rfl, rfl⟩
    | true =>
        have hcr := (parseHeader_cr_of_valid _ hvalid).2
        rw [decodeLoop_header hsf3 raw hraw raw.length hvalid]
        simp only [Bool.not_true, Bool.false_eq_true, if_false]
        refine sameLoop_data hsf hcr ?_ raw.length 0 _ ⟨?_, ?_, rfl, rfl, rfl⟩
        · exact fun k hk hfit => hblocks.data _ hheader hvalid k hk hfit
        · show (decodeBlockLlrs p llrs true 4 0).map Prod.fst = _
          rw [hnib]
          simp [dataState, dataNibbles]
        · simp [dataState]

omit hsf in
/-- From like loop states come like results. -/
theorem SameLoop.agrees
    (h : SameLoop
      (decodeLoopLlrs p llrs raw.length (raw.length + 1) { nibblesNeeded := p.spreadingFactor - 2 })
      (decodeLoop p raw (raw.length + 1) { nibblesNeeded := p.spreadingFactor - 2 })) :
    (decodeFrameLlrs p llrs raw.length).Agrees (decodeFrame p raw) := by
  unfold decodeFrameLlrs decodeFrame
  generalize decodeLoopLlrs p llrs raw.length (raw.length + 1) _ = soft at h ⊢
  generalize decodeLoop p raw (raw.length + 1) _ = hard at h ⊢
  have hlen : soft.nibbles.length = hard.nibbles.length := by
    rw [← h.nibbles, List.length_map]
  simp only [h.header, h.nibblesNeeded, h.symIdx, h.nibbles, hlen]
  split
  · split <;> exact ⟨rfl, rfl, rfl, rfl, rfl, rfl⟩
  · exact ⟨rfl, rfl, rfl, rfl, rfl, rfl⟩

/-- What the codewords of a block must be for both decoders to read the same nibbles. -/
theorem blocksAgree_of_codewords (hspeak : SpeakFor p raw llrs) {ok : ℕ → ℕ → Prop}
    (hok : ∀ crApp, (∀ w, ok crApp w → ValidCodeword crApp w) ∨
      (3 ≤ crApp ∧ (∃ size, OfSize p raw llrs size) ∧ ∀ w, ok crApp w → OneWrongBit crApp w))
    (hwords : Codewords p raw ok) : BlocksAgree p raw llrs := by
  have hblock : ∀ (firstBlock : Bool) {crApp a : ℕ}, 1 ≤ crApp → crApp ≤ 4 →
      a + (crApp + 4) ≤ raw.length → (∀ i < crApp + 4, decide (a + i < 8) = firstBlock) →
      (∀ w ∈ codewordsOf p firstBlock crApp ((raw.drop a).take (crApp + 4)), ok crApp w) →
      (decodeBlockLlrs p llrs firstBlock crApp a).map Prod.fst
        = decodeBlock p firstBlock crApp ((raw.drop a).take (crApp + 4)) := by
    intro firstBlock crApp a h1 h4 hfit hwhich hw
    refine decodeBlockLlrs_eq hsf h4 hfit hwhich hspeak h1 ?_
    rcases hok crApp with hvalid | ⟨h3, hsize, hnear⟩
    · exact Or.inl fun w hmem => hvalid w (hw w hmem)
    · exact Or.inr ⟨h3, hsize, fun w hmem => hnear w (hw w hmem)⟩
  constructor
  · intro hraw
    have hword := hwords.header hraw
    rw [← List.drop_zero (l := raw)] at hword
    have h := hblock true (a := 0) (by omega) (le_refl 4) (by omega)
      (fun i hi => decide_eq_true (by omega)) hword
    rwa [List.drop_zero] at h
  · intro h hh hvalid k hk hfit
    have hraw : 8 ≤ raw.length := by omega
    have hcr : 1 ≤ h.cr ∧ h.cr ≤ 4 := by
      rw [decodeFrame_header (by omega) raw hraw] at hh
      subst hh
      exact parseHeader_cr_of_valid _ hvalid
    rw [Nat.add_mul, one_mul] at hfit
    exact hblock false hcr.1 hcr.2 (by omega) (fun i _ => decide_eq_false (by omega))
      (hwords.data h hh hvalid k hk (by rw [Nat.add_mul, one_mul]; omega))

end Frame

/-- **Soft and hard decoding agree** on a vector of raw values of any length whose
likelihoods speak for its Gray bits, where every codeword of every decoded block is valid;
and with likelihoods of one size also where the codewords of the header block, and of the
data blocks at coding rates 3 and 4, have one wrong bit at most. -/
theorem decodeFrameLlrs_agrees {p : LoraParams}
    (hsf : 7 ≤ p.spreadingFactor ∧ p.spreadingFactor ≤ 12) {raw : List UInt16}
    {llrs : ℕ → Bool → List ℚ} (hspeak : SpeakFor p raw llrs) :
    (Codewords p raw ValidCodeword →
      (decodeFrameLlrs p llrs raw.length).Agrees (decodeFrame p raw)) ∧
    ∀ size, OfSize p raw llrs size →
      Codewords p raw (fun crApp w => if 3 ≤ crApp then OneWrongBit crApp w
        else ValidCodeword crApp w) →
      (decodeFrameLlrs p llrs raw.length).Agrees (decodeFrame p raw) := by
  constructor
  · intro hwords
    have hblocks := blocksAgree_of_codewords hsf hspeak
      (fun crApp => Or.inl fun w hw => hw) hwords
    exact (sameLoop_frame hsf hblocks).agrees
  · intro size hsize hwords
    have hblocks := blocksAgree_of_codewords hsf hspeak (fun crApp => ?_) hwords
    · exact (sameLoop_frame hsf hblocks).agrees
    · by_cases h3 : 3 ≤ crApp
      · exact Or.inr ⟨h3, ⟨size, hsize⟩, fun w hw => by rwa [if_pos h3] at hw⟩
      · exact Or.inl fun w hw => by rwa [if_neg h3] at hw

/-- Likelihoods of size one that speak for the Gray bits. -/
def unitLlrs (p : LoraParams) (raw : List UInt16) (s : ℕ) (reduced : Bool) : List ℚ :=
  (List.range (sfAppOf p (decide (s < 8)))).map fun j =>
    if (wordOf p reduced (raw.getD s 0).toNat).testBit (sfAppOf p (decide (s < 8)) - 1 - j) then 1
    else -1

theorem getD_unitLlrs (p : LoraParams) (raw : List UInt16) (s : ℕ) (reduced : Bool) {j : ℕ}
    (hj : j < sfAppOf p (decide (s < 8))) :
    (unitLlrs p raw s reduced).getD j 0
      = if (wordOf p reduced (raw.getD s 0).toNat).testBit
          (sfAppOf p (decide (s < 8)) - 1 - j) then 1 else -1 :=
  Chunks.getD_map_range _ _ _ _ hj

/-- A frame of one byte with a wrong symbol in its header block. -/
def wrongHeaderSymbol : List UInt16 := (encodeFrame { spreadingFactor := 7 } [0x42]).set 2 0x55

theorem decodeFrameLlrs_agrees_wrongHeaderSymbol :
    (decodeFrameLlrs { spreadingFactor := 7 } (unitLlrs { spreadingFactor := 7 } wrongHeaderSymbol)
        wrongHeaderSymbol.length).payload
      = (decodeFrame { spreadingFactor := 7 } wrongHeaderSymbol).payload := by
  have hspeak : SpeakFor { spreadingFactor := 7 } wrongHeaderSymbol
      (unitLlrs { spreadingFactor := 7 } wrongHeaderSymbol) := by
    intro s _ j hj
    rw [getD_unitLlrs _ _ _ _ hj]
    split <;> norm_num
  have hsize : OfSize { spreadingFactor := 7 } wrongHeaderSymbol
      (unitLlrs { spreadingFactor := 7 } wrongHeaderSymbol) 1 := by
    intro s _ j hj
    rw [getD_unitLlrs _ _ _ _ hj]
    split <;> norm_num
  refine ((decodeFrameLlrs_agrees (by decide) hspeak).2 1 hsize ⟨?_, ?_⟩).payload
  · intro _
    decide +kernel
  · rintro h rfl _ k hk _
    have hcr : (decodeFrame { spreadingFactor := 7 } wrongHeaderSymbol).header.cr = 1 := by
      decide +kernel
    have hblocks : headerBlocks { spreadingFactor := 7 }
        (decodeFrame { spreadingFactor := 7 } wrongHeaderSymbol).header = 1 := by
      decide +kernel
    rw [hblocks] at hk
    obtain rfl : k = 0 := by omega
    rw [hcr]
    decide +kernel
