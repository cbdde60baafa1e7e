/-
# Soft decoding (`src/lora/coding.cpp`)

`decodeFrameSoft` runs the block loop of `decodeFrame` on folded magnitudes, one row per
symbol: bit likelihoods of a symbol, a best codeword per nibble with its margin, and the
margin of the nibbles the payload CRC does not tell apart.  Square root, logarithm and
exponential are parameters.
-/
import QuadrfMesh.Lora.FrameCount

/-- The functions of `<cmath>` the likelihoods use. -/
structure SoftMath where
  sqrt : ℚ → ℚ
  log : ℚ → ℚ
  exp : ℚ → ℚ

namespace SoftMath

variable (m : SoftMath)

/-! ## Bit likelihoods -/

/-- `logBesselI0`. -/
def logBesselI0 (x : ℚ) : ℚ :=
  let ax := |x|
  if ax < 3.75 then
    let t := x / 3.75
    let t := t * t
    m.log (1 + t * (3.5156229 + t * (3.0899424 + t * (1.2067492 +
      t * (0.2659732 + t * (0.0360768 + t * 0.0045813))))))
  else
    let t := 3.75 / ax
    let poly := 0.39894228 +
      t * (0.01328592 +
        t * (0.00225319 +
          t * (-0.00157565 +
            t * (0.00916281 +
              t * (-0.02057706 + t * (0.02635537 + t * (-0.01647633 + t * 0.00392377)))))))
    ax - 1 / 2 * m.log ax + m.log poly

/-- The strongest bin of a row and its power; of equals the first. -/
def strongestBin (row : List ℚ) (nChips : ℕ) : ℕ × ℚ :=
  (List.range nChips).foldl (fun (best : ℕ × ℚ) k =>
    let p := row.getD k 0 * row.getD k 0
    if best.2 < p then (k, p) else best) (0, 0)

/-- `estimateSoftScale`: tone amplitude and noise power of the rows. -/
def estimateSoftScale (rows : List (List ℚ)) (nChips : ℕ) : ℚ × ℚ :=
  let noiseOf (row : List ℚ) : ℚ :=
    let pk := (strongestBin row nChips).1
    let tot := ((List.range nChips).map fun k => row.getD k 0 * row.getD k 0).sum
    let lobe := ((List.range 5).map fun d =>
      let v := row.getD ((pk + nChips + d - 2) % nChips) 0
      v * v).sum
    (tot - lobe) / (nChips - 5)
  if rows.length = 0 then (0, 0)
  else
    let noisePow := (rows.map noiseOf).sum / rows.length
    let sig := (rows.map fun row => (strongestBin row nChips).2).sum / rows.length - noisePow
    (m.sqrt (max sig (1 / 4 * noisePow)), noisePow)

/-- `symbolLlrs`: the log-likelihood ratio of every bit of a symbol, MSB first, the row
read `shift` chips over. -/
def symbolLlrs (row : List ℚ) (sf : ℕ) (reduced : Bool) (toneAmp noisePow : ℚ) (shift : ℤ) :
    List ℚ :=
  let n := 1 <<< sf
  let sfApp := if reduced then sf - 2 else sf
  let k := if 0 < noisePow then 2 * toneAmp / noisePow else 0
  let sh := (shift % (n : ℤ)).toNat
  let metric := (List.range n).map fun u => m.logBesselI0 (k * row.getD ((u + n - sh) % n) 0)
  let mmax := metric.foldl max (-10 ^ 300)
  let gray (u : ℕ) : ℕ := grayEncode (if reduced then reducedValue u n else (u + n - 1) % n)
  -- the values whose bit `j` is `b`
  let weight (j : ℕ) (b : Bool) : ℚ :=
    (((List.range n).filter fun u => (gray u).testBit (sfApp - 1 - j) == b).map fun u =>
      m.exp (metric.getD u 0 - mmax)).sum
  (List.range sfApp).map fun j =>
    let l := m.log (weight j true + 1 / 10 ^ 300) - m.log (weight j false + 1 / 10 ^ 300)
    max (-60) (min 60 l)

/-! ## Codewords -/

/-- The nibbles tried so far in `hammingDecodeSoft`. -/
structure BestNibble where
  best : ℕ := 0
  bestScore : ℚ := -10 ^ 300
  secondScore : ℚ := -10 ^ 300

/-- `hammingDecodeSoft`: the likeliest nibble, and by how much it is. -/
def hammingDecodeSoft (llr : List ℚ) (crApp : ℕ) : ℕ × ℚ :=
  let cwLen := u8 (crApp + 4)
  let score (nib : ℕ) : ℚ :=
    (((List.range cwLen).filter fun i => (hammingEncode nib crApp).testBit (cwLen - 1 - i)).map
      fun i => llr.getD i 0).sum
  let r := (List.range 16).foldl (fun (r : BestNibble) nib =>
    let s := score nib
    if r.bestScore < s then { best := nib, bestScore := s, secondScore := r.bestScore }
    else if r.secondScore < s then { r with secondScore := s }
    else r) {}
  (r.best, r.bestScore - r.secondScore)

/-- `cw_llr`: the likelihoods of the block at symbol `symIdx`, sorted into codewords. -/
def codewordLlrs (p : LoraParams) (rows : List (List ℚ)) (shift : ℤ) (reduced : Bool)
    (sfApp cwLen symIdx : ℕ) : List (List ℚ) :=
  let scale := m.estimateSoftScale rows (chipCount p)
  (List.range cwLen).foldl (fun out i =>
    let llr := m.symbolLlrs (rows.getD (symIdx + i) []) p.spreadingFactor reduced scale.1 scale.2
      shift
    (List.range sfApp).foldl (fun out j =>
      out.modify (diag sfApp i j) fun w => w.set i (llr.getD j 0)) out)
    (List.replicate 16 (List.replicate 8 0))

/-- One pass of the block loop: the nibbles of a block with their margins. -/
def decodeBlock (p : LoraParams) (rows : List (List ℚ)) (shift : ℤ) (firstBlock : Bool)
    (crApp symIdx : ℕ) : List (ℕ × ℚ) :=
  let reduced := firstBlock || p.ldro
  let sfApp := sfAppOf p firstBlock
  let cwLlr := m.codewordLlrs p rows shift reduced sfApp (u8 (crApp + 4)) symIdx
  (List.range sfApp).map fun c => hammingDecodeSoft (cwLlr.getD c []) crApp

/-! ## Frames -/

/-- Loop state of `decodeFrameSoft`: each nibble with its margin. -/
structure LoopState where
  nibbles : List (ℕ × ℚ) := []
  symIdx : ℕ := 0
  firstBlock : Bool := true
  nibblesNeeded : ℕ
  header : HeaderInfo := {}

/-- The block loop of `decodeFrameSoft`, on `fuel` passes at most. -/
def decodeLoop (p : LoraParams) (rows : List (List ℚ)) (shift : ℤ) : ℕ → LoopState → LoopState
  | 0, st => st
  | fuel + 1, st =>
      if st.nibbles.length < st.nibblesNeeded ∧ st.symIdx < rows.length then
        let crApp := if st.firstBlock then 4 else st.header.cr
        let cwLen := u8 (crApp + 4)
        if st.symIdx + cwLen > rows.length then st
        else
          let nibbles := st.nibbles ++ m.decodeBlock p rows shift st.firstBlock crApp st.symIdx
          let st' := { st with nibbles, symIdx := st.symIdx + cwLen }
          if st.firstBlock then
            let header := parseHeader (nibbles.map Prod.fst)
            if !header.valid then { st' with header }
            else decodeLoop p rows shift fuel
              { st' with header, nibblesNeeded := nibblesNeeded header, firstBlock := false }
          else decodeLoop p rows shift fuel st'
      else st

/-- The weakest pair of a tail nibble and its CRC partner: a flip in both goes through
the CRC. -/
def tailMargin (margins : List ℚ) (len : ℕ) : ℚ :=
  let a := 5 + 2 * (len - 2)
  let c := 5 + 2 * len
  [(a + 2, c), (a + 3, c + 1), (a, c + 2), (a + 1, c + 3)].foldl (fun t pr =>
    min t (max (margins.getD pr.1 0) (margins.getD pr.2 0))) (10 ^ 300)

/-- `decodeFrameSoft`: folded magnitudes, one row per symbol, to header and payload. -/
def decodeFrameSoft (p : LoraParams) (rows : List (List ℚ)) (shift : ℤ) : DecodeResult :=
  let st := m.decodeLoop p rows shift (rows.length + 1) { nibblesNeeded := p.spreadingFactor - 2 }
  let result : DecodeResult := { header := st.header, symbolsConsumed := st.symIdx }
  if st.header.valid && decide (st.nibblesNeeded ≤ st.nibbles.length) then
    let d := finishPayload (st.nibbles.map Prod.fst) result
    if st.header.hasCrc && decide (2 ≤ st.header.payloadLen) then
      { d with tailMargin := tailMargin (st.nibbles.map Prod.snd) st.header.payloadLen }
    else d
  else result

end SoftMath

/-! ## What a passed CRC says -/

/-- The payload has the length the header announces, and where there is a CRC it is the
one computed of that payload. -/
structure DecodeResult.Checked (d : DecodeResult) : Prop where
  length : d.payload.length = d.header.payloadLen
  crc : d.header.hasCrc = true →
    d.crcReceived = d.crcExpected ∧ d.crcExpected = payloadCrc d.payload

theorem finishPayload_checked (ns : List ℕ) (d : DecodeResult)
    (h : (finishPayload ns d).crcOk = true) : (finishPayload ns d).Checked := by
  constructor
  · rw [length_payload_finishPayload, header_finishPayload]
  · intro hcrc
    rw [header_finishPayload] at hcrc
    unfold finishPayload at h ⊢
    simp only [hcrc, if_true] at h ⊢
    exact ⟨beq_iff_eq.mp h, trivial⟩

theorem decodeFrame_checked (p : LoraParams) (raw : List UInt16)
    (h : (decodeFrame p raw).crcOk = true) : (decodeFrame p raw).Checked := by
  unfold decodeFrame at h ⊢
  simp only at h ⊢
  split at h
  · rename_i hfull
    rw [if_pos hfull]
    exact finishPayload_checked _ _ h
  · exact absurd h Bool.false_ne_true

namespace SoftMath

variable (m : SoftMath)

theorem decodeFrameSoft_checked (p : LoraParams) (rows : List (List ℚ)) (shift : ℤ)
    (h : (m.decodeFrameSoft p rows shift).crcOk = true) :
    (m.decodeFrameSoft p rows shift).Checked := by
  unfold decodeFrameSoft at h ⊢
  simp only at h ⊢
  split at h
  · rename_i hfull
    rw [if_pos hfull]
    split at h
    · rename_i htail
      rw [if_pos htail]
      -- the margin is the only field that differs
      have hd := finishPayload_checked _ _ h
      exact ⟨hd.length, hd.crc⟩
    · rename_i htail
      rw [if_neg htail]
      exact finishPayload_checked _ _ h
  · exact absurd h Bool.false_ne_true

end SoftMath
