/-
# Block structure of a frame

`encodeFrame` is the header block followed by `dataBlockCount` data blocks, and
`decodeFrame` on any vector with a valid header reads exactly the blocks
`frameSymbolCount` counts: with fewer symbols the payload stays empty
(`decodeFrame_short`), with at least that many the result is `finishPayload` on
the nibbles of those blocks (`decodeFrame_full`).
-/
import QuadrfMesh.Lora.Block
import QuadrfMesh.Lib.Chunks

open Chunks

/-- Data blocks that carry the nibbles past the header block. -/
def dataBlockCount (p : LoraParams) (nibbles : ℕ) : ℕ :=
  (nibbles - (p.spreadingFactor - 2) + sfAppOf p false - 1) / sfAppOf p false

/-- `dataBlockCount` blocks reach the last nibble, and one less does not. -/
theorem dataBlockCount_spec (p : LoraParams) (n : ℕ) (happ : 0 < sfAppOf p false) :
    n ≤ p.spreadingFactor - 2 + dataBlockCount p n * sfAppOf p false ∧
      (dataBlockCount p n ≠ 0 →
        p.spreadingFactor - 2 + (dataBlockCount p n - 1) * sfAppOf p false < n) := by
  set a := sfAppOf p false with ha
  have hdiv := Nat.div_add_mod (n - (p.spreadingFactor - 2) + a - 1) a
  have hmod := Nat.mod_lt (n - (p.spreadingFactor - 2) + a - 1) happ
  have hm : dataBlockCount p n = (n - (p.spreadingFactor - 2) + a - 1) / a := rfl
  rw [← hm, Nat.mul_comm] at hdiv
  constructor
  · omega
  · intro hne
    -- one block less leaves the last nibble out
    obtain ⟨m, hm'⟩ := Nat.exists_eq_succ_of_ne_zero hne
    rw [hm', Nat.succ_mul] at hdiv
    rw [hm', Nat.succ_sub_one]
    omega

/-- The number of nibbles in a frame. -/
def frameNibbles (hasCrc : Bool) (payloadLen : ℕ) : ℕ :=
  5 + 2 * payloadLen + (if hasCrc then 4 else 0)

/-- `frameSymbolCount` counts the header block and the data blocks. -/
theorem frameSymbolCount_eq (p : LoraParams) (hsf : 3 ≤ p.spreadingFactor) (payloadLen : ℕ) :
    frameSymbolCount p payloadLen
      = 8 + dataBlockCount p (frameNibbles p.hasCrc payloadLen) * (p.cr + 4) := by
  have happ : sfAppOf p false = if p.ldro then p.spreadingFactor - 2 else p.spreadingFactor := by
    simp [sfAppOf]
  unfold frameSymbolCount dataBlockCount frameNibbles
  simp only
  rw [happ]
  -- the header block may hold the whole frame
  by_cases h : 5 + 2 * payloadLen + (if p.hasCrc then 4 else 0) ≤ p.spreadingFactor - 2
  · have hpos : 0 < (if p.ldro then p.spreadingFactor - 2 else p.spreadingFactor) := by
      split <;> omega
    rw [if_pos h, Nat.sub_eq_zero_of_le h, zero_add,
      Nat.div_eq_of_lt (by omega), zero_mul, add_zero]
  · rw [if_neg h]

/-! ## Encoding -/

theorem encodeBlocks_data (p : LoraParams) (nibbles : List ℕ) (m : ℕ) :
    ∀ fuel idx, nibbles.length ≤ idx + m * sfAppOf p false →
      (m ≠ 0 → idx + (m - 1) * sfAppOf p false < nibbles.length) → m ≤ fuel →
      encodeBlocks p nibbles fuel idx false
        = (List.range m).flatMap fun k =>
            encodeBlock p nibbles (idx + k * sfAppOf p false) false := by
  -- on the number of blocks, for every start `idx`
  induction m with
  | zero =>
      intro fuel idx hle _ _
      cases fuel with
      | zero => rfl
      | succ fuel =>
          rw [encodeBlocks, if_neg (by omega)]
          rfl
  | succ m ih =>
      intro fuel idx hle hgt hfuel
      obtain ⟨fuel, rfl⟩ : ∃ f, fuel = f + 1 := ⟨fuel - 1, by omega⟩
      have hidx : idx < nibbles.length := by
        have h := hgt (by omega)
        omega
      rw [encodeBlocks, if_pos hidx, ih fuel (idx + sfAppOf p false) ?_ ?_ (by omega),
        List.range_succ_eq_map, List.flatMap_cons, List.flatMap_map]
      · congr 1
        · rw [zero_mul, add_zero]
        · congr 1
          funext k
          rw [Nat.succ_eq_add_one, Nat.add_mul, one_mul, Nat.add_assoc, Nat.add_comm (sfAppOf p false)]
      · rw [Nat.add_mul, one_mul] at hle
        omega
      · intro hm
        have h := hgt (by omega)
        obtain ⟨m', rfl⟩ : ∃ m', m = m' + 1 := ⟨m - 1, by omega⟩
        rw [Nat.add_sub_cancel, Nat.add_mul, one_mul] at h
        rw [Nat.add_sub_cancel]
        omega

theorem length_nibbleStream (p : LoraParams) (payload : List UInt8) :
    (nibbleStream p payload).length = frameNibbles p.hasCrc payload.length := by
  have hbody := length_flatMap_range (fun i =>
    [((payload.getD i 0 ^^^ whitening i) &&& 0x0F).toNat,
      ((payload.getD i 0 ^^^ whitening i) >>> 4).toNat]) 2 (fun _ => rfl) payload.length
  unfold nibbleStream frameNibbles
  simp only [List.length_append, hbody]
  cases p.hasCrc <;> simp [buildHeader] <;> omega

/-- **`encodeFrame`** is the header block, then the data blocks. -/
theorem encodeFrame_eq {p : LoraParams} (hp : LegalParams p) (payload : List UInt8) :
    encodeFrame p payload
      = encodeBlock p (nibbleStream p payload) 0 true
        ++ (List.range (dataBlockCount p (nibbleStream p payload).length)).flatMap fun k =>
            encodeBlock p (nibbleStream p payload)
              (p.spreadingFactor - 2 + k * sfAppOf p false) false := by
  have happ := (sfAppOf_bounds hp false).1
  have hsf := hp.sf_ge
  obtain ⟨hle, hgt⟩ := dataBlockCount_spec p (nibbleStream p payload).length (by omega)
  have hpos : 0 < (nibbleStream p payload).length := by
    rw [length_nibbleStream, frameNibbles]
    omega
  obtain ⟨fuel, hfuel⟩ : ∃ f, (nibbleStream p payload).length = f + 1 :=
    ⟨(nibbleStream p payload).length - 1, by omega⟩
  have hfirst : sfAppOf p true = p.spreadingFactor - 2 := by simp [sfAppOf]
  -- every block takes a nibble, so the fuel lasts
  have hm : dataBlockCount p (nibbleStream p payload).length ≤ fuel := by
    rcases Nat.eq_zero_or_pos (dataBlockCount p (nibbleStream p payload).length) with h | h
    · omega
    · have h1 := hgt (by omega)
      have h2 := Nat.le_mul_of_pos_right
        (dataBlockCount p (nibbleStream p payload).length - 1)
        (show 0 < sfAppOf p false by omega)
      omega
  have h := encodeBlocks_data p (nibbleStream p payload)
    (dataBlockCount p (nibbleStream p payload).length) fuel (p.spreadingFactor - 2) hle hgt hm
  show encodeBlocks p (nibbleStream p payload) (nibbleStream p payload).length 0 true = _
  rw [hfuel, encodeBlocks, if_pos (by omega), zero_add, hfirst, h, ← hfuel]

theorem length_encodeFrame_blocks {p : LoraParams} (hp : LegalParams p) (payload : List UInt8) :
    (encodeFrame p payload).length
      = 8 + dataBlockCount p (nibbleStream p payload).length * (p.cr + 4) := by
  rw [encodeFrame_eq hp, List.length_append, length_encodeBlock hp,
    length_flatMap_range _ _ (fun k => length_encodeBlock hp _ _ false)]
  rfl

/-- Chip `i` of the header block. -/
theorem getD_encodeFrame_header {p : LoraParams} (hp : LegalParams p) (payload : List UInt8)
    (i : ℕ) (hi : i < 8) :
    (encodeFrame p payload).getD i 0
      = (encodeBlock p (nibbleStream p payload) 0 true).getD i 0 := by
  rw [encodeFrame_eq hp, List.getD_append _ _ _ _ (by rw [length_encodeBlock hp]; exact hi)]

/-- Chip `i` of data block `k`. -/
theorem getD_encodeFrame_data {p : LoraParams} (hp : LegalParams p) (payload : List UInt8)
    (k i : ℕ) (hk : k < dataBlockCount p (nibbleStream p payload).length) (hi : i < p.cr + 4) :
    (encodeFrame p payload).getD (8 + k * (p.cr + 4) + i) 0
      = (encodeBlock p (nibbleStream p payload)
          (p.spreadingFactor - 2 + k * sfAppOf p false) false).getD i 0 := by
  have hlen : (encodeBlock p (nibbleStream p payload) 0 true).length = 8 :=
    length_encodeBlock hp _ 0 true
  rw [encodeFrame_eq hp, List.getD_append_right _ _ _ _ (by rw [hlen]; omega), hlen,
    show 8 + k * (p.cr + 4) + i - 8 = k * (p.cr + 4) + i by omega]
  exact getD_flatMap_range _ (p.cr + 4) (fun k => length_encodeBlock hp _ _ false) 0 _ k i hk hi

/-! ## Decoding -/

/-- Block `k` of the data symbols of `raw` at coding rate `cr`. -/
def dataBlock (cr : ℕ) (raw : List UInt16) (k : ℕ) : List UInt16 :=
  (raw.drop (8 + k * (cr + 4))).take (cr + 4)

/-- The nibbles of the first `m` data blocks of `raw`. -/
def dataNibbles (p : LoraParams) (cr : ℕ) (raw : List UInt16) (m : ℕ) : List ℕ :=
  (List.range m).flatMap fun k => decodeBlock p false cr (dataBlock cr raw k)

theorem length_decodeBlock {p : LoraParams} (hsf : 3 ≤ p.spreadingFactor) (firstBlock : Bool)
    (crApp : ℕ) (hcr : crApp ≤ 4) (block : List UInt16) :
    (decodeBlock p firstBlock crApp block).length = sfAppOf p firstBlock := by
  have happ : 0 < sfAppOf p firstBlock := by
    unfold sfAppOf
    split <;> omega
  have hu8 : u8 (crApp + 4) = crApp + 4 := Nat.mod_eq_of_lt (by omega)
  rw [decodeBlock, hu8]
  simp only [List.length_map]
  exact length_deinterleaveBlock _ _ _ happ (by omega)

/-- The loop state after the header block and `k` data blocks. -/
def dataState (p : LoraParams) (raw : List UInt16) (h : HeaderInfo) (k : ℕ) : DecodeState where
  nibbles := decodeBlock p true 4 (raw.take 8) ++ dataNibbles p h.cr raw k
  symIdx := 8 + k * (h.cr + 4)
  firstBlock := false
  nibblesNeeded := nibblesNeeded h
  header := h

section Decode

variable {p : LoraParams} (hsf : 3 ≤ p.spreadingFactor)
include hsf

theorem length_dataState_nibbles (raw : List UInt16) (h : HeaderInfo) (hcr : h.cr ≤ 4) (k : ℕ) :
    (dataState p raw h k).nibbles.length
      = p.spreadingFactor - 2 + k * sfAppOf p false := by
  have hfirst : sfAppOf p true = p.spreadingFactor - 2 := by simp [sfAppOf]
  simp only [dataState, dataNibbles, List.length_append]
  rw [length_decodeBlock hsf true 4 le_rfl, hfirst,
    length_flatMap_range _ _ (fun k => length_decodeBlock hsf false h.cr hcr _)]

/-- One pass of the loop past the header. -/
theorem decodeLoop_dataState_succ (raw : List UInt16) (h : HeaderInfo) (hcr : h.cr ≤ 4)
    (k fuel : ℕ) (hmore : p.spreadingFactor - 2 + k * sfAppOf p false < nibblesNeeded h)
    (hraw : 8 + (k + 1) * (h.cr + 4) ≤ raw.length) :
    decodeLoop p raw (fuel + 1) (dataState p raw h k)
      = decodeLoop p raw fuel (dataState p raw h (k + 1)) := by
  have hu8 : u8 (h.cr + 4) = h.cr + 4 := Nat.mod_eq_of_lt (by omega)
  have hlen := length_dataState_nibbles hsf raw h hcr k
  rw [Nat.add_mul, one_mul] at hraw
  have hcond : (dataState p raw h k).nibbles.length < (dataState p raw h k).nibblesNeeded ∧
      (dataState p raw h k).symIdx < raw.length := by
    refine ⟨by rw [hlen]; exact hmore, ?_⟩
    simp only [dataState]
    omega
  rw [decodeLoop, if_pos hcond]
  simp only [dataState, Bool.false_eq_true, if_false]
  rw [hu8, if_neg (by omega)]
  congr 1
  simp only [dataNibbles, DecodeState.mk.injEq, and_true]
  refine ⟨?_, by ring⟩
  rw [List.range_succ, List.flatMap_append, List.append_assoc]
  simp only [List.flatMap_cons, List.flatMap_nil, List.append_nil]
  rfl

/-- With enough nibbles the loop stops. -/
theorem decodeLoop_dataState_done (raw : List UInt16) (h : HeaderInfo) (hcr : h.cr ≤ 4)
    (k fuel : ℕ) (hdone : nibblesNeeded h ≤ p.spreadingFactor - 2 + k * sfAppOf p false) :
    decodeLoop p raw fuel (dataState p raw h k) = dataState p raw h k := by
  have hlen := length_dataState_nibbles hsf raw h hcr k
  cases fuel with
  | zero => rfl
  | succ fuel =>
      rw [decodeLoop, if_neg]
      rintro ⟨h1, -⟩
      rw [hlen] at h1
      simp only [dataState] at h1
      omega

omit hsf in
/-- With too few symbols for another block the loop stops. -/
theorem decodeLoop_dataState_stuck (raw : List UInt16) (h : HeaderInfo) (hcr : h.cr ≤ 4)
    (k fuel : ℕ) (hraw : raw.length < 8 + (k + 1) * (h.cr + 4)) :
    decodeLoop p raw fuel (dataState p raw h k) = dataState p raw h k := by
  have hu8 : u8 (h.cr + 4) = h.cr + 4 := Nat.mod_eq_of_lt (by omega)
  rw [Nat.add_mul, one_mul] at hraw
  cases fuel with
  | zero => rfl
  | succ fuel =>
      rw [decodeLoop]
      split
      · simp only [dataState, Bool.false_eq_true, if_false]
        rw [hu8, if_pos (by omega)]
      · rfl

/-- The loop from data block `j`: it runs to the block count the header asks for,
or stops at the first block the symbols do not fill. -/
theorem decodeLoop_dataState (raw : List UInt16) (h : HeaderInfo) (hcr : h.cr ≤ 4) (m : ℕ) :
    ∀ j fuel, 8 + j * (h.cr + 4) ≤ raw.length → raw.length < 8 + j * (h.cr + 4) + fuel →
      nibblesNeeded h ≤ p.spreadingFactor - 2 + (j + m) * sfAppOf p false →
      (m ≠ 0 → p.spreadingFactor - 2 + (j + m - 1) * sfAppOf p false < nibblesNeeded h) →
      (8 + (j + m) * (h.cr + 4) ≤ raw.length →
        decodeLoop p raw fuel (dataState p raw h j) = dataState p raw h (j + m)) ∧
      (raw.length < 8 + (j + m) * (h.cr + 4) →
        ∃ k, k < j + m ∧ decodeLoop p raw fuel (dataState p raw h j) = dataState p raw h k) := by
  -- on the number of blocks still to read
  induction m with
  | zero =>
      intro j fuel hj _ hle _
      refine ⟨fun _ => decodeLoop_dataState_done hsf raw h hcr j fuel hle, fun h1 => ?_⟩
      rw [add_zero] at h1
      omega
  | succ m ih =>
      intro j fuel hj hfuel hle hgt
      obtain ⟨fuel, rfl⟩ : ∃ f, fuel = f + 1 := ⟨fuel - 1, by omega⟩
      have hsum : j + (m + 1) = j + 1 + m := by omega
      have hmore : p.spreadingFactor - 2 + j * sfAppOf p false < nibblesNeeded h := by
        have h1 := hgt (by omega)
        have h2 : j * sfAppOf p false ≤ (j + (m + 1) - 1) * sfAppOf p false :=
          Nat.mul_le_mul_right _ (by omega)
        omega
      rw [hsum] at hle hgt ⊢
      have hstep : (j + 1) * (h.cr + 4) ≤ (j + 1 + m) * (h.cr + 4) :=
        Nat.mul_le_mul_right _ (by omega)
      have hnext : (j + 1) * (h.cr + 4) = j * (h.cr + 4) + (h.cr + 4) := by ring
      rcases Nat.lt_or_ge raw.length (8 + (j + 1) * (h.cr + 4)) with hlt | hge
      · refine ⟨fun h1 => by omega, fun _ => ⟨j, by omega, ?_⟩⟩
        exact decodeLoop_dataState_stuck raw h hcr j _ hlt
      · rw [decodeLoop_dataState_succ hsf raw h hcr j fuel hmore hge]
        exact ih (j + 1) fuel hge (by omega) hle (fun hm => hgt (by omega))

/-- The header `decodeFrame` reads: that of the first eight symbols. -/
theorem decodeLoop_header (raw : List UInt16) (hraw : 8 ≤ raw.length) (fuel : ℕ)
    (hvalid : (parseHeader (decodeBlock p true 4 (raw.take 8))).valid = true) :
    decodeLoop p raw (fuel + 1) { nibblesNeeded := p.spreadingFactor - 2 }
      = decodeLoop p raw fuel
          (dataState p raw (parseHeader (decodeBlock p true 4 (raw.take 8))) 0) := by
  have hu8 : u8 (4 + 4) = 8 := by decide
  rw [decodeLoop, if_pos ⟨by simp; omega, by simp; omega⟩]
  simp only [if_true, List.nil_append, List.drop_zero]
  rw [hu8, if_neg (by omega)]
  simp only [hvalid, Bool.not_true, Bool.false_eq_true, if_false]
  congr 1
  simp [dataState, dataNibbles]

end Decode

theorem parseHeader_cr_of_valid (n : List ℕ) (hvalid : (parseHeader n).valid = true) :
    1 ≤ (parseHeader n).cr ∧ (parseHeader n).cr ≤ 4 := by
  simp only [parseHeader, Bool.and_eq_true, decide_eq_true_eq] at hvalid ⊢
  exact ⟨hvalid.1.2, hvalid.2⟩

/-- The data blocks a header asks for. -/
def headerBlocks (p : LoraParams) (h : HeaderInfo) : ℕ := dataBlockCount p (nibblesNeeded h)

/-- The symbols a header asks for are `frameSymbolCount` at its own coding rate and
CRC flag. -/
theorem frameSymbolCount_header (p : LoraParams) (hsf : 3 ≤ p.spreadingFactor) (h : HeaderInfo) :
    frameSymbolCount { p with cr := h.cr, hasCrc := h.hasCrc } h.payloadLen
      = 8 + headerBlocks p h * (h.cr + 4) :=
  frameSymbolCount_eq { p with cr := h.cr, hasCrc := h.hasCrc } hsf h.payloadLen

section DecodeFrame

variable {p : LoraParams} (hsf : 3 ≤ p.spreadingFactor) (raw : List UInt16) (h : HeaderInfo)
  (hh : parseHeader (decodeBlock p true 4 (raw.take 8)) = h) (hvalid : h.valid = true)
  (hraw : 8 ≤ raw.length)
include hsf hh hvalid hraw

/-- The loop of `decodeFrame` on a vector with a valid header: it reads the data
blocks the header asks for, or stops at the first one the vector does not fill. -/
theorem decodeLoop_frame :
    (8 + headerBlocks p h * (h.cr + 4) ≤ raw.length →
      decodeLoop p raw (raw.length + 1) { nibblesNeeded := p.spreadingFactor - 2 }
        = dataState p raw h (headerBlocks p h)) ∧
    (raw.length < 8 + headerBlocks p h * (h.cr + 4) →
      ∃ k, k < headerBlocks p h ∧
        decodeLoop p raw (raw.length + 1) { nibblesNeeded := p.spreadingFactor - 2 }
          = dataState p raw h k) := by
  subst hh
  set h := parseHeader (decodeBlock p true 4 (raw.take 8)) with hdef
  have hcr := parseHeader_cr_of_valid _ hvalid
  have happ : 0 < sfAppOf p false := by
    unfold sfAppOf
    split <;> omega
  obtain ⟨hle, hgt⟩ := dataBlockCount_spec p (nibblesNeeded h) happ
  rw [decodeLoop_header hsf raw hraw raw.length hvalid]
  have hrun := decodeLoop_dataState hsf raw h hcr.2 (headerBlocks p h) 0 raw.length
    (by omega) (by omega) (by rw [zero_add]; exact hle) (by rw [zero_add]; exact hgt)
  rwa [zero_add] at hrun

/-- **Enough symbols.**  `decodeFrame` is `finishPayload` on the header block and
the data blocks the header asks for. -/
theorem decodeFrame_full (henough : 8 + headerBlocks p h * (h.cr + 4) ≤ raw.length) :
    decodeFrame p raw
      = finishPayload (decodeBlock p true 4 (raw.take 8)
          ++ dataNibbles p h.cr raw (headerBlocks p h))
          { header := h, symbolsConsumed := 8 + headerBlocks p h * (h.cr + 4) } := by
  have hcr : h.cr ≤ 4 := by
    subst hh
    exact (parseHeader_cr_of_valid _ hvalid).2
  have happ : 0 < sfAppOf p false := by
    unfold sfAppOf
    split <;> omega
  have hlen := length_dataState_nibbles hsf raw h hcr (headerBlocks p h)
  have hneed := (dataBlockCount_spec p (nibblesNeeded h) happ).1
  have hloop := (decodeLoop_frame hsf raw h hh hvalid hraw).1 henough
  unfold decodeFrame
  rw [hloop]
  have hcond : ((dataState p raw h (headerBlocks p h)).header.valid &&
      decide ((dataState p raw h (headerBlocks p h)).nibblesNeeded
        ≤ (dataState p raw h (headerBlocks p h)).nibbles.length)) = true := by
    rw [Bool.and_eq_true, decide_eq_true_eq, hlen]
    exact ⟨hvalid, hneed⟩
  simp only [hcond, if_true]
  rfl

/-- **Too few symbols.**  The header stands, the payload stays empty and the CRC
unchecked. -/
theorem decodeFrame_short (hshort : raw.length < 8 + headerBlocks p h * (h.cr + 4)) :
    (decodeFrame p raw).header = h ∧ (decodeFrame p raw).payload = [] ∧
      (decodeFrame p raw).crcOk = false := by
  have hcr : h.cr ≤ 4 := by
    subst hh
    exact (parseHeader_cr_of_valid _ hvalid).2
  have happ : 0 < sfAppOf p false := by
    unfold sfAppOf
    split <;> omega
  obtain ⟨k, hk, hloop⟩ := (decodeLoop_frame hsf raw h hh hvalid hraw).2 hshort
  have hlen := length_dataState_nibbles hsf raw h hcr k
  have hmore := (dataBlockCount_spec p (nibblesNeeded h) happ).2 (by unfold headerBlocks at hk; omega)
  have hmul : k * sfAppOf p false ≤ (dataBlockCount p (nibblesNeeded h) - 1) * sfAppOf p false :=
    Nat.mul_le_mul_right _ (by unfold headerBlocks at hk; omega)
  have hcond : ((dataState p raw h k).header.valid &&
      decide ((dataState p raw h k).nibblesNeeded ≤ (dataState p raw h k).nibbles.length))
        = false := by
    rw [Bool.and_eq_false_iff, decide_eq_false_iff_not, hlen]
    right
    show ¬ nibblesNeeded h ≤ _
    omega
  have hres : decodeFrame p raw = { header := h, symbolsConsumed := 8 + k * (h.cr + 4) } := by
    unfold decodeFrame
    rw [hloop]
    simp only [hcond, Bool.false_eq_true, if_false]
    rfl
  rw [hres]
  exact ⟨rfl, rfl, rfl⟩

end DecodeFrame

/-- `decodeFrame` reads only the spreading factor and the LDRO flag of its
parameters: the coding rate and the CRC flag come from the header. -/
theorem decodeFrame_congr {p q : LoraParams} (hsf : p.spreadingFactor = q.spreadingFactor)
    (hldro : p.ldro = q.ldro) (raw : List UInt16) : decodeFrame p raw = decodeFrame q raw := by
  have hblock : decodeBlock p = decodeBlock q := by
    funext firstBlock crApp block
    unfold decodeBlock sfAppOf chipCount
    rw [hsf, hldro]
  have hloop : ∀ fuel st, decodeLoop p raw fuel st = decodeLoop q raw fuel st := by
    intro fuel
    induction fuel with
    | zero => exact fun _ => rfl
    | succ fuel ih =>
        intro st
        unfold decodeLoop
        simp only [hblock, ih]
  unfold decodeFrame
  rw [hloop, hsf]

/-- `frameSymbolCount` reads spreading factor, coding rate, LDRO and CRC flag. -/
theorem frameSymbolCount_congr {p q : LoraParams} (hsf : p.spreadingFactor = q.spreadingFactor)
    (hcr : p.cr = q.cr) (hldro : p.ldro = q.ldro) (hcrc : p.hasCrc = q.hasCrc) (payloadLen : ℕ) :
    frameSymbolCount p payloadLen = frameSymbolCount q payloadLen := by
  unfold frameSymbolCount
  simp only [hsf, hcr, hldro, hcrc]

/-! ## The header is in the first block -/

theorem decodeLoop_keeps_header (p : LoraParams) (raw : List UInt16) (fuel : ℕ) :
    ∀ st : DecodeState, st.firstBlock = false → (decodeLoop p raw fuel st).header = st.header := by
  induction fuel with
  | zero => exact fun _ _ => rfl
  | succ fuel ih =>
      intro st hfirst
      rw [decodeLoop]
      split
      · simp only [hfirst, Bool.false_eq_true, if_false]
        split
        · rfl
        · rw [ih _ rfl]
      · rfl

theorem header_finishPayload (nibbles : List ℕ) (d : DecodeResult) :
    (finishPayload nibbles d).header = d.header := by
  unfold finishPayload
  simp only
  split <;> rfl

theorem decodeFrame_header_loop (p : LoraParams) (raw : List UInt16) :
    (decodeFrame p raw).header
      = (decodeLoop p raw (raw.length + 1) { nibblesNeeded := p.spreadingFactor - 2 }).header := by
  unfold decodeFrame
  simp only
  split
  · rw [header_finishPayload]
  · rfl

/-- **The header of a frame** is read off its first eight symbols. -/
theorem decodeFrame_header {p : LoraParams} (hsf : 3 ≤ p.spreadingFactor) (raw : List UInt16)
    (hraw : 8 ≤ raw.length) :
    (decodeFrame p raw).header = parseHeader (decodeBlock p true 4 (raw.take 8)) := by
  have hu8 : u8 (4 + 4) = 8 := by decide
  rw [decodeFrame_header_loop, decodeLoop, if_pos ⟨by simp; omega, by simp; omega⟩]
  simp only [if_true, List.nil_append, List.drop_zero]
  rw [hu8, if_neg (by omega)]
  split
  · rfl
  · exact decodeLoop_keeps_header p raw _ _ rfl

/-- What follows the first eight symbols does not change the header. -/
theorem decodeFrame_header_take {p : LoraParams} (hsf : 3 ≤ p.spreadingFactor)
    (raw : List UInt16) : (decodeFrame p raw).header = (decodeFrame p (raw.take 8)).header := by
  rcases Nat.lt_or_ge raw.length 8 with hlt | hge
  · rw [List.take_of_length_le (by omega)]
  · have hlen : (raw.take 8).length = 8 := by
      rw [List.length_take]
      omega
    rw [decodeFrame_header hsf raw hge, decodeFrame_header hsf (raw.take 8) hlen.ge, List.take_take,
      Nat.min_self]
