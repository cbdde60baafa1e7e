/-
# One count for encoder, decoder and receiver

`frameSymbolCount`, the block loop of `encodeFrame` and the block loop of
`decodeFrame` count the same symbols: what `encodeFrame` makes has that many, and
`decodeFrame` on any vector with a valid header fills the payload from exactly that many
(`frame_blocks_agree`).
-/
import QuadrfMesh.Lora.Frame

/-- The nibbles `finishPayload` reads, by their index. -/
def payloadReads (h : HeaderInfo) : List ℕ :=
  ((List.range h.payloadLen).flatMap fun i => [5 + 2 * i, 5 + 2 * i + 1])
    ++ if h.hasCrc then
        [5 + 2 * h.payloadLen, 5 + 2 * h.payloadLen + 1, 5 + 2 * h.payloadLen + 2,
          5 + 2 * h.payloadLen + 3]
      else []

/-- `finishPayload` reads no other nibble. -/
theorem finishPayload_congr {ns ms : List ℕ} {d : DecodeResult}
    (h : ∀ i ∈ payloadReads d.header, ns.getD i 0 = ms.getD i 0) :
    finishPayload ns d = finishPayload ms d := by
  have hbody : ∀ i < d.header.payloadLen, ns.getD (5 + 2 * i) 0 = ms.getD (5 + 2 * i) 0 ∧
      ns.getD (5 + 2 * i + 1) 0 = ms.getD (5 + 2 * i + 1) 0 := by
    intro i hi
    constructor
    · apply h
      exact List.mem_append_left _ (List.mem_flatMap.mpr ⟨i, List.mem_range.mpr hi, by simp⟩)
    · apply h
      exact List.mem_append_left _ (List.mem_flatMap.mpr ⟨i, List.mem_range.mpr hi, by simp⟩)
  have hpayload : ((List.range d.header.payloadLen).map fun i =>
        UInt8.ofNat ((ns.getD (5 + 2 * i) 0 &&& 0x0F) ||| (ns.getD (5 + 2 * i + 1) 0 <<< 4))
          ^^^ whitening i)
      = (List.range d.header.payloadLen).map fun i =>
        UInt8.ofNat ((ms.getD (5 + 2 * i) 0 &&& 0x0F) ||| (ms.getD (5 + 2 * i + 1) 0 <<< 4))
          ^^^ whitening i := by
    apply List.map_congr_left
    intro i hi
    obtain ⟨h0, h1⟩ := hbody i (List.mem_range.mp hi)
    rw [h0, h1]
  unfold finishPayload
  simp only
  rw [hpayload]
  cases hcrc : d.header.hasCrc with
  | false => rfl
  | true =>
      have htail : ∀ k < 4, ns.getD (5 + 2 * d.header.payloadLen + k) 0
          = ms.getD (5 + 2 * d.header.payloadLen + k) 0 := by
        intro k hk
        apply h
        rw [payloadReads, hcrc]
        apply List.mem_append_right
        interval_cases k <;> simp
      have h0 := htail 0 (by omega)
      rw [add_zero] at h0
      simp only [if_true]
      rw [h0, htail 1 (by omega), htail 2 (by omega), htail 3 (by omega)]

/-- The nibbles a header asks for hold all that `finishPayload` reads. -/
theorem lt_of_mem_payloadReads {h : HeaderInfo} {i : ℕ} (hi : i ∈ payloadReads h) :
    i < nibblesNeeded h := by
  unfold payloadReads at hi
  unfold nibblesNeeded
  rcases List.mem_append.mp hi with hi | hi
  · obtain ⟨k, hk, hi⟩ := List.mem_flatMap.mp hi
    rw [List.mem_range] at hk
    rcases List.mem_cons.mp hi with rfl | hi
    · omega
    · rw [List.mem_singleton.mp hi]
      omega
  · split_ifs at hi with hcrc
    · rw [if_pos hcrc]
      simp only [List.mem_cons, List.not_mem_nil, or_false] at hi
      omega
    · exact absurd hi List.not_mem_nil

/-- The nibbles `decodeFrame` has when its loop ends. -/
def decodedNibbles (p : LoraParams) (raw : List UInt16) : List ℕ :=
  (decodeLoop p raw (raw.length + 1) { nibblesNeeded := p.spreadingFactor - 2 }).nibbles

/-- Without a whole header block the loop ends where it starts. -/
theorem decodeLoop_headerless (p : LoraParams) {raw : List UInt16} (hraw : raw.length < 8) :
    decodeLoop p raw (raw.length + 1) { nibblesNeeded := p.spreadingFactor - 2 }
      = { nibblesNeeded := p.spreadingFactor - 2 } := by
  have hu8 : u8 (4 + 4) = 8 := by decide
  rw [decodeLoop]
  split
  · simp only [if_true]
    rw [hu8, if_pos (by omega)]
  · rfl

/-- A header is only read off a whole header block. -/
theorem length_of_header_valid {p : LoraParams} {raw : List UInt16}
    (h : (decodeFrame p raw).header.valid = true) : 8 ≤ raw.length := by
  by_contra hlt
  rw [decodeFrame_header_loop, decodeLoop_headerless p (by omega)] at h
  exact absurd h Bool.false_ne_true

theorem length_payload_finishPayload (ns : List ℕ) (d : DecodeResult) :
    (finishPayload ns d).payload.length = d.header.payloadLen := by
  unfold finishPayload
  simp only
  split <;> simp

theorem symbolsConsumed_finishPayload (ns : List ℕ) (d : DecodeResult) :
    (finishPayload ns d).symbolsConsumed = d.symbolsConsumed := by
  unfold finishPayload
  simp only
  split <;> rfl

/-- A window inside the first `n` values is a window of them. -/
theorem take_drop_of_take {α : Type*} (xs : List α) {n a b : ℕ} (h : a + b ≤ n) :
    (xs.drop a).take b = ((xs.take n).drop a).take b := by
  rw [List.drop_take, List.take_take, Nat.min_eq_left (by omega)]

/-- The data blocks of a frame are among its first values. -/
theorem dataNibbles_take (p : LoraParams) (cr : ℕ) (raw : List UInt16) (m : ℕ) :
    dataNibbles p cr raw m = dataNibbles p cr (raw.take (8 + m * (cr + 4))) m := by
  unfold dataNibbles
  rw [List.flatMap_def, List.flatMap_def]
  congr 1
  apply List.map_congr_left
  intro k hk
  have hk' : (k + 1) * (cr + 4) ≤ m * (cr + 4) :=
    Nat.mul_le_mul_right _ (List.mem_range.mp hk)
  rw [Nat.add_mul, one_mul] at hk'
  have hle : 8 + k * (cr + 4) + (cr + 4) ≤ 8 + m * (cr + 4) := by omega
  rw [dataBlock, dataBlock, take_drop_of_take raw hle]

/-! ## A vector with a valid header -/

theorem payloadLen_ne_zero_of_valid (ns : List ℕ) (h : (parseHeader ns).valid = true) :
    (parseHeader ns).payloadLen ≠ 0 := by
  simp only [parseHeader, Bool.and_eq_true, bne_iff_ne] at h
  exact h.1.1.2

section ValidHeader

variable {p : LoraParams} (hsf : 3 ≤ p.spreadingFactor) (raw : List UInt16) (h : HeaderInfo)
  (hh : parseHeader (decodeBlock p true 4 (raw.take 8)) = h) (hvalid : h.valid = true)
  (hraw : 8 ≤ raw.length)
include hsf hh hvalid hraw

/-- The payload is filled from exactly the symbols the header asks for. -/
theorem payload_full_iff :
    (decodeFrame p raw).payload.length = h.payloadLen ↔
      8 + headerBlocks p h * (h.cr + 4) ≤ raw.length := by
  constructor
  · intro hfull
    by_contra hlt
    rw [(decodeFrame_short hsf raw h hh hvalid hraw (by omega)).2.1] at hfull
    subst hh
    exact payloadLen_ne_zero_of_valid _ hvalid hfull.symm
  · intro henough
    rw [decodeFrame_full hsf raw h hh hvalid hraw henough, length_payload_finishPayload]

section Enough

variable (henough : 8 + headerBlocks p h * (h.cr + 4) ≤ raw.length)
include henough

theorem decodedNibbles_full :
    decodedNibbles p raw = (dataState p raw h (headerBlocks p h)).nibbles := by
  rw [decodedNibbles, (decodeLoop_frame hsf raw h hh hvalid hraw).1 henough]

/-- Every nibble `finishPayload` reads is there. -/
theorem payloadReads_in_range : ∀ i ∈ payloadReads h, i < (decodedNibbles p raw).length := by
  intro i hi
  have hcr : h.cr ≤ 4 := by
    subst hh
    exact (parseHeader_cr_of_valid _ hvalid).2
  have happ : 0 < sfAppOf p false := by
    unfold sfAppOf
    split <;> omega
  have hlen := length_dataState_nibbles hsf raw h hcr (headerBlocks p h)
  have hneed := (dataBlockCount_spec p (nibblesNeeded h) happ).1
  have hlt := lt_of_mem_payloadReads hi
  rw [decodedNibbles_full hsf raw h hh hvalid hraw henough, hlen]
  unfold headerBlocks
  omega

/-- Nibbles that agree where `finishPayload` reads give the same frame. -/
theorem finishPayload_decodedNibbles {ns : List ℕ}
    (hns : ∀ i ∈ payloadReads h, ns.getD i 0 = (decodedNibbles p raw).getD i 0) :
    finishPayload ns { header := h, symbolsConsumed := 8 + headerBlocks p h * (h.cr + 4) }
      = decodeFrame p raw := by
  rw [decodedNibbles_full hsf raw h hh hvalid hraw henough] at hns
  rw [decodeFrame_full hsf raw h hh hvalid hraw henough]
  exact finishPayload_congr hns

/-- Symbols past those the header asks for do not matter. -/
theorem decodeFrame_of_take_eq {raw' : List UInt16}
    (htake : raw'.take (8 + headerBlocks p h * (h.cr + 4))
      = raw.take (8 + headerBlocks p h * (h.cr + 4))) :
    decodeFrame p raw' = decodeFrame p raw := by
  have hlen' : 8 + headerBlocks p h * (h.cr + 4) ≤ raw'.length := by
    have hcount := congrArg List.length htake
    rw [List.length_take, List.length_take] at hcount
    omega
  -- both vectors have the same header block and the same data blocks
  have hhead : raw'.take 8 = raw.take 8 := by
    have h8 := congrArg (List.take 8) htake
    rw [List.take_take, List.take_take, Nat.min_eq_left (by omega)] at h8
    exact h8
  have hh' : parseHeader (decodeBlock p true 4 (raw'.take 8)) = h := by rw [hhead, hh]
  rw [decodeFrame_full hsf raw' h hh' hvalid (by omega) hlen',
    decodeFrame_full hsf raw h hh hvalid hraw henough, hhead, dataNibbles_take p h.cr raw', htake,
    ← dataNibbles_take]

end Enough

end ValidHeader

/-- **Encoder and decoder agree on the blocks of a frame.**  `encodeFrame` makes as many
symbols as `frameSymbolCount` says; and `decodeFrame` on any vector whose header is valid
fills the payload if and only if the vector has as many symbols as `frameSymbolCount` says
for that header, and then it consumes just those, `finishPayload` finds every nibble it
reads (and reads no others), and later symbols do not matter. -/
theorem frame_blocks_agree (p : LoraParams) (hsf : 7 ≤ p.spreadingFactor ∧ p.spreadingFactor ≤ 12) :
    (1 ≤ p.cr → p.cr ≤ 4 → ∀ payload : List UInt8, payload.length ≤ 255 →
      (encodeFrame p payload).length = frameSymbolCount p payload.length) ∧
    ∀ (raw : List UInt16) (h : HeaderInfo) (n : ℕ), (decodeFrame p raw).header = h →
      h.valid = true →
      n = frameSymbolCount { p with cr := h.cr, hasCrc := h.hasCrc } h.payloadLen →
      ((decodeFrame p raw).payload.length = h.payloadLen ↔ n ≤ raw.length) ∧
      (raw.length < n → (decodeFrame p raw).payload = []) ∧
      (n ≤ raw.length →
        (decodeFrame p raw).symbolsConsumed = n ∧
        (∀ i ∈ payloadReads h, i < (decodedNibbles p raw).length) ∧
        (∀ ns : List ℕ, (∀ i ∈ payloadReads h, ns.getD i 0 = (decodedNibbles p raw).getD i 0) →
          finishPayload ns { header := h, symbolsConsumed := n } = decodeFrame p raw) ∧
        ∀ raw', raw'.take n = raw.take n → decodeFrame p raw' = decodeFrame p raw) := by
  have hsf3 : 3 ≤ p.spreadingFactor := by omega
  constructor
  · intro hcr1 hcr4 payload _
    have hp : LegalParams p := ⟨hsf.1, hsf.2, hcr1, hcr4⟩
    rw [length_encodeFrame_blocks hp, frameSymbolCount_eq p hsf3, length_nibbleStream]
  · rintro raw h n hh hvalid rfl
    have hraw : 8 ≤ raw.length := length_of_header_valid (by rw [hh]; exact hvalid)
    rw [frameSymbolCount_header p hsf3 h]
    rw [decodeFrame_header hsf3 raw hraw] at hh
    refine ⟨payload_full_iff hsf3 raw h hh hvalid hraw, ?_, ?_⟩
    · intro hshort
      exact (decodeFrame_short hsf3 raw h hh hvalid hraw hshort).2.1
    · intro henough
      refine ⟨?_, payloadReads_in_range hsf3 raw h hh hvalid hraw henough, ?_, ?_⟩
      · rw [decodeFrame_full hsf3 raw h hh hvalid hraw henough, symbolsConsumed_finishPayload]
      · intro ns hns
        exact finishPayload_decodedNibbles hsf3 raw h hh hvalid hraw henough hns
      · intro raw' htake
        exact decodeFrame_of_take_eq hsf3 raw h hh hvalid hraw henough htake

/-- At the default parameters a frame of three bytes takes 13 symbols, and of these 13 the decoder
consumes all and fills the payload. -/
theorem frame_blocks_agree_default :
    (encodeFrame {} [1, 2, 3]).length = 13 ∧
      (decodeFrame {} (encodeFrame {} [1, 2, 3])).payload.length = 3 ∧
      (decodeFrame {} (encodeFrame {} [1, 2, 3])).symbolsConsumed = 13 := by
  have hagree := frame_blocks_agree {} (by decide)
  have hlen := hagree.1 (by decide) (by decide) [1, 2, 3] (by decide)
  have hread := hagree.2 (encodeFrame {} [1, 2, 3]) _ 13 rfl (by decide +kernel) (by decide +kernel)
  refine ⟨hlen, (hread.1.mpr (by decide +kernel)).trans ?_, (hread.2.2 (by decide +kernel)).1⟩
  decide +kernel
