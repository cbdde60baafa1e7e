/-
# The frame round trip

Header, payload and CRC come back from the nibble stream they were packed into
(`finishPayload_nibbleStream`), so a received vector whose every block decodes to
the nibbles sent gives `frameResult` (`decodeFrame_of_blocks`).  An untouched
frame is such a vector, and so is one with a wrong symbol in every block where
the Hamming code of the block corrects it.
-/
import QuadrfMesh.Lora.Frame

open Chunks

/-! ## The header -/

theorem headerChecksum_lt (h0 h1 h2 : ℕ) : headerChecksum h0 h1 h2 < 32 := by
  have hbits : ∀ a b c d e : Bool,
      (a.toNat <<< 4) ||| (b.toNat <<< 3) ||| (c.toNat <<< 2) ||| (d.toNat <<< 1) ||| e.toNat
        < 32 := by decide
  exact hbits _ _ _ _ _

/-- A frame's header as the receiver reads it. -/
def sentHeader (p : LoraParams) (payload : List UInt8) : HeaderInfo :=
  { valid := true, payloadLen := payload.length, cr := p.cr, hasCrc := p.hasCrc }

/-- `parseHeader` reads back what `buildHeader` wrote. -/
theorem parseHeader_of_buildHeader (len cr : ℕ) (hasCrc : Bool) (hlen : 1 ≤ len)
    (hlen' : len ≤ 255) (hcr : 1 ≤ cr) (hcr' : cr ≤ 4) (n : List ℕ)
    (hn : ∀ i < 5, n.getD i 0 = (buildHeader len cr hasCrc).getD i 0) :
    parseHeader n = { valid := true, payloadLen := len, cr, hasCrc } := by
  have hlenBits : ∀ l < 256, u8 ((u8 (l >>> 4) <<< 4) ||| (u8 (l &&& 0x0F) &&& 0x0F)) = l := by
    decide +kernel
  have hchkBits : ∀ c < 32, u8 (((u8 ((c >>> 4) &&& 0x1) &&& 0x1) <<< 4)
      ||| (u8 (c &&& 0x0F) &&& 0x0F)) = c := by decide
  have hflag : decide (u8 ((cr <<< 1) ||| hasCrc.toNat) &&& 0x1 ≠ 0) = hasCrc := by
    interval_cases cr <;> cases hasCrc <;> decide
  have hrate : u8 ((u8 ((cr <<< 1) ||| hasCrc.toNat) >>> 1) &&& 0x7) = cr := by
    interval_cases cr <;> cases hasCrc <;> decide
  have h0 := hn 0 (by omega)
  have h1 := hn 1 (by omega)
  have h2 := hn 2 (by omega)
  have h3 := hn 3 (by omega)
  have h4 := hn 4 (by omega)
  simp only [buildHeader, List.getD_cons_zero, List.getD_cons_succ] at h0 h1 h2 h3 h4
  have hchk := hchkBits _ (headerChecksum_lt (u8 (len >>> 4)) (u8 (len &&& 0x0F))
    (u8 ((cr <<< 1) ||| hasCrc.toNat)))
  unfold parseHeader
  simp only [h0, h1, h2, h3, h4, hchk, hflag, hrate, hlenBits len (by omega)]
  have hne : (len != 0) = true := by
    rw [bne_iff_ne]
    omega
  rw [hne, decide_eq_true hcr, decide_eq_true hcr']
  simp

/-! ## The nibble stream -/

theorem length_buildHeader (len cr : ℕ) (hasCrc : Bool) :
    (buildHeader len cr hasCrc).length = 5 := rfl

/-- Payload byte `i` after whitening. -/
def whitenedByte (payload : List UInt8) (i : ℕ) : UInt8 := payload.getD i 0 ^^^ whitening i

section Stream

variable (p : LoraParams) (payload : List UInt8)

theorem length_payloadNibbles :
    ((List.range payload.length).flatMap fun i =>
      [(whitenedByte payload i &&& 0x0F).toNat, (whitenedByte payload i >>> 4).toNat]).length
      = payload.length * 2 :=
  length_flatMap_range _ 2 (fun _ => rfl) _

theorem getD_nibbleStream_header (i : ℕ) (hi : i < 5) :
    (nibbleStream p payload).getD i 0
      = (buildHeader (u8 payload.length) p.cr p.hasCrc).getD i 0 := by
  unfold nibbleStream
  simp only [List.append_assoc]
  rw [List.getD_append _ _ _ _ (by rw [length_buildHeader]; exact hi)]

theorem getD_nibbleStream_payload (i j : ℕ) (hi : i < payload.length) (hj : j < 2) :
    (nibbleStream p payload).getD (5 + (i * 2 + j)) 0
      = [(whitenedByte payload i &&& 0x0F).toNat, (whitenedByte payload i >>> 4).toNat].getD j 0 := by
  have hlen := length_payloadNibbles payload
  unfold nibbleStream
  simp only [List.append_assoc]
  rw [List.getD_append_right _ _ _ _ (by rw [length_buildHeader]; omega), length_buildHeader,
    Nat.add_sub_cancel_left,
    List.getD_append _ _ _ _ (by simp only [whitenedByte] at hlen; rw [hlen]; omega)]
  exact getD_flatMap_range _ 2 (fun _ => rfl) 0 _ i j hi hj

theorem getD_nibbleStream_crc (j : ℕ) (hcrc : p.hasCrc = true) :
    (nibbleStream p payload).getD (5 + 2 * payload.length + j) 0
      = [(payloadCrc payload &&& 0x000F).toNat, ((payloadCrc payload &&& 0x00F0) >>> 4).toNat,
          ((payloadCrc payload &&& 0x0F00) >>> 8).toNat,
          ((payloadCrc payload &&& 0xF000) >>> 12).toNat].getD j 0 := by
  have hlen := length_payloadNibbles payload
  simp only [whitenedByte] at hlen
  unfold nibbleStream
  simp only [List.append_assoc, hcrc, if_true]
  rw [List.getD_append_right _ _ _ _ (by rw [length_buildHeader]; omega), length_buildHeader,
    List.getD_append_right _ _ _ _ (by rw [hlen]; omega), hlen]
  congr 1
  omega

end Stream

/-- The header has nibbles. -/
theorem lt_of_mem_buildHeader {len cr : ℕ} (hlen : len ≤ 255) (hcr : cr ≤ 4) {hasCrc : Bool}
    {n : ℕ} (hn : n ∈ buildHeader len cr hasCrc) : n < 16 := by
  have hmask : ∀ x, u8 (x &&& 0x0F) < 16 := fun x =>
    lt_of_le_of_lt (Nat.mod_le _ _) (Nat.and_lt_two_pow x (by norm_num : 0x0F < 2 ^ 4))
  have hmask1 : ∀ x, u8 (x &&& 0x1) < 16 := fun x =>
    lt_of_le_of_lt (Nat.mod_le _ _)
      (lt_trans (Nat.and_lt_two_pow x (by norm_num : 0x1 < 2 ^ 1)) (by norm_num))
  simp only [buildHeader, List.mem_cons, List.not_mem_nil, or_false] at hn
  rcases hn with rfl | rfl | rfl | rfl | rfl
  · rw [Nat.shiftRight_eq_div_pow]
    exact lt_of_le_of_lt (Nat.mod_le _ _) (by omega)
  · exact hmask _
  · have h : ∀ c ≤ 4, ∀ b : Bool, u8 ((c <<< 1) ||| b.toNat) < 16 := by decide
    exact h _ hcr _
  · exact hmask1 _
  · exact hmask _

/-- A nibble cut out of the CRC. -/
theorem crc_nibble_lt (x m : UInt16) {k : ℕ} (hm : m.toNat < 2 ^ (k + 4)) :
    (x &&& m).toNat >>> k < 16 := by
  have h := Nat.and_lt_two_pow x.toNat hm
  rw [UInt16.toNat_and, Nat.shiftRight_eq_div_pow, Nat.div_lt_iff_lt_mul (by positivity)]
  rw [pow_add] at h
  omega

/-- Every entry of the stream is a nibble. -/
theorem nibbleStream_lt (p : LoraParams) (payload : List UInt8) (hcr : p.cr ≤ 4)
    (hlen : payload.length ≤ 255) (i : ℕ) : (nibbleStream p payload).getD i 0 < 16 := by
  rw [List.getD_eq_getElem?_getD]
  rcases hget : (nibbleStream p payload)[i]? with - | n
  · show 0 < 16
    omega
  · show n < 16
    have hmem : n ∈ nibbleStream p payload := List.mem_of_getElem? hget
    have hu8 : u8 payload.length = payload.length := Nat.mod_eq_of_lt (by omega)
    unfold nibbleStream at hmem
    simp only [List.mem_append] at hmem
    rcases hmem with (hmem | hmem) | hmem
    · rw [hu8] at hmem
      exact lt_of_mem_buildHeader hlen hcr hmem
    · simp only [List.mem_flatMap, List.mem_cons, List.not_mem_nil, or_false] at hmem
      obtain ⟨i, -, rfl | rfl⟩ := hmem
      · rw [UInt8.toNat_and]
        exact Nat.and_lt_two_pow _ (by decide : (0x0F : UInt8).toNat < 2 ^ 4)
      · rw [UInt8.toNat_shiftRight, Nat.shiftRight_eq_div_pow]
        have h := (payload.getD i 0 ^^^ whitening i).toNat_lt
        show _ / 2 ^ 4 < 16
        omega
    · by_cases hcrc : p.hasCrc = true
      · rw [if_pos hcrc] at hmem
        simp only [List.mem_cons, List.not_mem_nil, or_false] at hmem
        rcases hmem with rfl | rfl | rfl | rfl
        · exact crc_nibble_lt (k := 0) _ _ (by decide)
        · exact crc_nibble_lt (k := 4) _ _ (by decide)
        · exact crc_nibble_lt (k := 8) _ _ (by decide)
        · exact crc_nibble_lt (k := 12) _ _ (by decide)
      · rw [if_neg hcrc] at hmem
        simp at hmem

/-! ## Payload and CRC -/

/-- A byte from its two nibbles. -/
theorem byte_of_nibbles (w : UInt8) :
    UInt8.ofNat (((w &&& 0x0F).toNat &&& 0x0F) ||| ((w >>> 4).toNat <<< 4)) = w := by
  have h : ∀ n < 256, UInt8.ofNat (((UInt8.ofNat n &&& 0x0F).toNat &&& 0x0F)
      ||| ((UInt8.ofNat n >>> 4).toNat <<< 4)) = UInt8.ofNat n := by decide +kernel
  have hw := h w.toNat w.toNat_lt
  rwa [UInt8.ofNat_toNat] at hw

/-- The CRC from its four nibbles. -/
theorem crc_of_nibbles (c : UInt16) :
    UInt16.ofNat (((c &&& 0x000F).toNat &&& 0x0F) ||| (((c &&& 0x00F0) >>> 4).toNat <<< 4)
      ||| (((c &&& 0x0F00) >>> 8).toNat <<< 8) ||| (((c &&& 0xF000) >>> 12).toNat <<< 12)) = c := by
  have hlt := c.toNat_lt
  have hnat : ((c &&& 0x000F).toNat &&& 0x0F) ||| (((c &&& 0x00F0) >>> 4).toNat <<< 4)
      ||| (((c &&& 0x0F00) >>> 8).toNat <<< 8) ||| (((c &&& 0xF000) >>> 12).toNat <<< 12)
      = c.toNat := by
    apply Nat.eq_of_testBit_eq
    intro i
    rcases Nat.lt_or_ge i 16 with hi | hi
    · simp only [UInt16.toNat_and, UInt16.toNat_shiftRight, Nat.testBit_or, Nat.testBit_and,
        Nat.testBit_shiftLeft, Nat.testBit_shiftRight]
      interval_cases i <;> simp [Nat.testBit]
    · have hpow : 2 ^ 16 ≤ 2 ^ i := Nat.pow_le_pow_right (by norm_num) hi
      have hzero : c.toNat.testBit i = false := Nat.testBit_lt_two_pow (by omega)
      have hmask : Nat.testBit 0x0F i = false := Nat.testBit_lt_two_pow (by omega)
      simp only [UInt16.toNat_and, UInt16.toNat_shiftRight, Nat.testBit_or, Nat.testBit_and,
        Nat.testBit_shiftLeft, Nat.testBit_shiftRight, hzero, hmask]
      simp only [show UInt16.toNat 4 % 16 = 4 from rfl, show UInt16.toNat 8 % 16 = 8 from rfl,
        show UInt16.toNat 12 % 16 = 12 from rfl, show 4 + (i - 4) = i by omega,
        show 8 + (i - 8) = i by omega, show 12 + (i - 12) = i by omega, hzero, Bool.false_and,
        Bool.and_false, Bool.or_false]
  rw [hnat, UInt16.ofNat_toNat]

/-- What the receiver of a whole frame returns. -/
def frameResult (p : LoraParams) (payload : List UInt8) (symbolsConsumed : ℕ) : DecodeResult where
  header := sentHeader p payload
  crcOk := true
  crcExpected := if p.hasCrc then payloadCrc payload else 0
  crcReceived := if p.hasCrc then payloadCrc payload else 0
  payload := payload
  symbolsConsumed := symbolsConsumed

section Finish

variable (p : LoraParams) (payload : List UInt8) (nibbles : List ℕ)
  (hn : ∀ i < frameNibbles p.hasCrc payload.length,
    nibbles.getD i 0 = (nibbleStream p payload).getD i 0)
include hn

/-- The payload bytes `finishPayload` assembles. -/
theorem payload_of_nibbles :
    ((List.range payload.length).map fun i =>
      UInt8.ofNat ((nibbles.getD (5 + 2 * i) 0 &&& 0x0F) ||| (nibbles.getD (5 + 2 * i + 1) 0 <<< 4))
        ^^^ whitening i) = payload := by
  apply List.ext_getElem
  · simp
  · intro i h1 h2
    have hlo : nibbles.getD (5 + 2 * i) 0 = (whitenedByte payload i &&& 0x0F).toNat := by
      have h := getD_nibbleStream_payload p payload i 0 h2 (by omega)
      rw [hn _ (by unfold frameNibbles; omega), show 5 + 2 * i = 5 + (i * 2 + 0) by ring]
      exact h
    have hhi : nibbles.getD (5 + 2 * i + 1) 0 = (whitenedByte payload i >>> 4).toNat := by
      have h := getD_nibbleStream_payload p payload i 1 h2 (by omega)
      rw [hn _ (by unfold frameNibbles; omega), show 5 + 2 * i + 1 = 5 + (i * 2 + 1) by ring]
      exact h
    simp only [List.getElem_map, List.getElem_range]
    -- whitening twice with one byte cancels
    rw [hlo, hhi, byte_of_nibbles, whitenedByte, UInt8.xor_assoc, UInt8.xor_self, UInt8.xor_zero,
      List.getD_eq_getElem _ _ h2]

/-- The CRC `finishPayload` assembles. -/
theorem crc_of_stream (hcrc : p.hasCrc = true) :
    UInt16.ofNat ((nibbles.getD (5 + 2 * payload.length) 0 &&& 0x0F)
      ||| (nibbles.getD (5 + 2 * payload.length + 1) 0 <<< 4)
      ||| (nibbles.getD (5 + 2 * payload.length + 2) 0 <<< 8)
      ||| (nibbles.getD (5 + 2 * payload.length + 3) 0 <<< 12)) = payloadCrc payload := by
  have hget : ∀ j < 4, nibbles.getD (5 + 2 * payload.length + j) 0
      = (nibbleStream p payload).getD (5 + 2 * payload.length + j) 0 := by
    intro j hj
    refine hn _ ?_
    rw [frameNibbles, hcrc]
    simp only [if_true]
    omega
  have h0 := hget 0 (by omega)
  rw [add_zero] at h0
  rw [h0, hget 1 (by omega), hget 2 (by omega), hget 3 (by omega),
    ← Nat.add_zero (5 + 2 * payload.length), getD_nibbleStream_crc p payload 0 hcrc,
    Nat.add_zero, getD_nibbleStream_crc p payload 1 hcrc,
    getD_nibbleStream_crc p payload 2 hcrc, getD_nibbleStream_crc p payload 3 hcrc]
  exact crc_of_nibbles _

/-- **Payload and CRC round trip.** -/
theorem finishPayload_nibbleStream (consumed : ℕ) :
    finishPayload nibbles { header := sentHeader p payload, symbolsConsumed := consumed }
      = frameResult p payload consumed := by
  have hpay := payload_of_nibbles p payload nibbles hn
  unfold finishPayload frameResult
  simp only [sentHeader, hpay]
  by_cases hcrc : p.hasCrc = true
  · have hc := crc_of_stream p payload nibbles hn hcrc
    simp only [hcrc, if_true, hc, beq_self_eq_true]
  · simp only [hcrc, Bool.false_eq_true, if_false]

end Finish

/-! ## Frames whose blocks all decode -/

/-- Every block of `raw` decodes to the nibbles `encodeFrame` put into it. -/
structure BlocksDecode (p : LoraParams) (payload : List UInt8) (raw : List UInt16) : Prop where
  header : decodeBlock p true 4 (raw.take 8)
    = (List.range (sfAppOf p true)).map fun i => (nibbleStream p payload).getD i 0
  data : ∀ k < dataBlockCount p (nibbleStream p payload).length,
    decodeBlock p false p.cr (dataBlock p.cr raw k)
      = (List.range (sfAppOf p false)).map fun i =>
          (nibbleStream p payload).getD (p.spreadingFactor - 2 + k * sfAppOf p false + i) 0

section Frame

variable {p : LoraParams} (hp : LegalParams p) {payload : List UInt8}
  (hlen : 1 ≤ payload.length) (hlen' : payload.length ≤ 255)
include hp hlen hlen'

/-- The header block of a frame carries its header. -/
theorem parseHeader_sent (raw : List UInt16)
    (hhead : decodeBlock p true 4 (raw.take 8)
      = (List.range (sfAppOf p true)).map fun i => (nibbleStream p payload).getD i 0) :
    parseHeader (decodeBlock p true 4 (raw.take 8)) = sentHeader p payload := by
  have hu8 : u8 payload.length = payload.length := Nat.mod_eq_of_lt (by omega)
  have happ := (sfAppOf_bounds hp true).1
  refine parseHeader_of_buildHeader payload.length p.cr p.hasCrc hlen hlen' hp.cr_ge hp.cr_le _ ?_
  intro i hi
  rw [hhead, getD_map_range _ _ _ _ (by omega), getD_nibbleStream_header p payload i hi, hu8]

/-- **`decodeFrame` on a vector whose blocks decode.** -/
theorem decodeFrame_of_blocks (raw : List UInt16)
    (hraw : 8 + dataBlockCount p (nibbleStream p payload).length * (p.cr + 4) ≤ raw.length)
    (hblocks : BlocksDecode p payload raw) :
    decodeFrame p raw = frameResult p payload
      (8 + dataBlockCount p (nibbleStream p payload).length * (p.cr + 4)) := by
  have hsf := hp.sf_ge
  have hhdr := parseHeader_sent hp hlen hlen' raw hblocks.header
  have hlenS := length_nibbleStream p payload
  have hcount : headerBlocks p (sentHeader p payload)
      = dataBlockCount p (nibbleStream p payload).length := by
    rw [hlenS]
    rfl
  have hneed := (dataBlockCount_spec p (nibbleStream p payload).length
    (by have := (sfAppOf_bounds hp false).1; omega)).1
  have hfirst : sfAppOf p true = p.spreadingFactor - 2 := by simp [sfAppOf]
  -- block by block, the nibbles read are those of the stream
  have hdata : dataNibbles p p.cr raw (dataBlockCount p (nibbleStream p payload).length)
      = (List.range (dataBlockCount p (nibbleStream p payload).length)).flatMap fun k =>
          (List.range (sfAppOf p false)).map fun i =>
            (nibbleStream p payload).getD (p.spreadingFactor - 2 + k * sfAppOf p false + i) 0 := by
    unfold dataNibbles
    rw [List.flatMap_def, List.flatMap_def]
    congr 1
    apply List.map_congr_left
    intro k hk
    exact hblocks.data k (List.mem_range.mp hk)
  rw [decodeFrame_full (by omega) raw (sentHeader p payload) hhdr rfl (by omega)
    (by rw [hcount]; exact hraw), hcount]
  show finishPayload (_ ++ dataNibbles p p.cr raw _) _ = _
  rw [hblocks.header, hdata, hfirst,
    map_range_append_flatMap (fun i => (nibbleStream p payload).getD i 0)]
  refine finishPayload_nibbleStream p payload _ ?_ _
  intro i hi
  rw [getD_map_range _ _ _ _ (by omega)]

omit hlen in
/-- The block `k` of an agreeing vector decodes, at most symbol `i₀` of it wrong. -/
theorem decodeBlock_data (raw : List UInt16) (k i₀ : ℕ)
    (hraw : raw.length = (encodeFrame p payload).length)
    (hk : k < dataBlockCount p (nibbleStream p payload).length)
    (hagree : ∀ i < p.cr + 4, i ≠ i₀ → raw.getD (8 + k * (p.cr + 4) + i) 0
      = (encodeFrame p payload).getD (8 + k * (p.cr + 4) + i) 0)
    (hrate : 3 ≤ p.cr ∨ p.cr + 4 ≤ i₀) :
    decodeBlock p false p.cr (dataBlock p.cr raw k)
      = (List.range (sfAppOf p false)).map fun i =>
          (nibbleStream p payload).getD (p.spreadingFactor - 2 + k * sfAppOf p false + i) 0 := by
  have hfl := length_encodeFrame_blocks hp payload
  have hkle : (k + 1) * (p.cr + 4)
      ≤ dataBlockCount p (nibbleStream p payload).length * (p.cr + 4) :=
    Nat.mul_le_mul_right _ hk
  rw [Nat.add_mul, one_mul] at hkle
  refine decodeBlock_encodeBlock hp (nibbleStream p payload) _ false (dataBlock p.cr raw k) i₀
    (nibbleStream_lt p payload hp.cr_le hlen') ?_ ?_ hrate
  · show (dataBlock p.cr raw k).length = p.cr + 4
    simp only [dataBlock, List.length_take, List.length_drop]
    omega
  · intro i hi hne
    have hi' : i < p.cr + 4 := hi
    rw [dataBlock, getD_drop_take _ _ _ _ _ hi', hagree i hi' hne,
      getD_encodeFrame_data hp payload k i hk hi']

omit hlen in
/-- The header block of a vector with at most symbol `i₀` of it wrong. -/
theorem decodeBlock_header (raw : List UInt16) (i₀ : ℕ)
    (hraw : raw.length = (encodeFrame p payload).length)
    (hagree : ∀ i < 8, i ≠ i₀ → raw.getD i 0 = (encodeFrame p payload).getD i 0) :
    decodeBlock p true 4 (raw.take 8)
      = (List.range (sfAppOf p true)).map fun i => (nibbleStream p payload).getD i 0 := by
  have hfl := length_encodeFrame_blocks hp payload
  have h := decodeBlock_encodeBlock hp (nibbleStream p payload) 0 true (raw.take 8) i₀
    (nibbleStream_lt p payload hp.cr_le hlen') ?_ ?_ (Or.inl (show 3 ≤ 4 by omega))
  · rw [show (blockRate p true) = 4 from rfl] at h
    rw [h]
    simp only [zero_add]
  · show (raw.take 8).length = 8
    rw [List.length_take]
    omega
  · intro i hi hne
    have hi' : i < 8 := hi
    have h0 := getD_drop_take raw 0 8 i 0 hi'
    rw [List.drop_zero, zero_add] at h0
    rw [h0, hagree i hi' hne, getD_encodeFrame_header hp payload i hi']

/-- The bit chain on an untouched frame. -/
theorem decodeFrame_encodeFrame :
    decodeFrame p (encodeFrame p payload)
      = frameResult p payload (encodeFrame p payload).length := by
  rw [length_encodeFrame_blocks hp payload]
  -- no symbol is wrong: the exception lies past the end of each block
  refine decodeFrame_of_blocks hp hlen hlen' _ (length_encodeFrame_blocks hp payload).ge ⟨?_, ?_⟩
  · exact decodeBlock_header hp hlen' _ 8 rfl (fun i _ _ => rfl)
  · intro k hk
    exact decodeBlock_data hp hlen' _ k (p.cr + 4) rfl hk (fun i _ _ => rfl) (Or.inr le_rfl)

omit hlen hlen' in
/-- Every chip of a frame is a chirp value. -/
theorem encodeFrame_lt (payload : List UInt8) :
    ∀ c ∈ encodeFrame p payload, c.toNat < 2 ^ p.spreadingFactor := by
  intro c hc
  rw [encodeFrame_eq hp, List.mem_append, List.mem_flatMap] at hc
  rcases hc with hc | ⟨k, -, hc⟩
  · exact encodeBlock_lt hp _ _ _ c hc
  · exact encodeBlock_lt hp _ _ _ c hc

/-- **Round trip.**  Every payload of 1 to 255 bytes comes back from the chips of its
frame, with its header and a good CRC, and every chip is a chirp value. -/
theorem encodeFrame_roundTrip :
    (decodeFrame p (encodeFrame p payload)).header
        = { valid := true, payloadLen := payload.length, cr := p.cr, hasCrc := p.hasCrc } ∧
      (decodeFrame p (encodeFrame p payload)).crcOk = true ∧
      (decodeFrame p (encodeFrame p payload)).payload = payload ∧
      (decodeFrame p (encodeFrame p payload)).symbolsConsumed = (encodeFrame p payload).length ∧
      ∀ c ∈ encodeFrame p payload, c.toNat < 2 ^ p.spreadingFactor := by
  rw [decodeFrame_encodeFrame hp hlen hlen']
  exact ⟨rfl, rfl, rfl, rfl, encodeFrame_lt hp payload⟩

end Frame

/-- The longest frame at the lowest spreading factor and rate. -/
theorem encodeFrame_roundTrip_sf7 :
    (decodeFrame { spreadingFactor := 7, ldro := true } (encodeFrame
      { spreadingFactor := 7, ldro := true } (List.replicate 255 0xA5))).payload
      = List.replicate 255 0xA5 :=
  (encodeFrame_roundTrip (p := { spreadingFactor := 7, ldro := true })
    ⟨by decide, by decide, by decide, by decide⟩
    (show 1 ≤ (List.replicate 255 (0xA5 : UInt8)).length by rw [List.length_replicate]; omega)
    (by rw [List.length_replicate])).2.2.1

/-! ## One wrong symbol per interleaver block -/

/-- The interleaver block of symbol `i`: the header's eight symbols, then groups of
`cr + 4`. -/
def blockOf (cr i : ℕ) : ℕ := if i < 8 then 0 else 1 + (i - 8) / (cr + 4)

/-- `raw` differs from `sent` in at most one symbol of each interleaver block. -/
def OneWrongPerBlock (cr : ℕ) (sent raw : List UInt16) : Prop :=
  ∀ i < sent.length, ∀ j < sent.length, blockOf cr i = blockOf cr j ∧
    raw.getD i 0 ≠ sent.getD i 0 ∧ raw.getD j 0 ≠ sent.getD j 0 → i = j

instance (cr : ℕ) (sent raw : List UInt16) : Decidable (OneWrongPerBlock cr sent raw) :=
  inferInstanceAs (Decidable (∀ i < sent.length, ∀ j < sent.length, _ ∧ _ → _))

/-- A block with at most one wrong symbol agrees everywhere but at some `i₀`. -/
theorem agree_except {cr : ℕ} {sent raw : List UInt16} (hone : OneWrongPerBlock cr sent raw)
    (start len : ℕ) (hlen : start + len ≤ sent.length)
    (hblock : ∀ i < len, ∀ j < len, blockOf cr (start + i) = blockOf cr (start + j)) :
    ∃ i₀, ∀ i < len, i ≠ i₀ → raw.getD (start + i) 0 = sent.getD (start + i) 0 := by
  by_cases hall : ∀ i < len, raw.getD (start + i) 0 = sent.getD (start + i) 0
  · exact ⟨0, fun i hi _ => hall i hi⟩
  · push Not at hall
    obtain ⟨i₀, hi₀, hne⟩ := hall
    refine ⟨i₀, ?_⟩
    intro i hi hii
    -- a second wrong symbol in the block is the first one
    by_contra hne'
    have h := hone (start + i) (by omega) (start + i₀) (by omega) ⟨hblock i hi i₀ hi₀, hne', hne⟩
    omega

theorem blockOf_data (cr k i : ℕ) (hi : i < cr + 4) : blockOf cr (8 + k * (cr + 4) + i) = 1 + k := by
  unfold blockOf
  rw [if_neg (by omega), show 8 + k * (cr + 4) + i - 8 = k * (cr + 4) + i by omega,
    Nat.add_comm (k * (cr + 4)), Nat.add_mul_div_right _ _ (by omega), Nat.div_eq_of_lt hi,
    zero_add]

/-- **Single wrong symbols.**  At coding rates 3 and 4 a frame with at most one wrong
symbol in each interleaver block decodes as if untouched; at coding rates 1 and 2 one
wrong symbol in the header block does no harm. -/
theorem decodeFrame_oneWrongPerBlock {p : LoraParams} (hp : LegalParams p)
    {payload : List UInt8} (hlen : 1 ≤ payload.length) (hlen' : payload.length ≤ 255)
    (raw : List UInt16) (hraw : raw.length = (encodeFrame p payload).length)
    (hone : OneWrongPerBlock p.cr (encodeFrame p payload) raw)
    (hrate : p.cr = 3 ∨ p.cr = 4 ∨
      ∀ i, 8 ≤ i → raw.getD i 0 = (encodeFrame p payload).getD i 0) :
    (decodeFrame p raw).header
        = { valid := true, payloadLen := payload.length, cr := p.cr, hasCrc := p.hasCrc } ∧
      (decodeFrame p raw).crcOk = true ∧ (decodeFrame p raw).payload = payload := by
  have hfl := length_encodeFrame_blocks hp payload
  have hdec := decodeFrame_of_blocks hp hlen hlen' raw (by omega) ⟨?_, ?_⟩
  · rw [hdec]
    exact ⟨rfl, rfl, rfl⟩
  · obtain ⟨i₀, hi₀⟩ := agree_except hone 0 8 (by omega)
      (fun i hi j hj => by unfold blockOf; rw [if_pos (by omega), if_pos (by omega)])
    simp only [zero_add] at hi₀
    exact decodeBlock_header hp hlen' raw i₀ hraw hi₀
  · intro k hk
    have hkle : (k + 1) * (p.cr + 4)
        ≤ dataBlockCount p (nibbleStream p payload).length * (p.cr + 4) :=
      Nat.mul_le_mul_right _ hk
    rw [Nat.add_mul, one_mul] at hkle
    -- at the lower rates the data blocks are untouched
    by_cases hcr : 3 ≤ p.cr
    · obtain ⟨i₀, hi₀⟩ := agree_except hone (8 + k * (p.cr + 4)) (p.cr + 4) (by omega)
        (fun i hi j hj => by rw [blockOf_data _ _ _ hi, blockOf_data _ _ _ hj])
      exact decodeBlock_data hp hlen' raw k i₀ hraw hk hi₀ (Or.inl hcr)
    · have hdata : ∀ i, 8 ≤ i → raw.getD i 0 = (encodeFrame p payload).getD i 0 := by
        rcases hrate with h | h | h
        · omega
        · omega
        · exact h
      exact decodeBlock_data hp hlen' raw k (p.cr + 4) hraw hk
        (fun i _ _ => hdata _ (by omega)) (Or.inr le_rfl)

/-- A frame at coding rate 3 with symbol 2 of the header block and symbol 11, in the
first data block, replaced. -/
theorem decodeFrame_oneWrongPerBlock_sf7 :
    (decodeFrame { spreadingFactor := 7, cr := 3 }
      (((encodeFrame { spreadingFactor := 7, cr := 3 } [0x42]).set 2 0xFFFF).set 11 0x1234)).payload
      = [0x42] :=
  (decodeFrame_oneWrongPerBlock (p := { spreadingFactor := 7, cr := 3 })
    ⟨by decide, by decide, by decide, by decide⟩ (show 1 ≤ [(0x42 : UInt8)].length by decide)
    (by decide) _
    (by rw [List.length_set, List.length_set]) (by decide +kernel) (Or.inl rfl)).2.2
