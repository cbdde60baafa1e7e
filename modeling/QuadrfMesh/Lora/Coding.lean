/-
# The bit-level coding chain (`src/lora/coding.cpp`)

Whitening, explicit header, payload CRC, Hamming, diagonal interleaver, Gray map
and chirp values, and the inverse path, as the source computes them.

A nibble, a codeword and a Gray word are natural numbers here; payload bytes are
`UInt8`, chirp values on the air `UInt16`.  `static_cast<uint8_t>` on a nibble or
a header field is `u8`.
-/
import QuadrfMesh.Lora.Params

/-- `static_cast<uint8_t>`. -/
def u8 (x : ℕ) : ℕ := x % 2 ^ 8

/-! ## Whitening and payload CRC -/

/-- `kWhiteningSeq`: the SX127x whitening sequence, one byte per payload byte. -/
def kWhiteningSeq : List UInt8 :=
  [0xFF, 0xFE, 0xFC, 0xF8, 0xF0, 0xE1, 0xC2, 0x85, 0x0B, 0x17, 0x2F, 0x5E, 0xBC, 0x78, 0xF1,
   0xE3, 0xC6, 0x8D, 0x1A, 0x34, 0x68, 0xD0, 0xA0, 0x40, 0x80, 0x01, 0x02, 0x04, 0x08, 0x11,
   0x23, 0x47, 0x8E, 0x1C, 0x38, 0x71, 0xE2, 0xC4, 0x89, 0x12, 0x25, 0x4B, 0x97, 0x2E, 0x5C,
   0xB8, 0x70, 0xE0, 0xC0, 0x81, 0x03, 0x06, 0x0C, 0x19, 0x32, 0x64, 0xC9, 0x92, 0x24, 0x49,
   0x93, 0x26, 0x4D, 0x9B, 0x37, 0x6E, 0xDC, 0xB9, 0x72, 0xE4, 0xC8, 0x90, 0x20, 0x41, 0x82,
   0x05, 0x0A, 0x15, 0x2B, 0x56, 0xAD, 0x5B, 0xB6, 0x6D, 0xDA, 0xB5, 0x6B, 0xD6, 0xAC, 0x59,
   0xB2, 0x65, 0xCB, 0x96, 0x2C, 0x58, 0xB0, 0x61, 0xC3, 0x87, 0x0F, 0x1F, 0x3E, 0x7D, 0xFB,
   0xF6, 0xED, 0xDB, 0xB7, 0x6F, 0xDE, 0xBD, 0x7A, 0xF5, 0xEB, 0xD7, 0xAE, 0x5D, 0xBA, 0x74,
   0xE8, 0xD1, 0xA2, 0x44, 0x88, 0x10, 0x21, 0x43, 0x86, 0x0D, 0x1B, 0x36, 0x6C, 0xD8, 0xB1,
   0x63, 0xC7, 0x8F, 0x1E, 0x3C, 0x79, 0xF3, 0xE7, 0xCE, 0x9C, 0x39, 0x73, 0xE6, 0xCC, 0x98,
   0x31, 0x62, 0xC5, 0x8B, 0x16, 0x2D, 0x5A, 0xB4, 0x69, 0xD2, 0xA4, 0x48, 0x91, 0x22, 0x45,
   0x8A, 0x14, 0x29, 0x52, 0xA5, 0x4A, 0x95, 0x2A, 0x54, 0xA9, 0x53, 0xA7, 0x4E, 0x9D, 0x3B,
   0x77, 0xEE, 0xDD, 0xBB, 0x76, 0xEC, 0xD9, 0xB3, 0x67, 0xCF, 0x9E, 0x3D, 0x7B, 0xF7, 0xEF,
   0xDF, 0xBF, 0x7E, 0xFD, 0xFA, 0xF4, 0xE9, 0xD3, 0xA6, 0x4C, 0x99, 0x33, 0x66, 0xCD, 0x9A,
   0x35, 0x6A, 0xD4, 0xA8, 0x51, 0xA3, 0x46, 0x8C, 0x18, 0x30, 0x60, 0xC1, 0x83, 0x07, 0x0E,
   0x1D, 0x3A, 0x75, 0xEA, 0xD5, 0xAA, 0x55, 0xAB, 0x57, 0xAF, 0x5F, 0xBE, 0x7C, 0xF9, 0xF2,
   0xE5, 0xCA, 0x94, 0x28, 0x50, 0xA1, 0x42, 0x84, 0x09, 0x13, 0x27, 0x4F, 0x9F, 0x3F, 0x7F]

/-- The whitening byte for payload index `i`, `kWhiteningSeq[i % sizeof(kWhiteningSeq)]`. -/
def whitening (i : ℕ) : UInt8 := kWhiteningSeq.getD (i % 255) 0

/-- `crc16`: CRC16, polynomial 0x1021, MSB first, one byte. -/
def crc16 (crc : UInt16) (byte : UInt8) : UInt16 :=
  ((List.range 8).foldl (fun (s : UInt16 × UInt8) _ =>
    let crc := if ((s.1 &&& 0x8000) >>> 8) ^^^ (s.2 &&& 0x80).toUInt16 ≠ 0 then
        (s.1 <<< 1) ^^^ 0x1021
      else s.1 <<< 1
    (crc, s.2 <<< 1)) (crc, byte)).1

/-- `payloadCrc`: CRC16 over the first `len - 2` bytes, the last two XORed in. -/
def payloadCrc (payload : List UInt8) : UInt16 :=
  let len := payload.length
  if len < 2 then payload.foldl crc16 0x0000
  else
    (payload.take (len - 2)).foldl crc16 0x0000 ^^^ (payload.getD (len - 1) 0).toUInt16
      ^^^ ((payload.getD (len - 2) 0).toUInt16 <<< 8)

/-! ## Explicit header -/

/-- `headerChecksum`: the five parity bits over the first three header nibbles. -/
def headerChecksum (h0 h1 h2 : ℕ) : ℕ :=
  let c4 := h0.testBit 3 ^^ h0.testBit 2 ^^ h0.testBit 1 ^^ h0.testBit 0
  let c3 := h0.testBit 3 ^^ h1.testBit 3 ^^ h1.testBit 2 ^^ h1.testBit 1 ^^ h2.testBit 0
  let c2 := h0.testBit 2 ^^ h1.testBit 3 ^^ h1.testBit 0 ^^ h2.testBit 3 ^^ h2.testBit 1
  let c1 := h0.testBit 1 ^^ h1.testBit 2 ^^ h1.testBit 0 ^^ h2.testBit 2 ^^ h2.testBit 1
    ^^ h2.testBit 0
  let c0 := h0.testBit 0 ^^ h1.testBit 1 ^^ h2.testBit 3 ^^ h2.testBit 2 ^^ h2.testBit 1
    ^^ h2.testBit 0
  (c4.toNat <<< 4) ||| (c3.toNat <<< 3) ||| (c2.toNat <<< 2) ||| (c1.toNat <<< 1) ||| c0.toNat

/-- `buildHeader`: nibbles len_hi, len_lo, cr and CRC flag, chk_hi, chk_lo. -/
def buildHeader (payloadLen cr : ℕ) (hasCrc : Bool) : List ℕ :=
  let h0 := u8 (payloadLen >>> 4)
  let h1 := u8 (payloadLen &&& 0x0F)
  let h2 := u8 ((cr <<< 1) ||| hasCrc.toNat)
  let chk := headerChecksum h0 h1 h2
  [h0, h1, h2, u8 ((chk >>> 4) &&& 0x1), u8 (chk &&& 0x0F)]

/-- `struct HeaderInfo`. -/
structure HeaderInfo where
  valid : Bool := false
  payloadLen : ℕ := 0
  cr : ℕ := 0
  hasCrc : Bool := false
  deriving DecidableEq, Repr

/-- `parseHeader` on the first five decoded nibbles. -/
def parseHeader (n : List ℕ) : HeaderInfo :=
  let payloadLen := u8 ((n.getD 0 0 <<< 4) ||| (n.getD 1 0 &&& 0x0F))
  let hasCrc := decide (n.getD 2 0 &&& 0x1 ≠ 0)
  let cr := u8 ((n.getD 2 0 >>> 1) &&& 0x7)
  let chkRx := u8 (((n.getD 3 0 &&& 0x1) <<< 4) ||| (n.getD 4 0 &&& 0x0F))
  let chk := headerChecksum (n.getD 0 0) (n.getD 1 0) (n.getD 2 0)
  { valid := chkRx == chk && payloadLen != 0 && decide (1 ≤ cr) && decide (cr ≤ 4)
    payloadLen, cr, hasCrc }

/-! ## Hamming -/

/-- `hammingEncode`: nibble to a codeword of `4 + crApp` bits, MSB first
`b0 b1 b2 b3 p0 p1 p2 p3` truncated; one parity bit for `crApp = 1`. -/
def hammingEncode (nibble crApp : ℕ) : ℕ :=
  let b0 := nibble.testBit 0
  let b1 := nibble.testBit 1
  let b2 := nibble.testBit 2
  let b3 := nibble.testBit 3
  if crApp = 1 then
    let p4 := b0 ^^ b1 ^^ b2 ^^ b3
    (b0.toNat <<< 4) ||| (b1.toNat <<< 3) ||| (b2.toNat <<< 2) ||| (b3.toNat <<< 1) ||| p4.toNat
  else
    let p0 := b0 ^^ b1 ^^ b2
    let p1 := b1 ^^ b2 ^^ b3
    let p2 := b0 ^^ b1 ^^ b3
    let p3 := b0 ^^ b2 ^^ b3
    let full := (b0.toNat <<< 7) ||| (b1.toNat <<< 6) ||| (b2.toNat <<< 5) ||| (b3.toNat <<< 4)
      ||| (p0.toNat <<< 3) ||| (p1.toNat <<< 2) ||| (p2.toNat <<< 1) ||| p3.toNat
    full >>> (4 - crApp)

/-- Data bits of a codeword as `hammingDecode` returns them: d3 d2 d1 d0. -/
def packNibble (d0 d1 d2 d3 : Bool) : ℕ :=
  (d3.toNat <<< 3) ||| (d2.toNat <<< 2) ||| (d1.toNat <<< 1) ||| d0.toNat

/-- `hammingDecode`: single-error correction at `crApp` 3 and 4 (at 4 only when
the popcount is odd), plain data bits at 1 and 2. -/
def hammingDecode (codeword crApp : ℕ) : ℕ :=
  let cwLen := crApp + 4
  let c := fun i => decide (i < cwLen) && codeword.testBit (cwLen - 1 - i)
  let popcount := ((List.range cwLen).map fun i => (c i).toNat).sum
  if (crApp = 4 ∧ popcount % 2 ≠ 0) ∨ crApp = 3 then
    let s0 := c 0 ^^ c 1 ^^ c 2 ^^ c 4
    let s1 := c 1 ^^ c 2 ^^ c 3 ^^ c 5
    let s2 := c 0 ^^ c 1 ^^ c 3 ^^ c 6
    match s0.toNat + (s1.toNat <<< 1) + (s2.toNat <<< 2) with
    | 5 => packNibble (!c 0) (c 1) (c 2) (c 3)
    | 7 => packNibble (c 0) (!c 1) (c 2) (c 3)
    | 3 => packNibble (c 0) (c 1) (!c 2) (c 3)
    | 6 => packNibble (c 0) (c 1) (c 2) (!c 3)
    | _ => packNibble (c 0) (c 1) (c 2) (c 3)
  else packNibble (c 0) (c 1) (c 2) (c 3)

/-! ## Gray map and reduced-rate values -/

/-- `grayDecode`: Gray to binary by prefix XOR. -/
def grayDecode (g bits : ℕ) : ℕ :=
  (List.range' 1 (bits - 1)).foldl (fun b j => b ^^^ (g >>> j)) g

/-- `grayEncode`: binary to Gray. -/
def grayEncode (b : ℕ) : ℕ := b ^^^ (b >>> 1)

/-- `reducedValue`: the value a reduced-rate symbol carries. -/
def reducedValue (raw nChips : ℕ) : ℕ := (raw % nChips) >>> 2

/-! ## Diagonal interleaver -/

/-- The codeword that carries bit `j` of symbol `i`,
`((i - j - 1) % sf_app + sf_app) % sf_app` with the truncated `%` of the source. -/
def diag (sfApp i j : ℕ) : ℕ :=
  ((((i : ℤ) - j - 1).tmod sfApp + sfApp).tmod sfApp).toNat

/-- `interleaveBlock`: `sfApp` codewords of `cwLen` bits to `cwLen` symbols; a
reduced-rate symbol gets a parity bit and zeros up to `sf` bits. -/
def interleaveBlock (cw : List ℕ) (sf sfApp cwLen : ℕ) (reduced : Bool) : List UInt16 :=
  (List.range cwLen).map fun i =>
    let acc := (List.range sfApp).foldl (fun (s : ℕ × ℕ) j =>
      let bit := (cw.getD (diag sfApp i j) 0 >>> (cwLen - 1 - i)) &&& 0x1
      ((s.1 <<< 1) ||| bit, s.2 + bit)) (0, 0)
    let sym := if reduced then ((acc.1 <<< 1) ||| (acc.2 % 2)) <<< (sf - sfApp - 1) else acc.1
    UInt16.ofNat sym

/-- The inner loop of `deinterleaveBlock`: OR the bits of symbol `i` into their
codewords. -/
def deinterleaveSymbol (symbol : UInt16) (sfApp cwLen i : ℕ) (out : List ℕ) : List ℕ :=
  (List.range sfApp).foldl (fun out j =>
    let bit := (symbol.toNat >>> (sfApp - 1 - j)) &&& 0x1
    out.modify (diag sfApp i j) fun w => u8 (w ||| (bit <<< (cwLen - 1 - i)))) out

/-- `deinterleaveBlock`: `cwLen` symbols to `sfApp` codewords. -/
def deinterleaveBlock (symbols : List UInt16) (sfApp cwLen : ℕ) : List ℕ :=
  (List.range cwLen).foldl (fun out i =>
    deinterleaveSymbol (symbols.getD i 0) sfApp cwLen i out) (List.replicate sfApp 0)

/-! ## Frames -/

/-- Data bits per symbol of a block: `sf_app`. -/
def sfAppOf (p : LoraParams) (firstBlock : Bool) : ℕ :=
  if firstBlock || p.ldro then p.spreadingFactor - 2 else p.spreadingFactor

/-- `frameSymbolCount`: data symbols (header block included) of a frame. -/
def frameSymbolCount (p : LoraParams) (payloadLen : ℕ) : ℕ :=
  let nibbles := 5 + 2 * payloadLen + (if p.hasCrc then 4 else 0)
  let firstBlock := p.spreadingFactor - 2
  if nibbles ≤ firstBlock then 8
  else
    let sfApp := if p.ldro then p.spreadingFactor - 2 else p.spreadingFactor
    let rest := nibbles - firstBlock
    let blocks := (rest + sfApp - 1) / sfApp
    8 + blocks * (p.cr + 4)

/-- The nibble stream of `encodeFrame`: header, whitened payload (low nibble
first), CRC. -/
def nibbleStream (p : LoraParams) (payload : List UInt8) : List ℕ :=
  let header := buildHeader (u8 payload.length) p.cr p.hasCrc
  let body := (List.range payload.length).flatMap fun i =>
    let w := payload.getD i 0 ^^^ whitening i
    [(w &&& 0x0F).toNat, (w >>> 4).toNat]
  let tail := if p.hasCrc then
      let crc := payloadCrc payload
      [(crc &&& 0x000F).toNat, ((crc &&& 0x00F0) >>> 4).toNat, ((crc &&& 0x0F00) >>> 8).toNat,
        ((crc &&& 0xF000) >>> 12).toNat]
    else []
  header ++ body ++ tail

/-- One pass of `encodeFrame`'s block loop: the chips of the block that starts at
nibble `idx`; nibbles past the end of the stream are 0. -/
def encodeBlock (p : LoraParams) (nibbles : List ℕ) (idx : ℕ) (firstBlock : Bool) :
    List UInt16 :=
  let sf := p.spreadingFactor
  let reduced := firstBlock || p.ldro
  let crApp := if firstBlock then 4 else p.cr
  let cwLen := u8 (crApp + 4)
  let sfApp := sfAppOf p firstBlock
  let cw := (List.range sfApp).map fun i => hammingEncode (nibbles.getD (idx + i) 0) crApp
  (interleaveBlock cw sf sfApp cwLen reduced).map fun s =>
    UInt16.ofNat ((grayDecode s.toNat sf + 1) % chipCount p)

/-- The block loop of `encodeFrame`, on `fuel` passes at most. -/
def encodeBlocks (p : LoraParams) (nibbles : List ℕ) : ℕ → ℕ → Bool → List UInt16
  | 0, _, _ => []
  | fuel + 1, idx, firstBlock =>
      if idx < nibbles.length then
        encodeBlock p nibbles idx firstBlock
          ++ encodeBlocks p nibbles fuel (idx + sfAppOf p firstBlock) false
      else []

/-- `encodeFrame`: payload bytes to chirp values. -/
def encodeFrame (p : LoraParams) (payload : List UInt8) : List UInt16 :=
  let nibbles := nibbleStream p payload
  encodeBlocks p nibbles nibbles.length 0 true

/-- `struct DecodeResult`. -/
structure DecodeResult where
  header : HeaderInfo := {}
  crcOk : Bool := false
  crcExpected : UInt16 := 0
  crcReceived : UInt16 := 0
  payload : List UInt8 := []
  symbolsConsumed : ℕ := 0
  /-- Soft decode only. -/
  tailMargin : ℚ := 10 ^ 300
  deriving DecidableEq, Repr

/-- `finishPayload`: nibble stream to payload bytes and CRC check. -/
def finishPayload (nibbles : List ℕ) (result : DecodeResult) : DecodeResult :=
  let len := result.header.payloadLen
  let payload := (List.range len).map fun i =>
    let w := UInt8.ofNat
      ((nibbles.getD (5 + 2 * i) 0 &&& 0x0F) ||| (nibbles.getD (5 + 2 * i + 1) 0 <<< 4))
    w ^^^ whitening i
  if result.header.hasCrc then
    let c := 5 + 2 * len
    let crcReceived := UInt16.ofNat
      ((nibbles.getD c 0 &&& 0x0F) ||| (nibbles.getD (c + 1) 0 <<< 4)
        ||| (nibbles.getD (c + 2) 0 <<< 8) ||| (nibbles.getD (c + 3) 0 <<< 12))
    let crcExpected := payloadCrc payload
    { result with payload, crcReceived, crcExpected, crcOk := crcReceived == crcExpected }
  else { result with payload, crcOk := true }

/-- One pass of `decodeFrame`'s block loop: the nibbles of one block of symbols. -/
def decodeBlock (p : LoraParams) (firstBlock : Bool) (crApp : ℕ) (block : List UInt16) :
    List ℕ :=
  let nChips := chipCount p
  let reduced := firstBlock || p.ldro
  let cwLen := u8 (crApp + 4)
  let sfApp := sfAppOf p firstBlock
  let blockSyms := block.map fun raw =>
    let v := if reduced then reducedValue raw.toNat nChips
      else (raw.toNat + nChips - 1) % nChips
    UInt16.ofNat (grayEncode v)
  (deinterleaveBlock blockSyms sfApp cwLen).map fun w => hammingDecode w crApp

/-- Nibbles a frame with header `h` carries. -/
def nibblesNeeded (h : HeaderInfo) : ℕ :=
  5 + 2 * h.payloadLen + (if h.hasCrc then 4 else 0)

/-- Loop state of `decodeFrame`. -/
structure DecodeState where
  nibbles : List ℕ := []
  symIdx : ℕ := 0
  firstBlock : Bool := true
  nibblesNeeded : ℕ
  header : HeaderInfo := {}
  deriving DecidableEq, Repr

/-- The block loop of `decodeFrame`, on `fuel` passes at most; it returns early
after the first block when the header is not valid. -/
def decodeLoop (p : LoraParams) (raw : List UInt16) : ℕ → DecodeState → DecodeState
  | 0, st => st
  | fuel + 1, st =>
      if st.nibbles.length < st.nibblesNeeded ∧ st.symIdx < raw.length then
        let crApp := if st.firstBlock then 4 else st.header.cr
        let cwLen := u8 (crApp + 4)
        -- a block cut short ends the loop
        if st.symIdx + cwLen > raw.length then st
        else
          let block := (raw.drop st.symIdx).take cwLen
          let nibbles := st.nibbles ++ decodeBlock p st.firstBlock crApp block
          let st' := { st with nibbles, symIdx := st.symIdx + cwLen }
          if st.firstBlock then
            let header := parseHeader nibbles
            -- past the first block the coding rate is the header's
            if !header.valid then { st' with header }
            else decodeLoop p raw fuel
              { st' with header, nibblesNeeded := nibblesNeeded header, firstBlock := false }
          else decodeLoop p raw fuel st'
      else st

/-- `decodeFrame`: raw demodulated chirp values to header and payload. -/
def decodeFrame (p : LoraParams) (raw : List UInt16) : DecodeResult :=
  let st := decodeLoop p raw (raw.length + 1) { nibblesNeeded := p.spreadingFactor - 2 }
  let result : DecodeResult := { header := st.header, symbolsConsumed := st.symIdx }
  if st.header.valid && decide (st.nibblesNeeded ≤ st.nibbles.length) then
    finishPayload st.nibbles result
  else result
