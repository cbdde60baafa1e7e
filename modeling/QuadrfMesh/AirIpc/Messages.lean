/-
# Air-IPC messages (`include/quadrf/air_ipc.hpp`)

Frames between the node and the PHY: magic, version, type, body length (big
endian) and body.  The node sends `TxEnqueue` and `SetModem`, the PHY sends
`RxIndicate`; their encoders and decoders are inverse to each other.
-/
import Mathlib
import QuadrfMesh.Lib.LittleEndian

/-! ## Constants -/

/-- `kMagic0`. -/
def kMagic0 : UInt8 := 0x51

/-- `kMagic1`. -/
def kMagic1 : UInt8 := 0x46

/-- `kProtocolVersion`. -/
def kProtocolVersion : UInt8 := 1

/-- `kMinAirLen`. -/
def kMinAirLen : ℕ := 16

/-- `kMaxAirLen`. -/
def kMaxAirLen : ℕ := 255

/-- `kTxMetaLen`. -/
def kTxMetaLen : ℕ := 8

/-- `kRxMetaLen`. -/
def kRxMetaLen : ℕ := 24

/-- `kMaxBodyLen`. -/
def kMaxBodyLen : ℕ := kRxMetaLen + kMaxAirLen

/-- `enum class MsgType`. -/
inductive MsgType
  | txEnqueue | rxIndicate | setModem
  deriving DecidableEq, Repr

namespace MsgType

/-- The byte on the wire. -/
def toByte : MsgType → UInt8
  | txEnqueue => 1
  | rxIndicate => 2
  | setModem => 3

/-- `messageTypeKnown`, with the type it stands for. -/
def ofByte (b : UInt8) : Option MsgType :=
  if b = 1 then some txEnqueue
  else if b = 2 then some rxIndicate
  else if b = 3 then some setModem
  else none

@[simp] theorem ofByte_toByte (t : MsgType) : ofByte t.toByte = some t := by
  cases t <;> rfl

theorem toByte_ofByte {b : UInt8} {t : MsgType} (h : ofByte b = some t) : t.toByte = b := by
  unfold ofByte at h
  split_ifs at h with h1 h2 h3
  · rw [← Option.some.inj h, h1]
    rfl
  · rw [← Option.some.inj h, h2]
    rfl
  · rw [← Option.some.inj h, h3]
    rfl

end MsgType

/-! ## Frames -/

/-- A frame the protocol allows: a body of 1 to `kMaxBodyLen` bytes. -/
structure IpcFrame where
  type : MsgType
  body : List UInt8
  body_pos : 0 < body.length
  body_le : body.length ≤ kMaxBodyLen

/-- `detail::encodeFrame`. -/
def encodeIpcFrame (type : MsgType) (body : List UInt8) : Option (List UInt8) :=
  if body.length = 0 ∨ kMaxBodyLen < body.length then none
  else
    some ([kMagic0, kMagic1, kProtocolVersion, type.toByte,
      UInt8.ofNat ((body.length >>> 8) &&& 0xFF), UInt8.ofNat (body.length &&& 0xFF)] ++ body)

namespace IpcFrame

/-- The six header bytes. -/
def header (f : IpcFrame) : List UInt8 :=
  [kMagic0, kMagic1, kProtocolVersion, f.type.toByte,
    UInt8.ofNat ((f.body.length >>> 8) &&& 0xFF), UInt8.ofNat (f.body.length &&& 0xFF)]

/-- The bytes on the wire. -/
def bytes (f : IpcFrame) : List UInt8 := f.header ++ f.body

theorem encodeIpcFrame_eq (f : IpcFrame) : encodeIpcFrame f.type f.body = some f.bytes := by
  have h1 := f.body_pos
  have h2 := f.body_le
  unfold encodeIpcFrame
  rw [if_neg (by omega)]
  rfl

@[simp] theorem length_header (f : IpcFrame) : f.header.length = 6 := rfl

@[simp] theorem length_bytes (f : IpcFrame) : f.bytes.length = 6 + f.body.length := by
  rw [bytes, List.length_append, length_header]

end IpcFrame

/-- What `encodeFrame` accepts is a frame. -/
theorem encodeIpcFrame_eq_some {type : MsgType} {body out : List UInt8}
    (h : encodeIpcFrame type body = some out) :
    ∃ f : IpcFrame, f.type = type ∧ f.body = body ∧ out = f.bytes := by
  unfold encodeIpcFrame at h
  split at h
  · exact absurd h (by simp)
  · rename_i hlen
    exact ⟨⟨type, body, by omega, by omega⟩, rfl, rfl, (Option.some.inj h).symm⟩

/-! ## Messages of the node -/

/-- `struct TxEnqueue`. -/
structure TxEnqueue where
  freqHz : UInt64 := 0
  air : List UInt8
  deriving DecidableEq, Repr

/-- `struct SetModem`. -/
structure SetModem where
  preset : UInt8 := 0
  deriving DecidableEq, Repr

/-- `writeLe64`. -/
def writeLe64 (value : UInt64) : List UInt8 :=
  (List.range 8).map fun k => UInt8.ofNat (value.toNat >>> (8 * k))

/-- `readLe64`. -/
def readLe64 (input : List UInt8) : UInt64 :=
  UInt64.ofNat ((List.range 8).foldl (fun v k => v ||| ((input.getD k 0).toNat <<< (8 * k))) 0)

/-- `airLengthIsValid`. -/
def airLengthIsValid (length : ℕ) : Bool := decide (kMinAirLen ≤ length ∧ length ≤ kMaxAirLen)

/-- `encodeTx`. -/
def encodeTx (message : TxEnqueue) : Option (List UInt8) :=
  if !airLengthIsValid message.air.length then none
  else encodeIpcFrame .txEnqueue (writeLe64 message.freqHz ++ message.air)

/-- `decodeTx`. -/
def decodeTx (body : List UInt8) : Option TxEnqueue :=
  if body.length < kTxMetaLen then none
  else if !airLengthIsValid (body.length - kTxMetaLen) then none
  else some { freqHz := readLe64 body, air := body.drop kTxMetaLen }

/-- `encodeSetModem`. -/
def encodeSetModem (message : SetModem) : Option (List UInt8) :=
  encodeIpcFrame .setModem [message.preset]

/-- `decodeSetModem`. -/
def decodeSetModem (body : List UInt8) : Option SetModem :=
  match body with
  | [preset] => some { preset }
  | _ => none

theorem length_writeLe64 (value : UInt64) : (writeLe64 value).length = 8 := by
  simp [writeLe64]

/-- Eight bytes read back. -/
theorem readLe64_writeLe64 (value : UInt64) (rest : List UInt8) :
    readLe64 (writeLe64 value ++ rest) = value := by
  have hlt := value.toNat_lt
  show UInt64.ofNat (LittleEndian.read 8 (LittleEndian.write 8 value.toNat ++ rest)) = value
  rw [LittleEndian.read_append (by rw [LittleEndian.length_write]), LittleEndian.read_write,
    Nat.mod_eq_of_lt (by omega), UInt64.ofNat_toNat]

/-- Eight bytes written back. -/
theorem writeLe64_readLe64 {input : List UInt8} (h : 8 ≤ input.length) :
    writeLe64 (readLe64 input) = input.take 8 := by
  have hlt := LittleEndian.read_lt 8 input
  show LittleEndian.write 8 (UInt64.ofNat (LittleEndian.read 8 input)).toNat = input.take 8
  rw [UInt64.toNat_ofNat_of_lt' (by simpa using hlt), LittleEndian.write_read h]

/-- **`TxEnqueue` round trip.**  What the node encodes is a frame whose body the PHY
decodes to the message sent. -/
theorem decodeTx_encodeTx {message : TxEnqueue} {out : List UInt8}
    (h : encodeTx message = some out) :
    ∃ f : IpcFrame, f.type = .txEnqueue ∧ out = f.bytes ∧ decodeTx f.body = some message := by
  unfold encodeTx at h
  split at h
  · exact absurd h (by simp)
  · rename_i hvalid
    obtain ⟨f, htype, hbody, hout⟩ := encodeIpcFrame_eq_some h
    refine ⟨f, htype, hout, ?_⟩
    have hlen8 := length_writeLe64 message.freqHz
    rw [hbody, decodeTx, List.length_append, hlen8, if_neg (by unfold kTxMetaLen; omega),
      show 8 + message.air.length - kTxMetaLen = message.air.length by unfold kTxMetaLen; omega,
      if_neg hvalid, readLe64_writeLe64]
    rfl

/-- **`SetModem` round trip.** -/
theorem decodeSetModem_encodeSetModem {message : SetModem} {out : List UInt8}
    (h : encodeSetModem message = some out) :
    ∃ f : IpcFrame, f.type = .setModem ∧ out = f.bytes ∧ decodeSetModem f.body = some message := by
  obtain ⟨f, htype, hbody, hout⟩ := encodeIpcFrame_eq_some h
  refine ⟨f, htype, hout, ?_⟩
  rw [hbody]
  rfl

/-! ## Messages of the PHY -/

/-- `struct RxIndicate`, its metrics as the hundredths the wire carries. -/
structure RxIndicate where
  snrCenti : Int16 := 0
  rssiDbm : Int16 := 0
  cfoHz : Int32 := 0
  rateCenti : Int32 := 0
  freqHz : UInt64 := 0
  sirCenti : Int16 := 0
  lvlCenti : Int16 := 0
  air : List UInt8
  deriving DecidableEq

/-- `writeLe16`. -/
def writeLe16 (value : UInt16) : List UInt8 :=
  [UInt8.ofNat value.toNat, UInt8.ofNat (value.toNat >>> 8)]

/-- `readLe16`. -/
def readLe16 (input : List UInt8) : UInt16 :=
  UInt16.ofNat ((input.getD 0 0).toNat ||| ((input.getD 1 0).toNat <<< 8))

/-- `writeLe32`. -/
def writeLe32 (value : UInt32) : List UInt8 :=
  (List.range 4).map fun k => UInt8.ofNat (value.toNat >>> (8 * k))

/-- `readLe32`. -/
def readLe32 (input : List UInt8) : UInt32 :=
  UInt32.ofNat ((List.range 4).foldl (fun v k => v ||| ((input.getD k 0).toNat <<< (8 * k))) 0)

/-- The eight metadata fields of `encodeRx`, in their order on the wire. -/
def encodeRxMeta (message : RxIndicate) : List UInt8 :=
  writeLe16 message.snrCenti.toUInt16 ++ writeLe16 message.rssiDbm.toUInt16
    ++ writeLe32 message.cfoHz.toUInt32 ++ writeLe32 message.rateCenti.toUInt32
    ++ writeLe64 message.freqHz
    ++ writeLe16 message.sirCenti.toUInt16 ++ writeLe16 message.lvlCenti.toUInt16

/-- `encodeRx`. -/
def encodeRx (message : RxIndicate) : Option (List UInt8) :=
  if !airLengthIsValid message.air.length then none
  else encodeIpcFrame .rxIndicate (encodeRxMeta message ++ message.air)

/-- `decodeRx`. -/
def decodeRx (body : List UInt8) : Option RxIndicate :=
  if body.length < kRxMetaLen then none
  else if !airLengthIsValid (body.length - kRxMetaLen) then none
  else
    some {
      snrCenti := (readLe16 body).toInt16
      rssiDbm := (readLe16 (body.drop 2)).toInt16
      cfoHz := (readLe32 (body.drop 4)).toInt32
      rateCenti := (readLe32 (body.drop 8)).toInt32
      freqHz := readLe64 (body.drop 12)
      sirCenti := (readLe16 (body.drop 20)).toInt16
      lvlCenti := (readLe16 (body.drop 22)).toInt16
      air := body.drop kRxMetaLen }

@[simp] theorem length_writeLe16 (value : UInt16) : (writeLe16 value).length = 2 := rfl

@[simp] theorem length_writeLe32 (value : UInt32) : (writeLe32 value).length = 4 := rfl

theorem readLe16_eq (input : List UInt8) :
    readLe16 input = UInt16.ofNat (LittleEndian.read 2 input) := by
  simp [readLe16, LittleEndian.read, List.range_succ]

theorem readLe16_writeLe16 (value : UInt16) (rest : List UInt8) :
    readLe16 (writeLe16 value ++ rest) = value := by
  have hlt := value.toNat_lt
  rw [readLe16_eq]
  show UInt16.ofNat (LittleEndian.read 2 (LittleEndian.write 2 value.toNat ++ rest)) = value
  rw [LittleEndian.read_append (by rw [LittleEndian.length_write]), LittleEndian.read_write,
    Nat.mod_eq_of_lt (by omega), UInt16.ofNat_toNat]

theorem writeLe16_readLe16 {input : List UInt8} (h : 2 ≤ input.length) :
    writeLe16 (readLe16 input) = input.take 2 := by
  have hlt := LittleEndian.read_lt 2 input
  rw [readLe16_eq]
  show LittleEndian.write 2 (UInt16.ofNat (LittleEndian.read 2 input)).toNat = input.take 2
  rw [UInt16.toNat_ofNat_of_lt' (by simpa using hlt), LittleEndian.write_read h]

theorem readLe32_writeLe32 (value : UInt32) (rest : List UInt8) :
    readLe32 (writeLe32 value ++ rest) = value := by
  have hlt := value.toNat_lt
  show UInt32.ofNat (LittleEndian.read 4 (LittleEndian.write 4 value.toNat ++ rest)) = value
  rw [LittleEndian.read_append (by rw [LittleEndian.length_write]), LittleEndian.read_write,
    Nat.mod_eq_of_lt (by omega), UInt32.ofNat_toNat]

theorem writeLe32_readLe32 {input : List UInt8} (h : 4 ≤ input.length) :
    writeLe32 (readLe32 input) = input.take 4 := by
  have hlt := LittleEndian.read_lt 4 input
  show LittleEndian.write 4 (UInt32.ofNat (LittleEndian.read 4 input)).toNat = input.take 4
  rw [UInt32.toNat_ofNat_of_lt' (by simpa using hlt), LittleEndian.write_read h]
