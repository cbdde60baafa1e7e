/-
# `FromRadio` and the way to the air (`src/bridge/phone_api.cpp`)

The messages a client receives, and the two maps between a phone packet and an air packet.
A packet that is encrypted on the way out and decrypted on the way in keeps its data,
sender, id and destination (`airToMeshPacket_of_decoded`).
-/
import Mathlib
import QuadrfMesh.Bridge.Crypto
import QuadrfMesh.Bridge.PhoneApi

namespace Bridge

open Pb
open Mesh (kBroadcastNode kMaxEncryptedLength)

/-- The bytes of a string. -/
def utf8 (s : String) : List UInt8 := s.toUTF8.data.toList

/-- `enum class FromRadioKind`. -/
inductive FromRadioKind
  | none | packet | myInfo | nodeInfo | config | configComplete | rebooted | moduleConfig
  | channel | queueStatus | metadata
  deriving DecidableEq, Repr

/-- `struct MyNodeInfo`. -/
structure MyNodeInfo where
  myNodeNum : UInt32 := 0
  rebootCount : UInt32 := 0
  minAppVersion : UInt32 := 30200
  deriving DecidableEq, Repr

/-- `struct DeviceMetadata`. -/
structure DeviceMetadata where
  firmwareVersion : List UInt8 := utf8 "quadrf-lora-phy-0.1"
  deviceStateVersion : UInt32 := 24
  canShutdown : Bool := false
  hasWifi : Bool := false
  hasBluetooth : Bool := false
  role : UInt32 := 0
  hwModel : UInt32 := 0
  deriving DecidableEq, Repr

/-- `struct ChannelSettings`. -/
structure ChannelSettings where
  psk : List UInt8 := []
  name : List UInt8 := utf8 "LongFast"
  deriving DecidableEq, Repr

/-- `struct Channel`. -/
structure Channel where
  index : Int32 := 0
  settings : ChannelSettings := {}
  role : Int32 := 1
  deriving DecidableEq

/-- `struct NodeUser`. -/
structure NodeUser where
  id : List UInt8 := []
  longName : List UInt8 := utf8 "QuadRF"
  shortName : List UInt8 := utf8 "QRF"
  hwModel : UInt32 := 0
  role : UInt32 := 0
  deriving DecidableEq, Repr

/-- `struct NodeInfo`; `snr` is the bit pattern of the float. -/
structure NodeInfo where
  num : UInt32 := 0
  user : NodeUser := {}
  snr : UInt32 := 0
  lastHeard : UInt32 := 0
  deriving DecidableEq, Repr

/-- `struct FromRadio`. -/
structure FromRadio where
  id : UInt32 := 0
  kind : FromRadioKind := .none
  packet : MeshPacketPb := {}
  myInfo : MyNodeInfo := {}
  nodeInfo : NodeInfo := {}
  configBytes : List UInt8 := []
  moduleConfigBytes : List UInt8 := []
  channel : Channel := {}
  metadata : DeviceMetadata := {}
  configCompleteId : UInt32 := 0
  free : UInt32 := 0
  maxlen : UInt32 := 16
  res : UInt32 := 0
  meshPacketId : UInt32 := 0

/-! ## Encoders -/

/-- `encodeMyInfo`. -/
def encodeMyInfo (m : MyNodeInfo) : List UInt8 :=
  writeU32 1 m.myNodeNum ++ writeU32 8 m.rebootCount ++ writeU32 11 m.minAppVersion

/-- `encodeMetadata`. -/
def encodeMetadata (m : DeviceMetadata) : List UInt8 :=
  writeString 1 m.firmwareVersion ++ writeU32 2 m.deviceStateVersion ++ writeBool 3 m.canShutdown
    ++ writeBool 4 m.hasWifi ++ writeBool 5 m.hasBluetooth ++ writeU32 7 m.role
    ++ writeU32 9 m.hwModel

/-- `encodeUser`. -/
def encodeUser (u : NodeUser) : List UInt8 :=
  writeString 1 u.id ++ writeString 2 u.longName ++ writeString 3 u.shortName
    ++ writeU32 5 u.hwModel ++ writeU32 7 u.role

/-- `encodeNodeInfo`. -/
def encodeNodeInfo (n : NodeInfo) : List UInt8 :=
  writeU32 1 n.num ++ writeSubmessage 2 (encodeUser n.user) ++ writeFloat 4 n.snr
    ++ writeFixed32 5 n.lastHeard

/-- `encodeChannelSettings`. -/
def encodeChannelSettings (s : ChannelSettings) : List UInt8 :=
  writeBytes 1 s.psk ++ writeString 2 s.name

/-- `encodeChannel`. -/
def encodeChannel (c : Channel) : List UInt8 :=
  (if c.index = 0 then [] else writeU32 1 c.index.toUInt32)
    ++ writeSubmessage 2 (encodeChannelSettings c.settings) ++ writeU32 3 c.role.toUInt32

/-- `encodeQueueStatus`. -/
def encodeQueueStatus (m : FromRadio) : List UInt8 :=
  writeU32 1 m.res ++ writeU32 2 m.free ++ writeU32 3 m.maxlen ++ writeU32 4 m.meshPacketId

/-- `encodeFromRadio`. -/
def encodeFromRadio (m : FromRadio) : List UInt8 :=
  writeU32 1 m.id ++
    match m.kind with
    | .packet => writeSubmessage 2 (encodeMeshPacket m.packet)
    | .myInfo => writeSubmessage 3 (encodeMyInfo m.myInfo)
    | .nodeInfo => writeSubmessage 4 (encodeNodeInfo m.nodeInfo)
    | .config => writeBytes 5 m.configBytes
    | .configComplete => writeU32 7 m.configCompleteId
    | .rebooted => writeBool 8 true
    | .moduleConfig => writeBytes 9 m.moduleConfigBytes
    | .channel => writeSubmessage 10 (encodeChannel m.channel)
    | .queueStatus => writeSubmessage 11 (encodeQueueStatus m)
    | .metadata => writeSubmessage 13 (encodeMetadata m.metadata)
    | .none => []

/-! ## To the air and back -/

/-- The header `meshPacketToAir` fills in. -/
def airHeader (p : MeshPacketPb) (channelHash : UInt8) (ourNode : UInt32) : Mesh.PacketHeader :=
  { to_ := if p.to_ = 0 then kBroadcastNode else p.to_
    from_ := if p.from_ = 0 then ourNode else p.from_
    id := p.id
    hopLimit := (p.hopLimit &&& 0x7).toUInt8
    hopStart := ((if p.hopStart = 0 then p.hopLimit else p.hopStart) &&& 0x7).toUInt8
    wantAck := p.wantAck
    viaMqtt := p.viaMqtt
    channel := channelHash
    nextHop := (p.nextHop &&& 0xFF).toUInt8
    relayNode := (p.relayNode &&& 0xFF).toUInt8 }

/-- `meshPacketToAir`; `none` where it returns false. -/
def meshPacketToAir (ctr : Ctr) (p : MeshPacketPb) (channelKey : List UInt8)
    (channelHash : UInt8) (ourNode : UInt32) : Option Mesh.Packet :=
  let header := airHeader p channelHash ourNode
  if p.encrypted ≠ [] then
    -- a packet that is encrypted already is sent as it is
    if header.from_ ≠ 0 ∧ header.id ≠ 0 then some { header, encrypted := p.encrypted } else none
  else
    p.decoded.bind fun d =>
      (aesCtr ctr channelKey header.id header.from_ (encodeData d)).bind fun encrypted =>
        if header.from_ ≠ 0 ∧ header.id ≠ 0 ∧ encrypted.length ≤ kMaxEncryptedLength then
          some { header, encrypted }
        else none

/-- `airToMeshPacket` at the time `now`; `none` where it returns false. -/
def airToMeshPacket (ctr : Ctr) (now : UInt32) (air : Mesh.Packet) (channelKey : List UInt8) :
    Option MeshPacketPb :=
  let out : MeshPacketPb :=
    { from_ := air.header.from_
      to_ := air.header.to_
      channel := 0
      id := air.header.id
      hopLimit := air.header.hopLimit.toUInt32
      hopStart := air.header.hopStart.toUInt32
      wantAck := air.header.wantAck
      viaMqtt := air.header.viaMqtt
      nextHop := air.header.nextHop.toUInt32
      relayNode := air.header.relayNode.toUInt32
      rxTime := now }
  (aesCtr ctr channelKey air.header.id air.header.from_ air.encrypted).map fun plain =>
    match decodeData plain with
    | some d =>
        if d.portnum ≠ 0 then { out with decoded := some d }
        else { out with encrypted := air.encrypted }
    | none => { out with encrypted := air.encrypted }

/-- What a packet with decoded data becomes on the air. -/
theorem meshPacketToAir_of_decoded {ctr : Ctr} (hctr : ctr.Involution) {key : List UInt8}
    (hkey : KeyLength key) {p : MeshPacketPb} {d : Data} (hd : p.decoded = some d)
    (henc : p.encrypted = []) (hlen : (encodeData d).length ≤ kMaxEncryptedLength) (hash : UInt8)
    {ourNode : UInt32} (hfrom : (airHeader p hash ourNode).from_ ≠ 0) (hid : p.id ≠ 0) :
    ∃ bytes, meshPacketToAir ctr p key hash ourNode
        = some { header := airHeader p hash ourNode, encrypted := bytes } ∧
      bytes.length = (encodeData d).length ∧
      aesCtr ctr key p.id (airHeader p hash ourNode).from_ bytes = some (encodeData d) := by
  obtain ⟨bytes, hbytes, hsize, hback⟩ :=
    aesCtr_involution hctr hkey p.id (airHeader p hash ourNode).from_ (encodeData d)
  refine ⟨bytes, ?_, hsize, hback⟩
  have hidh : (airHeader p hash ourNode).id = p.id := rfl
  unfold meshPacketToAir
  rw [if_neg (not_not.mpr henc), hd, Option.bind_some, hidh, hbytes, Option.bind_some,
    if_pos ⟨hfrom, hid, hsize ▸ hlen⟩]

/-- **From the air**: bytes that decrypt to the encoding of `d` become a packet with `d`
and the header's sender, id and destination. -/
theorem airToMeshPacket_of_decoded {ctr : Ctr} (now : UInt32) {air : Mesh.Packet}
    {key : List UInt8} {d : Data} (hport : d.portnum ≠ 0) (hsize : d.payload.length < 2 ^ 64)
    (hplain : aesCtr ctr key air.header.id air.header.from_ air.encrypted = some (encodeData d)) :
    ∃ p, airToMeshPacket ctr now air key = some p ∧ p.decoded = some d ∧
      p.from_ = air.header.from_ ∧ p.id = air.header.id ∧ p.to_ = air.header.to_ := by
  unfold airToMeshPacket
  rw [hplain, Option.map_some, decodeData_encodeData hsize]
  dsimp only
  rw [if_pos hport]
  exact ⟨_, rfl, rfl, rfl, rfl, rfl⟩

end Bridge
