/-
# The standalone session (`src/bridge/session.cpp`)

A `Session` answers the phone's messages and turns air frames into packets for it.  Its
key and hash are fixed by the constructor from the settings, which the structure records.
The main result is that a packet with decoded data crosses from one session to another on
the same channel.
-/
import Mathlib
import QuadrfMesh.Bridge.FromRadio

namespace Bridge

open Pb
open Mesh (kBroadcastNode kMaxEncryptedLength)

def kNonceOnlyNodes : UInt32 := 69421

/-- `struct SessionConfig`. -/
structure SessionConfig where
  nodeNum : UInt32 := 0xE58F0001
  longName : List UInt8 := utf8 "QuadRF"
  shortName : List UInt8 := utf8 "QRF"
  pskShorthand : List UInt8 := [0x01]
  channelName : List UInt8 := utf8 "LongFast"
  txQueueMaxlen : UInt32 := 16

/-- The key the constructor settles on: the default where the settings give none. -/
def SessionConfig.channelKey (cfg : SessionConfig) : List UInt8 :=
  (expandPsk cfg.pskShorthand).getD kDefaultPsk

/-- The hash the constructor settles on: of the settings' bytes, but of the key for a
one-byte shorthand. -/
def SessionConfig.channelHash (cfg : SessionConfig) : UInt8 :=
  if cfg.pskShorthand.length = 1 then Bridge.channelHash cfg.channelName cfg.channelKey
  else Bridge.channelHash cfg.channelName cfg.pskShorthand

/-- `class Session`. -/
structure Session where
  cfg : SessionConfig
  channelKey : List UInt8
  channelHash : UInt8
  fromSeq : UInt32 := 1
  txEnqueued : ℕ := 0
  rxDelivered : ℕ := 0
  fromQ : List (List UInt8) := []
  channelKey_eq : channelKey = cfg.channelKey
  channelHash_eq : channelHash = cfg.channelHash

theorem SessionConfig.keyLength_channelKey (cfg : SessionConfig) : KeyLength cfg.channelKey := by
  unfold SessionConfig.channelKey
  cases h : expandPsk cfg.pskShorthand with
  | none => exact keyLength_kDefaultPsk
  | some key => exact expandPsk_keyLength h

namespace Session

/-- The constructor. -/
def new (cfg : SessionConfig) : Session :=
  { cfg, channelKey := cfg.channelKey, channelHash := cfg.channelHash
    channelKey_eq := rfl, channelHash_eq := rfl }

/-- When the hash a session announces is that of the key it encrypts with. -/
theorem channelHash_eq_iff (s : Session) :
    s.channelHash = Bridge.channelHash s.cfg.channelName s.channelKey ↔
      s.cfg.pskShorthand.length ∈ [0, 1, 16, 32] ∨
        xorHash s.cfg.pskShorthand = xorHash kDefaultPsk := by
  rw [s.channelHash_eq, s.channelKey_eq]
  unfold SessionConfig.channelHash
  by_cases h1 : s.cfg.pskShorthand.length = 1
  · rw [if_pos h1]
    exact iff_of_true rfl (Or.inl (by rw [h1]; decide))
  rw [if_neg h1, channelHash_inj]
  unfold SessionConfig.channelKey
  by_cases h0 : s.cfg.pskShorthand.length = 0
  · have hnil : s.cfg.pskShorthand = [] := List.length_eq_zero_iff.mp h0
    refine iff_of_true ?_ (Or.inl (by rw [h0]; decide))
    rw [hnil]
    rfl
  by_cases hlen : s.cfg.pskShorthand.length = 16 ∨ s.cfg.pskShorthand.length = 32
  · refine iff_of_true ?_ (Or.inl ?_)
    · rw [expandPsk_of_length hlen]
      rfl
    · rcases hlen with h | h <;> rw [h] <;> decide
  · -- the settings' bytes are hashed, but the default key encrypts
    rw [expandPsk_eq_none h0 h1 hlen, Option.getD_none]
    refine ⟨Or.inr, fun h => h.resolve_left fun hmem => ?_⟩
    simp only [List.mem_cons, List.not_mem_nil, or_false] at hmem
    tauto

/-- **The hash of a new session** is that of its key for settings of no byte, of one, or of a
key's length; for settings that are refused it is that of the default key only by coincidence. -/
theorem new_channelHash_iff (cfg : SessionConfig) :
    (new cfg).channelHash = Bridge.channelHash cfg.channelName (new cfg).channelKey ↔
      cfg.pskShorthand.length ∈ [0, 1, 16, 32] ∨ xorHash cfg.pskShorthand = xorHash kDefaultPsk :=
  (new cfg).channelHash_eq_iff

/-- A key of two bytes: packets are encrypted with the default key under another key's hash. -/
theorem new_channelHash_refused :
    ∃ cfg : SessionConfig, cfg.pskShorthand = [1, 2] ∧ cfg.channelName = utf8 "LongFast" ∧
      (new cfg).channelKey = kDefaultPsk ∧
      (new cfg).channelHash ≠ Bridge.channelHash cfg.channelName (new cfg).channelKey :=
  ⟨{ pskShorthand := [1, 2] }, rfl, rfl, rfl, by decide +kernel⟩

/-- A hexadecimal digit of `%08x`. -/
def hexDigit (n : ℕ) : UInt8 := UInt8.ofNat (if n < 10 then 0x30 + n else 0x61 + (n - 10))

/-- `nodeIdString`. -/
def nodeIdString (s : Session) : List UInt8 :=
  0x21 :: (List.range 8).map fun k => hexDigit ((s.cfg.nodeNum.toNat >>> (4 * (7 - k))) &&& 0xF)

/-- `enqueueFrom`. -/
def enqueueFrom (s : Session) (fr : FromRadio) : Session :=
  { s with
    fromSeq := s.fromSeq + 1
    fromQ := s.fromQ ++ [encodeFromRadio { fr with id := s.fromSeq }] }

/-- `popFromRadio`; `none` where it returns false. -/
def popFromRadio (s : Session) : Option (List UInt8 × Session) :=
  match s.fromQ with
  | [] => none
  | out :: q => some (out, { s with fromQ := q })

/-- `makeLoRaConfig`. -/
def makeLoRaConfig : List UInt8 :=
  writeSubmessage 6
    (writeBool 1 true ++ writeTag 2 .varint ++ writeVarint 8 ++ writeU32 8 3 ++ writeBool 9 true)

/-- `makeDeviceConfig`. -/
def makeDeviceConfig : List UInt8 := writeSubmessage 1 (writeU32 7 10800)

/-- `emitOwnNodeInfo`. -/
def emitOwnNodeInfo (s : Session) : Session :=
  s.enqueueFrom
    { kind := .nodeInfo
      nodeInfo :=
        { num := s.cfg.nodeNum
          user := { id := s.nodeIdString, longName := s.cfg.longName, shortName := s.cfg.shortName } } }

/-- `startConfig`. -/
def startConfig (s : Session) (nonce : UInt32) : Session :=
  let stage :=
    if nonce ≠ kNonceOnlyNodes then
      let my := s.enqueueFrom
        { kind := .myInfo, myInfo := { myNodeNum := s.cfg.nodeNum, minAppVersion := 30200 } }
      let info := my.emitOwnNodeInfo
      let metadata := info.enqueueFrom
        { kind := .metadata
          metadata := { firmwareVersion := utf8 "quadrf-lora-phy-0.1", deviceStateVersion := 24 } }
      let ch := metadata.enqueueFrom
        { kind := .channel
          channel :=
            { index := 0, role := 1
              settings := { name := s.cfg.channelName, psk := s.cfg.pskShorthand } } }
      let device := ch.enqueueFrom { kind := .config, configBytes := makeDeviceConfig }
      device.enqueueFrom { kind := .config, configBytes := makeLoRaConfig }
    else
      (s.enqueueFrom { kind := .myInfo, myInfo := { myNodeNum := s.cfg.nodeNum } }).emitOwnNodeInfo
  stage.enqueueFrom { kind := .configComplete, configCompleteId := nonce }

/-- The packet with the fields filled in that the host left blank. -/
def fillIn (s : Session) (pkt : MeshPacketPb) : MeshPacketPb :=
  { pkt with
    from_ := if pkt.from_ = 0 then s.cfg.nodeNum else pkt.from_
    id := if pkt.id = 0 then s.fromSeq else pkt.id
    hopLimit := if pkt.hopLimit = 0 then 3 else pkt.hopLimit }

/-- The state after `fillIn`: a sequence number is spent where it served as an id. -/
def spendId (s : Session) (pkt : MeshPacketPb) : Session :=
  { s with fromSeq := if pkt.id = 0 then s.fromSeq + 1 else s.fromSeq }

/-- The queue status that answers a packet. -/
def queueStatus (s : Session) (id : UInt32) : FromRadio :=
  { kind := .queueStatus
    free := if 1 < s.cfg.txQueueMaxlen then s.cfg.txQueueMaxlen - 1 else 0
    maxlen := s.cfg.txQueueMaxlen
    meshPacketId := id }

/-- `handleToRadio`: the session and the air frames. -/
def handleToRadio (ctr : Ctr) (s : Session) (payload : List UInt8) (txAir : List (List UInt8)) :
    Session × List (List UInt8) :=
  match decodeToRadio payload with
  | none => (s, txAir)
  | some msg =>
      match msg.kind with
      | .wantConfig => (s.startConfig msg.wantConfigId, txAir)
      | .packet =>
          let pkt := s.fillIn msg.packet
          let s := s.spendId msg.packet
          match (meshPacketToAir ctr pkt s.channelKey s.channelHash s.cfg.nodeNum).bind
              Mesh.packPacket with
          | none => (s, txAir)
          | some bytes =>
              let s := { s with txEnqueued := s.txEnqueued + 1 }
              (s.enqueueFrom (s.queueStatus pkt.id), txAir ++ [bytes])
      | .none | .heartbeat | .disconnect => (s, txAir)

/-- The packet an air frame is delivered as. -/
def packetOfAirFrame (ctr : Ctr) (now : UInt32) (s : Session) (payload : List UInt8)
    (snr : UInt32) : Option FromRadio :=
  (Mesh.unpackPacket payload).bind fun air =>
    if air.encrypted = [] then none
    else
      (airToMeshPacket ctr now air s.channelKey).map fun pkt =>
        { kind := .packet, packet := { pkt with rxSnr := snr } }

/-- `handleAirFrame`. -/
def handleAirFrame (ctr : Ctr) (now : UInt32) (s : Session) (payload : List UInt8)
    (snr : UInt32) : Session :=
  match s.packetOfAirFrame ctr now payload snr with
  | none => s
  | some fr =>
      let s := s.enqueueFrom fr
      { s with rxDelivered := s.rxDelivered + 1 }

@[simp] theorem fromQ_enqueueFrom (s : Session) (fr : FromRadio) :
    (s.enqueueFrom fr).fromQ = s.fromQ ++ [encodeFromRadio { fr with id := s.fromSeq }] := rfl

/-- What a packet with decoded data and no encrypted bytes becomes: a frame that the key
decrypts. -/
theorem frame_of_decoded {ctr : Ctr} (hctr : ctr.Involution) (s : Session) {pkt : MeshPacketPb}
    {d : Data} (hd : pkt.decoded = some d) (henc : pkt.encrypted = [])
    (hlen : (encodeData d).length ≤ kMaxEncryptedLength) (hfrom : pkt.from_ ≠ 0)
    (hid : pkt.id ≠ 0) :
    ∃ air frame, (meshPacketToAir ctr pkt s.channelKey s.channelHash s.cfg.nodeNum).bind
        Mesh.packPacket = some frame ∧ Mesh.packPacket air = some frame ∧
      air.header.from_ = pkt.from_ ∧ air.header.id = pkt.id ∧
      air.header.to_ = (if pkt.to_ = 0 then kBroadcastNode else pkt.to_) ∧
      air.encrypted.length = (encodeData d).length ∧
      aesCtr ctr s.channelKey air.header.id air.header.from_ air.encrypted = some (encodeData d) := by
  have hkey : KeyLength s.channelKey := by
    rw [s.channelKey_eq]
    exact s.cfg.keyLength_channelKey
  have hsender : (airHeader pkt s.channelHash s.cfg.nodeNum).from_ = pkt.from_ := if_neg hfrom
  obtain ⟨bytes, hair, hsize, hplain⟩ :=
    meshPacketToAir_of_decoded hctr hkey hd henc hlen s.channelHash (hsender ▸ hfrom) hid
  have hpack : Mesh.packPacket { header := airHeader pkt s.channelHash s.cfg.nodeNum
                                 encrypted := bytes }
      = some (Mesh.packHeader (airHeader pkt s.channelHash s.cfg.nodeNum) ++ bytes) := by
    apply if_neg
    rintro (h0 | hlong)
    · exact hfrom (hsender ▸ h0)
    · exact absurd (hsize ▸ hlong) (not_lt.mpr hlen)
  refine ⟨_, _, ?_, hpack, hsender, rfl, rfl, hsize, hplain⟩
  rw [hair, Option.bind_some]
  exact hpack

/-- A packet that can be sent: one frame, and one queue status for it. -/
theorem handleToRadio_packet {ctr : Ctr} (s : Session) {payload : List UInt8} {msg : ToRadio}
    (hmsg : decodeToRadio payload = some msg) (hkind : msg.kind = .packet) {frame : List UInt8}
    (hframe : (meshPacketToAir ctr (s.fillIn msg.packet) s.channelKey s.channelHash
      s.cfg.nodeNum).bind Mesh.packPacket = some frame) (txAir : List (List UInt8)) :
    (s.handleToRadio ctr payload txAir).2 = txAir ++ [frame] ∧
      (s.handleToRadio ctr payload txAir).1.fromQ
        = s.fromQ ++ [encodeFromRadio { s.queueStatus (s.fillIn msg.packet).id with
            id := (s.spendId msg.packet).fromSeq }] := by
  unfold handleToRadio
  rw [hmsg]
  dsimp only
  rw [hkind]
  dsimp only [spendId]
  rw [hframe]
  exact ⟨rfl, rfl⟩

/-- A frame that the key decrypts to the encoding of `d`: one packet with `d`. -/
theorem packetOfAirFrame_of_decoded {ctr : Ctr} (now : UInt32) (s : Session) {air : Mesh.Packet}
    {frame : List UInt8} (hpack : Mesh.packPacket air = some frame) {d : Data}
    (hport : d.portnum ≠ 0) (hlen : air.encrypted.length = (encodeData d).length)
    (hsize : d.payload.length < 2 ^ 64)
    (hplain : aesCtr ctr s.channelKey air.header.id air.header.from_ air.encrypted
      = some (encodeData d)) (snr : UInt32) :
    ∃ fr, s.packetOfAirFrame ctr now frame snr = some fr ∧ fr.kind = .packet ∧
      fr.packet.decoded = some d ∧ fr.packet.from_ = air.header.from_ ∧
      fr.packet.id = air.header.id ∧ fr.packet.to_ = air.header.to_ := by
  have hne : air.encrypted ≠ [] := by
    intro hnil
    rw [hnil] at hlen
    exact encodeData_ne_nil hport (List.length_eq_zero_iff.mp hlen.symm)
  have hread : aesCtr ctr s.channelKey air.header.carried.id air.header.carried.from_
      air.encrypted = some (encodeData d) := hplain
  obtain ⟨p, hp, hdec, hfrom, hid, hto⟩ :=
    @airToMeshPacket_of_decoded ctr now { air with header := air.header.carried } _ _ hport hsize
      hread
  refine ⟨{ kind := .packet, packet := { p with rxSnr := snr } }, ?_, rfl, hdec, hfrom, hid, hto⟩
  rw [packetOfAirFrame, Mesh.unpackPacket_packPacket hpack, Option.bind_some]
  dsimp only
  rw [if_neg hne, hp]
  rfl

/-- What the phone's packet `pkt`, with the data `d`, does at `a` and then at `b`: one air
frame and one queue status at `a`; the frame, taken in by `b`, one packet with the same
data, sender, id and destination. -/
def Crosses (ctr : Ctr) (now snr : UInt32) (a b : Session) (payload : List UInt8)
    (txAir : List (List UInt8)) (pkt : MeshPacketPb) (d : Data) : Prop :=
  ∃ (frame : List UInt8) (qs fr : FromRadio),
    (a.handleToRadio ctr payload txAir).2 = txAir ++ [frame] ∧
    (a.handleToRadio ctr payload txAir).1.fromQ = a.fromQ ++ [encodeFromRadio qs] ∧
    qs.kind = .queueStatus ∧ qs.meshPacketId = pkt.id ∧
    (b.handleAirFrame ctr now frame snr).fromQ = b.fromQ ++ [encodeFromRadio fr] ∧
    fr.kind = .packet ∧ fr.packet.decoded = some d ∧ fr.packet.from_ = pkt.from_ ∧
    fr.packet.id = pkt.id ∧ fr.packet.to_ = if pkt.to_ = 0 then kBroadcastNode else pkt.to_

/-- **A packet crosses** from one session to another with the same settings for the key; the
name of the channel plays no part, since the receiver does not look at the hash. -/
theorem packet_crosses {ctr : Ctr} (hctr : ctr.Involution) {a b : Session}
    (hpsk : a.cfg.pskShorthand = b.cfg.pskShorthand) {payload : List UInt8} {msg : ToRadio}
    (hmsg : decodeToRadio payload = some msg) (hkind : msg.kind = .packet) {d : Data}
    (hd : msg.packet.decoded = some d) (henc : msg.packet.encrypted = [])
    (hport : d.portnum ≠ 0) (hlen : (encodeData d).length ≤ 239)
    (hfrom : (a.fillIn msg.packet).from_ ≠ 0) (hid : (a.fillIn msg.packet).id ≠ 0)
    (now snr : UInt32) (txAir : List (List UInt8)) :
    Crosses ctr now snr a b payload txAir (a.fillIn msg.packet) d := by
  have hdec' : (a.fillIn msg.packet).decoded = some d := hd
  obtain ⟨air, frame, hframe, hpack, hsender, hairid, hto, hsize, hplain⟩ :=
    frame_of_decoded hctr a hdec' henc hlen hfrom hid
  have hkey : a.channelKey = b.channelKey := by
    rw [a.channelKey_eq, b.channelKey_eq, SessionConfig.channelKey, SessionConfig.channelKey, hpsk]
  have hpayload : d.payload.length < 2 ^ 64 :=
    lt_of_le_of_lt ((length_payload_le d).trans hlen) (by norm_num)
  obtain ⟨fr, hfr, hfrkind, hdec, hfrfrom, hfrid, hfrto⟩ :=
    packetOfAirFrame_of_decoded now b hpack hport hsize hpayload (hkey ▸ hplain) snr
  obtain ⟨htx, hq⟩ := handleToRadio_packet a hmsg hkind hframe txAir
  refine ⟨frame, _, { fr with id := b.fromSeq }, htx, hq, rfl, rfl, ?_, hfrkind, hdec,
    hfrfrom.trans hsender, hfrid.trans hairid, hfrto.trans hto⟩
  unfold handleAirFrame
  rw [hfr]
  rfl

/-- The keystream of the default key for packet 1 of node `E58F0001`. -/
def firstKeystream : List UInt8 :=
  [0x3e, 0x8a, 0x85, 0xc5, 0x60, 0x8a, 0xed, 0x03, 0x63, 0xe1, 0x0f, 0xbc, 0x2d, 0x35, 0x0d, 0x31]

/-- A text message whose sender and id the session fills in. -/
theorem packet_crosses_text :
    Crosses (.ofKeystream fun _ _ i => firstKeystream.getD i 0) 0 0
      (.new {}) (.new { nodeNum := 0x11111111 }) (encodeToRadio (textMessage 5 3)) []
      { (textMessage 5 3).packet with from_ := 0xE58F0001, id := 1 }
      { portnum := 1, payload := [0x68] } :=
  have hmsg : decodeToRadio (encodeToRadio (textMessage 5 3))
      = some { kind := .packet, packet := (textMessage 5 3).packet } := by
    decide +kernel
  packet_crosses (a := .new {}) (b := .new { nodeNum := 0x11111111 })
    (Ctr.involution_ofKeystream _) rfl hmsg rfl rfl rfl (by decide)
    (by decide +kernel) (by decide) (by decide) _ _ _

/-- A packet with decoded data, and with more encrypted bytes than an air frame has room
for. -/
def bothVariants : List UInt8 :=
  writeSubmessage 1 (writeSubmessage 4 (encodeData { portnum := 1, payload := [0x68] })
    ++ writeBytes 5 (List.replicate 240 0))

/-- The encrypted bytes of such a packet are what is sent, or here what is not. -/
theorem both_variants_do_not_cross :
    ¬ ∀ (ctr : Ctr) (a b : Session) (payload : List UInt8) (msg : ToRadio) (d : Data),
      ctr.Involution → a.cfg.channelName = b.cfg.channelName →
      a.cfg.pskShorthand = b.cfg.pskShorthand → decodeToRadio payload = some msg →
      msg.kind = .packet → msg.packet.decoded = some d → d.portnum ≠ 0 →
      (encodeData d).length ≤ 239 → (a.fillIn msg.packet).from_ ≠ 0 →
      (a.fillIn msg.packet).id ≠ 0 →
      ∀ (now snr : UInt32) (txAir : List (List UInt8)),
        Crosses ctr now snr a b payload txAir (a.fillIn msg.packet) d := by
  intro h
  have hmsg : decodeToRadio bothVariants
      = some { kind := .packet
               packet := { decoded := some { portnum := 1, payload := [0x68] }
                           encrypted := List.replicate 240 0 } } := by
    decide +kernel
  obtain ⟨frame, _, _, htx, -⟩ := h (fun _ _ data => some data) (.new { pskShorthand := [] })
    (.new { pskShorthand := [] }) bothVariants _ _ (fun _ _ _ _ data => ⟨data, rfl, rfl, rfl⟩) rfl
    rfl hmsg rfl rfl (by decide) (by decide +kernel) (by decide) (by decide) 0 0 []
  have hnone : (Session.handleToRadio (fun _ _ data => some data) (.new { pskShorthand := [] })
      bothVariants []).2 = [] := by
    unfold handleToRadio
    rw [hmsg]
    decide +kernel
  rw [hnone] at htx
  exact absurd htx (by simp)

end Session

end Bridge
