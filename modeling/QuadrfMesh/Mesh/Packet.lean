/-
# The on-air packet (`src/mesh/packet.cpp`)

Sixteen bytes of header, little-endian, and the encrypted bytes behind them.  The flags
byte has three bits for each hop count, so what comes back is the packet with its hop
counts cut to three bits (`unpackPacket_packPacket`); what was read is packed again byte for
byte (`packPacket_unpackPacket`).
-/
import Mathlib
import QuadrfMesh.Lib.LittleEndian

namespace Mesh

def kHeaderLength : ℕ := 16
def kMaxPayloadLength : ℕ := 255
def kMaxEncryptedLength : ℕ := kMaxPayloadLength - kHeaderLength

def kBroadcastNode : UInt32 := 0xFFFFFFFF
def kNoNextHop : UInt8 := 0
def kNoRelayNode : UInt8 := 0
def kDefaultChannelHash : UInt8 := 8

def kFlagsHopLimitMask : UInt8 := 0x07
def kFlagsWantAckMask : UInt8 := 0x08
def kFlagsViaMqttMask : UInt8 := 0x10
def kFlagsHopStartMask : UInt8 := 0xE0
def kFlagsHopStartShift : UInt8 := 5

/-- `struct PacketHeader`. -/
structure PacketHeader where
  to_ : UInt32 := kBroadcastNode
  from_ : UInt32 := 0
  id : UInt32 := 0
  hopLimit : UInt8 := 0
  hopStart : UInt8 := 0
  wantAck : Bool := false
  viaMqtt : Bool := false
  channel : UInt8 := kDefaultChannelHash
  nextHop : UInt8 := kNoNextHop
  relayNode : UInt8 := kNoRelayNode
  deriving DecidableEq, Repr

/-- `struct Packet`. -/
structure Packet where
  header : PacketHeader := {}
  encrypted : List UInt8 := []
  deriving DecidableEq, Repr

/-! ## The flags byte -/

/-- `packFlags`. -/
def packFlags (h : PacketHeader) : UInt8 :=
  let flags := h.hopLimit &&& kFlagsHopLimitMask
  let flags := if h.wantAck then flags ||| kFlagsWantAckMask else flags
  let flags := if h.viaMqtt then flags ||| kFlagsViaMqttMask else flags
  flags ||| ((h.hopStart <<< kFlagsHopStartShift) &&& kFlagsHopStartMask)

/-- `unpackFlags`. -/
def unpackFlags (flags : UInt8) (h : PacketHeader) : PacketHeader :=
  { h with
    hopLimit := flags &&& kFlagsHopLimitMask
    wantAck := flags &&& kFlagsWantAckMask != 0
    viaMqtt := flags &&& kFlagsViaMqttMask != 0
    hopStart := (flags &&& kFlagsHopStartMask) >>> kFlagsHopStartShift }

/-- The hop counts the flags byte has room for. -/
def PacketHeader.carried (h : PacketHeader) : PacketHeader :=
  { h with
    hopLimit := h.hopLimit &&& kFlagsHopLimitMask
    hopStart := h.hopStart &&& kFlagsHopLimitMask }

/-- A byte is one of 256. -/
theorem byte_cases {P : UInt8 → Prop} (h : ∀ n < 256, P (UInt8.ofNat n)) (b : UInt8) : P b := by
  have hb := h b.toNat b.toNat_lt
  rwa [UInt8.ofNat_toNat] at hb

/-- The upper three bits hold a hop count cut to three bits. -/
theorem hopStart_bits (b : UInt8) :
    ((b <<< kFlagsHopStartShift) &&& kFlagsHopStartMask) >>> kFlagsHopStartShift
      = b &&& kFlagsHopLimitMask := by
  revert b
  apply byte_cases
  decide +kernel

/-- The four parts of the flags byte, each under its own mask. -/
theorem packFlags_eq (h : PacketHeader) :
    packFlags h = (h.hopLimit &&& kFlagsHopLimitMask)
      ||| (if h.wantAck then kFlagsWantAckMask else 0)
      ||| (if h.viaMqtt then kFlagsViaMqttMask else 0)
      ||| ((h.hopStart <<< kFlagsHopStartShift) &&& kFlagsHopStartMask) := by
  unfold packFlags
  cases h.wantAck <;> cases h.viaMqtt <;> simp

theorem or_and (a b m : UInt8) : (a ||| b) &&& m = (a &&& m) ||| (b &&& m) := by
  rw [← UInt8.toBitVec_inj]
  ext i
  simp only [UInt8.toBitVec_and, UInt8.toBitVec_or, BitVec.getElem_and, BitVec.getElem_or,
    Bool.and_or_distrib_right]

/-- A part under a mask of its own is not seen under another. -/
theorem mask_disjoint (b : UInt8) {m k : UInt8} (h : m &&& k = 0) : (b &&& m) &&& k = 0 := by
  rw [UInt8.and_assoc, h, UInt8.and_zero]

theorem ite_and_disjoint (c : Bool) {m k : UInt8} (h : m &&& k = 0) :
    (if c then m else 0) &&& k = 0 := by
  cases c
  · exact UInt8.zero_and
  · exact h

theorem mask_self (b m : UInt8) : (b &&& m) &&& m = b &&& m := by
  rw [UInt8.and_assoc, UInt8.and_self]

/-- **What is read from a flags byte** is what was packed into it. -/
theorem unpackFlags_packFlags (h g : PacketHeader) :
    unpackFlags (packFlags h) g
      = { g with
          hopLimit := h.hopLimit &&& kFlagsHopLimitMask
          wantAck := h.wantAck
          viaMqtt := h.viaMqtt
          hopStart := h.hopStart &&& kFlagsHopLimitMask } := by
  have hlimit : packFlags h &&& kFlagsHopLimitMask = h.hopLimit &&& kFlagsHopLimitMask := by
    rw [packFlags_eq, or_and, or_and, or_and, mask_self, ite_and_disjoint _ (by decide),
      ite_and_disjoint _ (by decide), mask_disjoint _ (by decide)]
    simp only [UInt8.or_zero]
  have hack : packFlags h &&& kFlagsWantAckMask = if h.wantAck then kFlagsWantAckMask else 0 := by
    rw [packFlags_eq, or_and, or_and, or_and, mask_disjoint _ (by decide),
      ite_and_disjoint h.viaMqtt (by decide), mask_disjoint _ (by decide)]
    cases h.wantAck <;> rfl
  have hmqtt : packFlags h &&& kFlagsViaMqttMask = if h.viaMqtt then kFlagsViaMqttMask else 0 := by
    rw [packFlags_eq, or_and, or_and, or_and, mask_disjoint _ (by decide),
      ite_and_disjoint h.wantAck (by decide), mask_disjoint _ (by decide)]
    cases h.viaMqtt <;> rfl
  have hstart : packFlags h &&& kFlagsHopStartMask
      = (h.hopStart <<< kFlagsHopStartShift) &&& kFlagsHopStartMask := by
    rw [packFlags_eq, or_and, or_and, or_and, mask_self, ite_and_disjoint _ (by decide),
      ite_and_disjoint _ (by decide), mask_disjoint _ (by decide)]
    simp only [UInt8.zero_or]
  unfold unpackFlags
  rw [hlimit, hack, hmqtt, hstart, hopStart_bits]
  cases h.wantAck <;> cases h.viaMqtt <;> rfl

/-! ## The header -/

/-- `packHeader`. -/
def packHeader (h : PacketHeader) : List UInt8 :=
  LittleEndian.write 4 h.to_.toNat ++ LittleEndian.write 4 h.from_.toNat
    ++ LittleEndian.write 4 h.id.toNat ++ [packFlags h, h.channel, h.nextHop, h.relayNode]

/-- `unpackHeader`; `none` where it returns false. -/
def unpackHeader (data : List UInt8) : Option PacketHeader :=
  if data.length < kHeaderLength then none
  else
    let out : PacketHeader := unpackFlags (data.getD 12 0)
      { to_ := UInt32.ofNat (LittleEndian.read 4 data)
        from_ := UInt32.ofNat (LittleEndian.read 4 (data.drop 4))
        id := UInt32.ofNat (LittleEndian.read 4 (data.drop 8))
        channel := data.getD 13 0
        nextHop := data.getD 14 0
        relayNode := data.getD 15 0 }
    if out.from_ = 0 then none else some out

@[simp] theorem length_packHeader (h : PacketHeader) : (packHeader h).length = kHeaderLength := by
  simp [packHeader, kHeaderLength]

/-- A word that was written, with what follows it. -/
theorem read_write_append (v : UInt32) (rest : List UInt8) :
    UInt32.ofNat (LittleEndian.read 4 (LittleEndian.write 4 v.toNat ++ rest)) = v := by
  rw [LittleEndian.read_append (by simp), LittleEndian.read_write,
    Nat.mod_eq_of_lt (by simpa using v.toNat_lt), UInt32.ofNat_toNat]

/-- **A header comes back**, with its hop counts cut to three bits. -/
theorem unpackHeader_packHeader {h : PacketHeader} (hfrom : h.from_ ≠ 0) (rest : List UInt8) :
    unpackHeader (packHeader h ++ rest) = some h.carried := by
  have hlen : ¬ (packHeader h ++ rest).length < kHeaderLength := by
    rw [List.length_append, length_packHeader]
    omega
  have hbytes : packHeader h ++ rest = LittleEndian.write 4 h.to_.toNat
      ++ (LittleEndian.write 4 h.from_.toNat ++ (LittleEndian.write 4 h.id.toNat
        ++ (packFlags h :: h.channel :: h.nextHop :: h.relayNode :: rest))) := by
    simp [packHeader]
  have hto : UInt32.ofNat (LittleEndian.read 4 (packHeader h ++ rest)) = h.to_ := by
    rw [hbytes, read_write_append]
  have hfrm : UInt32.ofNat (LittleEndian.read 4 ((packHeader h ++ rest).drop 4)) = h.from_ := by
    rw [hbytes, List.drop_left' (by simp), read_write_append]
  have hid : UInt32.ofNat (LittleEndian.read 4 ((packHeader h ++ rest).drop 8)) = h.id := by
    rw [hbytes, ← List.append_assoc, List.drop_left' (by simp), read_write_append]
  have hlast : ∀ i, (packHeader h ++ rest).getD (12 + i) 0
      = (packFlags h :: h.channel :: h.nextHop :: h.relayNode :: rest).getD i 0 := by
    intro i
    rw [hbytes, ← List.append_assoc, ← List.append_assoc, List.getD_append_right _ _ _ _ (by simp)]
    simp
  unfold unpackHeader
  rw [if_neg hlen, hto, hfrm, hid, show (12 : ℕ) = 12 + 0 from rfl, hlast 0, hlast 1, hlast 2,
    hlast 3]
  have hout : ∀ g : PacketHeader, unpackFlags (packFlags h) { g with
        to_ := h.to_, from_ := h.from_, id := h.id, channel := h.channel, nextHop := h.nextHop
        relayNode := h.relayNode } = h.carried := fun _ => unpackFlags_packFlags h _
  exact (congrArg (fun out : PacketHeader => if out.from_ = 0 then none else some out)
    (hout {})).trans (if_neg hfrom)

/-! ## The packet -/

/-- `packPacket`; `none` where it returns false. -/
def packPacket (pkt : Packet) : Option (List UInt8) :=
  if pkt.header.from_ = 0 ∨ kMaxEncryptedLength < pkt.encrypted.length then none
  else some (packHeader pkt.header ++ pkt.encrypted)

/-- `unpackPacket`; `none` where it returns false. -/
def unpackPacket (data : List UInt8) : Option Packet :=
  (unpackHeader data).bind fun header =>
    let encrypted := data.drop kHeaderLength
    if encrypted.length ≤ kMaxEncryptedLength then some { header, encrypted } else none

/-- **A packet comes back**, with its hop counts cut to three bits. -/
theorem unpackPacket_packPacket {pkt : Packet} {bytes : List UInt8}
    (h : packPacket pkt = some bytes) :
    unpackPacket bytes = some { pkt with header := pkt.header.carried } := by
  unfold packPacket at h
  split_ifs at h with hok
  obtain ⟨hfrom, hlen⟩ := not_or.mp hok
  obtain rfl := Option.some.inj h
  rw [unpackPacket, unpackHeader_packHeader hfrom, Option.bind_some,
    List.drop_left' (length_packHeader _), if_pos (not_lt.mp hlen)]

/-! ## Bytes back into bytes -/

/-- **The flags byte has no bit to spare**: it is packed of what is read from it. -/
theorem packFlags_unpackFlags (b : UInt8) (h : PacketHeader) : packFlags (unpackFlags b h) = b := by
  have hbytes : ∀ b, packFlags (unpackFlags b {}) = b := by
    intro b
    revert b
    apply byte_cases
    decide +kernel
  exact hbytes b

/-- A word that was read, written back. -/
theorem write_read_word {data : List UInt8} (h : 4 ≤ data.length) :
    LittleEndian.write 4 (UInt32.ofNat (LittleEndian.read 4 data)).toNat = data.take 4 := by
  have hlt : LittleEndian.read 4 data < 2 ^ 32 := LittleEndian.read_lt 4 data
  rw [UInt32.toNat_ofNat', Nat.mod_eq_of_lt hlt, LittleEndian.write_read h]

/-- A header with the flags it was read with. -/
theorem packHeader_unpackFlags (flags : UInt8) (h : PacketHeader) :
    packHeader (unpackFlags flags h) = LittleEndian.write 4 h.to_.toNat
      ++ LittleEndian.write 4 h.from_.toNat ++ LittleEndian.write 4 h.id.toNat
      ++ [flags, h.channel, h.nextHop, h.relayNode] := by
  rw [packHeader, packFlags_unpackFlags]
  rfl

theorem take_four {l : List UInt8} (h : 4 ≤ l.length) :
    l.take 4 = [l.getD 0 0, l.getD 1 0, l.getD 2 0, l.getD 3 0] := by
  obtain ⟨a, b, c, d, rest, rfl⟩ : ∃ a b c d rest, l = a :: b :: c :: d :: rest := by
    match l, h with
    | a :: b :: c :: d :: rest, _ => exact ⟨a, b, c, d, rest, rfl⟩
  rfl

/-- A header is read only of a sender that is not zero. -/
theorem from_ne_zero {data : List UInt8} {h : PacketHeader} (hread : unpackHeader data = some h) :
    h.from_ ≠ 0 := by
  unfold unpackHeader at hread
  split_ifs at hread
  simp only at hread
  split_ifs at hread with hfrom
  obtain rfl := Option.some.inj hread
  exact hfrom

/-- **A header that was read** is packed into the bytes it was read from. -/
theorem packHeader_unpackHeader {data : List UInt8} {h : PacketHeader}
    (hread : unpackHeader data = some h) : packHeader h = data.take kHeaderLength := by
  unfold unpackHeader at hread
  split_ifs at hread with hshort
  have hlen : 16 ≤ data.length := not_lt.mp hshort
  simp only at hread
  split_ifs at hread
  obtain rfl := Option.some.inj hread
  have hlast : (data.drop 12).take 4
      = [data.getD 12 0, data.getD 13 0, data.getD 14 0, data.getD 15 0] := by
    rw [take_four (by rw [List.length_drop]; omega)]
    simp only [List.getD_eq_getElem?_getD, List.getElem?_drop]
  have hsplit : data.take kHeaderLength
      = data.take 4 ++ (data.drop 4).take 4 ++ (data.drop 8).take 4 ++ (data.drop 12).take 4 := by
    rw [show kHeaderLength = 4 + 4 + 4 + 4 from rfl, List.take_add, List.take_add, List.take_add]
  rw [packHeader_unpackFlags, hsplit, hlast]
  simp only
  rw [write_read_word (by omega), write_read_word (by rw [List.length_drop]; omega),
    write_read_word (by rw [List.length_drop]; omega)]

/-- **A packet that was read** is packed into the bytes it was read from. -/
theorem packPacket_unpackPacket {data : List UInt8} {pkt : Packet}
    (h : unpackPacket data = some pkt) : packPacket pkt = some data := by
  obtain ⟨header, hread, h⟩ := Option.bind_eq_some_iff.mp h
  simp only at h
  split_ifs at h with hlen
  obtain rfl := Option.some.inj h
  have hfrom : header.from_ ≠ 0 := from_ne_zero hread
  rw [packPacket, if_neg (not_or.mpr ⟨hfrom, not_lt.mpr hlen⟩), packHeader_unpackHeader hread,
    List.take_append_drop]

/-- The byte strings that are read: long enough, not too long, from somebody. -/
theorem isSome_unpackPacket (data : List UInt8) :
    (unpackPacket data).isSome = true ↔
      kHeaderLength ≤ data.length ∧ data.length ≤ kMaxPayloadLength ∧
        LittleEndian.read 4 (data.drop 4) ≠ 0 := by
  have hword : LittleEndian.read 4 (data.drop 4) < 2 ^ 32 := LittleEndian.read_lt 4 _
  have hzero : UInt32.ofNat (LittleEndian.read 4 (data.drop 4)) = 0 ↔
      LittleEndian.read 4 (data.drop 4) = 0 := by
    rw [← UInt32.toNat_inj, UInt32.toNat_ofNat', Nat.mod_eq_of_lt hword]
    rfl
  have hrest : (data.drop kHeaderLength).length ≤ kMaxEncryptedLength ↔
      data.length ≤ kMaxPayloadLength := by
    rw [List.length_drop]
    unfold kMaxEncryptedLength kHeaderLength kMaxPayloadLength
    omega
  rw [← hrest, ne_eq, ← hzero, ← not_lt]
  unfold unpackPacket unpackHeader
  split_ifs with hshort
  · simp [hshort]
  · have hlong : kHeaderLength ≤ data.length := not_lt.mp hshort
    by_cases hfrom : UInt32.ofNat (LittleEndian.read 4 (data.drop 4)) = 0
    · simp [unpackFlags, hfrom]
    · simp [unpackFlags, hfrom, hlong]

/-- A hop count of three bits is one the flags byte has room for. -/
theorem mask_of_le {b : UInt8} (h : b ≤ 7) : b &&& kFlagsHopLimitMask = b := by
  revert b
  apply byte_cases
  decide +kernel

/-- Hop counts of three bits are carried as they are. -/
theorem carried_of_le {h : PacketHeader} (hlimit : h.hopLimit ≤ 7) (hstart : h.hopStart ≤ 7) :
    h.carried = h := by
  rw [PacketHeader.carried, mask_of_le hlimit, mask_of_le hstart]

/-- **The air frame and the packet are the same thing.**  `unpackPacket` reads byte strings of
16 to 255 bytes whose sender is not zero, and no others; each is packed again byte for byte;
and a packet that fits, from a sender that is not zero, is read back as it was. -/
theorem packet_roundTrip :
    (∀ data : List UInt8, (unpackPacket data).isSome = true ↔
      16 ≤ data.length ∧ data.length ≤ 255 ∧ LittleEndian.read 4 (data.drop 4) ≠ 0) ∧
    (∀ (data : List UInt8) (pkt : Packet), unpackPacket data = some pkt → packPacket pkt = some data) ∧
    ∀ pkt : Packet, pkt.header.from_ ≠ 0 → pkt.header.hopLimit ≤ 7 → pkt.header.hopStart ≤ 7 →
      pkt.encrypted.length ≤ 239 → (packPacket pkt).bind unpackPacket = some pkt := by
  refine ⟨isSome_unpackPacket, fun _ _ => packPacket_unpackPacket, ?_⟩
  intro pkt hfrom hlimit hstart hlen
  have hpack : packPacket pkt = some (packHeader pkt.header ++ pkt.encrypted) :=
    if_neg (not_or.mpr ⟨hfrom, not_lt.mpr hlen⟩)
  rw [hpack, Option.bind_some, unpackPacket_packPacket hpack, carried_of_le hlimit hstart]

/-- A packet of 18 bytes, with every bit of its flags set. -/
theorem packet_roundTrip_18 :
    let data : List UInt8 := [0xFF, 0xFF, 0xFF, 0xFF, 1, 0, 0, 0x80, 2, 3, 4, 5, 0xFF, 8, 0, 7, 42, 43]
    ∃ pkt, unpackPacket data = some pkt ∧ packPacket pkt = some data ∧
      (packPacket pkt).bind unpackPacket = some pkt := by
  intro data
  obtain ⟨hreads, hback, hagain⟩ := packet_roundTrip
  obtain ⟨pkt, hpkt⟩ := Option.isSome_iff_exists.mp ((hreads data).mpr (by decide +kernel))
  have hfits : pkt.header.from_ ≠ 0 ∧ pkt.header.hopLimit ≤ 7 ∧ pkt.header.hopStart ≤ 7 ∧
      pkt.encrypted.length ≤ 239 := by
    have hall : ∀ p ∈ unpackPacket data, p.header.from_ ≠ 0 ∧ p.header.hopLimit ≤ 7 ∧
        p.header.hopStart ≤ 7 ∧ p.encrypted.length ≤ 239 := by
      decide +kernel
    exact hall pkt hpkt
  exact ⟨pkt, hpkt, hback data pkt hpkt, hagain pkt hfits.1 hfits.2.1 hfits.2.2.1 hfits.2.2.2⟩

end Mesh
