/-
# PhoneAPI envelopes (`src/bridge/phone_api.cpp`)

`Data`, `MeshPacket` and `ToRadio` with their encoders and decoders.  An encoder leaves
zeros out and a decoder starts from the defaults of its structure, so what comes back is
the message with its zeros replaced by the defaults (`decodeMeshPacket_encode`); the
defaults of `to` and `hop_limit` are not zero.
-/
import QuadrfMesh.Bridge.PbWriters
import QuadrfMesh.Mesh.Packet

namespace Bridge

open Pb
open Mesh (kBroadcastNode)

/-- `struct Data`. -/
structure Data where
  portnum : UInt32 := 0
  payload : List UInt8 := []
  wantResponse : Bool := false
  dest : UInt32 := 0
  source : UInt32 := 0
  requestId : UInt32 := 0
  replyId : UInt32 := 0
  deriving DecidableEq, Repr

/-- `struct MeshPacketPb`; `rxSnr` is the bit pattern of the float. -/
structure MeshPacketPb where
  from_ : UInt32 := 0
  to_ : UInt32 := kBroadcastNode
  channel : UInt32 := 0
  decoded : Option Data := none
  encrypted : List UInt8 := []
  id : UInt32 := 0
  rxTime : UInt32 := 0
  rxSnr : UInt32 := 0
  hopLimit : UInt32 := 3
  wantAck : Bool := false
  hopStart : UInt32 := 0
  viaMqtt : Bool := false
  nextHop : UInt32 := 0
  relayNode : UInt32 := 0
  rxRssi : UInt32 := 0
  deriving DecidableEq, Repr

/-- `enum class ToRadioKind`. -/
inductive ToRadioKind
  | none | packet | wantConfig | disconnect | heartbeat
  deriving DecidableEq, Repr

/-- `struct ToRadio`. -/
structure ToRadio where
  kind : ToRadioKind := .none
  packet : MeshPacketPb := {}
  wantConfigId : UInt32 := 0
  disconnect : Bool := false
  deriving DecidableEq, Repr

/-! ## Encoders -/

/-- `encodeData`. -/
def encodeData (d : Data) : List UInt8 :=
  writeU32 1 d.portnum ++ writeBytes 2 d.payload ++ writeBool 3 d.wantResponse
    ++ writeFixed32 4 d.dest ++ writeFixed32 5 d.source ++ writeFixed32 6 d.requestId
    ++ writeFixed32 7 d.replyId

/-- The payload variant of `encodeMeshPacket`. -/
def encodeVariant (p : MeshPacketPb) : List UInt8 :=
  match p.decoded with
  | some d => writeSubmessage 4 (encodeData d)
  | none => if p.encrypted.isEmpty then [] else writeBytes 5 p.encrypted

/-- `encodeMeshPacket`. -/
def encodeMeshPacket (p : MeshPacketPb) : List UInt8 :=
  writeFixed32 1 p.from_ ++ writeFixed32 2 p.to_ ++ writeU32 3 p.channel ++ encodeVariant p
    ++ writeFixed32 6 p.id ++ writeFixed32 7 p.rxTime ++ writeFloat 8 p.rxSnr
    ++ writeU32 9 p.hopLimit ++ writeBool 10 p.wantAck ++ writeU32 12 p.rxRssi
    ++ writeBool 14 p.viaMqtt ++ writeU32 15 p.hopStart ++ writeU32 18 p.nextHop
    ++ writeU32 19 p.relayNode

/-- `encodeToRadio`. -/
def encodeToRadio (m : ToRadio) : List UInt8 :=
  match m.kind with
  | .packet => writeSubmessage 1 (encodeMeshPacket m.packet)
  | .wantConfig => writeU32 3 m.wantConfigId
  | .disconnect => writeBool 4 true
  | .heartbeat => writeSubmessage 7 [] true
  | .none => []

/-! ## Decoders -/

/-- The fields of an accepted message, with their slices read. -/
def parseViews (data : List UInt8) : Option (List View) :=
  (parseFields data).map fun fs => fs.map (Field.view data)

/-- The body of `decodeData`'s loop. -/
def dataField (out : Data) (f : View) : Option Data :=
  match f.number with
  | 1 => some { out with portnum := UInt32.ofNat f.varint }
  | 2 => some { out with payload := f.bytes }
  | 3 => some { out with wantResponse := f.varint != 0 }
  | 4 => some { out with dest := UInt32.ofNat f.fixed32 }
  | 5 => some { out with source := UInt32.ofNat f.fixed32 }
  | 6 => some { out with requestId := UInt32.ofNat f.fixed32 }
  | 7 => some { out with replyId := UInt32.ofNat f.fixed32 }
  | _ => some out

/-- `decodeData`; `none` where it returns false. -/
def decodeData (data : List UInt8) : Option Data :=
  (parseViews data).bind fun fields => fields.foldlM dataField {}

/-- The body of `decodeMeshPacket`'s loop. -/
def meshPacketField (out : MeshPacketPb) (f : View) : Option MeshPacketPb :=
  match f.number with
  | 1 => some { out with from_ := UInt32.ofNat f.fixed32 }
  | 2 => some { out with to_ := UInt32.ofNat f.fixed32 }
  | 3 => some { out with channel := UInt32.ofNat f.varint }
  | 4 => (decodeData f.bytes).map fun d => { out with decoded := some d }
  | 5 => some { out with encrypted := f.bytes }
  | 6 => some { out with id := UInt32.ofNat f.fixed32 }
  | 7 => some { out with rxTime := UInt32.ofNat f.fixed32 }
  | 8 => some { out with rxSnr := UInt32.ofNat f.fixed32 }
  | 9 => some { out with hopLimit := UInt32.ofNat f.varint }
  | 10 => some { out with wantAck := f.varint != 0 }
  | 12 => some { out with rxRssi := UInt32.ofNat f.varint }
  | 14 => some { out with viaMqtt := f.varint != 0 }
  | 15 => some { out with hopStart := UInt32.ofNat f.varint }
  | 18 => some { out with nextHop := UInt32.ofNat f.varint }
  | 19 => some { out with relayNode := UInt32.ofNat f.varint }
  | _ => some out

/-- The last line of `decodeMeshPacket`: a packet that says anything. -/
def MeshPacketPb.saysAnything (p : MeshPacketPb) : Bool :=
  p.from_ != 0 || p.id != 0 || p.decoded.isSome || !p.encrypted.isEmpty

/-- `decodeMeshPacket`. -/
def decodeMeshPacket (data : List UInt8) : Option MeshPacketPb :=
  (parseViews data).bind fun fields =>
    (fields.foldlM meshPacketField {}).filter MeshPacketPb.saysAnything

/-- The body of `decodeToRadio`'s loop. -/
def toRadioField (out : ToRadio) (f : View) : Option ToRadio :=
  match f.number with
  | 1 => (decodeMeshPacket f.bytes).map fun packet => { out with kind := .packet, packet }
  | 3 => some { out with kind := .wantConfig, wantConfigId := UInt32.ofNat f.varint }
  | 4 => some { out with kind := .disconnect, disconnect := f.varint != 0 }
  | 7 => some { out with kind := .heartbeat }
  | _ => some out

/-- `decodeToRadio`. -/
def decodeToRadio (data : List UInt8) : Option ToRadio :=
  (parseViews data).bind fun fields =>
    (fields.foldlM toRadioField {}).filter fun out => out.kind != .none

theorem parseViews_of_spells {data : List UInt8} {views : List View} (h : Spells data views) :
    parseViews data = some views := by
  obtain ⟨fs, hfs, rfl⟩ := h
  rw [parseViews, hfs]
  rfl

/-! ## Decoding field by field -/

section

variable {σ : Type} {step : σ → View → Option σ} {a b c : σ}

theorem foldlM_append_some {xs ys : List View} (hxs : xs.foldlM step a = some b)
    (hys : ys.foldlM step b = some c) : (xs ++ ys).foldlM step a = some c := by
  rw [List.foldlM_append, hxs]
  exact hys

/-- A field that may have been left out: left out, it must not change anything. -/
theorem foldlM_ite {p : Prop} [Decidable p] {f : View} (hskip : p → a = b)
    (htake : ¬ p → step a f = some b) :
    (if p then [] else [f]).foldlM step a = some b := by
  split_ifs with h
  · rw [hskip h]
    rfl
  · rw [List.foldlM_cons, htake h]
    rfl

end

theorem toNat_bne_zero (v : Bool) : (v.toNat != 0) = v := by
  cases v <;> rfl

theorem length_le_writeBytes (field : ℕ) (data : List UInt8) (force : Bool) :
    data.length ≤ (writeBytes field data force).length := by
  unfold writeBytes
  split_ifs with h
  · rw [Bool.and_eq_true, List.isEmpty_iff] at h
    rw [h.2]
  · rw [List.length_append]
    omega

/-! ## `Data` -/

/-- The fields `encodeData` writes. -/
def dataViews (d : Data) : List View :=
  varintViews 1 d.portnum.toNat ++ bytesViews 2 d.payload ++ varintViews 3 d.wantResponse.toNat
    ++ fixed32Views 4 d.dest.toNat ++ fixed32Views 5 d.source.toNat
    ++ fixed32Views 6 d.requestId.toNat ++ fixed32Views 7 d.replyId.toNat

theorem spells_encodeData {d : Data} (h : d.payload.length < 2 ^ 64) :
    Spells (encodeData d) (dataViews d) := by
  unfold encodeData dataViews
  exact ((((((spells_writeU32 (by norm_num) _).append (spells_writeBytes (by norm_num) h _)).append
    (spells_writeBool (by norm_num) _)).append (spells_writeFixed32 (by norm_num) _)).append
    (spells_writeFixed32 (by norm_num) _)).append (spells_writeFixed32 (by norm_num) _)).append
    (spells_writeFixed32 (by norm_num) _)

/-- **`Data` comes back.** -/
theorem decodeData_encodeData {d : Data} (h : d.payload.length < 2 ^ 64) :
    decodeData (encodeData d) = some d := by
  rw [decodeData, parseViews_of_spells (spells_encodeData h), Option.bind_some]
  have hfields : (dataViews d).foldlM dataField {}
      = some { portnum := UInt32.ofNat d.portnum.toNat, payload := d.payload
               wantResponse := d.wantResponse.toNat != 0, dest := UInt32.ofNat d.dest.toNat
               source := UInt32.ofNat d.source.toNat, requestId := UInt32.ofNat d.requestId.toNat
               replyId := UInt32.ofNat d.replyId.toNat } := by
    unfold dataViews varintViews fixed32Views bytesViews
    refine foldlM_append_some (foldlM_append_some (foldlM_append_some (foldlM_append_some
      (foldlM_append_some (foldlM_append_some (foldlM_ite ?_ fun _ => rfl)
        (foldlM_ite ?_ fun _ => rfl)) (foldlM_ite ?_ fun _ => rfl)) (foldlM_ite ?_ fun _ => rfl))
        (foldlM_ite ?_ fun _ => rfl)) (foldlM_ite ?_ fun _ => rfl)) (foldlM_ite ?_ fun _ => rfl)
    · intro h0
      rw [h0]
      rfl
    · intro h0
      rw [Bool.not_false, Bool.true_and, List.isEmpty_iff] at h0
      rw [h0]
    all_goals
      intro h0
      rw [h0]
      rfl
  rw [hfields, toNat_bne_zero]
  simp only [UInt32.ofNat_toNat]

/-- **What is written is read.**  `Data` comes back as it was, and any sequence of writes
with field numbers of 29 bits is parsed into its fields that are no defaults, in order. -/
theorem decode_encode_writes :
    (∀ d : Data, d.payload.length < 2 ^ 64 → decodeData (encodeData d) = some d) ∧
    ∀ ws : List Write, (∀ w ∈ ws, w.Fits) →
      ∃ fs, parseFields (ws.flatMap Write.out) = some fs ∧
        fs.map (Field.entry (ws.flatMap Write.out)) = ws.flatMap Write.entries :=
  ⟨fun _ h => decodeData_encodeData h, fun ws h => Write.spelled_flatMap ws h⟩

/-- A default between two fields. -/
theorem decode_encode_writes_default :
    ∃ fs, parseFields ([Write.u64 3 300, Write.bool 4 false, Write.bytes 536870911 [7] false].flatMap
        Write.out) = some fs ∧
      fs.map (Field.entry ([Write.u64 3 300, Write.bool 4 false,
        Write.bytes 536870911 [7] false].flatMap Write.out))
        = [(.varint, { number := 3, varint := 300 }),
            (.length, { number := 536870911, bytes := [7] })] := by
  have hfits : ∀ w ∈ [Write.u64 3 300, Write.bool 4 false, Write.bytes 536870911 [7] false],
      w.Fits := by
    intro w hw
    simp only [List.mem_cons, List.not_mem_nil, or_false] at hw
    rcases hw with rfl | rfl | rfl
    · exact (by norm_num : 3 < 2 ^ 29)
    · exact (by norm_num : 4 < 2 ^ 29)
    · exact ⟨by norm_num, by norm_num⟩
  exact decode_encode_writes.2 _ hfits

/-- A port number is always written. -/
theorem encodeData_ne_nil {d : Data} (h : d.portnum ≠ 0) : encodeData d ≠ [] := by
  have hvarint : writeU32 1 d.portnum ≠ [] := by
    rw [writeU32, if_neg h]
    exact List.append_ne_nil_of_left_ne_nil
      (List.ne_nil_of_length_pos (isVarint_writeTag (by norm_num) .varint).1.length_pos) _
  unfold encodeData
  simp only [List.append_assoc]
  exact List.append_ne_nil_of_left_ne_nil hvarint _

theorem length_payload_le (d : Data) : d.payload.length ≤ (encodeData d).length := by
  have h := length_le_writeBytes 2 d.payload false
  unfold encodeData
  simp only [List.length_append]
  omega

/-! ## `MeshPacket` -/

namespace MeshPacketPb

/-- The packet carries exactly one payload: decoded data with a port number, or encrypted
bytes. -/
def OneVariant (p : MeshPacketPb) : Prop :=
  (∃ d, p.decoded = some d ∧ d.portnum ≠ 0 ∧ p.encrypted = []) ∨
    (p.decoded = none ∧ p.encrypted ≠ [])

/-- What comes back: a zero that was left out is the decoder's default. -/
def reread (p : MeshPacketPb) : MeshPacketPb :=
  { p with
    to_ := if p.to_ = 0 then kBroadcastNode else p.to_
    rxSnr := if floatIsZero p.rxSnr then 0 else p.rxSnr
    hopLimit := if p.hopLimit = 0 then 3 else p.hopLimit }

end MeshPacketPb

/-- The fields `encodeVariant` writes. -/
def variantViews (p : MeshPacketPb) : List View :=
  match p.decoded with
  | some d => bytesViews 4 (encodeData d)
  | none => bytesViews 5 p.encrypted

/-- The fields `encodeMeshPacket` writes. -/
def meshPacketViews (p : MeshPacketPb) : List View :=
  fixed32Views 1 p.from_.toNat ++ fixed32Views 2 p.to_.toNat ++ varintViews 3 p.channel.toNat
    ++ variantViews p ++ fixed32Views 6 p.id.toNat ++ fixed32Views 7 p.rxTime.toNat
    ++ fixed32Views 8 (if floatIsZero p.rxSnr then 0 else p.rxSnr.toNat)
    ++ varintViews 9 p.hopLimit.toNat ++ varintViews 10 p.wantAck.toNat
    ++ varintViews 12 p.rxRssi.toNat ++ varintViews 14 p.viaMqtt.toNat
    ++ varintViews 15 p.hopStart.toNat ++ varintViews 18 p.nextHop.toNat
    ++ varintViews 19 p.relayNode.toNat

theorem spells_encodeVariant {p : MeshPacketPb} (h : (encodeVariant p).length < 2 ^ 64) :
    Spells (encodeVariant p) (variantViews p) := by
  unfold encodeVariant at h ⊢
  unfold variantViews
  cases hdec : p.decoded with
  | some d =>
      rw [hdec] at h
      have hlen := length_le_writeBytes 4 (encodeData d) false
      exact spells_writeBytes (by norm_num) (lt_of_le_of_lt hlen h) _
  | none =>
      rw [hdec] at h
      cases hemp : p.encrypted.isEmpty with
      | true =>
          simp only [bytesViews, hemp, Bool.not_false, Bool.and_self, if_true]
          exact spells_nil
      | false =>
          simp only [hemp, Bool.false_eq_true, if_false] at h ⊢
          have hlen := length_le_writeBytes 5 p.encrypted false
          exact spells_writeBytes (by norm_num) (lt_of_le_of_lt hlen h) _

theorem length_encodeVariant_le (p : MeshPacketPb) :
    (encodeVariant p).length ≤ (encodeMeshPacket p).length := by
  unfold encodeMeshPacket
  simp only [List.length_append]
  omega

theorem spells_encodeMeshPacket {p : MeshPacketPb} (h : (encodeMeshPacket p).length < 2 ^ 64) :
    Spells (encodeMeshPacket p) (meshPacketViews p) := by
  have hvariant := spells_encodeVariant (lt_of_le_of_lt (length_encodeVariant_le p) h)
  unfold encodeMeshPacket meshPacketViews
  refine Spells.append (Spells.append (Spells.append (Spells.append (Spells.append (Spells.append
    (Spells.append (Spells.append (Spells.append (Spells.append (Spells.append (Spells.append
    (Spells.append ?_ ?_) ?_) hvariant) ?_) ?_) ?_) ?_) ?_) ?_) ?_) ?_) ?_) ?_
  · exact spells_writeFixed32 (by norm_num) _
  · exact spells_writeFixed32 (by norm_num) _
  · exact spells_writeU32 (by norm_num) _
  · exact spells_writeFixed32 (by norm_num) _
  · exact spells_writeFixed32 (by norm_num) _
  · exact spells_writeFloat (by norm_num) _
  · exact spells_writeU32 (by norm_num) _
  · exact spells_writeBool (by norm_num) _
  · exact spells_writeU32 (by norm_num) _
  · exact spells_writeBool (by norm_num) _
  · exact spells_writeU32 (by norm_num) _
  · exact spells_writeU32 (by norm_num) _
  · exact spells_writeU32 (by norm_num) _

/-- The payload comes back. -/
theorem foldlM_variantViews {p : MeshPacketPb} (h : p.OneVariant)
    (hlen : (encodeVariant p).length < 2 ^ 64) {out : MeshPacketPb} (hdec : out.decoded = none)
    (henc : out.encrypted = []) :
    (variantViews p).foldlM meshPacketField out
      = some { out with decoded := p.decoded, encrypted := p.encrypted } := by
  unfold variantViews
  rcases h with ⟨d, hd, hport, hnone⟩ | ⟨hd, hne⟩
  · have hle : d.payload.length < 2 ^ 64 := by
      have h1 := length_payload_le d
      have h2 := length_le_writeBytes 4 (encodeData d) false
      rw [encodeVariant, hd] at hlen
      exact lt_of_le_of_lt (h1.trans h2) hlen
    rw [hd, hnone, ← henc]
    apply foldlM_ite
    · intro hemp
      rw [Bool.not_false, Bool.true_and, List.isEmpty_iff] at hemp
      exact absurd hemp (encodeData_ne_nil hport)
    · intro _
      simp only [meshPacketField, decodeData_encodeData hle, Option.map_some]
  · rw [hd]
    apply foldlM_ite
    · intro hemp
      rw [Bool.not_false, Bool.true_and, List.isEmpty_iff] at hemp
      exact absurd hemp hne
    · intro _
      rw [← hdec]
      rfl

/-- `to`, whose default is not zero. -/
theorem foldlM_to {out : MeshPacketPb} (h : out.to_ = kBroadcastNode) (v : UInt32) :
    (fixed32Views 2 v.toNat).foldlM meshPacketField out
      = some { out with to_ := if v = 0 then kBroadcastNode else v } := by
  apply foldlM_ite
  · intro h0
    rw [if_pos ((toNat_eq_zero_iff v).mp h0), ← h]
  · intro h0
    rw [if_neg (fun hv => h0 ((toNat_eq_zero_iff v).mpr hv))]
    simp only [meshPacketField, UInt32.ofNat_toNat]

/-- `hop_limit`, whose default is not zero. -/
theorem foldlM_hopLimit {out : MeshPacketPb} (h : out.hopLimit = 3) (v : UInt32) :
    (varintViews 9 v.toNat).foldlM meshPacketField out
      = some { out with hopLimit := if v = 0 then 3 else v } := by
  apply foldlM_ite
  · intro h0
    rw [if_pos ((toNat_eq_zero_iff v).mp h0), ← h]
  · intro h0
    rw [if_neg (fun hv => h0 ((toNat_eq_zero_iff v).mpr hv))]
    simp only [meshPacketField, UInt32.ofNat_toNat]

/-- The fields of a packet, taken one after the other. -/
theorem foldlM_meshPacketViews {p : MeshPacketPb} (h : p.OneVariant)
    (hvariant : (encodeVariant p).length < 2 ^ 64) :
    (meshPacketViews p).foldlM meshPacketField {} = some p.reread := by
  have hfields : (meshPacketViews p).foldlM meshPacketField {}
      = some { p with
          from_ := UInt32.ofNat p.from_.toNat
          to_ := if p.to_ = 0 then kBroadcastNode else p.to_
          channel := UInt32.ofNat p.channel.toNat
          id := UInt32.ofNat p.id.toNat
          rxTime := UInt32.ofNat p.rxTime.toNat
          rxSnr := UInt32.ofNat (if floatIsZero p.rxSnr then 0 else p.rxSnr.toNat)
          hopLimit := if p.hopLimit = 0 then 3 else p.hopLimit
          wantAck := p.wantAck.toNat != 0
          rxRssi := UInt32.ofNat p.rxRssi.toNat
          viaMqtt := p.viaMqtt.toNat != 0
          hopStart := UInt32.ofNat p.hopStart.toNat
          nextHop := UInt32.ofNat p.nextHop.toNat
          relayNode := UInt32.ofNat p.relayNode.toNat } := by
    unfold meshPacketViews
    simp only [List.append_assoc]
    -- one field after the other, each from a state written out in full
    refine foldlM_append_some (foldlM_ite (fun h0 => by rw [h0]; rfl) fun _ => rfl) ?_
    dsimp only
    refine foldlM_append_some (foldlM_to rfl _) ?_
    dsimp only
    refine foldlM_append_some (foldlM_ite (fun h0 => by rw [h0]; rfl) fun _ => rfl) ?_
    dsimp only
    refine foldlM_append_some (foldlM_variantViews h hvariant rfl rfl) ?_
    dsimp only
    refine foldlM_append_some (foldlM_ite (fun h0 => by rw [h0]; rfl) fun _ => rfl) ?_
    dsimp only
    refine foldlM_append_some (foldlM_ite (fun h0 => by rw [h0]; rfl) fun _ => rfl) ?_
    dsimp only
    refine foldlM_append_some (foldlM_ite (fun h0 => by rw [h0]; rfl) fun _ => rfl) ?_
    dsimp only
    refine foldlM_append_some (foldlM_hopLimit rfl _) ?_
    dsimp only
    refine foldlM_append_some (foldlM_ite (fun h0 => by rw [h0]; rfl) fun _ => rfl) ?_
    dsimp only
    refine foldlM_append_some (foldlM_ite (fun h0 => by rw [h0]; rfl) fun _ => rfl) ?_
    dsimp only
    refine foldlM_append_some (foldlM_ite (fun h0 => by rw [h0]; rfl) fun _ => rfl) ?_
    dsimp only
    refine foldlM_append_some (foldlM_ite (fun h0 => by rw [h0]; rfl) fun _ => rfl) ?_
    dsimp only
    refine foldlM_append_some (foldlM_ite (fun h0 => by rw [h0]; rfl) fun _ => rfl) ?_
    dsimp only
    exact foldlM_ite (fun h0 => by rw [h0]; rfl) fun _ => rfl
  have hzero : UInt32.ofNat (if floatIsZero p.rxSnr then 0 else p.rxSnr.toNat)
      = if floatIsZero p.rxSnr then 0 else p.rxSnr := by
    split_ifs
    · rfl
    · exact UInt32.ofNat_toNat
  rw [hfields, hzero, toNat_bne_zero, toNat_bne_zero]
  simp only [UInt32.ofNat_toNat]
  rfl

/-- A packet with a payload is read as one. -/
theorem saysAnything_reread {p : MeshPacketPb} (h : p.OneVariant) :
    p.reread.saysAnything = true := by
  unfold MeshPacketPb.saysAnything
  rcases h with ⟨d, hd, -, -⟩ | ⟨-, hne⟩
  · simp [MeshPacketPb.reread, hd]
  · simp [MeshPacketPb.reread, hne]

/-- **A packet comes back** with its zeros read as the decoder's defaults. -/
theorem decodeMeshPacket_encode {p : MeshPacketPb} (h : p.OneVariant)
    (hlen : (encodeMeshPacket p).length < 2 ^ 64) :
    decodeMeshPacket (encodeMeshPacket p) = some p.reread := by
  have hvariant := lt_of_le_of_lt (length_encodeVariant_le p) hlen
  rw [decodeMeshPacket, parseViews_of_spells (spells_encodeMeshPacket hlen), Option.bind_some,
    foldlM_meshPacketViews h hvariant]
  exact Option.filter_some_pos (saysAnything_reread h)

/-- A packet that carries a payload is not written as nothing. -/
theorem encodeMeshPacket_ne_nil {p : MeshPacketPb} (h : p.OneVariant) :
    encodeMeshPacket p ≠ [] := by
  intro hnil
  have hlen : (encodeMeshPacket p).length < 2 ^ 64 := by
    rw [hnil]
    exact Nat.two_pow_pos 64
  have hback := decodeMeshPacket_encode h hlen
  rw [hnil] at hback
  have hnone : decodeMeshPacket [] = none := by decide +kernel
  rw [hnone] at hback
  exact absurd hback (by simp)

/-! ## `ToRadio` -/

/-- The messages a client sends. -/
def ToRadio.Carried (m : ToRadio) : Prop :=
  match m.kind with
  | .none => False
  | .packet => m.packet.OneVariant
  | .wantConfig | .disconnect | .heartbeat => True

/-- The same packet, field by field; of the float, the bits up to the sign of zero. -/
def SamePacket (p q : MeshPacketPb) : Prop :=
  { p with rxSnr := 0 } = { q with rxSnr := 0 } ∧
    (p.rxSnr = q.rxSnr ∨ floatIsZero p.rxSnr = true ∧ floatIsZero q.rxSnr = true)

/-- The message comes back. -/
def RoundTrips (m : ToRadio) : Prop :=
  ∃ out, decodeToRadio (encodeToRadio m) = some out ∧ out.kind = m.kind ∧
    (m.kind = .packet → SamePacket out.packet m.packet) ∧
    (m.kind = .wantConfig → out.wantConfigId = m.wantConfigId)

/-- A packet is reread as the same packet unless a default stands in for a zero. -/
theorem samePacket_reread_iff (p : MeshPacketPb) :
    SamePacket p.reread p ↔ p.to_ ≠ 0 ∧ p.hopLimit ≠ 0 := by
  constructor
  · rintro ⟨hsame, -⟩
    have hto : (if p.to_ = 0 then kBroadcastNode else p.to_) = p.to_ :=
      congrArg (fun q : MeshPacketPb => q.to_) hsame
    have hhop : (if p.hopLimit = 0 then 3 else p.hopLimit) = p.hopLimit :=
      congrArg (fun q : MeshPacketPb => q.hopLimit) hsame
    refine ⟨?_, ?_⟩
    · intro h0
      rw [h0] at hto
      exact absurd hto (by decide)
    · intro h0
      rw [h0] at hhop
      exact absurd hhop (by decide)
  · rintro ⟨hto, hhop⟩
    refine ⟨?_, ?_⟩
    · rw [MeshPacketPb.reread, if_neg hto, if_neg hhop]
    · by_cases hzero : floatIsZero p.rxSnr = true
      · right
        refine ⟨?_, hzero⟩
        rw [MeshPacketPb.reread, if_pos hzero]
        rfl
      · left
        rw [MeshPacketPb.reread, if_neg hzero]

/-- A packet, as it comes back. -/
theorem decodeToRadio_packet {m : ToRadio} (hkind : m.kind = .packet) (h : m.packet.OneVariant)
    (hlen : (encodeToRadio m).length < 2 ^ 64) :
    decodeToRadio (encodeToRadio m)
      = some { kind := .packet, packet := m.packet.reread } := by
  have henc : encodeToRadio m = writeBytes 1 (encodeMeshPacket m.packet) := by
    rw [encodeToRadio, hkind]
    rfl
  have hle := length_le_writeBytes 1 (encodeMeshPacket m.packet) false
  rw [henc] at hlen
  have hlt := lt_of_le_of_lt hle hlen
  have hspells := spells_writeBytes (by norm_num : 1 < 2 ^ 29) hlt false
  have hback := decodeMeshPacket_encode h hlt
  have hfields : (bytesViews 1 (encodeMeshPacket m.packet)).foldlM toRadioField {}
      = some { kind := .packet, packet := m.packet.reread } := by
    apply foldlM_ite
    · intro hemp
      rw [Bool.not_false, Bool.true_and, List.isEmpty_iff] at hemp
      exact absurd hemp (encodeMeshPacket_ne_nil h)
    · intro _
      simp only [toRadioField, hback, Option.map_some]
  rw [decodeToRadio, henc, parseViews_of_spells hspells, Option.bind_some, hfields]
  rfl

/-- The request for the configuration, as it comes back: a request for 0 is not written. -/
theorem decodeToRadio_wantConfig {m : ToRadio} (hkind : m.kind = .wantConfig) :
    decodeToRadio (encodeToRadio m)
      = if m.wantConfigId = 0 then none
        else some { kind := .wantConfig, wantConfigId := m.wantConfigId } := by
  have henc : encodeToRadio m = writeU32 3 m.wantConfigId := by
    rw [encodeToRadio, hkind]
  have hspells := spells_writeU32 (by norm_num : 3 < 2 ^ 29) m.wantConfigId
  rw [decodeToRadio, henc, parseViews_of_spells hspells, Option.bind_some]
  unfold varintViews
  by_cases h0 : m.wantConfigId = 0
  · rw [if_pos h0, if_pos ((toNat_eq_zero_iff _).mpr h0)]
    rfl
  · rw [if_neg h0, if_neg (fun hn => h0 ((toNat_eq_zero_iff _).mp hn)), List.foldlM_cons]
    simp only [toRadioField, UInt32.ofNat_toNat]
    rfl

/-- A message of its kind alone comes back. -/
theorem roundTrips_of_plain {m out : ToRadio} (hback : decodeToRadio (encodeToRadio m) = some out)
    (hkind : out.kind = m.kind) (hpacket : m.kind ≠ .packet) (hwant : m.kind ≠ .wantConfig) :
    RoundTrips m :=
  ⟨out, hback, hkind, fun hk => absurd hk hpacket, fun hk => absurd hk hwant⟩

/-- **Which messages come back**: all but a packet whose `to` or `hop_limit` is zero, and a
request for configuration 0.  The encoding fits the size of a vector. -/
theorem toRadio_round_trips_iff {m : ToRadio} (h : m.Carried)
    (hlen : (encodeToRadio m).length < 2 ^ 64) :
    RoundTrips m ↔ (m.kind = .packet → m.packet.to_ ≠ 0 ∧ m.packet.hopLimit ≠ 0) ∧
      (m.kind = .wantConfig → m.wantConfigId ≠ 0) := by
  cases hkind : m.kind with
  | none =>
      rw [ToRadio.Carried, hkind] at h
      exact absurd h not_false
  | packet =>
      rw [ToRadio.Carried, hkind] at h
      rw [RoundTrips, decodeToRadio_packet hkind h hlen, hkind]
      constructor
      · rintro ⟨out, hout, -, hsame, -⟩
        obtain rfl := Option.some.inj hout
        exact ⟨fun _ => (samePacket_reread_iff _).mp (hsame rfl), fun hk => absurd hk (by decide)⟩
      · rintro ⟨hzero, -⟩
        exact ⟨_, rfl, rfl, fun _ => (samePacket_reread_iff _).mpr (hzero rfl),
          fun hk => absurd hk (by decide)⟩
  | wantConfig =>
      rw [RoundTrips, decodeToRadio_wantConfig hkind, hkind]
      constructor
      · rintro ⟨out, hout, -⟩
        refine ⟨fun hk => absurd hk (by decide), fun _ h0 => ?_⟩
        rw [if_pos h0] at hout
        exact absurd hout (by simp)
      · rintro ⟨-, hzero⟩
        rw [if_neg (hzero rfl)]
        exact ⟨_, rfl, rfl, fun hk => absurd hk (by decide), fun _ => rfl⟩
  | disconnect =>
      have henc : encodeToRadio m = writeBool 4 true := by
        rw [encodeToRadio, hkind]
      have hback : decodeToRadio (encodeToRadio m) = some { kind := .disconnect, disconnect := true } := by
        rw [henc]
        decide +kernel
      exact iff_of_true (roundTrips_of_plain hback hkind.symm (by simp [hkind]) (by simp [hkind]))
        ⟨fun hk => absurd hk (by decide), fun hk => absurd hk (by decide)⟩
  | heartbeat =>
      have henc : encodeToRadio m = writeSubmessage 7 [] true := by
        rw [encodeToRadio, hkind]
      have hback : decodeToRadio (encodeToRadio m) = some { kind := .heartbeat } := by
        rw [henc]
        decide +kernel
      exact iff_of_true (roundTrips_of_plain hback hkind.symm (by simp [hkind]) (by simp [hkind]))
        ⟨fun hk => absurd hk (by decide), fun hk => absurd hk (by decide)⟩

/-- A text message. -/
def textMessage (to_ hopLimit : UInt32) : ToRadio :=
  { kind := .packet
    packet := { to_, hopLimit, decoded := some { portnum := 1, payload := [0x68] } } }

theorem carried_textMessage (to_ hopLimit : UInt32) : (textMessage to_ hopLimit).Carried :=
  Or.inl ⟨_, rfl, by decide, rfl⟩

/-- A text message with both fields set. -/
theorem toRadio_round_trips_iff_text : RoundTrips (textMessage 5 3) :=
  (toRadio_round_trips_iff (carried_textMessage 5 3) (by decide +kernel)).mpr
    ⟨fun _ => ⟨by decide, by decide⟩, fun hk => absurd hk (by decide)⟩

/-- A packet whose last hop has been used comes back with three hops. -/
theorem hop_limit_zero_comes_back_three : ¬ ∀ m : ToRadio, m.Carried → RoundTrips m := by
  intro h
  obtain ⟨out, hout, -, hsame, -⟩ := h (textMessage 5 0) (carried_textMessage 5 0)
  rw [decodeToRadio_packet rfl (carried_textMessage 5 0) (by decide +kernel)] at hout
  obtain rfl := Option.some.inj hout
  have hhop := congrArg (fun q : MeshPacketPb => q.hopLimit) (hsame rfl).1
  exact absurd hhop (by decide)

end Bridge
