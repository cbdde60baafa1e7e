/-
# Message streams (`include/quadrf/air_ipc.hpp`)

The three messages as one type, its encoder and decoder, and what the parser
makes of a stream: every run of messages comes out as sent, whatever is put
between the frames (`feed_wire`), and every frame that comes out lies in the
stream (`feed_segments`).
-/
import QuadrfMesh.AirIpc.Deframer

/-! ## One message -/

/-- A message of either direction. -/
inductive IpcMessage
  | tx (message : TxEnqueue)
  | rx (message : RxIndicate)
  | modem (message : SetModem)
  deriving DecidableEq

namespace IpcMessage

/-- `encodeTx`, `encodeRx` or `encodeSetModem`. -/
def encode : IpcMessage → Option (List UInt8)
  | tx message => encodeTx message
  | rx message => encodeRx message
  | modem message => encodeSetModem message

/-- `decodeTx`, `decodeRx` or `decodeSetModem`, as the type of the frame says. -/
def decode (f : RawFrame) : Option IpcMessage :=
  match f.type with
  | .txEnqueue => (decodeTx f.body).map tx
  | .rxIndicate => (decodeRx f.body).map rx
  | .setModem => (decodeSetModem f.body).map modem

/-- The messages the protocol carries: 16 to 255 air bytes, or a preset. -/
def Carried : IpcMessage → Prop
  | tx message => 16 ≤ message.air.length ∧ message.air.length ≤ 255
  | rx message => 16 ≤ message.air.length ∧ message.air.length ≤ 255
  | modem _ => True

end IpcMessage

theorem airLengthIsValid_iff (n : ℕ) : airLengthIsValid n = true ↔ 16 ≤ n ∧ n ≤ 255 := by
  unfold airLengthIsValid kMinAirLen kMaxAirLen
  rw [decide_eq_true_iff]

theorem length_encodeRxMeta (message : RxIndicate) : (encodeRxMeta message).length = 24 := rfl

/-- Each field of `encodeRx` is read where it was written. -/
theorem decodeRx_append {message : RxIndicate} (h : airLengthIsValid message.air.length = true) :
    decodeRx (encodeRxMeta message ++ message.air) = some message := by
  have hlen := length_encodeRxMeta message
  set body := encodeRxMeta message ++ message.air with hbody
  have hbl : body.length = 24 + message.air.length := by rw [hbody, List.length_append, hlen]
  have hsnr : readLe16 body = message.snrCenti.toUInt16 := readLe16_writeLe16 _ _
  have hrssi : readLe16 (body.drop 2) = message.rssiDbm.toUInt16 := readLe16_writeLe16 _ _
  have hcfo : readLe32 (body.drop 4) = message.cfoHz.toUInt32 := readLe32_writeLe32 _ _
  have hrate : readLe32 (body.drop 8) = message.rateCenti.toUInt32 := readLe32_writeLe32 _ _
  have hfreq : readLe64 (body.drop 12) = message.freqHz := readLe64_writeLe64 _ _
  have hsir : readLe16 (body.drop 20) = message.sirCenti.toUInt16 := readLe16_writeLe16 _ _
  have hlvl : readLe16 (body.drop 22) = message.lvlCenti.toUInt16 := readLe16_writeLe16 _ _
  have hair : body.drop kRxMetaLen = message.air := rfl
  unfold decodeRx
  rw [if_neg (by rw [hbl]; unfold kRxMetaLen; omega),
    show body.length - kRxMetaLen = message.air.length by rw [hbl]; unfold kRxMetaLen; omega, h]
  simp only [hsnr, hrssi, hcfo, hrate, hfreq, hsir, hlvl, hair, Int16.toInt16_toUInt16,
    Int32.toInt32_toUInt32]
  rfl

/-- Each field that `decodeRx` reads is written back where it was read. -/
theorem encodeRxMeta_append_of_decodeRx {body : List UInt8} {message : RxIndicate}
    (h : decodeRx body = some message) : encodeRxMeta message ++ message.air = body := by
  unfold decodeRx at h
  split_ifs at h with hlen hvalid
  rw [← Option.some.inj h]
  rw [not_lt, kRxMetaLen] at hlen
  simp only [encodeRxMeta, UInt16.toUInt16_toInt16, UInt32.toUInt32_toInt32]
  rw [writeLe16_readLe16 (by omega), writeLe16_readLe16 (by rw [List.length_drop]; omega),
    writeLe32_readLe32 (by rw [List.length_drop]; omega),
    writeLe32_readLe32 (by rw [List.length_drop]; omega),
    writeLe64_readLe64 (by rw [List.length_drop]; omega),
    writeLe16_readLe16 (by rw [List.length_drop]; omega),
    writeLe16_readLe16 (by rw [List.length_drop]; omega)]
  rw [← List.take_add, ← List.take_add, ← List.take_add, ← List.take_add, ← List.take_add,
    ← List.take_add]
  exact List.take_append_drop 24 body

theorem encodeTx_of_decodeTx {body : List UInt8} {message : TxEnqueue}
    (h : decodeTx body = some message) : encodeTx message = encodeIpcFrame .txEnqueue body := by
  unfold decodeTx at h
  split_ifs at h with hlen hvalid
  rw [← Option.some.inj h, encodeTx]
  rw [not_lt, kTxMetaLen] at hlen
  simp only [List.length_drop]
  rw [if_neg hvalid, writeLe64_readLe64 hlen]
  exact congrArg _ (List.take_append_drop 8 body)

namespace IpcMessage

/-- What the protocol carries is encoded, and its frame decodes to the message. -/
theorem exists_frame {m : IpcMessage} (h : m.Carried) :
    ∃ f : IpcFrame, m.encode = some f.bytes ∧ decode { type := f.type, body := f.body } = some m := by
  cases m with
  | tx message =>
      have hvalid := (airLengthIsValid_iff _).mpr h
      have hlen : (writeLe64 message.freqHz ++ message.air).length = 8 + message.air.length := by
        rw [List.length_append, length_writeLe64]
      let f : IpcFrame :=
        { type := .txEnqueue, body := writeLe64 message.freqHz ++ message.air
          body_pos := by rw [hlen]; omega
          body_le := by rw [hlen]; unfold kMaxBodyLen kRxMetaLen kMaxAirLen; have := h.2; omega }
      have henc : encodeTx message = some f.bytes := by
        rw [encodeTx, hvalid, Bool.not_true, if_neg Bool.false_ne_true]
        exact IpcFrame.encodeIpcFrame_eq f
      obtain ⟨f', htype, hout, hdec⟩ := decodeTx_encodeTx henc
      refine ⟨f', henc.trans (congrArg some hout), ?_⟩
      simp only [decode, htype, hdec, Option.map_some]
  | rx message =>
      have hvalid := (airLengthIsValid_iff _).mpr h
      have hlen : (encodeRxMeta message ++ message.air).length = 24 + message.air.length := by
        rw [List.length_append, length_encodeRxMeta]
      let f : IpcFrame :=
        { type := .rxIndicate, body := encodeRxMeta message ++ message.air
          body_pos := by rw [hlen]; omega
          body_le := by rw [hlen]; unfold kMaxBodyLen kRxMetaLen kMaxAirLen; have := h.2; omega }
      refine ⟨f, ?_, ?_⟩
      · rw [encode, encodeRx, hvalid, Bool.not_true, if_neg Bool.false_ne_true]
        exact IpcFrame.encodeIpcFrame_eq f
      · simp only [f, decode, decodeRx_append hvalid, Option.map_some]
  | modem message =>
      let f : IpcFrame :=
        { type := .setModem, body := [message.preset]
          body_pos := by rw [List.length_singleton]; omega
          body_le := by rw [List.length_singleton]; decide }
      exact ⟨f, rfl, rfl⟩

/-- **A body that decodes is what its message encodes to.** -/
theorem encode_of_decode {f : RawFrame} {m : IpcMessage} (h : decode f = some m) :
    m.encode = encodeIpcFrame f.type f.body := by
  unfold decode at h
  split at h
  · rename_i htype
    obtain ⟨message, hdec, rfl⟩ := Option.map_eq_some_iff.mp h
    rw [htype]
    exact encodeTx_of_decodeTx hdec
  · rename_i htype
    obtain ⟨message, hdec, rfl⟩ := Option.map_eq_some_iff.mp h
    have hbody := encodeRxMeta_append_of_decodeRx hdec
    rw [htype, encode, encodeRx, hbody, if_neg]
    unfold decodeRx at hdec
    split_ifs at hdec with hlen hvalid
    rw [← Option.some.inj hdec]
    simpa only [List.length_drop] using hvalid
  · rename_i htype
    obtain ⟨message, hdec, rfl⟩ := Option.map_eq_some_iff.mp h
    rw [htype]
    unfold decodeSetModem at hdec
    split at hdec
    · rename_i preset hbody
      rw [hbody, ← Option.some.inj hdec]
      rfl
    · exact absurd hdec (by simp)

/-- A body that decodes fits a frame. -/
theorem carried_of_decode {f : RawFrame} {m : IpcMessage} (h : decode f = some m) : m.Carried := by
  unfold decode at h
  split at h
  · obtain ⟨message, hdec, rfl⟩ := Option.map_eq_some_iff.mp h
    unfold decodeTx at hdec
    split_ifs at hdec with hlen hvalid
    rw [Bool.not_eq_true, Bool.not_eq_false', airLengthIsValid_iff] at hvalid
    rw [← Option.some.inj hdec]
    simpa only [Carried, List.length_drop] using hvalid
  · obtain ⟨message, hdec, rfl⟩ := Option.map_eq_some_iff.mp h
    unfold decodeRx at hdec
    split_ifs at hdec with hlen hvalid
    rw [Bool.not_eq_true, Bool.not_eq_false', airLengthIsValid_iff] at hvalid
    rw [← Option.some.inj hdec]
    simpa only [Carried, List.length_drop] using hvalid
  · obtain ⟨message, -, rfl⟩ := Option.map_eq_some_iff.mp h
    trivial

end IpcMessage

/-! ## Streams of messages -/

namespace Deframer

/-- Between frames, bytes other than the first of the magic are dropped. -/
theorem feed_gap {d : Deframer} (h : d.state = .scanMagic0) {gap : List UInt8}
    (hgap : kMagic0 ∉ gap) : d.feed gap = (d, []) := by
  induction gap with
  | nil => rfl
  | cons b gap ih =>
      rw [List.mem_cons, not_or] at hgap
      have hbyte : d.feedByte b = (d, []) := by
        unfold feedByte
        rw [h]
        simp only
        rw [if_neg (Ne.symm hgap.1)]
      rw [feed, hbyte]
      simp only [ih hgap.2, List.append_nil]

/-- A whole frame read between frames comes out, and the parser is between frames. -/
theorem feed_frame {d : Deframer} (h : d.state = .scanMagic0) (f : IpcFrame) :
    (d.feed f.bytes).2 = [{ type := f.type, body := f.body }] ∧
      (d.feed f.bytes).1.state = .scanMagic0 := by
  obtain ⟨r, hhead⟩ := feed_header (Or.inl h) f
  have hne : f.body ≠ [] := List.ne_nil_of_length_pos f.body_pos
  rw [IpcFrame.bytes, feed_append, hhead]
  simp only
  rw [feed_body_full rfl f.body hne (by simp)]
  exact ⟨rfl, rfl⟩

end Deframer

namespace IpcMessage

/-- The bytes of a run of messages, each with the bytes put before its frame. -/
def wire (ms : List (List UInt8 × IpcMessage)) : List UInt8 :=
  ms.flatMap fun m => m.1 ++ (m.2.encode).getD []

end IpcMessage

namespace Deframer

/-- A run of messages comes out as sent, whatever stands between the frames. -/
theorem feed_wire {d : Deframer} (h : d.state = .scanMagic0)
    {ms : List (List UInt8 × IpcMessage)} (hcarried : ∀ m ∈ ms, m.2.Carried)
    (hgap : ∀ m ∈ ms, kMagic0 ∉ m.1) :
    (d.feed (IpcMessage.wire ms)).2.map IpcMessage.decode = ms.map (fun m => some m.2) ∧
      (d.feed (IpcMessage.wire ms)).1.state = .scanMagic0 := by
  induction ms generalizing d with
  | nil => exact ⟨rfl, h⟩
  | cons m ms ih =>
      obtain ⟨f, henc, hdec⟩ := IpcMessage.exists_frame (hcarried m (List.mem_cons_self ..))
      obtain ⟨hout, hst⟩ := feed_frame h f
      have hrest := ih hst (fun m' hm' => hcarried m' (List.mem_cons_of_mem _ hm'))
        (fun m' hm' => hgap m' (List.mem_cons_of_mem _ hm'))
      have hsplit : IpcMessage.wire (m :: ms) = m.1 ++ (f.bytes ++ IpcMessage.wire ms) := by
        rw [IpcMessage.wire, List.flatMap_cons, henc, List.append_assoc]
        rfl
      rw [hsplit, feed_append, feed_gap h (hgap m (List.mem_cons_self ..))]
      simp only
      rw [feed_append, List.nil_append]
      refine ⟨?_, hrest.2⟩
      simp only
      rw [hout, List.map_append, hrest.1, List.map_cons, List.map_nil, hdec]
      rfl

/-- **Air-IPC round trip.**  A fresh parser fed a run of messages, with bytes other than the
first of the magic between the frames and the reads cutting the stream anywhere, emits one
frame for each message, in order, that decodes to it; and a body that decodes is the body
its message is encoded with. -/
theorem deframer_round_trip (ms : List (List UInt8 × IpcMessage)) (tail : List UInt8)
    (chunks : List (List UInt8)) (hcarried : ∀ m ∈ ms, m.2.Carried)
    (hgap : ∀ m ∈ ms, kMagic0 ∉ m.1) (htail : kMagic0 ∉ tail)
    (hchunks : chunks.flatten = IpcMessage.wire ms ++ tail) :
    (∀ m ∈ ms, (m.2.encode).isSome = true) ∧
    (({} : Deframer).feedAll chunks).2.map IpcMessage.decode = ms.map (fun m => some m.2) ∧
    ∀ (f : RawFrame) (m : IpcMessage), IpcMessage.decode f = some m →
      m.encode = encodeIpcFrame f.type f.body ∧ (m.encode).isSome = true := by
  have hsome : ∀ m : IpcMessage, m.Carried → (m.encode).isSome = true := by
    intro m hm
    obtain ⟨f, henc, -⟩ := IpcMessage.exists_frame hm
    rw [henc]
    rfl
  refine ⟨fun m hm => hsome m.2 (hcarried m hm), ?_, ?_⟩
  · have hfresh : ({} : Deframer).state = .scanMagic0 := rfl
    obtain ⟨hout, hst⟩ := feed_wire hfresh hcarried hgap
    rw [feedAll_eq, hchunks, feed_append, feed_gap hst htail]
    simp only
    rw [List.append_nil]
    exact hout
  · intro f m hdec
    exact ⟨IpcMessage.encode_of_decode hdec, hsome m (IpcMessage.carried_of_decode hdec)⟩

/-- A preset and a packet of 16 bytes, cut in the middle of both frames. -/
theorem deframer_round_trip_two :
    (({} : Deframer).feedAll
      [[0, 0x51, 0x46, 1, 3, 0], [1, 9, 7, 0x51, 0x46, 1, 1],
        [0, 24, 2, 0, 0, 0, 0, 0, 0, 0] ++ List.replicate 16 0x51 ++ [0x46]]).2.map
          IpcMessage.decode
      = [some (.modem { preset := 9 }),
          some (.tx { freqHz := 2, air := List.replicate 16 0x51 })] :=
  (deframer_round_trip
    [([0], .modem { preset := 9 }), ([7], .tx { freqHz := 2, air := List.replicate 16 0x51 })]
    [0x46] _ (by simp [IpcMessage.Carried]) (by decide) (by decide) (by decide)).2.1

/-! ## What lies behind an emitted frame -/

/-- `reset`. -/
def reset (d : Deframer) : Deframer :=
  { d with state := .scanMagic0, type := .txEnqueue, bodyLength := 0, body := [] }

/-- The `produced` counter of `feed`, its return value: one for each completed body. -/
def produced (d : Deframer) : List UInt8 → ℕ
  | [] => 0
  | byte :: bytes =>
      (if d.state = .body ∧ (d.body ++ [byte]).length = d.bodyLength then 1 else 0)
        + (d.feedByte byte).1.produced bytes

/-- The return values of `feed` over the reads of one connection. -/
def producedAll (d : Deframer) : List (List UInt8) → List ℕ
  | [] => []
  | chunk :: chunks => d.produced chunk :: (d.feed chunk).1.producedAll chunks

/-- `seg` is the frame `f` as the stream carries it: magic, version, a known type, the body
length in two bytes, and the body. -/
def FrameSegment (seg : List UInt8) (f : RawFrame) : Prop :=
  ∃ hi lo : UInt8, seg = [0x51, 0x46, 0x01, f.type.toByte, hi, lo] ++ f.body ∧
    256 * hi.toNat + lo.toNat = f.body.length ∧ 1 ≤ f.body.length ∧ f.body.length ≤ 279

/-- The stream `bytes` holds the frames `out` one after the other, in disjoint segments. -/
inductive Holds : List UInt8 → List RawFrame → Prop
  | nil (rest : List UInt8) : Holds rest []
  | cons (gap : List UInt8) {seg bytes : List UInt8} {f : RawFrame} {out : List RawFrame}
      (hseg : FrameSegment seg f) (htail : Holds bytes out) :
      Holds (gap ++ seg ++ bytes) (f :: out)

/-- The part of a frame that has been read, as the last bytes of `rest`. -/
def Pending (d : Deframer) (rest : List UInt8) : Prop :=
  match d.state with
  | .scanMagic0 => True
  | .expectMagic1 => [0x51] <:+ rest
  | .version => [0x51, 0x46] <:+ rest
  | .type => [0x51, 0x46, 0x01] <:+ rest
  | .lenHi => [0x51, 0x46, 0x01, d.type.toByte] <:+ rest
  | .lenLo => ∃ hi : UInt8, d.bodyLength = hi.toNat <<< 8 ∧
      [0x51, 0x46, 0x01, d.type.toByte, hi] <:+ rest
  | .body => ∃ hi lo : UInt8, d.bodyLength = 256 * hi.toNat + lo.toNat ∧
      d.body.length < d.bodyLength ∧ d.bodyLength ≤ kMaxBodyLen ∧
      [0x51, 0x46, 0x01, d.type.toByte, hi, lo] ++ d.body <:+ rest

theorem suffix_concat {l rest : List UInt8} (h : l <:+ rest) (b : UInt8) :
    l ++ [b] <:+ rest ++ [b] := by
  obtain ⟨gap, rfl⟩ := h
  exact ⟨gap, (List.append_assoc ..).symm⟩

/-- A rejected byte may start the next frame. -/
theorem rejectAndResync_pending (d : Deframer) (rest : List UInt8) (b : UInt8) :
    (d.rejectAndResync b).Pending (rest ++ [b]) := by
  unfold rejectAndResync Pending
  by_cases hb : b = kMagic0
  · rw [if_pos hb, hb]
    exact List.suffix_append rest [kMagic0]
  · rw [if_neg hb]
    trivial

/-- `produced` and `framesOk` count what is emitted. -/
theorem length_feedByte (d : Deframer) (b : UInt8) :
    (d.feedByte b).2.length
        = (if d.state = .body ∧ (d.body ++ [b]).length = d.bodyLength then 1 else 0) ∧
      (d.feedByte b).1.framesOk = d.framesOk + (d.feedByte b).2.length := by
  unfold feedByte rejectAndResync
  cases hst : d.state with
  | body =>
      by_cases hfull : (d.body ++ [b]).length = d.bodyLength
      · simp only [hfull, if_true, and_self, List.length_singleton]
      · simp only [hfull, if_false, and_false, List.length_nil, Nat.add_zero, and_self]
  | scanMagic0 =>
      simp only [reduceCtorEq, false_and, if_false]
      split_ifs <;> exact ⟨rfl, rfl⟩
  | expectMagic1 =>
      simp only [reduceCtorEq, false_and, if_false]
      split_ifs <;> exact ⟨rfl, rfl⟩
  | version =>
      simp only [reduceCtorEq, false_and, if_false]
      split_ifs <;> exact ⟨rfl, rfl⟩
  | type =>
      simp only [reduceCtorEq, false_and, if_false]
      split <;> exact ⟨rfl, rfl⟩
  | lenHi =>
      simp only [reduceCtorEq, false_and, if_false]
      exact ⟨rfl, rfl⟩
  | lenLo =>
      simp only [reduceCtorEq, false_and, if_false]
      split_ifs <;> exact ⟨rfl, rfl⟩

/-- Up to the body a byte emits nothing, and what is pending grows by it. -/
theorem feedByte_header {d : Deframer} {rest : List UInt8} (h : d.Pending rest)
    (hstate : d.state ≠ .body) (b : UInt8) :
    (d.feedByte b).2 = [] ∧ (d.feedByte b).1.Pending (rest ++ [b]) := by
  unfold Pending at h
  unfold feedByte
  cases hst : d.state with
  | scanMagic0 =>
      refine ⟨rfl, ?_⟩
      simp only
      by_cases hb : b = kMagic0
      · rw [if_pos hb, hb]
        exact List.suffix_append rest [kMagic0]
      · rw [if_neg hb, Pending, hst]
        trivial
  | expectMagic1 =>
      rw [hst] at h
      refine ⟨rfl, ?_⟩
      simp only
      split_ifs with h1 h0
      · rw [h1]
        exact suffix_concat h kMagic1
      · trivial
      · rw [not_not] at h0
        rw [Pending, hst, h0]
        exact List.suffix_append rest [kMagic0]
  | version =>
      rw [hst] at h
      refine ⟨rfl, ?_⟩
      simp only
      split_ifs with hb
      · exact rejectAndResync_pending d rest b
      · rw [not_not] at hb
        rw [hb]
        exact suffix_concat h kProtocolVersion
  | type =>
      rw [hst] at h
      simp only
      cases htype : MsgType.ofByte b with
      | none => exact ⟨rfl, rejectAndResync_pending d rest b⟩
      | some type =>
          refine ⟨rfl, ?_⟩
          rw [← MsgType.toByte_ofByte htype]
          exact suffix_concat h type.toByte
  | lenHi =>
      rw [hst] at h
      exact ⟨rfl, b, rfl, suffix_concat h b⟩
  | lenLo =>
      rw [hst] at h
      obtain ⟨hi, hlen, hsuf⟩ := h
      simp only
      split_ifs with hbad
      · exact ⟨rfl, trivial⟩
      · have hcode : d.bodyLength ||| b.toNat = 256 * hi.toNat + b.toNat := by
          rw [hlen, ← Nat.shiftLeft_add_eq_or_of_lt b.toNat_lt, Nat.shiftLeft_eq, Nat.mul_comm]
        refine ⟨rfl, hi, b, hcode, ?_, ?_, ?_⟩
        · simp only [List.length_nil]
          omega
        · simp only
          omega
        · simp only [List.append_nil]
          exact suffix_concat hsuf b
  | body => exact absurd hst hstate

/-- A byte of the body: what is pending grows by it, or it completes a frame. -/
theorem feedByte_body {d : Deframer} {rest : List UInt8} (h : d.Pending rest)
    (hst : d.state = .body) (b : UInt8) :
    ((d.feedByte b).2 = [] ∧ (d.feedByte b).1.Pending (rest ++ [b])) ∨
      ∃ f gap seg, (d.feedByte b).2 = [f] ∧ rest ++ [b] = gap ++ seg ∧ FrameSegment seg f ∧
        (d.feedByte b).1.state = .scanMagic0 := by
  rw [Pending, hst] at h
  obtain ⟨hi, lo, hlen, hlt, hle, hsuf⟩ := h
  have hsuf' := suffix_concat hsuf b
  rw [List.append_assoc] at hsuf'
  unfold feedByte
  simp only [hst]
  split_ifs with hfull
  · -- the last byte of the body
    right
    obtain ⟨gap, hgap⟩ := hsuf'
    have hbody : (d.body ++ [b]).length ≤ kMaxBodyLen := by rw [hfull]; exact hle
    refine ⟨_, gap, _, rfl, hgap.symm, ⟨hi, lo, rfl, ?_, ?_, hbody⟩, rfl⟩
    · rw [hfull, hlen]
    · rw [List.length_append, List.length_singleton]
      omega
  · left
    refine ⟨rfl, ?_⟩
    rw [Pending]
    simp only
    refine ⟨hi, lo, hlen, ?_, hle, hsuf'⟩
    simp only [List.length_append, List.length_singleton] at hfull ⊢
    omega

/-- Reading one byte: what is pending grows by it, or it completes a frame. -/
theorem feedByte_pending {d : Deframer} {rest : List UInt8} (h : d.Pending rest) (b : UInt8) :
    ((d.feedByte b).2 = [] ∧ (d.feedByte b).1.Pending (rest ++ [b])) ∨
      ∃ f gap seg, (d.feedByte b).2 = [f] ∧ rest ++ [b] = gap ++ seg ∧ FrameSegment seg f ∧
        (d.feedByte b).1.state = .scanMagic0 := by
  by_cases hst : d.state = .body
  · exact feedByte_body h hst b
  · exact Or.inl (feedByte_header h hst b)

/-- The emitted frames lie one after the other in what was read. -/
theorem feed_holds {d : Deframer} {rest : List UInt8} (h : d.Pending rest) (bs : List UInt8) :
    Holds (rest ++ bs) (d.feed bs).2 := by
  induction bs generalizing d rest with
  | nil => exact Holds.nil _
  | cons b bs ih =>
      have hsplit : rest ++ b :: bs = (rest ++ [b]) ++ bs := by
        rw [List.append_assoc, List.singleton_append]
      rw [feed, hsplit]
      simp only
      rcases feedByte_pending h b with ⟨hnil, hp⟩ | ⟨f, gap, seg, hout, heq, hseg, hst⟩
      · rw [hnil, List.nil_append]
        exact ih hp
      · rw [hout, heq, List.singleton_append]
        apply Holds.cons gap hseg
        -- the parser looks for the next frame in what follows
        have hp : (d.feedByte b).1.Pending [] := by
          rw [Pending, hst]
          trivial
        exact ih hp

/-- Every state on the way has a part of a frame pending. -/
theorem feed_pending {d : Deframer} {rest : List UInt8} (h : d.Pending rest) (bs : List UInt8) :
    ∃ rest', (d.feed bs).1.Pending rest' := by
  induction bs generalizing d rest with
  | nil => exact ⟨rest, h⟩
  | cons b bs ih =>
      rw [feed]
      rcases feedByte_pending h b with ⟨-, hp⟩ | ⟨f, gap, seg, -, -, -, hst⟩
      · exact ih hp
      · have hp : (d.feedByte b).1.Pending [] := by
          rw [Pending, hst]
          trivial
        exact ih hp

/-- The return value of `feed` is the number of frames it emits, as is the increase of
`framesOk`. -/
theorem length_feed (d : Deframer) (bs : List UInt8) :
    (d.feed bs).2.length = d.produced bs ∧
      (d.feed bs).1.framesOk = d.framesOk + (d.feed bs).2.length := by
  induction bs generalizing d with
  | nil => exact ⟨rfl, rfl⟩
  | cons b bs ih =>
      obtain ⟨hlen, hok⟩ := length_feedByte d b
      obtain ⟨ihlen, ihok⟩ := ih (d.feedByte b).1
      rw [feed, produced, ← hlen, ← ihlen]
      simp only
      rw [ihok, hok, List.length_append, Nat.add_assoc]
      exact ⟨rfl, rfl⟩

theorem sum_producedAll (d : Deframer) (chunks : List (List UInt8)) :
    (d.producedAll chunks).sum = d.produced chunks.flatten := by
  induction chunks generalizing d with
  | nil => rfl
  | cons chunk chunks ih =>
      rw [producedAll, List.sum_cons, ih, List.flatten_cons, ← (length_feed _ _).1,
        ← (length_feed _ _).1, ← (length_feed _ _).1, feed_append, List.length_append]

/-- **Every emitted frame lies in the stream.**  Over any reads, a fresh or reset parser
emits frames that are disjoint segments of what was read, in order, each with a known type
and its coded length; `feed` returns how many, `framesOk` counts them, and a body being
read is shorter than its coded length, which fits a frame. -/
theorem deframer_segments (d : Deframer) (chunks : List (List UInt8)) :
    Holds chunks.flatten (d.reset.feedAll chunks).2 ∧
    (d.reset.producedAll chunks).sum = (d.reset.feedAll chunks).2.length ∧
    (d.reset.feedAll chunks).1.framesOk
      = d.reset.framesOk + (d.reset.feedAll chunks).2.length ∧
    ∀ read, read <+: chunks.flatten → (d.reset.feed read).1.state = .body →
      (d.reset.feed read).1.body.length < (d.reset.feed read).1.bodyLength ∧
        (d.reset.feed read).1.bodyLength ≤ kMaxBodyLen := by
  have hstart : d.reset.Pending [] := trivial
  obtain ⟨hlen, hok⟩ := length_feed d.reset chunks.flatten
  rw [feedAll_eq, sum_producedAll]
  refine ⟨feed_holds hstart chunks.flatten, hlen.symm, hok, ?_⟩
  intro read _ hbody
  obtain ⟨rest, hp⟩ := feed_pending hstart read
  rw [Pending, hbody] at hp
  obtain ⟨hi, lo, -, hlt, hle, -⟩ := hp
  exact ⟨hlt, hle⟩

end Deframer
