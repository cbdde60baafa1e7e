/-
# From node to node

A node hands packets to its PHY as messages on a socket, the PHY puts their frames on the air, and
another PHY reads them off and hands them to its node the same way.  However the sockets cut the
streams, the transmitter is pulled and the threads of the node take turns, and with any gain and
whole-chip carrier in between, the packets of the frames that are caught arrive as they were sent,
each once and in order (`packets_delivered`).
-/
import QuadrfMesh.AirIpc.Stream
import QuadrfMesh.Phy.AirStream
import QuadrfMesh.Phy.Echo
import QuadrfMesh.Radio.Receive

open Fourier Mesh

/-! ## The sockets -/

/-- The frames of a stream, in whatever pieces it comes. -/
def framesOf (chunks : List (List UInt8)) : List RawFrame := (({} : Deframer).feedAll chunks).2

/-- `handleIpcFrames` on a frame that is no `SetModem`: the air frame it enqueues. -/
def enqueuedAir (fr : RawFrame) : Option (List UInt8) :=
  match fr.type with
  | .txEnqueue => (decodeTx fr.body).map TxEnqueue.air
  | _ => none

/-- `rxThreadMain` on a frame: the body it takes for an `RxIndicate`. -/
def indicatedBody (fr : RawFrame) : Option (List UInt8) :=
  match fr.type with
  | .rxIndicate => some fr.body
  | _ => none

/-- Messages one after the other. -/
def messageStream (ms : List IpcMessage) : List UInt8 := IpcMessage.wire (ms.map fun m => ([], m))

theorem decode_framesOf {ms : List IpcMessage} (hcarried : ∀ m ∈ ms, m.Carried)
    {chunks : List (List UInt8)} (hchunks : chunks.flatten = messageStream ms) :
    (framesOf chunks).map IpcMessage.decode = ms.map some := by
  have hcarried' : ∀ m ∈ ms.map fun m => (([] : List UInt8), m), m.2.Carried := by
    simpa using hcarried
  have h := (Deframer.feed_wire (show ({} : Deframer).state = .scanMagic0 from rfl) hcarried'
    (by simp)).1
  rw [framesOf, Deframer.feedAll_eq, hchunks, messageStream, h, List.map_map]
  rfl

/-- A `TxEnqueue` that comes through is enqueued. -/
theorem enqueuedAir_of_decode {fr : RawFrame} {message : TxEnqueue}
    (h : IpcMessage.decode fr = some (.tx message)) : enqueuedAir fr = some message.air := by
  unfold IpcMessage.decode at h
  unfold enqueuedAir
  cases htype : fr.type with
  | txEnqueue =>
      rw [htype] at h
      obtain ⟨message', hdecode, hmessage⟩ := Option.map_eq_some_iff.mp h
      simp only [hdecode, Option.map_some]
      rw [IpcMessage.tx.inj hmessage]
  | rxIndicate =>
      rw [htype] at h
      obtain ⟨_, -, hne⟩ := Option.map_eq_some_iff.mp h
      exact absurd hne (by simp)
  | setModem =>
      rw [htype] at h
      obtain ⟨_, -, hne⟩ := Option.map_eq_some_iff.mp h
      exact absurd hne (by simp)

/-- An `RxIndicate` that comes through is read. -/
theorem indicatedBody_of_decode {fr : RawFrame} {message : RxIndicate}
    (h : IpcMessage.decode fr = some (.rx message)) :
    indicatedBody fr = some fr.body ∧ decodeRx fr.body = some message := by
  unfold IpcMessage.decode at h
  unfold indicatedBody
  cases htype : fr.type with
  | rxIndicate =>
      rw [htype] at h
      obtain ⟨message', hdecode, hmessage⟩ := Option.map_eq_some_iff.mp h
      rw [hdecode, IpcMessage.rx.inj hmessage]
      exact ⟨rfl, rfl⟩
  | txEnqueue =>
      rw [htype] at h
      obtain ⟨_, -, hne⟩ := Option.map_eq_some_iff.mp h
      exact absurd hne (by simp)
  | setModem =>
      rw [htype] at h
      obtain ⟨_, -, hne⟩ := Option.map_eq_some_iff.mp h
      exact absurd hne (by simp)

/-- Messages of one kind, read off the frames they come in. -/
theorem filterMap_of_decode {α β : Type} {inj : α → IpcMessage} {f : RawFrame → Option β} {g : α → β}
    (hf : ∀ fr a, IpcMessage.decode fr = some (inj a) → f fr = some (g a)) {frames : List RawFrame}
    {as : List α} (h : frames.map IpcMessage.decode = (as.map inj).map some) :
    frames.filterMap f = as.map g := by
  induction as generalizing frames with
  | nil =>
      obtain rfl := List.map_eq_nil_iff.mp h
      rfl
  | cons a as ih =>
      obtain ⟨fr, frames', rfl, hfr, hrest⟩ := List.map_eq_cons_iff.mp h
      rw [List.filterMap_cons_some (hf fr a hfr), ih hrest, List.map_cons]

/-- **What the PHY enqueues** is what the node sent. -/
theorem filterMap_enqueuedAir {messages : List TxEnqueue}
    (hair : ∀ message ∈ messages, airLengthIsValid message.air.length = true)
    {chunks : List (List UInt8)} (hchunks : chunks.flatten = messageStream (messages.map .tx)) :
    (framesOf chunks).filterMap enqueuedAir = messages.map TxEnqueue.air := by
  have hcarried : ∀ m ∈ messages.map IpcMessage.tx, m.Carried := by
    intro m hm
    obtain ⟨message, hmem, rfl⟩ := List.mem_map.mp hm
    exact (airLengthIsValid_iff _).mp (hair message hmem)
  exact filterMap_of_decode (fun _ _ => enqueuedAir_of_decode) (decode_framesOf hcarried hchunks)

/-- **What the node reads** is what the PHY indicated. -/
theorem map_decodeRx_indicatedBody {messages : List RxIndicate}
    (hair : ∀ message ∈ messages, airLengthIsValid message.air.length = true)
    {chunks : List (List UInt8)} (hchunks : chunks.flatten = messageStream (messages.map .rx)) :
    ((framesOf chunks).filterMap indicatedBody).map decodeRx = messages.map some := by
  have hcarried : ∀ m ∈ messages.map IpcMessage.rx, m.Carried := by
    intro m hm
    obtain ⟨message, hmem, rfl⟩ := List.mem_map.mp hm
    exact (airLengthIsValid_iff _).mp (hair message hmem)
  rw [List.map_filterMap]
  refine filterMap_of_decode (fun fr message h => ?_) (decode_framesOf hcarried hchunks)
  obtain ⟨hbody, hdecode⟩ := indicatedBody_of_decode h
  rw [hbody, Option.map_some, hdecode]

/-! ## The receiving PHY -/

section Drain

variable {Sample : Type}

/-- `drainRx` on the frames popped, one after the other. -/
def drainFrames (selftest : Bool) (s : EchoState Sample) (decodes : List DecodeResult) :
    EchoState Sample :=
  decodes.foldl (fun s decode => drainRx selftest s true decode) s

/-- Good frames of others are all forwarded. -/
theorem rxIndicates_drainFrames (selftest : Bool) (s : EchoState Sample)
    {decodes : List DecodeResult}
    (hgood : ∀ d ∈ decodes, d.header.valid = true ∧ d.crcOk = true ∧ d.payload ∉ s.recentTx) :
    (drainFrames selftest s decodes).rxIndicates
      = s.rxIndicates ++ decodes.map DecodeResult.payload := by
  induction decodes generalizing s with
  | nil => exact (List.append_nil _).symm
  | cons d decodes ih =>
      obtain ⟨hvalid, hcrc, hecho⟩ := hgood d List.mem_cons_self
      have hstep : drainRx selftest s true d
          = { s with rxIndicates := s.rxIndicates ++ [d.payload] } := by
        have hnot : isRecentTxEcho s.recentTx d.payload = false := by
          rw [isRecentTxEcho, List.contains_eq_mem]
          exact decide_eq_false hecho
        simp [drainRx, hvalid, hcrc, hnot]
      have hrest := ih { s with rxIndicates := s.rxIndicates ++ [d.payload] } fun d' hd' =>
        hgood d' (List.mem_cons_of_mem _ hd')
      rw [drainFrames, List.foldl_cons, hstep]
      refine hrest.trans ?_
      rw [List.append_assoc, List.singleton_append, List.map_cons]

end Drain

/-! ## The receiving node -/

namespace NodeRx

/-- The bodies the RX thread hands on. -/
def bodiesOf (acts : List NodeRxAction) : List (List UInt8) :=
  acts.filterMap fun a => match a with
    | .indicate body => some body
    | _ => none

theorem arrived_eq (acts : List NodeRxAction) :
    arrived acts = ((bodiesOf acts).map decodeRx).filterMap fun rx => rx.map RxIndicate.frame := by
  rw [bodiesOf, List.map_filterMap, List.filterMap_filterMap, arrived]
  congr 1
  funext a
  cases a <;> rfl

/-- **Nothing waiting means that all is delivered.** -/
theorem delivered_of_empty (payloadSize : ℕ) (nodeNum : Option UInt32) (acts : List NodeRxAction)
    (hempty : (run payloadSize nodeNum acts).waiting = []) :
    (run payloadSize nodeNum acts).delivered.map Prod.fst
      = (arrived acts).filterMap (packetOf payloadSize nodeNum) := by
  obtain ⟨taken, h⟩ := accounted_run payloadSize nodeNum acts
  rw [h.delivered, h.queue, hempty, List.append_nil]

end NodeRx

/-! ## End to end -/

/-- The frame of a packet. -/
def airOf (pkt : Packet) : List UInt8 := packHeader pkt.header ++ pkt.encrypted

/-- The packet as the flags byte carries it. -/
def carriedPacket (pkt : Packet) : Packet := { pkt with header := pkt.header.carried }

/-- A packet that fits. -/
def Sendable (pkt : Packet) : Prop :=
  pkt.header.from_ ≠ 0 ∧ pkt.encrypted.length ≤ kMaxEncryptedLength

theorem airLengthIsValid_airOf {pkt : Packet} (h : Sendable pkt) :
    airLengthIsValid (airOf pkt).length = true := by
  obtain ⟨-, hlen⟩ := h
  rw [airLengthIsValid_iff, airOf, List.length_append, length_packHeader, kHeaderLength]
  unfold kMaxEncryptedLength kMaxPayloadLength kHeaderLength at hlen
  omega

theorem packPacket_eq {pkt : Packet} (h : Sendable pkt) : packPacket pkt = some (airOf pkt) :=
  if_neg (not_or.mpr ⟨h.1, not_lt.mpr h.2⟩)

/-- What the node makes of the frame of a packet. -/
theorem packetOf_airOf {payloadSize : ℕ} (hsize : kMaxEncryptedLength ≤ payloadSize)
    (nodeNum : Option UInt32) {rx : RxIndicate} {pkt : Packet} (hpkt : Sendable pkt)
    (hair : rx.air = airOf pkt) :
    NodeRx.packetOf payloadSize nodeNum rx.frame
      = if nodeNum = some pkt.header.from_ then none
        else some (radioPacket rx.frame (carriedPacket pkt)) := by
  have hvalid : airLengthIsValid rx.frame.air.length = true := by
    rw [RxIndicate.frame, hair]
    exact airLengthIsValid_airOf hpkt
  have hread : unpackPacket rx.frame.air = some (carriedPacket pkt) := by
    rw [RxIndicate.frame, hair]
    exact unpackPacket_packPacket (packPacket_eq hpkt)
  rw [NodeRx.packetOf, readFrame_unpackPacket hsize nodeNum _ hvalid, hread]
  have hfrom : (carriedPacket pkt).header.from_ = pkt.header.from_ := rfl
  by_cases hself : nodeNum = some pkt.header.from_
  · simp only [hfrom, if_pos hself]
  · simp only [hfrom, if_neg hself]

/-- The packets that frames with these packets bring. -/
theorem filterMap_packetOf {payloadSize : ℕ} (hsize : kMaxEncryptedLength ≤ payloadSize)
    (nodeNum : Option UInt32) {rxs : List RxIndicate} {packets : List Packet}
    (hpackets : ∀ pkt ∈ packets, Sendable pkt) (hair : rxs.map RxIndicate.air = packets.map airOf) :
    (rxs.map RxIndicate.frame).filterMap (NodeRx.packetOf payloadSize nodeNum)
      = (rxs.zip packets).filterMap fun x =>
          if nodeNum = some x.2.header.from_ then none
          else some (radioPacket x.1.frame (carriedPacket x.2)) := by
  induction rxs generalizing packets with
  | nil => rfl
  | cons rx rxs ih =>
      obtain ⟨pkt, packets', rfl, hpkt, hrest⟩ := List.map_eq_cons_iff.mp hair.symm
      have hfirst := packetOf_airOf hsize nodeNum (hpackets pkt List.mem_cons_self) hpkt.symm
      have hih := ih (fun p hp => hpackets p (List.mem_cons_of_mem _ hp)) hrest.symm
      rw [List.map_cons, List.zip_cons_cons, List.filterMap_cons, List.filterMap_cons, hfirst, hih]

/-- A PHY with the transmitter `tx` has sent the packets its node handed it: the messages came in
some pieces, their frames were queued in some order of calls, and nothing is left. -/
structure Sent (p : LoraParams) (forward : List ℂ → List ℂ) (amplitude : ℝ) (tx : Transmitter ℂ)
    (packets : List Packet) (ops : List (Transmitter.Op ℂ)) : Prop where
  queued : ∃ chunks : List (List UInt8),
    chunks.flatten = messageStream (packets.map fun pkt => .tx { air := airOf pkt }) ∧
    Transmitter.queuedFrames ops = ((framesOf chunks).filterMap enqueuedAir).map fun air =>
      modulate (complexOps forward) amplitude p (encodeFrame p air)
  uncleared : .clearQueue ∉ ops
  idle : (tx.calls ops).2.isIdle = true

/-- A node has taken in the messages of its PHY: they came in some pieces, the threads took turns
in some order, and nothing is left. -/
structure TakenIn (payloadSize : ℕ) (nodeNum : Option UInt32) (rxs : List RxIndicate)
    (acts : List NodeRxAction) : Prop where
  read : ∃ chunks : List (List UInt8), chunks.flatten = messageStream (rxs.map .rx) ∧
    NodeRx.bodiesOf acts = (framesOf chunks).filterMap indicatedBody
  idle : (NodeRx.run payloadSize nodeNum acts).waiting = []

section EndToEnd

variable {p : LoraParams} (hp : LegalParams p) (hos : 0 < osFactor p)
  (hfits : samplesPerSymbol p < 2 ^ 32) (hpre : 0 < p.preambleLen)
  {forward : List ℂ → List ℂ} (hforward : ∀ x, forward x = dft x)
  {amplitude : ℝ} (hamp : amplitude ≠ 0) {g : ℂ} (hg : g ≠ 0) (c : ℤ)
include hp hos hfits hpre hforward hamp hg

/-- **From node to node.**  There is a place for each packet in what the sending PHY wrote, in
order, such that of any of these that are caught behind the channel the receiving PHY forwards
every frame, and its node delivers the packets, as they were sent and in order, but its own. -/
theorem packets_delivered {amplitude' : ℂ} {warmupSyms gapSyms : ℕ} {tx : Transmitter ℂ}
    (htx : tx = { Transmitter.new p amplitude' with warmupSyms, gapSyms })
    {packets : List Packet} (hpackets : ∀ pkt ∈ packets, Sendable pkt)
    {ops : List (Transmitter.Op ℂ)} (hsent : Sent p forward amplitude tx packets ops)
    {payloadSize : ℕ} (hsize : kMaxEncryptedLength ≤ payloadSize) (nodeNum : Option UInt32) :
    ∃ starts : List ℕ, starts.Pairwise (· < ·) ∧ starts.length = packets.length ∧
      ∀ caught : List (Packet × ℕ), caught.Sublist (packets.zip starts) →
        ∀ (s : EchoState ℂ) (n : ℕ),
          (∀ x ∈ caught, airOf x.1 ∉ s.recentTx ∧ frameSymbolCount p (airOf x.1).length ≤ n) →
          (drainFrames false s (caught.map fun x =>
            decodeFrame p (frameValues (complexOps forward) p
              ((channel g (chipOffset p c) (tx.calls ops).1.flatten).drop x.2) n))).rxIndicates
            = s.rxIndicates ++ caught.map (fun x => airOf x.1) ∧
          ∀ (rxs : List RxIndicate) (acts : List NodeRxAction),
            rxs.map RxIndicate.air = caught.map (fun x => airOf x.1) →
            TakenIn payloadSize nodeNum rxs acts →
            (NodeRx.run payloadSize nodeNum acts).delivered.map Prod.fst
              = (rxs.zip (caught.map Prod.fst)).filterMap fun x =>
                  if nodeNum = some x.2.header.from_ then none
                  else some (radioPacket x.1.frame (carriedPacket x.2)) := by
  obtain ⟨⟨chunks, hchunks, hqueued⟩, hclear, hidle⟩ := hsent
  have hvalid : ∀ pkt ∈ packets, airLengthIsValid (airOf pkt).length = true := fun pkt hmem =>
    airLengthIsValid_airOf (hpackets pkt hmem)
  -- the frames queued are those of the packets
  have henqueued : (framesOf chunks).filterMap enqueuedAir = packets.map airOf := by
    have hmessages : chunks.flatten
        = messageStream ((packets.map fun pkt => ({ air := airOf pkt } : TxEnqueue)).map .tx) := by
      rw [hchunks, List.map_map]
      rfl
    rw [filterMap_enqueuedAir (fun message hmem => ?_) hmessages, List.map_map]
    · rfl
    · obtain ⟨pkt, hpkt, rfl⟩ := List.mem_map.mp hmem
      exact hvalid pkt hpkt
  rw [henqueued] at hqueued
  have hlen : ∀ air ∈ packets.map airOf, 1 ≤ air.length ∧ air.length ≤ 255 := by
    intro air hmem
    obtain ⟨pkt, hpkt, rfl⟩ := List.mem_map.mp hmem
    obtain ⟨h16, h255⟩ := (airLengthIsValid_iff _).mp (hvalid pkt hpkt)
    exact ⟨by omega, h255⟩
  obtain ⟨starts, hlt, hreads⟩ := calls_onAir hp hos hfits hpre hforward hamp hg c htx hlen hqueued
    hclear hidle
  rw [List.forall₂_map_left_iff, List.forall₂_iff_zip] at hreads
  obtain ⟨hcount, hread⟩ := hreads
  refine ⟨starts, hlt, hcount.symm, fun caught hcaught s n hs => ?_⟩
  have hmem : ∀ x ∈ caught, x.1 ∈ packets := fun x hx =>
    (List.of_mem_zip (hcaught.subset hx)).1
  have hdecode : ∀ x ∈ caught, decodeFrame p (frameValues (complexOps forward) p
      ((channel g (chipOffset p c) (tx.calls ops).1.flatten).drop x.2) n)
      = frameResult p (airOf x.1) (frameSymbolCount p (airOf x.1).length) := fun x hx =>
    hread (hcaught.subset hx) n (hs x hx).2
  refine ⟨?_, fun rxs acts hair htaken => ?_⟩
  · -- the PHY
    rw [List.map_congr_left hdecode, rxIndicates_drainFrames, List.map_map]
    · rfl
    · intro d hd
      obtain ⟨x, hx, rfl⟩ := List.mem_map.mp hd
      exact ⟨rfl, rfl, (hs x hx).1⟩
  · -- the node
    obtain ⟨⟨chunks', hchunks', hbodies⟩, hempty⟩ := htaken
    have hrxs : ∀ rx ∈ rxs, airLengthIsValid rx.air.length = true := by
      intro rx hrx
      have hmem' : rx.air ∈ caught.map fun x => airOf x.1 := hair ▸ List.mem_map_of_mem hrx
      obtain ⟨x, hx, hxair⟩ := List.mem_map.mp hmem'
      rw [← hxair]
      exact hvalid _ (hmem x hx)
    have harrived : NodeRx.arrived acts = rxs.map RxIndicate.frame := by
      rw [NodeRx.arrived_eq, hbodies, map_decodeRx_indicatedBody hrxs hchunks', List.filterMap_map]
      exact congrFun List.filterMap_eq_map rxs
    rw [NodeRx.delivered_of_empty payloadSize nodeNum acts hempty, harrived]
    refine filterMap_packetOf hsize nodeNum ?_ ?_
    · intro pkt hpkt
      obtain ⟨x, hx, rfl⟩ := List.mem_map.mp hpkt
      exact hpackets _ (hmem x hx)
    · rw [hair, List.map_map]
      rfl

omit hp hos hfits hpre hforward hamp hg in
theorem packets_delivered_one :
    let pkt : Packet := { header := { from_ := 9, id := 5 }, encrypted := [1, 2] }
    ∃ (ops : List (Transmitter.Op ℂ)) (start : ℕ) (acts : List NodeRxAction),
      (drainFrames false ({ tx := Transmitter.new { spreadingFactor := 7 } 1 } : EchoState ℂ)
        [decodeFrame { spreadingFactor := 7 } (frameValues (complexOps dft) { spreadingFactor := 7 }
          ((channel Complex.I (chipOffset { spreadingFactor := 7 } 61)
            ((Transmitter.new { spreadingFactor := 7 } (1 : ℂ)).calls ops).1.flatten).drop start)
          300)]).rxIndicates = [airOf pkt] ∧
      (NodeRx.run 240 (some 7) acts).delivered.map Prod.fst
        = [radioPacket { air := airOf pkt } (carriedPacket pkt)] := by
  intro pkt
  set p : LoraParams := { spreadingFactor := 7 } with hp'
  have hos : osFactor p = 2 := by
    norm_num [osFactor]
    rfl
  have hN : chipCount p = 128 := rfl
  have hpkt : ∀ q ∈ [pkt], Sendable q := by
    intro q hq
    rw [List.mem_singleton.mp hq]
    exact ⟨by decide, by decide⟩
  set tx : Transmitter ℂ := Transmitter.new p 1
  set frame := modulate (complexOps dft) 1 p (encodeFrame p (airOf pkt)) with hframe
  set ops : List (Transmitter.Op ℂ) := [.enqueueFrame frame,
    .pull ((tx.enqueueFrame frame).pendingSamples + 1)] with hops
  have hne : frame ≠ [] := by
    refine List.ne_nil_of_length_pos ?_
    rw [hframe, length_modulate, frameSamples, samplesPerSymbol, hos, hN]
    omega
  have hsent : Sent p dft 1 tx [pkt] ops := by
    refine ⟨⟨[messageStream [.tx { air := airOf pkt }]], List.append_nil _, ?_⟩, by simp [hops], ?_⟩
    · have hair : (framesOf [messageStream [.tx { air := airOf pkt }]]).filterMap enqueuedAir
          = [airOf pkt] := by decide +kernel
      rw [hair]
      rfl
    · show ((tx.enqueueFrame frame).pull _).tx.isIdle = true
      refine Transmitter.isIdle_of_pull (fun f hmem => ?_) (Nat.lt_succ_self _)
      rwa [List.mem_singleton.mp hmem]
  have htaken : TakenIn 240 (some 7) [{ air := airOf pkt }]
      [.indicate (List.replicate 24 0 ++ airOf pkt), .receive 0, .receive 0] :=
    ⟨⟨[messageStream [.rx { air := airOf pkt }]], List.append_nil _, by decide +kernel⟩,
      by decide +kernel⟩
  obtain ⟨starts, -, hcount, hall⟩ := packets_delivered (p := p)
    ⟨by decide, by decide, by decide, by decide⟩ (by rw [hos]; decide)
    (by rw [samplesPerSymbol, hos, hN]; decide) (by decide) (fun _ => rfl) one_ne_zero
    Complex.I_ne_zero 61 (show tx = { Transmitter.new p 1 with warmupSyms := 0, gapSyms := 12 } from rfl)
    hpkt hsent (show kMaxEncryptedLength ≤ 240 by decide) (some 7)
  obtain ⟨start, rfl⟩ := List.length_eq_one_iff.mp hcount
  obtain ⟨hphy, hnode⟩ := hall [(pkt, start)] (List.Sublist.refl _) { tx := tx } 300 (by
    intro x hx
    rw [List.mem_singleton.mp hx]
    refine ⟨List.not_mem_nil, ?_⟩
    show frameSymbolCount p (airOf pkt).length ≤ 300
    decide +kernel)
  refine ⟨ops, start, _, hphy, (hnode [{ air := airOf pkt }] _ rfl htaken).trans rfl⟩

end EndToEnd
