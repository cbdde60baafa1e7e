/-
# What the node receives (`QuadRFRadio::handleReceiveInterrupt`)

The RX thread queues what the PHY indicates, the radio thread takes the frames one at a time, and
the control socket and the beacon thread come in between.  Whatever the interleaving, the packets
are delivered in the order of the frames that are good (`received_in_order`), the metrics found for
an id are those of its newest packet among the last 64 (`getRxMetrics_iff`), and a peer is greeted
once each time the peers were cleared (`greeted_once`).  What a thread does under one lock is one
step, the increment of a counter is one too, and the node info module is there.  The node reads a
frame as `phy::mesh::unpackPacket` does, field by field (`readFrame_unpackPacket`).
-/
import QuadrfMesh.AirIpc.Messages
import QuadrfMesh.Lib.Recent
import QuadrfMesh.Mesh.Packet

open Mesh

/-- `struct RxFrame`. -/
structure RxFrame where
  air : List UInt8
  snrCenti : Int16 := 0
  rssiDbm : Int16 := 0
  cfoHz : Int32 := 0
  rateCenti : Int32 := 0
  sirCenti : Int16 := 0
  lvlCenti : Int16 := 0
  deriving DecidableEq

/-- The arguments of `enqueueRx`. -/
def RxIndicate.frame (rx : RxIndicate) : RxFrame where
  air := rx.air
  snrCenti := rx.snrCenti
  rssiDbm := rx.rssiDbm
  cfoHz := rx.cfoHz
  rateCenti := rx.rateCenti
  sirCenti := rx.sirCenti
  lvlCenti := rx.lvlCenti

/-- `struct RxMetrics`. -/
structure RxMetrics where
  snrCenti : Int16
  rssiDbm : Int16
  cfoHz : Int32
  rateCenti : Int32
  sirCenti : Int16
  lvlCenti : Int16
  timestampMs : UInt32
  deriving DecidableEq

/-- The fields of a `meshtastic_MeshPacket` that are filled in. -/
structure RadioPacket where
  from_ : UInt32
  to_ : UInt32
  id : UInt32
  channel : UInt8
  hopLimit : UInt8
  hopStart : UInt8
  wantAck : Bool
  viaMqtt : Bool
  nextHop : UInt8
  relayNode : UInt8
  rxSnrCenti : Int16
  rxRssi : Int16
  encrypted : List UInt8
  deriving DecidableEq

/-- `radioBuffer.header`. -/
structure RadioHeader where
  to_ : UInt32
  from_ : UInt32
  id : UInt32
  flags : UInt8
  channel : UInt8
  nextHop : UInt8
  relayNode : UInt8

/-- The header of what is copied into `radioBuffer`. -/
def radioHeader (air : List UInt8) : RadioHeader where
  to_ := UInt32.ofNat (LittleEndian.read 4 air)
  from_ := UInt32.ofNat (LittleEndian.read 4 (air.drop 4))
  id := UInt32.ofNat (LittleEndian.read 4 (air.drop 8))
  flags := air.getD 12 0
  channel := air.getD 13 0
  nextHop := air.getD 14 0
  relayNode := air.getD 15 0

/-- What becomes of a frame. -/
inductive RxVerdict
  | bad
  | noSender
  | selfEcho
  | packet (mp : RadioPacket)
  deriving DecidableEq

/-- The body of the loop, up to the packet. -/
def readFrame (payloadSize : ℕ) (nodeNum : Option UInt32) (rx : RxFrame) : RxVerdict :=
  if rx.air.length < kHeaderLength then .bad
  else if payloadSize < rx.air.length - kHeaderLength then .bad
  else
    let header := radioHeader rx.air
    if header.from_ = 0 then .noSender
    else if nodeNum = some header.from_ then .selfEcho
    else
      let hopStart := (header.flags &&& kFlagsHopStartMask) >>> kFlagsHopStartShift
      .packet {
        from_ := header.from_
        to_ := header.to_
        id := header.id
        channel := header.channel
        hopLimit := header.flags &&& kFlagsHopLimitMask
        hopStart
        wantAck := header.flags &&& kFlagsWantAckMask != 0
        viaMqtt := header.flags &&& kFlagsViaMqttMask != 0
        nextHop := if hopStart = 0 then kNoNextHop else header.nextHop
        relayNode := if hopStart = 0 then kNoRelayNode else header.relayNode
        rxSnrCenti := rx.snrCenti
        rxRssi := rx.rssiDbm
        encrypted := rx.air.drop kHeaderLength }

/-- Why the node broadcasts its station ID. -/
inductive StationId
  /-- A new peer was seen. -/
  | peer (node : UInt32)
  /-- `setCallsign`. -/
  | callsign
  /-- `beaconThreadMain`. -/
  | beacon
  deriving DecidableEq

/-- The peer that is greeted by it. -/
def StationId.greeted : StationId → Option UInt32
  | .peer node => some node
  | .callsign => none
  | .beacon => none

/-- Where the radio thread is in the loop of `handleReceiveInterrupt`. -/
inductive RadioThread
  /-- Before the next frame. -/
  | free
  /-- The sender is among `greeted_peers_`, the packet not yet delivered. -/
  | lookedUp (rx : RxFrame) (mp : RadioPacket) (needGreet : Bool)
  /-- The packet is delivered, its sender not yet greeted. -/
  | greeting (node : UInt32)

namespace RadioThread

/-- The frame it has in hand. -/
def frames : RadioThread → List RxFrame
  | .lookedUp rx _ _ => [rx]
  | _ => []

/-- The packet it has in hand. -/
def packets : RadioThread → List RadioPacket
  | .lookedUp _ mp _ => [mp]
  | _ => []

/-- The peer it is about to greet. -/
def owed : RadioThread → List UInt32
  | .lookedUp _ mp true => [mp.from_]
  | .greeting node => [node]
  | _ => []

theorem owed_lookedUp (rx : RxFrame) (mp : RadioPacket) (p : Prop) [Decidable p] :
    (lookedUp rx mp (decide p)).owed = if p then [mp.from_] else [] := by
  by_cases hp : p
  · rw [decide_eq_true hp, if_pos hp, owed]
  · rw [decide_eq_false hp, if_neg hp]
    rfl

end RadioThread

/-- The receive side of `QuadRFRadio`, with what it has delivered and broadcast. -/
structure NodeRx where
  rxQ : List RxFrame := []
  radio : RadioThread := .free
  rxBad : UInt32 := 0
  rxGood : UInt32 := 0
  greetedPeers : Finset UInt32 := ∅
  recentMetrics : List (UInt32 × RxMetrics) := []
  lastRssi : Int16 := -120
  /-- `deliverToReceiver`, with the metrics that are kept of the packet. -/
  delivered : List (RadioPacket × RxMetrics) := []
  /-- `sendOurNodeInfo`. -/
  stationIds : List StationId := []

/-- What the threads do. -/
inductive NodeRxAction
  /-- The RX thread: a body of type `RxIndicate`. -/
  | indicate (body : List UInt8)
  /-- The radio thread goes on, at the time `now`. -/
  | receive (now : UInt32)
  /-- The control socket, in `setCallsign`: `greeted_peers_` is cleared. -/
  | clearPeers
  /-- The control socket, at the end of `setCallsign`. -/
  | announce
  /-- The beacon thread. -/
  | beacon
  deriving DecidableEq

namespace NodeRx

/-- `enqueueRx`, if the body is one. -/
def indicate (s : NodeRx) (body : List UInt8) : NodeRx :=
  match decodeRx body with
  | none => { s with rxBad := s.rxBad + 1 }
  | some rx => { s with rxQ := s.rxQ ++ [rx.frame] }

/-- The next frame is taken and its sender looked up. -/
def take (payloadSize : ℕ) (nodeNum : Option UInt32) (s : NodeRx) : NodeRx :=
  match s.rxQ with
  | [] => s
  | rx :: rest =>
      let s := { s with rxQ := rest }
      match readFrame payloadSize nodeNum rx with
      | .bad => { s with rxBad := s.rxBad + 1 }
      | .noSender => s
      | .selfEcho => s
      | .packet mp =>
          { s with
            greetedPeers := insert mp.from_ s.greetedPeers
            radio := .lookedUp rx mp (decide (mp.from_ ∉ s.greetedPeers)) }

/-- Its packet is delivered. -/
def deliver (s : NodeRx) (rx : RxFrame) (mp : RadioPacket) (needGreet : Bool) (now : UInt32) :
    NodeRx :=
  let metrics : RxMetrics := {
    snrCenti := rx.snrCenti, rssiDbm := rx.rssiDbm, cfoHz := rx.cfoHz, rateCenti := rx.rateCenti
    sirCenti := rx.sirCenti, lvlCenti := rx.lvlCenti, timestampMs := now }
  let recent := s.recentMetrics ++ [(mp.id, metrics)]
  { s with
    rxGood := s.rxGood + 1
    recentMetrics := if 64 < recent.length then recent.tail else recent
    lastRssi := rx.rssiDbm
    delivered := s.delivered ++ [(mp, metrics)]
    radio := if needGreet then .greeting mp.from_ else .free }

/-- The station ID is broadcast. -/
def sendOurNodeInfo (s : NodeRx) (id : StationId) : NodeRx :=
  { s with stationIds := s.stationIds ++ [id] }

/-- The loop in `handleReceiveInterrupt`, up to the next lock. -/
def receive (payloadSize : ℕ) (nodeNum : Option UInt32) (s : NodeRx) (now : UInt32) : NodeRx :=
  match s.radio with
  | .free => s.take payloadSize nodeNum
  | .lookedUp rx mp needGreet => s.deliver rx mp needGreet now
  | .greeting node => { s.sendOurNodeInfo (.peer node) with radio := .free }

/-- A step of one of the threads. -/
def step (payloadSize : ℕ) (nodeNum : Option UInt32) (s : NodeRx) : NodeRxAction → NodeRx
  | .indicate body => s.indicate body
  | .receive now => s.receive payloadSize nodeNum now
  | .clearPeers => { s with greetedPeers := ∅ }
  | .announce => s.sendOurNodeInfo .callsign
  | .beacon => s.sendOurNodeInfo .beacon

/-- `getRxMetrics`. -/
def getRxMetrics (s : NodeRx) (packetId : UInt32) : Option RxMetrics :=
  (s.recentMetrics.reverse.find? fun e => e.1 = packetId).map Prod.snd

/-- The frames that are not done with: one that the radio thread has in hand, and the queue. -/
def waiting (s : NodeRx) : List RxFrame := s.radio.frames ++ s.rxQ

/-- The packets whose senders were looked up: those delivered, and one that is about to be. -/
def lookedUp (s : NodeRx) : List RadioPacket := s.delivered.map Prod.fst ++ s.radio.packets

/-- The peers greeted so far. -/
def greetings (s : NodeRx) : List UInt32 := s.stationIds.filterMap StationId.greeted

/-- The broadcasts that greet nobody. -/
def unprompted (s : NodeRx) : List StationId := s.stationIds.filter fun id => id.greeted.isNone

section Run

variable (payloadSize : ℕ) (nodeNum : Option UInt32)

/-- The state after some steps. -/
def run (acts : List NodeRxAction) : NodeRx := acts.foldl (step payloadSize nodeNum) {}

/-- The frames that arrive, and the bodies that are none. -/
def arrived (acts : List NodeRxAction) : List RxFrame :=
  acts.filterMap fun a => match a with
    | .indicate body => (decodeRx body).map RxIndicate.frame
    | _ => none

def refused (acts : List NodeRxAction) : ℕ :=
  acts.countP fun a => match a with
    | .indicate body => (decodeRx body).isNone
    | _ => false

/-- The packet in a frame. -/
def packetOf (rx : RxFrame) : Option RadioPacket :=
  match readFrame payloadSize nodeNum rx with
  | .packet mp => some mp
  | _ => none

/-- The broadcasts of the control socket and the beacon thread. -/
def announced (acts : List NodeRxAction) : List StationId :=
  acts.filterMap fun a => match a with
    | .announce => some .callsign
    | .beacon => some .beacon
    | _ => none

/-- What holds after some steps: the frames taken so far are accounted for, and the frame in hand
has a packet. -/
structure Accounted (acts : List NodeRxAction) (s : NodeRx) (taken : List RxFrame) : Prop where
  queue : arrived acts = taken ++ s.waiting
  delivered : s.delivered.map Prod.fst = taken.filterMap (packetOf payloadSize nodeNum)
  good : s.rxGood = UInt32.ofNat s.delivered.length
  bad : s.rxBad = UInt32.ofNat (refused acts
    + taken.countP fun rx => decide (readFrame payloadSize nodeNum rx = .bad))
  recent : s.recentMetrics = Recent.last 64 (s.delivered.map fun d => (d.1.id, d.2))
  inHand : ∀ rx mp needGreet, s.radio = .lookedUp rx mp needGreet →
    readFrame payloadSize nodeNum rx = .packet mp

theorem run_concat (acts : List NodeRxAction) (a : NodeRxAction) :
    run payloadSize nodeNum (acts ++ [a])
      = step payloadSize nodeNum (run payloadSize nodeNum acts) a := by
  rw [run, List.foldl_append]
  rfl

theorem arrived_concat (acts : List NodeRxAction) (a : NodeRxAction) :
    arrived (acts ++ [a]) = arrived acts ++ arrived [a] := List.filterMap_append

theorem refused_concat (acts : List NodeRxAction) (a : NodeRxAction) :
    refused (acts ++ [a]) = refused acts + refused [a] := List.countP_append

theorem ofNat_succ (n : ℕ) : UInt32.ofNat n + 1 = UInt32.ofNat (n + 1) := by
  rw [UInt32.ofNat_add]
  rfl

theorem announced_concat (acts : List NodeRxAction) (a : NodeRxAction) :
    announced (acts ++ [a]) = announced acts ++ announced [a] := List.filterMap_append

variable {payloadSize nodeNum}

/-- The next frame, as what is in it. -/
theorem take_of_cons {s : NodeRx} {rx : RxFrame} {rest : List RxFrame} (hq : s.rxQ = rx :: rest) :
    s.take payloadSize nodeNum =
      match readFrame payloadSize nodeNum rx with
      | .bad => { s with rxQ := rest, rxBad := s.rxBad + 1 }
      | .noSender => { s with rxQ := rest }
      | .selfEcho => { s with rxQ := rest }
      | .packet mp =>
          { s with
            rxQ := rest
            greetedPeers := insert mp.from_ s.greetedPeers
            radio := .lookedUp rx mp (decide (mp.from_ ∉ s.greetedPeers)) } := by
  rw [take, hq]

theorem take_of_nil {s : NodeRx} (hq : s.rxQ = []) : s.take payloadSize nodeNum = s := by
  rw [take, hq]

section Step

variable {acts : List NodeRxAction} {s : NodeRx} {taken : List RxFrame}

/-- A step that is not the RX thread's adds nothing to what arrived; who was greeted and what was
broadcast is not in the accounts. -/
theorem Accounted.frame (h : Accounted payloadSize nodeNum acts s taken) {a : NodeRxAction}
    (harrived : arrived [a] = []) (hrefused : refused [a] = 0) (peers : Finset UInt32)
    (ids : List StationId) :
    Accounted payloadSize nodeNum (acts ++ [a]) { s with greetedPeers := peers, stationIds := ids }
      taken := by
  refine ⟨?_, h.delivered, h.good, ?_, h.recent, h.inHand⟩
  · rw [arrived_concat, harrived, List.append_nil, h.queue]
    rfl
  · rw [refused_concat, hrefused, Nat.add_zero, h.bad]

/-- The RX thread. -/
theorem Accounted.indicate (h : Accounted payloadSize nodeNum acts s taken) (body : List UInt8) :
    Accounted payloadSize nodeNum (acts ++ [.indicate body]) (s.indicate body) taken := by
  rw [NodeRx.indicate]
  cases hbody : decodeRx body with
  | none =>
      refine ⟨?_, h.delivered, h.good, ?_, h.recent, h.inHand⟩
      · rw [arrived_concat, h.queue]
        simp [arrived, hbody, waiting]
      · rw [refused_concat, h.bad, ofNat_succ]
        simp only [refused, hbody, List.countP_cons, List.countP_nil, Option.isNone_none]
        congr 1
        simp only [if_true]
        omega
  | some rx =>
      refine ⟨?_, h.delivered, h.good, ?_, h.recent, h.inHand⟩
      · rw [arrived_concat, h.queue]
        simp [arrived, hbody, waiting]
      · rw [refused_concat, h.bad]
        simp [refused, hbody]

/-- The radio thread takes a frame: it is done with, or in hand. -/
theorem Accounted.take (h : Accounted payloadSize nodeNum acts s taken) (hfree : s.radio = .free) :
    ∃ taken', Accounted payloadSize nodeNum acts (s.take payloadSize nodeNum) taken' := by
  obtain ⟨hqueue, hdelivered, hgood, hbad, hrecent, hinHand⟩ := h
  cases hq : s.rxQ with
  | nil =>
      rw [take_of_nil hq]
      exact ⟨taken, hqueue, hdelivered, hgood, hbad, hrecent, hinHand⟩
  | cons rx rest =>
      rw [take_of_cons hq]
      rw [waiting, hfree, hq] at hqueue
      -- a frame without a packet
      have hdone : arrived acts = taken ++ [rx] ++ ((RadioThread.free).frames ++ rest) := by
        rw [hqueue, List.append_assoc]
        rfl
      have hnone : packetOf payloadSize nodeNum rx = none →
          s.delivered.map Prod.fst = (taken ++ [rx]).filterMap (packetOf payloadSize nodeNum) := by
        intro hpacket
        rw [List.filterMap_append, hdelivered]
        simp [hpacket]
      have hsame : readFrame payloadSize nodeNum rx ≠ .bad →
          s.rxBad = UInt32.ofNat (refused acts
            + (taken ++ [rx]).countP fun rx => decide (readFrame payloadSize nodeNum rx = .bad)) := by
        intro hread
        rw [List.countP_append, List.countP_singleton, hbad]
        simp [hread]
      cases hread : readFrame payloadSize nodeNum rx with
      | bad =>
          refine ⟨taken ++ [rx], ?_, hnone (by simp [packetOf, hread]), hgood, ?_, hrecent, hinHand⟩
          · rw [hdone, waiting, hfree]
          · rw [List.countP_append, List.countP_singleton, ← add_assoc, hread, hbad, ofNat_succ]
            simp
      | noSender =>
          refine ⟨taken ++ [rx], ?_, hnone (by simp [packetOf, hread]), hgood,
            hsame (by simp [hread]), hrecent, hinHand⟩
          rw [hdone, waiting, hfree]
      | selfEcho =>
          refine ⟨taken ++ [rx], ?_, hnone (by simp [packetOf, hread]), hgood,
            hsame (by simp [hread]), hrecent, hinHand⟩
          rw [hdone, waiting, hfree]
      | packet mp =>
          refine ⟨taken, hqueue, hdelivered, hgood, hbad, hrecent, fun rx' mp' _ hradio => ?_⟩
          obtain ⟨rfl, rfl, -⟩ := RadioThread.lookedUp.inj hradio
          exact hread

/-- It delivers the packet in hand. -/
theorem Accounted.deliver (h : Accounted payloadSize nodeNum acts s taken) {rx : RxFrame}
    {mp : RadioPacket} {needGreet : Bool} (hradio : s.radio = .lookedUp rx mp needGreet)
    (now : UInt32) :
    Accounted payloadSize nodeNum acts (s.deliver rx mp needGreet now) (taken ++ [rx]) := by
  obtain ⟨hqueue, hdelivered, hgood, hbad, hrecent, hinHand⟩ := h
  have hread := hinHand rx mp needGreet hradio
  have hempty : (s.deliver rx mp needGreet now).radio.frames = [] := by
    cases needGreet <;> rfl
  refine ⟨?_, ?_, ?_, ?_, ?_, fun rx' mp' g' hradio' => ?_⟩
  · rw [waiting, hempty, hqueue, waiting, hradio, List.append_assoc]
    rfl
  · rw [List.filterMap_append, ← hdelivered]
    simp [NodeRx.deliver, packetOf, hread]
  · simp only [NodeRx.deliver]
    rw [hgood, ofNat_succ, List.length_append, List.length_singleton]
  · rw [List.countP_append, List.countP_singleton, hread]
    simpa [NodeRx.deliver] using hbad
  · simp only [NodeRx.deliver, hrecent, List.map_append, List.map_cons, List.map_nil]
    exact Recent.tail_last_append 64 _ _
  · rw [hradio'] at hempty
    exact absurd hempty (List.cons_ne_nil _ _)

/-- **One step** keeps the accounts. -/
theorem Accounted.step (h : Accounted payloadSize nodeNum acts s taken) (a : NodeRxAction) :
    ∃ taken', Accounted payloadSize nodeNum (acts ++ [a]) (s.step payloadSize nodeNum a) taken' := by
  cases a with
  | indicate body => exact ⟨taken, h.indicate body⟩
  | clearPeers => exact ⟨taken, h.frame rfl rfl ∅ s.stationIds⟩
  | announce => exact ⟨taken, h.frame rfl rfl s.greetedPeers (s.stationIds ++ [.callsign])⟩
  | beacon => exact ⟨taken, h.frame rfl rfl s.greetedPeers (s.stationIds ++ [.beacon])⟩
  | receive now =>
      have h : Accounted payloadSize nodeNum (acts ++ [.receive now]) s taken :=
        h.frame rfl rfl s.greetedPeers s.stationIds
      rw [NodeRx.step, receive]
      cases hradio : s.radio with
      | free => exact h.take hradio
      | lookedUp rx mp needGreet => exact ⟨_, h.deliver hradio now⟩
      | greeting node =>
          obtain ⟨hqueue, hdelivered, hgood, hbad, hrecent, -⟩ := h
          refine ⟨taken, ?_, hdelivered, hgood, hbad, hrecent, fun _ _ _ hfree => ?_⟩
          · rw [hqueue, waiting, hradio]
            rfl
          · exact absurd hfree (by simp)

end Step

variable (payloadSize nodeNum)

/-- Any steps at all keep the accounts. -/
theorem accounted_run (acts : List NodeRxAction) :
    ∃ taken, Accounted payloadSize nodeNum acts (run payloadSize nodeNum acts) taken := by
  induction acts using List.reverseRecOn with
  | nil => exact ⟨[], rfl, rfl, rfl, rfl, rfl, fun _ _ _ h => RadioThread.noConfusion h⟩
  | append_singleton acts a ih =>
      obtain ⟨taken, h⟩ := ih
      rw [run_concat]
      exact h.step a

/-- **What is received is delivered in order**, whatever the threads do in between: of the frames
that have arrived some are done with and the rest wait, one in the hand of the radio thread perhaps;
the packets delivered are those of the frames done with, each once, and the counters, whose
increments are taken as atomic, count them and the frames that are none. -/
theorem received_in_order (acts : List NodeRxAction) :
    ∃ taken, arrived acts = taken ++ (run payloadSize nodeNum acts).waiting ∧
      (run payloadSize nodeNum acts).delivered.map Prod.fst
        = taken.filterMap (packetOf payloadSize nodeNum) ∧
      (run payloadSize nodeNum acts).rxGood
        = UInt32.ofNat (run payloadSize nodeNum acts).delivered.length ∧
      (run payloadSize nodeNum acts).rxBad = UInt32.ofNat (refused acts
        + taken.countP fun rx => decide (readFrame payloadSize nodeNum rx = .bad)) := by
  obtain ⟨taken, h⟩ := accounted_run payloadSize nodeNum acts
  exact ⟨taken, h.queue, h.delivered, h.good, h.bad⟩

/-- **The metrics of a packet** are those of the newest delivery with its id, as long as fewer than
64 packets have been delivered after it. -/
theorem getRxMetrics_iff (acts : List NodeRxAction) (packetId : UInt32) (metrics : RxMetrics) :
    (run payloadSize nodeNum acts).getRxMetrics packetId = some metrics ↔
      ∃ older mp newer, (run payloadSize nodeNum acts).delivered = older ++ (mp, metrics) :: newer ∧
        mp.id = packetId ∧ (∀ d ∈ newer, d.1.id ≠ packetId) ∧ newer.length < 64 := by
  obtain ⟨taken, h⟩ := accounted_run payloadSize nodeNum acts
  set s := run payloadSize nodeNum acts
  rw [getRxMetrics, h.recent, Option.map_eq_some_iff]
  simp only [Recent.find?_reverse_last_iff, decide_eq_true_eq]
  constructor
  · rintro ⟨⟨_, _⟩, ⟨older, newer, hsplit, rfl, hnone, hlen⟩, rfl⟩
    obtain ⟨older', rest, hd, rfl, hrest⟩ := List.map_eq_append_iff.mp hsplit
    obtain ⟨d, newer', rfl, hd', rfl⟩ := List.map_eq_cons_iff.mp hrest
    obtain ⟨hid, hmetrics⟩ := Prod.mk.inj hd'
    refine ⟨older', d.1, newer', ?_, hid, fun e he => ?_, by rwa [List.length_map] at hlen⟩
    · rw [hd, ← hmetrics]
    · exact hnone _ (List.mem_map_of_mem he)
  · rintro ⟨older, mp, newer, hsplit, rfl, hnone, hlen⟩
    refine ⟨(mp.id, metrics), ⟨older.map fun d => (d.1.id, d.2), newer.map fun d => (d.1.id, d.2),
      by rw [hsplit, List.map_append, List.map_cons], rfl, fun e he => ?_, by rwa [List.length_map]⟩,
      rfl⟩
    obtain ⟨d, hd, rfl⟩ := List.mem_map.mp he
    exact hnone d hd

/-! ## Greetings -/

/-- Since the peers were cleared, in the state `s0`: the peers to be greeted, of whom the last may
still be owed the greeting, the packets looked up, and the broadcasts of the other threads. -/
structure GreetedSince (s0 s : NodeRx) (peers : List UInt32) (packets : List RadioPacket)
    (others : List StationId) : Prop where
  greetings : s.greetings ++ s.radio.owed = s0.greetings ++ s0.radio.owed ++ peers
  lookedUp : s.lookedUp = s0.lookedUp ++ packets
  nodup : peers.Nodup
  peers_iff : ∀ node, node ∈ peers ↔ ∃ mp ∈ packets, mp.from_ = node
  greeted_iff : ∀ node, node ∈ s.greetedPeers ↔ node ∈ peers
  unprompted : s.unprompted = s0.unprompted ++ others

variable {payloadSize nodeNum}

namespace GreetedSince

variable {s0 s : NodeRx} {peers : List UInt32} {packets : List RadioPacket}
  {others : List StationId} (h : GreetedSince s0 s peers packets others)
include h

/-- What is neither looked up nor broadcast changes nothing here. -/
theorem frame {t : NodeRx} (hids : t.stationIds = s.stationIds) (hdelivered : t.delivered = s.delivered)
    (hradio : t.radio = s.radio) (hgreeted : t.greetedPeers = s.greetedPeers) :
    GreetedSince s0 t peers packets others := by
  refine ⟨?_, ?_, h.nodup, h.peers_iff, fun node => ?_, ?_⟩
  · rw [NodeRx.greetings, hids, hradio, ← h.greetings]
    rfl
  · rw [NodeRx.lookedUp, hdelivered, hradio, ← h.lookedUp]
    rfl
  · rw [hgreeted, h.greeted_iff]
  · rw [NodeRx.unprompted, hids, ← h.unprompted]
    rfl

/-- A broadcast of another thread. -/
theorem sendOurNodeInfo {id : StationId} (hid : id.greeted = none) :
    GreetedSince s0 (s.sendOurNodeInfo id) peers packets (others ++ [id]) := by
  refine ⟨?_, h.lookedUp, h.nodup, h.peers_iff, h.greeted_iff, ?_⟩
  · rw [NodeRx.greetings, NodeRx.sendOurNodeInfo, List.filterMap_append, ← h.greetings]
    simp [hid, NodeRx.greetings]
  · rw [NodeRx.unprompted, NodeRx.sendOurNodeInfo, List.filter_append, ← List.append_assoc,
      ← h.unprompted]
    simp [hid, NodeRx.unprompted]

/-- A sender is looked up, and owed a greeting if it was not found. -/
theorem take (hfree : s.radio = .free) :
    ∃ peers' packets', GreetedSince s0 (s.take payloadSize nodeNum) peers' packets' others := by
  cases hq : s.rxQ with
  | nil =>
      rw [take_of_nil hq]
      exact ⟨peers, packets, h⟩
  | cons rx rest =>
      rw [take_of_cons hq]
      cases readFrame payloadSize nodeNum rx with
      | bad => exact ⟨peers, packets, h.frame rfl rfl rfl rfl⟩
      | noSender => exact ⟨peers, packets, h.frame rfl rfl rfl rfl⟩
      | selfEcho => exact ⟨peers, packets, h.frame rfl rfl rfl rfl⟩
      | packet mp =>
          obtain ⟨hgreetings, hlookedUp, hnodup, hpeers, hgreeted, hunprompted⟩ := h
          have hgreetings' : s.greetings = s0.greetings ++ s0.radio.owed ++ peers := by
            rw [← hgreetings, hfree]
            exact (List.append_nil _).symm
          have hpackets : s.delivered.map Prod.fst ++ [mp] = s0.lookedUp ++ (packets ++ [mp]) := by
            rw [← List.append_assoc, ← hlookedUp, NodeRx.lookedUp, hfree]
            simp [RadioThread.packets]
          have hsenders : ∀ node, (∃ mp' ∈ packets ++ [mp], mp'.from_ = node) ↔
              node ∈ peers ∨ mp.from_ = node := by
            intro node
            rw [hpeers]
            simp [or_and_right, exists_or]
          by_cases hknown : mp.from_ ∈ s.greetedPeers
          · refine ⟨peers, packets ++ [mp], ?_, hpackets, hnodup, fun node => ?_, fun node => ?_,
              hunprompted⟩
            · show s.greetings ++ (RadioThread.lookedUp rx mp _).owed = _
              rw [RadioThread.owed_lookedUp, if_neg (not_not.mpr hknown), List.append_nil,
                hgreetings']
            · rw [hsenders]
              exact ⟨Or.inl, fun h => h.elim id fun h => h ▸ (hgreeted _).mp hknown⟩
            · show node ∈ insert mp.from_ s.greetedPeers ↔ _
              rw [Finset.insert_eq_of_mem hknown, hgreeted]
          · refine ⟨peers ++ [mp.from_], packets ++ [mp], ?_, hpackets, ?_, fun node => ?_,
              fun node => ?_, hunprompted⟩
            · show s.greetings ++ (RadioThread.lookedUp rx mp _).owed = _
              rw [RadioThread.owed_lookedUp, if_pos hknown, hgreetings', List.append_assoc]
            · rw [List.nodup_append]
              refine ⟨hnodup, List.nodup_singleton _, fun a ha b hb => ?_⟩
              rw [List.mem_singleton.mp hb]
              rintro rfl
              exact hknown ((hgreeted _).mpr ha)
            · rw [hsenders, List.mem_append, List.mem_singleton, @eq_comm _ node]
            · show node ∈ insert mp.from_ s.greetedPeers ↔ _
              rw [Finset.mem_insert, hgreeted, List.mem_append, List.mem_singleton, or_comm]

/-- The packet in hand is delivered, and the greeting still owed. -/
theorem deliver {rx : RxFrame} {mp : RadioPacket} {needGreet : Bool}
    (hradio : s.radio = .lookedUp rx mp needGreet) (now : UInt32) :
    GreetedSince s0 (s.deliver rx mp needGreet now) peers packets others := by
  have howed : (s.deliver rx mp needGreet now).radio.owed = s.radio.owed := by
    rw [hradio]
    cases needGreet <;> rfl
  have hnone : (s.deliver rx mp needGreet now).radio.packets = [] := by
    cases needGreet <;> rfl
  refine ⟨?_, ?_, h.nodup, h.peers_iff, h.greeted_iff, h.unprompted⟩
  · rw [howed, ← h.greetings]
    rfl
  · rw [NodeRx.lookedUp, hnone, ← h.lookedUp, NodeRx.lookedUp, hradio]
    simp [NodeRx.deliver, RadioThread.packets]

/-- The greeting owed is made. -/
theorem greet {node : UInt32} (hradio : s.radio = .greeting node) :
    GreetedSince s0 { s.sendOurNodeInfo (.peer node) with radio := .free } peers packets others := by
  refine ⟨?_, ?_, h.nodup, h.peers_iff, h.greeted_iff, ?_⟩
  · rw [← h.greetings, NodeRx.greetings, NodeRx.sendOurNodeInfo, List.filterMap_append, hradio,
      NodeRx.greetings]
    simp [StationId.greeted, RadioThread.owed]
  · rw [← h.lookedUp, NodeRx.lookedUp, NodeRx.lookedUp, hradio]
    rfl
  · rw [← h.unprompted, NodeRx.unprompted, NodeRx.sendOurNodeInfo, List.filter_append,
      NodeRx.unprompted]
    simp [StationId.greeted]

/-- A step that does not clear the peers. -/
theorem step {a : NodeRxAction} (ha : a ≠ .clearPeers) :
    ∃ peers' packets',
      GreetedSince s0 (s.step payloadSize nodeNum a) peers' packets' (others ++ announced [a]) := by
  cases a with
  | clearPeers => exact absurd rfl ha
  | indicate body =>
      refine ⟨peers, packets, ?_⟩
      rw [NodeRx.step, indicate, show announced [.indicate body] = [] from rfl, List.append_nil]
      cases decodeRx body <;> exact h.frame rfl rfl rfl rfl
  | announce => exact ⟨peers, packets, h.sendOurNodeInfo rfl⟩
  | beacon => exact ⟨peers, packets, h.sendOurNodeInfo rfl⟩
  | receive now =>
      rw [NodeRx.step, receive, show announced [.receive now] = [] from rfl, List.append_nil]
      cases hradio : s.radio with
      | free => exact h.take hradio
      | lookedUp rx mp needGreet => exact ⟨peers, packets, h.deliver hradio now⟩
      | greeting node => exact ⟨peers, packets, h.greet hradio⟩

end GreetedSince

variable (payloadSize nodeNum)

/-- **A peer is greeted once** each time the peers were cleared: from the start or from a clearing
to the next one the radio thread greets each sender of a packet that it looks up, once and nobody
else, the last of them perhaps not yet and one that it owed at the clearing before them.  Every
other broadcast is one of the control socket or of the beacon thread. -/
theorem greeted_once (before after : List NodeRxAction)
    (hstart : before = [] ∨ ∃ b, before = b ++ [.clearPeers])
    (hafter : ∀ a ∈ after, a ≠ .clearPeers) :
    ∃ (peers : List UInt32) (packets : List RadioPacket),
      (run payloadSize nodeNum (before ++ after)).greetings
          ++ (run payloadSize nodeNum (before ++ after)).radio.owed
        = (run payloadSize nodeNum before).greetings
          ++ (run payloadSize nodeNum before).radio.owed ++ peers ∧
      (run payloadSize nodeNum (before ++ after)).lookedUp
        = (run payloadSize nodeNum before).lookedUp ++ packets ∧
      peers.Nodup ∧ (∀ node, node ∈ peers ↔ ∃ mp ∈ packets, mp.from_ = node) ∧
      (run payloadSize nodeNum (before ++ after)).unprompted
        = (run payloadSize nodeNum before).unprompted ++ announced after := by
  have hnobody : (run payloadSize nodeNum before).greetedPeers = ∅ := by
    rcases hstart with rfl | ⟨b, rfl⟩
    · rfl
    · rw [run_concat]
      rfl
  have hsince : ∃ peers packets, GreetedSince (run payloadSize nodeNum before)
      (run payloadSize nodeNum (before ++ after)) peers packets (announced after) := by
    induction after using List.reverseRecOn with
    | nil =>
        refine ⟨[], [], by simp, by simp, List.nodup_nil, by simp, fun node => ?_, ?_⟩
        · rw [List.append_nil, hnobody]
          simp
        · rw [List.append_nil, show announced [] = [] from rfl, List.append_nil]
    | append_singleton after a ih =>
        obtain ⟨peers, packets, h⟩ := ih fun a' ha' => hafter a' (List.mem_append_left _ ha')
        rw [← List.append_assoc, run_concat, announced_concat]
        exact h.step (hafter a (by simp))
  obtain ⟨peers, packets, h⟩ := hsince
  exact ⟨peers, packets, h.greetings, h.lookedUp, h.nodup, h.peers_iff, h.unprompted⟩

/-- A frame from node 5. -/
def bodyOfFive : List UInt8 := List.replicate 28 0 ++ [5] ++ List.replicate 11 0

/-- The peers are cleared after the look-up and before the greeting, and the sender is heard
again: it is greeted for either. -/
theorem greeted_once_twice :
    let before : List NodeRxAction := [.indicate bodyOfFive, .receive 10, .clearPeers]
    let after : List NodeRxAction := [.receive 10, .receive 10, .announce, .indicate bodyOfFive,
      .receive 20, .receive 20, .receive 20, .beacon]
    (run 240 none (before ++ after)).stationIds = [.peer 5, .callsign, .peer 5, .beacon] ∧
    ∃ (peers : List UInt32) (packets : List RadioPacket),
      [5, 5] = [5] ++ peers ∧ (run 240 none (before ++ after)).lookedUp
        = (run 240 none before).lookedUp ++ packets ∧
      peers.Nodup ∧ (∀ node, node ∈ peers ↔ ∃ mp ∈ packets, mp.from_ = node) ∧
      [StationId.callsign, .beacon] = [] ++ [.callsign, .beacon] :=
  ⟨by decide +kernel,
    greeted_once 240 none [.indicate bodyOfFive, .receive 10, .clearPeers]
      [.receive 10, .receive 10, .announce, .indicate bodyOfFive, .receive 20, .receive 20,
        .receive 20, .beacon]
      (Or.inr ⟨[.indicate bodyOfFive, .receive 10], rfl⟩) (by decide)⟩

end Run

end NodeRx

/-! ## The other reader -/

/-- What the node makes of a packet that `phy::mesh` reads. -/
def radioPacket (rx : RxFrame) (pkt : Packet) : RadioPacket where
  from_ := pkt.header.from_
  to_ := pkt.header.to_
  id := pkt.header.id
  channel := pkt.header.channel
  hopLimit := pkt.header.hopLimit
  hopStart := pkt.header.hopStart
  wantAck := pkt.header.wantAck
  viaMqtt := pkt.header.viaMqtt
  nextHop := if pkt.header.hopStart = 0 then kNoNextHop else pkt.header.nextHop
  relayNode := if pkt.header.hopStart = 0 then kNoRelayNode else pkt.header.relayNode
  rxSnrCenti := rx.snrCenti
  rxRssi := rx.rssiDbm
  encrypted := pkt.encrypted

/-- **Two readers of one frame.**  Of a frame of a length that the PHY indicates, the node takes
what `unpackPacket` reads, unless it is the node's own; where `unpackPacket` reads nothing, the
frame has no sender. -/
theorem readFrame_unpackPacket {payloadSize : ℕ} (hsize : kMaxEncryptedLength ≤ payloadSize)
    (nodeNum : Option UInt32) (rx : RxFrame) (hair : airLengthIsValid rx.air.length = true) :
    readFrame payloadSize nodeNum rx =
      match unpackPacket rx.air with
      | none => .noSender
      | some pkt =>
          if nodeNum = some pkt.header.from_ then .selfEcho else .packet (radioPacket rx pkt) := by
  obtain ⟨hmin, hmax⟩ := of_decide_eq_true hair
  have hlong : ¬rx.air.length < kHeaderLength := not_lt.mpr hmin
  have hfits : ¬payloadSize < rx.air.length - kHeaderLength := by
    unfold kMaxEncryptedLength kMaxPayloadLength at hsize
    unfold kMaxAirLen at hmax
    omega
  have hrest : rx.air.length ≤ kMaxEncryptedLength + kHeaderLength := hmax
  rw [readFrame, if_neg hlong, if_neg hfits, unpackPacket, unpackHeader, if_neg hlong]
  by_cases hfrom : UInt32.ofNat (LittleEndian.read 4 (rx.air.drop 4)) = 0
  · simp [radioHeader, unpackFlags, hfrom]
  · simp [radioHeader, unpackFlags, hfrom, hrest, radioPacket]
