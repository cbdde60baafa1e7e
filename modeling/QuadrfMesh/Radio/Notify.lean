/-
# The notification slot of `QuadRFRadio` (`integrations/meshtastic/backend/QuadRFRadio.cpp`)

The radio thread sleeps on one notification slot.  `notify` overwrites it, `notifyLater`
fills it only when it is empty, and a dispatch empties it before `onNotify` runs.  The
handlers are taken apart at every point where another thread may come in between: the RX
thread in `enqueueRx`, the control socket in `SET PRESET`, and callers of `send` and
`cancelSending`.  Delays are left out, so a dispatch may come at any time.

No transmission is lost for want of a notification, and at most one packet is in flight
(`radio_slot_safe`).
-/
import QuadrfMesh.Lib.Transition

open Transition

/-- `enum PendingISR`. -/
inductive PendingISR
  | isrRx | isrTx | transmitDelayCompleted
  deriving DecidableEq, Repr

/-- Where the radio thread stands in `onNotify`. -/
inductive RadioPc (Packet : Type)
  /-- Between handlers. -/
  | idle
  /-- `pending_preset_.load() >= 0`. -/
  | preset (notification : PendingISR)
  /-- The first statement of a case. -/
  | switch (notification : PendingISR)
  /-- `handleReceiveInterrupt`, at its `checkTxComplete`. -/
  | receive (notification : PendingISR)
  /-- The loop of `handleReceiveInterrupt`. -/
  | drain (notification : PendingISR)
  /-- `!txQueue.empty()` in `onNotify`. -/
  | txTest
  /-- `canSendImmediately`. -/
  | canSend
  /-- `isChannelActive`. -/
  | channel
  /-- `txQueue.dequeue`. -/
  | dequeue
  /-- `startSend`. -/
  | startSend (txp : Packet)
  /-- `txQueue.getFront` in `setTransmitDelay`. -/
  | delay
  /-- `!txQueue.empty()` in `startTransmitTimer` and `startTransmitTimerRebroadcast`. -/
  | timer
  /-- `notifyLater(.., v, false)`. -/
  | notifyLater (v : PendingISR)
  deriving DecidableEq

/-- `class QuadRFRadio`, and where its callers stand. -/
structure RadioState (Packet : Type) where
  slot : Option PendingISR := none
  txQueue : List Packet := []
  sendingPacket : Option Packet := none
  txEndTimeMs : UInt32 := 0
  rxQ : List (List UInt8) := []
  pendingPreset : Option ℕ := none
  pc : RadioPc Packet := .idle
  /-- The RX thread has pushed a frame and not notified yet. -/
  rxPushed : Bool := false
  /-- The control socket has stored a preset and not notified yet. -/
  presetStored : Bool := false
  /-- Calls of `send` that have queued their packet, and those about to notify. -/
  sendsQueued : ℕ := 0
  sendsTimed : ℕ := 0
  deriving DecidableEq

/-- What the threads do. -/
inductive RadioAction (Packet : Type)
  /-- `send`: `txQueue.enqueue`. -/
  | sendEnqueue (p : Packet)
  /-- `send`: `setTransmitDelay` up to its timer. -/
  | sendTimer
  /-- `send`: `notifyLater`. -/
  | sendNotify
  | cancelSending (source id : ℕ)
  /-- `enqueueRx`: the push under `rx_mu_`. -/
  | rxPush (air : List UInt8)
  /-- `enqueueRx`: `notify`. -/
  | rxNotify
  /-- `SET PRESET`: the store to `pending_preset_`. -/
  | presetStore (id : ℕ)
  /-- `SET PRESET`: `notify`. -/
  | presetNotify
  /-- The slot is emptied and `onNotify` entered. -/
  | dispatch
  /-- The radio thread takes a step of `onNotify`, at the time `now`. -/
  | handler (now : UInt32)
  deriving DecidableEq

section Model

variable {Packet : Type}

/-- What the firmware provides: `enqueue`, `dequeue` and `remove` of `MeshPacketQueue`, and the air
time of a packet. -/
structure MeshParts (Packet : Type) where
  enqueue : List Packet → Packet → Option (List Packet)
  dequeue : List Packet → Option (Packet × List Packet)
  remove : List Packet → ℕ → ℕ → List Packet
  packetTime : Packet → UInt32
  /-- There is nothing to remove from an empty queue. -/
  remove_nil : ∀ source id, remove [] source id = []

/-- `notify(v, true)`. -/
def notify (s : RadioState Packet) (v : PendingISR) : RadioState Packet := { s with slot := some v }

/-- `notifyLater(.., v, false)`. -/
def notifyLater (s : RadioState Packet) (v : PendingISR) : RadioState Packet :=
  { s with slot := some (s.slot.getD v) }

/-- `completeSending`. -/
def completeSending (s : RadioState Packet) : RadioState Packet := { s with sendingPacket := none }

/-- `checkTxComplete`. -/
def checkTxComplete (s : RadioState Packet) (now : UInt32) : RadioState Packet :=
  if s.sendingPacket.isSome ∧ s.txEndTimeMs ≤ now then completeSending s else s

/-- `isActivelyReceiving`. -/
def isActivelyReceiving (s : RadioState Packet) : Bool := !s.rxQ.isEmpty

/-- One step of `onNotify`; `none` where an assertion fails. -/
def onNotify (mesh : MeshParts Packet) (s : RadioState Packet) (now : UInt32) :
    Option (RadioState Packet) :=
  match s.pc with
  | .idle => none
  | .preset n => some { s with pendingPreset := none, pc := .switch n }
  | .switch .isrTx => some { completeSending s with pc := .timer }
  | .switch n => some { checkTxComplete s now with pc := .receive n }
  | .receive n => some { checkTxComplete s now with pc := .drain n }
  | .drain n =>
      match s.rxQ with
      | [] => some { s with pc := if n = .isrRx then .timer else .txTest }
      | _ :: rest => some { s with rxQ := rest }
  | .txTest => some { s with pc := if s.txQueue.isEmpty then .idle else .canSend }
  | .canSend =>
      let s := checkTxComplete s now
      some { s with
        pc := if s.sendingPacket.isNone && !isActivelyReceiving s then .channel else .delay }
  | .channel => some { s with pc := if isActivelyReceiving s then .delay else .dequeue }
  | .dequeue =>
      match mesh.dequeue s.txQueue with
      | none => none
      | some (txp, rest) => some { s with txQueue := rest, pc := .startSend txp }
  | .startSend txp =>
      some { s with
        sendingPacket := some txp
        txEndTimeMs := now + mesh.packetTime txp
        pc := .notifyLater .isrTx }
  | .delay => some { s with pc := if s.txQueue.isEmpty then .idle else .timer }
  | .timer =>
      some { s with pc := if s.txQueue.isEmpty then .idle else .notifyLater .transmitDelayCompleted }
  | .notifyLater v => some { notifyLater s v with pc := .idle }

/-- One step of any thread. -/
def radioStep (mesh : MeshParts Packet) (s : RadioState Packet) :
    RadioAction Packet → Option (RadioState Packet)
  | .sendEnqueue p =>
      match mesh.enqueue s.txQueue p with
      | none => some s
      | some txQueue => some { s with txQueue, sendsQueued := s.sendsQueued + 1 }
  | .sendTimer =>
      if 0 < s.sendsQueued then
        some { s with
          sendsQueued := s.sendsQueued - 1
          sendsTimed := if s.txQueue.isEmpty then s.sendsTimed else s.sendsTimed + 1 }
      else none
  | .sendNotify =>
      if 0 < s.sendsTimed then
        some { notifyLater s .transmitDelayCompleted with sendsTimed := s.sendsTimed - 1 }
      else none
  | .cancelSending source id => some { s with txQueue := mesh.remove s.txQueue source id }
  | .rxPush air => if s.rxPushed then none else some { s with rxQ := s.rxQ ++ [air], rxPushed := true }
  | .rxNotify => if s.rxPushed then some { notify s .isrRx with rxPushed := false } else none
  | .presetStore id =>
      if s.presetStored then none else some { s with pendingPreset := some id, presetStored := true }
  | .presetNotify =>
      if s.presetStored then some { notify s .isrRx with presetStored := false } else none
  | .dispatch =>
      match s.pc, s.slot with
      | .idle, some n => some { s with slot := none, pc := .preset n }
      | _, _ => none
  | .handler now => onNotify mesh s now

/-- The radio after `init`. -/
def RadioInit (s : RadioState Packet) : Prop := s = {}

/-! ## The invariant -/

/-- The radio thread is on its way to the drain of `rx_q_`. -/
def Draining : RadioPc Packet → Prop
  | .preset .isrRx | .switch .isrRx | .receive .isrRx | .drain .isrRx => True
  | _ => False

/-- `canSendImmediately` has been passed. -/
def Cleared : RadioPc Packet → Prop
  | .channel | .dequeue | .startSend _ => True
  | _ => False

/-- What every run keeps: a waiting packet has a notification, a handler or a `send` to see
to it; a received frame has its notification, or the handler it leads to; and a packet is
only taken from the queue with none in flight. -/
structure RadioInv (s : RadioState Packet) : Prop where
  tx_armed : s.txQueue ≠ [] → s.slot ≠ none ∨ s.pc ≠ .idle ∨ 0 < s.sendsQueued ∨ 0 < s.sendsTimed
  rx_armed : s.rxQ ≠ [] → s.rxPushed = true ∨ s.slot = some .isrRx ∨ Draining s.pc
  cleared : Cleared s.pc → s.sendingPacket = none

theorem RadioInv.of_init {s : RadioState Packet} (h : RadioInit s) : RadioInv s := by
  rw [h]
  exact ⟨fun h => absurd rfl h, fun h => absurd rfl h, fun h => h.elim⟩

/-- `notify` of `ISR_RX` arms the slot for both queues. -/
theorem RadioInv.notify_rx {s : RadioState Packet} (hinv : RadioInv s) :
    RadioInv (notify s .isrRx) :=
  ⟨fun _ => Or.inl (by simp [notify]), fun _ => Or.inr (Or.inl rfl), hinv.cleared⟩

/-- `notifyLater` arms the slot and leaves an `ISR_RX` in it. -/
theorem notifyLater_slot (s : RadioState Packet) (v : PendingISR) :
    (notifyLater s v).slot ≠ none ∧
      (s.slot = some .isrRx → (notifyLater s v).slot = some .isrRx) := by
  constructor
  · simp [notifyLater]
  · intro h
    simp [notifyLater, h]

/-- `checkTxComplete` changes nothing but the packet in flight. -/
theorem checkTxComplete_eq (s : RadioState Packet) (now : UInt32) :
    ∃ p, checkTxComplete s now = { s with sendingPacket := p } := by
  unfold checkTxComplete
  split
  · exact ⟨none, rfl⟩
  · exact ⟨s.sendingPacket, rfl⟩

/-- A handler step that leaves `rx_q_`, slot and RX thread alone keeps the invariant, if it
stays on the way to the drain, ends the handler only on an empty queue and passes
`canSendImmediately` only with no packet in flight. -/
theorem RadioInv.move {s t : RadioState Packet} (hinv : RadioInv s) (hrx : t.rxQ = s.rxQ)
    (hslot : t.slot = s.slot) (hpushed : t.rxPushed = s.rxPushed)
    (hdrain : Draining s.pc → Draining t.pc) (htx : t.pc = .idle → t.txQueue = [])
    (hcleared : Cleared t.pc → t.sendingPacket = none) : RadioInv t := by
  refine ⟨?_, ?_, hcleared⟩
  · intro h
    exact Or.inr (Or.inl fun hidle => h (htx hidle))
  · rw [hrx, hslot, hpushed]
    intro h
    rcases hinv.rx_armed h with h | h | h
    · exact Or.inl h
    · exact Or.inr (Or.inl h)
    · exact Or.inr (Or.inr (hdrain h))

/-- The two ends of a test of `txQueue`. -/
theorem RadioInv.move_txQueue {s : RadioState Packet} (hinv : RadioInv s)
    (hpc : ¬ Draining s.pc) {pc : RadioPc Packet} (hne : pc ≠ .idle) (hcleared : ¬ Cleared pc) :
    RadioInv { s with pc := if s.txQueue.isEmpty then .idle else pc } := by
  refine hinv.move rfl rfl rfl (fun h => absurd h hpc) ?_ ?_
  · intro h
    simp only at h
    split_ifs at h with hempty
    · exact List.isEmpty_iff.mp hempty
    · exact absurd h hne
  · intro h
    simp only at h
    split_ifs at h with hempty
    · exact h.elim
    · exact absurd h hcleared

/-- `notifyLater` leaves a received frame armed. -/
theorem RadioInv.notifyLater_armed {s : RadioState Packet} (hinv : RadioInv s) (v : PendingISR)
    (h : s.rxQ ≠ []) :
    s.rxPushed = true ∨ (notifyLater s v).slot = some .isrRx ∨ Draining s.pc := by
  rcases hinv.rx_armed h with h | h | h
  · exact Or.inl h
  · exact Or.inr (Or.inl ((notifyLater_slot s v).2 h))
  · exact Or.inr (Or.inr h)

section Handler

variable {mesh : MeshParts Packet} {s t : RadioState Packet} {now : UInt32}

/-- The drain of `rx_q_` ends on an empty queue. -/
theorem RadioInv.drain_step {n : PendingISR} (hinv : RadioInv s) (hpc : s.pc = .drain n)
    (hstep : onNotify mesh s now = some t) : RadioInv t := by
  simp only [onNotify, hpc] at hstep
  cases hq : s.rxQ with
  | nil =>
      -- no received frame is left to see to
      rw [hq] at hstep
      obtain rfl := Option.some.inj hstep
      refine ⟨fun _ => Or.inr (Or.inl ?_), fun h => absurd rfl h, ?_⟩
      · simp only
        split <;> simp
      · intro h
        simp only at h
        split at h <;> exact False.elim h
  | cons air rest =>
      rw [hq] at hstep
      obtain rfl := Option.some.inj hstep
      have hne : s.rxQ ≠ [] := by
        rw [hq]
        exact List.cons_ne_nil _ _
      have harmed := hinv.rx_armed hne
      rw [hpc] at harmed
      exact ⟨fun _ => Or.inr (Or.inl (by simp)), fun _ => harmed, fun h => False.elim h⟩

/-- `canSendImmediately` passes with no packet in flight. -/
theorem RadioInv.canSend_step (hinv : RadioInv s) (hpc : s.pc = .canSend)
    (hstep : onNotify mesh s now = some t) : RadioInv t := by
  obtain ⟨p, hcheck⟩ := checkTxComplete_eq s now
  simp only [onNotify, hpc] at hstep
  obtain rfl := Option.some.inj hstep
  rw [hcheck]
  refine hinv.move rfl rfl rfl ?_ ?_ ?_
  · rw [hpc]
    exact False.elim
  · intro h
    simp only at h
    split at h <;> exact absurd h (by simp)
  · intro h
    simp only at h ⊢
    split_ifs at h with hclear
    · rw [Bool.and_eq_true, Option.isNone_iff_eq_none] at hclear
      exact hclear.1
    · exact False.elim h

/-- `txQueue.dequeue` comes after `canSendImmediately`. -/
theorem RadioInv.dequeue_step (hinv : RadioInv s) (hpc : s.pc = .dequeue)
    (hstep : onNotify mesh s now = some t) : RadioInv t := by
  simp only [onNotify, hpc] at hstep
  split at hstep
  · exact absurd hstep (by simp)
  · obtain rfl := Option.some.inj hstep
    refine hinv.move rfl rfl rfl ?_ (by simp) (fun _ => hinv.cleared (by rw [hpc]; trivial))
    rw [hpc]
    exact False.elim

/-- **A handler step** keeps the invariant, wherever the handler stands. -/
theorem RadioInv.handler_step (hinv : RadioInv s) (hstep : onNotify mesh s now = some t) :
    RadioInv t := by
  obtain ⟨p, hcheck⟩ := checkTxComplete_eq s now
  have hwhole := hstep
  unfold onNotify at hstep
  rcases hpc : s.pc with - | n | n | n | n | - | - | - | - | txp | - | - | v <;> rw [hpc] at hstep
  case idle => exact absurd hstep (by simp)
  case preset =>
    obtain rfl := Option.some.inj hstep
    refine hinv.move rfl rfl rfl ?_ (by simp) (fun h => False.elim h)
    rw [hpc]
    cases n <;> exact id
  case switch =>
    cases n with
    | isrTx =>
        obtain rfl := Option.some.inj hstep
        refine hinv.move rfl rfl rfl ?_ (by simp) (fun h => False.elim h)
        rw [hpc]
        exact id
    | isrRx =>
        obtain rfl := Option.some.inj hstep
        rw [hcheck]
        exact hinv.move rfl rfl rfl (fun _ => trivial) (by simp)
          (fun h => False.elim h)
    | transmitDelayCompleted =>
        obtain rfl := Option.some.inj hstep
        rw [hcheck]
        refine hinv.move rfl rfl rfl ?_ (by simp) (fun h => False.elim h)
        rw [hpc]
        exact id
  case receive =>
    obtain rfl := Option.some.inj hstep
    rw [hcheck]
    refine hinv.move rfl rfl rfl ?_ (by simp) (fun h => False.elim h)
    rw [hpc]
    cases n <;> exact id
  case drain => exact hinv.drain_step hpc hwhole
  case txTest =>
    obtain rfl := Option.some.inj hstep
    exact hinv.move_txQueue (by rw [hpc]; exact id) (by simp) id
  case canSend => exact hinv.canSend_step hpc hwhole
  case channel =>
    obtain rfl := Option.some.inj hstep
    refine hinv.move rfl rfl rfl ?_ ?_ (fun _ => hinv.cleared (by rw [hpc]; trivial))
    · rw [hpc]
      exact False.elim
    · intro h
      simp only at h
      split at h <;> exact absurd h (by simp)
  case dequeue => exact hinv.dequeue_step hpc hwhole
  case startSend =>
    obtain rfl := Option.some.inj hstep
    refine hinv.move rfl rfl rfl ?_ (by simp) (fun h => False.elim h)
    rw [hpc]
    exact False.elim
  case delay =>
    obtain rfl := Option.some.inj hstep
    exact hinv.move_txQueue (by rw [hpc]; exact id) (by simp) id
  case timer =>
    obtain rfl := Option.some.inj hstep
    exact hinv.move_txQueue (by rw [hpc]; exact id) (by simp) id
  case notifyLater =>
    obtain rfl := Option.some.inj hstep
    refine ⟨fun _ => Or.inl (notifyLater_slot s v).1, ?_, fun h => False.elim h⟩
    intro h
    have harmed := hinv.notifyLater_armed v h
    rw [hpc] at harmed
    exact harmed

end Handler

/-- **The step lemma**, for every thread. -/
theorem RadioInv.step {mesh : MeshParts Packet} {s t : RadioState Packet} {a : RadioAction Packet}
    (hinv : RadioInv s) (hstep : radioStep mesh s a = some t) : RadioInv t := by
  cases a with
  | sendEnqueue p =>
      simp only [radioStep] at hstep
      split at hstep
      · obtain rfl := Option.some.inj hstep
        exact hinv
      · obtain rfl := Option.some.inj hstep
        exact ⟨fun _ => Or.inr (Or.inr (Or.inl (Nat.succ_pos _))), hinv.rx_armed, hinv.cleared⟩
  | sendTimer =>
      obtain ⟨hpos, hstep⟩ := Option.ite_none_right_eq_some.mp hstep
      obtain rfl := Option.some.inj hstep
      refine ⟨?_, hinv.rx_armed, hinv.cleared⟩
      intro h
      right
      right
      right
      simp only
      rw [if_neg (by simpa using h)]
      exact Nat.succ_pos _
  | sendNotify =>
      obtain ⟨hpos, hstep⟩ := Option.ite_none_right_eq_some.mp hstep
      obtain rfl := Option.some.inj hstep
      exact ⟨fun _ => Or.inl (notifyLater_slot s .transmitDelayCompleted).1,
        hinv.notifyLater_armed .transmitDelayCompleted, hinv.cleared⟩
  | cancelSending source id =>
      obtain rfl := Option.some.inj hstep
      refine ⟨?_, hinv.rx_armed, hinv.cleared⟩
      intro h
      apply hinv.tx_armed
      intro hnil
      exact h (by rw [hnil, mesh.remove_nil])
  | rxPush air =>
      simp only [radioStep] at hstep
      split_ifs at hstep with hpushed
      obtain rfl := Option.some.inj hstep
      exact ⟨hinv.tx_armed, fun _ => Or.inl rfl, hinv.cleared⟩
  | rxNotify =>
      obtain ⟨-, hstep⟩ := Option.ite_none_right_eq_some.mp hstep
      obtain rfl := Option.some.inj hstep
      have h := hinv.notify_rx
      exact ⟨fun _ => Or.inl (by simp [notify]), fun _ => Or.inr (Or.inl rfl), h.cleared⟩
  | presetStore id =>
      simp only [radioStep] at hstep
      split_ifs at hstep with hstored
      obtain rfl := Option.some.inj hstep
      exact ⟨hinv.tx_armed, hinv.rx_armed, hinv.cleared⟩
  | presetNotify =>
      obtain ⟨-, hstep⟩ := Option.ite_none_right_eq_some.mp hstep
      obtain rfl := Option.some.inj hstep
      exact ⟨fun _ => Or.inl (by simp [notify]), fun _ => Or.inr (Or.inl rfl), hinv.cleared⟩
  | dispatch =>
      simp only [radioStep] at hstep
      split at hstep
      · rename_i n hpc hslot
        obtain rfl := Option.some.inj hstep
        refine ⟨fun _ => Or.inr (Or.inl (by simp)), ?_, fun h => False.elim h⟩
        intro h
        rcases hinv.rx_armed h with h | h | h
        · exact Or.inl h
        · -- the notification taken is the one of the received frame
          rw [hslot] at h
          obtain rfl := Option.some.inj h
          exact Or.inr (Or.inr trivial)
        · rw [hpc] at h
          exact False.elim h
      · exact absurd hstep (by simp)
  | handler now => exact hinv.handler_step hstep

/-- **The slot never loses work.**  In every interleaving of `send`, `cancelSending`, the RX
thread, the control socket, dispatches and handlers: between handlers and calls of `send`, a
packet that waits has a notification; between handlers and outside `enqueueRx`, a received
frame has `ISR_RX`; and `startSend` is entered with no packet in flight. -/
theorem radio_slot_safe {mesh : MeshParts Packet} {s : RadioState Packet}
    (hs : Reach RadioInit (Steps (radioStep mesh)) s) :
    (s.pc = .idle → s.sendsQueued = 0 → s.sendsTimed = 0 → s.txQueue ≠ [] → s.slot ≠ none) ∧
    (s.pc = .idle → s.rxPushed = false → s.rxQ ≠ [] → s.slot = some .isrRx) ∧
    ∀ txp, s.pc = .startSend txp → s.sendingPacket = none := by
  have hinv : RadioInv s := hs.invariant RadioInv (fun _ => RadioInv.of_init)
    (fun _ _ _ hinv hst => hinv.step hst)
  refine ⟨?_, ?_, ?_⟩
  · intro hpc hqueued htimed hne
    rcases hinv.tx_armed hne with h | h | h | h
    · exact h
    · exact absurd hpc h
    · omega
    · omega
  · intro hpc hpushed hne
    rcases hinv.rx_armed hne with h | h | h
    · rw [hpushed] at h
      exact absurd h (by decide)
    · exact h
    · rw [hpc] at h
      exact False.elim h
  · intro txp hpc
    apply hinv.cleared
    rw [hpc]
    trivial

end Model

/-! ## A timer that is overwritten -/

/-- Packets of one priority, queued up to `MAX_TX_QUEUE`, and an air time of 20 ms. -/
def plainMesh : MeshParts (ℕ × ℕ) where
  enqueue := fun q p => if q.length < 16 then some (q ++ [p]) else none
  dequeue := fun q => q.head?.map fun p => (p, q.tail)
  remove := fun q source id => q.erase (source, id)
  packetTime := fun _ => 20
  remove_nil := fun _ _ => rfl

/-- A packet is queued and its timer set; a frame arrives and takes the slot; its handler
sets the timer again. -/
theorem radio_slot_safe_overwritten :
    ∃ s : RadioState (ℕ × ℕ),
      exec (radioStep plainMesh) {}
        [.sendEnqueue (7, 1), .sendTimer, .sendNotify, .rxPush [1, 2], .rxNotify, .dispatch,
          .handler 0, .handler 0, .handler 0, .handler 0, .handler 0, .handler 0, .handler 0]
        = some s ∧ s.txQueue ≠ [] ∧ s.slot ≠ none := by
  have hrun : (exec (radioStep plainMesh) {}
      [.sendEnqueue (7, 1), .sendTimer, .sendNotify, .rxPush [1, 2], .rxNotify, .dispatch,
        .handler 0, .handler 0, .handler 0, .handler 0, .handler 0, .handler 0, .handler 0]).any
      (fun s => decide (s.pc = .idle ∧ s.sendsQueued = 0 ∧ s.sendsTimed = 0 ∧ s.txQueue ≠ []))
        = true := by decide +kernel
  obtain ⟨s, hs, hp⟩ := (Option.any_eq_true _ _).mp hrun
  obtain ⟨hpc, hqueued, htimed, hne⟩ := of_decide_eq_true hp
  exact ⟨s, hs, hne, (radio_slot_safe (Reach.exec (Reach.start rfl) hs)).1 hpc hqueued htimed hne⟩
