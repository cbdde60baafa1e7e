/-
# One call of `sendToPhone` (`patches/downstream/0004`, `patches/downstream/0005`)

The whole call, without anything in between: a copy for each interested client, and the
packet itself into `toPhoneQueue` if there was none.  It is a run of the steps of
`Meshtastic.Fanout` (`exec_sendToPhone`).  Only clients that take packets right away are
interested, so that one of them is enough for a client in its configuration download to
miss the packet.
-/
import Mathlib
import QuadrfMesh.Meshtastic.Fanout

namespace Meshtastic.MeshService

open Transition

variable {Client Q : Type} [DecidableEq Client] (F : SharedQueue Q)

/-- A copy is allocated and put into the client's queue. -/
def deliver (s : MeshService Client Q) (client : Client) (packet : MeshPacket) :
    MeshService Client Q :=
  (s.allocCopy client packet).update client fun a => a.enqueueClientPacket (s.nextCopy packet)

/-- The loop of `sendToPhone`; `ok` says for which clients `allocCopy` works. -/
def fanOut (ok : Client → Bool) (p : PoolPacket) :
    List Client → Bool → MeshService Client Q → MeshService Client Q × Bool
  | [], queuedToAny, s => (s, queuedToAny)
  | client :: todo, queuedToAny, s =>
      if (s.api client).isInterestedInPackets && ok client then
        fanOut ok p todo true (s.deliver client p.packet)
      else fanOut ok p todo queuedToAny s

/-- `sendToPhone`; `none` where it aborts. -/
def sendToPhone (ok : Client → Bool) (s : MeshService Client Q) (p : PoolPacket) :
    Option (MeshService Client Q) :=
  let r := fanOut ok p s.phoneClients false s
  finishSend F r.1 p r.2

/-! ## The call as a run of steps -/

/-- The turns of the loop. -/
def turns (ok : Client → Bool) (p : PoolPacket) :
    List Client → MeshService Client Q → List (Act Client)
  | [], _ => []
  | client :: todo, s =>
      if (s.api client).isInterestedInPackets && ok client then
        .allocCopy true :: .enqueueCopy :: turns ok p todo (s.deliver client p.packet)
      else .allocCopy (ok client) :: turns ok p todo s

variable {F} {s t : MeshService Client Q} {p : PoolPacket}

/-- The turns, taken one after the other. -/
theorem exec_turns (ok : Client → Bool) (p : PoolPacket) (todo : List Client)
    (queuedToAny : Bool) (s : MeshService Client Q) :
    exec (step F) { s with sending := some { p, todo, queuedToAny } } (turns ok p todo s)
      = some { (fanOut ok p todo queuedToAny s).1 with
          sending := some { p, todo := [], queuedToAny := (fanOut ok p todo queuedToAny s).2 } } := by
  induction todo generalizing s queuedToAny with
  | nil => rfl
  | cons client todo ih =>
      rw [turns, fanOut]
      by_cases h : ((s.api client).isInterestedInPackets && ok client) = true
      · rw [if_pos h, if_pos h, ← ih]
        have hint : ((s.api client).isInterestedInPackets && true) = true := by
          rw [Bool.and_true]
          exact (Bool.and_eq_true_iff.mp h).1
        simp only [exec, step, hint, if_true, Option.bind_some]
        rfl
      · rw [if_neg h, if_neg h, ← ih]
        simp only [exec, step, h]
        rfl

theorem sending_fanOut (ok : Client → Bool) (p : PoolPacket) (todo : List Client)
    (queuedToAny : Bool) (s : MeshService Client Q) :
    (fanOut ok p todo queuedToAny s).1.sending = s.sending := by
  induction todo generalizing s queuedToAny with
  | nil => rfl
  | cons client todo ih =>
      rw [fanOut]
      split_ifs
      · exact ih true _
      · exact ih queuedToAny s

/-- **The whole call is a run of its steps.** -/
theorem exec_sendToPhone (hsend : s.sending = none) (ok : Client → Bool) (p : PoolPacket) :
    exec (step F) s (.sendToPhone p :: turns ok p s.phoneClients s ++ [.finishSend])
      = sendToPhone F ok s p := by
  have hbegin : step F s (.sendToPhone p)
      = some { s with sending := some { p, todo := s.phoneClients } } := by
    simp only [step, hsend]
    rfl
  have hclear : { (fanOut ok p s.phoneClients false s).1 with sending := none }
      = (fanOut ok p s.phoneClients false s).1 := by
    have hnone := (sending_fanOut ok p s.phoneClients false s).trans hsend
    rw [← hnone]
  rw [List.cons_append, exec, hbegin, Option.bind_some, exec_append, exec_turns, Option.bind_some,
    exec, step]
  simp only [hclear]
  exact Option.bind_fun_some _

/-! ## Who gets the packet -/

/-- A copy of the packet was allocated for the client, and is in its queue. -/
def Received (s t : MeshService Client Q) (p : PoolPacket) (client : Client) : Prop :=
  ∃ x, (t.api client).allocated = (s.api client).allocated ++ [x] ∧ x.packet = p.packet ∧
    x ∈ (t.api client).clientPacketQueue

theorem api_deliver_of_ne (s : MeshService Client Q) {client other : Client} (h : other ≠ client)
    (packet : MeshPacket) : (s.deliver client packet).api other = s.api other := by
  simp only [deliver, MeshService.allocCopy, MeshService.update, Function.update_of_ne h]

theorem received_deliver (s : MeshService Client Q) (client : Client) (p : PoolPacket) :
    Received s (s.deliver client p.packet) p client := by
  refine ⟨s.nextCopy p.packet, ?_, rfl, ?_⟩
  · simp [deliver, MeshService.allocCopy, MeshService.update, PhoneAPI.enqueueClientPacket,
      PhoneAPI.allocate]
  · simp [deliver, MeshService.allocCopy, MeshService.update, PhoneAPI.enqueueClientPacket]

/-- The loop does nothing to clients it does not come to. -/
theorem api_fanOut_of_not_mem (ok : Client → Bool) (p : PoolPacket) {todo : List Client}
    {other : Client} (h : other ∉ todo) (queuedToAny : Bool) (s : MeshService Client Q) :
    (fanOut ok p todo queuedToAny s).1.api other = s.api other := by
  induction todo generalizing s queuedToAny with
  | nil => rfl
  | cons client todo ih =>
      obtain ⟨hne, hmem⟩ := not_or.mp (mt List.mem_cons.mpr h)
      rw [fanOut]
      split_ifs
      · rw [ih hmem, api_deliver_of_ne s hne]
      · exact ih hmem queuedToAny s

/-- **Each interested client gets a copy**, and the others nothing. -/
theorem fanOut_spec (p : PoolPacket) {todo : List Client} (hnodup : todo.Nodup)
    (queuedToAny : Bool) (s : MeshService Client Q) {client : Client} (hmem : client ∈ todo) :
    if (s.api client).isInterestedInPackets then
      Received s (fanOut (fun _ => true) p todo queuedToAny s).1 p client
    else (fanOut (fun _ => true) p todo queuedToAny s).1.api client = s.api client := by
  induction todo generalizing s queuedToAny with
  | nil => exact absurd hmem List.not_mem_nil
  | cons first todo ih =>
      obtain ⟨hfirst, hrest⟩ := List.nodup_cons.mp hnodup
      rw [fanOut, Bool.and_true]
      rcases eq_or_ne client first with rfl | hne
      · by_cases hint : (s.api client).isInterestedInPackets = true
        · rw [if_pos hint, if_pos hint]
          obtain ⟨x, hx⟩ := received_deliver s client p
          refine ⟨x, ?_⟩
          rw [api_fanOut_of_not_mem _ p hfirst]
          exact hx
        · rw [if_neg hint, if_neg hint]
          exact api_fanOut_of_not_mem _ p hfirst queuedToAny s
      · have hlater := (List.mem_cons.mp hmem).resolve_left hne
        by_cases hint : (s.api first).isInterestedInPackets = true
        · rw [if_pos hint]
          have hnext := ih hrest true (s.deliver first p.packet) hlater
          unfold Received at hnext ⊢
          rw [api_deliver_of_ne s hne] at hnext
          exact hnext
        · rw [if_neg hint]
          exact ih hrest queuedToAny s hlater

/-- `queued_to_any` says whether there was an interested client. -/
theorem queuedToAny_fanOut (p : PoolPacket) {todo : List Client} (hnodup : todo.Nodup)
    (queuedToAny : Bool) (s : MeshService Client Q) :
    (fanOut (fun _ => true) p todo queuedToAny s).2 = true ↔
      queuedToAny = true ∨ ∃ client ∈ todo, (s.api client).isInterestedInPackets = true := by
  induction todo generalizing s queuedToAny with
  | nil => simp [fanOut]
  | cons first todo ih =>
      obtain ⟨hfirst, hrest⟩ := List.nodup_cons.mp hnodup
      rw [fanOut, Bool.and_true]
      by_cases hint : (s.api first).isInterestedInPackets = true
      · rw [if_pos hint, ih hrest]
        constructor
        · intro _
          exact Or.inr ⟨first, List.mem_cons_self, hint⟩
        · intro _
          exact Or.inl rfl
      · rw [if_neg hint, ih hrest]
        simp only [List.mem_cons, exists_eq_or_imp, hint, Bool.false_eq_true, false_or]

theorem toPhoneQueue_fanOut (ok : Client → Bool) (p : PoolPacket) (todo : List Client)
    (queuedToAny : Bool) (s : MeshService Client Q) :
    (fanOut ok p todo queuedToAny s).1.toPhoneQueue = s.toPhoneQueue := by
  induction todo generalizing s queuedToAny with
  | nil => rfl
  | cons client todo ih =>
      rw [fanOut]
      split_ifs
      · exact ih true _
      · exact ih queuedToAny s

omit [DecidableEq Client] in
/-- The call does not abort. -/
theorem finishSend_isSome (F : SharedQueue Q) (s : MeshService Client Q) (p : PoolPacket)
    (queuedToAny : Bool) : ∃ t, finishSend F s p queuedToAny = some t := by
  unfold finishSend
  split_ifs with hq hfull htext
  · exact ⟨_, rfl⟩
  · obtain ⟨q, hq, -⟩ := F.items_enqueue _ p (F.numFree_dequeuePtr _ hfull)
    exact ⟨_, Option.map_eq_some_iff.mpr ⟨q, hq, rfl⟩⟩
  · exact ⟨_, rfl⟩
  · obtain ⟨q, hq, -⟩ := F.items_enqueue _ p (Nat.pos_of_ne_zero hfull)
    exact ⟨_, Option.map_eq_some_iff.mpr ⟨q, hq, rfl⟩⟩

omit [DecidableEq Client] in
/-- **When the packet is kept**: no client got it, and it has or is given room. -/
theorem mem_toPhoneQueue_finishSend {queuedToAny : Bool} (hp : p ∉ F.items s.toPhoneQueue)
    (h : finishSend F s p queuedToAny = some t) :
    p ∈ F.items t.toPhoneQueue ↔ queuedToAny = false ∧
      (0 < F.numFree s.toPhoneQueue ∨ p.packet.portnum.isTextOrRangeTest = true) := by
  unfold finishSend at h
  split_ifs at h with hq hfull htext
  · obtain rfl := Option.some.inj h
    simp [hp, hq]
  · obtain ⟨q, hq', rfl⟩ := Option.map_eq_some_iff.mp h
    obtain ⟨q', hq'', hitems⟩ := F.items_enqueue _ p (F.numFree_dequeuePtr _ hfull)
    obtain rfl := Option.some.inj (hq''.symm.trans hq')
    simp [hitems, hq, htext]
  · obtain rfl := Option.some.inj h
    simp [hp, hfull, htext]
  · obtain ⟨q, hq', rfl⟩ := Option.map_eq_some_iff.mp h
    obtain ⟨q', hq'', hitems⟩ := F.items_enqueue _ p (Nat.pos_of_ne_zero hfull)
    obtain rfl := Option.some.inj (hq''.symm.trans hq')
    simp [hitems, hq, Nat.pos_of_ne_zero hfull]

/-- Every registered client has a copy in its queue, or the packet is kept for all. -/
def NoneMisses (F : SharedQueue Q) (s : MeshService Client Q) (p : PoolPacket) : Prop :=
  ∃ t, sendToPhone F (fun _ => true) s p = some t ∧
    ∀ client ∈ s.phoneClients, Received s t p client ∨ p ∈ F.items t.toPhoneQueue

/-- A client that is not interested gets no copy. -/
theorem received_iff (p : PoolPacket) {todo : List Client} (hnodup : todo.Nodup)
    (queuedToAny : Bool) (s : MeshService Client Q) {client : Client} (hmem : client ∈ todo) :
    Received s (fanOut (fun _ => true) p todo queuedToAny s).1 p client ↔
      (s.api client).isInterestedInPackets = true := by
  have hspec := fanOut_spec p hnodup queuedToAny s hmem
  constructor
  · rintro ⟨x, hx, -⟩
    by_contra hint
    rw [if_neg hint] at hspec
    rw [hspec] at hx
    have hlen := congrArg List.length hx
    rw [List.length_append, List.length_singleton] at hlen
    omega
  · intro hint
    rw [if_pos hint] at hspec
    exact hspec

/-- **When no client misses a packet** that its caller owns, while copies can be allocated:
all registered clients are interested, or none is and the packet has or is given room in the
shared queue. -/
theorem noneMisses_iff (hp : p ∉ F.items s.toPhoneQueue) :
    NoneMisses F s p ↔
      (∀ client ∈ s.phoneClients, (s.api client).isInterestedInPackets = true) ∨
        ((∀ client ∈ s.phoneClients, (s.api client).isInterestedInPackets = false) ∧
          (0 < F.numFree s.toPhoneQueue ∨ p.packet.portnum.isTextOrRangeTest = true)) := by
  obtain ⟨t, ht⟩ := finishSend_isSome F (fanOut (fun _ => true) p s.phoneClients false s).1 p
    (fanOut (fun _ => true) p s.phoneClients false s).2
  have hqueue := toPhoneQueue_fanOut (fun _ => true) p s.phoneClients false s
  have hkept := mem_toPhoneQueue_finishSend (hqueue.symm ▸ hp) ht
  have hqueued := queuedToAny_fanOut p s.nodup false s
  have hapi : t.api = (fanOut (fun _ => true) p s.phoneClients false s).1.api :=
    (finishSend_spec F ht).1
  have hreceived : ∀ client ∈ s.phoneClients,
      Received s t p client ↔ (s.api client).isInterestedInPackets = true := by
    intro client hmem
    rw [← received_iff p s.nodup false s hmem, Received, Received, hapi]
  rw [hqueue] at hkept
  have hnone : (fanOut (fun _ => true) p s.phoneClients false s).2 = false ↔
      ∀ client ∈ s.phoneClients, (s.api client).isInterestedInPackets = false := by
    rw [← Bool.not_eq_true, hqueued]
    simp
  constructor
  · rintro ⟨u, hu, hall⟩
    obtain rfl := Option.some.inj (ht.symm.trans hu)
    by_cases hmem : p ∈ F.items t.toPhoneQueue
    · obtain ⟨hq, hroom⟩ := hkept.mp hmem
      exact Or.inr ⟨hnone.mp hq, hroom⟩
    · left
      intro client hclient
      exact (hreceived client hclient).mp ((hall client hclient).resolve_right hmem)
  · rintro (hall | ⟨hno, hroom⟩)
    · exact ⟨t, ht, fun client hclient => Or.inl ((hreceived client hclient).mpr (hall client hclient))⟩
    · exact ⟨t, ht, fun _ _ => Or.inr (hkept.mpr ⟨hnone.mpr hno, hroom⟩)⟩

/-- Two registered clients that take packets in these states. -/
def inStates (first second : PhoneState) :
    MeshService ℕ { q : List PoolPacket // q.length ≤ 4 } :=
  { twoClients with
    phoneClients := [0, 1]
    nodup := by decide
    api := fun client => { state := if client = 0 then first else second } }

/-- Both clients have downloaded their configuration. -/
theorem noneMisses_iff_both :
    NoneMisses (boundedQueue 4 (by decide)) (inStates .sendPackets .sendPackets) message :=
  (noneMisses_iff List.not_mem_nil).mpr (Or.inl (by decide))

/-- A client in its configuration download misses a packet that the other one takes. -/
theorem downloading_client_misses :
    ¬ ∀ s : MeshService ℕ { q : List PoolPacket // q.length ≤ 4 },
      message ∉ s.toPhoneQueue.1 → NoneMisses (boundedQueue 4 (by decide)) s message := by
  intro h
  obtain ⟨t, ht, hall⟩ := h (inStates .sendPackets (.sendConfig 2)) List.not_mem_nil
  have hlost : (sendToPhone (boundedQueue 4 (by decide)) (fun _ => true)
      (inStates .sendPackets (.sendConfig 2)) message).map
        (fun t => ((t.api 1).allocated, t.toPhoneQueue.1)) = some ([], []) := by
    decide +kernel
  rw [ht, Option.map_some] at hlost
  obtain ⟨hnocopy, hnokept⟩ := Prod.mk.inj (Option.some.inj hlost)
  rcases hall 1 (by decide) with ⟨x, hx, -⟩ | hkept
  · rw [hnocopy] at hx
    exact absurd hx (by simp)
  · have hitems : message ∈ t.toPhoneQueue.1 := hkept
    rw [hnokept] at hitems
    exact absurd hitems List.not_mem_nil

end Meshtastic.MeshService
