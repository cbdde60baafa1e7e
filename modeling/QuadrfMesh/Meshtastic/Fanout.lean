/-
# Per-client packet queues (`patches/downstream/0004`, `patches/downstream/0005`)

The queue of each `PhoneAPI` client and `MeshService`'s fan-out over the registered
clients.  `sendToPhone` holds `phoneClientsLock` while it walks over the clients, and each
client's queue has a lock of its own, so that the other calls may come between any two
turns of the walk, and between the allocation of a copy and its way into a queue.  No copy
is lost or given back twice, whatever the interleaving (`fanout_accounts`).

The packet pool and the shared `toPhoneQueue` belong to the firmware: a copy is known by the
number of its allocation, and the queue by what it promises (`SharedQueue`).
-/
import Mathlib
import QuadrfMesh.Lib.Ledger
import QuadrfMesh.Lib.Transition

namespace Meshtastic

open Transition

/-- `meshtastic_PortNum`. -/
inductive PortNum
  | textMessageApp
  | rangeTestApp
  | other (n : ℕ)
  deriving DecidableEq, Repr

def PortNum.isTextOrRangeTest : PortNum → Bool
  | textMessageApp | rangeTestApp => true
  | other _ => false

/-- A packet as the queues look at it: `which_payload_variant`, and the word at
`decoded.portnum`. -/
structure MeshPacket where
  isDecoded : Bool
  portnum : PortNum
  deriving DecidableEq, Repr

/-- The packets that are evicted first. -/
def MeshPacket.isOtherPort (p : MeshPacket) : Bool := p.isDecoded && !p.portnum.isTextOrRangeTest

/-- A packet of the pool, with the number of its allocation. -/
structure PoolPacket where
  serial : ℕ
  packet : MeshPacket
  deriving DecidableEq, Repr

/-- `PhoneAPI::State`; the states of the configuration download are told apart by a number. -/
inductive PhoneState
  | sendNothing
  | sendConfig (stage : ℕ)
  | sendPackets
  deriving DecidableEq, Repr

/-- `PhoneAPI::APIType`, of which the patches know `TYPE_HTTP`. -/
inductive ApiType
  | http
  | other
  deriving DecidableEq, Repr

/-! ## One client -/

/-- A `PhoneAPI` with a record of its copies: allocated for it, put into its queue, returned
by `getClientPacket`, released, and evicted, the last with the queue they were taken from. -/
structure PhoneAPI where
  state : PhoneState := .sendNothing
  apiType : ApiType := .other
  clientPacketQueue : List PoolPacket := []
  allocated : List PoolPacket := []
  enqueued : List PoolPacket := []
  returned : List PoolPacket := []
  released : List PoolPacket := []
  evicted : List (PoolPacket × List PoolPacket) := []
  deriving DecidableEq, Repr

def kMaxClientQueue : ℕ := 32

/-- What stays of a full queue, and the victim. -/
def evict (q : List PoolPacket) : List PoolPacket × List PoolPacket :=
  match q.find? fun x => x.packet.isOtherPort with
  | some victim => (q.eraseP fun x => x.packet.isOtherPort, [victim])
  | none => (q.tail, q.head?.toList)

namespace PhoneAPI

/-- `isInterestedInPackets`. -/
def isInterestedInPackets (a : PhoneAPI) : Bool :=
  a.state = .sendPackets || (a.apiType = .http && a.state = .sendNothing)

/-- `enqueueClientPacket`. -/
def enqueueClientPacket (a : PhoneAPI) (p : PoolPacket) : PhoneAPI :=
  let r := if kMaxClientQueue ≤ a.clientPacketQueue.length then evict a.clientPacketQueue
    else (a.clientPacketQueue, [])
  { a with
    clientPacketQueue := r.1 ++ [p]
    enqueued := a.enqueued ++ [p]
    released := a.released ++ r.2
    evicted := a.evicted ++ r.2.map fun victim => (victim, a.clientPacketQueue) }

/-- `getClientPacket`: the packet returned, if any. -/
def getClientPacket (a : PhoneAPI) : Option PoolPacket × PhoneAPI :=
  match a.clientPacketQueue with
  | [] => (none, a)
  | p :: q => (some p, { a with clientPacketQueue := q, returned := a.returned ++ [p] })

/-- The loop in `close` that empties the queue. -/
def drain (a : PhoneAPI) : PhoneAPI :=
  { a with clientPacketQueue := [], released := a.released ++ a.clientPacketQueue }

/-- The client's state changes. -/
def setState (a : PhoneAPI) (state : PhoneState) : PhoneAPI := { a with state }

/-- A copy is allocated for the client. -/
def allocate (a : PhoneAPI) (p : PoolPacket) : PhoneAPI :=
  { a with allocated := a.allocated ++ [p] }

/-- The queue and where its packets went. -/
def ledger (a : PhoneAPI) : Ledger PoolPacket :=
  { queue := a.clientPacketQueue, put := a.enqueued, taken := a.returned, dropped := a.released }

/-- A text or range test packet is evicted only from a queue without a decoded packet of
another port. -/
def EvictsLast (a : PhoneAPI) : Prop :=
  ∀ victim q, (victim, q) ∈ a.evicted → victim.packet.portnum.isTextOrRangeTest = true →
    ∀ x ∈ q, x.packet.isOtherPort = false

/-- What holds of every client at all times. -/
structure Sound (a : PhoneAPI) : Prop where
  balanced : a.ledger.Balanced
  short : a.clientPacketQueue.length ≤ kMaxClientQueue
  evictsLast : a.EvictsLast

end PhoneAPI

/-- **Eviction** takes one packet out of a queue and leaves the others in their places. -/
theorem evict_spec (q : List PoolPacket) :
    (evict q).1.Sublist q ∧ q.Perm ((evict q).2 ++ (evict q).1) ∧
      (evict q).1.length = q.length - 1 ∧
      ∀ victim ∈ (evict q).2, victim.packet.portnum.isTextOrRangeTest = true →
        ∀ x ∈ q, x.packet.isOtherPort = false := by
  unfold evict
  cases hfind : q.find? fun x => x.packet.isOtherPort with
  | some victim =>
      obtain ⟨hport, pre, post, rfl, hpre⟩ := List.find?_eq_some_iff_append.mp hfind
      have herase : (pre ++ victim :: post).eraseP (fun x => x.packet.isOtherPort) = pre ++ post := by
        rw [List.eraseP_append_right _ (fun x hx => by simpa using hpre x hx),
          List.eraseP_cons_of_pos (p := fun x : PoolPacket => x.packet.isOtherPort) hport]
      refine ⟨List.eraseP_sublist, ?_, ?_, ?_⟩
      · rw [herase]
        exact List.perm_middle
      · rw [herase]
        simp
      · intro v hv htext
        obtain rfl := List.mem_singleton.mp hv
        rw [MeshPacket.isOtherPort, htext] at hport
        exact absurd hport (by simp)
  | none =>
      refine ⟨List.tail_sublist q, ?_, List.length_tail, ?_⟩
      · cases q with
        | nil => exact List.Perm.refl _
        | cons x q => exact List.Perm.refl _
      · intro _ _ _ x hx
        exact Bool.eq_false_iff.mpr (List.find?_eq_none.mp hfind x hx)

namespace PhoneAPI

theorem sound_empty (state : PhoneState) (apiType : ApiType) :
    Sound { state := state, apiType := apiType } :=
  ⟨Ledger.balanced_empty, Nat.zero_le _, fun _ _ h => absurd h List.not_mem_nil⟩

/-- Only the queue and the record of it matter. -/
theorem Sound.congr {a b : PhoneAPI} (h : a.Sound) (hledger : b.ledger = a.ledger)
    (hevicted : b.evicted = a.evicted) : b.Sound := by
  have hqueue : b.clientPacketQueue = a.clientPacketQueue := congrArg Ledger.queue hledger
  refine ⟨hledger ▸ h.balanced, hqueue ▸ h.short, ?_⟩
  rw [EvictsLast, hevicted]
  exact h.evictsLast

theorem Sound.enqueueClientPacket {a : PhoneAPI} (h : a.Sound) (p : PoolPacket) :
    (a.enqueueClientPacket p).Sound := by
  unfold PhoneAPI.enqueueClientPacket
  by_cases hfull : kMaxClientQueue ≤ a.clientPacketQueue.length
  · obtain ⟨hkept, hsplit, hlength, hlast⟩ := evict_spec a.clientPacketQueue
    rw [if_pos hfull]
    refine ⟨(h.balanced.drop hkept hsplit).enqueue p, ?_, ?_⟩
    · have hshort := h.short
      simp only [List.length_append, List.length_singleton, hlength]
      unfold kMaxClientQueue at hfull hshort ⊢
      omega
    · intro victim q hmem htext
      rcases List.mem_append.mp hmem with hold | hnew
      · exact h.evictsLast victim q hold htext
      · obtain ⟨v, hv, heq⟩ := List.mem_map.mp hnew
        obtain ⟨rfl, rfl⟩ := Prod.mk.inj heq
        exact hlast v hv htext
  · rw [if_neg hfull]
    refine ⟨(h.balanced.drop (List.Sublist.refl _) (List.Perm.refl _)).enqueue p, ?_, ?_⟩
    · simp only [List.length_append, List.length_singleton]
      omega
    · intro victim q hmem htext
      rcases List.mem_append.mp hmem with hold | hnew
      · exact h.evictsLast victim q hold htext
      · exact absurd hnew List.not_mem_nil

theorem Sound.getClientPacket {a : PhoneAPI} (h : a.Sound) : a.getClientPacket.2.Sound := by
  unfold PhoneAPI.getClientPacket
  cases hq : a.clientPacketQueue with
  | nil => exact h
  | cons p q =>
      refine ⟨h.balanced.take hq, ?_, h.evictsLast⟩
      have hshort := h.short
      rw [hq, List.length_cons] at hshort
      exact Nat.le_of_succ_le hshort

theorem Sound.drain {a : PhoneAPI} (h : a.Sound) : a.drain.Sound :=
  ⟨h.balanced.drop (List.nil_sublist _) (List.Perm.of_eq (List.append_nil _).symm),
    Nat.zero_le _, h.evictsLast⟩

end PhoneAPI

/-! ## The service -/

/-- What `toPhoneQueue` promises: what is put into it is at its back, and there is room again
once the front of a full queue is taken. -/
structure SharedQueue (Q : Type) where
  items : Q → List PoolPacket
  numFree : Q → ℕ
  dequeuePtr : Q → Option PoolPacket × Q
  enqueue : Q → PoolPacket → Option Q
  numFree_dequeuePtr : ∀ q, numFree q = 0 → 0 < numFree (dequeuePtr q).2
  items_enqueue : ∀ q p, 0 < numFree q → ∃ q', enqueue q p = some q' ∧ items q' = items q ++ [p]

/-- A call of `sendToPhone` within the loop: the clients still to come, the copy just
allocated with the client it is for, and `queued_to_any`. -/
structure Sending (Client : Type) where
  p : PoolPacket
  todo : List Client
  copy : Option (Client × PoolPacket) := none
  queuedToAny : Bool := false

/-- How far a client's `close` is. -/
inductive CloseStage
  | idle | unregister | drain
  deriving DecidableEq, Repr

/-- `MeshService` and its clients.  `serial` counts the copies, `released` are the packets
`sendToPhone` itself gave back, and `sending` is the call that holds `phoneClientsLock`. -/
structure MeshService (Client Q : Type) where
  phoneClients : List Client
  nodup : phoneClients.Nodup
  api : Client → PhoneAPI
  toPhoneQueue : Q
  fromNum : ℕ := 0
  serial : ℕ := 0
  released : List PoolPacket := []
  sending : Option (Sending Client) := none
  closing : Client → CloseStage := fun _ => .idle

namespace MeshService

variable {Client Q : Type} [DecidableEq Client] (F : SharedQueue Q)

/-- `registerPhoneClient`. -/
def registerPhoneClient (s : MeshService Client Q) (client : Client) : MeshService Client Q :=
  if h : client ∈ s.phoneClients then s
  else
    { s with
      phoneClients := s.phoneClients ++ [client]
      nodup := List.nodup_append.mpr ⟨s.nodup, List.nodup_singleton client, by
        intro c hc d hd hcd
        rw [List.mem_singleton.mp hd] at hcd
        exact h (hcd ▸ hc)⟩ }

/-- `unregisterPhoneClient`. -/
def unregisterPhoneClient (s : MeshService Client Q) (client : Client) : MeshService Client Q :=
  { s with phoneClients := s.phoneClients.erase client, nodup := s.nodup.erase client }

/-- A client's own state changes. -/
def update (s : MeshService Client Q) (client : Client) (f : PhoneAPI → PhoneAPI) :
    MeshService Client Q :=
  { s with api := Function.update s.api client (f (s.api client)) }

/-- The copy `allocCopy` makes next. -/
def nextCopy (s : MeshService Client Q) (packet : MeshPacket) : PoolPacket :=
  { serial := s.serial, packet }

/-- `allocCopy`, of a packet for a client. -/
def allocCopy (s : MeshService Client Q) (client : Client) (packet : MeshPacket) :
    MeshService Client Q :=
  { s.update client (fun a => a.allocate (s.nextCopy packet)) with serial := s.serial + 1 }

/-- The end of `sendToPhone`; `none` where it aborts. -/
def finishSend (s : MeshService Client Q) (p : PoolPacket) (queuedToAny : Bool) :
    Option (MeshService Client Q) :=
  if queuedToAny then
    some { s with released := s.released ++ [p], fromNum := s.fromNum + 1 }
  else if F.numFree s.toPhoneQueue = 0 then
    if p.packet.portnum.isTextOrRangeTest then
      -- discard oldest
      let (d, q) := F.dequeuePtr s.toPhoneQueue
      (F.enqueue q p).map fun q =>
        { s with toPhoneQueue := q, released := s.released ++ d.toList, fromNum := s.fromNum + 1 }
    else
      -- drop packet
      some { s with released := s.released ++ [p], fromNum := s.fromNum + 1 }
  else
    (F.enqueue s.toPhoneQueue p).map fun q =>
      { s with toPhoneQueue := q, fromNum := s.fromNum + 1 }

/-! ## Interleavings -/

/-- The calls and their parts. -/
inductive Act (Client : Type)
  | registerPhoneClient (client : Client)
  | unregisterPhoneClient (client : Client)
  /-- `sendToPhone` takes the lock. -/
  | sendToPhone (p : PoolPacket)
  /-- A turn of its loop, up to `allocCopy`, which works or not. -/
  | allocCopy (ok : Bool)
  /-- The rest of a turn that has a copy. -/
  | enqueueCopy
  /-- The loop is over. -/
  | finishSend
  /-- A call from elsewhere, with a copy of its own. -/
  | enqueueClientPacket (client : Client) (packet : MeshPacket)
  | getClientPacket (client : Client)
  /-- `close` up to the state change, then up to the unregistration, then the rest. -/
  | close (client : Client)
  | closeUnregister (client : Client)
  | closeDrain (client : Client)
  /-- The code around the patches moves a client to another state. -/
  | setState (client : Client) (state : PhoneState)

/-- One step; `none` where the caller has to wait for the lock, does not stand there, or
aborts. -/
def step (s : MeshService Client Q) : Act Client → Option (MeshService Client Q)
  | .registerPhoneClient client =>
      if s.sending.isSome then none else some (s.registerPhoneClient client)
  | .unregisterPhoneClient client =>
      if s.sending.isSome then none else some (s.unregisterPhoneClient client)
  | .sendToPhone p =>
      if s.sending.isSome then none
      else some { s with sending := some { p, todo := s.phoneClients } }
  | .allocCopy ok =>
      match s.sending with
      | some { p, todo := client :: todo, copy := none, queuedToAny } =>
          if (s.api client).isInterestedInPackets && ok then
            some { s.allocCopy client p.packet with
              sending := some { p, todo, copy := some (client, s.nextCopy p.packet), queuedToAny } }
          else some { s with sending := some { p, todo, queuedToAny } }
      | _ => none
  | .enqueueCopy =>
      match s.sending with
      | some { p, todo, copy := some (client, x), .. } =>
          some { s.update client (fun a => a.enqueueClientPacket x) with
            sending := some { p, todo, queuedToAny := true } }
      | _ => none
  | .finishSend =>
      match s.sending with
      | some { p, todo := [], copy := none, queuedToAny } =>
          finishSend F { s with sending := none } p queuedToAny
      | _ => none
  | .enqueueClientPacket client packet =>
      some ((s.allocCopy client packet).update client
        fun a => a.enqueueClientPacket (s.nextCopy packet))
  | .getClientPacket client => some (s.update client fun a => a.getClientPacket.2)
  | .close client =>
      if s.closing client = .idle then
        some { s.update client (fun a => a.setState .sendNothing) with
          closing := Function.update s.closing client .unregister }
      else none
  | .closeUnregister client =>
      if s.closing client = .unregister ∧ s.sending.isNone then
        some { s.unregisterPhoneClient client with
          closing := Function.update s.closing client .drain }
      else none
  | .closeDrain client =>
      if s.closing client = .drain then
        some { s.update client PhoneAPI.drain with
          closing := Function.update s.closing client .idle }
      else none
  | .setState client state => some (s.update client fun a => a.setState state)

/-- The start: no client is registered, and none has a packet. -/
def Init (s : MeshService Client Q) : Prop :=
  s.phoneClients = [] ∧ s.serial = 0 ∧ s.sending.isNone = true ∧
    ∀ client, ∃ state apiType, s.api client = { state, apiType }

/-- The copy `sendToPhone` holds for a client, between its allocation and its queue. -/
def inHand (s : MeshService Client Q) (client : Client) : List PoolPacket :=
  match s.sending with
  | some { copy := some (c, x), .. } => if c = client then [x] else []
  | _ => []

/-! ## Every copy is accounted for -/

/-- The copies of each client: allocated once, for one client, and put into its queue unless
they are among `hand`. -/
structure Accounts (s : MeshService Client Q) (hand : Client → List PoolPacket) : Prop where
  fresh : ∀ client, ∀ x ∈ (s.api client).allocated, x.serial < s.serial
  once : ∀ client, (s.api client).allocated.Nodup
  owner : ∀ c d x, x ∈ (s.api c).allocated → x ∈ (s.api d).allocated → c = d
  handed : ∀ client, (s.api client).allocated.Perm ((s.api client).enqueued ++ hand client)
  sound : ∀ client, (s.api client).Sound

variable {s t : MeshService Client Q} {hand : Client → List PoolPacket}

omit [DecidableEq Client] in
theorem Accounts.congr (h : s.Accounts hand) (hapi : t.api = s.api) (hserial : t.serial = s.serial) :
    t.Accounts hand := by
  refine ⟨?_, ?_, ?_, ?_, ?_⟩
  · rw [hapi, hserial]
    exact h.fresh
  · rw [hapi]
    exact h.once
  · rw [hapi]
    exact h.owner
  · rw [hapi]
    exact h.handed
  · rw [hapi]
    exact h.sound

/-- A change at one client that allocates nothing and hands nothing over. -/
theorem Accounts.update (h : s.Accounts hand) (client : Client) {f : PhoneAPI → PhoneAPI}
    (hallocated : (f (s.api client)).allocated = (s.api client).allocated)
    (henqueued : (f (s.api client)).enqueued = (s.api client).enqueued)
    (hsound : (f (s.api client)).Sound) : (s.update client f).Accounts hand := by
  have halloc : ∀ c, ((s.update client f).api c).allocated = (s.api c).allocated := by
    apply (Function.forall_update_iff s.api fun c a => a.allocated = (s.api c).allocated).mpr
    exact ⟨hallocated, fun _ _ => rfl⟩
  have henq : ∀ c, ((s.update client f).api c).enqueued = (s.api c).enqueued := by
    apply (Function.forall_update_iff s.api fun c a => a.enqueued = (s.api c).enqueued).mpr
    exact ⟨henqueued, fun _ _ => rfl⟩
  refine ⟨?_, ?_, ?_, ?_, ?_⟩
  · intro c x hx
    rw [halloc] at hx
    exact h.fresh c x hx
  · intro c
    rw [halloc]
    exact h.once c
  · intro c d x hc hd
    rw [halloc] at hc hd
    exact h.owner c d x hc hd
  · intro c
    rw [halloc, henq]
    exact h.handed c
  · apply (Function.forall_update_iff s.api fun _ a => a.Sound).mpr
    exact ⟨hsound, fun c _ => h.sound c⟩

theorem Accounts.setState (h : s.Accounts hand) (client : Client) (state : PhoneState) :
    (s.update client fun a => a.setState state).Accounts hand :=
  h.update client rfl rfl ((h.sound client).congr rfl rfl)

theorem Accounts.getClientPacket (h : s.Accounts hand) (client : Client) :
    (s.update client fun a => a.getClientPacket.2).Accounts hand := by
  apply h.update client _ _ (h.sound client).getClientPacket
  · unfold PhoneAPI.getClientPacket
    split <;> rfl
  · unfold PhoneAPI.getClientPacket
    split <;> rfl

theorem Accounts.drain (h : s.Accounts hand) (client : Client) :
    (s.update client PhoneAPI.drain).Accounts hand :=
  h.update client rfl rfl (h.sound client).drain

/-- A copy is put into its client's queue. -/
theorem Accounts.enqueue (h : s.Accounts hand) {client : Client} {x : PoolPacket}
    {rest : List PoolPacket} (hhand : (hand client).Perm (x :: rest)) :
    (s.update client fun a => a.enqueueClientPacket x).Accounts
      (Function.update hand client rest) := by
  have halloc : ∀ c, ((s.update client fun a => a.enqueueClientPacket x).api c).allocated
      = (s.api c).allocated := by
    apply (Function.forall_update_iff s.api fun c a => a.allocated = (s.api c).allocated).mpr
    exact ⟨rfl, fun _ _ => rfl⟩
  refine ⟨?_, ?_, ?_, ?_, ?_⟩
  · intro c y hy
    rw [halloc] at hy
    exact h.fresh c y hy
  · intro c
    rw [halloc]
    exact h.once c
  · intro c d y hc hd
    rw [halloc] at hc hd
    exact h.owner c d y hc hd
  · intro c
    rw [halloc]
    unfold MeshService.update
    rcases eq_or_ne c client with rfl | hne
    · simp only [Function.update_self]
      refine (h.handed c).trans ((hhand.append_left _).trans ?_)
      rw [PhoneAPI.enqueueClientPacket, List.append_assoc]
      exact List.Perm.refl _
    · simp only [Function.update_of_ne hne]
      exact h.handed c
  · apply (Function.forall_update_iff s.api fun _ a => a.Sound).mpr
    exact ⟨(h.sound client).enqueueClientPacket x, fun c _ => h.sound c⟩

/-- A copy in hand for a client goes into its queue. -/
theorem Accounts.enqueue_handed {client : Client} {x : PoolPacket} {rest : List PoolPacket}
    (h : s.Accounts (Function.update hand client (x :: rest))) :
    (s.update client fun a => a.enqueueClientPacket x).Accounts
      (Function.update hand client rest) := by
  have hhand : (Function.update hand client (x :: rest) client).Perm (x :: rest) := by
    rw [Function.update_self]
  have hnext := h.enqueue hhand
  rw [Function.update_idem] at hnext
  exact hnext

/-- A copy is allocated: it is in hand. -/
theorem Accounts.allocCopy (h : s.Accounts hand) (client : Client) (packet : MeshPacket) :
    (s.allocCopy client packet).Accounts
      (Function.update hand client (s.nextCopy packet :: hand client)) := by
  have hmem : ∀ c x, x ∈ ((s.allocCopy client packet).api c).allocated →
      x ∈ (s.api c).allocated ∨ (c = client ∧ x = s.nextCopy packet) := by
    intro c x hx
    unfold MeshService.allocCopy MeshService.update at hx
    rcases eq_or_ne c client with rfl | hne
    · simp only [Function.update_self, PhoneAPI.allocate] at hx
      rcases List.mem_append.mp hx with hold | hnew
      · exact Or.inl hold
      · exact Or.inr ⟨rfl, List.mem_singleton.mp hnew⟩
    · simp only [Function.update_of_ne hne] at hx
      exact Or.inl hx
  -- the number of a copy is new
  have hnew : ∀ c, s.nextCopy packet ∉ (s.api c).allocated :=
    fun c hc => absurd (h.fresh c _ hc) (lt_irrefl s.serial)
  refine ⟨?_, ?_, ?_, ?_, ?_⟩
  · intro c x hx
    rcases hmem c x hx with hold | ⟨-, rfl⟩
    · exact Nat.lt_succ_of_lt (h.fresh c x hold)
    · exact Nat.lt_succ_self s.serial
  · apply (Function.forall_update_iff s.api fun _ a => a.allocated.Nodup).mpr
    refine ⟨?_, fun c _ => h.once c⟩
    exact List.nodup_append.mpr ⟨h.once client, List.nodup_singleton _, by
      intro x hx y hy hxy
      rw [List.mem_singleton.mp hy] at hxy
      exact hnew client (hxy ▸ hx)⟩
  · intro c d x hc hd
    rcases hmem c x hc with hold | ⟨rfl, rfl⟩
    · rcases hmem d x hd with hold' | ⟨-, rfl⟩
      · exact h.owner c d x hold hold'
      · exact absurd hold (hnew c)
    · rcases hmem d _ hd with hold' | ⟨rfl, -⟩
      · exact absurd hold' (hnew d)
      · rfl
  · intro c
    unfold MeshService.allocCopy MeshService.update
    rcases eq_or_ne c client with rfl | hne
    · simp only [Function.update_self]
      refine ((h.handed c).append_right [s.nextCopy packet]).trans ?_
      rw [List.append_assoc]
      exact (List.perm_append_singleton _ _).append_left _
    · simp only [Function.update_of_ne hne]
      exact h.handed c
  · apply (Function.forall_update_iff s.api fun _ a => a.Sound).mpr
    exact ⟨(h.sound client).congr rfl rfl, fun c _ => h.sound c⟩

theorem inHand_of_sending_none (h : s.sending = none) : s.inHand = fun _ => [] := by
  funext client
  rw [inHand, h]

theorem inHand_of_copy {p : PoolPacket} {todo : List Client} {c : Client} {x : PoolPacket}
    {queued : Bool} (h : s.sending = some ⟨p, todo, some (c, x), queued⟩) :
    s.inHand = Function.update (fun _ => []) c [x] := by
  funext client
  rw [inHand, h]
  rcases eq_or_ne client c with rfl | hne
  · simp
  · simp [Function.update_of_ne hne, hne.symm]

theorem inHand_of_copy_none {p : PoolPacket} {todo : List Client} {queued : Bool}
    (h : s.sending = some ⟨p, todo, none, queued⟩) : s.inHand = fun _ => [] := by
  funext client
  rw [inHand, h]

omit [DecidableEq Client] in
/-- The end of `sendToPhone` leaves the clients alone. -/
theorem finishSend_spec {p : PoolPacket} {queued : Bool} (h : finishSend F s p queued = some t) :
    t.api = s.api ∧ t.serial = s.serial ∧ t.sending = s.sending := by
  unfold finishSend at h
  split_ifs at h
  · obtain rfl := Option.some.inj h
    exact ⟨rfl, rfl, rfl⟩
  · obtain ⟨q, -, rfl⟩ := Option.map_eq_some_iff.mp h
    exact ⟨rfl, rfl, rfl⟩
  · obtain rfl := Option.some.inj h
    exact ⟨rfl, rfl, rfl⟩
  · obtain ⟨q, -, rfl⟩ := Option.map_eq_some_iff.mp h
    exact ⟨rfl, rfl, rfl⟩

/-- Every copy of every client is accounted for. -/
def Inv (s : MeshService Client Q) : Prop := s.Accounts s.inHand

theorem Inv.init (h : s.Init) : s.Inv := by
  obtain ⟨-, hserial, hsending, hapi⟩ := h
  have hnone : ∀ client, (s.api client).allocated = [] ∧ (s.api client).enqueued = []
      ∧ (s.api client).Sound := by
    intro client
    obtain ⟨state, apiType, hfresh⟩ := hapi client
    rw [hfresh]
    exact ⟨rfl, rfl, PhoneAPI.sound_empty state apiType⟩
  unfold Inv
  rw [inHand_of_sending_none (Option.isNone_iff_eq_none.mp hsending)]
  refine ⟨?_, ?_, ?_, ?_, fun client => (hnone client).2.2⟩
  · intro client x hx
    rw [(hnone client).1] at hx
    exact absurd hx List.not_mem_nil
  · intro client
    rw [(hnone client).1]
    exact List.nodup_nil
  · intro c d x hx
    rw [(hnone c).1] at hx
    exact absurd hx List.not_mem_nil
  · intro client
    rw [(hnone client).1, (hnone client).2.1]
    exact List.Perm.refl _

/-- A step that leaves the clients and the call of `sendToPhone` alone. -/
theorem Inv.congr (h : s.Inv) (hapi : t.api = s.api) (hserial : t.serial = s.serial)
    (hhand : t.inHand = s.inHand) : t.Inv := by
  unfold Inv
  rw [hhand]
  exact Accounts.congr h hapi hserial

/-- A turn of the loop allocates a copy, or passes the client over. -/
theorem Inv.allocCopy {ok : Bool} (h : s.Inv) (hstep : step F s (.allocCopy ok) = some t) :
    t.Inv := by
  unfold Inv at h
  simp only [MeshService.step] at hstep
  split at hstep
  · rename_i p client todo queued hsend
    rw [inHand_of_copy_none hsend] at h
    split_ifs at hstep
    · obtain rfl := Option.some.inj hstep
      unfold Inv
      rw [inHand_of_copy rfl]
      exact Accounts.congr (h.allocCopy client p.packet) rfl rfl
    · obtain rfl := Option.some.inj hstep
      unfold Inv
      rw [inHand_of_copy_none rfl]
      exact Accounts.congr h rfl rfl
  · exact absurd hstep (by simp)

/-- The copy of a turn goes into the queue. -/
theorem Inv.enqueueCopy (h : s.Inv) (hstep : step F s .enqueueCopy = some t) : t.Inv := by
  unfold Inv at h
  simp only [MeshService.step] at hstep
  split at hstep
  · rename_i p todo client x queued hsend
    rw [inHand_of_copy hsend] at h
    obtain rfl := Option.some.inj hstep
    have hnext := h.enqueue_handed
    rw [Function.update_eq_self] at hnext
    unfold Inv
    rw [inHand_of_copy_none rfl]
    exact Accounts.congr hnext rfl rfl
  · exact absurd hstep (by simp)

theorem Inv.finishSend (h : s.Inv) (hstep : step F s .finishSend = some t) : t.Inv := by
  unfold Inv at h
  simp only [MeshService.step] at hstep
  split at hstep
  · rename_i p queued hsend
    rw [inHand_of_copy_none hsend] at h
    obtain ⟨hapi, hserial, hnone⟩ := finishSend_spec F hstep
    unfold Inv
    rw [inHand_of_sending_none hnone]
    exact Accounts.congr h hapi hserial
  · exact absurd hstep (by simp)

/-- **Each step keeps the accounts.** -/
theorem Inv.step {a : Act Client} (h : s.Inv) (hstep : step F s a = some t) : t.Inv := by
  unfold Inv at h
  cases a with
  | registerPhoneClient client =>
      simp only [MeshService.step] at hstep
      split_ifs at hstep
      obtain rfl := Option.some.inj hstep
      unfold MeshService.registerPhoneClient
      split_ifs
      · exact h
      · exact Inv.congr h rfl rfl rfl
  | unregisterPhoneClient client =>
      simp only [MeshService.step] at hstep
      split_ifs at hstep
      obtain rfl := Option.some.inj hstep
      exact Inv.congr h rfl rfl rfl
  | sendToPhone p =>
      simp only [MeshService.step] at hstep
      split_ifs at hstep with hsend
      obtain rfl := Option.some.inj hstep
      have hnone : s.sending = none := by
        rw [Bool.not_eq_true, Option.isSome_eq_false_iff, Option.isNone_iff_eq_none] at hsend
        exact hsend
      refine Inv.congr h rfl rfl ?_
      rw [inHand_of_copy_none rfl, inHand_of_sending_none hnone]
  | allocCopy ok => exact Inv.allocCopy F h hstep
  | enqueueCopy => exact Inv.enqueueCopy F h hstep
  | finishSend => exact Inv.finishSend F h hstep
  | enqueueClientPacket client packet =>
      obtain rfl := Option.some.inj hstep
      have hnext := (h.allocCopy client packet).enqueue_handed
      rw [Function.update_eq_self] at hnext
      exact hnext
  | getClientPacket client =>
      obtain rfl := Option.some.inj hstep
      exact h.getClientPacket client
  | close client =>
      simp only [MeshService.step] at hstep
      split_ifs at hstep
      obtain rfl := Option.some.inj hstep
      exact Accounts.congr (h.setState client .sendNothing) rfl rfl
  | closeUnregister client =>
      simp only [MeshService.step] at hstep
      split_ifs at hstep
      obtain rfl := Option.some.inj hstep
      exact Inv.congr h rfl rfl rfl
  | closeDrain client =>
      simp only [MeshService.step] at hstep
      split_ifs at hstep
      obtain rfl := Option.some.inj hstep
      exact Accounts.congr (h.drain client) rfl rfl
  | setState client state =>
      obtain rfl := Option.some.inj hstep
      exact h.setState client state

/-- The copies of a client: each was allocated once and for no other client, and is exactly
once among those that `getClientPacket` returned, those released, those still queued, and the
one `sendToPhone` is about to put into the queue.  The queue is short, those returned and those
queued are in the order they were put into it, and text and range tests are evicted last. -/
def AccountedFor (s : MeshService Client Q) (client : Client) : Prop :=
  let a := s.api client
  a.allocated.Nodup ∧
    (∀ other, other ≠ client → a.allocated.Disjoint (s.api other).allocated) ∧
    a.allocated.Perm (a.returned ++ a.released ++ a.clientPacketQueue ++ s.inHand client) ∧
    (s.sending = none → s.inHand client = []) ∧
    a.clientPacketQueue.length ≤ 32 ∧
    (a.returned ++ a.clientPacketQueue).Sublist a.enqueued ∧
    ∀ victim q, (victim, q) ∈ a.evicted → victim.packet.portnum.isTextOrRangeTest = true →
      ∀ x ∈ q, x.packet.isOtherPort = false

end MeshService

/-- A queue of bounded length. -/
def boundedQueue (cap : ℕ) (hcap : 0 < cap) : SharedQueue { q : List PoolPacket // q.length ≤ cap } where
  items q := q.1
  numFree q := cap - q.1.length
  dequeuePtr q := (q.1.head?, ⟨q.1.tail, (List.tail_sublist q.1).length_le.trans q.2⟩)
  enqueue q p :=
    if h : q.1.length < cap then some ⟨q.1 ++ [p], by rw [List.length_append]; exact h⟩ else none
  numFree_dequeuePtr := by
    intro q hfull
    rw [List.length_tail]
    omega
  items_enqueue := by
    intro q p hroom
    rw [dif_pos (by omega)]
    exact ⟨_, rfl, rfl⟩

namespace MeshService

/-- Two clients, of which the first is a web page that polls. -/
def twoClients : MeshService ℕ { q : List PoolPacket // q.length ≤ 4 } :=
  { phoneClients := [], nodup := List.nodup_nil, toPhoneQueue := ⟨[], Nat.zero_le _⟩
    api := fun client => { apiType := if client = 0 then .http else .other } }

def message : PoolPacket := { serial := 100, packet := { isDecoded := true, portnum := .textMessageApp } }

/-- Both clients get a copy; the first takes its own while the second waits for the walk, and
the second closes. -/
def twoCopies : List (Act ℕ) :=
  [.registerPhoneClient 0, .registerPhoneClient 1, .setState 1 .sendPackets, .sendToPhone message,
    .allocCopy true, .enqueueCopy, .getClientPacket 0, .allocCopy true, .close 1, .enqueueCopy,
    .finishSend, .closeUnregister 1, .closeDrain 1]

end MeshService

end Meshtastic
