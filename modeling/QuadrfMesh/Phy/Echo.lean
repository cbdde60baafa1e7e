/-
# Self-echo suppression (`apps/quadrf_lora_phy.cpp`)

The PHY hears its own bursts.  `enqueueAir` remembers each accepted frame among the
last `kMaxRecentTx`, and `drainRx` drops a decoded frame equal to a remembered one.
Frames are remembered when they are accepted, and go on the air later, out of an
unbounded queue: the echo of a burst is recognised exactly when fewer than
`kMaxRecentTx` frames were accepted after its own (`echo_dropped_iff`).
-/
import QuadrfMesh.Lib.Recent
import QuadrfMesh.Lib.Transition
import QuadrfMesh.Phy.Transmitter

open Recent Transition

/-- `kMaxRecentTx`. -/
def kMaxRecentTx : ℕ := 8

/-- `rememberTx`. -/
def rememberTx (recentTx : List (List UInt8)) (air : List UInt8) : List (List UInt8) :=
  last kMaxRecentTx (recentTx ++ [air])

/-- `isRecentTxEcho`. -/
def isRecentTxEcho (recentTx : List (List UInt8)) (air : List UInt8) : Bool :=
  recentTx.contains air

/-- The transmitter, the memory of recent frames and the frames sent to the node as
`RxIndicate`; the last three fields record the history. -/
structure EchoState (Sample : Type) where
  tx : Transmitter Sample
  recentTx : List (List UInt8) := []
  rxIndicates : List (List UInt8) := []
  /-- Every accepted frame, in order. -/
  accepted : List (List UInt8) := []
  /-- The frames in the transmitter's queue. -/
  pending : List (List UInt8) := []
  /-- The frame whose burst is on the air, or was last. -/
  onAir : Option (List UInt8) := none

/-- The steps of the PHY that touch the queue, the air or the node. -/
inductive EchoAction
  /-- A `TxEnqueue` message. -/
  | enqueueAir (air : List UInt8)
  /-- `startNextBurstLocked`. -/
  | startBurst
  /-- `fillFromBurst` with room for `n` samples. -/
  | fill (n : ℕ)
  /-- A `SetModem` that switches: the transmitter is a new one. -/
  | switchModem (next : LoraParams) (warmupSyms gapSyms : ℕ)
  /-- A `SetModem` that fails after `clearQueue`. -/
  | clearQueue
  /-- A frame popped from the receiver. -/
  | drainRx (synced : Bool) (decode : DecodeResult)
  deriving DecidableEq

section Model

variable {Sample : Type}

/-- `drainRx` on one frame: only a synced frame with a valid header and a good CRC
counts, and outside a selftest an echo is dropped. -/
def drainRx (selftest : Bool) (s : EchoState Sample) (synced : Bool) (decode : DecodeResult) :
    EchoState Sample :=
  if !synced || !decode.header.valid || !decode.crcOk then s
  else if !selftest && isRecentTxEcho s.recentTx decode.payload then s
  else { s with rxIndicates := s.rxIndicates ++ [decode.payload] }

variable [Zero Sample] (frame : LoraParams → List UInt16 → List Sample) (selftest : Bool)

/-- One step of the PHY. -/
def echoStep (s : EchoState Sample) : EchoAction → Option (EchoState Sample)
  | .enqueueAir air =>
      match s.tx.enqueue frame air with
      | none => some s
      | some tx =>
          some { s with
            tx, recentTx := rememberTx s.recentTx air
            accepted := s.accepted ++ [air], pending := s.pending ++ [air] }
  | .startBurst =>
      match s.pending with
      | [] => none
      | air :: rest =>
          if s.tx.burstPos < s.tx.burst.length then none
          else some { s with tx := s.tx.startNextBurstLocked, pending := rest, onAir := some air }
  | .fill n => some { s with tx := (s.tx.fillFromBurst n).2 }
  | .switchModem next warmupSyms gapSyms =>
      some { s with
        tx := { Transmitter.new next s.tx.amplitude with warmupSyms, gapSyms }, pending := [] }
  | .clearQueue => some { s with tx := s.tx.clearQueue, pending := [] }
  | .drainRx synced decode => some (drainRx selftest s synced decode)

/-- A started PHY: nothing queued, nothing on the air, nothing remembered. -/
def EchoInit (s : EchoState Sample) : Prop :=
  s.tx.queue = [] ∧ s.tx.burst = [] ∧ s.recentTx = [] ∧ s.accepted = [] ∧ s.pending = []
    ∧ s.onAir = none

/-- What every run keeps. -/
structure EchoInv (s : EchoState Sample) : Prop where
  /-- The history matches the transmitter. -/
  queue_eq : s.tx.queue = s.pending.map fun air => frame s.tx.params (encodeFrame s.tx.params air)
  burst_eq : s.tx.burst ≠ [] → ∃ air, s.onAir = some air ∧
    s.tx.burst = s.tx.burstOf (frame s.tx.params (encodeFrame s.tx.params air))
  /-- The memory is the last frames accepted. -/
  recent_eq : s.recentTx = last kMaxRecentTx s.accepted
  pending_accepted : ∀ air ∈ s.pending, air ∈ s.accepted
  onAir_accepted : ∀ air, s.onAir = some air → air ∈ s.accepted

theorem EchoInv.of_init {s : EchoState Sample} (h : EchoInit s) : EchoInv frame s := by
  obtain ⟨hq, hb, hr, ha, hp, ho⟩ := h
  refine ⟨?_, ?_, ?_, ?_, ?_⟩
  · rw [hq, hp]
    rfl
  · intro hne
    exact absurd hb hne
  · rw [hr, ha]
    rfl
  · intro air hair
    rw [hp] at hair
    exact absurd hair (by simp)
  · intro air hair
    rw [ho] at hair
    exact absurd hair (by simp)

omit [Zero Sample] in
/-- A step on the receive side leaves queue, air and memory alone. -/
theorem drainRx_frame (s : EchoState Sample) (synced : Bool) (decode : DecodeResult) :
    drainRx selftest s synced decode
      = { s with rxIndicates := (drainRx selftest s synced decode).rxIndicates } := by
  unfold drainRx
  split
  · rfl
  · split <;> rfl

/-- **The step lemma.** -/
theorem EchoInv.step {s t : EchoState Sample} {a : EchoAction} (hinv : EchoInv frame s)
    (hstep : echoStep frame selftest s a = some t) : EchoInv frame t := by
  obtain ⟨hqueue, hburst, hrecent, hpend, honair⟩ := hinv
  cases a with
  | enqueueAir air =>
      simp only [echoStep] at hstep
      split at hstep
      · obtain rfl := Option.some.inj hstep
        exact ⟨hqueue, hburst, hrecent, hpend, honair⟩
      · rename_i tx htx
        obtain ⟨-, rfl⟩ := Transmitter.enqueue_eq_some htx
        obtain rfl := Option.some.inj hstep
        -- the memory moves on with every accepted frame
        refine ⟨?_, hburst, ?_, ?_, ?_⟩
        · show s.tx.queue ++ _ = _
          rw [hqueue, List.map_append]
          rfl
        · show rememberTx s.recentTx air = last kMaxRecentTx (s.accepted ++ [air])
          rw [rememberTx, hrecent, last_last_append]
        · intro a ha
          rcases List.mem_append.mp ha with h | h
          · exact List.mem_append_left _ (hpend a h)
          · exact List.mem_append_right _ h
        · intro a ha
          exact List.mem_append_left _ (honair a ha)
  | startBurst =>
      simp only [echoStep] at hstep
      split at hstep
      · exact absurd hstep (by simp)
      · rename_i air rest hpending
        split at hstep
        · exact absurd hstep (by simp)
        · rename_i hdone
          obtain rfl := Option.some.inj hstep
          rw [hpending, List.map_cons] at hqueue
          have htx := Transmitter.startNextBurstLocked_of_cons s.tx _ _ hqueue hdone
          -- the oldest pending frame goes on the air; the memory stays
          refine ⟨?_, ?_, hrecent, ?_, ?_⟩
          · show s.tx.startNextBurstLocked.queue = _
            rw [htx]
          · intro _
            refine ⟨air, rfl, ?_⟩
            show s.tx.startNextBurstLocked.burst = s.tx.startNextBurstLocked.burstOf _
            rw [htx]
            rfl
          · intro a ha
            exact hpend a (by rw [hpending]; exact List.mem_cons_of_mem _ ha)
          · intro a ha
            obtain rfl := Option.some.inj ha
            exact hpend air (by rw [hpending]; exact List.mem_cons_self)
  | fill n =>
      simp only [echoStep] at hstep
      obtain rfl := Option.some.inj hstep
      obtain ⟨pos, h | h⟩ := Transmitter.fillFromBurst_eq s.tx n
      · rw [h]
        exact ⟨hqueue, hburst, hrecent, hpend, honair⟩
      · rw [h]
        exact ⟨hqueue, fun hne => absurd rfl hne, hrecent, hpend, honair⟩
  | switchModem next warmupSyms gapSyms =>
      simp only [echoStep] at hstep
      obtain rfl := Option.some.inj hstep
      refine ⟨rfl, fun hne => absurd rfl hne, hrecent, ?_, honair⟩
      intro a ha
      exact absurd ha (by simp)
  | clearQueue =>
      simp only [echoStep] at hstep
      obtain rfl := Option.some.inj hstep
      refine ⟨rfl, hburst, hrecent, ?_, honair⟩
      intro a ha
      exact absurd ha (by simp)
  | drainRx synced decode =>
      simp only [echoStep] at hstep
      obtain rfl := Option.some.inj hstep
      rw [drainRx_frame selftest s synced decode]
      exact ⟨hqueue, hburst, hrecent, hpend, honair⟩

theorem EchoInv.of_reach {s : EchoState Sample}
    (h : Reach EchoInit (Steps (echoStep frame selftest)) s) : EchoInv frame s :=
  h.invariant (EchoInv frame) (fun _ => EchoInv.of_init frame)
    (fun _ _ _ hinv hst => hinv.step frame selftest hst)

/-- **When an echo is dropped.**  In every reached state, the frame on the air (or last
on the air) is classified as an echo and never sent to the node exactly when fewer
than `kMaxRecentTx` frames were accepted after its bytes were last accepted, outside
a selftest. -/
theorem echo_dropped_iff {s : EchoState Sample}
    (h : Reach EchoInit (Steps (echoStep frame selftest)) s) {air : List UInt8}
    (hair : s.onAir = some air) :
    (isRecentTxEcho s.recentTx air = true ∧
        ∀ synced decode, decode.payload = air →
          (drainRx selftest s synced decode).rxIndicates = s.rxIndicates) ↔
      selftest = false ∧ since s.accepted air < kMaxRecentTx := by
  have hinv := EchoInv.of_reach frame selftest h
  have hmem := mem_last_iff kMaxRecentTx s.accepted air (hinv.onAir_accepted air hair)
  have hecho : isRecentTxEcho s.recentTx air = true ↔ since s.accepted air < kMaxRecentTx := by
    rw [isRecentTxEcho, List.contains_iff_mem, hinv.recent_eq, hmem]
  constructor
  · rintro ⟨hclass, hdrop⟩
    refine ⟨?_, hecho.mp hclass⟩
    -- in a selftest a good frame is always delivered
    by_contra hself
    rw [Bool.not_eq_false] at hself
    have hsent := hdrop true { header := { valid := true }, crcOk := true, payload := air } rfl
    rw [drainRx, hself] at hsent
    simp at hsent
  · rintro ⟨hself, hsince⟩
    have hclass := hecho.mpr hsince
    refine ⟨hclass, ?_⟩
    rintro synced decode rfl
    unfold drainRx
    rw [hself, hclass]
    simp

end Model

/-! ## Nine frames in the queue -/

/-- A PHY of one sample per chip and no gap. -/
def echoStart : EchoState ℕ where
  tx := { Transmitter.new { spreadingFactor := 7 } 9 with gapSyms := 0 }

/-- One sample per chip. -/
def echoFrame (_ : LoraParams) (chips : List UInt16) : List ℕ := chips.map fun c => c.toNat + 1

/-- Frames `[0]`, `[1]`, … are accepted, then the first of them goes on the air. -/
def acceptThenStart (n : ℕ) : List EchoAction :=
  ((List.range n).map fun k => .enqueueAir [UInt8.ofNat k]) ++ [.startBurst]

/-- With eight frames accepted the echo of the first is dropped. -/
theorem echo_dropped_iff_eight :
    ∃ s : EchoState ℕ, exec (echoStep echoFrame false) echoStart (acceptThenStart 8) = some s ∧
      ∀ synced decode, decode.payload = [0] →
        (drainRx false s synced decode).rxIndicates = s.rxIndicates := by
  have hrun : (exec (echoStep echoFrame false) echoStart (acceptThenStart 8)).any (fun s =>
      decide (s.onAir = some [0] ∧ since s.accepted [0] < kMaxRecentTx)) = true := by
    decide +kernel
  obtain ⟨s, hs, hp⟩ := (Option.any_eq_true _ _).mp hrun
  obtain ⟨hair, hsince⟩ := of_decide_eq_true hp
  have hreach : Reach EchoInit (Steps (echoStep echoFrame false)) s :=
    Reach.exec (Reach.start (s := echoStart) ⟨rfl, rfl, rfl, rfl, rfl, rfl⟩) hs
  exact ⟨s, hs, ((echo_dropped_iff echoFrame false hreach hair).mpr ⟨rfl, hsince⟩).2⟩

/-- **A forwarded echo.**  With nine frames accepted before the first goes on the air,
its echo is not recognised and reaches the node. -/
theorem echo_forwarded :
    ¬ ∀ s : EchoState ℕ, Reach EchoInit (Steps (echoStep echoFrame false)) s →
        ∀ air, s.onAir = some air →
          isRecentTxEcho s.recentTx air = true ∧
            ∀ synced decode, decode.payload = air →
              (drainRx false s synced decode).rxIndicates = s.rxIndicates := by
  intro hall
  have hrun : (exec (echoStep echoFrame false) echoStart (acceptThenStart 9)).any (fun s =>
      decide (s.onAir = some [0] ∧ isRecentTxEcho s.recentTx [0] = false)) = true := by
    decide +kernel
  obtain ⟨s, hs, hp⟩ := (Option.any_eq_true _ _).mp hrun
  obtain ⟨hair, hmiss⟩ := of_decide_eq_true hp
  have hreach : Reach EchoInit (Steps (echoStep echoFrame false)) s :=
    Reach.exec (Reach.start (s := echoStart) ⟨rfl, rfl, rfl, rfl, rfl, rfl⟩) hs
  have hecho := (hall s hreach [0] hair).1
  rw [hmiss] at hecho
  exact absurd hecho (by decide)
