/-
# The end of a transmission (`integrations/meshtastic/backend/QuadRFRadio.cpp`)

`tx_end_time_ms_` is an absolute time of the 32-bit millisecond clock, and `checkTxComplete`
and `startTransmitTimer` compare it with `millis()`.  A packet keeps its end while it is in
flight, and the two comparisons are right exactly when the clock does not wrap between the
end of the packet and the check (`tx_complete_iff`).
-/
import QuadrfMesh.Lib.WrapClock
import QuadrfMesh.Radio.Notify

open Transition WrapClock

section Model

variable {Packet : Type}

/-- `millis()`, `t` milliseconds after the boot. -/
def millis (t : ℕ) : UInt32 := UInt32.ofNat t

/-- `sendingPacket && tx_end_time_ms_ > millis()`. -/
def stillSending (s : RadioState Packet) (now : UInt32) : Bool :=
  s.sendingPacket.isSome && decide (now < s.txEndTimeMs)

theorem toNat_millis (t : ℕ) : (millis t).toNat = t % 2 ^ 32 := UInt32.toNat_ofNat'

/-- `millis() + xmitMsec` is the clock `xmitMsec` later. -/
theorem millis_add (t : ℕ) (x : UInt32) : millis t + x = millis (t + x.toNat) := by
  apply UInt32.toNat.inj
  rw [UInt32.toNat_add, toNat_millis, toNat_millis, Nat.mod_add_mod]

/-- The difference of two times of the clock is the time between them. -/
theorem toNat_millis_sub {a b : ℕ} (hab : a ≤ b) (hba : b < a + 2 ^ 32) :
    (millis b - millis a).toNat = b - a := by
  rw [UInt32.toNat_sub, toNat_millis, toNat_millis, reading_sub_reading hab hba]

/-! ## A packet in flight keeps its end -/

section Flight

variable {mesh : MeshParts Packet} {s t : RadioState Packet}

/-- `checkTxComplete` takes the packet or leaves it. -/
theorem checkTxComplete_inFlight {now : UInt32}
    (h : (checkTxComplete s now).sendingPacket.isSome) : checkTxComplete s now = s := by
  unfold checkTxComplete at h ⊢
  split_ifs at h ⊢ with hdone
  · exact absurd h (by simp [completeSending])
  · rfl

/-- A handler step in which the packet stays in flight. -/
theorem onNotify_inFlight {now : UInt32} (hinv : RadioInv s) (hs : s.sendingPacket.isSome)
    (hstep : onNotify mesh s now = some t) (ht : t.sendingPacket.isSome) :
    t.sendingPacket = s.sendingPacket ∧ t.txEndTimeMs = s.txEndTimeMs := by
  unfold onNotify at hstep
  rcases hpc : s.pc with - | n | n | n | n | - | - | - | - | txp | - | - | v <;> rw [hpc] at hstep
  case idle => exact absurd hstep (by simp)
  case switch =>
    cases n with
    | isrTx =>
        obtain rfl := Option.some.inj hstep
        exact absurd ht (by simp [completeSending])
    | isrRx =>
        obtain rfl := Option.some.inj hstep
        rw [checkTxComplete_inFlight ht]
        exact ⟨rfl, rfl⟩
    | transmitDelayCompleted =>
        obtain rfl := Option.some.inj hstep
        rw [checkTxComplete_inFlight ht]
        exact ⟨rfl, rfl⟩
  case receive =>
    obtain rfl := Option.some.inj hstep
    rw [checkTxComplete_inFlight ht]
    exact ⟨rfl, rfl⟩
  case canSend =>
    obtain rfl := Option.some.inj hstep
    simp only at ht ⊢
    rw [checkTxComplete_inFlight ht]
    exact ⟨rfl, rfl⟩
  case drain =>
    simp only at hstep
    split at hstep <;> obtain rfl := Option.some.inj hstep <;> exact ⟨rfl, rfl⟩
  case dequeue =>
    simp only at hstep
    split at hstep
    · exact absurd hstep (by simp)
    · obtain rfl := Option.some.inj hstep
      exact ⟨rfl, rfl⟩
  case startSend =>
    -- a packet starts only with none in flight
    rw [hinv.cleared (by rw [hpc]; trivial)] at hs
    exact absurd hs (by simp)
  all_goals
    obtain rfl := Option.some.inj hstep
    exact ⟨rfl, rfl⟩

/-- A step of any thread in which the packet stays in flight. -/
theorem radioStep_inFlight {a : RadioAction Packet} (hinv : RadioInv s)
    (hs : s.sendingPacket.isSome) (hstep : radioStep mesh s a = some t)
    (ht : t.sendingPacket.isSome) :
    t.sendingPacket = s.sendingPacket ∧ t.txEndTimeMs = s.txEndTimeMs := by
  cases a with
  | handler now => exact onNotify_inFlight hinv hs hstep ht
  | cancelSending source id =>
      obtain rfl := Option.some.inj hstep
      exact ⟨rfl, rfl⟩
  | _ =>
      -- no other thread touches the packet in flight
      simp only [radioStep] at hstep
      split at hstep <;> first
        | (obtain rfl := Option.some.inj hstep; exact ⟨rfl, rfl⟩)
        | exact absurd hstep (by simp)

/-- The steps taken with a packet in flight. -/
def InFlight (mesh : MeshParts Packet) (s : RadioState Packet) (a : RadioAction Packet)
    (t : RadioState Packet) : Prop :=
  Restrict (Steps (radioStep mesh)) (fun s _ => s.sendingPacket.isSome) s a t

/-- **The run lemma**: as long as the packet is in flight, it is the same packet and it ends
at the same time. -/
theorem Reach.inFlight {u : RadioState Packet} (hinv : RadioInv t)
    (hu : Reach (· = t) (InFlight mesh) u) (hflight : u.sendingPacket.isSome) :
    u.sendingPacket = t.sendingPacket ∧ u.txEndTimeMs = t.txEndTimeMs := by
  have hkept := hu.invariant
    (fun u => RadioInv u ∧ (u.sendingPacket.isSome →
      u.sendingPacket = t.sendingPacket ∧ u.txEndTimeMs = t.txEndTimeMs)) ?_ ?_
  · exact hkept.2 hflight
  · rintro _ rfl
    exact ⟨hinv, fun _ => ⟨rfl, rfl⟩⟩
  · rintro v a w ⟨hv, hkeep⟩ ⟨hstep, hsome⟩
    refine ⟨hv.step hstep, ?_⟩
    intro hw
    obtain ⟨hpacket, hend⟩ := radioStep_inFlight hv hsome hstep hw
    rw [hpacket, hend]
    exact hkeep hsome

end Flight

/-! ## The check against the clock -/

section Check

variable {mesh : MeshParts Packet} {u : RadioState Packet} {T d x : ℕ}

/-- `checkTxComplete` completes a packet whose end the clock shows as reached. -/
theorem checkTxComplete_eq_none_iff {now : UInt32} (hu : u.sendingPacket.isSome) :
    (checkTxComplete u now).sendingPacket = none ↔ u.txEndTimeMs ≤ now := by
  unfold checkTxComplete
  split_ifs with hdone
  · exact ⟨fun _ => hdone.2, fun _ => rfl⟩
  · constructor
    · intro hnone
      rw [hnone] at hu
      exact absurd hu (by simp)
    · intro hle
      exact absurd ⟨hu, hle⟩ hdone

/-- `startTransmitTimer` sees the packet as sending where `checkTxComplete` does not complete
it. -/
theorem stillSending_iff {now : UInt32} (hu : u.sendingPacket.isSome) :
    stillSending u now = true ↔ ¬ u.txEndTimeMs ≤ now := by
  rw [stillSending, hu, Bool.true_and, decide_eq_true_iff, UInt32.not_le]

/-- A comparison of two times of the clock, both less than 2^31 ms after the start. -/
theorem millis_le_millis_iff (hx : x < 2 ^ 31) (hd : d < 2 ^ 31) :
    (millis (T + x) ≤ millis (T + d) ↔ x ≤ d) ↔ (T + x) / 2 ^ 32 = (T + d) / 2 ^ 32 := by
  rw [UInt32.le_iff_toNat_le, toNat_millis, toNat_millis,
    ← reading_order_iff (n := 2 ^ 32) (a := T + x) (b := T + d) (by omega) (by omega),
    Nat.add_le_add_iff_left]

/-- **A packet is completed at its end exactly when the clock does not wrap there.**  In
every run from the start of a packet in which it stays in flight: at a check `d` ms after the
start `checkTxComplete` completes it iff its air time is over and `startTransmitTimer` sees it
as sending iff it is not, if and only if the clock wraps no more often up to the check than up
to the end of the packet. -/
theorem tx_complete_iff {s t : RadioState Packet} {txp : Packet}
    (hs : Reach RadioInit (Steps (radioStep mesh)) s) (hpc : s.pc = .startSend txp)
    (hstart : radioStep mesh s (.handler (millis T)) = some t)
    (hrun : Reach (· = t) (InFlight mesh) u) (hu : u.sendingPacket.isSome)
    (hxmit : (mesh.packetTime txp).toNat < 2 ^ 31) (hd : d < 2 ^ 31) :
    (((checkTxComplete u (millis (T + d))).sendingPacket = none ↔
        (mesh.packetTime txp).toNat ≤ d) ∧
      (stillSending u (millis (T + d)) = true ↔ d < (mesh.packetTime txp).toNat)) ↔
    (T + (mesh.packetTime txp).toNat) / 2 ^ 32 = (T + d) / 2 ^ 32 := by
  have hinv : RadioInv s := hs.invariant RadioInv (fun _ => RadioInv.of_init)
    (fun _ _ _ hinv hst => hinv.step hst)
  have hend : u.txEndTimeMs = millis (T + (mesh.packetTime txp).toNat) := by
    rw [(Reach.inFlight (hinv.step hstart) hrun hu).2, ← millis_add]
    simp only [radioStep, onNotify, hpc] at hstart
    obtain rfl := Option.some.inj hstart
    rfl
  rw [checkTxComplete_eq_none_iff hu, stillSending_iff hu, hend, ← Nat.not_le, not_iff_not,
    and_self, millis_le_millis_iff hxmit hd]

end Check

end Model

/-! ## Transmissions next to the wrap -/

/-- The run from the boot up to the start of a packet, at the time `T`. -/
def startRun (T : ℕ) : List (RadioAction (ℕ × ℕ)) :=
  [.sendEnqueue (7, 1), .sendTimer, .sendNotify, .dispatch] ++
    List.replicate 8 (.handler (millis T))

/-- Away from the wrap: started at 1000 ms, on the air for 20 ms, checked at 1019 ms. -/
theorem tx_complete_iff_1019 :
    ∃ t : RadioState (ℕ × ℕ), exec (radioStep plainMesh) {}
        (startRun 1000 ++ [.handler (millis 1000)]) = some t ∧
      (checkTxComplete t (millis (1000 + 19))).sendingPacket ≠ none := by
  have hrun : (exec (radioStep plainMesh) {} (startRun 1000)).any
      (fun s => decide (s.pc = .startSend (7, 1))) = true := by decide +kernel
  obtain ⟨s, hs, hpc⟩ := (Option.any_eq_true _ _).mp hrun
  have hpc := of_decide_eq_true hpc
  obtain ⟨t, hstart⟩ : ∃ t, radioStep plainMesh s (.handler (millis 1000)) = some t := by
    simp only [radioStep, onNotify, hpc]
    exact ⟨_, rfl⟩
  have hu : t.sendingPacket.isSome := by
    simp only [radioStep, onNotify, hpc] at hstart
    obtain rfl := Option.some.inj hstart
    rfl
  refine ⟨t, ?_, ?_⟩
  · rw [exec_append, hs]
    simp only [Option.bind_some, exec, hstart]
  · have h := (tx_complete_iff (d := 19) (Reach.exec (Reach.start rfl) hs) hpc hstart
      (Reach.start rfl) hu (by decide) (by norm_num)).mpr (by decide)
    intro hnone
    exact absurd (h.1.mp hnone) (by decide)

/-- A packet of 20 ms.  Started 6 ms before the clock wraps, it is completed in the same
millisecond; started 26 ms before, it is still in flight 10 ms after its end. -/
theorem tx_complete_wrapped :
    (exec (radioStep plainMesh) {} (startRun 4294967290 ++ [.handler (millis 4294967290)])).any
      (fun t => t.sendingPacket = some (7, 1) ∧
        (checkTxComplete t (millis (4294967290 + 0))).sendingPacket = none ∧
        stillSending t (millis (4294967290 + 0)) = false) = true ∧
    (exec (radioStep plainMesh) {} (startRun 4294967270 ++ [.handler (millis 4294967270)])).any
      (fun t => (checkTxComplete t (millis (4294967270 + 30))).sendingPacket = some (7, 1) ∧
        stillSending t (millis (4294967270 + 30)) = true) = true := by
  constructor <;> decide +kernel
