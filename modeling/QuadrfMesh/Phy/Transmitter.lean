/-
# The streaming transmitter (`src/lora/transmitter.cpp`)

A queue of modulated frames and the burst on the air.  The sample type is a
parameter with a zero (silence), and so is `Modulator::frame`.
-/
import QuadrfMesh.Lora.Coding

/-- `class Transmitter`, without its mutex. -/
structure Transmitter (Sample : Type) where
  params : LoraParams
  amplitude : Sample
  sps : ℕ
  warmupSyms : ℕ := 0
  gapSyms : ℕ := 12
  queue : List (List Sample) := []
  burst : List Sample := []
  burstPos : ℕ := 0
  framesStarted : ℕ := 0
  samplesEmitted : ℕ := 0
  deriving DecidableEq

namespace Transmitter

variable {Sample : Type}

/-- The constructor; `amplitude` is the warmup carrier sample. -/
def new (params : LoraParams) (amplitude : Sample) : Transmitter Sample where
  params := params
  amplitude := amplitude
  sps := samplesPerSymbol params

/-- `enqueue`: encode, modulate and queue; `none` for a payload over 255 bytes. -/
def enqueue (frame : LoraParams → List UInt16 → List Sample) (tx : Transmitter Sample)
    (payload : List UInt8) : Option (Transmitter Sample) :=
  if payload.length > 255 then none
  else some { tx with queue := tx.queue ++ [frame tx.params (encodeFrame tx.params payload)] }

/-- `isIdle`: nothing queued and no burst mid-air. -/
def isIdle (tx : Transmitter Sample) : Bool :=
  tx.queue.isEmpty && decide (tx.burst.length ≤ tx.burstPos)

/-- `clearQueue`: drop pending frames. -/
def clearQueue (tx : Transmitter Sample) : Transmitter Sample := { tx with queue := [] }

/-- `startNextBurstLocked`: put the head of the queue on the air, between warmup
carrier and gap silence. -/
def startNextBurstLocked [Zero Sample] (tx : Transmitter Sample) : Transmitter Sample :=
  match tx.queue with
  | [] => tx
  | frame :: rest =>
      if tx.burstPos < tx.burst.length then tx
      else
        { tx with
          queue := rest
          burst := List.replicate (tx.warmupSyms * tx.sps) tx.amplitude ++ frame
            ++ List.replicate (tx.gapSyms * tx.sps) 0
          burstPos := 0
          framesStarted := tx.framesStarted + 1 }

/-- `fillFromBurst`: up to `room` samples of the burst. -/
def fillFromBurst (tx : Transmitter Sample) (room : ℕ) : List Sample × Transmitter Sample :=
  let take := min room (tx.burst.length - tx.burstPos)
  let out := (tx.burst.drop tx.burstPos).take take
  if take = 0 then ([], tx)
  else if tx.burst.length ≤ tx.burstPos + take then (out, { tx with burst := [], burstPos := 0 })
  else (out, { tx with burstPos := tx.burstPos + take })

/-- What one call of `pull` did: the samples, how many of them came from bursts, and
the transmitter after it. -/
structure Pulled (Sample : Type) where
  out : List Sample
  fromBurst : ℕ
  tx : Transmitter Sample

/-- The loop of `pull`, with `room` samples left to write; every pass but the last
writes a sample, so `room` passes are enough. -/
def pullLoop [Zero Sample] : ℕ → ℕ → Transmitter Sample → Pulled Sample
  | 0, _, tx => ⟨[], 0, tx⟩
  | fuel + 1, room, tx =>
      if room = 0 then ⟨[], 0, tx⟩
      else
        let tx := if tx.burst.length ≤ tx.burstPos then startNextBurstLocked tx else tx
        if tx.burstPos < tx.burst.length then
          let (out, tx) := fillFromBurst tx room
          let rest := pullLoop fuel (room - out.length) tx
          ⟨out ++ rest.out, out.length + rest.fromBurst, rest.tx⟩
        else ⟨List.replicate room 0, 0, tx⟩

/-- `pull`: the next `n` samples, silence when idle. -/
def pull [Zero Sample] (tx : Transmitter Sample) (n : ℕ) : Pulled Sample :=
  let r := pullLoop n n tx
  { r with tx := { r.tx with samplesEmitted := r.tx.samplesEmitted + n } }

/-! ## Facts -/

theorem isIdle_iff (tx : Transmitter Sample) :
    tx.isIdle = true ↔ tx.queue = [] ∧ tx.burst.length ≤ tx.burstPos := by
  simp [isIdle]

/-- Starting a burst on an empty queue changes nothing. -/
theorem startNextBurstLocked_of_nil [Zero Sample] (tx : Transmitter Sample) (h : tx.queue = []) :
    startNextBurstLocked tx = tx := by
  unfold startNextBurstLocked
  rw [h]

/-- What an accepted payload does. -/
theorem enqueue_eq_some {frame : LoraParams → List UInt16 → List Sample} {tx tx' : Transmitter Sample}
    {payload : List UInt8} (h : enqueue frame tx payload = some tx') :
    payload.length ≤ 255 ∧
      tx' = { tx with queue := tx.queue ++ [frame tx.params (encodeFrame tx.params payload)] } := by
  unfold enqueue at h
  split at h
  · exact absurd h (by simp)
  · exact ⟨by omega, (Option.some.inj h).symm⟩

/-- The burst of a modulated frame, as `startNextBurstLocked` lays it out. -/
def burstOf [Zero Sample] (tx : Transmitter Sample) (frame : List Sample) : List Sample :=
  List.replicate (tx.warmupSyms * tx.sps) tx.amplitude ++ frame
    ++ List.replicate (tx.gapSyms * tx.sps) 0

/-- Starting a burst when none is mid-air takes the head of the queue. -/
theorem startNextBurstLocked_of_cons [Zero Sample] (tx : Transmitter Sample) (frame : List Sample)
    (rest : List (List Sample)) (hq : tx.queue = frame :: rest)
    (hdone : ¬ tx.burstPos < tx.burst.length) :
    startNextBurstLocked tx
      = { tx with queue := rest, burst := burstOf tx frame, burstPos := 0
                  framesStarted := tx.framesStarted + 1 } := by
  unfold startNextBurstLocked
  rw [hq]
  simp only [if_neg hdone]
  rfl

/-- `fillFromBurst` moves through the burst, or drops one it has finished. -/
theorem fillFromBurst_eq (tx : Transmitter Sample) (room : ℕ) :
    ∃ pos, (fillFromBurst tx room).2 = { tx with burstPos := pos } ∨
      (fillFromBurst tx room).2 = { tx with burst := [], burstPos := pos } := by
  unfold fillFromBurst
  simp only
  split
  · exact ⟨tx.burstPos, Or.inl rfl⟩
  · split
    · exact ⟨0, Or.inr rfl⟩
    · exact ⟨_, Or.inl rfl⟩

/-- `fillFromBurst` writes as much as fits of what is left of the burst. -/
theorem length_fillFromBurst (tx : Transmitter Sample) (room : ℕ) :
    (fillFromBurst tx room).1.length = min room (tx.burst.length - tx.burstPos) := by
  unfold fillFromBurst
  simp only
  split
  · rename_i h
    rw [h]
    rfl
  · split <;> simp only [List.length_take, List.length_drop] <;> omega

/-- An idle transmitter emits silence, none of it from a burst, and stays as it was. -/
theorem pullLoop_of_isIdle [Zero Sample] (fuel room : ℕ) (tx : Transmitter Sample)
    (hidle : tx.isIdle = true) :
    (pullLoop fuel room tx).fromBurst = 0 ∧ (pullLoop fuel room tx).tx = tx := by
  obtain ⟨hq, hb⟩ := (isIdle_iff tx).mp hidle
  cases fuel with
  | zero => exact ⟨rfl, rfl⟩
  | succ fuel =>
      unfold pullLoop
      rw [if_pos hb, startNextBurstLocked_of_nil tx hq]
      by_cases hroom : room = 0
      · rw [if_pos hroom]
        exact ⟨rfl, rfl⟩
      · rw [if_neg hroom, if_neg (by omega)]
        exact ⟨rfl, rfl⟩

/-- A pulled chunk with burst samples in it was pulled from a transmitter that was
not idle. -/
theorem not_isIdle_of_fromBurst [Zero Sample] (tx : Transmitter Sample) (n : ℕ)
    (h : 0 < (pull tx n).fromBurst) : tx.isIdle = false := by
  by_contra hidle
  rw [Bool.not_eq_false] at hidle
  have hzero := (pullLoop_of_isIdle n n tx hidle).1
  have hpull : (pull tx n).fromBurst = (pullLoop n n tx).fromBurst := rfl
  omega

end Transmitter
