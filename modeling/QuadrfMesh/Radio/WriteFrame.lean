/-
# Writing frames to the PHY (`QuadRFRadio::writeFrame`)

The node writes each frame to a stream socket, in as many writes as it takes.  A
write that fails midway leaves the first bytes of a frame in the stream and keeps the
socket, so the next frame follows them.  The PHY's deframer takes up to three such
bytes for a false start; from the fourth on it reads the next frame as the rest of the
torn one.  As long as nothing is written after such a tear (`NothingAfterTear`), the
frames the PHY reads are frames the node wrote, in order (`frames_sublist`).
-/
import QuadrfMesh.AirIpc.Deframer

/-! ## The writer -/

/-- One turn of `writeFrame`'s loop, as the socket answers it. -/
inductive SockEvent
  /-- `write` took up to `n` bytes. -/
  | wrote (n : ℕ)
  /-- `write` failed with `EINTR`. -/
  | eintr
  /-- `EAGAIN`, and the socket became writable within 200 ms. -/
  | eagainReady
  /-- `EAGAIN`, and the poll timed out or failed. -/
  | eagainTimeout
  /-- Any other error. -/
  | error
  deriving DecidableEq, Repr

/-- Bytes written, and what `writeFrame` returned; `none` while it has not. -/
structure WriteResult where
  off : ℕ
  ok : Option Bool
  deriving DecidableEq, Repr

/-- The loop of `writeFrame` from offset `off`. -/
def writeLoop (frame : List UInt8) (off : ℕ) : List SockEvent → WriteResult
  | [] => ⟨off, if off < frame.length then none else some true⟩
  | e :: es =>
      if off < frame.length then
        match e with
        | .wrote n => writeLoop frame (off + min n (frame.length - off)) es
        | .eintr => writeLoop frame off es
        | .eagainReady => writeLoop frame off es
        | .eagainTimeout => ⟨off, some false⟩
        | .error => ⟨off, some false⟩
      else ⟨off, some true⟩

/-- `writeFrame`; `connected` is `sock_fd_ >= 0`. -/
def writeFrame (connected : Bool) (frame : List UInt8) (events : List SockEvent) : WriteResult :=
  if !connected || frame.isEmpty then ⟨0, some false⟩ else writeLoop frame 0 events

/-- No more is written than the frame holds. -/
theorem writeLoop_off_le (frame : List UInt8) (off : ℕ) (events : List SockEvent)
    (hoff : off ≤ frame.length) : (writeLoop frame off events).off ≤ frame.length := by
  induction events generalizing off with
  | nil => exact hoff
  | cons e es ih =>
      unfold writeLoop
      split
      · cases e with
        | wrote n => exact ih _ (by omega)
        | eintr => exact ih _ hoff
        | eagainReady => exact ih _ hoff
        | eagainTimeout => exact hoff
        | error => exact hoff
      · exact hoff

/-! ## One connection -/

/-- One call of `writeFrame` on the connection. -/
structure WriteCall where
  frame : IpcFrame
  events : List SockEvent

namespace WriteCall

/-- What the call did. -/
def result (c : WriteCall) : WriteResult := writeFrame true c.frame.bytes c.events

/-- The bytes it put into the stream. -/
def written (c : WriteCall) : List UInt8 := c.frame.bytes.take c.result.off

/-- The frame as the PHY reads it. -/
def raw (c : WriteCall) : RawFrame := { type := c.frame.type, body := c.frame.body }

theorem result_eq (c : WriteCall) : c.result = writeLoop c.frame.bytes 0 c.events := by
  have hne : c.frame.bytes.isEmpty = false := rfl
  unfold result writeFrame
  rw [hne]
  rfl

theorem off_le (c : WriteCall) : c.result.off ≤ c.frame.bytes.length := by
  rw [result_eq]
  exact writeLoop_off_le _ _ _ (Nat.zero_le _)

/-- A call that stopped with four bytes or more of its frame written, but not all. -/
def Torn (c : WriteCall) : Prop := 4 ≤ c.result.off ∧ c.result.off < c.frame.bytes.length

instance (c : WriteCall) : Decidable c.Torn := inferInstanceAs (Decidable (_ ∧ _))

end WriteCall

/-- The byte stream of a connection. -/
def wireStream (calls : List WriteCall) : List UInt8 := calls.flatMap WriteCall.written

/-- After a torn frame no byte is written on the connection. -/
def NothingAfterTear : List WriteCall → Prop
  | [] => True
  | c :: cs => (c.Torn → ∀ c' ∈ cs, c'.result.off = 0) ∧ NothingAfterTear cs

/-- The stream of calls that write nothing is empty. -/
theorem wireStream_eq_nil {calls : List WriteCall} (h : ∀ c ∈ calls, c.result.off = 0) :
    wireStream calls = [] := by
  unfold wireStream
  rw [List.flatMap_eq_nil_iff]
  intro c hc
  rw [WriteCall.written, h c hc, List.take_zero]

/-- **The whole stream.**  From a parser that seeks, the frames read are frames written,
in order. -/
theorem feed_wireStream_sublist {d : Deframer} (hd : d.Seeking) (calls : List WriteCall)
    (hok : NothingAfterTear calls) :
    List.Sublist (d.feed (wireStream calls)).2 (calls.map WriteCall.raw) := by
  induction calls generalizing d with
  | nil => exact List.Sublist.refl _
  | cons c cs ih =>
      obtain ⟨htear, hrest⟩ := hok
      have hsplit : wireStream (c :: cs) = c.written ++ wireStream cs := rfl
      have hoff := c.off_le
      rw [hsplit, Deframer.feed_append, List.map_cons]
      rcases Nat.eq_or_lt_of_le hoff with hfull | hpart
      · -- the whole frame was written
        have hwritten : c.written = c.frame.bytes := by
          rw [WriteCall.written, hfull, List.take_length]
        obtain ⟨hout, hseek⟩ := Deframer.feed_bytes hd c.frame
        rw [hwritten, hout]
        exact (ih hseek hrest).cons_cons _
      · have hnil : (d.feed c.written).2 = [] := Deframer.feed_take_nil hd c.frame _ hpart
        rw [hnil, List.nil_append]
        by_cases htorn : c.Torn
        -- after a tear nothing follows; a false start is resynced by the next frame
        · rw [wireStream_eq_nil (htear htorn)]
          exact List.nil_sublist _
        · have h3 : c.result.off ≤ 3 := by
            by_contra h
            exact htorn ⟨by omega, hpart⟩
          exact (ih (Deframer.feed_take_seeking hd c.frame _ h3) hrest).cons _

/-- **No mixed frames.**  When nothing is written after a torn frame, then whatever part of
the stream the PHY has read so far, and however its reads cut it, the frames its
deframer emitted are a subsequence of the frames passed to `writeFrame`. -/
theorem frames_sublist (calls : List WriteCall) (hok : NothingAfterTear calls)
    (reads : List (List UInt8)) (hreads : reads.flatten <+: wireStream calls) :
    List.Sublist (Deframer.feedAll {} reads).2 (calls.map WriteCall.raw) := by
  have hseek : Deframer.Seeking {} := Or.inl rfl
  obtain ⟨rest, hrest⟩ := hreads
  have hall := feed_wireStream_sublist hseek calls hok
  rw [← hrest, Deframer.feed_append] at hall
  rw [Deframer.feedAll_eq]
  exact (List.sublist_append_left _ _).trans hall

/-! ## A torn frame and the next one -/

/-- A `TxEnqueue` frame with sixteen bytes of air frame, all `b`. -/
def airFrame (b : UInt8) : IpcFrame where
  type := .txEnqueue
  body := List.replicate 8 0 ++ List.replicate 16 b
  body_pos := by simp
  body_le := by simp [kMaxBodyLen, kRxMetaLen, kMaxAirLen]

/-- A write that times out after three bytes, then a whole frame. -/
def falseStart : List WriteCall :=
  [⟨airFrame 1, [.wrote 3, .eagainTimeout]⟩, ⟨airFrame 2, [.wrote 10, .eintr, .wrote 30]⟩]

/-- After a false start the second frame is read as sent. -/
theorem frames_sublist_falseStart :
    List.Sublist (Deframer.feedAll {} [wireStream falseStart]).2 (falseStart.map WriteCall.raw) :=
  frames_sublist falseStart
    ⟨fun h => absurd h.1 (by decide), fun h => absurd h.2 (by decide), trivial⟩
    [wireStream falseStart] (by simp)

/-- A write that times out after ten bytes, then a whole frame. -/
def tornFrame : List WriteCall :=
  [⟨airFrame 1, [.wrote 10, .eagainTimeout]⟩, ⟨airFrame 2, [.wrote 30]⟩]

/-- **A mixed frame.**  After a torn frame the PHY reads a body that is none of those
written. -/
theorem frames_mixed :
    ¬ ∀ calls reads, reads.flatten <+: wireStream calls →
        List.Sublist (Deframer.feedAll {} reads).2 (calls.map WriteCall.raw) := by
  intro hall
  have hsub := hall tornFrame [wireStream tornFrame] (by simp)
  have hmixed : (Deframer.feedAll {} [wireStream tornFrame]).2.any (fun f =>
      decide (f ∉ tornFrame.map WriteCall.raw)) = true := by decide +kernel
  obtain ⟨f, hf, hnot⟩ := List.any_eq_true.mp hmixed
  exact of_decide_eq_true hnot (hsub.subset hf)
