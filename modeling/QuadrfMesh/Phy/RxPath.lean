/-
# From the radio to the receiver (`apps/quadrf_lora_phy.cpp`)

`rx_thread` reads chunks of host-rate samples and pushes them into a `ChunkQueue`, which
drops its oldest chunk when it is full.  The main loop takes what the node sent, where a
`SetModem` it follows flushes the queue and puts in a new down-converter and receiver
(`applyModem`), and then pops chunks until the queue is empty.  The threads interleave
freely: a chunk may be in the RX thread's hands while the modem is switched.

Between two switches the receiver is fed what one call of the new down-converter makes of
the chunks popped since, joined and without the start of the session (`down_converted`).
Those chunks are, in order, what was read since the switch and the chunk that was in the RX
thread's hands then, less one chunk for every overflow.

The raw dump, which records what goes into the down-converter, is left out.
-/
import QuadrfMesh.Dsp.Ddc
import QuadrfMesh.Lib.Ledger
import QuadrfMesh.Lib.Transition
import QuadrfMesh.Receiver.Chunking

open Transition

/-- `ChunkQueue`. -/
structure ChunkQueue (S : Type) where
  q : List (List S) := []
  dropped : ℕ := 0
  deriving DecidableEq

namespace ChunkQueue

variable {S : Type}

def kMaxChunks : ℕ := 32

/-- `push`: a full queue loses its oldest chunk. -/
def push (queue : ChunkQueue S) (c : List S) : ChunkQueue S :=
  if kMaxChunks ≤ queue.q.length then
    { q := queue.q.tail ++ [c], dropped := queue.dropped + 1 }
  else { queue with q := queue.q ++ [c] }

/-- `pop`; `none` where it returns false. -/
def pop (queue : ChunkQueue S) : Option (List S × ChunkQueue S) :=
  match queue.q with
  | [] => none
  | c :: q => some (c, { queue with q })

/-- `flush`. -/
def flush (queue : ChunkQueue S) : ChunkQueue S := { queue with q := [] }

theorem length_push_le (queue : ChunkQueue S) (c : List S) (h : queue.q.length ≤ kMaxChunks) :
    (queue.push c).q.length ≤ kMaxChunks := by
  unfold push
  split
  · rw [List.length_append, List.length_tail, List.length_singleton]
    unfold kMaxChunks at h ⊢
    omega
  · rename_i hfull
    rw [List.length_append, List.length_singleton]
    omega

theorem pop_eq_some_iff {queue rest : ChunkQueue S} {c : List S} :
    queue.pop = some (c, rest) ↔ queue.q = c :: rest.q ∧ rest.dropped = queue.dropped := by
  obtain ⟨q, dropped⟩ := queue
  obtain ⟨q', dropped'⟩ := rest
  cases q with
  | nil => simp [pop]
  | cons c' q =>
      simp only [pop, Option.some.injEq, Prod.mk.injEq, ChunkQueue.mk.injEq, List.cons.injEq]
      constructor
      · rintro ⟨rfl, rfl, rfl⟩
        exact ⟨⟨rfl, rfl⟩, rfl⟩
      · rintro ⟨⟨rfl, rfl⟩, rfl⟩
        exact ⟨rfl, rfl, rfl⟩

end ChunkQueue

/-- Where the main loop stands. -/
inductive RxPc
  /-- Before the test of `g_running`. -/
  | top
  /-- With the messages of the node. -/
  | ipc
  /-- Before `queue.pop`. -/
  | drain
  /-- A chunk has been fed. -/
  | fed
  /-- Past the loop: the receiver has been flushed. -/
  | stopped
  deriving DecidableEq, Repr

/-- The RX thread and the main loop. -/
structure RxPath (S : Type) where
  ddc : Dsp.Ddc S
  queue : ChunkQueue S := {}
  /-- The chunk the RX thread has read and not yet pushed. -/
  hand : Option (List S) := none
  running : Bool := true
  pc : RxPc := .top
  streamPos : ℕ := 0
  reportedDrops : ℕ := 0
  /-- The numbers of lost chunks that were reported. -/
  reports : List ℕ := []
  /-- What this receiver has been fed. -/
  fed : List (List S) := []

/-- The steps of the two threads. -/
inductive RxAction (S : Type)
  /-- The RX thread: `streams.read` returns samples, or an error. -/
  | read (chunk : List S)
  | readError
  /-- The RX thread: `queue.push`. -/
  | push
  /-- Another thread or a signal clears `g_running`. -/
  | stop
  /-- The main loop: its test. -/
  | test
  /-- The main loop: a `SetModem` that it follows. -/
  | applyModem (ddcNext : Dsp.Ddc S)
  /-- The main loop: on to the samples. -/
  | toSamples
  /-- The main loop: one `queue.pop`, and what follows it. -/
  | pop
  /-- The main loop: the report of lost chunks. -/
  | report

namespace RxPath

variable {S : Type} [CommRing S] (renorm : S → S) (mtu skipStartup : ℕ)

/-- The samples of a chunk on their way to the receiver. -/
def feed (s : RxPath S) (chunk : List S) : RxPath S :=
  let off := if s.streamPos < skipStartup then min chunk.length (skipStartup - s.streamPos) else 0
  let s := { s with streamPos := s.streamPos + chunk.length }
  if off < chunk.length then
    if s.ddc.passthrough then { s with fed := s.fed ++ [chunk.drop off] }
    else
      let r := s.ddc.process renorm (chunk.drop off)
      { s with ddc := r.1, fed := s.fed ++ [r.2] }
  else s

/-- One step; `none` when the thread does not stand there. -/
def step (s : RxPath S) : RxAction S → Option (RxPath S)
  | .read chunk =>
      if s.running = true ∧ s.hand = none ∧ chunk ≠ [] ∧ chunk.length ≤ mtu then
        some { s with hand := some chunk }
      else none
  | .readError =>
      if s.running = true ∧ s.hand = none then some { s with running := false } else none
  | .push => s.hand.map fun chunk => { s with queue := s.queue.push chunk, hand := none }
  | .stop => some { s with running := false }
  | .test =>
      if s.pc = .top then some { s with pc := if s.running then .ipc else .stopped } else none
  | .applyModem ddcNext =>
      if s.pc = .ipc then some { s with queue := s.queue.flush, ddc := ddcNext, fed := [] }
      else none
  | .toSamples => if s.pc = .ipc then some { s with pc := .drain } else none
  | .pop =>
      if s.pc = .drain then
        match s.queue.pop with
        | none => some { s with pc := .top }
        | some (chunk, queue) =>
            some { feed renorm skipStartup { s with queue } chunk with pc := .fed }
      else none
  | .report =>
      if s.pc = .fed then
        let dropped := s.queue.dropped
        some (if dropped ≠ s.reportedDrops then
          { s with
            reports := s.reports ++ [dropped - s.reportedDrops]
            reportedDrops := dropped
            pc := .drain }
        else { s with pc := .drain })
      else none

/-! ## One chunk -/

/-- **A chunk is fed from the end of the start-up on**, through the down-converter. -/
theorem feed_spec (s : RxPath S) (chunk : List S) :
    (feed renorm skipStartup s chunk).ddc
        = (s.ddc.process renorm (chunk.drop (skipStartup - s.streamPos))).1 ∧
      (feed renorm skipStartup s chunk).fed.flatten
        = s.fed.flatten ++ (s.ddc.process renorm (chunk.drop (skipStartup - s.streamPos))).2 := by
  set off := if s.streamPos < skipStartup then min chunk.length (skipStartup - s.streamPos) else 0
    with hoff
  have hdrop : chunk.drop (skipStartup - s.streamPos) = chunk.drop off := by
    rw [hoff]
    split
    · rw [List.drop_eq_drop_iff]
      omega
    · rename_i hpast
      rw [Nat.sub_eq_zero_of_le (Nat.not_lt.mp hpast)]
  rw [hdrop]
  unfold feed
  simp only [← hoff]
  split
  · split
    · -- without a down-converter its call returns what it got
      rename_i hpass
      simp only [Dsp.Ddc.process, hpass, if_true, List.flatten_append, List.flatten_singleton,
        and_self]
    · simp only [List.flatten_append, List.flatten_singleton, and_self]
  · rename_i hlt
    rw [List.drop_of_length_le (Nat.not_lt.mp hlt), Dsp.Ddc.process_nil]
    exact ⟨rfl, (List.append_nil _).symm⟩

@[simp] theorem feed_streamPos (s : RxPath S) (chunk : List S) :
    (feed renorm skipStartup s chunk).streamPos = s.streamPos + chunk.length := by
  unfold feed
  simp only
  split_ifs <;> rfl

@[simp] theorem feed_queue (s : RxPath S) (chunk : List S) :
    (feed renorm skipStartup s chunk).queue = s.queue := by
  unfold feed
  simp only
  split_ifs <;> rfl

@[simp] theorem feed_hand (s : RxPath S) (chunk : List S) :
    (feed renorm skipStartup s chunk).hand = s.hand := by
  unfold feed
  simp only
  split_ifs <;> rfl

@[simp] theorem feed_reports (s : RxPath S) (chunk : List S) :
    (feed renorm skipStartup s chunk).reports = s.reports ∧
      (feed renorm skipStartup s chunk).reportedDrops = s.reportedDrops := by
  unfold feed
  simp only
  split_ifs <;> exact ⟨rfl, rfl⟩

/-! ## What becomes of the chunks -/

/-- The chunks a run reads. -/
def reads (acts : List (RxAction S)) : List (List S) :=
  acts.filterMap fun a => match a with
    | .read chunk => some chunk
    | _ => none

omit [CommRing S] in
theorem reads_append (as bs : List (RxAction S)) : reads (as ++ bs) = reads as ++ reads bs :=
  List.filterMap_append

/-- What the run `acts` has made of the chunks since the state `s₁`, when the queue was empty and
the receiver new. -/
structure Account (s₁ : RxPath S) (acts : List (RxAction S)) (s : RxPath S)
    (l : Ledger (List S)) : Prop where
  balanced : l.Balanced
  queue : l.queue = s.queue.q
  put : l.put ++ s.hand.toList = s₁.hand.toList ++ reads acts
  dropped : s₁.queue.dropped + l.dropped.length = s.queue.dropped
  streamPos : s.streamPos = s₁.streamPos + l.taken.flatten.length
  ddc : s.ddc
    = (s₁.ddc.process renorm (l.taken.flatten.drop (skipStartup - s₁.streamPos))).1
  fed : s.fed.flatten
    = (s₁.ddc.process renorm (l.taken.flatten.drop (skipStartup - s₁.streamPos))).2

variable {renorm mtu skipStartup} {s₁ s t : RxPath S} {acts : List (RxAction S)}
  {l : Ledger (List S)}

/-- Where nothing has been read. -/
theorem Account.refl (hqueue : s₁.queue.q = []) (hfed : s₁.fed = []) :
    Account renorm skipStartup s₁ [] s₁ {} := by
  refine ⟨Ledger.balanced_empty, hqueue.symm, ?_, rfl, rfl, ?_, ?_⟩
  · exact (List.append_nil _).symm
  · rw [List.flatten_nil, List.drop_nil, Dsp.Ddc.process_nil]
  · rw [List.flatten_nil, List.drop_nil, Dsp.Ddc.process_nil, hfed, List.flatten_nil]

/-- A step that no chunk takes part in. -/
theorem Account.keep (h : Account renorm skipStartup s₁ acts s l) {a : RxAction S}
    (hread : reads [a] = []) (hqueue : t.queue = s.queue) (hhand : t.hand = s.hand)
    (hpos : t.streamPos = s.streamPos) (hddc : t.ddc = s.ddc) (hfed : t.fed = s.fed) :
    Account renorm skipStartup s₁ (acts ++ [a]) t l := by
  refine ⟨h.balanced, ?_, ?_, ?_, ?_, ?_, ?_⟩
  · rw [hqueue, h.queue]
  · rw [hhand, reads_append, hread, List.append_nil, h.put]
  · rw [hqueue, h.dropped]
  · rw [hpos, h.streamPos]
  · rw [hddc, h.ddc]
  · rw [hfed, h.fed]

/-- A chunk is read. -/
theorem Account.read (h : Account renorm skipStartup s₁ acts s l) (hhand : s.hand = none)
    (chunk : List S) :
    Account renorm skipStartup s₁ (acts ++ [.read chunk]) { s with hand := some chunk } l := by
  have hput := h.put
  rw [hhand, Option.toList_none, List.append_nil] at hput
  refine ⟨h.balanced, h.queue, ?_, h.dropped, h.streamPos, h.ddc, h.fed⟩
  rw [reads_append, ← List.append_assoc, ← hput]
  rfl

/-- A chunk is pushed. -/
theorem Account.push (h : Account renorm skipStartup s₁ acts s l) {chunk : List S}
    (hhand : s.hand = some chunk) :
    ∃ l', Account renorm skipStartup s₁ (acts ++ [.push])
      { s with queue := s.queue.push chunk, hand := none } l' := by
  have hput := h.put
  rw [hhand, Option.toList_some] at hput
  have hreads : reads (acts ++ [.push]) = reads acts :=
    (reads_append acts [.push]).trans (List.append_nil _)
  unfold ChunkQueue.push
  split
  · rename_i hfull
    -- the oldest chunk is lost
    rcases hq : s.queue.q with _ | ⟨oldest, q⟩
    · rw [hq] at hfull
      exact absurd hfull (Nat.not_succ_le_zero 31)
    · have hkept : q.Sublist l.queue := by
        rw [h.queue, hq]
        exact List.sublist_cons_self oldest q
      have hsplit : l.queue.Perm ([oldest] ++ q) := by
        rw [h.queue, hq]
        exact List.Perm.refl _
      have hdrop := h.balanced.drop hkept hsplit
      refine ⟨_, (hdrop.enqueue chunk), rfl, ?_, ?_, h.streamPos, h.ddc, h.fed⟩
      · rw [hreads, ← hput]
        exact List.append_nil _
      · have hcount := h.dropped
        simp only [List.length_append, List.length_singleton]
        omega
  · refine ⟨_, h.balanced.enqueue chunk, ?_, ?_, h.dropped, h.streamPos, h.ddc, h.fed⟩
    · simp only [h.queue]
    · rw [hreads, ← hput]
      exact List.append_nil _

/-- A chunk is popped and fed. -/
theorem Account.pop (h : Account renorm skipStartup s₁ acts s l) {chunk : List S}
    {queue : ChunkQueue S} (hpop : s.queue.pop = some (chunk, queue)) :
    ∃ l', Account renorm skipStartup s₁ (acts ++ [.pop])
      { feed renorm skipStartup { s with queue } chunk with pc := .fed } l' := by
  obtain ⟨hq, hdropped⟩ := ChunkQueue.pop_eq_some_iff.mp hpop
  obtain ⟨hddc, hfed⟩ := feed_spec renorm skipStartup { s with queue } chunk
  have htaken := h.balanced.take (h.queue.trans hq)
  have hreads : reads (acts ++ [.pop]) = reads acts :=
    (reads_append acts [.pop]).trans (List.append_nil _)
  -- the start-up ends in the chunks popped before, in this one, or later
  have hsplit : (l.taken ++ [chunk]).flatten.drop (skipStartup - s₁.streamPos)
      = l.taken.flatten.drop (skipStartup - s₁.streamPos)
        ++ chunk.drop (skipStartup - s.streamPos) := by
    rw [List.flatten_append, List.flatten_singleton, List.drop_append, h.streamPos, Nat.sub_sub]
  refine ⟨_, htaken, ?_, ?_, ?_, ?_, ?_, ?_⟩
  · simp only [feed_queue]
  · simp only [feed_hand, hreads, h.put]
  · simp only [feed_queue, hdropped, h.dropped]
  · simp only [feed_streamPos, List.flatten_append, List.flatten_singleton, List.length_append]
    rw [h.streamPos, Nat.add_assoc]
  · refine hddc.trans ?_
    rw [hsplit, Dsp.Ddc.splits_process]
    simp only [h.ddc]
  · refine hfed.trans ?_
    rw [hsplit, Dsp.Ddc.splits_process]
    simp only [h.ddc, h.fed]

/-- **The step lemma.** -/
theorem Account.step (h : Account renorm skipStartup s₁ acts s l) {a : RxAction S}
    (hkeep : ∀ ddcNext, a ≠ .applyModem ddcNext)
    (hstep : step renorm mtu skipStartup s a = some t) :
    ∃ l', Account renorm skipStartup s₁ (acts ++ [a]) t l' := by
  cases a with
  | read chunk =>
      obtain ⟨⟨-, hhand, -⟩, hstep⟩ := Option.ite_none_right_eq_some.mp hstep
      obtain rfl := Option.some.inj hstep
      exact ⟨l, h.read hhand chunk⟩
  | readError =>
      obtain ⟨-, hstep⟩ := Option.ite_none_right_eq_some.mp hstep
      obtain rfl := Option.some.inj hstep
      exact ⟨l, h.keep rfl rfl rfl rfl rfl rfl⟩
  | push =>
      obtain ⟨chunk, hhand, rfl⟩ := Option.map_eq_some_iff.mp hstep
      exact h.push hhand
  | stop =>
      obtain rfl := Option.some.inj hstep
      exact ⟨l, h.keep rfl rfl rfl rfl rfl rfl⟩
  | test =>
      obtain ⟨-, hstep⟩ := Option.ite_none_right_eq_some.mp hstep
      obtain rfl := Option.some.inj hstep
      exact ⟨l, h.keep rfl rfl rfl rfl rfl rfl⟩
  | applyModem ddcNext => exact absurd rfl (hkeep ddcNext)
  | toSamples =>
      obtain ⟨-, hstep⟩ := Option.ite_none_right_eq_some.mp hstep
      obtain rfl := Option.some.inj hstep
      exact ⟨l, h.keep rfl rfl rfl rfl rfl rfl⟩
  | pop =>
      obtain ⟨-, hstep⟩ := Option.ite_none_right_eq_some.mp hstep
      rcases hpop : s.queue.pop with _ | ⟨chunk, queue⟩
      · rw [hpop] at hstep
        obtain rfl := Option.some.inj hstep
        exact ⟨l, h.keep rfl rfl rfl rfl rfl rfl⟩
      · rw [hpop] at hstep
        obtain rfl := Option.some.inj hstep
        exact h.pop hpop
  | report =>
      obtain ⟨-, hstep⟩ := Option.ite_none_right_eq_some.mp hstep
      obtain rfl := Option.some.inj hstep
      split_ifs
      · exact ⟨l, h.keep rfl rfl rfl rfl rfl rfl⟩
      · exact ⟨l, h.keep rfl rfl rfl rfl rfl rfl⟩

/-- **The run lemma**: up to the next switch. -/
theorem Account.exec (h : Account renorm skipStartup s₁ acts s l) {rest : List (RxAction S)}
    (hkeep : ∀ ddcNext, .applyModem ddcNext ∉ rest)
    (hrun : Transition.exec (RxPath.step renorm mtu skipStartup) s rest = some t) :
    ∃ l', Account renorm skipStartup s₁ (acts ++ rest) t l' := by
  induction rest generalizing acts s l with
  | nil =>
      obtain rfl : s = t := Option.some.inj hrun
      rw [List.append_nil]
      exact ⟨l, h⟩
  | cons a rest ih =>
      obtain ⟨u, hu, hrest⟩ := Option.bind_eq_some_iff.mp hrun
      obtain ⟨l', h'⟩ := h.step
        (fun ddcNext heq => hkeep ddcNext (heq ▸ List.mem_cons_self)) hu
      rw [← List.singleton_append, ← List.append_assoc]
      exact ih h' (fun ddcNext hmem => hkeep ddcNext (List.mem_cons_of_mem _ hmem)) hrest

/-! ## Every run -/

/-- The start of `main`, with the down-converter of the preset on the command line. -/
def start (ddc : Dsp.Ddc S) : RxPath S := { ddc }

/-- The state after a run from the start; `none` if it is no run. -/
def run (renorm : S → S) (mtu skipStartup : ℕ) (ddc : Dsp.Ddc S) (acts : List (RxAction S)) :
    Option (RxPath S) :=
  exec (step renorm mtu skipStartup) (start ddc) acts

/-- What every run keeps: the bounds of the queue, and reports that add up. -/
structure Kept (mtu : ℕ) (s : RxPath S) : Prop where
  length_le : s.queue.q.length ≤ ChunkQueue.kMaxChunks
  queued : ∀ chunk ∈ s.queue.q, chunk.length ≤ mtu
  held : ∀ chunk ∈ s.hand, chunk.length ≤ mtu
  reports : s.reports.sum = s.reportedDrops
  reported : s.reportedDrops ≤ s.queue.dropped

omit [CommRing S] in
/-- A step that touches neither the queue nor the chunk in hand, and reports nothing. -/
theorem Kept.keep (h : Kept mtu s) (hqueue : t.queue = s.queue) (hhand : t.hand = s.hand)
    (hreports : t.reports = s.reports) (hdrops : t.reportedDrops = s.reportedDrops) :
    Kept mtu t := by
  refine ⟨?_, ?_, ?_, ?_, ?_⟩
  · rw [hqueue]
    exact h.length_le
  · rw [hqueue]
    exact h.queued
  · rw [hhand]
    exact h.held
  · rw [hreports, hdrops]
    exact h.reports
  · rw [hqueue, hdrops]
    exact h.reported

/-- **The step lemma** for the bounds. -/
theorem Kept.step (h : Kept mtu s) {a : RxAction S}
    (hstep : RxPath.step renorm mtu skipStartup s a = some t) : Kept mtu t := by
  cases a with
  | read chunk =>
      obtain ⟨⟨-, -, -, hlen⟩, hstep⟩ := Option.ite_none_right_eq_some.mp hstep
      obtain rfl := Option.some.inj hstep
      refine ⟨h.length_le, h.queued, ?_, h.reports, h.reported⟩
      rintro c ⟨⟩
      exact hlen
  | readError =>
      obtain ⟨-, hstep⟩ := Option.ite_none_right_eq_some.mp hstep
      obtain rfl := Option.some.inj hstep
      exact h.keep rfl rfl rfl rfl
  | push =>
      obtain ⟨chunk, hhand, rfl⟩ := Option.map_eq_some_iff.mp hstep
      refine ⟨s.queue.length_push_le chunk h.length_le, ?_, ?_, h.reports, ?_⟩
      · intro c hmem
        have hcases : c ∈ s.queue.q ∨ c = chunk := by
          simp only [ChunkQueue.push] at hmem
          split at hmem
          · rcases List.mem_append.mp hmem with htail | hlast
            · exact Or.inl (List.mem_of_mem_tail htail)
            · exact Or.inr (List.mem_singleton.mp hlast)
          · rcases List.mem_append.mp hmem with hold | hlast
            · exact Or.inl hold
            · exact Or.inr (List.mem_singleton.mp hlast)
        rcases hcases with hold | rfl
        · exact h.queued c hold
        · exact h.held c hhand
      · rintro c ⟨⟩
      · refine h.reported.trans ?_
        simp only [ChunkQueue.push]
        split
        · exact Nat.le_succ _
        · exact le_rfl
  | stop =>
      obtain rfl := Option.some.inj hstep
      exact h.keep rfl rfl rfl rfl
  | test =>
      obtain ⟨-, hstep⟩ := Option.ite_none_right_eq_some.mp hstep
      obtain rfl := Option.some.inj hstep
      exact h.keep rfl rfl rfl rfl
  | applyModem ddcNext =>
      obtain ⟨-, hstep⟩ := Option.ite_none_right_eq_some.mp hstep
      obtain rfl := Option.some.inj hstep
      refine ⟨Nat.zero_le _, ?_, h.held, h.reports, h.reported⟩
      intro c hmem
      exact absurd hmem List.not_mem_nil
  | toSamples =>
      obtain ⟨-, hstep⟩ := Option.ite_none_right_eq_some.mp hstep
      obtain rfl := Option.some.inj hstep
      exact h.keep rfl rfl rfl rfl
  | pop =>
      obtain ⟨-, hstep⟩ := Option.ite_none_right_eq_some.mp hstep
      rcases hpop : s.queue.pop with _ | ⟨chunk, queue⟩
      · rw [hpop] at hstep
        obtain rfl := Option.some.inj hstep
        exact h.keep rfl rfl rfl rfl
      · rw [hpop] at hstep
        obtain rfl := Option.some.inj hstep
        obtain ⟨hq, hdropped⟩ := ChunkQueue.pop_eq_some_iff.mp hpop
        obtain ⟨hreports, hreported⟩ := feed_reports renorm skipStartup { s with queue } chunk
        have hlen := h.length_le
        rw [hq, List.length_cons] at hlen
        refine ⟨?_, ?_, ?_, ?_, ?_⟩
        · simp only [feed_queue]
          omega
        · intro c hmem
          simp only [feed_queue] at hmem
          exact h.queued c (hq ▸ List.mem_cons_of_mem _ hmem)
        · intro c hmem
          simp only [feed_hand] at hmem
          exact h.held c hmem
        · simp only [hreports, hreported, h.reports]
        · simp only [hreported, feed_queue, hdropped, h.reported]
  | report =>
      obtain ⟨-, hstep⟩ := Option.ite_none_right_eq_some.mp hstep
      obtain rfl := Option.some.inj hstep
      split_ifs
      · refine ⟨h.length_le, h.queued, h.held, ?_, le_rfl⟩
        have hreported := h.reported
        have hreports := h.reports
        simp only [List.sum_append, List.sum_singleton]
        omega
      · exact h.keep rfl rfl rfl rfl

/-- **In every run**: the queue holds at most 32 chunks of at most `mtu` samples, and the
overflow reports add up to what was lost by the last of them. -/
theorem kept_of_run {ddc : Dsp.Ddc S} {acts : List (RxAction S)}
    (hrun : run renorm mtu skipStartup ddc acts = some s) : Kept mtu s := by
  have hreach : Reach (· = start ddc) (Steps (RxPath.step renorm mtu skipStartup)) s :=
    Reach.exec (Reach.start rfl) hrun
  refine Reach.invariant (Kept mtu) ?_ (fun s a t h hst => h.step hst) hreach
  rintro s rfl
  refine ⟨Nat.zero_le _, ?_, ?_, rfl, le_rfl⟩
  · intro c hmem
    exact absurd hmem List.not_mem_nil
  · rintro c ⟨⟩

/-- What a switch leaves behind. -/
theorem fresh_of_switch {ddc : Dsp.Ddc S} {before : List (RxAction S)}
    (hrun : run renorm mtu skipStartup ddc before = some s₁)
    (hlast : before = [] ∨ ∃ pre ddcNext, before = pre ++ [.applyModem ddcNext]) :
    s₁.queue.q = [] ∧ s₁.fed = [] := by
  rcases hlast with rfl | ⟨pre, ddcNext, rfl⟩
  · obtain rfl : start ddc = s₁ := Option.some.inj hrun
    exact ⟨rfl, rfl⟩
  · rw [run, exec_append] at hrun
    obtain ⟨s, -, hstep⟩ := Option.bind_eq_some_iff.mp hrun
    obtain ⟨u, hu, hnil⟩ := Option.bind_eq_some_iff.mp hstep
    obtain rfl : u = s₁ := Option.some.inj hnil
    obtain ⟨-, hu⟩ := Option.ite_none_right_eq_some.mp hu
    obtain rfl := Option.some.inj hu
    exact ⟨rfl, rfl⟩

/-- **From the radio to the receiver.**  However the threads interleave, between one switch of the
modem and the next the queue stays bounded, and there are chunks `popped` such that: the receiver
has been fed what the down-converter of that switch makes of `popped` in one call, from the end
of the start-up on; those chunks and the ones on their way are, in order, chunks read since the
switch or held by the RX thread at it, all of them but one for each overflow; and a receiver that
is settled on its calls ends with the frames of the receiver that has all of it at once. -/
theorem down_converted {ddc : Dsp.Ddc S} {before after : List (RxAction S)}
    (hbefore : run renorm mtu skipStartup ddc before = some s₁)
    (hlast : before = [] ∨ ∃ pre ddcNext, before = pre ++ [.applyModem ddcNext])
    (hkeep : ∀ ddcNext, .applyModem ddcNext ∉ after)
    (hafter : exec (step renorm mtu skipStartup) s₁ after = some s) :
    (s.queue.q.length ≤ ChunkQueue.kMaxChunks ∧ s.reports.sum = s.reportedDrops) ∧
    ∃ popped : List (List S),
      let onTheWay := popped ++ s.queue.q ++ s.hand.toList
      let sinceSwitch := s₁.hand.toList ++ reads after
      let baseband :=
        (s₁.ddc.process renorm (popped.flatten.drop (skipStartup - s₁.streamPos))).2
      s.streamPos = s₁.streamPos + popped.flatten.length ∧
      s.fed.flatten = baseband ∧
      onTheWay.Sublist sinceSwitch ∧
      onTheWay.length + (s.queue.dropped - s₁.queue.dropped) = sinceSwitch.length ∧
      (s.queue.dropped = s₁.queue.dropped → onTheWay = sinceSwitch) ∧
      ∀ {τ : Type} (R : Receiver S τ), 0 < R.sps →
        (∀ r, R.Reached s.fed r → R.Settled s.fed.flatten.length r) →
        ∀ frames, R.Received s.fed frames ↔
          ∃ c ∈ StateTransition.eval (R.idealStep baseband) (R.start [baseband]).core,
            frames = R.flushOut c := by
  obtain ⟨hqueue, hfed⟩ := fresh_of_switch hbefore hlast
  obtain ⟨l, hl⟩ := (Account.refl hqueue hfed).exec hkeep hafter
  rw [List.nil_append] at hl
  have hrun : run renorm mtu skipStartup ddc (before ++ after) = some s := by
    rw [run, exec_append, ← run, hbefore]
    exact hafter
  have hkept := kept_of_run hrun
  have hsub : (l.taken ++ s.queue.q ++ s.hand.toList).Sublist (s₁.hand.toList ++ reads after) := by
    rw [← hl.put, ← hl.queue]
    exact hl.balanced.order.append (List.Sublist.refl _)
  have hcount : (l.taken ++ s.queue.q ++ s.hand.toList).length
      + (s.queue.dropped - s₁.queue.dropped) = (s₁.hand.toList ++ reads after).length := by
    have hperm := hl.balanced.perm.length_eq
    have hdropped := hl.dropped
    rw [← hl.put, ← hl.queue]
    simp only [List.length_append] at hperm ⊢
    omega
  refine ⟨⟨hkept.length_le, hkept.reports⟩, l.taken, hl.streamPos, hl.fed, hsub, hcount, ?_, ?_⟩
  · intro hnone
    rw [hnone, Nat.sub_self, Nat.add_zero] at hcount
    exact hsub.eq_of_length hcount
  · intro τ R hsps hsettled frames
    rw [Receiver.received_iff hsps hsettled frames, hl.fed]
    rfl

/-! ## A switch with a chunk in the RX thread's hands -/

/-- No down-converter. -/
def direct : Dsp.Ddc ℤ where
  passthrough := true
  useSt1 := false
  nco := .off
  st1 := Dsp.DecimatingFir.ofPrototype [1] 1 (by decide)
  st2 := Dsp.DecimatingFir.ofPrototype [1] 1 (by decide)
  st1_taps := fun h => absurd h (by decide)
  st2_taps := fun h => absurd h (by decide)

/-- One that sums neighbours and takes every second. -/
def halving : Dsp.Ddc ℤ :=
  .ofPrototypes 2 (by decide) .off [1] [1, 1] (by decide) (by decide)

/-- Two chunks are fed, a third is pushed and a fourth is read; then the modem is switched. -/
def beforeSwitch : List (RxAction ℤ) :=
  [.test, .toSamples, .read [1, 2], .push, .pop, .report, .read [3, 4], .push, .pop, .report, .pop,
    .test, .read [5, 6], .push, .read [7, 8], .applyModem halving]

/-- The chunk that was read before the switch, and one read after it. -/
def afterSwitch : List (RxAction ℤ) :=
  [.push, .toSamples, .pop, .report, .read [9], .push, .pop, .report, .pop]

/-- Of a start-up of five samples one lies behind the switch. -/
theorem down_converted_switch :
    ∃ s, run id 4 5 direct (beforeSwitch ++ afterSwitch) = some s ∧
      s.fed.flatten = (halving.process id [8, 9]).2 := by
  obtain ⟨s, hs, hq, hhand, hdropped⟩ : ∃ s, run id 4 5 direct (beforeSwitch ++ afterSwitch)
      = some s ∧ s.queue.q = [] ∧ s.hand = none ∧ s.queue.dropped = 0 :=
    ⟨_, rfl, rfl, rfl, rfl⟩
  obtain ⟨s₁, hs₁, hafter⟩ := Option.bind_eq_some_iff.mp ((exec_append _ _ _ _).symm.trans hs)
  obtain ⟨s₂, hs₂, hpos, hhand₁, hddc, hdropped₁⟩ : ∃ s₂, run id 4 5 direct beforeSwitch = some s₂ ∧
      s₂.streamPos = 4 ∧ s₂.hand = some [7, 8] ∧ s₂.ddc = halving ∧ s₂.queue.dropped = 0 :=
    ⟨_, rfl, rfl, rfl, rfl, rfl⟩
  obtain rfl : s₂ = s₁ := Option.some.inj (hs₂.symm.trans hs₁)
  have hkeep : ∀ ddcNext, .applyModem ddcNext ∉ afterSwitch := by
    intro ddcNext hmem
    simp [afterSwitch] at hmem
  obtain ⟨-, popped, -, hfed, -, -, hall, -⟩ :=
    down_converted hs₂ (Or.inr ⟨beforeSwitch.dropLast, halving, rfl⟩) hkeep hafter
  -- nothing was lost
  have hpopped : popped = [[7, 8], [9]] := by
    have h := hall (hdropped.trans hdropped₁.symm)
    rw [hq, hhand, hhand₁, List.append_assoc] at h
    exact (List.append_nil _).symm.trans h
  refine ⟨s, hs, ?_⟩
  rw [hfed, hpopped, hpos, hddc]
  rfl

end RxPath
