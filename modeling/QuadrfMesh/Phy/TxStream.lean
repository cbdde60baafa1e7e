/-
# The transmitter as a stream (`src/lora/transmitter.cpp`)

What one `pull` does, whatever its size (`pull_spec`): it writes on from the burst on
the air, then whole bursts from the front of the queue, and silence only when nothing
is left.  Over any run the pulled samples are complete bursts in the order of the
queue, the last one cut where the run ends (`transmitter_stream`).
-/
import QuadrfMesh.Lib.Fifo
import QuadrfMesh.Phy.Transmitter

namespace Transmitter

variable {Sample : Type}

/-- `enqueueFrame`: queue a modulated frame. -/
def enqueueFrame (tx : Transmitter Sample) (frame : List Sample) : Transmitter Sample :=
  { tx with queue := tx.queue ++ [frame] }

/-- What is left of the burst on the air. -/
def rest (tx : Transmitter Sample) : List Sample := tx.burst.drop tx.burstPos

theorem rest_eq_nil_iff (tx : Transmitter Sample) :
    tx.rest = [] ↔ tx.burst.length ≤ tx.burstPos := List.drop_eq_nil_iff

/-- `isIdle` holds exactly when nothing waits and nothing is left on the air. -/
theorem isIdle_iff_rest (tx : Transmitter Sample) :
    tx.isIdle = true ↔ tx.queue = [] ∧ tx.rest = [] := by
  rw [isIdle_iff, rest_eq_nil_iff]

variable [Zero Sample]

/-- Warmup, frame and gap: a frame that is not empty makes a burst that is not. -/
theorem burstOf_ne_nil (tx : Transmitter Sample) {frame : List Sample} (h : frame ≠ []) :
    tx.burstOf frame ≠ [] := by
  intro hnil
  rw [burstOf, List.append_assoc, List.append_eq_nil_iff, List.append_eq_nil_iff] at hnil
  exact h hnil.2.1

/-- `fillFromBurst` with a burst on the air writes on from it and touches nothing but the
burst. -/
theorem fillFromBurst_rest {tx : Transmitter Sample} {room : ℕ} (hmid : tx.rest ≠ [])
    (hroom : 0 < room) :
    ∃ out tx', fillFromBurst tx room = (out, tx') ∧ tx.rest = out ++ tx'.rest ∧ out ≠ [] ∧
      out.length ≤ room ∧ tx'.queue = tx.queue ∧ tx'.burstOf = tx.burstOf ∧
      tx'.framesStarted = tx.framesStarted := by
  have hlt : tx.burstPos < tx.burst.length := by
    by_contra h
    exact hmid ((rest_eq_nil_iff tx).mpr (by omega))
  have hne : min room (tx.burst.length - tx.burstPos) ≠ 0 := by omega
  have hlen := length_fillFromBurst tx room
  unfold fillFromBurst at hlen ⊢
  simp only at hlen ⊢
  rw [if_neg hne] at hlen ⊢
  split_ifs at hlen ⊢ with hend
  · -- the burst ends in this call
    simp only at hlen
    refine ⟨_, _, rfl, ?_, ?_, by omega, rfl, rfl, rfl⟩
    · rw [List.take_of_length_le (by rw [List.length_drop]; omega)]
      exact (List.append_nil _).symm
    · exact List.ne_nil_of_length_pos (by omega)
  · simp only at hlen
    refine ⟨_, _, rfl, ?_, ?_, by omega, rfl, rfl, rfl⟩
    · rw [rest, rest, ← List.drop_drop, List.take_append_drop]
    · exact List.ne_nil_of_length_pos (by omega)

/-- What a `pull` of `room` samples does: it writes what is left on the air and the bursts
of the frames it starts, in order, and silence only once nothing is left (a frame that is
empty may leave others waiting); it may end in the last burst it started. -/
structure PullSpec (tx : Transmitter Sample) (room : ℕ) (r : Pulled Sample)
    (started : List (List Sample)) : Prop where
  queue_eq : tx.queue = started ++ r.tx.queue
  burstOf_eq : r.tx.burstOf = tx.burstOf
  framesStarted_eq : r.tx.framesStarted = tx.framesStarted + started.length
  fromBurst_le : r.fromBurst ≤ room
  length_out : r.out.length = room
  air_eq : tx.rest ++ (started.map tx.burstOf).flatten = r.out.take r.fromBurst ++ r.tx.rest
  silence_eq : r.out.drop r.fromBurst = List.replicate (room - r.fromBurst) 0
  rest_of_silence : r.fromBurst < room → r.tx.rest = []
  queue_of_silence : (∀ frame ∈ tx.queue, frame ≠ []) → r.fromBurst < room → r.tx.queue = []
  cut : r.tx.rest = [] ∨ (started = [] ∧ r.tx.rest <:+ tx.rest) ∨
    ∃ frame part, started.getLast? = some frame ∧ part ≠ [] ∧
      tx.burstOf frame = part ++ r.tx.rest

/-- One pass of `pull`'s loop with a burst on the air, then the rest of the loop. -/
theorem PullSpec.of_fill {tx tx' : Transmitter Sample} {room : ℕ} {out : List Sample}
    {r : Pulled Sample} {started : List (List Sample)} (hrest : tx.rest = out ++ tx'.rest)
    (hle : out.length ≤ room) (hqueue : tx'.queue = tx.queue)
    (hburst : tx'.burstOf = tx.burstOf) (hframes : tx'.framesStarted = tx.framesStarted)
    (h : PullSpec tx' (room - out.length) r started) :
    PullSpec tx room ⟨out ++ r.out, out.length + r.fromBurst, r.tx⟩ started := by
  have hfrom := h.fromBurst_le
  constructor
  case queue_eq => rw [← hqueue]; exact h.queue_eq
  case burstOf_eq => exact h.burstOf_eq.trans hburst
  case framesStarted_eq => rw [← hframes]; exact h.framesStarted_eq
  case fromBurst_le =>
    show out.length + r.fromBurst ≤ room
    omega
  case length_out =>
    rw [List.length_append, h.length_out]
    omega
  case air_eq =>
    have hair := h.air_eq
    rw [hburst] at hair
    rw [hrest, List.append_assoc, hair, List.take_length_add_append, List.append_assoc]
  case silence_eq =>
    rw [List.drop_length_add_append, h.silence_eq, Nat.sub_sub]
  case rest_of_silence =>
    intro hlt
    have hlt' : out.length + r.fromBurst < room := hlt
    exact h.rest_of_silence (by omega)
  case queue_of_silence =>
    intro hne hlt
    have hlt' : out.length + r.fromBurst < room := hlt
    exact h.queue_of_silence (by rw [hqueue]; exact hne) (by omega)
  case cut =>
    rw [← hburst]
    rcases h.cut with hnil | ⟨hst, hsuf⟩ | hcut
    · exact Or.inl hnil
    · exact Or.inr (Or.inl ⟨hst, hsuf.trans ⟨out, hrest.symm⟩⟩)
    · exact Or.inr (Or.inr hcut)

/-- Starting the burst of the frame at the head of the queue, then pulling. -/
theorem PullSpec.of_start {tx tx' : Transmitter Sample} {room : ℕ} {r : Pulled Sample}
    {frame : List Sample} {started : List (List Sample)} (hdone : tx.rest = [])
    (hqueue : tx.queue = frame :: tx'.queue) (hrest : tx'.rest = tx.burstOf frame)
    (hburst : tx'.burstOf = tx.burstOf) (hframes : tx'.framesStarted = tx.framesStarted + 1)
    (hpulled : ∃ part, part ≠ [] ∧ part <+: r.out.take r.fromBurst)
    (h : PullSpec tx' room r started) : PullSpec tx room r (frame :: started) := by
  constructor
  case queue_eq => rw [hqueue, List.cons_append, ← h.queue_eq]
  case burstOf_eq => exact h.burstOf_eq.trans hburst
  case framesStarted_eq =>
    rw [h.framesStarted_eq, hframes, List.length_cons]
    omega
  case fromBurst_le => exact h.fromBurst_le
  case length_out => exact h.length_out
  case air_eq =>
    rw [hdone, List.nil_append, List.map_cons, List.flatten_cons, ← hrest, ← hburst]
    exact h.air_eq
  case silence_eq => exact h.silence_eq
  case rest_of_silence => exact h.rest_of_silence
  case queue_of_silence =>
    intro hne
    exact h.queue_of_silence (fun f hf => hne f (by rw [hqueue]; exact List.mem_cons_of_mem _ hf))
  case cut =>
    rw [← hburst]
    rcases h.cut with hnil | ⟨rfl, hsuf⟩ | ⟨f, part, hlast, hne, heq⟩
    · exact Or.inl hnil
    · -- the pull ended in the burst it started with
      obtain ⟨part, hne, hpre⟩ := hpulled
      have hair := h.air_eq
      simp only [List.map_nil, List.flatten_nil, List.append_nil] at hair
      refine Or.inr (Or.inr ⟨frame, r.out.take r.fromBurst, rfl, ?_, ?_⟩)
      · intro hnil
        rw [hnil] at hpre
        exact hne (List.prefix_nil.mp hpre)
      · rw [hburst, ← hrest, hair]
    · refine Or.inr (Or.inr ⟨f, part, ?_, hne, heq⟩)
      rw [List.getLast?_cons, hlast]
      rfl

/-- A `pull` of nothing. -/
theorem PullSpec.nil (tx : Transmitter Sample) : PullSpec tx 0 ⟨[], 0, tx⟩ [] where
  queue_eq := rfl
  burstOf_eq := rfl
  framesStarted_eq := rfl
  fromBurst_le := le_refl 0
  length_out := rfl
  air_eq := List.append_nil _
  silence_eq := rfl
  rest_of_silence := fun h => absurd h (lt_irrefl 0)
  queue_of_silence := fun _ h => absurd h (lt_irrefl 0)
  cut := Or.inr (Or.inl ⟨rfl, List.suffix_rfl⟩)

/-- Silence for the rest of the room. -/
theorem PullSpec.silence {tx : Transmitter Sample} (room : ℕ) (hrest : tx.rest = [])
    (hqueue : (∀ frame ∈ tx.queue, frame ≠ []) → tx.queue = []) :
    PullSpec tx room ⟨List.replicate room 0, 0, tx⟩ [] where
  queue_eq := rfl
  burstOf_eq := rfl
  framesStarted_eq := rfl
  fromBurst_le := Nat.zero_le _
  length_out := List.length_replicate
  air_eq := by
    rw [List.map_nil, List.flatten_nil, List.append_nil, List.take_zero, List.nil_append]
  silence_eq := rfl
  rest_of_silence := fun _ => hrest
  queue_of_silence := fun hne _ => hqueue hne
  cut := Or.inl hrest

/-- A frame that makes an empty burst: silence, whatever waits behind it. -/
theorem PullSpec.of_empty {tx tx' : Transmitter Sample} (room : ℕ) {frame : List Sample}
    (hdone : tx.rest = []) (hqueue : tx.queue = frame :: tx'.queue)
    (hempty : tx.burstOf frame = []) (hrest : tx'.rest = tx.burstOf frame)
    (hburst : tx'.burstOf = tx.burstOf) (hframes : tx'.framesStarted = tx.framesStarted + 1) :
    PullSpec tx room ⟨List.replicate room 0, 0, tx'⟩ [frame] where
  queue_eq := hqueue
  burstOf_eq := hburst
  framesStarted_eq := hframes
  fromBurst_le := Nat.zero_le _
  length_out := List.length_replicate
  air_eq := by
    rw [hdone, List.map_singleton, List.flatten_singleton, hrest, List.take_zero]
  silence_eq := rfl
  rest_of_silence := fun _ => hrest.trans hempty
  queue_of_silence := fun hne _ =>
    absurd hempty (burstOf_ne_nil tx (hne frame (by rw [hqueue]; exact List.mem_cons_self ..)))
  cut := Or.inl (hrest.trans hempty)

/-- **`pull`'s loop**, by induction on its passes. -/
theorem pullLoop_spec {fuel room : ℕ} {tx : Transmitter Sample} (hfuel : room ≤ fuel) :
    ∃ started, PullSpec tx room (pullLoop fuel room tx) started := by
  induction fuel generalizing room tx with
  | zero =>
      obtain rfl : room = 0 := by omega
      exact ⟨[], PullSpec.nil tx⟩
  | succ fuel ih =>
      by_cases hroom : room = 0
      · rw [hroom]
        exact ⟨[], PullSpec.nil tx⟩
      · -- a pass that writes from a burst on the air
        have hpass : ∀ tx₁ : Transmitter Sample, tx₁.rest ≠ [] →
            ∃ started out tx', fillFromBurst tx₁ room = (out, tx') ∧
              (∃ part, part ≠ [] ∧ part <+: (out ++ (pullLoop fuel (room - out.length) tx').out).take
                (out.length + (pullLoop fuel (room - out.length) tx').fromBurst)) ∧
              PullSpec tx₁ room
                ⟨out ++ (pullLoop fuel (room - out.length) tx').out,
                  out.length + (pullLoop fuel (room - out.length) tx').fromBurst,
                  (pullLoop fuel (room - out.length) tx').tx⟩ started := by
          intro tx₁ hmid
          obtain ⟨out, tx', hfill, hrest, hout, hle, hq, hb, hf⟩ :=
            fillFromBurst_rest hmid (by omega : 0 < room)
          have hpos := List.length_pos_of_ne_nil hout
          have hfuel' : room - out.length ≤ fuel := by omega
          obtain ⟨started, hspec⟩ := @ih (room - out.length) tx' hfuel'
          refine ⟨started, out, tx', hfill, ⟨out, hout, ?_⟩,
            PullSpec.of_fill hrest hle hq hb hf hspec⟩
          rw [List.take_length_add_append]
          exact List.prefix_append out _
        unfold pullLoop
        rw [if_neg hroom]
        simp only
        by_cases hdone : tx.burst.length ≤ tx.burstPos
        · rw [if_pos hdone]
          have hnil := (rest_eq_nil_iff tx).mpr hdone
          cases hqueue : tx.queue with
          | nil =>
              rw [startNextBurstLocked_of_nil tx hqueue, if_neg (by omega)]
              exact ⟨[], PullSpec.silence room hnil (fun _ => hqueue)⟩
          | cons frame queue =>
              rw [startNextBurstLocked_of_cons tx frame queue hqueue (by omega)]
              set tx₁ : Transmitter Sample :=
                { tx with queue := queue, burst := burstOf tx frame, burstPos := 0
                          framesStarted := tx.framesStarted + 1 } with htx₁
              have hrest₁ : tx₁.rest = tx.burstOf frame := rfl
              by_cases hlt : tx₁.burstPos < tx₁.burst.length
              · obtain ⟨started, out, tx', hfill, hpulled, hspec⟩ := hpass tx₁
                  (by rw [ne_eq, rest_eq_nil_iff]; omega)
                rw [if_pos hlt, hfill]
                exact ⟨frame :: started,
                  PullSpec.of_start hnil hqueue hrest₁ rfl rfl hpulled hspec⟩
              · -- an empty frame between an empty warmup and an empty gap
                rw [if_neg hlt]
                exact ⟨[frame], PullSpec.of_empty room hnil hqueue
                  (List.eq_nil_of_length_eq_zero (Nat.eq_zero_of_not_pos hlt)) rfl rfl rfl⟩
        · have hmid : tx.rest ≠ [] := by
            rw [ne_eq, rest_eq_nil_iff]
            exact hdone
          obtain ⟨started, out, tx', hfill, -, hspec⟩ := hpass tx hmid
          rw [if_neg hdone, if_pos (by omega), hfill]
          exact ⟨started, hspec⟩

/-- **One `pull`.** -/
theorem pull_spec (tx : Transmitter Sample) (n : ℕ) :
    ∃ started, PullSpec tx n (tx.pull n) started := by
  obtain ⟨started, h⟩ := @pullLoop_spec _ _ n n tx (le_refl n)
  exact ⟨started, h.queue_eq, h.burstOf_eq, h.framesStarted_eq, h.fromBurst_le, h.length_out,
    h.air_eq, h.silence_eq, h.rest_of_silence, h.queue_of_silence, h.cut⟩

/-! ## Runs -/

/-- What the radio thread and the upper layers do to a transmitter. -/
inductive Op (Sample : Type)
  | enqueueFrame (frame : List Sample)
  | clearQueue
  | pull (n : ℕ)
  deriving DecidableEq

/-- The samples a call writes. -/
def Op.size : Op Sample → ℕ
  | .enqueueFrame _ => 0
  | .clearQueue => 0
  | .pull n => n

/-- One call: the samples it wrote, and the transmitter after it. -/
def call (tx : Transmitter Sample) : Op Sample → List Sample × Transmitter Sample
  | .enqueueFrame frame => ([], tx.enqueueFrame frame)
  | .clearQueue => ([], tx.clearQueue)
  | .pull n => ((tx.pull n).out, (tx.pull n).tx)

/-- The samples each call of a run wrote, and the transmitter after the run. -/
def calls (tx : Transmitter Sample) : List (Op Sample) → List (List Sample) × Transmitter Sample
  | [] => ([], tx)
  | op :: ops =>
      let (out, tx) := tx.call op
      let (outs, tx) := tx.calls ops
      (out :: outs, tx)

/-- The events of a call: a frame put, the queue cleared, or bursts started and silence. -/
def Events : Op Sample → List (Fifo.Event (List Sample)) → Prop
  | .enqueueFrame frame, es => es = [.put frame]
  | .clearQueue, es => es = [.clear]
  | .pull _, es => ∀ e ∈ es, e = .idle ∨ ∃ frame, e = .serve frame

/-- The samples an event stands for: a whole burst, or one sample of silence. -/
def onAir (tx : Transmitter Sample) : Fifo.Event (List Sample) → List Sample
  | .serve frame => tx.burstOf frame
  | .idle => [0]
  | _ => []

theorem flatMap_onAir_serve (tx : Transmitter Sample) (frames : List (List Sample)) :
    (frames.map Fifo.Event.serve).flatMap tx.onAir = (frames.map tx.burstOf).flatten := by
  rw [List.flatMap_map, List.flatMap_def]
  rfl

theorem flatMap_onAir_idle (tx : Transmitter Sample) (n : ℕ) :
    (List.replicate n Fifo.Event.idle).flatMap tx.onAir = List.replicate n 0 := by
  induction n with
  | zero => rfl
  | succ n ih => rw [List.replicate_succ, List.flatMap_cons, ih, List.replicate_succ]; rfl

theorem onAir_congr {tx tx' : Transmitter Sample} (h : tx'.burstOf = tx.burstOf) :
    tx'.onAir = tx.onAir := by
  funext e
  cases e <;> simp only [onAir, h]

/-- From `tx` to `tx'` with the samples `out`, seen from the queue and from the air: the
events `es` were served in order, they are what went on the air, and only the burst
started last may be cut. -/
structure Behaves (tx : Transmitter Sample) (out : List Sample) (tx' : Transmitter Sample)
    (es : List (Fifo.Event (List Sample))) : Prop where
  serves : Fifo.Serves tx.queue es tx'.queue
  air_eq : tx.rest ++ es.flatMap tx.onAir = out ++ tx'.rest
  onAir_eq : tx'.onAir = tx.onAir
  cut : tx'.rest = [] ∨ (Fifo.served es = [] ∧ tx'.rest <:+ tx.rest) ∨
    ∃ frame part, (Fifo.served es).getLast? = some frame ∧ part ≠ [] ∧
      tx.onAir (.serve frame) = part ++ tx'.rest

theorem Behaves.refl (tx : Transmitter Sample) : Behaves tx [] tx [] :=
  ⟨Fifo.Serves.nil _, List.append_nil _, rfl, Or.inr (Or.inl ⟨rfl, List.suffix_rfl⟩)⟩

theorem Behaves.trans {tx tx₁ tx' : Transmitter Sample} {out out' : List Sample}
    {es fs : List (Fifo.Event (List Sample))} (h : Behaves tx out tx₁ es)
    (h' : Behaves tx₁ out' tx' fs) : Behaves tx (out ++ out') tx' (es ++ fs) := by
  constructor
  case serves => exact h.serves.append h'.serves
  case air_eq =>
    have hair := h'.air_eq
    rw [h.onAir_eq] at hair
    rw [List.flatMap_append, ← List.append_assoc, h.air_eq, List.append_assoc, hair,
      List.append_assoc]
  case onAir_eq => exact h'.onAir_eq.trans h.onAir_eq
  case cut =>
    have hcut := h'.cut
    rw [h.onAir_eq] at hcut
    rw [Fifo.served_append]
    rcases hcut with hnil | ⟨hfs, hsuf⟩ | ⟨frame, part, hlast, hne, heq⟩
    · exact Or.inl hnil
    · -- no burst started since: the burst cut is the one of the first part
      rw [hfs, List.append_nil]
      rcases h.cut with hnil | ⟨hes, hsuf'⟩ | ⟨frame, part, hlast, hne, heq⟩
      · rw [hnil] at hsuf
        exact Or.inl (List.suffix_nil.mp hsuf)
      · exact Or.inr (Or.inl ⟨hes, hsuf.trans hsuf'⟩)
      · obtain ⟨part', hpart'⟩ := hsuf
        refine Or.inr (Or.inr ⟨frame, part ++ part', hlast, ?_, ?_⟩)
        · exact List.append_ne_nil_of_left_ne_nil hne part'
        · rw [heq, ← hpart', List.append_assoc]
    · refine Or.inr (Or.inr ⟨frame, part, ?_, hne, heq⟩)
      rw [List.getLast?_append, hlast]
      rfl

/-- **One call**, of any kind and size. -/
theorem call_behaves {tx : Transmitter Sample} {op : Op Sample}
    (hne : ∀ frame ∈ tx.queue, frame ≠ []) (hop : ∀ frame, op = .enqueueFrame frame → frame ≠ []) :
    (∃ es, Events op es ∧ Behaves tx (tx.call op).1 (tx.call op).2 es) ∧
      (tx.call op).1.length = op.size ∧ ∀ frame ∈ (tx.call op).2.queue, frame ≠ [] := by
  cases op with
  | enqueueFrame frame =>
      refine ⟨⟨[.put frame], rfl, Fifo.Serves.put (Fifo.Serves.nil _), List.append_nil _, rfl,
        Or.inr (Or.inl ⟨rfl, List.suffix_rfl⟩)⟩, rfl, ?_⟩
      intro f hf
      rcases List.mem_append.mp hf with h | h
      · exact hne f h
      · exact hop f (congrArg _ (List.mem_singleton.mp h).symm)
  | clearQueue =>
      refine ⟨⟨[.clear], rfl, Fifo.Serves.clear (Fifo.Serves.nil _), List.append_nil _, rfl,
        Or.inr (Or.inl ⟨rfl, List.suffix_rfl⟩)⟩, rfl, ?_⟩
      intro f hf
      exact absurd hf List.not_mem_nil
  | pull n =>
      obtain ⟨started, h⟩ := pull_spec tx n
      set r := tx.pull n with hr
      have hcall : tx.call (.pull n) = (r.out, r.tx) := rfl
      have hout := List.take_append_drop r.fromBurst r.out
      rw [h.silence_eq] at hout
      rw [hcall]
      refine ⟨⟨started.map .serve ++ List.replicate (n - r.fromBurst) .idle, ?_, ?_, ?_,
        onAir_congr h.burstOf_eq, ?_⟩, h.length_out, ?_⟩
      · intro e he
        rcases List.mem_append.mp he with h | h
        · obtain ⟨frame, -, rfl⟩ := List.mem_map.mp h
          exact Or.inr ⟨frame, rfl⟩
        · exact Or.inl (List.eq_of_mem_replicate h)
      · rw [h.queue_eq]
        apply Fifo.Serves.append (Fifo.serves_map_serve started r.tx.queue)
        -- the silence, if any, falls on an empty queue
        rcases Nat.lt_or_ge r.fromBurst n with hlt | hge
        · rw [h.queue_of_silence hne hlt]
          exact Fifo.serves_replicate_idle _
        · rw [Nat.sub_eq_zero_of_le hge]
          exact Fifo.Serves.nil _
      · rw [List.flatMap_append, flatMap_onAir_serve, flatMap_onAir_idle, ← List.append_assoc,
          h.air_eq]
        rcases Nat.lt_or_ge r.fromBurst n with hlt | hge
        · rw [h.rest_of_silence hlt, List.append_nil, List.append_nil, hout]
        · rw [Nat.sub_eq_zero_of_le hge] at hout ⊢
          rw [List.replicate_zero, List.append_nil] at hout ⊢
          rw [hout]
      · rw [Fifo.served_append, Fifo.served_map_serve, Fifo.served_replicate_idle, List.append_nil]
        exact h.cut
      · intro f hf
        exact hne f (by rw [h.queue_eq]; exact List.mem_append_right _ hf)

/-- A run, call by call: one trace serves all its initial parts. -/
theorem calls_behave {ops : List (Op Sample)} {tx : Transmitter Sample}
    (hne : ∀ frame ∈ tx.queue, frame ≠ []) (hops : ∀ frame, .enqueueFrame frame ∈ ops → frame ≠ []) :
    (∃ trace, List.Forall₂ Events ops trace ∧
      ∀ k, Behaves tx (tx.calls (ops.take k)).1.flatten (tx.calls (ops.take k)).2
        (trace.take k).flatten) ∧
      (tx.calls ops).1.map List.length = ops.map Op.size := by
  induction ops generalizing tx with
  | nil =>
      refine ⟨⟨[], List.Forall₂.nil, ?_⟩, rfl⟩
      intro k
      rw [List.take_nil, List.take_nil]
      exact Behaves.refl tx
  | cons op ops ih =>
      have hop : ∀ frame, op = .enqueueFrame frame → frame ≠ [] :=
        fun frame h => hops frame (by rw [h]; exact List.mem_cons_self ..)
      obtain ⟨⟨es, hevents, hbehaves⟩, hlen, hne'⟩ := call_behaves hne hop
      obtain ⟨⟨trace, htrace, hrun⟩, hlens⟩ := ih hne'
        (fun frame h => hops frame (List.mem_cons_of_mem _ h))
      refine ⟨⟨es :: trace, List.Forall₂.cons hevents htrace, ?_⟩, ?_⟩
      · intro k
        cases k with
        | zero => exact Behaves.refl tx
        | succ k =>
            rw [List.take_succ_cons, List.take_succ_cons, List.flatten_cons]
            exact hbehaves.trans (hrun k)
      · rw [List.map_cons, ← hlen, ← hlens]
        rfl

/-- **The transmitter as a stream.**  For any calls of `enqueueFrame` (with frames that are
not empty), `clearQueue` and `pull` on a new transmitter there is a trace, call by call,
such that after each of them: the queue is served in order and silence falls on an empty
queue only; each frame was started at most once, in the order they came, and those not
started wait or were cleared; the pulled samples are the bursts and the silence of the trace, but for what is
left of the burst started last; and `isIdle` holds exactly when no frame waits and nothing
is left.  Each `pull` writes the samples it was asked for. -/
theorem transmitter_stream (params : LoraParams) (amplitude : Sample) (warmupSyms gapSyms : ℕ)
    (ops : List (Op Sample)) (hops : ∀ frame, Op.enqueueFrame frame ∈ ops → frame ≠ [])
    (tx : Transmitter Sample) (htx : tx = { new params amplitude with warmupSyms, gapSyms }) :
    (∃ trace, List.Forall₂ Events ops trace ∧
      ∀ k, ∀ s, s = (tx.calls (ops.take k)).2 → ∀ es, es = (trace.take k).flatten →
        Fifo.Serves [] es s.queue ∧
        (Fifo.served es ++ s.queue).Sublist (Fifo.puts es) ∧
        es.flatMap tx.onAir = (tx.calls (ops.take k)).1.flatten ++ s.rest ∧
        (s.rest = [] ∨ ∃ frame part, (Fifo.served es).getLast? = some frame ∧ part ≠ [] ∧
          tx.burstOf frame = part ++ s.rest) ∧
        (s.isIdle = true ↔ s.queue = [] ∧ s.rest = [])) ∧
    (tx.calls ops).1.map List.length = ops.map Op.size := by
  have hqueue : tx.queue = [] := by rw [htx]; rfl
  have hrest : tx.rest = [] := by rw [htx]; rfl
  have hne : ∀ frame ∈ tx.queue, frame ≠ [] := by
    intro frame h
    rw [hqueue] at h
    exact absurd h List.not_mem_nil
  obtain ⟨⟨trace, hevents, hrun⟩, hlens⟩ := calls_behave hne hops
  refine ⟨⟨trace, hevents, ?_⟩, hlens⟩
  rintro k s rfl es rfl
  have h := hrun k
  have hserves : Fifo.Serves [] (trace.take k).flatten (tx.calls (ops.take k)).2.queue := by
    rw [← hqueue]
    exact h.serves
  refine ⟨hserves, hserves.sublist, ?_, ?_, isIdle_iff_rest _⟩
  · rw [← h.air_eq, hrest, List.nil_append]
  · rcases h.cut with hnil | ⟨-, hsuf⟩ | hcut
    · exact Or.inl hnil
    · rw [hrest] at hsuf
      exact Or.inl (List.suffix_nil.mp hsuf)
    · exact Or.inr hcut

/-- Two frames, the second cleared while the first is on the air: the first goes out whole, and
silence after it. -/
theorem transmitter_stream_two :
    let tx : Transmitter ℤ := { new { : LoraParams} (1 : ℤ) with gapSyms := 0 }
    let ops : List (Op ℤ) :=
      [.enqueueFrame [5, 6], .enqueueFrame [7], .pull 1, .clearQueue, .pull 3]
    (tx.calls ops).1.map List.length = [0, 0, 1, 0, 3] ∧
      ∃ es, Fifo.Serves [] es [] ∧ (Fifo.served es).Sublist (Fifo.puts es) ∧
        es.flatMap tx.onAir = [5, 6, 0, 0] := by
  intro tx ops
  obtain ⟨⟨trace, -, htrace⟩, hlens⟩ := transmitter_stream { : LoraParams} (1 : ℤ) 0 0
    [.enqueueFrame [5, 6], .enqueueFrame [7], .pull 1, .clearQueue, .pull 3] (by simp) tx rfl
  obtain ⟨hserves, hsub, hair, -, -⟩ := htrace 5 _ rfl _ rfl
  have hqueue : (tx.calls (ops.take 5)).2.queue = [] := by decide +kernel
  have hout : (tx.calls (ops.take 5)).1.flatten ++ (tx.calls (ops.take 5)).2.rest = [5, 6, 0, 0] := by
    decide +kernel
  rw [hqueue] at hserves hsub
  rw [List.append_nil] at hsub
  exact ⟨hlens, _, hserves, hsub, hair.trans hout⟩

end Transmitter
