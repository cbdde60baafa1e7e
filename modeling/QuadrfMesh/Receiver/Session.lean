/-
# A receiver and its caller

The caller feeds a stream in chunks, then flushes; `process` takes steps after every
chunk until one makes no progress.  `advance` is the next thing that happens in such a
session, and `Received` says which frames `pop` hands out by its end.
-/
import QuadrfMesh.Lib.Transition
import QuadrfMesh.Receiver.Data

open Transition

/-- A receiver in use: `running` inside `process`, `pending` the chunks not yet fed. -/
structure Session (α τ : Type) where
  buf : Buffer α := {}
  core : Core τ
  pending : List (List α)
  running : Bool := false
  flushed : Bool := false

namespace Receiver

variable {α τ : Type} (R : Receiver α τ)

/-- The buffer as the receiver's requests find it. -/
def serve : Buffer α → (q : Request) → q.Answer α × Buffer α := Buffer.serve R.dsp.farrowTap

/-- A step on the buffered samples. -/
def stepOn (s : Session α τ) : Option (Core τ) × Buffer α := Asking.run R.serve s.buf (R.step s.core)

/-- `flush`: finalize a frame still being demodulated. -/
def flush (s : Session α τ) : Session α τ :=
  match s.core.state with
  | .data =>
      let r := Asking.run R.serve s.buf (R.finalizeData s.core)
      { s with core := r.1, buf := r.2, flushed := true }
  | _ => { s with flushed := true }

/-- The next step of `process`, the next `feed`, or the `flush` at the end. -/
def advance (s : Session α τ) : Option (Session α τ) :=
  if s.running then
    match R.stepOn s with
    | (some core, buf) => some { s with core, buf }
    | (none, buf) => some { s with buf, running := false }
  else
    match s.pending with
    | chunk :: rest => some { s with buf := s.buf.push chunk, pending := rest, running := true }
    | [] => if s.flushed then none else some (R.flush s)

/-- A new receiver, before the first chunk. -/
def start (chunks : List (List α)) : Session α τ :=
  { core := { tracker := R.tracker.initial }, pending := chunks }

/-- The session states a stream cut into `chunks` goes through. -/
def Reached (chunks : List (List α)) : Session α τ → Prop :=
  Reach (· = R.start chunks) (Steps fun s (_ : Unit) => R.advance s)

/-- `frames` is what `pop` yields once `chunks` are fed and the receiver is flushed. -/
def Received (chunks : List (List α)) (frames : List ReceivedFrame) : Prop :=
  ∃ s, R.Reached chunks s ∧ s.flushed = true ∧ s.core.out = frames

/-! ## Cases of a step -/

variable {R} {s t : Session α τ}

theorem advance_progress {core : Core τ} (hrun : s.running = true)
    (hstep : (R.stepOn s).1 = some core) :
    R.advance s = some { s with core, buf := (R.stepOn s).2 } := by
  rw [advance, if_pos hrun]
  generalize R.stepOn s = r at hstep ⊢
  obtain ⟨_, buf⟩ := r
  subst hstep
  rfl

theorem advance_wait (hrun : s.running = true) (hstep : (R.stepOn s).1 = none) :
    R.advance s = some { s with buf := (R.stepOn s).2, running := false } := by
  rw [advance, if_pos hrun]
  generalize R.stepOn s = r at hstep ⊢
  obtain ⟨_, buf⟩ := r
  subst hstep
  rfl

/-- **The step cases**: progress, waiting, the next chunk, the flush. -/
theorem advance_cases (h : R.advance s = some t) :
    (s.running = true ∧ ∃ core, (R.stepOn s).1 = some core ∧
      t = { s with core, buf := (R.stepOn s).2 }) ∨
    (s.running = true ∧ (R.stepOn s).1 = none ∧
      t = { s with buf := (R.stepOn s).2, running := false }) ∨
    (s.running = false ∧ ∃ chunk rest, s.pending = chunk :: rest ∧
      t = { s with buf := s.buf.push chunk, pending := rest, running := true }) ∨
    (s.running = false ∧ s.pending = [] ∧ s.flushed = false ∧ t = R.flush s) := by
  by_cases hrun : s.running = true
  · rcases hstep : (R.stepOn s).1 with _ | core
    · rw [advance_wait hrun hstep] at h
      exact Or.inr (Or.inl ⟨hrun, rfl, (Option.some.inj h).symm⟩)
    · rw [advance_progress hrun hstep] at h
      exact Or.inl ⟨hrun, core, rfl, (Option.some.inj h).symm⟩
  · have hidle : s.running = false := Bool.eq_false_iff.mpr hrun
    rw [advance, if_neg hrun] at h
    rcases hp : s.pending with _ | ⟨chunk, rest⟩
    · rcases hf : s.flushed with _ | _
      · simp only [hp, hf, Bool.false_eq_true, if_false, Option.some.injEq] at h
        exact Or.inr (Or.inr (Or.inr ⟨hidle, rfl, rfl, h.symm⟩))
      · simp [hp, hf] at h
    · rw [hp] at h
      exact Or.inr (Or.inr (Or.inl ⟨hidle, chunk, rest, rfl, (Option.some.inj h).symm⟩))

theorem Reached.next {chunks : List (List α)} (hs : R.Reached chunks s)
    (h : R.advance s = some t) : R.Reached chunks t := Reach.next (a := ()) hs h

/-- The frames queued by a flush. -/
theorem flush_out (s : Session α τ) :
    (R.flush s).core.out
      = if s.core.state = .data then (R.emitFrame s.core).out else s.core.out := by
  unfold flush
  rcases hstate : s.core.state with _ | _ | _ <;> rfl

theorem flush_flushed (s : Session α τ) : (R.flush s).flushed = true := by
  unfold flush
  split <;> rfl

/-- **The step cases while a frame is received**: nothing happens to it, one more symbol
passes the header check, or it is queued, with the symbol that broke off the loop if one
did. -/
theorem advance_data_cases (hdata : s.core.state = .data) (h : R.advance s = some t) :
    t.core = s.core ∨
    (∃ r, R.collecting s.core = true ∧ R.collect s.core r = some t.core) ∨
    t.core.out = s.core.out ++ [R.closeFrame s.core] ∨
    (∃ r, R.collecting s.core = true ∧ R.collect s.core r = none ∧
      t.core.out = s.core.out ++ [R.closeFrame (s.core.absorb r)]) := by
  rcases advance_cases h with ⟨-, core, hstep, rfl⟩ | ⟨-, -, rfl⟩ | ⟨-, chunk, rest, -, rfl⟩ |
    ⟨-, -, -, rfl⟩
  · have hstepData : R.step s.core = R.stepData s.core := by rw [step, hdata]
    have hcases : R.DataStep s.core (Asking.run R.serve s.buf (R.stepData s.core)).1 :=
      (returns_stepData R s.core).run s.buf
    rw [← hstepData, show (Asking.run R.serve s.buf (R.step s.core)).1 = some core from hstep]
      at hcases
    cases hcases with
    | @collect r _ hmore hpass => exact Or.inr (Or.inl ⟨r, hmore, hpass⟩)
    | @stop r scanAbs hmore hbad => exact Or.inr (Or.inr (Or.inr ⟨r, hmore, hbad, rfl⟩))
    | close => exact Or.inr (Or.inr (Or.inl rfl))
  · exact Or.inl rfl
  · exact Or.inl rfl
  · right
    right
    left
    rw [flush_out, if_pos hdata]
    rfl

/-- **Run lemma for an open frame.**  What every step keeps unless it queues a frame
holds for as long as no frame is queued. -/
theorem invariant_while_open {s₁ : Session α τ} (P : Core τ → Prop) (h0 : P s₁.core)
    (hstep : ∀ s t : Session α τ, P s.core → R.advance s = some t →
      P t.core ∨ ∃ f, t.core.out = s.core.out ++ [f])
    (hrun : Reach (· = s₁) (Restrict (Steps fun s (_ : Unit) => R.advance s)
      fun s _ => s.core.out = s₁.core.out) s)
    (hopen : s.core.out = s₁.core.out) : P s.core := by
  refine Reach.invariant (fun s => s.core.out = s₁.core.out → P s.core) ?_ ?_ hrun hopen
  · rintro s rfl -
    exact h0
  · rintro s _ t ih ⟨hst, hsame⟩ hout
    rcases hstep s t (ih hsame) hst with hkeep | ⟨f, hqueued⟩
    · exact hkeep
    · -- a queued frame makes the output longer
      rw [hout, ← hsame] at hqueued
      exact absurd (congrArg List.length hqueued) (by simp)

/-- **The buffer sees the stream**: what it holds, and the chunks still to come, are the
stream from `base` on. -/
theorem Reached.sees {chunks : List (List α)} (hs : R.Reached chunks s) :
    s.buf.Sees s.pending.flatten chunks.flatten := by
  have hserve := fun (rest : List α) (b : Buffer α) (q : Request)
    (hb : b.Sees rest chunks.flatten) => hb.serve R.dsp.farrowTap q
  refine Reach.invariant (fun s => s.buf.Sees s.pending.flatten chunks.flatten) ?_ ?_ hs
  · intro s h0
    subst h0
    exact ⟨Nat.zero_le _, rfl⟩
  · intro s _ t ih hst
    rcases advance_cases hst with ⟨-, core, -, rfl⟩ | ⟨-, -, rfl⟩ | ⟨-, chunk, rest, hp, rfl⟩ |
      ⟨-, hp, -, rfl⟩
    · exact Asking.run_invariant _ (hserve _) _ _ ih
    · exact Asking.run_invariant _ (hserve _) _ _ ih
    · rw [hp, List.flatten_cons] at ih
      exact ih.push
    · unfold flush
      split
      · exact Asking.run_invariant _ (hserve _) _ _ ih
      · exact ih

/-! ## Runs -/

variable (R) in
/-- The session after `n` things have happened, or at its end. -/
def runFor (s : Session α τ) : ℕ → Session α τ
  | 0 => s
  | n + 1 => (R.advance (runFor s n)).getD (runFor s n)

theorem advance_runFor (s : Session α τ) (n : ℕ) (h : (R.advance (R.runFor s n)).isSome = true) :
    R.advance (R.runFor s n) = some (R.runFor s (n + 1)) := by
  obtain ⟨t, ht⟩ := Option.isSome_iff_exists.mp h
  rw [runFor, ht]
  rfl

/-- A run in which no frame is queued, as steps that meet that condition. -/
theorem reach_runFor (s : Session α τ) (n : ℕ)
    (hopen : ∀ k < n, (R.runFor s k).core.out = s.core.out) :
    Reach (· = s) (Restrict (Steps fun s (_ : Unit) => R.advance s)
      fun t _ => t.core.out = s.core.out) (R.runFor s n) := by
  induction n with
  | zero => exact Reach.start rfl
  | succ n ih =>
      have hprev := ih fun k hk => hopen k (by omega)
      rcases hadv : R.advance (R.runFor s n) with _ | t
      · rwa [runFor, hadv]
      · rw [runFor, hadv]
        exact Reach.next (a := ()) hprev ⟨hadv, hopen n (by omega)⟩

theorem reached_runFor (chunks : List (List α)) (n : ℕ) :
    R.Reached chunks (R.runFor (R.start chunks) n) := by
  induction n with
  | zero => exact Reach.start rfl
  | succ n ih =>
      rw [runFor]
      rcases hadv : R.advance (R.runFor (R.start chunks) n) with _ | t
      · exact ih
      · exact ih.next hadv

/-- The frames of a run to its end. -/
theorem received_runFor (chunks : List (List α)) (n : ℕ)
    (hf : (R.runFor (R.start chunks) n).flushed = true) :
    R.Received chunks (R.runFor (R.start chunks) n).core.out :=
  ⟨_, reached_runFor chunks n, hf, rfl⟩

/-- Every reached state is on the run. -/
theorem Reached.exists_runFor {chunks : List (List α)} (hs : R.Reached chunks s) :
    ∃ n, R.runFor (R.start chunks) n = s := by
  induction hs with
  | start h0 => exact ⟨0, h0.symm⟩
  | @next s a t _ hst ih =>
      obtain ⟨n, rfl⟩ := ih
      refine ⟨n + 1, ?_⟩
      rw [runFor, show R.advance (R.runFor (R.start chunks) n) = some t from hst]
      rfl

/-- Where nothing can happen any more, the run stays. -/
theorem runFor_add (n k : ℕ) (hend : R.advance (R.runFor s n) = none) :
    R.runFor s (n + k) = R.runFor s n := by
  induction k with
  | zero => rfl
  | succ k ih =>
      rw [← Nat.add_assoc, runFor, ih, hend]
      rfl

/-- After the flush nothing happens. -/
theorem Reached.flushed_ends {chunks : List (List α)} (hs : R.Reached chunks s)
    (hf : s.flushed = true) : R.advance s = none := by
  -- a flushed session is idle, with no chunk left
  have hinv : s.flushed = true → s.running = false ∧ s.pending = [] := by
    refine Reach.invariant (fun s => s.flushed = true → s.running = false ∧ s.pending = []) ?_ ?_ hs
    · rintro s rfl h
      exact absurd h (by simp [start])
    · intro s _ t ih hst hft
      rcases advance_cases hst with ⟨hrun, core, -, rfl⟩ | ⟨hrun, -, rfl⟩ |
        ⟨-, chunk, rest, hp, rfl⟩ | ⟨hidle, hp, -, rfl⟩
      · exact ih hft
      · exact ⟨rfl, (ih hft).2⟩
      · rw [(ih hft).2] at hp
        exact absurd hp (by simp)
      · unfold flush
        split <;> exact ⟨hidle, hp⟩
  obtain ⟨hidle, hnil⟩ := hinv hf
  simp [advance, hidle, hnil, hf]

/-- A session ends with one list of frames at most. -/
theorem Received.unique {chunks : List (List α)} {f g : List ReceivedFrame}
    (hf : R.Received chunks f) (hg : R.Received chunks g) : f = g := by
  obtain ⟨s, hs, hsf, rfl⟩ := hf
  obtain ⟨t, ht, htf, rfl⟩ := hg
  obtain ⟨m, rfl⟩ := hs.exists_runFor
  obtain ⟨n, rfl⟩ := ht.exists_runFor
  -- both ends lie on one run, and past its end the run stays
  rcases le_total m n with h | h
  · obtain ⟨k, rfl⟩ := Nat.exists_eq_add_of_le h
    rw [runFor_add m k (hs.flushed_ends hsf)]
  · obtain ⟨k, rfl⟩ := Nat.exists_eq_add_of_le h
    rw [runFor_add n k (ht.flushed_ends htf)]

/-! ## A receiver on numbered samples -/

/-- Peaks on a sample grid, the samples numbered by position: six strong raw windows, a
preamble of six symbols on the resampled grid, sync word and SFD, and a first data window
that reads a quarter chip high unless it is taken one sample later. -/
def gridPeak (sps head : ℕ) (down : Bool) : ChipPeak :=
  let loud (chip magnitude : ℚ) : ChipPeak :=
    { chip, magnitude, noise := 1, lobePower := 1, totalPower := 1 }
  let data := 1 + 15 * sps + sps / 4
  if head = data + 1 then loud 7 1000
  else if head = data ∨ head + 1 = data then loud (3 / 10) 100
  else if head % sps = 0 then loud 0 100
  else if head < 5 * sps ∨ head % sps ≠ 1 then loud (sps / 4) 1
  else if down then loud 0 100
  else if head / sps = 11 then loud 16 100
  else if head / sps = 12 then loud 88 100
  else loud 0 100

/-- A receiver with these peaks. -/
def gridReceiver (p : LoraParams) : Receiver ℕ Unit where
  params := p
  dsp :=
    { farrowTap := fun taps _ => taps.getD 1 0
      demod := fun w down => gridPeak (samplesPerSymbol p) (w.getD 0 0) down
      demodData := fun w _ _ => { nc := gridPeak (samplesPerSymbol p) (w.getD 0 0) false }
      preambleSlope := fun _ => some 0
      derotate := fun _ w => w
      derotateRamp := fun _ _ w => w
      fitWindow := fun _ _ _ _ _ => none
      sortAnchors := .ofMergeSort ℕ ℚ
      sortAlts := .ofMergeSort AltSym ℚ
      sqrt := id
      log10 := fun _ => 0
      exp := fun _ => 0 }
  tracker :=
    { initial := ()
      clear := id
      track := fun _ i =>
        { dHat := 0, r0 := 0, derotated := none, ref := i.refPred, slope := 0, var := 0, state := () }
      shift := fun _ _ => ()
      slipSearch := fun _ => [] }
  codec := loraCodec p fun _ _ => {}

/-- Spreading factor 7 at two samples per chip. -/
def sf7 : LoraParams := { spreadingFactor := 7, preambleLen := 8 }

/-- Spreading factor 7 at one sample per chip. -/
def sf7Chips : LoraParams := { spreadingFactor := 7, preambleLen := 8, sampleRateHz := 500000 }

/-- Spreading factor 5 at one sample per chip. -/
def sf5 : LoraParams := { spreadingFactor := 5, preambleLen := 8, sampleRateHz := 500000 }

end Receiver
