/-
# Chunk boundaries

The receiver with the whole stream buffered, which never lets go of a sample, is the
reference: a run in which no read is refused a sample of the stream yields the frames of
the reference (`received_iff`), so two such cuts of one stream yield the same frames.
The reads that are refused are trial and calibration windows at the end of the buffer,
where the sibling path waits; there the chunk boundary decides what is received.
-/
import Mathlib.Computability.StateTransition
import QuadrfMesh.Receiver.Session

open Asking StateTransition

namespace Receiver

variable {α τ : Type} (R : Receiver α τ)

/-! ## The reference -/

/-- A step of the receiver on a stream it has as a whole. -/
def idealStep (stream : List α) (c : Core τ) : Option (Core τ) :=
  (run (fun b q => (Buffer.answer R.dsp.farrowTap b q, b)) (Buffer.whole stream) (R.step c)).1

/-- The frames after a flush. -/
def flushOut (c : Core τ) : List ReceivedFrame :=
  if c.state = .data then (R.emitFrame c).out else c.out

/-- No read is refused a sample the stream holds: the step waits for input that is still
to come, or the buffer holds what its requests want of the stream. -/
def Settled (len : ℕ) (s : Session α τ) : Prop :=
  s.running = true →
    ((R.stepOn s).1.isNone = true ∧ s.pending ≠ []) ∨
      Asks R.serve (Buffer.Settled len) s.buf (R.step s.core)

instance (len : ℕ) (s : Session α τ) : Decidable (R.Settled len s) :=
  inferInstanceAs (Decidable (_ → (_ ∧ ¬ _) ∨ _))

section Refinement

variable {R} {chunks : List (List α)} {s t : Session α τ}

/-- A settled step is the step of the reference. -/
theorem stepOn_eq_idealStep {rest stream : List α} (hsees : s.buf.Sees rest stream)
    (hasks : Asks R.serve (Buffer.Settled stream.length) s.buf (R.step s.core)) :
    (R.stepOn s).1 = R.idealStep stream s.core := by
  refine (run_simulates (fun b w => b.Sees rest stream ∧ w = Buffer.whole stream) _ ?_ _ _ _
    ⟨hsees, rfl⟩ hasks).1
  rintro b w q ⟨hb, rfl⟩ hq
  exact ⟨hb.answer_eq R.dsp.farrowTap q hq, hb.serve R.dsp.farrowTap q, rfl⟩

/-- Progress in a settled state is progress of the reference. -/
theorem idealStep_of_progress {core : Core τ} (hs : R.Reached chunks s)
    (hset : R.Settled chunks.flatten.length s) (hrun : s.running = true)
    (hstep : (R.stepOn s).1 = some core) :
    R.idealStep chunks.flatten s.core = some core := by
  rcases hset hrun with ⟨hwait, -⟩ | hasks
  · rw [hstep] at hwait
    simp at hwait
  · rw [← stepOn_eq_idealStep hs.sees hasks, hstep]

/-- Waiting with no chunk left is the end of the reference. -/
theorem idealStep_of_wait (hs : R.Reached chunks s)
    (hset : R.Settled chunks.flatten.length s) (hrun : s.running = true)
    (hstep : (R.stepOn s).1 = none) (hlast : s.pending = []) :
    R.idealStep chunks.flatten s.core = none := by
  rcases hset hrun with ⟨-, hmore⟩ | hasks
  · exact absurd hlast hmore
  · rw [← stepOn_eq_idealStep hs.sees hasks, hstep]

/-- On an empty stream the reference waits. -/
theorem idealStep_nil (hsps : 0 < R.sps) :
    R.idealStep [] (R.start chunks).core = none := by
  have hwait : ¬ max 0 0 + R.sps ≤ 0 := by omega
  show (run _ _ (if decide (max 0 0 + R.sps ≤ 0) = true then _ else _)).1 = none
  rw [if_neg (by simpa using hwait)]
  rfl

/-- What holds of a session state on the way to the flush, and after it. -/
structure OnTrack (R : Receiver α τ) (chunks : List (List α)) (s : Session α τ) : Prop where
  before : s.flushed = false → Reaches (R.idealStep chunks.flatten) (R.start chunks).core s.core
  stuck : s.flushed = false → s.running = false → s.pending = [] →
    R.idealStep chunks.flatten s.core = none
  after : s.flushed = true → s.running = false ∧ s.pending = [] ∧
    ∃ c ∈ eval (R.idealStep chunks.flatten) (R.start chunks).core, s.core.out = R.flushOut c

variable (hsps : 0 < R.sps)
  (hsettled : ∀ s, R.Reached chunks s → R.Settled chunks.flatten.length s)
include hsps hsettled

/-- **Step lemma and run lemma** of the refinement. -/
theorem Reached.onTrack (hs : R.Reached chunks s) : OnTrack R chunks s := by
  induction hs with
  | start h0 =>
      subst h0
      constructor
      · intro _
        exact Relation.ReflTransGen.refl
      · intro _ _ hnil
        obtain rfl : chunks = [] := hnil
        exact idealStep_nil hsps
      · intro hf
        exact absurd hf (by simp [Receiver.start])
  | @next s a t hreach hst ih =>
      have hset := hsettled s hreach
      -- after the flush nothing follows
      have hlive : s.flushed = false := by
        rcases hf : s.flushed with _ | _
        · rfl
        · obtain ⟨hidle, hnil, -⟩ := ih.after hf
          have hnone : R.advance s = none := by simp [advance, hidle, hnil, hf]
          exact absurd hst (by simp [Transition.Steps, hnone])
      rcases advance_cases hst with ⟨hrun, core, hstep, rfl⟩ | ⟨hrun, hstep, rfl⟩ |
        ⟨-, chunk, rest, -, rfl⟩ | ⟨hidle, hnil, -, rfl⟩
      · -- progress is a step of the reference
        constructor
        · intro _
          exact (ih.before hlive).tail (idealStep_of_progress hreach hset hrun hstep)
        · intro _ h
          exact absurd (hrun.symm.trans h) (by simp)
        · intro hf
          exact absurd hf (by simp [hlive])
      · -- waiting is none, and with no chunk left the reference is stuck as well
        constructor
        · intro _
          exact ih.before hlive
        · intro _ _ hlast
          show R.idealStep chunks.flatten s.core = none
          exact idealStep_of_wait hreach hset hrun hstep hlast
        · intro hf
          exact absurd hf (by simp [hlive])
      · -- nor is a chunk that comes in
        constructor
        · intro _
          exact ih.before hlive
        · intro _ h
          exact absurd h (by simp)
        · intro hf
          exact absurd hf (by simp [hlive])
      · -- the flush ends the session where the reference is stuck
        constructor
        · intro h
          exact absurd h (by simp [flush_flushed])
        · intro h
          exact absurd h (by simp [flush_flushed])
        · intro _
          refine ⟨?_, ?_, s.core, ?_, ?_⟩
          · unfold flush
            split <;> exact hidle
          · unfold flush
            split <;> exact hnil
          · exact mem_eval.mpr ⟨ih.before hlive, ih.stuck hlive hidle hnil⟩
          · exact flush_out s

omit hsps hsettled in
/-- Chunks are fed until a step makes progress or none is left. -/
theorem Reached.drain (n : ℕ) (hs : R.Reached chunks s) (hlive : s.flushed = false)
    (hn : 2 * s.pending.length + (if s.running then 1 else 0) ≤ n) :
    ∃ t, R.Reached chunks t ∧ t.core = s.core ∧ t.flushed = false ∧
      ((t.running = true ∧ (R.stepOn t).1 ≠ none) ∨ (t.running = false ∧ t.pending = [])) := by
  -- on the chunks left, each counted with the `process` it starts
  induction n generalizing s with
  | zero =>
      have hnil : s.pending = [] := List.eq_nil_of_length_eq_zero (by omega)
      rcases hrun : s.running with _ | _
      · exact ⟨s, hs, rfl, hlive, Or.inr ⟨hrun, hnil⟩⟩
      · rw [hrun, if_pos rfl] at hn
        omega
  | succ n ih =>
      rcases hrun : s.running with _ | _
      · rcases hp : s.pending with _ | ⟨chunk, rest⟩
        · exact ⟨s, hs, rfl, hlive, Or.inr ⟨hrun, hp⟩⟩
        · have hadv : R.advance s
              = some { s with buf := s.buf.push chunk, pending := rest, running := true } := by
            simp [advance, hrun, hp]
          rw [hrun, hp, List.length_cons] at hn
          obtain ⟨t, ht, hdone⟩ := ih (hs.next hadv) hlive (by simp at hn ⊢; omega)
          exact ⟨t, ht, hdone⟩
      · rcases hstep : (R.stepOn s).1 with _ | core
        · rw [hrun, if_pos rfl] at hn
          obtain ⟨t, ht, hdone⟩ := ih (hs.next (advance_wait hrun hstep)) hlive (by simp; omega)
          exact ⟨t, ht, hdone⟩
        · exact ⟨s, hs, rfl, hlive, Or.inl ⟨hrun, by simp [hstep]⟩⟩

omit hsps in
/-- When the reference ends, so does the session. -/
theorem Reached.terminates {c : Core τ} (hs : R.Reached chunks s) (hlive : s.flushed = false)
    (hend : Reaches (R.idealStep chunks.flatten) s.core c)
    (hstuck : R.idealStep chunks.flatten c = none) :
    ∃ t, R.Reached chunks t ∧ t.flushed = true := by
  have hflush : ∀ t, R.Reached chunks t → t.flushed = false → t.running = false →
      t.pending = [] → ∃ t, R.Reached chunks t ∧ t.flushed = true := by
    intro t ht hl hidle hnil
    have hadv : R.advance t = some (R.flush t) := by simp [advance, hidle, hnil, hl]
    exact ⟨R.flush t, ht.next hadv, flush_flushed t⟩
  -- on the run of the reference to its end
  generalize hcore : s.core = a at hend
  induction hend using Relation.ReflTransGen.head_induction_on generalizing s with
  | refl =>
      obtain ⟨t, ht, htc, hl, ⟨hrun, hprog⟩ | ⟨hidle, hnil⟩⟩ := hs.drain _ hlive le_rfl
      · obtain ⟨core, hstep⟩ := Option.ne_none_iff_exists'.mp hprog
        have h := idealStep_of_progress ht (hsettled t ht) hrun hstep
        rw [htc, hcore, hstuck] at h
        exact absurd h (by simp)
      · exact hflush t ht hl hidle hnil
  | @head a b hab _ ih =>
      obtain ⟨t, ht, htc, hl, ⟨hrun, hprog⟩ | ⟨hidle, hnil⟩⟩ := hs.drain _ hlive le_rfl
      · obtain ⟨core, hstep⟩ := Option.ne_none_iff_exists'.mp hprog
        have h := idealStep_of_progress ht (hsettled t ht) hrun hstep
        rw [htc, hcore, Option.mem_def.mp hab, Option.some.injEq] at h
        exact ih (ht.next (advance_progress hrun hstep)) hl h.symm
      · exact hflush t ht hl hidle hnil

/-- **Refinement.**  A settled session ends exactly when the reference does, with its
frames. -/
theorem received_iff (frames : List ReceivedFrame) :
    R.Received chunks frames ↔
      ∃ c ∈ eval (R.idealStep chunks.flatten) (R.start chunks).core, frames = R.flushOut c := by
  constructor
  · rintro ⟨s, hs, hf, rfl⟩
    exact ((hs.onTrack hsps hsettled).after hf).2.2
  · rintro ⟨c, hc, rfl⟩
    obtain ⟨hreach, hstuck⟩ := mem_eval.mp hc
    obtain ⟨t, ht, hf⟩ := Reached.terminates hsettled (Transition.Reach.start rfl) rfl hreach hstuck
    obtain ⟨-, -, c', hc', hout⟩ := (ht.onTrack hsps hsettled).after hf
    rw [Part.mem_unique hc' hc] at hout
    exact ⟨t, ht, hf, hout⟩

end Refinement

/-- A run that is settled up to its end is settled. -/
theorem settled_of_runFor {R : Receiver α τ} {chunks : List (List α)} {len : ℕ} (n : ℕ)
    (hend : (R.advance (R.runFor (R.start chunks) n)).isNone = true)
    (hset : ∀ k < n + 1, R.Settled len (R.runFor (R.start chunks) k)) (s : Session α τ)
    (hs : R.Reached chunks s) : R.Settled len s := by
  obtain ⟨k, rfl⟩ := hs.exists_runFor
  rcases Nat.lt_or_ge k (n + 1) with hk | hk
  · exact hset k hk
  · obtain ⟨j, rfl⟩ := Nat.exists_eq_add_of_le (Nat.le_of_succ_le hk)
    rw [runFor_add n j (Option.isNone_iff_eq_none.mp hend)]
    exact hset n (by omega)

/-- **Chunk boundaries.**  Two ways of cutting a stream into chunks in which no read is
refused a sample of the stream yield the same frames. -/
theorem received_congr {as bs : List (List α)} (hcut : as.flatten = bs.flatten)
    (hsps : 0 < R.sps)
    (ha : ∀ s, R.Reached as s → R.Settled as.flatten.length s)
    (hb : ∀ s, R.Reached bs s → R.Settled bs.flatten.length s) (frames : List ReceivedFrame) :
    R.Received as frames ↔ R.Received bs frames := by
  rw [received_iff hsps ha, received_iff hsps hb, hcut]
  rfl

/-! ## A symbol whose refinement needs one sample more -/

/-- Cut in the preamble, or not at all. -/
theorem received_congr_sf5 :
    (gridReceiver sf5).Received [List.range 560]
      ((gridReceiver sf5).runFor
        ((gridReceiver sf5).start [List.range 100, List.range' 100 460]) 15).core.out :=
  ((gridReceiver sf5).received_congr
    (by decide +kernel) (by decide +kernel)
    (settled_of_runFor 15 (by decide +kernel) (by decide +kernel))
    (settled_of_runFor 15 (by decide +kernel) (by decide +kernel)) _).mp
    (received_runFor _ 15 (by decide +kernel))

/-- **The chunk boundary decides.**  Cut one sample before the later trial window is
complete, the first data symbol reads `0`; in one piece it reads `7`. -/
theorem chunk_boundary_matters :
    ¬ ∀ (R : Receiver ℕ Unit) (as bs : List (List ℕ)), as.flatten = bs.flatten →
      ∀ frames, R.Received as frames ↔ R.Received bs frames := by
  intro h
  have hcut : [List.range 2085, List.range' 2085 15].flatten = [List.range 2100].flatten := by
    have happend : List.range' 0 2085 ++ List.range' 2085 15 = List.range' 0 2100 :=
      List.range'_append
    simpa only [List.flatten_cons, List.flatten_nil, List.append_nil, List.range_eq_range']
      using happend
  obtain ⟨hsplit, hzero⟩ : ((gridReceiver sf7Chips).runFor
        ((gridReceiver sf7Chips).start [List.range 2085, List.range' 2085 15]) 13).flushed = true ∧
      ((gridReceiver sf7Chips).runFor
        ((gridReceiver sf7Chips).start [List.range 2085, List.range' 2085 15]) 13).core.out.map
          ReceivedFrame.rawValues = [[0]] := by
    decide +kernel
  obtain ⟨hone, hseven⟩ : ((gridReceiver sf7Chips).runFor
        ((gridReceiver sf7Chips).start [List.range 2100]) 11).flushed = true ∧
      ((gridReceiver sf7Chips).runFor ((gridReceiver sf7Chips).start [List.range 2100]) 11).core.out.map
          ReceivedFrame.rawValues = [[7]] := by
    decide +kernel
  have hsame := ((h _ _ _ hcut _).mp (received_runFor _ 13 hsplit)).unique
    (received_runFor _ 11 hone)
  rw [hsame, hseven] at hzero
  exact absurd hzero (by decide)

end Receiver
