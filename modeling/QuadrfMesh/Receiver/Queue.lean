/-
# What a session queues

The symbol a session reads next (`symbolRead`) and the state `finalizeData` is called in
next (`closing`), as functions of the session, and what a step does in their terms: it
leaves the frame alone, takes one symbol in, or queues one frame.  A frame that never
came to its data is queued without a decode.
-/
import QuadrfMesh.Receiver.FrameLength

open Transition

/-- What a pass of the loop in `stepData` comes to: more input is needed, a symbol is
read, or the frame ends. -/
inductive NextSymbol (τ : Type)
  | wait
  | read (r : SymbolReading τ)
  | close

namespace Receiver

variable {α τ : Type} (R : Receiver α τ)

/-! ## The next symbol -/

/-- A pass of the loop in `stepData` up to the symbol. -/
def nextSymbol (c : Core τ) : Reading α (NextSymbol τ) := do
  if R.collecting c then
    let kept ← Reading.kept c.dataRawF
    if kept then
      let inside ← Reading.before (c.dataRawF + R.stepLen c + 3)
      if inside then
        let win ← Reading.resample c.dataRawF c.totalRatio R.sps
        if win.length < R.sps then pure .wait
        else
          let r ← R.demodSymbol c win
          pure (.read r)
      else pure .wait
    else pure .close
  else pure .close

/-- The rest of the pass. -/
def afterSymbol (c : Core τ) : NextSymbol τ → Reading α (Option (Core τ))
  | .wait => pure none
  | .read r =>
      match R.collect c r with
      | some c' => pure (some c')
      | none => some <$> R.finalizeData (c.absorb r)
  | .close => some <$> R.finalizeData c

/-- `stepData` is the two in turn. -/
theorem stepData_eq (c : Core τ) : R.stepData c = R.nextSymbol c >>= R.afterSymbol c := by
  unfold stepData nextSymbol
  by_cases hmore : R.collecting c = true
  · simp only [hmore, if_true, bind_assoc]
    refine bind_congr fun kept => ?_
    cases kept with
    | false => rfl
    | true =>
        simp only [if_true, bind_assoc]
        refine bind_congr fun inside => ?_
        cases inside with
        | false => rfl
        | true =>
            simp only [if_true, bind_assoc]
            refine bind_congr fun win => ?_
            by_cases hshort : win.length < R.sps
            · simp only [hshort, if_true]
              rfl
            · simp only [hshort, if_false, bind_assoc]
              exact bind_congr fun r => rfl
  · simp only [hmore]
    rfl

/-- What the next pass comes to on the samples buffered now. -/
def found (s : Session α τ) : NextSymbol τ := (Asking.run R.serve s.buf (R.nextSymbol s.core)).1

/-- The symbol the next step of a session reads, if it reads one. -/
def symbolRead (s : Session α τ) : Option (SymbolReading τ) :=
  match s.running, s.core.state, R.found s with
  | true, .data, .read r => some r
  | _, _, _ => none

/-- The state in which the next step of a session calls `finalizeData`, if it does. -/
def closing (s : Session α τ) : Option (Core τ) :=
  match s.running, s.core.state with
  | true, .data =>
      match R.found s with
      | .wait => none
      | .read r => if (R.collect s.core r).isNone then some (s.core.absorb r) else none
      | .close => some s.core
  | false, .data => if s.pending.isEmpty && !s.flushed then some s.core else none
  | _, _ => none

/-! ## The end of sync -/

/-- The state in which the data starts, with nothing stored of an earlier frame. -/
structure EmptyData (c : Core τ) : Prop extends FreshData c where
  alts : c.altSyms = []
  soft : c.softMags = []

/-- What search and sync may leave of `c`: the frames queued, with one that was not
decoded after them at most, and where they find the data an empty frame. -/
structure Undecoded (c c' : Core τ) : Prop where
  out : c'.out = c.out ∨ ∃ f : ReceivedFrame, f.decode = {} ∧ c'.out = c.out ++ [f]
  data : c'.state = .data → EmptyData c'

variable {R}

/-- **A sync that finds the data** leaves an empty frame. -/
theorem SyncStep.undecoded {c c₁ : Core τ} (h : R.SyncStep c (some c₁)) : Undecoded c c₁ := by
  cases h with
  | @fail fr scanAbs hfr =>
      refine ⟨Or.inr ⟨fr, hfr, rfl⟩, ?_⟩
      intro hstate
      exact absurd hstate (by simp [Core.restart])
  | start hfr => exact ⟨Or.inl rfl, fun _ => ⟨⟨hfr, rfl, rfl, rfl⟩, rfl, rfl⟩⟩

theorem SearchStep.undecoded {c c₁ : Core τ} {scanAbs : ℕ} (h : R.SearchStep c scanAbs c₁)
    (hstate : c.state ≠ .data) : Undecoded c c₁ := by
  cases h with
  | found hlong => exact ⟨Or.inl rfl, fun hs => absurd hs (by simp)⟩
  | longer hshort => exact ⟨Or.inl rfl, fun hs => absurd hs hstate⟩
  | broken hrun => exact ⟨Or.inl rfl, fun hs => absurd hs hstate⟩

theorem returns_stepSearch (c : Core τ) (hstate : c.state ≠ .data) :
    Asking.Returns (fun c' => ∀ c₁, c' = some c₁ → Undecoded c c₁) (R.stepSearch c) := by
  unfold stepSearch
  apply Asking.returns_bind
  intro scanAbs
  apply Asking.returns_bind
  intro ready
  split
  · apply Asking.returns_bind
    rintro w c₁ ⟨⟩
    exact (R.searchStep c scanAbs _).undecoded hstate
  · apply Asking.returns_bind
    rintro _ c₁ ⟨⟩

/-! ## What a step does -/

variable {s t : Session α τ}

/-- Before the data no step reads a symbol or finalizes a frame. -/
theorem advance_idle (hstate : s.core.state ≠ .data) (h : R.advance s = some t) :
    R.symbolRead s = none ∧ R.closing s = none ∧ Undecoded s.core t.core := by
  have hsame : Undecoded s.core s.core := ⟨Or.inl rfl, fun h => absurd h hstate⟩
  refine ⟨?_, ?_, ?_⟩
  · unfold symbolRead
    split
    · rename_i hdata _
      exact absurd hdata hstate
    · rfl
  · unfold closing
    split
    · rename_i hdata
      exact absurd hdata hstate
    · rename_i hdata
      exact absurd hdata hstate
    · rfl
  · rcases advance_cases h with ⟨-, core, hstep, rfl⟩ | ⟨-, -, rfl⟩ | ⟨-, chunk, rest, -, rfl⟩ |
      ⟨-, -, -, rfl⟩
    · have hret : Asking.Returns (fun c' => ∀ c₁, c' = some c₁ → Undecoded s.core c₁)
          (R.step s.core) := by
        unfold step
        split
        · exact returns_stepSearch s.core hstate
        · exact (returns_stepSync R s.core).mono fun _ hout c₁ hc₁ => (hc₁ ▸ hout).undecoded
        · rename_i hdata
          exact absurd hdata hstate
      exact hret.run s.buf core hstep
    · exact hsame
    · exact hsame
    · unfold flush
      split
      · rename_i hdata
        exact absurd hdata hstate
      · exact hsame

/-- What a step in `process` comes to, by what the pass has found. -/
theorem stepOn_data_cases (hdata : s.core.state = .data) :
    (R.found s = .wait ∧ (R.stepOn s).1 = none) ∨
    (∃ r c', R.found s = .read r ∧ R.collect s.core r = some c' ∧ (R.stepOn s).1 = some c') ∨
    (∃ r scanAbs, R.found s = .read r ∧ R.collect s.core r = none ∧
      (R.stepOn s).1 = some ((R.emitFrame (s.core.absorb r)).restart scanAbs)) ∨
    ∃ scanAbs, R.found s = .close ∧ (R.stepOn s).1 = some ((R.emitFrame s.core).restart scanAbs) := by
  have hpass : (R.stepOn s).1
      = (Asking.run R.serve (Asking.run R.serve s.buf (R.nextSymbol s.core)).2
          (R.afterSymbol s.core (R.found s))).1 := by
    unfold stepOn step
    simp only [hdata]
    rw [stepData_eq, Asking.run_bind]
    rfl
  rw [hpass]
  rcases hfound : R.found s with _ | r | _
  · exact Or.inl ⟨rfl, rfl⟩
  · rw [afterSymbol]
    rcases hcol : R.collect s.core r with _ | c'
    · exact Or.inr (Or.inr (Or.inl ⟨r, _, rfl, hcol, rfl⟩))
    · exact Or.inr (Or.inl ⟨r, c', rfl, hcol, rfl⟩)
  · exact Or.inr (Or.inr (Or.inr ⟨_, rfl, rfl⟩))

theorem flush_data_core (hdata : s.core.state = .data) :
    ∃ scanAbs, (R.flush s).core = (R.emitFrame s.core).restart scanAbs := by
  unfold flush
  simp only [hdata]
  exact ⟨_, rfl⟩

/-- **The step cases while a frame is received**: nothing happens to it, the symbol read
passes the header check, or the frame is queued, with the symbol read if one was. -/
theorem advance_data (hdata : s.core.state = .data) (h : R.advance s = some t) :
    (t.core = s.core ∧ R.symbolRead s = none ∧ R.closing s = none) ∨
    (∃ r, R.symbolRead s = some r ∧ R.closing s = none ∧ R.collect s.core r = some t.core) ∨
    ∃ c scanAbs, R.closing s = some c ∧
      (R.symbolRead s = none ∧ c = s.core ∨
        ∃ r, R.symbolRead s = some r ∧ R.collect s.core r = none ∧ c = s.core.absorb r) ∧
      t.core = (R.emitFrame c).restart scanAbs := by
  rcases advance_cases h with ⟨hrun, core, hstep, rfl⟩ | ⟨hrun, hstep, rfl⟩ |
    ⟨hidle, chunk, rest, hp, rfl⟩ | ⟨hidle, hp, hf, rfl⟩
  · rcases stepOn_data_cases (R := R) hdata with ⟨-, hnone⟩ | ⟨r, c', hfound, hcol, hnext⟩ |
      ⟨r, scanAbs, hfound, hcol, hnext⟩ | ⟨scanAbs, hfound, hnext⟩
    · exact absurd (hstep.symm.trans hnone) (by simp)
    · obtain rfl : core = c' := Option.some.inj (hstep.symm.trans hnext)
      right
      left
      refine ⟨r, ?_, ?_, hcol⟩
      · simp [symbolRead, hrun, hdata, hfound]
      · simp [closing, hrun, hdata, hfound, hcol]
    · right
      right
      refine ⟨s.core.absorb r, scanAbs, ?_, Or.inr ⟨r, ?_, hcol, rfl⟩,
        Option.some.inj (hstep.symm.trans hnext)⟩
      · simp [closing, hrun, hdata, hfound, hcol]
      · simp [symbolRead, hrun, hdata, hfound]
    · right
      right
      refine ⟨s.core, scanAbs, ?_, Or.inl ⟨?_, rfl⟩, Option.some.inj (hstep.symm.trans hnext)⟩
      · simp [closing, hrun, hdata, hfound]
      · simp [symbolRead, hfound]
  · rcases stepOn_data_cases (R := R) hdata with ⟨hfound, -⟩ | ⟨r, c', -, -, hnext⟩ |
      ⟨r, scanAbs, -, -, hnext⟩ | ⟨scanAbs, -, hnext⟩
    · left
      refine ⟨rfl, ?_, ?_⟩
      · simp [symbolRead, hfound]
      · simp [closing, hrun, hdata, hfound]
    · exact absurd (hstep.symm.trans hnext) (by simp)
    · exact absurd (hstep.symm.trans hnext) (by simp)
    · exact absurd (hstep.symm.trans hnext) (by simp)
  · left
    refine ⟨rfl, ?_, ?_⟩
    · simp [symbolRead, hidle]
    · simp [closing, hidle, hdata, hp]
  · right
    right
    obtain ⟨scanAbs, hclose⟩ := flush_data_core (R := R) hdata
    refine ⟨s.core, scanAbs, ?_, Or.inl ⟨?_, rfl⟩, hclose⟩
    · simp [closing, hidle, hdata, hp, hf]
    · simp [symbolRead, hidle]

/-- **What is queued** in a step: nothing, a frame without a decode, or the frame of the
state `finalizeData` was called in. -/
theorem advance_out (h : R.advance s = some t) :
    (R.closing s = none ∧ (t.core.out = s.core.out ∨
      ∃ f : ReceivedFrame, f.decode = {} ∧ t.core.out = s.core.out ++ [f])) ∨
    ∃ c, R.closing s = some c ∧ t.core.out = s.core.out ++ [R.closeFrame c] := by
  by_cases hdata : s.core.state = .data
  · rcases advance_data hdata h with ⟨hsame, -, hnone⟩ | ⟨r, -, hnone, hpass⟩ |
      ⟨c, scanAbs, hclose, hc, ht⟩
    · rw [hsame]
      exact Or.inl ⟨hnone, Or.inl rfl⟩
    · exact Or.inl ⟨hnone, Or.inl (R.checkHeader_frame hpass).2⟩
    · refine Or.inr ⟨c, hclose, ?_⟩
      have hout : c.out = s.core.out := by
        rcases hc with ⟨-, rfl⟩ | ⟨r, -, -, rfl⟩ <;> rfl
      rw [ht, ← hout]
      rfl
  · obtain ⟨-, hnone, hidle⟩ := advance_idle hdata h
    exact Or.inl ⟨hnone, hidle.out⟩

/-- At the end of a session nothing is read and nothing finalized. -/
theorem ended (h : R.advance s = none) : R.symbolRead s = none ∧ R.closing s = none := by
  rw [advance] at h
  split at h
  · split at h <;> exact absurd h (by simp)
  · rename_i hidle
    split at h
    · exact absurd h (by simp)
    · rename_i hp
      split at h
      · rename_i hf
        cases hstate : s.core.state <;> simp [symbolRead, closing, hidle, hstate, hp, hf]
      · exact absurd h (by simp)

/-- **Run lemma for the queue.**  What holds of a frame without a decode holds of every
frame queued so far exactly when it holds of those `finalizeData` has queued. -/
theorem forall_queued_iff (P : ReceivedFrame → Prop) (hP : ∀ f, f.decode = {} → P f)
    (chunks : List (List α)) (n : ℕ) :
    (∀ f ∈ (R.runFor (R.start chunks) n).core.out, P f) ↔
      ∀ k < n, ∀ c, R.closing (R.runFor (R.start chunks) k) = some c → P (R.closeFrame c) := by
  induction n with
  | zero =>
      constructor
      · intro _ k hk
        exact absurd hk (by omega)
      · rintro - f hf
        exact absurd hf (by simp [runFor, start])
  | succ n ih =>
      -- the last step, after the others
      have hlast : (∀ f ∈ (R.runFor (R.start chunks) (n + 1)).core.out, P f) ↔
          (∀ f ∈ (R.runFor (R.start chunks) n).core.out, P f) ∧
            ∀ c, R.closing (R.runFor (R.start chunks) n) = some c → P (R.closeFrame c) := by
        rw [runFor]
        rcases hadv : R.advance (R.runFor (R.start chunks) n) with _ | t
        · rw [(ended hadv).2]
          simp
        · rcases advance_out hadv with ⟨hnone, hsame | ⟨f, hf, hqueued⟩⟩ | ⟨c, hclose, hqueued⟩
          · simp [hnone, hsame]
          · simp [hnone, hqueued, or_imp, forall_and, hP f hf]
          · simp [hclose, hqueued, or_imp, forall_and]
      rw [hlast, ih]
      constructor
      · rintro ⟨hbefore, hnow⟩ k hk
        rcases Nat.lt_or_eq_of_le (Nat.le_of_lt_succ hk) with hlt | rfl
        · exact hbefore k hlt
        · exact hnow
      · intro h
        exact ⟨fun k hk => h k (by omega), h n (by omega)⟩

end Receiver
