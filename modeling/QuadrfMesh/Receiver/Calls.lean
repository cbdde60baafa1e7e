/-
# A receiver under any calls (`src/lora/receiver.cpp`)

`feed`, `flush`, `pop` and `reset` in any order, with `base_`, `buf_` and `next_abs_` as
three members of their own.  Whatever the signal processing returns, and from one pass of
`process` to the next it need not return the same, the three fit together, the windows of
`stepSearch` lie in the buffer, and a run once found stays buffered until sync has read it
(`buffer_fits`).
-/
import QuadrfMesh.Lib.Transition
import QuadrfMesh.Receiver.Session

open Transition

/-- `buf_`, `base_` and `next_abs_`. -/
structure Memory (α : Type) where
  buf : Buffer α := {}
  nextAbs : ℕ := 0

namespace Memory

variable {α : Type}

/-- The answers of the three: as `Buffer.serve`, but for the comparison with `next_abs_`. -/
def serve (tap : List α → ℚ → α) (m : Memory α) (q : Request) : q.Answer α × Memory α :=
  match q with
  | .arrived abs => (decide (abs ≤ m.nextAbs), m)
  | .trimFront keepFromAbs => ((), { m with buf := m.buf.trimFront keepFromAbs })
  | q => (m.buf.answer tap q, m)

/-- `base_ + buf_.size() == next_abs_`. -/
def Fits (m : Memory α) : Prop := m.buf.base + m.buf.samples.length = m.nextAbs

theorem base_le_trimFront (b : Buffer α) (keep : ℕ) : b.base ≤ (b.trimFront keep).base := by
  unfold Buffer.trimFront
  split_ifs
  · exact le_rfl
  · exact Nat.le_add_right _ _

/-- No more is let go of than asked. -/
theorem base_trimFront_le (b : Buffer α) (keep : ℕ) : (b.trimFront keep).base ≤ max b.base keep := by
  unfold Buffer.trimFront
  split_ifs
  · exact le_max_left _ _
  · simp only
    omega

theorem base_add_trimFront (b : Buffer α) (keep : ℕ) :
    (b.trimFront keep).base + (b.trimFront keep).samples.length = b.base + b.samples.length := by
  unfold Buffer.trimFront
  split_ifs
  · rfl
  · simp only [List.length_drop]
    omega

theorem base_le_serve (tap : List α → ℚ → α) (m : Memory α) (q : Request) :
    m.buf.base ≤ (m.serve tap q).2.buf.base := by
  cases q with
  | trimFront keep => exact base_le_trimFront m.buf keep
  | clampScan | arrived | rawWindow | resampleOrigin | preamble | kept | before | resample =>
      exact le_rfl

theorem Fits.serve {m : Memory α} (h : m.Fits) (tap : List α → ℚ → α) (q : Request) :
    (m.serve tap q).2.Fits := by
  cases q with
  | trimFront keep => exact (base_add_trimFront m.buf keep).trans h
  | clampScan | arrived | rawWindow | resampleOrigin | preamble | kept | before | resample => exact h

/-- A window asked for lies in the buffer. -/
def WindowInside (m : Memory α) : Request → Prop
  | .rawWindow abs len => m.buf.base ≤ abs ∧ abs + len ≤ m.buf.base + m.buf.samples.length
  | _ => True

end Memory

/-- A receiver in use: `running` inside `process`. -/
structure InUse (α τ : Type) where
  mem : Memory α := {}
  core : Core τ
  running : Bool := false

/-- The calls, and the passes of the loop in `process`. -/
inductive Call (α : Type)
  | feed (chunk : List α)
  | pass
  | flush
  | pop
  | reset

namespace Receiver

variable {α τ : Type} (R : Receiver α τ)

/-- A computation on the three members. -/
def runOn {β : Type} (m : Memory α) (r : Reading α β) : β × Memory α :=
  Asking.run (Memory.serve R.dsp.farrowTap) m r

/-- `pop`. -/
def pop (c : Core τ) : Core τ := { c with out := c.out.tail }

/-- `reset`, apart from the buffer. -/
def reset (c : Core τ) : Core τ := { c.restart 0 with out := [] }

/-- One call, or one pass; `none` where it has to wait. -/
def call (s : InUse α τ) : Call α → Option (InUse α τ)
  | .feed chunk =>
      if s.running then none
      else
        some { s with
          mem := { buf := s.mem.buf.push chunk, nextAbs := s.mem.nextAbs + chunk.length }
          running := true }
  | .pass =>
      if s.running then
        match R.runOn s.mem (R.step s.core) with
        | (some core, mem) => some { s with core, mem }
        | (none, mem) => some { s with mem, running := false }
      else none
  | .flush =>
      if s.running then none
      else
        match s.core.state with
        | .data =>
            let r := R.runOn s.mem (R.finalizeData s.core)
            some { s with core := r.1, mem := r.2 }
        | _ => some s
  | .pop => if s.running then none else some { s with core := pop s.core }
  | .reset => if s.running then none else some { s with mem := {}, core := reset s.core }

/-- One step of a receiver with parameters `p`, whose signal processing may be any. -/
def CallStep (p : LoraParams) (s : InUse α τ) (a : Call α) (t : InUse α τ) : Prop :=
  ∃ R : Receiver α τ, R.params = p ∧ R.call s a = some t

/-- A new receiver. -/
def New (s : InUse α τ) : Prop := ∃ tracker, s = { core := { tracker := tracker } }

/-! ## What a pass leaves -/

/-- The run of strong windows is buffered: while it builds, and until sync has read it. -/
structure RunKept (base : ℕ) (c : Core τ) : Prop where
  search : c.state = .search → 0 < c.runLen → base ≤ c.runStartAbs
  sync : c.state = .sync → base ≤ c.foundAbs

/-- There is no run. -/
def NoRun (c : Core τ) : Prop := c.state ≠ .sync ∧ (c.state = .search → c.runLen = 0)

theorem NoRun.runKept {c : Core τ} (h : NoRun c) (base : ℕ) : RunKept base c := by
  refine ⟨?_, ?_⟩
  · intro hstate hrun
    rw [h.2 hstate] at hrun
    exact absurd hrun (lt_irrefl 0)
  · intro hstate
    exact absurd hstate h.1

theorem noRun_restart (c : Core τ) (scanAbs : ℕ) : NoRun (c.restart scanAbs) :=
  ⟨by simp [Core.restart], fun _ => rfl⟩

variable {R}

/-- **A searched window** begins a run at the window, or goes on with one. -/
theorem RunKept.searchWindow {base : ℕ} {c : Core τ} (h : RunKept base c)
    (hstate : c.state = .search) {scanAbs : ℕ} (hscan : base ≤ scanAbs) (pk : ChipPeak) :
    RunKept base (R.searchWindow c scanAbs pk) := by
  have hstart : base ≤ runStart c scanAbs := by
    unfold runStart
    split_ifs with h0
    · exact hscan
    · exact h.search hstate (Nat.pos_of_ne_zero h0)
  have hnosync : c.state ≠ .sync := by
    rw [hstate]
    decide
  have hcases := R.searchStep c scanAbs pk
  generalize R.searchWindow c scanAbs pk = next at hcases ⊢
  cases hcases with
  | found hlong => exact ⟨fun hs => absurd hs (by simp), fun _ => hstart⟩
  | longer hshort => exact ⟨fun _ _ => hstart, fun hs => absurd hs hnosync⟩
  | broken hrun => exact ⟨fun _ _ => hscan, fun hs => absurd hs hnosync⟩

variable (R) in
/-- What a search that has to wait keeps. -/
def searchKeep (base : ℕ) (c : Core τ) : ℕ :=
  (if 0 < c.runLen then c.runStartAbs else max c.scanAbs base) - (R.sps / 2 + 8)

/-- `stepSearch` once it has clamped its scan point and compared it with what arrived. -/
theorem runOn_stepSearch (m : Memory α) (c : Core τ) :
    R.runOn m (R.stepSearch c)
      = R.runOn m
          (if decide (max c.scanAbs m.buf.base + R.sps ≤ m.nextAbs) then do
            let w ← Reading.rawWindow (max c.scanAbs m.buf.base) R.sps
            pure (some (R.searchWindow c (max c.scanAbs m.buf.base) (R.dsp.demod w false)))
          else do
            let _ ← Reading.trimFront (R.searchKeep m.buf.base c)
            pure none) := rfl

/-- A search with a window to look at. -/
theorem runOn_stepSearch_ready {m : Memory α} {c : Core τ}
    (hready : max c.scanAbs m.buf.base + R.sps ≤ m.nextAbs) :
    ∃ pk, R.runOn m (R.stepSearch c)
      = (some (R.searchWindow c (max c.scanAbs m.buf.base) pk), m) := by
  rw [runOn_stepSearch, decide_eq_true hready, if_pos rfl]
  exact ⟨_, rfl⟩

/-- A search that has to wait. -/
theorem runOn_stepSearch_wait {m : Memory α} {c : Core τ}
    (hwait : ¬ max c.scanAbs m.buf.base + R.sps ≤ m.nextAbs) :
    R.runOn m (R.stepSearch c)
      = (none, { m with buf := m.buf.trimFront (R.searchKeep m.buf.base c) }) := by
  rw [runOn_stepSearch, decide_eq_false hwait, if_neg Bool.false_ne_true]
  rfl

/-- **The windows of a search lie in the buffer.** -/
theorem asks_stepSearch {m : Memory α} (hfits : m.Fits) (c : Core τ) :
    Asking.Asks (Memory.serve R.dsp.farrowTap) Memory.WindowInside m (R.stepSearch c) := by
  refine ⟨trivial, trivial, ?_⟩
  show Asking.Asks (Memory.serve R.dsp.farrowTap) Memory.WindowInside m
    (if decide (max c.scanAbs m.buf.base + R.sps ≤ m.nextAbs) = true then _ else _)
  by_cases hready : max c.scanAbs m.buf.base + R.sps ≤ m.nextAbs
  · rw [decide_eq_true hready, if_pos rfl]
    refine ⟨⟨le_max_right _ _, ?_⟩, trivial⟩
    unfold Memory.Fits at hfits
    rw [hfits]
    exact hready
  · rw [decide_eq_false hready, if_neg Bool.false_ne_true]
    exact ⟨trivial, trivial⟩

/-- A search keeps the run it has, and what it finds. -/
theorem runKept_stepSearch {m : Memory α} {c : Core τ} (h : RunKept m.buf.base c)
    (hstate : c.state = .search) :
    RunKept (R.runOn m (R.stepSearch c)).2.buf.base ((R.runOn m (R.stepSearch c)).1.getD c) := by
  by_cases hready : max c.scanAbs m.buf.base + R.sps ≤ m.nextAbs
  · obtain ⟨pk, hrun⟩ := runOn_stepSearch_ready (R := R) hready
    rw [hrun]
    exact h.searchWindow hstate (le_max_right _ _) pk
  · rw [runOn_stepSearch_wait hready]
    refine ⟨?_, ?_⟩
    · rintro - (hrun : 0 < c.runLen)
      have hkeep : R.searchKeep m.buf.base c ≤ c.runStartAbs := by
        rw [searchKeep, if_pos hrun]
        exact Nat.sub_le _ _
      exact (Memory.base_trimFront_le m.buf _).trans (max_le (h.search hstate hrun) hkeep)
    · intro hsync
      exact absurd (hstate.symm.trans hsync) (by decide)

/-- Sync ends in the search, without a run, or in the data. -/
theorem SyncStep.noRun {c c₁ : Core τ} (h : R.SyncStep c (some c₁)) : NoRun c₁ := by
  cases h with
  | fail hfr => exact noRun_restart _ _
  | start hfr => exact ⟨by simp [startData], fun hs => absurd hs (by simp [startData])⟩

/-- `stepSync` once it has compared the span with what arrived. -/
theorem runOn_stepSync (m : Memory α) (c : Core τ) :
    R.runOn m (R.stepSync c)
      = R.runOn m
          (if decide (c.foundAbs + R.syncSpan + R.sps / 2 + 16 ≤ m.nextAbs) then do
            let origin ← Reading.resampleOrigin c.foundAbs (R.sps / 2)
            let span ← R.rateEstimate c.foundAbs origin.1 origin.2 R.syncSpan 3 0 [] 1
            match span with
            | none => some <$> R.syncFail c {}
            | some (resampled, ratio) =>
                some <$> R.syncResampled c origin.1 origin.2 resampled ratio
          else pure none) := rfl

/-- A sync that has to wait lets go of nothing. -/
theorem runOn_stepSync_none {m : Memory α} {c : Core τ}
    (h : (R.runOn m (R.stepSync c)).1 = none) : (R.runOn m (R.stepSync c)).2 = m := by
  have hsome : ∀ r : Reading α (Core τ), Asking.Returns (fun c' => c' ≠ none) (some <$> r) :=
    fun r => Asking.Returns.map some ((Asking.returns_true r).mono fun _ _ => Option.some_ne_none _)
  rw [runOn_stepSync] at h ⊢
  split_ifs at h ⊢ with hready
  · refine absurd h (Asking.Returns.run (P := fun c' => c' ≠ none) ?_ m)
    apply Asking.returns_bind
    intro origin
    apply Asking.returns_bind
    intro span
    split
    · exact hsome _
    · exact hsome _
  · rfl

/-- A sync keeps the run until it has read it. -/
theorem runKept_stepSync {m : Memory α} {c : Core τ} (h : RunKept m.buf.base c) :
    RunKept (R.runOn m (R.stepSync c)).2.buf.base ((R.runOn m (R.stepSync c)).1.getD c) := by
  cases hres : (R.runOn m (R.stepSync c)).1 with
  | none =>
      rw [runOn_stepSync_none hres]
      exact h
  | some c₁ =>
      have hcases : R.SyncStep c (R.runOn m (R.stepSync c)).1 := (returns_stepSync R c).run m
      rw [hres] at hcases
      exact hcases.noRun.runKept _

/-- A data symbol, or the end of the frame, leaves no run. -/
theorem runKept_stepData (m : Memory α) {c : Core τ} (hstate : c.state = .data) :
    RunKept (R.runOn m (R.stepData c)).2.buf.base ((R.runOn m (R.stepData c)).1.getD c) := by
  have hdata : ∀ c' : Core τ, c'.state = .data → NoRun c' :=
    fun c' hc' => ⟨by simp [hc'], fun hs => absurd (hc'.symm.trans hs) (by decide)⟩
  have hcases : R.DataStep c (R.runOn m (R.stepData c)).1 := (returns_stepData R c).run m
  generalize (R.runOn m (R.stepData c)).1 = res at hcases
  cases hcases with
  | wait => exact (hdata c hstate).runKept _
  | collect hmore hpass =>
      exact (hdata _ ((R.checkHeader_frame hpass).1.trans hstate)).runKept _
  | stop hmore hbad => exact (noRun_restart _ _).runKept _
  | close => exact (noRun_restart _ _).runKept _

/-- **Each pass keeps the run** that the next one needs. -/
theorem runKept_step {m : Memory α} {c : Core τ} (h : RunKept m.buf.base c) :
    RunKept (R.runOn m (R.step c)).2.buf.base ((R.runOn m (R.step c)).1.getD c) := by
  unfold step
  split
  · rename_i hstate
    exact runKept_stepSearch h hstate
  · exact runKept_stepSync h
  · rename_i hstate
    exact runKept_stepData m hstate

/-- What a computation asks leaves the members together, and lets go of samples only. -/
theorem runOn_mem {β : Type} {m : Memory α} (h : m.Fits) (r : Reading α β) :
    (R.runOn m r).2.Fits ∧ m.buf.base ≤ (R.runOn m r).2.buf.base := by
  refine ⟨?_, ?_⟩
  · exact Asking.run_invariant Memory.Fits (fun m q hm => hm.serve _ q) r m h
  · refine Asking.run_invariant (fun m' : Memory α => m.buf.base ≤ m'.buf.base) ?_ r m le_rfl
    intro m' q hm'
    exact hm'.trans (Memory.base_le_serve _ m' q)

/-! ## Any calls -/

variable {p : LoraParams} {s t : InUse α τ} {a : Call α}

/-- The members fit together, and the run is kept. -/
structure Good (s : InUse α τ) : Prop where
  fits : s.mem.Fits
  runKept : RunKept s.mem.buf.base s.core

theorem Good.new (h : New s) : Good s := by
  obtain ⟨tracker, rfl⟩ := h
  refine ⟨rfl, ?_⟩
  exact NoRun.runKept ⟨by simp, fun _ => rfl⟩ _

/-- A pass, with its two results. -/
theorem call_pass (h : R.call s .pass = some t) :
    t.mem = (R.runOn s.mem (R.step s.core)).2 ∧
      t.core = (R.runOn s.mem (R.step s.core)).1.getD s.core := by
  simp only [call] at h
  split_ifs at h
  split at h
  · rename_i hrun
    obtain rfl := Option.some.inj h
    rw [hrun]
    exact ⟨rfl, rfl⟩
  · rename_i hrun
    obtain rfl := Option.some.inj h
    rw [hrun]
    exact ⟨rfl, rfl⟩

/-- **Each call keeps the members together**, and all but `reset` let go of samples only. -/
theorem Good.call (h : Good s) (hcall : R.call s a = some t) :
    Good t ∧ (a ≠ .reset → s.mem.buf.base ≤ t.mem.buf.base) := by
  cases a with
  | feed chunk =>
      simp only [Receiver.call] at hcall
      split_ifs at hcall
      obtain rfl := Option.some.inj hcall
      refine ⟨⟨?_, h.runKept⟩, fun _ => le_rfl⟩
      have hfits := h.fits
      unfold Memory.Fits at hfits ⊢
      simp only [Buffer.push, List.length_append]
      omega
  | pass =>
      obtain ⟨hmem, hcore⟩ := call_pass hcall
      obtain ⟨hfits, hbase⟩ := runOn_mem (R := R) h.fits (R.step s.core)
      have hkept := runKept_step (R := R) h.runKept
      rw [← hmem] at hfits hbase hkept
      rw [← hcore] at hkept
      exact ⟨⟨hfits, hkept⟩, fun _ => hbase⟩
  | flush =>
      simp only [Receiver.call] at hcall
      split_ifs at hcall
      split at hcall
      · obtain rfl := Option.some.inj hcall
        obtain ⟨hfits, hbase⟩ := runOn_mem (R := R) h.fits (R.finalizeData s.core)
        exact ⟨⟨hfits, (noRun_restart _ _).runKept _⟩, fun _ => hbase⟩
      · obtain rfl := Option.some.inj hcall
        exact ⟨h, fun _ => le_rfl⟩
  | pop =>
      simp only [Receiver.call] at hcall
      split_ifs at hcall
      obtain rfl := Option.some.inj hcall
      exact ⟨⟨h.fits, ⟨h.runKept.search, h.runKept.sync⟩⟩, fun _ => le_rfl⟩
  | reset =>
      simp only [Receiver.call] at hcall
      split_ifs at hcall
      obtain rfl := Option.some.inj hcall
      refine ⟨⟨rfl, ?_⟩, fun hne => absurd rfl hne⟩
      exact NoRun.runKept ⟨by simp [reset, Core.restart], fun _ => rfl⟩ _

theorem Good.reached (h : Reach New (CallStep p) s) : Good s := by
  refine Reach.invariant Good ?_ ?_ h
  · intro _ h0
    exact Good.new h0
  · rintro _ _ _ hs ⟨R, -, hcall⟩
    exact (hs.call hcall).1

/-- **The buffer under any calls.**  `base_`, `buf_` and `next_abs_` fit together; only
`reset` moves `base_` back; a search reads windows that lie in the buffer; and a sync finds
its run buffered. -/
theorem buffer_fits (h : Reach New (CallStep p) s) :
    s.mem.buf.base + s.mem.buf.samples.length = s.mem.nextAbs ∧
      (∀ a t, CallStep p s a t → a ≠ .reset → s.mem.buf.base ≤ t.mem.buf.base) ∧
      (∀ R : Receiver α τ, Asking.Asks (Memory.serve R.dsp.farrowTap) Memory.WindowInside s.mem
        (R.stepSearch s.core)) ∧
      (s.core.state = .sync → s.mem.buf.base ≤ s.core.foundAbs) := by
  have hgood := Good.reached h
  refine ⟨hgood.fits, ?_, ?_, hgood.runKept.sync⟩
  · rintro a t ⟨R, -, hcall⟩ hne
    exact (hgood.call hcall).2 hne
  · intro R
    exact asks_stepSearch hgood.fits s.core

/-- A stream in which a run is found. -/
def runCalls : List (Call ℕ) := .feed (List.range 200) :: List.replicate 7 .pass

/-- The run found at the first sample is still there when sync waits for the rest. -/
theorem buffer_fits_run :
    ∃ s : InUse ℕ Unit, exec (gridReceiver sf5).call { core := { tracker := () } } runCalls = some s ∧
      s.core.state = .sync ∧ s.mem.buf.base + s.mem.buf.samples.length = s.mem.nextAbs ∧
      s.mem.buf.base ≤ s.core.foundAbs := by
  have hstate : (exec (gridReceiver sf5).call { core := { tracker := () } } runCalls).map
      (fun s => s.core.state) = some .sync := by
    decide +kernel
  obtain ⟨s, hs, hsync⟩ := Option.map_eq_some_iff.mp hstate
  have hnew : New ({ core := { tracker := () } } : InUse ℕ Unit) := ⟨(), rfl⟩
  have hreach : Reach New (CallStep sf5) s :=
    Reach.exec_of (fun _ _ _ _ hst => ⟨gridReceiver sf5, rfl, hst⟩) (Reach.start hnew) hs
  obtain ⟨hfits, -, -, hfound⟩ := buffer_fits hreach
  exact ⟨s, hs, hsync, hfits, hfound hsync⟩

/-! ## Sessions -/

/-- `next_abs_` where the buffered samples end. -/
def memoryOf (b : Buffer α) : Memory α := { buf := b, nextAbs := b.nextAbs }

/-- A computation cannot tell whether `next_abs_` is kept or computed. -/
theorem runOn_memoryOf {β : Type} (b : Buffer α) (r : Reading α β) :
    R.runOn (memoryOf b) r
      = ((Asking.run R.serve b r).1, memoryOf (Asking.run R.serve b r).2) := by
  have hserve : ∀ (m : Memory α) (b : Buffer α) (q : Request), m = memoryOf b → True →
      (m.serve R.dsp.farrowTap q).1 = (R.serve b q).1 ∧
        (m.serve R.dsp.farrowTap q).2 = memoryOf (R.serve b q).2 := by
    rintro _ b q rfl -
    cases q with
    | trimFront keep =>
        refine ⟨rfl, ?_⟩
        have hnext : b.nextAbs = (b.trimFront keep).nextAbs := (Memory.base_add_trimFront b keep).symm
        show ({ buf := b.trimFront keep, nextAbs := b.nextAbs } : Memory α)
          = { buf := b.trimFront keep, nextAbs := (b.trimFront keep).nextAbs }
        rw [hnext]
    | clampScan | arrived | rawWindow | resampleOrigin | preamble | kept | before | resample =>
        exact ⟨rfl, rfl⟩
  obtain ⟨hres, hmem⟩ := Asking.run_simulates (fun m b => m = memoryOf b) (fun _ _ => True) hserve r
    (memoryOf b) b rfl (Asking.asks_true r _)
  exact Prod.ext hres hmem

/-- A session as a receiver in use. -/
def inUse (s : Session α τ) : InUse α τ :=
  { mem := memoryOf s.buf, core := s.core, running := s.running }

/-- **A session makes calls**: each thing that happens in it is one. -/
theorem advance_call {s t : Session α τ} (h : R.advance s = some t) :
    ∃ a, R.call (inUse s) a = some (inUse t) := by
  rcases advance_cases h with ⟨hrun, core, hstep, rfl⟩ | ⟨hrun, hstep, rfl⟩ |
    ⟨hidle, chunk, rest, -, rfl⟩ | ⟨hidle, -, -, rfl⟩
  · refine ⟨.pass, ?_⟩
    have hpass : R.runOn (memoryOf s.buf) (R.step s.core)
        = (some core, memoryOf (R.stepOn s).2) := by
      rw [runOn_memoryOf, ← hstep]
      rfl
    simp only [call, inUse, hrun, if_true, hpass]
  · refine ⟨.pass, ?_⟩
    have hpass : R.runOn (memoryOf s.buf) (R.step s.core) = (none, memoryOf (R.stepOn s).2) := by
      rw [runOn_memoryOf, ← hstep]
      rfl
    simp only [call, inUse, hrun, if_true, hpass]
  · refine ⟨.feed chunk, ?_⟩
    have hnext : (s.buf.push chunk).nextAbs = s.buf.nextAbs + chunk.length := by
      simp only [Buffer.nextAbs, Buffer.push, List.length_append]
      omega
    simp only [call, inUse, hidle, Bool.false_eq_true, if_false, memoryOf, hnext]
  · refine ⟨.flush, ?_⟩
    unfold Receiver.flush
    cases hstate : s.core.state with
    | data => simp only [call, inUse, hidle, Bool.false_eq_true, if_false, hstate, runOn_memoryOf]
    | search => simp only [call, inUse, hidle, Bool.false_eq_true, if_false, hstate]
    | sync => simp only [call, inUse, hidle, Bool.false_eq_true, if_false, hstate]

end Receiver
