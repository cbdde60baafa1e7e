/-
# The loop in `process` ends

A receiver is ranked by the sample it has come to, which is where the run that was found
begins until the search goes on past it, and then by the windows and symbols it has read
there.  Every pass that makes progress raises the rank (`onward_step`), and a pass makes
progress on samples that have been fed only, so no feed keeps `process` going
(`process_advances`).
-/
import QuadrfMesh.Receiver.Advance

open Asking Transition

namespace Receiver

variable {α τ : Type} {R : Receiver α τ} {p : LoraParams} {len : ℕ} {c c₁ : Core τ}

/-! ## Rank -/

/-- The sample a receiver has come to. -/
def anchor (c : Core τ) : ℕ :=
  match c.state with
  | .search => if c.runLen = 0 then c.scanAbs else c.runStartAbs
  | .sync | .data => c.foundAbs

/-- The windows and symbols it has read from there on. -/
def phase (c : Core τ) : ℕ :=
  match c.state with
  | .search => c.runLen
  | .sync => 6
  | .data => 7 + c.dataSym

theorem anchor_of_search (hstate : c.state = .search) :
    anchor c = if c.runLen = 0 then c.scanAbs else c.runStartAbs := by
  unfold anchor
  rw [hstate]

theorem phase_of_search (hstate : c.state = .search) : phase c = c.runLen := by
  unfold phase
  rw [hstate]

/-- The phases there are. -/
def phases (p : LoraParams) : ℕ := maxDataSyms p + 8

def rank (p : LoraParams) (c : Core τ) : ℕ := anchor c * phases p + phase c

/-- What the passes keep: a run lies behind the scan point and in what has been fed, and the
data lies on its grid. -/
structure Forward (p : LoraParams) (len : ℕ) (c : Core τ) : Prop where
  short : c.state = .search → c.runLen < 6
  run : c.state = .search → 0 < c.runLen → c.runStartAbs < c.scanAbs ∧ c.runStartAbs ≤ len
  found : c.state ≠ .search → c.foundAbs ≤ len
  data : c.state = .data → c.dataSym ≤ maxDataSyms p ∧ OnGrid p c

theorem Forward.mono {len' : ℕ} (h : Forward p len c) (hlen : len ≤ len') : Forward p len' c :=
  ⟨h.short, fun hs hr => ⟨(h.run hs hr).1, (h.run hs hr).2.trans hlen⟩,
    fun hs => (h.found hs).trans hlen, h.data⟩

/-- A search without a run. -/
theorem forward_of_search (hstate : c.state = .search) (hrun : c.runLen = 0) : Forward p len c := by
  refine ⟨fun _ => by omega, fun _ hpos => by omega, fun hne => absurd hstate hne, fun hdata => ?_⟩
  exact absurd (hstate.symm.trans hdata) (by decide)

theorem Forward.phase_lt (h : Forward p len c) : phase c < phases p := by
  unfold phase phases
  cases hstate : c.state with
  | search =>
      have := h.short hstate
      simp only
      omega
  | sync =>
      simp only
      omega
  | data =>
      have := (h.data hstate).1
      simp only
      omega

/-- A later sample ranks higher, whatever has been read there. -/
theorem rank_lt_of_anchor_lt (h : Forward p len c) (hanchor : anchor c < anchor c₁) :
    rank p c < rank p c₁ := by
  have hmul : (anchor c + 1) * phases p ≤ anchor c₁ * phases p :=
    Nat.mul_le_mul_right _ hanchor
  have hphase := h.phase_lt
  rw [add_mul, one_mul] at hmul
  unfold rank
  omega

/-- So does more read at the same one. -/
theorem rank_lt_of_phase_lt (hanchor : anchor c ≤ anchor c₁) (hphase : phase c < phase c₁) :
    rank p c < rank p c₁ := by
  have hmul : anchor c * phases p ≤ anchor c₁ * phases p := Nat.mul_le_mul_right _ hanchor
  unfold rank
  omega

/-- What ranks as high has come as far. -/
theorem anchor_le_of_rank_le (h : Forward p len c₁) (hrank : rank p c ≤ rank p c₁) :
    anchor c ≤ anchor c₁ := by
  by_contra hlt
  exact absurd (rank_lt_of_anchor_lt h (not_le.mp hlt)) (not_lt.mpr hrank)

/-- What ranks as high having read less has come further. -/
theorem anchor_lt_of_rank_le (hrank : rank p c ≤ rank p c₁) (hphase : phase c₁ < phase c) :
    anchor c < anchor c₁ := by
  by_contra hle
  exact absurd (rank_lt_of_phase_lt (not_lt.mp hle) hphase) (not_lt.mpr hrank)

/-! ## One pass -/

/-- A pass that makes progress reads what has been fed, and ranks the receiver higher. -/
structure Onward (p : LoraParams) (len : ℕ) (c c₁ : Core τ) : Prop where
  forward : Forward p len c₁
  rank_lt : rank p c < rank p c₁
  fed : anchor c ≤ len

/-- Back in the search. -/
theorem onward_resumed (h : Forward p len c) (hstate : c.state ≠ .search) (hresumed : Resumed c c₁) :
    Onward p len c c₁ := by
  have hanchor : anchor c = c.foundAbs := by
    unfold anchor
    cases hs : c.state with
    | search => exact absurd hs hstate
    | sync | data => rfl
  have hscan : anchor c₁ = c₁.scanAbs := by
    unfold anchor
    rw [hresumed.state]
    simp only
    rw [if_pos hresumed.runLen]
  refine ⟨forward_of_search hresumed.state hresumed.runLen, rank_lt_of_anchor_lt h ?_, ?_⟩
  · rw [hanchor, hscan]
    exact hresumed.scan
  · rw [hanchor]
    exact h.found hstate

/-- A frame is begun at its run. -/
theorem onward_begun (h : Forward p len c) (hstate : c.state = .sync) (hbegun : Begun p c c₁) :
    Onward p len c c₁ := by
  have hfound : c.foundAbs ≤ len := h.found (by simp [hstate])
  refine ⟨⟨fun hs => ?_, fun hs => ?_, fun _ => ?_, fun _ => ?_⟩, rank_lt_of_phase_lt ?_ ?_, ?_⟩
  · exact absurd (hbegun.state.symm.trans hs) (by decide)
  · exact absurd (hbegun.state.symm.trans hs) (by decide)
  · rw [hbegun.foundAbs]
    exact hfound
  · rw [hbegun.dataSym]
    exact ⟨Nat.zero_le _, hbegun.onGrid⟩
  · simp only [anchor, hstate, hbegun.state, hbegun.foundAbs, le_refl]
  · simp only [phase, hstate, hbegun.state]
    omega
  · simp only [anchor, hstate]
    exact hfound

/-- A symbol more. -/
theorem onward_collected (h : Forward p len c) (hstate : c.state = .data)
    (hcollected : Collected p c c₁) : Onward p len c c₁ := by
  have hfound : c.foundAbs ≤ len := h.found (by simp [hstate])
  refine ⟨⟨fun hs => ?_, fun hs => ?_, fun _ => ?_, fun _ => ?_⟩, rank_lt_of_phase_lt ?_ ?_, ?_⟩
  · exact absurd (hcollected.state.symm.trans hs) (by decide)
  · exact absurd (hcollected.state.symm.trans hs) (by decide)
  · rw [hcollected.foundAbs]
    exact hfound
  · exact ⟨hcollected.capped, hcollected.onGrid⟩
  · simp only [anchor, hstate, hcollected.state, hcollected.foundAbs, le_refl]
  · simp only [phase, hstate, hcollected.state, hcollected.dataSym]
    omega
  · simp only [anchor, hstate]
    exact hfound

/-- A run begins no earlier than the receiver has come to. -/
theorem anchor_le_runStart (h : Forward p len c) (hstate : c.state = .search) {scanAbs : ℕ}
    (hscan : c.scanAbs ≤ scanAbs) : anchor c ≤ runStart c scanAbs ∧ runStart c scanAbs ≤ scanAbs := by
  rw [anchor_of_search hstate, runStart]
  split_ifs with hnone
  · exact ⟨hscan, le_rfl⟩
  · have := h.run hstate (Nat.pos_of_ne_zero hnone)
    omega

/-- A window searched makes the run longer, or leaves it for what comes after it. -/
theorem onward_searchWindow (hos : 0 < R.os) (h : Forward p len c) (hstate : c.state = .search)
    {scanAbs : ℕ} (hscan : c.scanAbs ≤ scanAbs) (hfed : scanAbs + R.sps ≤ len) (pk : ChipPeak) :
    Onward p len c (R.searchWindow c scanAbs pk) := by
  have hsps := sps_pos hos
  have hphase := phase_of_search hstate
  obtain ⟨hstart, hbehind⟩ := anchor_le_runStart h hstate hscan
  have hnodata : c.state ≠ .data := by
    rw [hstate]
    decide
  have hcases := R.searchStep c scanAbs pk
  generalize R.searchWindow c scanAbs pk = next at hcases ⊢
  cases hcases with
  | found hlong =>
      refine ⟨⟨fun hs => ?_, fun hs => ?_, fun _ => ?_, fun hs => ?_⟩, ?_, by omega⟩
      · exact absurd hs (by simp)
      · exact absurd hs (by simp)
      · show runStart c scanAbs ≤ len
        omega
      · exact absurd hs (by simp)
      · refine rank_lt_of_phase_lt hstart ?_
        rw [hphase]
        exact h.short hstate
  | longer hshort =>
      refine ⟨⟨fun _ => hshort, fun _ _ => ?_, fun hs => absurd hstate hs,
        fun hs => absurd hs hnodata⟩, ?_, by omega⟩
      · show runStart c scanAbs < scanAbs + R.sps ∧ runStart c scanAbs ≤ len
        omega
      · refine rank_lt_of_phase_lt (hstart.trans_eq (Eq.symm ?_)) ?_
        · refine (anchor_of_search ?_).trans (if_neg (Nat.succ_ne_zero c.runLen))
          exact hstate
        · rw [hphase]
          refine (Nat.lt_succ_self c.runLen).trans_eq (Eq.symm ?_)
          exact phase_of_search hstate
  | @broken chip runLen hrun =>
      refine ⟨⟨fun _ => ?_, fun _ _ => ?_, fun hs => absurd hstate hs,
        fun hs => absurd hs hnodata⟩, rank_lt_of_anchor_lt h (lt_of_lt_of_eq ?_ (Eq.symm
          (anchor_of_search ?_))), by omega⟩
      · show runLen < 6
        omega
      · show scanAbs < scanAbs + R.sps ∧ scanAbs ≤ len
        omega
      · show anchor c < if runLen = 0 then scanAbs + R.sps else scanAbs
        rcases hrun with hnone | ⟨hone, hsome⟩
        · rw [if_pos hnone]
          omega
        · -- the run that was there began before the window
          rw [if_neg (by omega), anchor_of_search hstate, if_neg hsome.ne']
          exact (h.run hstate hsome).1.trans_le hscan
      · exact hstate

/-- **Each pass** that makes progress goes onward. -/
theorem onward_step (hp : Paced R.params) (hslope : SlopeInRange R)
    (h : Forward R.params len c) :
    ReturnsIf (Request.Truthful len) (fun out => ∀ c₁, out = some c₁ → Onward R.params len c c₁)
      (R.step c) := by
  unfold step
  split
  · rename_i hstate
    refine returnsIf_request _ fun scanAbs hscan => returnsIf_request _ fun ready hready => ?_
    split
    · rename_i hgo
      refine returnsIf_bind _ fun win => ?_
      rintro _ ⟨⟩
      exact onward_searchWindow hp.os_pos h hstate hscan (hready hgo) _
    · refine returnsIf_bind _ fun _ => ?_
      rintro c₁ ⟨⟩
  · rename_i hstate
    refine (returnsIf_stepSync hp hslope).mono fun out hout c₁ hc₁ => ?_
    rcases hout c₁ hc₁ with hresumed | hbegun
    · exact onward_resumed h (by simp [hstate]) hresumed
    · exact onward_begun h hstate hbegun
  · rename_i hstate
    refine (returnsIf_stepData hp hstate (h.data hstate).2).mono fun out hout c₁ hc₁ => ?_
    rcases hout c₁ hc₁ with hresumed | hcollected
    · exact onward_resumed h (by simp [hstate]) hresumed
    · exact onward_collected h hstate hcollected

/-! ## Any calls -/

section Calls

variable {s t : InUse α τ} {a : Call α}

/-- One step of a receiver with parameters `p`, whose preamble slopes are in range. -/
def RangedStep (p : LoraParams) (s : InUse α τ) (a : Call α) (t : InUse α τ) : Prop :=
  ∃ R : Receiver α τ, R.params = p ∧ SlopeInRange R ∧ R.call s a = some t

/-- What a computation asks does not change what has been fed. -/
theorem nextAbs_runOn {β : Type} (m : Memory α) (r : Reading α β) :
    (R.runOn m r).2.nextAbs = m.nextAbs :=
  Asking.run_invariant (fun m' : Memory α => m'.nextAbs = m.nextAbs)
    (fun m' q hm' => (m'.serve_truthful R.dsp.farrowTap q hm').2) r m rfl

/-- What the answers of a buffer lead to. -/
theorem run_truthful {β : Type} {P : β → Prop} {m : Memory α} {r : Reading α β}
    (h : ReturnsIf (Request.Truthful m.nextAbs) P r) : P (R.runOn m r).1 :=
  h.run (I := fun m' => m'.nextAbs = m.nextAbs)
    (fun m' q hm' => m'.serve_truthful R.dsp.farrowTap q hm') rfl

/-- A pass in use. -/
theorem onward_pass (hp : Paced R.params) (hslope : SlopeInRange R)
    (h : Forward R.params s.mem.nextAbs s.core) (hcall : R.call s .pass = some t) :
    t.mem.nextAbs = s.mem.nextAbs ∧ ((t.core = s.core ∧ t.running = false) ∨
      Onward R.params s.mem.nextAbs s.core t.core) := by
  have honward := run_truthful (R := R) (onward_step hp hslope h)
  have hnext := nextAbs_runOn (R := R) s.mem (R.step s.core)
  simp only [call] at hcall
  split_ifs at hcall
  split at hcall
  all_goals
    rename_i hrun
    rw [hrun] at honward hnext
    obtain rfl := Option.some.inj hcall
  · exact ⟨hnext, Or.inr (honward _ rfl)⟩
  · exact ⟨hnext, Or.inl ⟨rfl, rfl⟩⟩

/-- **Each call goes forward**, and all but `reset` leave the receiver ranked as high. -/
theorem Forward.call (hp : Paced p) (h : Forward p s.mem.nextAbs s.core)
    (hcall : RangedStep p s a t) :
    Forward p t.mem.nextAbs t.core ∧ (a ≠ .reset → rank p s.core ≤ rank p t.core) := by
  obtain ⟨R, rfl, hslope, hcall⟩ := hcall
  cases a with
  | feed chunk =>
      simp only [Receiver.call] at hcall
      split_ifs at hcall
      obtain rfl := Option.some.inj hcall
      exact ⟨h.mono (Nat.le_add_right _ _), fun _ => le_rfl⟩
  | pass =>
      obtain ⟨hnext, ⟨hcore, -⟩ | honward⟩ := onward_pass hp hslope h hcall
      · rw [hnext, hcore]
        exact ⟨h, fun _ => le_rfl⟩
      · rw [hnext]
        exact ⟨honward.forward, fun _ => honward.rank_lt.le⟩
  | flush =>
      simp only [Receiver.call] at hcall
      split_ifs at hcall
      split at hcall
      · rename_i hstate
        obtain rfl := Option.some.inj hcall
        have hresumed : Resumed s.core (R.runOn s.mem (R.finalizeData s.core)).1 :=
          run_truthful (returnsIf_finalizeData hp.os_pos (h.data hstate).2.start)
        have honward := onward_resumed h (by simp [hstate]) hresumed
        refine ⟨?_, fun _ => honward.rank_lt.le⟩
        exact forward_of_search hresumed.state hresumed.runLen
      · obtain rfl := Option.some.inj hcall
        exact ⟨h, fun _ => le_rfl⟩
  | pop =>
      simp only [Receiver.call] at hcall
      split_ifs at hcall
      obtain rfl := Option.some.inj hcall
      exact ⟨⟨h.short, h.run, h.found, fun hs => ⟨(h.data hs).1, (h.data hs).2.ratio,
        (h.data hs).2.timing, (h.data hs).2.start⟩⟩, fun _ => le_rfl⟩
  | reset =>
      simp only [Receiver.call] at hcall
      split_ifs at hcall
      obtain rfl := Option.some.inj hcall
      exact ⟨forward_of_search rfl rfl, fun hne => absurd rfl hne⟩

theorem Forward.new (h : New s) : Forward p s.mem.nextAbs s.core := by
  obtain ⟨tracker, rfl⟩ := h
  exact forward_of_search rfl rfl

theorem Forward.reached (hp : Paced p) (h : Reach New (RangedStep p) s) :
    Forward p s.mem.nextAbs s.core :=
  Reach.invariant (fun s : InUse α τ => Forward p s.mem.nextAbs s.core)
    (fun _ h0 => Forward.new h0) (fun _ _ _ hs hst => (hs.call hp hst).1) h

/-- The steps of a receiver that is not reset. -/
def Unreset (p : LoraParams) : InUse α τ → Call α → InUse α τ → Prop :=
  Restrict (RangedStep p) fun _ a => a ≠ .reset

/-- **Run lemma**: without a reset the rank never falls. -/
theorem Forward.unreset (hp : Paced p) (h : Forward p s.mem.nextAbs s.core)
    (hrun : Reach (· = s) (Unreset p) t) :
    Forward p t.mem.nextAbs t.core ∧ rank p s.core ≤ rank p t.core := by
  refine Reach.invariant (fun t : InUse α τ =>
    Forward p t.mem.nextAbs t.core ∧ rank p s.core ≤ rank p t.core) ?_ ?_ hrun
  · rintro _ rfl
    exact ⟨h, le_rfl⟩
  · rintro _ a _ ⟨hforward, hrank⟩ ⟨hcall, hne⟩
    obtain ⟨hforward', hrank'⟩ := hforward.call hp hcall
    exact ⟨hforward', hrank.trans (hrank' hne)⟩

/-- `n` passes of the loop in `process`, each on the signal processing it finds. -/
def process (Rs : ℕ → Receiver α τ) (s : InUse α τ) : ℕ → InUse α τ
  | 0 => s
  | n + 1 => ((Rs n).call (process Rs s n) .pass).getD (process Rs s n)

/-- The passes that `len` samples fed can keep `process` going for. -/
def passBound (p : LoraParams) (len : ℕ) : ℕ := (len + 1) * phases p + 2

section Process

variable {Rs : ℕ → Receiver α τ} (hp : Paced p)
  (hRs : ∀ n, (Rs n).params = p ∧ SlopeInRange (Rs n))
  (h : Forward p s.mem.nextAbs s.core)
include hp hRs h

/-- The passes go forward on the samples that there are. -/
theorem forward_process (n : ℕ) :
    (process Rs s n).mem.nextAbs = s.mem.nextAbs ∧
      Forward p s.mem.nextAbs (process Rs s n).core := by
  induction n with
  | zero => exact ⟨rfl, h⟩
  | succ n ih =>
      obtain ⟨hnext, hforward⟩ := ih
      obtain ⟨rfl, hslope⟩ := hRs n
      rw [← hnext] at hforward
      rw [process]
      rcases hcall : (Rs n).call (process Rs s n) .pass with _ | t
      · exact ⟨hnext, hnext ▸ hforward⟩
      · obtain ⟨hsame, ⟨hcore, -⟩ | honward⟩ := onward_pass hp hslope hforward hcall
        · rw [Option.getD_some, hcore]
          exact ⟨hsame.trans hnext, hnext ▸ hforward⟩
        · exact ⟨hsame.trans hnext, hnext ▸ honward.forward⟩

/-- As long as `process` goes on, each pass goes onward. -/
theorem onward_process (n : ℕ) (hgo : (process Rs s n).running = true)
    (hmore : (process Rs s (n + 1)).running = true) :
    Onward p s.mem.nextAbs (process Rs s n).core (process Rs s (n + 1)).core := by
  obtain ⟨hnext, hforward⟩ := forward_process hp hRs h n
  obtain ⟨rfl, hslope⟩ := hRs n
  rw [← hnext] at hforward ⊢
  rw [process] at hmore ⊢
  rcases hcall : (Rs n).call (process Rs s n) .pass with _ | t
  · simp only [call, hgo, if_true] at hcall
    split at hcall <;> exact absurd hcall (by simp)
  · rw [hcall] at hmore
    obtain ⟨-, ⟨-, hidle⟩ | honward⟩ := onward_pass hp hslope hforward hcall
    · exact absurd (hidle.symm.trans hmore) (by decide)
    · exact honward

/-- **`process` ends.** -/
theorem process_stops : ∃ n ≤ passBound p s.mem.nextAbs, (process Rs s n).running = false := by
  have hbound : ∀ n, (process Rs s n).running = true → (process Rs s (n + 1)).running = true →
      rank p (process Rs s n).core ≤ (s.mem.nextAbs + 1) * phases p := by
    intro n hgo hmore
    have hphase := (forward_process hp hRs h n).2.phase_lt
    have hfed := (onward_process hp hRs h n hgo hmore).fed
    have hmul : anchor (process Rs s n).core * phases p ≤ s.mem.nextAbs * phases p :=
      Nat.mul_le_mul_right _ hfed
    rw [add_mul, one_mul]
    unfold rank
    omega
  obtain ⟨n, hn, hstop⟩ := exists_stop (fun t : InUse α τ => t.running = true)
    (fun t => rank p t.core) (fun n hgo hmore => (onward_process hp hRs h n hgo hmore).rank_lt) hbound
  exact ⟨n, hn, Bool.eq_false_iff.mpr hstop⟩

end Process

/-- **`process` ends on every feed.**  Whatever the signal processing returns, from one pass
to the next, the loop stops within a number of passes that depends on the samples fed only;
and a search that leads to a sync, and on to the next search, begins behind the run that was
found and goes on past it. -/
theorem process_advances (hp : Paced p) (hs : Reach New (RangedStep p) s) :
    (∀ Rs : ℕ → Receiver α τ, (∀ n, (Rs n).params = p ∧ SlopeInRange (Rs n)) →
      ∃ n ≤ passBound p s.mem.nextAbs, (process Rs s n).running = false) ∧
    (s.core.state = .search → s.core.runLen = 0 →
      ∀ t, Reach (· = s) (Unreset p) t → t.core.state = .sync →
        ∀ u, Reach (· = t) (Unreset p) u → u.core.state = .search →
          s.core.scanAbs ≤ t.core.foundAbs ∧ t.core.foundAbs < u.core.scanAbs) := by
  have hforward := Forward.reached hp hs
  refine ⟨fun Rs hRs => process_stops hp hRs hforward, ?_⟩
  intro hsearch hnone t hst hsync u htu hback
  obtain ⟨hforwardT, hrankT⟩ := hforward.unreset hp hst
  obtain ⟨hforwardU, hrankU⟩ := hforwardT.unreset hp htu
  have hbegin : anchor s.core = s.core.scanAbs := (anchor_of_search hsearch).trans (if_pos hnone)
  have hfound : anchor t.core = t.core.foundAbs := by simp only [anchor, hsync]
  have hphase : phase u.core < phase t.core := by
    rw [phase_of_search hback, show phase t.core = 6 by simp only [phase, hsync]]
    exact hforwardU.short hback
  have hend : anchor u.core ≤ u.core.scanAbs := by
    rw [anchor_of_search hback]
    split_ifs with hrun
    · exact le_rfl
    · exact (hforwardU.run hback (Nat.pos_of_ne_zero hrun)).1.le
  rw [← hbegin, ← hfound]
  exact ⟨anchor_le_of_rank_le hforwardT hrankT, (anchor_lt_of_rank_le hrankU hphase).trans_le hend⟩

/-- The rest of the stream, a frame begun in it, and the flush that ends it. -/
def restCalls : List (Call ℕ) :=
  .feed (List.range' 200 360) :: (List.replicate 4 .pass ++ [.flush])

/-- A run at the first sample is synced to, and the search goes on behind its frame. -/
theorem process_advances_frame :
    ∃ s t u : InUse ℕ Unit,
      exec (gridReceiver sf5).call { core := { tracker := () } } [.feed (List.range 200)] = some s ∧
      s.running = true ∧
      (∃ n ≤ passBound sf5 s.mem.nextAbs, (process (fun _ => gridReceiver sf5) s n).running = false) ∧
      exec (gridReceiver sf5).call { core := { tracker := () } } runCalls = some t ∧
      exec (gridReceiver sf5).call t restCalls = some u ∧
      t.core.foundAbs < u.core.scanAbs := by
  have hpaced : Paced sf5 := paced_of_gains (by decide) (by decide) (by decide +kernel) rfl rfl
  have hslope : SlopeInRange (gridReceiver sf5) := by
    rintro samples slope ⟨⟩
    exact abs_zero_le_half_chips
  have hnew : New ({ core := { tracker := () } } : InUse ℕ Unit) := ⟨(), rfl⟩
  have hcalls : ∀ as : List (Call ℕ), (∀ a ∈ as, a ≠ .reset) → ∀ s t : InUse ℕ Unit,
      exec (gridReceiver sf5).call s as = some t → Reach (· = s) (Unreset sf5) t :=
    fun as has s t => Reach.exec_of
      (fun a ha _ _ hst => ⟨⟨gridReceiver sf5, rfl, hslope, hst⟩, has a ha⟩) (Reach.start rfl)
  have hsync : (exec (gridReceiver sf5).call { core := { tracker := () } } runCalls).map
      (fun s => s.core.state) = some .sync := by
    decide +kernel
  have hback : ((exec (gridReceiver sf5).call { core := { tracker := () } } runCalls).bind
      fun t => exec (gridReceiver sf5).call t restCalls).map (fun s => s.core.state) = some .search := by
    decide +kernel
  obtain ⟨t, ht, hsync⟩ := Option.map_eq_some_iff.mp hsync
  rw [ht, Option.bind_some] at hback
  obtain ⟨u, hu, hback⟩ := Option.map_eq_some_iff.mp hback
  obtain ⟨hstop, -⟩ := process_advances hpaced (Reach.next (a := .feed (List.range 200))
    (Reach.start hnew) ⟨gridReceiver sf5, rfl, hslope, rfl⟩)
  obtain ⟨-, hpast⟩ := (process_advances hpaced (Reach.start hnew)).2 rfl rfl t
    (hcalls _ (by simp [runCalls]) _ t ht) hsync u (hcalls _ (by simp [restCalls]) t u hu) hback
  exact ⟨_, t, u, rfl, rfl, hstop _ fun _ => ⟨rfl, hslope⟩, ht, hu, hpast⟩

end Calls

end Receiver
