/-
# Labelled transition systems

States reached by steps from an initial state, the invariant rule, and the system
whose steps must also meet a condition on the state they are taken in.
-/
import Mathlib

namespace Transition

variable {S A : Type*}

/-- The states a run reaches: initial states, and successors of reached states. -/
inductive Reach (init : S → Prop) (step : S → A → S → Prop) : S → Prop
  | start {s : S} (h : init s) : Reach init step s
  | next {s : S} {a : A} {t : S} (h : Reach init step s) (hst : step s a t) : Reach init step t

variable {init : S → Prop} {step : S → A → S → Prop}

/-- **The invariant rule.**  What holds initially and survives every step holds in
every reached state. -/
theorem Reach.invariant (Inv : S → Prop) (h0 : ∀ s, init s → Inv s)
    (hstep : ∀ s a t, Inv s → step s a t → Inv t) {s : S} (h : Reach init step s) : Inv s := by
  induction h with
  | start h => exact h0 _ h
  | next _ hst ih => exact hstep _ _ _ ih hst

/-- The steps taken in a state that meets `ok`. -/
def Restrict (step : S → A → S → Prop) (ok : S → A → Prop) (s : S) (a : A) (t : S) : Prop :=
  step s a t ∧ ok s a

/-! ## Step functions -/

/-- The step relation of a partial step function. -/
def Steps (f : S → A → Option S) (s : S) (a : A) (t : S) : Prop := f s a = some t

/-- The state after a list of actions, if each of them can be taken. -/
def exec (f : S → A → Option S) : S → List A → Option S
  | s, [] => some s
  | s, a :: as => (f s a).bind fun t => exec f t as

theorem exec_append (f : S → A → Option S) (s : S) (as bs : List A) :
    exec f s (as ++ bs) = (exec f s as).bind fun t => exec f t bs := by
  induction as generalizing s with
  | nil => rfl
  | cons a as ih =>
      simp only [List.cons_append, exec, Option.bind_assoc]
      congr 1
      funext t
      exact ih t

/-- What a list of actions leads to is reached, if each of them is a step. -/
theorem Reach.exec_of {f : S → A → Option S} {s t : S} {as : List A}
    (hstep : ∀ a ∈ as, ∀ s t, f s a = some t → step s a t) (hs : Reach init step s)
    (h : exec f s as = some t) : Reach init step t := by
  induction as generalizing s with
  | nil =>
      obtain rfl : s = t := Option.some.inj h
      exact hs
  | cons a as ih =>
      obtain ⟨u, hu, hrest⟩ := Option.bind_eq_some_iff.mp h
      obtain ⟨ha, has⟩ := List.forall_mem_cons.mp hstep
      exact ih has (Reach.next hs (ha s u hu)) hrest

/-- What a list of actions leads to is reached. -/
theorem Reach.exec {f : S → A → Option S} {s t : S} {as : List A}
    (hs : Reach init (Steps f) s) (h : exec f s as = some t) : Reach init (Steps f) t :=
  Reach.exec_of (fun _ _ _ _ hst => hst) hs h

/-- A step function that also tests a condition on the state. -/
def guarded (f : S → A → Option S) (ok : S → A → Prop) [∀ s a, Decidable (ok s a)] (s : S)
    (a : A) : Option S :=
  if ok s a then f s a else none

/-- What a list of actions leads to under the test is reached by steps that meet it. -/
theorem Reach.exec_guarded {f : S → A → Option S} {ok : S → A → Prop}
    [∀ s a, Decidable (ok s a)] {s t : S} {as : List A}
    (hs : Reach init (Restrict (Steps f) ok) s)
    (h : Transition.exec (guarded f ok) s as = some t) :
    Reach init (Restrict (Steps f) ok) t := by
  refine Reach.exec_of (fun a _ s t hst => ?_) hs h
  unfold guarded at hst
  split at hst
  · rename_i hok
    exact ⟨hst, hok⟩
  · exact absurd hst (by simp)

/-! ## Total steps -/

/-- **The invariant rule, both ways.**  What a step keeps exactly if it meets a condition holds
after a run exactly if it held before and each step of the run met the condition. -/
theorem foldl_iff {f : S → A → S} {P : S → Prop} {ok : S → A → Prop}
    (hstep : ∀ s a, P (f s a) ↔ P s ∧ ok s a) (s : S) (as : List A) :
    P (as.foldl f s) ↔
      P s ∧ ∀ (k : ℕ) (a : A), as[k]? = some a → ok ((as.take k).foldl f s) a := by
  induction as generalizing s with
  | nil => exact (and_iff_left fun k a hk => absurd hk (by simp)).symm
  | cons a as ih =>
      rw [List.foldl_cons, ih, hstep, and_assoc]
      refine and_congr_right fun _ => ⟨?_, fun h => ⟨h 0 a rfl, fun k b hk => h (k + 1) b hk⟩⟩
      rintro ⟨hfirst, hrest⟩ (_ | k) b hk
      · obtain rfl := Option.some.inj hk
        exact hfirst
      · exact hrest k b hk

/-! ## Runs that end -/

/-- **The ranking rule.**  A run whose rank grows as long as it goes on, and is bounded there,
stops. -/
theorem exists_stop {S : Type*} {σ : ℕ → S} (goes : S → Prop) (rank : S → ℕ) {bound : ℕ}
    (hgrow : ∀ n, goes (σ n) → goes (σ (n + 1)) → rank (σ n) < rank (σ (n + 1)))
    (hbound : ∀ n, goes (σ n) → goes (σ (n + 1)) → rank (σ n) ≤ bound) :
    ∃ n ≤ bound + 2, ¬ goes (σ n) := by
  by_contra hnone
  push Not at hnone
  -- as long as the run goes on, each step adds one
  have hle : ∀ n ≤ bound + 2, n ≤ rank (σ n) := by
    intro n hn
    induction n with
    | zero => exact Nat.zero_le _
    | succ n ih =>
        have := ih (by omega)
        have := hgrow n (hnone n (by omega)) (hnone (n + 1) hn)
        omega
  have h1 := hle (bound + 1) (by omega)
  have h2 := hbound (bound + 1) (hnone _ (by omega)) (hnone _ (by omega))
  omega

end Transition
