/-
# Programs that ask a server

A program that asks requests and goes on with each answer, its run against a server
with a state of its own, and the rule for two servers it cannot tell apart: as long as
every request it asks is answered alike by both, its result is the same.
-/
import Mathlib

/-- A computation that asks requests `q : Q`, each answered in `A q`. -/
inductive Asking (Q : Type) (A : Q → Type) (β : Type) : Type
  | done (x : β)
  | ask (q : Q) (next : A q → Asking Q A β)

namespace Asking

variable {Q : Type} {A : Q → Type} {β γ σ τ : Type}

/-- Go on with `f` where the first computation is done. -/
def bind : Asking Q A β → (β → Asking Q A γ) → Asking Q A γ
  | .done x, f => f x
  | .ask q next, f => .ask q fun a => (next a).bind f

instance : Monad (Asking Q A) where
  pure := Asking.done
  bind := Asking.bind

theorem bind_eq (m : Asking Q A β) (f : β → Asking Q A γ) : m >>= f = m.bind f := rfl

instance : LawfulMonad (Asking Q A) :=
  LawfulMonad.mk' (Asking Q A)
    (fun m => by
      induction m with
      | done x => rfl
      | ask q next ih => exact congrArg (Asking.ask q) (funext ih))
    (fun _ _ => rfl)
    (fun m f g => by
      induction m with
      | done x => rfl
      | ask q next ih => exact congrArg (Asking.ask q) (funext ih))

/-- Ask one request. -/
def request (q : Q) : Asking Q A (A q) := .ask q .done

/-- The run against a server, which may change its state with every request. -/
def run (serve : σ → (q : Q) → A q × σ) : σ → Asking Q A β → β × σ
  | s, .done x => (x, s)
  | s, .ask q next => run serve (serve s q).2 (next (serve s q).1)

theorem run_bind (serve : σ → (q : Q) → A q × σ) (m : Asking Q A β) (f : β → Asking Q A γ)
    (s : σ) : run serve s (m >>= f) = run serve (run serve s m).2 (f (run serve s m).1) := by
  rw [bind_eq]
  induction m generalizing s with
  | done x => rfl
  | ask q next ih => exact ih (serve s q).1 (serve s q).2

/-- Every request of the run meets `P`. -/
def Asks (serve : σ → (q : Q) → A q × σ) (P : σ → Q → Prop) : σ → Asking Q A β → Prop
  | _, .done _ => True
  | s, .ask q next => P s q ∧ Asks serve P (serve s q).2 (next (serve s q).1)

/-- `Asks` can be computed along the run. -/
def decidableAsks (serve : σ → (q : Q) → A q × σ) (P : σ → Q → Prop)
    [∀ s q, Decidable (P s q)] : ∀ (m : Asking Q A β) (s : σ), Decidable (Asks serve P s m)
  | .done _, _ => .isTrue trivial
  | .ask q next, s =>
      @instDecidableAnd _ _ inferInstance
        (decidableAsks serve P (next (serve s q).1) (serve s q).2)

instance (serve : σ → (q : Q) → A q × σ) (P : σ → Q → Prop) [∀ s q, Decidable (P s q)]
    (s : σ) (m : Asking Q A β) : Decidable (Asks serve P s m) :=
  decidableAsks serve P m s

variable {serve : σ → (q : Q) → A q × σ} {serve' : τ → (q : Q) → A q × τ}

/-- **The invariant rule.**  What every request preserves, a run preserves. -/
theorem run_invariant (I : σ → Prop) (hserve : ∀ s q, I s → I (serve s q).2)
    (m : Asking Q A β) (s : σ) (hs : I s) : I (run serve s m).2 := by
  induction m generalizing s with
  | done x => exact hs
  | ask q next ih => exact ih _ _ (hserve s q hs)

theorem asks_true (m : Asking Q A β) (s : σ) : Asks serve (fun _ _ => True) s m := by
  induction m generalizing s with
  | done x => trivial
  | ask q next ih => exact ⟨trivial, ih _ _⟩

/-- **Two servers that answer alike.**  If related server states answer every request
that meets `P` alike and stay related, a program whose requests all meet `P` ends in the
same result on both. -/
theorem run_simulates (R : σ → τ → Prop) (P : σ → Q → Prop)
    (hserve : ∀ s t q, R s t → P s q →
      (serve s q).1 = (serve' t q).1 ∧ R (serve s q).2 (serve' t q).2)
    (m : Asking Q A β) (s : σ) (t : τ) (hst : R s t) (hasks : Asks serve P s m) :
    (run serve s m).1 = (run serve' t m).1 ∧ R (run serve s m).2 (run serve' t m).2 := by
  induction m generalizing s t with
  | done x => exact ⟨rfl, hst⟩
  | ask q next ih =>
      obtain ⟨hq, hrest⟩ := hasks
      obtain ⟨hanswer, hrel⟩ := hserve s t q hst hq
      have h := ih _ _ _ hrel hrest
      rw [hanswer] at h
      rw [run, run, hanswer]
      exact h

/-! ## Results whatever the answers -/

/-- Every result the computation can end in meets `P`, whatever it is answered. -/
def Returns (P : β → Prop) : Asking Q A β → Prop
  | .done x => P x
  | .ask _ next => ∀ a, Returns P (next a)

theorem Returns.run {P : β → Prop} {m : Asking Q A β} (h : Returns P m) (s : σ) :
    P (Asking.run serve s m).1 := by
  induction m generalizing s with
  | done x => exact h
  | ask q next ih => exact ih _ (h _) _

theorem Returns.bind {P : β → Prop} {R : γ → Prop} {m : Asking Q A β} {f : β → Asking Q A γ}
    (h : Returns P m) (hf : ∀ x, P x → Returns R (f x)) : Returns R (m >>= f) := by
  show Returns R (m.bind f)
  induction m with
  | done x => exact hf x h
  | ask q next ih => exact fun a => ih a (h a)

theorem Returns.mono {P R : β → Prop} {m : Asking Q A β} (h : Returns P m)
    (hPR : ∀ x, P x → R x) : Returns R m := by
  induction m with
  | done x => exact hPR x h
  | ask q next ih => exact fun a => ih a (h a)

theorem Returns.map {P : γ → Prop} {m : Asking Q A β} (f : β → γ)
    (h : Returns (fun x => P (f x)) m) : Returns P (f <$> m) :=
  Returns.bind h fun _ hx => hx

theorem returns_true (m : Asking Q A β) : Returns (fun _ => True) m := by
  induction m with
  | done x => trivial
  | ask q next ih => exact ih

/-- What follows any result meets `P`. -/
theorem returns_bind {P : γ → Prop} (m : Asking Q A β) {f : β → Asking Q A γ}
    (hf : ∀ x, Returns P (f x)) : Returns P (m >>= f) :=
  (returns_true m).bind fun x _ => hf x

/-- A choice, and what follows either way. -/
theorem Returns.ite_bind {P : β → Prop} {R : γ → Prop} {p : Prop} [Decidable p]
    {m m' : Asking Q A β} {f : β → Asking Q A γ} (h : Returns P m) (h' : Returns P m')
    (hf : ∀ x, P x → Returns R (f x)) : Returns R (if p then m >>= f else m' >>= f) := by
  split_ifs
  · exact h.bind hf
  · exact h'.bind hf

/-! ## Results of answers that can be trusted -/

/-- Every result the computation can end in meets `P`, if every answer meets `ok`. -/
def ReturnsIf (ok : (q : Q) → A q → Prop) (P : β → Prop) : Asking Q A β → Prop
  | .done x => P x
  | .ask q next => ∀ a, ok q a → ReturnsIf ok P (next a)

section ReturnsIf

variable {ok : (q : Q) → A q → Prop}

theorem Returns.returnsIf {P : β → Prop} {m : Asking Q A β} (h : Returns P m) :
    ReturnsIf ok P m := by
  induction m with
  | done x => exact h
  | ask q next ih => exact fun a _ => ih a (h a)

/-- On a server whose answers meet `ok` as long as its state meets `I`. -/
theorem ReturnsIf.run {I : σ → Prop} (hserve : ∀ s q, I s → ok q (serve s q).1 ∧ I (serve s q).2)
    {P : β → Prop} {m : Asking Q A β} (h : ReturnsIf ok P m) {s : σ} (hs : I s) :
    P (Asking.run serve s m).1 := by
  induction m generalizing s with
  | done x => exact h
  | ask q next ih => exact ih _ (h _ (hserve s q hs).1) (hserve s q hs).2

theorem ReturnsIf.bind {P : β → Prop} {R : γ → Prop} {m : Asking Q A β} {f : β → Asking Q A γ}
    (h : ReturnsIf ok P m) (hf : ∀ x, P x → ReturnsIf ok R (f x)) : ReturnsIf ok R (m >>= f) := by
  show ReturnsIf ok R (m.bind f)
  induction m with
  | done x => exact hf x h
  | ask q next ih => exact fun a ha => ih a (h a ha)

theorem ReturnsIf.mono {P R : β → Prop} {m : Asking Q A β} (h : ReturnsIf ok P m)
    (hPR : ∀ x, P x → R x) : ReturnsIf ok R m := by
  induction m with
  | done x => exact hPR x h
  | ask q next ih => exact fun a ha => ih a (h a ha)

/-- What is asked first is answered as it should be. -/
theorem returnsIf_request {R : γ → Prop} (q : Q) {f : A q → Asking Q A γ}
    (hf : ∀ a, ok q a → ReturnsIf ok R (f a)) : ReturnsIf ok R (request q >>= f) := hf

/-- Whatever the first computation results in. -/
theorem returnsIf_bind {P : γ → Prop} (m : Asking Q A β) {f : β → Asking Q A γ}
    (hf : ∀ x, ReturnsIf ok P (f x)) : ReturnsIf ok P (m >>= f) :=
  ((returns_true m).returnsIf).bind fun x _ => hf x

end ReturnsIf

end Asking
