/-
# Machines fed in calls

A machine that reads a run of items in one call, and what a sequence of calls gives.
A machine splits when reading two runs joined is reading one after the other; then how
a stream is cut into calls does not matter.
-/
import Mathlib.Data.List.Basic

namespace Streaming

variable {σ τ α β γ : Type*}

/-- Reading two runs joined is reading one after the other. -/
def Splits (f : σ → List α → σ × List β) : Prop :=
  ∀ s xs ys, f s (xs ++ ys) = ((f (f s xs).1 ys).1, (f s xs).2 ++ (f (f s xs).1 ys).2)

/-- The calls in turn. -/
def run (f : σ → List α → σ × List β) : σ → List (List α) → σ × List β
  | s, [] => (s, [])
  | s, chunk :: chunks =>
      let (s, out) := f s chunk
      let (s, rest) := run f s chunks
      (s, out ++ rest)

/-- **How the stream is cut does not matter**, if it is cut at all. -/
theorem Splits.run_eq {f : σ → List α → σ × List β} (h : Splits f) (s : σ)
    {chunks : List (List α)} (hne : chunks ≠ []) : run f s chunks = f s chunks.flatten := by
  induction chunks generalizing s with
  | nil => exact absurd rfl hne
  | cons chunk chunks ih =>
      rcases eq_or_ne chunks [] with rfl | hcs
      · rw [List.flatten_cons, List.flatten_nil, List.append_nil]
        simp only [run, List.append_nil]
      · rw [List.flatten_cons, h]
        simp only [run, ih _ hcs]

/-- A machine that does nothing on an empty run: no calls at all are one empty call. -/
theorem Splits.run_eq_of_nil {f : σ → List α → σ × List β} (h : Splits f) {s : σ}
    (hnil : f s [] = (s, [])) (chunks : List (List α)) :
    run f s chunks = f s chunks.flatten := by
  rcases eq_or_ne chunks [] with rfl | hcs
  · exact hnil.symm
  · exact h.run_eq s hcs

/-! ## Item by item -/

/-- A machine that answers each item with a run of items. -/
def scan (step : σ → α → σ × List β) : σ → List α → σ × List β
  | s, [] => (s, [])
  | s, x :: xs =>
      let (s, out) := step s x
      let (s, rest) := scan step s xs
      (s, out ++ rest)

theorem splits_scan (step : σ → α → σ × List β) : Splits (scan step) := by
  intro s xs ys
  induction xs generalizing s with
  | nil => rfl
  | cons x xs ih =>
      rw [List.cons_append]
      simp only [scan, ih, List.append_assoc]

theorem scan_cons (step : σ → α → σ × List β) (s : σ) (x : α) (xs : List α) :
    scan step s (x :: xs)
      = ((scan step (step s x).1 xs).1, (step s x).2 ++ (scan step (step s x).1 xs).2) := rfl

/-- A machine that answers each item with one. -/
def perItem (step : σ → α → σ × β) : σ → List α → σ × List β :=
  scan fun s x => ((step s x).1, [(step s x).2])

theorem perItem_cons (step : σ → α → σ × β) (s : σ) (x : α) (xs : List α) :
    perItem step s (x :: xs)
      = ((perItem step (step s x).1 xs).1, (step s x).2 :: (perItem step (step s x).1 xs).2) := rfl

theorem splits_perItem (step : σ → α → σ × β) : Splits (perItem step) := splits_scan _

/-! ## Two machines on one stream -/

/-- What is written grows with what is read. -/
theorem Splits.out_prefix {f : σ → List α → σ × List β} (h : Splits f) (s : σ) {xs ys : List α}
    (hpre : xs <+: ys) : (f s xs).2 <+: (f s ys).2 := by
  obtain ⟨rest, rfl⟩ := hpre
  rw [h]
  exact List.prefix_append _ _

/-- Reading `xs` writes `y`, at the last item and not before. -/
def Completes (f : σ → List α → σ × List β) (s : σ) (xs : List α) (y : β) : Prop :=
  ∃ init last, xs = init ++ [last] ∧ (f s init).2 = [] ∧ (f s xs).2 = [y]

theorem Completes.out {f : σ → List α → σ × List β} {s : σ} {xs : List α} {y : β}
    (h : Completes f s xs y) : (f s xs).2 = [y] := by
  obtain ⟨_, _, _, _, hout⟩ := h
  exact hout

theorem Completes.out_of_prefix {f : σ → List α → σ × List β} (hf : Splits f) {s : σ}
    {xs : List α} {y : β} (h : Completes f s xs y) {t : List α} (hpre : t <+: xs)
    (hlt : t.length < xs.length) : (f s t).2 = [] := by
  obtain ⟨init, last, rfl, hinit, -⟩ := h
  have hle : t.length ≤ init.length := by
    rw [List.length_append, List.length_singleton] at hlt
    omega
  have hpre' := List.prefix_of_prefix_length_le hpre (List.prefix_append init [last]) hle
  have hout := hf.out_prefix s hpre'
  rw [hinit] at hout
  exact List.prefix_nil.mp hout

/-- Two machines write the same at every point of the stream. -/
def Agree (f : σ → List α → σ × List γ) (s : σ) (g : τ → List α → τ × List γ) (t : τ)
    (xs : List α) : Prop :=
  ∀ read, read <+: xs → (f s read).2 = (g t read).2

variable {f : σ → List α → σ × List γ} {g : τ → List α → τ × List γ}

/-- Machines that write nothing agree. -/
theorem agree_of_nil (hf : Splits f) (hg : Splits g) {s : σ} {t : τ} {xs : List α}
    (hs : (f s xs).2 = []) (ht : (g t xs).2 = []) : Agree f s g t xs := by
  intro read hread
  have h1 := hf.out_prefix s hread
  have h2 := hg.out_prefix t hread
  rw [hs] at h1
  rw [ht] at h2
  rw [List.prefix_nil.mp h1, List.prefix_nil.mp h2]

/-- **After a common first word**, agreeing on the stream is agreeing on what follows. -/
theorem agree_append_iff (hf : Splits f) (hg : Splits g) {s : σ} {t : τ} {xs rest : List α}
    {y : γ} (hs : Completes f s xs y) (ht : Completes g t xs y) :
    Agree f s g t (xs ++ rest) ↔ Agree f (f s xs).1 g (g t xs).1 rest := by
  constructor
  · intro h read hread
    have hjoin := h (xs ++ read) (List.prefix_append_right_inj _ |>.mpr hread)
    rw [hf, hg, hs.out, ht.out] at hjoin
    exact List.append_cancel_left hjoin
  · intro h read hread
    rcases Nat.lt_or_ge read.length xs.length with hlt | hge
    · have hpre := List.prefix_of_prefix_length_le hread (List.prefix_append xs rest) (Nat.le_of_lt hlt)
      rw [hs.out_of_prefix hf hpre hlt, ht.out_of_prefix hg hpre hlt]
    · obtain ⟨more, rfl⟩ := List.prefix_of_prefix_length_le (List.prefix_append xs rest) hread hge
      have hmore := h more ((List.prefix_append_right_inj _).mp hread)
      rw [hf, hg, hs.out, ht.out]
      simp only
      rw [hmore]

/-- Machines that agree complete the same first word. -/
theorem Agree.first_eq (hf : Splits f) (hg : Splits g) {s : σ} {t : τ} {xs xs₁ xs₂ : List α}
    {y₁ y₂ : γ} (h : Agree f s g t xs) (h₁ : xs₁ <+: xs) (h₂ : xs₂ <+: xs)
    (hs : Completes f s xs₁ y₁) (ht : Completes g t xs₂ y₂) : xs₁ = xs₂ ∧ y₁ = y₂ := by
  have heq₁ := h xs₁ h₁
  have heq₂ := h xs₂ h₂
  rw [hs.out] at heq₁
  rw [ht.out] at heq₂
  rcases Nat.lt_trichotomy xs₁.length xs₂.length with hlt | hlen | hlt
  · rw [ht.out_of_prefix hg (List.prefix_of_prefix_length_le h₁ h₂ (Nat.le_of_lt hlt)) hlt] at heq₁
    exact absurd heq₁ (List.cons_ne_nil _ _)
  · obtain rfl := (List.prefix_of_prefix_length_le h₁ h₂ (Nat.le_of_eq hlen)).eq_of_length hlen
    rw [ht.out] at heq₁
    exact ⟨rfl, List.singleton_inj.mp heq₁⟩
  · rw [hs.out_of_prefix hf (List.prefix_of_prefix_length_le h₂ h₁ (Nat.le_of_lt hlt)) hlt] at heq₂
    exact absurd heq₂.symm (List.cons_ne_nil _ _)

end Streaming
