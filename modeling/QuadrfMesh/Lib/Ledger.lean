/-
# Queues that drop items

A queue with a record of what was put into it, taken from its front, and dropped from
anywhere in it.  The record balances: each item put is taken, dropped or still queued,
exactly as often as it was put, and those not dropped are in the order they were put.
-/
import Mathlib.Data.List.Perm.Basic

/-- A queue and its record. -/
structure Ledger (α : Type*) where
  queue : List α := []
  put : List α := []
  taken : List α := []
  dropped : List α := []

namespace Ledger

variable {α : Type*}

/-- The record balances. -/
structure Balanced (l : Ledger α) : Prop where
  perm : l.put.Perm (l.taken ++ l.dropped ++ l.queue)
  order : (l.taken ++ l.queue).Sublist l.put

theorem balanced_empty : Balanced ({} : Ledger α) :=
  ⟨List.Perm.refl _, List.Sublist.refl _⟩

/-- An item is put at the back. -/
theorem Balanced.enqueue {l : Ledger α} (h : l.Balanced) (a : α) :
    Balanced { l with queue := l.queue ++ [a], put := l.put ++ [a] } := by
  refine ⟨?_, ?_⟩
  · have hperm := h.perm.append_right [a]
    rw [List.append_assoc] at hperm
    exact hperm
  · have horder := h.order.append (List.Sublist.refl [a])
    rw [List.append_assoc] at horder
    exact horder

/-- The front is taken. -/
theorem Balanced.take {l : Ledger α} (h : l.Balanced) {a : α} {q : List α}
    (hq : l.queue = a :: q) : Balanced { l with queue := q, taken := l.taken ++ [a] } := by
  refine ⟨?_, ?_⟩
  · have hperm := h.perm
    rw [hq] at hperm
    refine hperm.trans ?_
    simp only [List.append_assoc, List.singleton_append]
    exact List.Perm.append_left _ List.perm_middle
  · have horder := h.order
    rw [hq] at horder
    rw [List.append_assoc]
    exact horder

/-- Items are dropped, and the others keep their places. -/
theorem Balanced.drop {l : Ledger α} (h : l.Balanced) {kept victims : List α}
    (hkept : kept.Sublist l.queue) (hsplit : l.queue.Perm (victims ++ kept)) :
    Balanced { l with queue := kept, dropped := l.dropped ++ victims } := by
  refine ⟨?_, ?_⟩
  · have hperm := h.perm.trans (hsplit.append_left (l.taken ++ l.dropped))
    rw [← List.append_assoc, List.append_assoc l.taken] at hperm
    exact hperm
  · exact ((List.Sublist.refl l.taken).append hkept).trans h.order

end Ledger
