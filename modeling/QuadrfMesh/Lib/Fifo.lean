/-
# Queues served in order

A queue as its users see it: what is put, cleared, served, and when the server finds
nothing to serve.  A trace of such events is served in order when the head of the
queue is served, and the server idles only on an empty queue.
-/
import Mathlib.Data.List.Basic
import Mathlib.Data.List.Sublists

namespace Fifo

variable {α : Type*}

/-- What happens at a queue. -/
inductive Event (α : Type*)
  | put (a : α)
  | clear
  | serve (a : α)
  | idle
  deriving DecidableEq

/-- `Serves q es q'`: the events `es` take the queue from `q` to `q'`, each item served is
the head of the queue then, and the server idles only on an empty queue. -/
inductive Serves : List α → List (Event α) → List α → Prop
  | nil (q : List α) : Serves q [] q
  | put {q q' : List α} {a : α} {es : List (Event α)} (h : Serves (q ++ [a]) es q') :
      Serves q (.put a :: es) q'
  | clear {q q' : List α} {es : List (Event α)} (h : Serves [] es q') :
      Serves q (.clear :: es) q'
  | serve {q q' : List α} {a : α} {es : List (Event α)} (h : Serves q es q') :
      Serves (a :: q) (.serve a :: es) q'
  | idle {q' : List α} {es : List (Event α)} (h : Serves [] es q') :
      Serves [] (.idle :: es) q'

/-- The items put. -/
def puts (es : List (Event α)) : List α :=
  es.filterMap fun e => match e with | .put a => some a | _ => none

/-- The items served. -/
def served (es : List (Event α)) : List α :=
  es.filterMap fun e => match e with | .serve a => some a | _ => none

theorem Serves.append {q q₁ q' : List α} {es fs : List (Event α)} (h : Serves q es q₁)
    (h' : Serves q₁ fs q') : Serves q (es ++ fs) q' := by
  induction h with
  | nil q => exact h'
  | put _ ih => exact Serves.put (ih h')
  | clear _ ih => exact Serves.clear (ih h')
  | serve _ ih => exact Serves.serve (ih h')
  | idle _ ih => exact Serves.idle (ih h')

/-- Serving the front of the queue. -/
theorem serves_map_serve (as q : List α) : Serves (as ++ q) (as.map Event.serve) q := by
  induction as with
  | nil => exact Serves.nil q
  | cons a as ih => exact Serves.serve ih

theorem serves_replicate_idle (n : ℕ) :
    Serves ([] : List α) (List.replicate n Event.idle) [] := by
  induction n with
  | zero => exact Serves.nil []
  | succ n ih => exact Serves.idle ih

@[simp] theorem served_append (es fs : List (Event α)) :
    served (es ++ fs) = served es ++ served fs := List.filterMap_append

@[simp] theorem served_map_serve (as : List α) : served (as.map Event.serve) = as := by
  rw [served, List.filterMap_map]
  exact List.filterMap_some

@[simp] theorem served_replicate_idle (n : ℕ) :
    served (List.replicate n (Event.idle : Event α)) = [] := by
  induction n with
  | zero => rfl
  | succ n ih => exact ih

/-- **Each item at most once, in the order it was put**: what was served and what still
waits are, in order, items that were put. -/
theorem Serves.sublist {q q' : List α} {es : List (Event α)} (h : Serves q es q') :
    (served es ++ q').Sublist (q ++ puts es) := by
  induction h with
  | nil q => exact List.sublist_append_left q []
  | put _ ih =>
      rw [List.append_assoc] at ih
      exact ih
  | clear _ ih => exact ih.trans (List.sublist_append_right _ _)
  | serve _ ih => exact ih.cons_cons _
  | idle _ ih => exact ih

/-- A queue that is never cleared serves everything. -/
theorem Serves.served_append_eq {q q' : List α} {es : List (Event α)} (h : Serves q es q')
    (hclear : .clear ∉ es) : served es ++ q' = q ++ puts es := by
  induction h with
  | nil q => exact (List.append_nil q).symm
  | @put q q' a es h ih =>
      have hrest := ih fun hmem => hclear (List.mem_cons_of_mem _ hmem)
      rw [List.append_assoc] at hrest
      exact hrest
  | clear h ih => exact absurd List.mem_cons_self hclear
  | @serve q q' a es h ih =>
      have hrest := ih fun hmem => hclear (List.mem_cons_of_mem _ hmem)
      exact congrArg (a :: ·) hrest
  | idle h ih => exact ih fun hmem => hclear (List.mem_cons_of_mem _ hmem)

end Fifo
