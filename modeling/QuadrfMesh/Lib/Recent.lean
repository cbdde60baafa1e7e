/-
# The last entries of a list

A bounded memory of the most recent entries, and how far back an entry lies.
-/
import Mathlib

namespace Recent

variable {α : Type*}

/-- The last `n` entries. -/
def last (n : ℕ) (l : List α) : List α := l.drop (l.length - n)

/-- Appending to the last `n` entries and keeping the last `n` of that is the same as
keeping the last `n` of the whole list. -/
theorem last_last_append (n : ℕ) (l : List α) (x : α) :
    last n (last n l ++ [x]) = last n (l ++ [x]) := by
  unfold last
  simp only [List.length_append, List.length_drop, List.length_singleton]
  rw [List.drop_append, List.drop_append, List.drop_drop, List.length_drop]
  congr 2
  · omega
  · omega

/-- One more entry, dropping the oldest when there is one too many. -/
theorem tail_last_append (n : ℕ) (l : List α) (x : α) :
    (if n < (last n l ++ [x]).length then (last n l ++ [x]).tail else last n l ++ [x])
      = last n (l ++ [x]) := by
  have hlen : (last n l).length ≤ n := by
    rw [last, List.length_drop]
    omega
  rw [← last_last_append]
  generalize last n l = kept at hlen ⊢
  have hlong : (kept ++ [x]).length = kept.length + 1 := by simp
  rw [last]
  split_ifs with hfull
  · have hone : (kept ++ [x]).length - n = 1 := by omega
    rw [hone, List.drop_one]
  · have hzero : (kept ++ [x]).length - n = 0 := by omega
    rw [hzero, List.drop_zero]

/-- **The newest entry with a property** is found among the last `n` if fewer than `n` entries came
after it. -/
theorem find?_reverse_last_iff (n : ℕ) (l : List α) (p : α → Bool) (x : α) :
    (last n l).reverse.find? p = some x ↔
      ∃ older newer, l = older ++ x :: newer ∧ p x = true ∧ (∀ y ∈ newer, ¬p y = true) ∧
        newer.length < n := by
  have hlast : (last n l).reverse = l.reverse.take n := by rw [last, List.take_reverse]
  rw [hlast, List.find?_eq_some_iff_append]
  constructor
  · rintro ⟨hx, front, back, htake, hnone⟩
    refine ⟨(back ++ l.reverse.drop n).reverse, front.reverse, ?_, hx, fun y hy => ?_, ?_⟩
    · have hsplit : l.reverse = front ++ x :: (back ++ l.reverse.drop n) := by
        rw [← List.cons_append, ← List.append_assoc, ← htake, List.take_append_drop]
      have hback := congrArg List.reverse hsplit
      rwa [List.reverse_reverse, List.reverse_append, List.reverse_cons, List.append_assoc,
        List.singleton_append] at hback
    · have := hnone y (List.mem_reverse.mp hy)
      simpa using this
    · have hlen := congrArg List.length htake
      rw [List.length_take, List.length_append, List.length_cons] at hlen
      rw [List.length_reverse]
      omega
  · rintro ⟨older, newer, rfl, hx, hnone, hlen⟩
    refine ⟨hx, newer.reverse, older.reverse.take (n - newer.length - 1), ?_, fun y hy => ?_⟩
    · rw [List.reverse_append, List.reverse_cons, List.append_assoc, List.take_append,
        List.length_reverse, List.take_of_length_le (by rw [List.length_reverse]; omega)]
      congr 1
      obtain ⟨m, hm⟩ : ∃ m, n - newer.length = m + 1 := ⟨n - newer.length - 1, by omega⟩
      rw [hm]
      rfl
    · have := hnone y (List.mem_reverse.mp hy)
      simpa using this

variable [DecidableEq α]

/-- Entries after the last occurrence of `x`. -/
def since (l : List α) (x : α) : ℕ := l.reverse.idxOf x

/-- An entry is among the last `n` exactly when fewer than `n` entries came after its
last occurrence. -/
theorem mem_last_iff (n : ℕ) (l : List α) (x : α) (hx : x ∈ l) :
    x ∈ last n l ↔ since l x < n := by
  have hlast : last n l = (l.reverse.take n).reverse := by
    rw [List.take_reverse, List.reverse_reverse, last]
  rw [hlast, List.mem_reverse, since]
  exact List.mem_take_iff_idxOf_lt (List.mem_reverse.mpr hx)

end Recent
