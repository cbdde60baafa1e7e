/-
# Lists cut into equal blocks

Indexing into the concatenation of blocks of one length, and into a list given by
a function on an initial segment.
-/
import Mathlib

namespace Chunks

variable {α β : Type*}

/-- The concatenation of `m` blocks of length `n` has length `m * n`. -/
theorem length_flatMap_range (f : ℕ → List α) (n : ℕ) (hf : ∀ k, (f k).length = n) (m : ℕ) :
    ((List.range m).flatMap f).length = m * n := by
  induction m with
  | zero => simp
  | succ m ih =>
      rw [List.range_succ, List.flatMap_append, List.length_append, ih]
      simp only [List.flatMap_cons, List.flatMap_nil, List.append_nil, hf]
      ring

/-- Entry `i` of block `k`. -/
theorem getD_flatMap_range (f : ℕ → List α) (n : ℕ) (hf : ∀ k, (f k).length = n) (d : α)
    (m k i : ℕ) (hk : k < m) (hi : i < n) :
    ((List.range m).flatMap f).getD (k * n + i) d = (f k).getD i d := by
  induction m with
  | zero => omega
  | succ m ih =>
      have hlen := length_flatMap_range f n hf m
      rw [List.range_succ, List.flatMap_append]
      simp only [List.flatMap_cons, List.flatMap_nil, List.append_nil]
      rcases Nat.lt_or_ge k m with h | h
      · have hbound : k * n + i < m * n := by
          calc k * n + i < k * n + n := by omega
            _ = (k + 1) * n := by ring
            _ ≤ m * n := Nat.mul_le_mul_right n h
        rw [List.getD_append _ _ _ _ (by rw [hlen]; exact hbound), ih h]
      · obtain rfl : k = m := by omega
        rw [List.getD_append_right _ _ _ _ (by rw [hlen]; omega), hlen]
        congr 1
        omega

/-- Entry `k` of a list given by `f` on `0 … n - 1`. -/
theorem getD_map_range (f : ℕ → α) (n k : ℕ) (d : α) (hk : k < n) :
    ((List.range n).map f).getD k d = f k := by
  rw [List.getD_eq_getElem _ _ (by simpa using hk)]
  simp

/-- Entry `i` of a slice. -/
theorem getD_drop_take (l : List α) (s n i : ℕ) (d : α) (hi : i < n) :
    ((l.drop s).take n).getD i d = l.getD (s + i) d := by
  rw [List.getD_eq_getElem?_getD, List.getD_eq_getElem?_getD, List.getElem?_take_of_lt hi,
    List.getElem?_drop]

/-- An initial segment, then the blocks that follow it. -/
theorem map_range_append_flatMap (f : ℕ → α) (a n m : ℕ) :
    (List.range a).map f
        ++ (List.range m).flatMap (fun k => (List.range n).map fun i => f (a + k * n + i))
      = (List.range (a + m * n)).map f := by
  induction m with
  | zero => simp
  | succ m ih =>
      rw [List.range_succ, List.flatMap_append, ← List.append_assoc, ih]
      simp only [List.flatMap_cons, List.flatMap_nil, List.append_nil]
      have hsplit : List.range (a + (m + 1) * n)
          = List.range (a + m * n) ++ (List.range n).map (a + m * n + ·) := by
        rw [show a + (m + 1) * n = a + m * n + n by ring, List.range_add]
      rw [hsplit, List.map_append, List.map_map]
      rfl

end Chunks
