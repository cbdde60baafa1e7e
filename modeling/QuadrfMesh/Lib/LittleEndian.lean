/-
# Little-endian words

A word written byte by byte, lowest byte first, and read back by or-ing shifted
bytes.  Both are stated on naturals; a fixed-width word uses them at its own width.
-/
import Mathlib.Data.Nat.Bitwise
import Mathlib.Data.List.GetD
import Mathlib.Data.List.Range
import Mathlib.Tactic.NormNum

namespace LittleEndian

/-- The `n` lowest bytes of `v`, lowest first. -/
def write (n v : ℕ) : List UInt8 :=
  (List.range n).map fun k => UInt8.ofNat (v >>> (8 * k))

/-- The word whose bytes are the first `n` bytes of `bs`. -/
def read (n : ℕ) (bs : List UInt8) : ℕ :=
  (List.range n).foldl (fun v k => v ||| ((bs.getD k 0).toNat <<< (8 * k))) 0

@[simp] theorem length_write (n v : ℕ) : (write n v).length = n := by
  rw [write, List.length_map, List.length_range]

theorem getD_write (n v : ℕ) {k : ℕ} (hk : k < n) :
    ((write n v).getD k 0).toNat = (v >>> (8 * k)) % 2 ^ 8 := by
  rw [write, List.getD_eq_getElem _ _ (by simpa using hk)]
  simp

/-- A byte has no bit from the eighth on. -/
theorem testBit_byte (b : UInt8) {i : ℕ} (hi : 8 ≤ i) : b.toNat.testBit i = false := by
  have hb := b.toNat_lt
  have hpow : 2 ^ 8 ≤ 2 ^ i := Nat.pow_le_pow_right (by norm_num) hi
  exact Nat.testBit_lt_two_pow (by omega)

/-- **Bit `i` of a word** is bit `i % 8` of its byte `i / 8`. -/
theorem testBit_read (n : ℕ) (bs : List UInt8) (i : ℕ) :
    (read n bs).testBit i
      = (decide (i < 8 * n) && (bs.getD (i / 8) 0).toNat.testBit (i % 8)) := by
  induction n with
  | zero => simp [read]
  | succ n ih =>
      rw [read, List.range_succ, List.foldl_append]
      simp only [List.foldl_cons, List.foldl_nil]
      rw [Nat.testBit_or, ← read, ih, Nat.testBit_shiftLeft]
      rcases Nat.lt_or_ge i (8 * n) with hlt | hge
      · have hn : ¬ 8 * n ≤ i := by omega
        have hn1 : i < 8 * (n + 1) := by omega
        simp only [hlt, hn, hn1, decide_true, decide_false, Bool.true_and, Bool.false_and,
          Bool.or_false]
      · have hn : ¬ i < 8 * n := by omega
        simp only [hge, hn, decide_true, decide_false, Bool.true_and, Bool.false_and,
          Bool.false_or]
        rcases Nat.lt_or_ge i (8 * (n + 1)) with h | h
        · -- the bit lies in the byte added last
          rw [show i / 8 = n by omega, show i % 8 = i - 8 * n by omega, decide_eq_true h,
            Bool.true_and]
        · rw [testBit_byte _ (by omega), decide_eq_false (by omega), Bool.false_and]

theorem read_lt (n : ℕ) (bs : List UInt8) : read n bs < 2 ^ (8 * n) := by
  apply Nat.lt_pow_two_of_testBit
  intro i hi
  rw [testBit_read, decide_eq_false (by omega), Bool.false_and]

/-- A word depends on its own bytes only. -/
theorem read_append {n : ℕ} {bs : List UInt8} (h : n ≤ bs.length) (rest : List UInt8) :
    read n (bs ++ rest) = read n bs := by
  apply Nat.eq_of_testBit_eq
  intro i
  rw [testBit_read, testBit_read]
  rcases Nat.lt_or_ge i (8 * n) with hi | hi
  · rw [List.getD_append _ _ _ _ (by omega)]
  · rw [decide_eq_false (by omega), Bool.false_and, Bool.false_and]

/-- **What is written reads back**, up to the width. -/
theorem read_write (n v : ℕ) : read n (write n v) = v % 2 ^ (8 * n) := by
  apply Nat.eq_of_testBit_eq
  intro i
  rw [testBit_read, Nat.testBit_mod_two_pow]
  rcases Nat.lt_or_ge i (8 * n) with hi | hi
  · rw [getD_write n v (by omega), Nat.testBit_mod_two_pow, Nat.testBit_shiftRight,
      decide_eq_true (Nat.mod_lt i (by norm_num : 8 > 0)), Nat.div_add_mod, Bool.true_and]
  · rw [decide_eq_false (by omega), Bool.false_and, Bool.false_and]

/-- **What is read writes back**: the bytes the word was read from. -/
theorem write_read {n : ℕ} {bs : List UInt8} (h : n ≤ bs.length) :
    write n (read n bs) = bs.take n := by
  apply List.ext_getElem (by simp [h])
  intro k hk hk'
  rw [length_write] at hk
  rw [← List.getD_eq_getElem _ 0, List.getElem_take, ← List.getD_eq_getElem _ 0]
  apply UInt8.toNat_inj.mp
  rw [getD_write n _ hk]
  apply Nat.eq_of_testBit_eq
  intro i
  rw [Nat.testBit_mod_two_pow, Nat.testBit_shiftRight, testBit_read]
  rcases Nat.lt_or_ge i 8 with hi | hi
  · rw [decide_eq_true hi, decide_eq_true (show 8 * k + i < 8 * n by omega), Bool.true_and,
      Bool.true_and, show (8 * k + i) / 8 = k by omega, show (8 * k + i) % 8 = i by omega]
  · rw [testBit_byte _ hi, decide_eq_false (by omega), Bool.false_and]

end LittleEndian
