/-
# Bit words and the binary-reflected Gray code

A word written most significant bit first, as the natural number it spells, and
the two maps of the binary-reflected Gray code on naturals.  The decoder is the
prefix XOR `g ^ (g >> 1) ^ … ^ (g >> n)`; on a word it is the running XOR of the
bits read so far (`testBit_xorShifts`).
-/
import Mathlib

namespace BitWord

/-! ## Words, most significant bit first -/

/-- The number spelled by `bs`, most significant bit first. -/
def ofBits (bs : List Bool) : ℕ := bs.foldl (fun s b => (s <<< 1) ||| b.toNat) 0

@[simp] theorem ofBits_nil : ofBits [] = 0 := rfl

/-- Reading one more bit. -/
theorem ofBits_concat (bs : List Bool) (b : Bool) :
    ofBits (bs ++ [b]) = (ofBits bs <<< 1) ||| b.toNat := by
  simp only [ofBits, List.foldl_append, List.foldl_cons, List.foldl_nil]

/-- Reading one more bit, arithmetically. -/
theorem ofBits_concat_eq (bs : List Bool) (b : Bool) :
    ofBits (bs ++ [b]) = 2 * ofBits bs + b.toNat := by
  rw [ofBits_concat, Nat.shiftLeft_eq, pow_one, mul_comm]
  have h := Nat.two_pow_add_eq_or_of_lt (i := 1) (b := b.toNat) (by cases b <;> decide) (ofBits bs)
  rw [pow_one] at h
  exact h.symm

/-- The low bit of a word is the last bit read. -/
theorem testBit_ofBits_concat_zero (bs : List Bool) (b : Bool) :
    (ofBits (bs ++ [b])).testBit 0 = b := by
  rw [ofBits_concat_eq]
  cases b <;> simp [Nat.testBit_zero]

/-- The other bits of a word are those of the word read before. -/
theorem testBit_ofBits_concat_succ (bs : List Bool) (b : Bool) (k : ℕ) :
    (ofBits (bs ++ [b])).testBit (k + 1) = (ofBits bs).testBit k := by
  rw [ofBits_concat_eq, Nat.testBit_succ]
  congr 1
  have hb : b.toNat < 2 := by cases b <;> decide
  omega

/-- A word of `n` bits is below `2 ^ n`. -/
theorem ofBits_lt (bs : List Bool) : ofBits bs < 2 ^ bs.length := by
  induction bs using List.reverseRecOn with
  | nil => simp
  | append_singleton bs b ih =>
      rw [ofBits_concat_eq, List.length_append, List.length_singleton, pow_succ]
      have hb : b.toNat < 2 := by cases b <;> decide
      omega

/-- Bit `k` of a word, counted from the least significant end. -/
theorem testBit_ofBits (bs : List Bool) (k : ℕ) (hk : k < bs.length) :
    (ofBits bs).testBit k = bs.getD (bs.length - 1 - k) false := by
  induction bs using List.reverseRecOn generalizing k with
  | nil => simp at hk
  | append_singleton bs b ih =>
      rw [List.length_append, List.length_singleton] at hk ⊢
      cases k with
      | zero =>
          rw [testBit_ofBits_concat_zero, List.getD_append_right _ _ _ _ (by omega)]
          simp
      | succ k =>
          rw [testBit_ofBits_concat_succ, ih k (by omega),
            List.getD_append _ _ _ _ (by omega)]
          congr 1
          omega

/-! ## The Gray code -/

/-- Prefix XOR of the shifts of `g` by `0 … n`. -/
def xorShifts (g : ℕ) : ℕ → ℕ
  | 0 => g
  | n + 1 => xorShifts g n ^^^ (g >>> (n + 1))

/-- A loop that XORs the shifts in one by one computes `xorShifts`. -/
theorem foldl_xor_shiftRight (g n : ℕ) :
    (List.range' 1 n).foldl (fun b j => b ^^^ (g >>> j)) g = xorShifts g n := by
  induction n with
  | zero => rfl
  | succ n ih =>
      rw [List.range'_concat, List.foldl_append, ih]
      simp only [List.foldl_cons, List.foldl_nil, xorShifts]
      rw [one_mul, Nat.add_comm 1 n]

/-- The Gray encoder undoes the prefix XOR up to the first shift left out. -/
theorem xorShifts_xor_shiftRight (g n : ℕ) :
    xorShifts g n ^^^ (xorShifts g n >>> 1) = g ^^^ (g >>> (n + 1)) := by
  induction n with
  | zero => rfl
  | succ n ih =>
      have hshift : g >>> (n + 1) >>> 1 = g >>> (n + 2) := by rw [← Nat.shiftRight_add]
      calc xorShifts g (n + 1) ^^^ (xorShifts g (n + 1) >>> 1)
          = (xorShifts g n ^^^ (g >>> (n + 1)))
              ^^^ ((xorShifts g n >>> 1) ^^^ (g >>> (n + 2))) := by
            rw [xorShifts, Nat.shiftRight_xor_distrib, hshift]
        _ = (xorShifts g n ^^^ (xorShifts g n >>> 1))
              ^^^ ((g >>> (n + 1)) ^^^ (g >>> (n + 2))) := by
            rw [Nat.xor_assoc, Nat.xor_assoc, Nat.xor_left_comm (g >>> (n + 1))]
        _ = g ^^^ (g >>> (n + 2)) := by
            rw [ih, Nat.xor_assoc, Nat.xor_xor_cancel_left]

/-- Encoding what the full prefix XOR of an `n + 1`-bit word decodes gives the
word back. -/
theorem xorShifts_encode (g n : ℕ) (hg : g < 2 ^ (n + 1)) :
    xorShifts g n ^^^ (xorShifts g n >>> 1) = g := by
  rw [xorShifts_xor_shiftRight, Nat.shiftRight_eq_zero _ _ hg, Nat.xor_zero]

/-- The prefix XOR stays within the width of its word. -/
theorem xorShifts_lt (g n w : ℕ) (hg : g < 2 ^ w) : xorShifts g n < 2 ^ w := by
  induction n with
  | zero => exact hg
  | succ n ih =>
      exact Nat.xor_lt_two_pow ih (lt_of_le_of_lt (Nat.shiftRight_le g (n + 1)) hg)

/-- The XOR of a list of bits. -/
def parity (bs : List Bool) : Bool := bs.foldl xor false

@[simp] theorem parity_nil : parity [] = false := rfl

theorem parity_concat (bs : List Bool) (b : Bool) :
    parity (bs ++ [b]) = xor (parity bs) b := by
  simp only [parity, List.foldl_append, List.foldl_cons, List.foldl_nil]

/-- The parity of a list of bits is that of the number of ones in it. -/
theorem parity_toNat (bs : List Bool) :
    (parity bs).toNat = (bs.map Bool.toNat).sum % 2 := by
  induction bs using List.reverseRecOn with
  | nil => rfl
  | append_singleton bs b ih =>
      rw [parity_concat, List.map_append, List.sum_append, Nat.add_mod, ← ih]
      cases parity bs <;> cases b <;> rfl

theorem parity_cons (b : Bool) (bs : List Bool) :
    parity (b :: bs) = xor b (parity bs) := by
  induction bs using List.reverseRecOn with
  | nil => simp [parity]
  | append_singleton bs c ih =>
      rw [← List.cons_append, parity_concat, parity_concat, ih, Bool.xor_assoc]

/-- Bit `k` of the prefix XOR is the parity of the bits from `k` up. -/
theorem testBit_xorShifts (g n k : ℕ) :
    (xorShifts g n).testBit k = parity ((List.range (n + 1)).map fun j => g.testBit (k + j)) := by
  induction n with
  | zero => simp [xorShifts, parity]
  | succ n ih =>
      rw [List.range_succ, List.map_append, List.map_singleton, parity_concat, ← ih, xorShifts,
        Nat.testBit_xor, Nat.testBit_shiftRight, Nat.add_comm (n + 1) k]

/-- The parity of a word is that of its bits, read from any end. -/
theorem parity_testBit_ofBits (bs : List Bool) :
    parity ((List.range bs.length).map fun j => (ofBits bs).testBit j) = parity bs := by
  induction bs using List.reverseRecOn with
  | nil => rfl
  | append_singleton bs b ih =>
      rw [List.length_append, List.length_singleton, List.range_succ_eq_map, List.map_cons,
        List.map_map, parity_cons, testBit_ofBits_concat_zero, parity_concat, Bool.xor_comm]
      congr 1
      rw [← ih]
      congr 1
      apply List.map_congr_left
      intro j _
      exact testBit_ofBits_concat_succ bs b j

/-- A word that ends in the parity of the rest and a zero decodes to a multiple
of four. -/
theorem xorShifts_parity_word (bs : List Bool) :
    xorShifts (ofBits (bs ++ [parity bs] ++ [false])) (bs.length + 1) % 4 = 0 := by
  have hlen : (bs ++ [parity bs]).length = bs.length + 1 := by simp
  have hpar : parity (bs ++ [parity bs]) = false := by
    rw [parity_concat, Bool.xor_self]
  have hbit0 : (xorShifts (ofBits (bs ++ [parity bs] ++ [false])) (bs.length + 1)).testBit 0
      = false := by
    have h := parity_testBit_ofBits (bs ++ [parity bs] ++ [false])
    rw [List.length_append, List.length_singleton, hlen, parity_concat, hpar] at h
    rw [testBit_xorShifts]
    simpa only [Nat.zero_add, Bool.xor_false] using h
  have hbit1 : (xorShifts (ofBits (bs ++ [parity bs] ++ [false])) (bs.length + 1)).testBit 1
      = false := by
    have h := parity_testBit_ofBits (bs ++ [parity bs])
    rw [hlen, hpar] at h
    have htop : (ofBits (bs ++ [parity bs])).testBit (bs.length + 1) = false :=
      Nat.testBit_lt_two_pow (hlen ▸ ofBits_lt (bs ++ [parity bs]))
    rw [testBit_xorShifts, List.range_succ, List.map_append, List.map_singleton, parity_concat,
      Nat.add_comm 1 (bs.length + 1), testBit_ofBits_concat_succ, htop, Bool.xor_false, ← h]
    congr 1
    apply List.map_congr_left
    intro j _
    rw [Nat.add_comm 1 j, testBit_ofBits_concat_succ]
  -- both low bits are clear
  rw [Nat.testBit_zero] at hbit0
  rw [Nat.testBit_succ, Nat.testBit_zero] at hbit1
  simp only [decide_eq_false_iff_not] at hbit0 hbit1
  omega

end BitWord
