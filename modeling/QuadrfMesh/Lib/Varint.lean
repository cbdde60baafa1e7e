/-
# Base-128 groups

A number in groups of seven bits, lowest first, the high bit of a byte saying that more
follow.  What such a run of bytes is and what it spells are stated without a reader or a
writer.
-/
import Mathlib.Data.Nat.Bitwise
import Mathlib.Data.List.Basic
import Mathlib.Tactic.Ring

namespace Varint

/-- The number a run of groups spells. -/
def value : List UInt8 → ℕ
  | [] => 0
  | b :: bs => b.toNat % 128 + 128 * value bs

/-- At most `n` bytes, of which the last and no other has its high bit clear. -/
inductive Groups : ℕ → List UInt8 → Prop
  | last {n : ℕ} {b : UInt8} (h : b.toNat < 128) : Groups (n + 1) [b]
  | more {n : ℕ} {b : UInt8} {bs : List UInt8} (h : 128 ≤ b.toNat) (hbs : Groups n bs) :
      Groups (n + 1) (b :: bs)

theorem Groups.length_pos {n : ℕ} {bs : List UInt8} (h : Groups n bs) : 0 < bs.length := by
  cases h with
  | last _ => exact Nat.one_pos
  | more _ _ => exact Nat.succ_pos _

/-! ## Or-ing groups into a word -/

/-- A group or-ed in above the bits read so far, in a word of `w` bits. -/
theorem or_shiftLeft_mod (acc x : ℕ) {s w : ℕ} (hacc : acc < 2 ^ s) (hsw : s ≤ w) :
    acc ||| ((x <<< s) % 2 ^ w) = (acc + x * 2 ^ s) % 2 ^ w := by
  have hw : 2 ^ w = 2 ^ (w - s) * 2 ^ s := by rw [← pow_add, Nat.sub_add_cancel hsw]
  have hpos : 0 < 2 ^ s := Nat.two_pow_pos s
  have hshift : (x <<< s) % 2 ^ w = (x % 2 ^ (w - s)) <<< s := by
    rw [Nat.shiftLeft_eq, Nat.shiftLeft_eq, hw, Nat.mul_mod_mul_right]
  have hor : acc ||| ((x % 2 ^ (w - s)) <<< s) = (x % 2 ^ (w - s)) * 2 ^ s + acc := by
    rw [Nat.or_comm, ← Nat.shiftLeft_add_eq_or_of_lt hacc, Nat.shiftLeft_eq]
  have hlt : (x % 2 ^ (w - s)) * 2 ^ s + acc < 2 ^ w := by
    have hx : x % 2 ^ (w - s) + 1 ≤ 2 ^ (w - s) := Nat.mod_lt x (Nat.two_pow_pos _)
    calc (x % 2 ^ (w - s)) * 2 ^ s + acc
        < (x % 2 ^ (w - s)) * 2 ^ s + 2 ^ s := Nat.add_lt_add_left hacc _
      _ = (x % 2 ^ (w - s) + 1) * 2 ^ s := by ring
      _ ≤ 2 ^ (w - s) * 2 ^ s := Nat.mul_le_mul_right _ hx
      _ = 2 ^ w := hw.symm
  rw [hshift, hor, ← Nat.mod_eq_of_lt hlt, Nat.add_comm acc, Nat.add_mod, ← Nat.mul_mod_mul_right,
    ← hw, Nat.mod_mod, ← Nat.add_mod]

end Varint
