/-
# Feedback shift registers

A register of `w` bits that shifts left and, when a one falls out, takes a polynomial in.
The shift is linear over exclusive or (`shift_xor`), and nothing is lost in it when the
polynomial has a constant term (`shift_injective`); both hold of any number of shifts.
-/
import Mathlib.Data.Nat.Init
import Mathlib.Logic.Function.Iterate

namespace ShiftRegister

variable {w : ℕ} (poly : BitVec w)

/-- A difference moved to the other side. -/
theorem xor_eq_xor_of_xor_eq {x y u v : BitVec w} (h : x ^^^ u = y ^^^ v) : x ^^^ y = u ^^^ v := by
  calc x ^^^ y = (x ^^^ u) ^^^ (u ^^^ y) := by
        rw [BitVec.xor_assoc, ← BitVec.xor_assoc u, BitVec.xor_self, BitVec.zero_xor]
    _ = (y ^^^ v) ^^^ (u ^^^ y) := by rw [h]
    _ = u ^^^ v := by
        rw [BitVec.xor_comm, BitVec.xor_assoc, ← BitVec.xor_assoc y, BitVec.xor_self,
          BitVec.zero_xor]

/-- One shift. -/
def shift (s : BitVec w) : BitVec w := if s.msb then (s <<< 1) ^^^ poly else s <<< 1

theorem shift_xor (a b : BitVec w) : shift poly (a ^^^ b) = shift poly a ^^^ shift poly b := by
  unfold shift
  rw [BitVec.msb_xor, BitVec.shiftLeft_xor_distrib]
  cases a.msb <;> cases b.msb
  · rfl
  · exact BitVec.xor_assoc _ _ _
  · show a <<< 1 ^^^ b <<< 1 ^^^ poly = a <<< 1 ^^^ poly ^^^ b <<< 1
    rw [BitVec.xor_assoc, BitVec.xor_assoc, BitVec.xor_comm (b <<< 1)]
  · show a <<< 1 ^^^ b <<< 1 = a <<< 1 ^^^ poly ^^^ (b <<< 1 ^^^ poly)
    rw [BitVec.xor_comm (b <<< 1), BitVec.xor_assoc, ← BitVec.xor_assoc poly, BitVec.xor_self,
      BitVec.zero_xor]

/-- A register that is shifted to zero was zero. -/
theorem eq_zero_of_shift (hpoly : poly.getLsbD 0 = true) {s : BitVec w} (h : shift poly s = 0#w) :
    s = 0#w := by
  have hbit : ∀ i, (shift poly s).getLsbD i = false := by
    intro i
    rw [h]
    exact BitVec.getLsbD_zero
  have hmsb : s.msb = false := by
    by_contra hne
    have hlow := hbit 0
    rw [shift, if_pos (Bool.of_not_eq_false hne), BitVec.getLsbD_xor, hpoly] at hlow
    simp at hlow
  rw [shift, if_neg (Bool.eq_false_iff.mp hmsb)] at h
  apply BitVec.eq_of_getLsbD_eq
  intro i hi
  rw [BitVec.getLsbD_zero]
  rcases Nat.lt_or_ge (i + 1) w with hlt | hge
  · have hnext := congrArg (fun v : BitVec w => v.getLsbD (i + 1)) h
    simp only [BitVec.getLsbD_shiftLeft, BitVec.getLsbD_zero, hlt] at hnext
    simpa using hnext
  · -- the bit that fell out
    obtain rfl : i = w - 1 := by omega
    rw [← BitVec.msb_eq_getLsbD_last]
    exact hmsb

/-- **Nothing is lost** in a shift. -/
theorem shift_injective (hpoly : poly.getLsbD 0 = true) : Function.Injective (shift poly) := by
  intro a b hab
  have hzero : shift poly (a ^^^ b) = 0#w := by
    rw [shift_xor, hab, BitVec.xor_self]
  exact BitVec.xor_eq_zero_iff.mp (eq_zero_of_shift poly hpoly hzero)

/-- `n` shifts. -/
def shifts (n : ℕ) : BitVec w → BitVec w := (shift poly)^[n]

theorem shifts_succ (n : ℕ) (s : BitVec w) : shifts poly (n + 1) s = shift poly (shifts poly n s) :=
  Function.iterate_succ_apply' _ _ _

theorem shifts_xor (n : ℕ) (a b : BitVec w) :
    shifts poly n (a ^^^ b) = shifts poly n a ^^^ shifts poly n b := by
  induction n with
  | zero => rfl
  | succ n ih => rw [shifts_succ, ih, shift_xor, ← shifts_succ, ← shifts_succ]

theorem shifts_injective (hpoly : poly.getLsbD 0 = true) (n : ℕ) :
    Function.Injective (shifts poly n) :=
  (shift_injective poly hpoly).iterate n

end ShiftRegister
