/-
# A clock that wraps

Instants are counted without bound; the clock shows an instant modulo `n`.  The difference
of two readings is the time between them, the order of two readings is not their order.
-/
import Mathlib

namespace WrapClock

variable {n a b : ℕ}

/-- Within one turn the readings are in the order of the instants. -/
theorem reading_le_reading_iff (h : a / n = b / n) : a % n ≤ b % n ↔ a ≤ b := by
  have ha := Nat.div_add_mod a n
  have hb := Nat.div_add_mod b n
  rw [h] at ha
  omega

/-- The clock has wrapped between two instants less than a turn apart: the later one has the
smaller reading. -/
theorem reading_lt_reading (hlt : a / n < b / n) (hb : b < a + n) : b % n < a % n := by
  have ha := Nat.div_add_mod a n
  have hb' := Nat.div_add_mod b n
  have hturn : n * (a / n + 1) ≤ n * (b / n) := Nat.mul_le_mul_left n hlt
  rw [Nat.mul_add, Nat.mul_one] at hturn
  omega

/-- Two instants less than a turn apart: the readings tell their order exactly when the clock
has not wrapped between them. -/
theorem reading_order_iff (hab : a < b + n) (hba : b < a + n) :
    (a % n ≤ b % n ↔ a ≤ b) ↔ a / n = b / n := by
  constructor
  · intro horder
    by_contra hne
    rcases Nat.lt_or_gt_of_ne hne with hlt | hlt
    · have hle : a ≤ b := by
        by_contra hgt
        exact absurd (Nat.div_le_div_right (le_of_not_ge hgt)) (Nat.not_le.mpr hlt)
      exact absurd (horder.mpr hle) (Nat.not_le.mpr (reading_lt_reading hlt hba))
    · have hle := horder.mp (reading_lt_reading hlt hab).le
      exact absurd (Nat.div_le_div_right hle) (Nat.not_le.mpr hlt)
  · exact reading_le_reading_iff

/-- The difference of the readings, modulo a turn, is the time that has passed. -/
theorem reading_sub_reading (hab : a ≤ b) (hba : b < a + n) :
    (n - a % n + b % n) % n = b - a := by
  have hn : 0 < n := by omega
  have ha := Nat.div_add_mod a n
  have hlt : a % n < n := Nat.mod_lt a hn
  have hsum : n - a % n + b = n * (a / n + 1) + (b - a) := by
    rw [Nat.mul_add, Nat.mul_one]
    omega
  calc (n - a % n + b % n) % n = (n - a % n + b) % n := Nat.add_mod_mod _ _ _
    _ = (b - a) % n := by rw [hsum, Nat.mul_add_mod]
    _ = b - a := Nat.mod_eq_of_lt (by omega)

end WrapClock
