/-
# Turning a list

A list on a circle, turned by a number of places in either direction.  Turns compose by
addition (`turn_turn`), an element is found as many places over (`getElem?_turn`), and so is
the greatest one (`GreatestAt.turn`).
-/
import Mathlib

namespace Turn

variable {α : Type*}

/-- `l` turned by `k` places: what stood at `u` stands at `u + k`. -/
def turn (k : ℤ) (l : List α) : List α := l.rotate (-k % l.length).toNat

/-- The place `k` over from `u`, on a circle of `n`. -/
def place (n : ℕ) (k : ℤ) (u : ℕ) : ℕ := ((u + k) % n).toNat

theorem place_lt {n : ℕ} (hn : 0 < n) (k : ℤ) (u : ℕ) : place n k u < n := by
  have hlt : ((u : ℤ) + k) % n < n := Int.emod_lt_of_pos _ (by omega)
  have hnonneg : 0 ≤ ((u : ℤ) + k) % n := Int.emod_nonneg _ (by omega)
  unfold place
  omega

theorem cast_toNat_emod {n : ℕ} (hn : 0 < n) (k : ℤ) : ((k % n).toNat : ℤ) = k % n :=
  Int.toNat_of_nonneg (Int.emod_nonneg _ (by omega))

theorem cast_place {n : ℕ} (hn : 0 < n) (k : ℤ) (u : ℕ) : (place n k u : ℤ) = (u + k) % n :=
  cast_toNat_emod hn _

/-- There and back. -/
theorem place_neg {n : ℕ} (k : ℤ) {u : ℕ} (hu : u < n) : place n k (place n (-k) u) = u := by
  have hn : 0 < n := lt_of_le_of_lt (Nat.zero_le u) hu
  have hback : (place n k (place n (-k) u) : ℤ) = u := by
    rw [cast_place hn, cast_place hn, Int.emod_add_emod, neg_add_cancel_right,
      Int.emod_eq_of_lt (by omega) (by omega)]
  exact_mod_cast hback

theorem neg_place {n : ℕ} (k : ℤ) {u : ℕ} (hu : u < n) : place n (-k) (place n k u) = u := by
  have hback := place_neg (-k) hu
  rwa [neg_neg] at hback

/-- The place in the way of `(u + n - s) % n`, `s` the turn within one circle. -/
theorem place_neg_eq {n : ℕ} (hn : 0 < n) (k : ℤ) (u : ℕ) :
    (u + n - (k % n).toNat) % n = place n (-k) u := by
  have hlt : k % n < n := Int.emod_lt_of_pos _ (by omega)
  have hcast : ((u + n - (k % n).toNat : ℕ) : ℤ) % n = place n (-k) u := by
    rw [Nat.cast_sub (by omega), Nat.cast_add, cast_toNat_emod hn, cast_place hn,
      Int.sub_emod_emod, add_sub_right_comm, Int.add_emod_right, sub_eq_add_neg]
  exact_mod_cast hcast

@[simp] theorem length_turn (k : ℤ) (l : List α) : (turn k l).length = l.length :=
  List.length_rotate _ _

/-- Rotations by amounts that differ by whole turns. -/
theorem rotate_eq_rotate {l : List α} {m n : ℕ} (h : (m : ℤ) ≡ n [ZMOD l.length]) :
    l.rotate m = l.rotate n := by
  have hmod : m % l.length = n % l.length := by
    have := h.eq
    omega
  rw [← List.rotate_mod l m, hmod, List.rotate_mod]

theorem turn_eq_rotate {l : List α} {k : ℤ} {n : ℕ} (h : -k ≡ n [ZMOD l.length]) :
    turn k l = l.rotate n := by
  cases l with
  | nil => rw [turn, List.rotate_nil, List.rotate_nil]
  | cons a l =>
      have hpos : 0 < (a :: l).length := Nat.succ_pos _
      apply rotate_eq_rotate
      rw [cast_toNat_emod hpos]
      exact (Int.mod_modEq _ _).trans h

/-- **Turns compose** by addition. -/
theorem turn_turn (a b : ℤ) (l : List α) : turn b (turn a l) = turn (a + b) l := by
  cases l with
  | nil => simp [turn]
  | cons x l =>
      have hpos : 0 < (x :: l).length := Nat.succ_pos _
      have hsum : turn (a + b) (x :: l) = (x :: l).rotate
          ((-a % (x :: l).length).toNat + (-b % (x :: l).length).toNat) := by
        apply turn_eq_rotate
        rw [Nat.cast_add, cast_toNat_emod hpos, cast_toNat_emod hpos, neg_add]
        exact ((Int.mod_modEq _ _).add (Int.mod_modEq _ _)).symm
      rw [hsum, ← List.rotate_rotate]
      unfold turn
      rw [List.length_rotate]

/-- An element of a turned list. -/
theorem getElem?_turn (k : ℤ) {l : List α} {u : ℕ} (hu : u < l.length) :
    (turn k l)[u]? = l[place l.length (-k) u]? := by
  have hpos : 0 < l.length := lt_of_le_of_lt (Nat.zero_le u) hu
  have hplace : (u + (-k % l.length).toNat) % l.length = place l.length (-k) u := by
    have hcast : ((u + (-k % l.length).toNat : ℕ) : ℤ) % l.length = place l.length (-k) u := by
      rw [Nat.cast_add, cast_toNat_emod hpos, Int.add_emod_emod, cast_place hpos]
    exact_mod_cast hcast
  rw [turn, List.getElem?_rotate hu, hplace]

section Greatest

variable [LT α]

/-- The greatest element is at `u`, and nowhere else. -/
def GreatestAt (l : List α) (u : ℕ) : Prop :=
  ∃ x, l[u]? = some x ∧ ∀ k y, l[k]? = some y → k ≠ u → y < x

theorem GreatestAt.lt {l : List α} {u : ℕ} (h : GreatestAt l u) : u < l.length := by
  obtain ⟨x, hx, -⟩ := h
  exact (List.getElem?_eq_some_iff.mp hx).1

theorem GreatestAt.unique {α : Type*} [Preorder α] {l : List α} {u u' : ℕ} (h : GreatestAt l u)
    (h' : GreatestAt l u') : u = u' := by
  obtain ⟨x, hx, hless⟩ := h
  obtain ⟨x', hx', hless'⟩ := h'
  by_contra hne
  exact lt_asymm (hless u' x' hx' (Ne.symm hne)) (hless' u x hx hne)

/-- **The greatest element** of a turned list is as many places over. -/
theorem GreatestAt.turn {l : List α} {u : ℕ} (h : GreatestAt l u) (k : ℤ) :
    GreatestAt (turn k l) (place l.length k u) := by
  have hu : u < l.length := h.lt
  obtain ⟨x, hx, hless⟩ := h
  have hpos : 0 < l.length := lt_of_le_of_lt (Nat.zero_le u) hu
  refine ⟨x, ?_, ?_⟩
  · rw [getElem?_turn k (place_lt hpos k u), neg_place k hu]
    exact hx
  · intro j y hy hne
    have hj : j < l.length := by
      have := (List.getElem?_eq_some_iff.mp hy).1
      rwa [length_turn] at this
    rw [getElem?_turn k hj] at hy
    refine hless _ y hy fun heq => hne ?_
    rw [← heq, place_neg k hj]

end Greatest

end Turn
