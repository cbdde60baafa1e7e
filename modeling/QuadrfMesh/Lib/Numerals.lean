/-
# Numbers read from text

Digits in a base, read from the front of a text as far as they go (`readDigits`).  Decimal digits
as `Nat.toDigits` writes them, and digits written in a fixed number of places, are read back.
-/
import Mathlib

namespace Numerals

/-! ## Digits -/

/-- The value of a digit or a letter. -/
def charValue (c : Char) : Option ℕ :=
  if '0'.toNat ≤ c.toNat ∧ c.toNat ≤ '9'.toNat then some (c.toNat - '0'.toNat)
  else if 'a'.toNat ≤ c.toNat ∧ c.toNat ≤ 'z'.toNat then some (c.toNat - 'a'.toNat + 10)
  else if 'A'.toNat ≤ c.toNat ∧ c.toNat ≤ 'Z'.toNat then some (c.toNat - 'A'.toNat + 10)
  else none

/-- The value of a digit in a base. -/
def digitOf (base : ℕ) (c : Char) : Option ℕ := (charValue c).filter fun d => decide (d < base)

/-- The digits at the front of a text, behind a number: the number they make, and what follows. -/
def readDigits (base : ℕ) : ℕ → List Char → ℕ × List Char
  | acc, [] => (acc, [])
  | acc, c :: cs =>
      match digitOf base c with
      | some d => readDigits base (base * acc + d) cs
      | none => (acc, c :: cs)

theorem readDigits_nil (base acc : ℕ) : readDigits base acc [] = (acc, []) := rfl

theorem readDigits_some {base acc d : ℕ} {c : Char} (h : digitOf base c = some d) (cs : List Char) :
    readDigits base acc (c :: cs) = readDigits base (base * acc + d) cs := by
  rw [readDigits, h]

theorem readDigits_none {base acc : ℕ} {c : Char} (h : digitOf base c = none) (cs : List Char) :
    readDigits base acc (c :: cs) = (acc, c :: cs) := by
  rw [readDigits, h]

/-! ## Digits that were written -/

theorem digitOf_digitChar {base d : ℕ} (hbase : base ≤ 16) (hd : d < base) :
    digitOf base (Nat.digitChar d) = some d := by
  have hall : ∀ d < 16, charValue (Nat.digitChar d) = some d := by decide
  rw [digitOf, hall d (by omega), Option.filter_some, if_pos (decide_eq_true hd)]

/-- Written digits are read one after the other. -/
theorem readDigits_digitChars {base : ℕ} (hbase : base ≤ 16) {ds : List ℕ} (hds : ∀ d ∈ ds, d < base)
    (acc : ℕ) (rest : List Char) :
    readDigits base acc (ds.map Nat.digitChar ++ rest)
      = readDigits base (ds.foldl (fun a d => base * a + d) acc) rest := by
  induction ds generalizing acc with
  | nil => rfl
  | cons d ds ih =>
      obtain ⟨hd, hrest⟩ := List.forall_mem_cons.mp hds
      rw [List.map_cons, List.cons_append, readDigits_some (digitOf_digitChar hbase hd), ih hrest]
      rfl

theorem digitOf_ten {c : Char} (h : c.isDigit = true) : digitOf 10 c = some (c.toNat - '0'.toNat) := by
  have hbounds : 48 ≤ c.toNat ∧ c.toNat ≤ 57 := by
    rw [Char.isDigit, Bool.and_eq_true, decide_eq_true_eq, decide_eq_true_eq] at h
    exact h
  have hzero : '0'.toNat = 48 := rfl
  have hnine : '9'.toNat = 57 := rfl
  rw [digitOf, charValue, if_pos (by omega), Option.filter_some, if_pos (decide_eq_true (by omega))]

/-- A decimal number is read back. -/
theorem readDigits_toDigits (n : ℕ) (rest : List Char) :
    readDigits 10 0 (Nat.toDigits 10 n ++ rest) = readDigits 10 n rest := by
  have hread : ∀ (cs : List Char), (∀ c ∈ cs, c.isDigit = true) → ∀ acc,
      readDigits 10 acc (cs ++ rest) = readDigits 10 (Nat.ofDigitChars 10 cs acc) rest := by
    intro cs
    induction cs with
    | nil => exact fun _ _ => rfl
    | cons c cs ih =>
        intro hcs acc
        obtain ⟨hc, hrest⟩ := List.forall_mem_cons.mp hcs
        rw [List.cons_append, readDigits_some (digitOf_ten hc), ih hrest, Nat.ofDigitChars_cons]
  rw [hread _ (fun c hc => Nat.isDigit_of_mem_toDigits (by norm_num) (by norm_num) hc),
    Nat.ofDigitChars_ten_toDigits]

/-! ## A fixed number of places -/

/-- The last `places` digits of a number. -/
def lastDigits (base places n : ℕ) : List ℕ :=
  (List.range places).map fun k => n / base ^ (places - 1 - k) % base

theorem lastDigits_succ (base places n : ℕ) :
    lastDigits base (places + 1) n = lastDigits base places (n / base) ++ [n % base] := by
  rw [lastDigits, List.range_succ, List.map_append, lastDigits]
  congr 1
  · refine List.map_congr_left fun k hk => ?_
    have hlt := List.mem_range.mp hk
    rw [Nat.div_div_eq_div_mul, ← pow_succ', show places + 1 - 1 - k = places - 1 - k + 1 by omega]
  · simp

theorem lastDigits_lt {base : ℕ} (hbase : 0 < base) (places n : ℕ) :
    ∀ d ∈ lastDigits base places n, d < base := by
  intro d hd
  obtain ⟨k, -, rfl⟩ := List.mem_map.mp hd
  exact Nat.mod_lt _ hbase

/-- They make the number modulo the power of the base. -/
theorem foldl_lastDigits (base places n acc : ℕ) :
    (lastDigits base places n).foldl (fun a d => base * a + d) acc
      = acc * base ^ places + n % base ^ places := by
  induction places generalizing n with
  | zero => simp [lastDigits, Nat.mod_one]
  | succ places ih =>
      rw [lastDigits_succ, List.foldl_append, ih, List.foldl_cons, List.foldl_nil, pow_succ',
        Nat.mod_mul]
      ring

end Numerals
