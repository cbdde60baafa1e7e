/-
# Protobuf wire format (`src/bridge/pb_wire.cpp`)

Tags, varints and the four wire types.  `Fields` says what a well-formed message is: one
field after the other, each a tag and a value of the type the tag names.  The parser
accepts the well-formed messages and returns their fields (`parseFields_iff`).
-/
import Mathlib
import QuadrfMesh.Lib.LittleEndian
import QuadrfMesh.Lib.Varint

namespace Pb

open Varint

/-- `enum class WireType`. -/
inductive WireType
  | varint | fixed64 | length | fixed32
  deriving DecidableEq, Repr

namespace WireType

def code : WireType → ℕ
  | varint => 0
  | fixed64 => 1
  | length => 2
  | fixed32 => 5

/-- The types `parseFields` has a case for. -/
def ofCode : ℕ → Option WireType
  | 0 => some varint
  | 1 => some fixed64
  | 2 => some length
  | 5 => some fixed32
  | _ => none

theorem ofCode_eq_some_iff (n : ℕ) (t : WireType) : ofCode n = some t ↔ n = t.code := by
  constructor
  · intro h
    unfold ofCode at h
    split at h
    · cases h
      rfl
    · cases h
      rfl
    · cases h
      rfl
    · cases h
      rfl
    · exact absurd h (by simp)
  · rintro rfl
    cases t <;> rfl

theorem code_lt (t : WireType) : t.code < 8 := by
  cases t <;> decide

end WireType

/-! ## Writers -/

/-- `tag`. -/
def tag (field : ℕ) (wt : WireType) : ℕ := (field <<< 3) % 2 ^ 32 ||| wt.code

/-- `writeVarint`. -/
def writeVarint (v : ℕ) : List UInt8 :=
  if 0x80 ≤ v then UInt8.ofNat ((v &&& 0x7F) ||| 0x80) :: writeVarint (v >>> 7)
  else [UInt8.ofNat v]
termination_by v
decreasing_by
  rw [Nat.shiftRight_eq_div_pow]
  omega

/-- `writeTag`. -/
def writeTag (field : ℕ) (wt : WireType) : List UInt8 := writeVarint (tag field wt)

/-- `writeU32`. -/
def writeU32 (field : ℕ) (v : UInt32) : List UInt8 :=
  -- the default of proto3 is left out
  if v = 0 then [] else writeTag field .varint ++ writeVarint v.toNat

/-- `writeU64`. -/
def writeU64 (field : ℕ) (v : UInt64) : List UInt8 :=
  if v = 0 then [] else writeTag field .varint ++ writeVarint v.toNat

/-- `writeBool`. -/
def writeBool (field : ℕ) (v : Bool) : List UInt8 :=
  if v then writeTag field .varint ++ writeVarint 1 else []

/-- `writeFixed32`. -/
def writeFixed32 (field : ℕ) (v : UInt32) : List UInt8 :=
  if v = 0 then [] else writeTag field .fixed32 ++ LittleEndian.write 4 v.toNat

/-- `v == 0.0f` for the float with these bits: either zero. -/
def floatIsZero (bits : UInt32) : Bool := bits = 0 || bits = 0x80000000

/-- `writeFloat`, of the float with these bits. -/
def writeFloat (field : ℕ) (bits : UInt32) : List UInt8 :=
  if floatIsZero bits then [] else writeTag field .fixed32 ++ LittleEndian.write 4 bits.toNat

/-- `writeBytes`. -/
def writeBytes (field : ℕ) (data : List UInt8) (force : Bool := false) : List UInt8 :=
  if !force && data.isEmpty then []
  else writeTag field .length ++ writeVarint data.length ++ data

/-- `writeString`, of the bytes of a string. -/
def writeString (field : ℕ) (s : List UInt8) : List UInt8 := writeBytes field s

/-- `writeSubmessage`. -/
def writeSubmessage (field : ℕ) (msg : List UInt8) (force : Bool := false) : List UInt8 :=
  writeBytes field msg force

/-! ## The parser -/

/-- `struct Field`; `data` is the offset of the pointer in the parsed bytes. -/
structure Field where
  number : ℕ := 0
  type : WireType := .varint
  varint : ℕ := 0
  fixed32 : ℕ := 0
  fixed64 : ℕ := 0
  data : Option ℕ := none
  len : ℕ := 0
  deriving DecidableEq, Repr

/-- The loop of `readVarint`: the value and what follows it. -/
def readVarintFrom (shift v : ℕ) : List UInt8 → Option (ℕ × List UInt8)
  | [] => none
  | b :: p =>
      if 63 < shift then none
      else
        let v := v ||| (((b.toNat &&& 0x7F) <<< shift) % 2 ^ 64)
        if b.toNat &&& 0x80 = 0 then some (v, p) else readVarintFrom (shift + 7) v p

/-- `readVarint`. -/
def readVarint (p : List UInt8) : Option (ℕ × List UInt8) := readVarintFrom 0 0 p

/-- The body of `parseFields`' loop: one field of a message of `size` bytes that ends in
`p`, and what follows it. -/
def parseField (size : ℕ) (p : List UInt8) : Option (Field × List UInt8) :=
  (readVarint p).bind fun (rawTag, p) =>
    let number := (rawTag >>> 3) % 2 ^ 32
    match WireType.ofCode (rawTag &&& 7) with
    | some .varint =>
        (readVarint p).map fun (varint, p) => ({ number, type := .varint, varint }, p)
    | some .fixed64 =>
        if p.length < 8 then none
        else some ({ number, type := .fixed64, fixed64 := LittleEndian.read 8 p }, p.drop 8)
    | some .length =>
        (readVarint p).bind fun (len, p) =>
          if p.length < len then none
          else some ({ number, type := .length, data := some (size - p.length), len }, p.drop len)
    | some .fixed32 =>
        if p.length < 4 then none
        else some ({ number, type := .fixed32, fixed32 := LittleEndian.read 4 p }, p.drop 4)
    | none => none

/-! ## Varints -/

theorem and_0x80_eq_zero_iff (b : UInt8) : b.toNat &&& 0x80 = 0 ↔ b.toNat < 128 := by
  have h : ∀ n < 256, (n &&& 0x80 = 0 ↔ n < 128) := by decide +kernel
  exact h b.toNat b.toNat_lt

/-- The accumulator after one more group. -/
theorem acc_lt {k acc : ℕ} (hacc : acc < 2 ^ (7 * k)) (b : UInt8) :
    (acc + b.toNat % 128 * 2 ^ (7 * k)) % 2 ^ 64 < 2 ^ (7 * (k + 1)) := by
  have hmod : b.toNat % 128 + 1 ≤ 128 := Nat.mod_lt _ (by decide)
  calc (acc + b.toNat % 128 * 2 ^ (7 * k)) % 2 ^ 64
      ≤ acc + b.toNat % 128 * 2 ^ (7 * k) := Nat.mod_le _ _
    _ < 2 ^ (7 * k) + b.toNat % 128 * 2 ^ (7 * k) := Nat.add_lt_add_right hacc _
    _ = (b.toNat % 128 + 1) * 2 ^ (7 * k) := by ring
    _ ≤ 128 * 2 ^ (7 * k) := Nat.mul_le_mul_right _ hmod
    _ = 2 ^ (7 * (k + 1)) := by ring

/-- The value of the groups, the first of them in the accumulator. -/
theorem acc_value (k acc : ℕ) (b : UInt8) (bs : List UInt8) :
    ((acc + b.toNat % 128 * 2 ^ (7 * k)) % 2 ^ 64 + value bs * 2 ^ (7 * (k + 1))) % 2 ^ 64
      = (acc + value (b :: bs) * 2 ^ (7 * k)) % 2 ^ 64 := by
  rw [Nat.mod_add_mod, value]
  congr 1
  ring

/-- One turn of `readVarint`, while there may be one. -/
theorem readVarintFrom_cons {k acc : ℕ} (hk : k < 10) (hacc : acc < 2 ^ (7 * k)) (b : UInt8)
    (p : List UInt8) :
    readVarintFrom (7 * k) acc (b :: p)
      = if b.toNat < 128 then some ((acc + b.toNat % 128 * 2 ^ (7 * k)) % 2 ^ 64, p)
        else readVarintFrom (7 * (k + 1)) ((acc + b.toNat % 128 * 2 ^ (7 * k)) % 2 ^ 64) p := by
  have hlow : b.toNat &&& 0x7F = b.toNat % 128 := Nat.and_two_pow_sub_one_eq_mod b.toNat 7
  have hfirst : ¬ 63 < 7 * k := by omega
  have hor := or_shiftLeft_mod acc (b.toNat % 128) hacc (by omega : 7 * k ≤ 64)
  rw [readVarintFrom, if_neg hfirst]
  simp only [hlow, hor, and_0x80_eq_zero_iff]
  rfl

/-- `readVarint` from the group `k` on. -/
theorem readVarintFrom_eq_some_iff {k acc : ℕ} (hk : k ≤ 10) (hacc : acc < 2 ^ (7 * k))
    (p : List UInt8) (v : ℕ) (rest : List UInt8) :
    readVarintFrom (7 * k) acc p = some (v, rest)
      ↔ ∃ bs, p = bs ++ rest ∧ Groups (10 - k) bs ∧ v = (acc + value bs * 2 ^ (7 * k)) % 2 ^ 64 := by
  induction p generalizing k acc with
  | nil =>
      constructor
      · intro h
        exact absurd h (by simp [readVarintFrom])
      · rintro ⟨bs, hbs, hgroups, -⟩
        have hpos := hgroups.length_pos
        have hlen := congrArg List.length hbs
        rw [List.length_append, List.length_nil] at hlen
        omega
  | cons b p ih =>
      rcases Nat.lt_or_ge k 10 with hlt | hge
      · have hten : 10 - k = 10 - (k + 1) + 1 := by omega
        rw [readVarintFrom_cons hlt hacc]
        split_ifs with hb
        · -- the last group
          constructor
          · intro h
            obtain ⟨rfl, rfl⟩ := Prod.mk.inj (Option.some.inj h)
            refine ⟨[b], rfl, ?_, ?_⟩
            · rw [hten]
              exact Groups.last hb
            · rw [value, value, Nat.mul_zero, Nat.add_zero]
          · rintro ⟨bs, hbs, hgroups, rfl⟩
            rw [hten] at hgroups
            cases hgroups with
            | last _ =>
                obtain ⟨rfl, rfl⟩ := List.cons.inj hbs
                rw [value, value, Nat.mul_zero, Nat.add_zero]
            | more hb' _ =>
                obtain ⟨rfl, -⟩ := List.cons.inj hbs
                exact absurd hb (Nat.not_lt.mpr hb')
        · -- more follows
          rw [ih hlt (acc_lt hacc b)]
          constructor
          · rintro ⟨bs, rfl, hgroups, rfl⟩
            refine ⟨b :: bs, rfl, ?_, acc_value k acc b bs⟩
            rw [hten]
            exact Groups.more (Nat.not_lt.mp hb) hgroups
          · rintro ⟨bs, hbs, hgroups, rfl⟩
            rw [hten] at hgroups
            cases hgroups with
            | last hb' =>
                obtain ⟨rfl, -⟩ := List.cons.inj hbs
                exact absurd hb' hb
            | @more _ _ bs _ hgroups =>
                obtain ⟨rfl, rfl⟩ := List.cons.inj hbs
                exact ⟨bs, rfl, hgroups, (acc_value k acc b bs).symm⟩
      · -- ten groups have been read
        have hlast : 63 < 7 * k := by omega
        rw [readVarintFrom, if_pos hlast]
        constructor
        · intro h
          exact absurd h (by simp)
        · rintro ⟨bs, -, hgroups, -⟩
          rw [Nat.sub_eq_zero_of_le hge] at hgroups
          cases hgroups

/-- The bytes of a varint and its value. -/
def IsVarint (bs : List UInt8) (v : ℕ) : Prop := Groups 10 bs ∧ v = value bs % 2 ^ 64

/-- **What `readVarint` reads.** -/
theorem readVarint_eq_some_iff (p : List UInt8) (v : ℕ) (rest : List UInt8) :
    readVarint p = some (v, rest) ↔ ∃ bs, p = bs ++ rest ∧ IsVarint bs v := by
  have hacc : 0 < 2 ^ (7 * 0) := by decide
  have h := readVarintFrom_eq_some_iff (Nat.zero_le 10) hacc p v rest
  rw [Nat.mul_zero, pow_zero] at h
  simp only [Nat.zero_add, Nat.mul_one, Nat.sub_zero] at h
  exact h

/-! ## Fields -/

/-- The bytes of a well-formed field at the offset `off`, and the field. -/
inductive WellFormed (off : ℕ) : List UInt8 → Field → Prop
  | varint {tagBytes bytes : List UInt8} {t v : ℕ} (ht : IsVarint tagBytes t)
      (hw : t % 8 = WireType.varint.code) (hv : IsVarint bytes v) :
      WellFormed off (tagBytes ++ bytes)
        { number := t / 8 % 2 ^ 32, type := .varint, varint := v }
  | fixed64 {tagBytes bytes : List UInt8} {t : ℕ} (ht : IsVarint tagBytes t)
      (hw : t % 8 = WireType.fixed64.code) (hlen : bytes.length = 8) :
      WellFormed off (tagBytes ++ bytes)
        { number := t / 8 % 2 ^ 32, type := .fixed64, fixed64 := LittleEndian.read 8 bytes }
  | length {tagBytes lenBytes body : List UInt8} {t : ℕ} (ht : IsVarint tagBytes t)
      (hw : t % 8 = WireType.length.code) (hlen : IsVarint lenBytes body.length) :
      WellFormed off (tagBytes ++ (lenBytes ++ body))
        { number := t / 8 % 2 ^ 32, type := .length
          data := some (off + tagBytes.length + lenBytes.length), len := body.length }
  | fixed32 {tagBytes bytes : List UInt8} {t : ℕ} (ht : IsVarint tagBytes t)
      (hw : t % 8 = WireType.fixed32.code) (hlen : bytes.length = 4) :
      WellFormed off (tagBytes ++ bytes)
        { number := t / 8 % 2 ^ 32, type := .fixed32, fixed32 := LittleEndian.read 4 bytes }

/-- A concatenation of well-formed fields, from the offset `off` on, and the fields. -/
inductive Fields : ℕ → List UInt8 → List Field → Prop
  | nil (off : ℕ) : Fields off [] []
  | cons {off : ℕ} {bs rest : List UInt8} {f : Field} {fs : List Field}
      (hf : WellFormed off bs f) (hfs : Fields (off + bs.length) rest fs) :
      Fields off (bs ++ rest) (f :: fs)

/-- A word depends on its own bytes only. -/
theorem read_take {n : ℕ} {p : List UInt8} (h : (p.take n).length = n) :
    LittleEndian.read n (p.take n) = LittleEndian.read n p := by
  have happend := LittleEndian.read_append h.ge (p.drop n)
  rw [List.take_append_drop] at happend
  exact happend.symm

/-- The loop's case for each wire type, once the tag has been read. -/
theorem parseField_tag {size : ℕ} {tagBytes : List UInt8} {t : ℕ} (ht : IsVarint tagBytes t)
    (p : List UInt8) {wt : WireType} (hw : t % 8 = wt.code) :
    parseField size (tagBytes ++ p)
      = match wt with
        | .varint => (readVarint p).map fun (varint, p) =>
            ({ number := t / 8 % 2 ^ 32, type := .varint, varint }, p)
        | .fixed64 =>
            if p.length < 8 then none
            else some ({ number := t / 8 % 2 ^ 32, type := .fixed64
                         fixed64 := LittleEndian.read 8 p }, p.drop 8)
        | .length => (readVarint p).bind fun (len, p) =>
            if p.length < len then none
            else some ({ number := t / 8 % 2 ^ 32, type := .length
                         data := some (size - p.length), len }, p.drop len)
        | .fixed32 =>
            if p.length < 4 then none
            else some ({ number := t / 8 % 2 ^ 32, type := .fixed32
                         fixed32 := LittleEndian.read 4 p }, p.drop 4) := by
  have hread : readVarint (tagBytes ++ p) = some (t, p) :=
    (readVarint_eq_some_iff _ _ _).mpr ⟨tagBytes, rfl, ht⟩
  have hlow : t &&& 7 = t % 8 := Nat.and_two_pow_sub_one_eq_mod t 3
  have hcode : WireType.ofCode (t &&& 7) = some wt := by
    rw [hlow]
    exact (WireType.ofCode_eq_some_iff _ _).mpr hw
  rw [parseField, hread, Option.bind_some]
  simp only [hcode, Nat.shiftRight_eq_div_pow, Nat.reducePow]
  cases wt <;> rfl

/-- **What the loop takes off the head** is a well-formed field. -/
theorem wellFormed_of_parseField {size : ℕ} {p : List UInt8} (hp : p.length ≤ size) {f : Field}
    {rest : List UInt8} (h : parseField size p = some (f, rest)) :
    ∃ bs, p = bs ++ rest ∧ WellFormed (size - p.length) bs f := by
  obtain ⟨⟨t, p'⟩, hread, hcase⟩ := Option.bind_eq_some_iff.mp h
  obtain ⟨tagBytes, rfl, ht⟩ := (readVarint_eq_some_iff _ _ _).mp hread
  have hlow : t &&& 7 = t % 8 := Nat.and_two_pow_sub_one_eq_mod t 3
  cases hwt : WireType.ofCode (t &&& 7) with
  | none =>
      simp only [hwt] at hcase
      exact absurd hcase (by simp)
  | some wt =>
      have hw : t % 8 = wt.code := by
        rw [← hlow]
        exact (WireType.ofCode_eq_some_iff _ _).mp hwt
      rw [parseField_tag ht p' hw] at h
      cases wt with
      | varint =>
          obtain ⟨⟨v, p''⟩, hval, hf⟩ := Option.map_eq_some_iff.mp h
          obtain ⟨bytes, rfl, hv⟩ := (readVarint_eq_some_iff _ _ _).mp hval
          obtain ⟨rfl, rfl⟩ := Prod.mk.inj hf
          exact ⟨tagBytes ++ bytes, (List.append_assoc ..).symm, WellFormed.varint ht hw hv⟩
      | fixed64 =>
          obtain ⟨hlen, hf⟩ := Option.ite_none_left_eq_some.mp h
          obtain ⟨rfl, rfl⟩ := Prod.mk.inj (Option.some.inj hf)
          have htake : (p'.take 8).length = 8 := List.length_take_of_le (Nat.not_lt.mp hlen)
          refine ⟨tagBytes ++ p'.take 8, ?_, ?_⟩
          · rw [List.append_assoc, List.take_append_drop]
          · rw [← read_take htake]
            exact WellFormed.fixed64 ht hw htake
      | length =>
          obtain ⟨⟨len, p''⟩, hval, hf⟩ := Option.bind_eq_some_iff.mp h
          obtain ⟨lenBytes, rfl, hlen⟩ := (readVarint_eq_some_iff _ _ _).mp hval
          obtain ⟨hle, hf⟩ := Option.ite_none_left_eq_some.mp hf
          obtain ⟨rfl, rfl⟩ := Prod.mk.inj (Option.some.inj hf)
          have htake : (p''.take len).length = len := List.length_take_of_le (Nat.not_lt.mp hle)
          refine ⟨tagBytes ++ (lenBytes ++ p''.take len), ?_, ?_⟩
          · rw [List.append_assoc, List.append_assoc, List.take_append_drop]
          · rw [← htake] at hlen
            have hform : WellFormed (size - (tagBytes ++ (lenBytes ++ p'')).length) _ _ :=
              WellFormed.length ht hw hlen
            rw [List.length_append, List.length_append] at hp
            rw [htake, List.length_append, List.length_append] at hform
            rw [show size - p''.length = size - (tagBytes.length + (lenBytes.length + p''.length))
              + tagBytes.length + lenBytes.length by omega]
            simpa only [List.length_append] using hform
      | fixed32 =>
          obtain ⟨hlen, hf⟩ := Option.ite_none_left_eq_some.mp h
          obtain ⟨rfl, rfl⟩ := Prod.mk.inj (Option.some.inj hf)
          have htake : (p'.take 4).length = 4 := List.length_take_of_le (Nat.not_lt.mp hlen)
          refine ⟨tagBytes ++ p'.take 4, ?_, ?_⟩
          · rw [List.append_assoc, List.take_append_drop]
          · rw [← read_take htake]
            exact WellFormed.fixed32 ht hw htake

/-- A well-formed field at the head is taken off. -/
theorem parseField_of_wellFormed {size : ℕ} {bs rest : List UInt8}
    (hp : (bs ++ rest).length ≤ size) {f : Field}
    (hform : WellFormed (size - (bs ++ rest).length) bs f) :
    parseField size (bs ++ rest) = some (f, rest) := by
  cases hform with
  | @varint tagBytes bytes t v ht hw hv =>
      have hread : readVarint (bytes ++ rest) = some (v, rest) :=
        (readVarint_eq_some_iff _ _ _).mpr ⟨bytes, rfl, hv⟩
      rw [List.append_assoc, parseField_tag ht _ hw]
      simp only [hread, Option.map_some]
  | @fixed64 tagBytes bytes t ht hw hlen =>
      have hle : ¬ (bytes ++ rest).length < 8 := by
        rw [List.length_append]
        omega
      rw [List.append_assoc, parseField_tag ht _ hw]
      simp only [if_neg hle, LittleEndian.read_append hlen.ge, List.drop_left' hlen]
  | @length tagBytes lenBytes body t ht hw hlen =>
      have hread : readVarint (lenBytes ++ (body ++ rest)) = some (body.length, body ++ rest) :=
        (readVarint_eq_some_iff _ _ _).mpr ⟨lenBytes, rfl, hlen⟩
      have hle : ¬ (body ++ rest).length < body.length := by
        rw [List.length_append]
        omega
      have hoff : size - (body ++ rest).length
          = size - (tagBytes ++ (lenBytes ++ (body ++ rest))).length + tagBytes.length
            + lenBytes.length := by
        simp only [List.length_append] at hp ⊢
        omega
      rw [List.append_assoc, List.append_assoc, parseField_tag ht _ hw]
      simp only [hread, Option.bind_some, if_neg hle, List.drop_left, hoff]
  | @fixed32 tagBytes bytes t ht hw hlen =>
      have hle : ¬ (bytes ++ rest).length < 4 := by
        rw [List.length_append]
        omega
      rw [List.append_assoc, parseField_tag ht _ hw]
      simp only [if_neg hle, LittleEndian.read_append hlen.ge, List.drop_left' hlen]

theorem WellFormed.length_pos {off : ℕ} {bs : List UInt8} {f : Field} (h : WellFormed off bs f) :
    0 < bs.length := by
  cases h with
  | varint ht _ _ =>
      have hpos := ht.1.length_pos
      rw [List.length_append]
      omega
  | fixed64 ht _ _ =>
      have hpos := ht.1.length_pos
      rw [List.length_append]
      omega
  | length ht _ _ =>
      have hpos := ht.1.length_pos
      rw [List.length_append]
      omega
  | fixed32 ht _ _ =>
      have hpos := ht.1.length_pos
      rw [List.length_append]
      omega

theorem readVarint_length_lt {p rest : List UInt8} {v : ℕ} (h : readVarint p = some (v, rest)) :
    rest.length < p.length := by
  obtain ⟨bs, rfl, hbs⟩ := (readVarint_eq_some_iff _ _ _).mp h
  have hpos := hbs.1.length_pos
  rw [List.length_append]
  omega

/-- A field takes at least its tag. -/
theorem parseField_length_lt {size : ℕ} {p : List UInt8} {f : Field} {rest : List UInt8}
    (h : parseField size p = some (f, rest)) : rest.length < p.length := by
  obtain ⟨⟨t, p'⟩, hread, hcase⟩ := Option.bind_eq_some_iff.mp h
  have htag := readVarint_length_lt hread
  refine lt_of_le_of_lt ?_ htag
  simp only at hcase
  split at hcase
  · obtain ⟨⟨v, p''⟩, hval, hf⟩ := Option.map_eq_some_iff.mp hcase
    obtain ⟨-, rfl⟩ := Prod.mk.inj hf
    exact (readVarint_length_lt hval).le
  · obtain ⟨-, hf⟩ := Option.ite_none_left_eq_some.mp hcase
    obtain ⟨-, rfl⟩ := Prod.mk.inj (Option.some.inj hf)
    exact (List.drop_sublist _ _).length_le
  · obtain ⟨⟨len, p''⟩, hval, hf⟩ := Option.bind_eq_some_iff.mp hcase
    obtain ⟨-, hf⟩ := Option.ite_none_left_eq_some.mp hf
    obtain ⟨-, rfl⟩ := Prod.mk.inj (Option.some.inj hf)
    exact (List.drop_sublist _ _).length_le.trans (readVarint_length_lt hval).le
  · obtain ⟨-, hf⟩ := Option.ite_none_left_eq_some.mp hcase
    obtain ⟨-, rfl⟩ := Prod.mk.inj (Option.some.inj hf)
    exact (List.drop_sublist _ _).length_le
  · exact absurd hcase (by simp)

/-- The loop of `parseFields`. -/
def parseLoop (size : ℕ) (p : List UInt8) : Option (List Field) :=
  if p = [] then some []
  else
    match _h : parseField size p with
    | none => none
    | some (f, rest) => (parseLoop size rest).map (f :: ·)
termination_by p.length
decreasing_by exact parseField_length_lt _h

/-- `parseFields`; `none` where it returns false. -/
def parseFields (data : List UInt8) : Option (List Field) := parseLoop data.length data

theorem parseLoop_cons {size : ℕ} {p : List UInt8} (hp : p ≠ []) :
    parseLoop size p
      = (parseField size p).bind fun r => (parseLoop size r.2).map (r.1 :: ·) := by
  rw [parseLoop, if_neg hp]
  split
  · rename_i h
    rw [h]
    rfl
  · rename_i f rest h
    rw [h]
    rfl

/-- **What the loop accepts**: well-formed fields one after the other, and nothing else. -/
theorem parseLoop_eq_some_iff {size : ℕ} (p : List UInt8) (hp : p.length ≤ size)
    (fs : List Field) : parseLoop size p = some fs ↔ Fields (size - p.length) p fs := by
  induction hn : p.length using Nat.strong_induction_on generalizing p fs with
  | _ n ih =>
  subst hn
  rcases eq_or_ne p [] with rfl | hne
  · rw [parseLoop, if_pos rfl]
    constructor
    · intro h
      obtain rfl := Option.some.inj h
      exact Fields.nil _
    · intro h
      generalize hq : ([] : List UInt8) = q at h
      cases h with
      | nil _ => rfl
      | cons hf _ =>
          have hpos := hf.length_pos
          have hlen := congrArg List.length hq
          rw [List.length_append, List.length_nil] at hlen
          omega
  · rw [parseLoop_cons hne]
    constructor
    · intro h
      obtain ⟨⟨f, rest⟩, hfield, hrest⟩ := Option.bind_eq_some_iff.mp h
      obtain ⟨fs', hloop, rfl⟩ := Option.map_eq_some_iff.mp hrest
      have hlt := parseField_length_lt hfield
      obtain ⟨bs, rfl, hform⟩ := wellFormed_of_parseField hp hfield
      have htail := (ih rest.length hlt rest (by omega) fs' rfl).mp hloop
      rw [List.length_append] at hp
      refine Fields.cons hform ?_
      rw [List.length_append, show size - (bs.length + rest.length) + bs.length
        = size - rest.length by omega]
      exact htail
    · intro h
      generalize hoff : size - p.length = off at h
      cases h with
      | nil _ => exact absurd rfl hne
      | @cons _ bs rest f fs hform htail =>
          have hpos := hform.length_pos
          have hlen : (bs ++ rest).length = bs.length + rest.length := List.length_append
          have hfield : parseField size (bs ++ rest) = some (f, rest) :=
            parseField_of_wellFormed hp (by rw [hoff]; exact hform)
          have hloop : parseLoop size rest = some fs := by
            apply (ih rest.length (by omega) rest (by omega) fs rfl).mpr
            rw [show size - rest.length = off + bs.length by omega]
            exact htail
          rw [hfield, Option.bind_some, hloop]
          rfl

/-- **What `parseFields` accepts.** -/
theorem parseFields_eq_some_iff (data : List UInt8) (fs : List Field) :
    parseFields data = some fs ↔ Fields 0 data fs := by
  have h := parseLoop_eq_some_iff data le_rfl fs
  rwa [Nat.sub_self] at h

/-! ## Slices -/

namespace Field

/-- The bytes from `data` to `data + len`. -/
def bytes (f : Field) (parsed : List UInt8) : List UInt8 :=
  match f.data with
  | none => []
  | some off => (parsed.drop off).take f.len

/-- The field found `k` bytes further on. -/
def shift (k : ℕ) (f : Field) : Field := { f with data := f.data.map (· + k) }

theorem bytes_shift (f : Field) (a b : List UInt8) :
    (f.shift a.length).bytes (a ++ b) = f.bytes b := by
  unfold shift bytes
  cases f.data with
  | none => rfl
  | some off =>
      simp only [Option.map_some]
      rw [Nat.add_comm, List.drop_length_add_append]

end Field

theorem WellFormed.shift {off : ℕ} {bs : List UInt8} {f : Field} (h : WellFormed off bs f)
    (k : ℕ) : WellFormed (off + k) bs (f.shift k) := by
  cases h with
  | varint ht hw hv => exact WellFormed.varint ht hw hv
  | fixed64 ht hw hlen => exact WellFormed.fixed64 ht hw hlen
  | @length tagBytes lenBytes body t ht hw hlen =>
      have hform : WellFormed (off + k) _ _ := WellFormed.length ht hw hlen
      rw [show off + k + tagBytes.length + lenBytes.length
        = off + tagBytes.length + lenBytes.length + k by omega] at hform
      exact hform
  | fixed32 ht hw hlen => exact WellFormed.fixed32 ht hw hlen

theorem Fields.shift {off : ℕ} {bs : List UInt8} {fs : List Field} (h : Fields off bs fs)
    (k : ℕ) : Fields (off + k) bs (fs.map (Field.shift k)) := by
  induction h with
  | nil off => exact Fields.nil _
  | @cons off bs rest f fs hf _ ih =>
      rw [Nat.add_right_comm] at ih
      exact Fields.cons (hf.shift k) ih

theorem Fields.append {off : ℕ} {a b : List UInt8} {fa fb : List Field} (ha : Fields off a fa)
    (hb : Fields (off + a.length) b fb) : Fields off (a ++ b) (fa ++ fb) := by
  induction ha with
  | nil off => exact hb
  | @cons off bs rest f fs hf _ ih =>
      rw [List.length_append, ← Nat.add_assoc] at hb
      rw [List.append_assoc]
      exact Fields.cons hf (ih hb)

/-- The slice of a field lies in the field. -/
theorem WellFormed.slice {off : ℕ} {bs : List UInt8} {f : Field} (h : WellFormed off bs f)
    {o : ℕ} (ho : f.data = some o) : off ≤ o ∧ o + f.len ≤ off + bs.length := by
  cases h with
  | varint _ _ _ => exact absurd ho (by simp)
  | fixed64 _ _ _ => exact absurd ho (by simp)
  | @length tagBytes lenBytes body t _ _ _ =>
      obtain rfl := Option.some.inj ho
      simp only [List.length_append]
      omega
  | fixed32 _ _ _ => exact absurd ho (by simp)

theorem Fields.slice {off : ℕ} {bs : List UInt8} {fs : List Field} (h : Fields off bs fs)
    {f : Field} (hf : f ∈ fs) {o : ℕ} (ho : f.data = some o) :
    off ≤ o ∧ o + f.len ≤ off + bs.length := by
  induction h with
  | nil off => exact absurd hf (by simp)
  | @cons off bs rest g fs hform _ ih =>
      rw [List.length_append]
      rcases List.mem_cons.mp hf with rfl | hmem
      · have hin := hform.slice ho
        omega
      · have hin := ih hmem
        omega

/-- A slice inside the first part is read from it. -/
theorem Field.bytes_append {f : Field} {a : List UInt8}
    (h : ∀ o, f.data = some o → o + f.len ≤ a.length) (b : List UInt8) :
    f.bytes (a ++ b) = f.bytes a := by
  unfold Field.bytes
  cases hdata : f.data with
  | none => rfl
  | some off =>
      have hle := h off hdata
      simp only
      rw [List.drop_append_of_le_length (by omega), List.take_append_of_le_length]
      rw [List.length_drop]
      omega

/-- **`parseFields` on every byte string**: it returns, and returns fields exactly when the
string is a concatenation of well-formed fields, and then these, in order; their slices lie
in the string; and two accepted strings joined give the two lists of fields joined. -/
theorem parseFields_spec :
    (∀ data fs, parseFields data = some fs ↔ Fields 0 data fs) ∧
    (∀ data fs, parseFields data = some fs → ∀ f ∈ fs, ∀ off, f.data = some off →
      off + f.len ≤ data.length) ∧
    ∀ a b fa fb, parseFields a = some fa → parseFields b = some fb →
      parseFields (a ++ b) = some (fa ++ fb.map (Field.shift a.length)) ∧
      (∀ f ∈ fa, f.bytes (a ++ b) = f.bytes a) ∧
      ∀ f ∈ fb, (f.shift a.length).bytes (a ++ b) = f.bytes b := by
  refine ⟨parseFields_eq_some_iff, ?_, ?_⟩
  · intro data fs h f hf off hoff
    have hin := ((parseFields_eq_some_iff data fs).mp h).slice hf hoff
    omega
  · intro a b fa fb ha hb
    rw [parseFields_eq_some_iff] at ha hb
    refine ⟨?_, ?_, fun f _ => f.bytes_shift a b⟩
    · rw [parseFields_eq_some_iff]
      exact ha.append (hb.shift a.length)
    · intro f hf
      apply Field.bytes_append
      intro o ho
      have hin := ha.slice hf ho
      omega

/-- Two messages joined: one byte of field 2, then a varint and an empty slice. -/
theorem parseFields_spec_joined :
    parseFields ([0x12, 1, 7] ++ [0x08, 0x96, 1, 0x2A, 0])
      = some [{ number := 2, type := .length, data := some 2, len := 1 },
          { number := 1, type := .varint, varint := 150 },
          { number := 5, type := .length, data := some 8, len := 0 }] :=
  (parseFields_spec.2.2 [0x12, 1, 7] [0x08, 0x96, 1, 0x2A, 0]
    [{ number := 2, type := .length, data := some 2, len := 1 }]
    [{ number := 1, type := .varint, varint := 150 },
      { number := 5, type := .length, data := some 5, len := 0 }]
    (by decide +kernel) (by decide +kernel)).1

end Pb
