/-
# Messages as the writers write them (`src/bridge/pb_wire.cpp`)

A written varint is one of the value written, and each writer writes one field, or none for
a zero.  Messages written one after the other have the fields of both, so the fields of any
sequence of writes are those of its writes in order.
-/
import QuadrfMesh.Bridge.PbWire

namespace Pb

open Varint

/-! ## Varints -/

theorem writeVarint_of_lt {v : ℕ} (h : v < 128) : writeVarint v = [UInt8.ofNat v] := by
  rw [writeVarint, if_neg (by omega)]

theorem writeVarint_of_le {v : ℕ} (h : 128 ≤ v) :
    writeVarint v = UInt8.ofNat (v % 128 + 128) :: writeVarint (v / 128) := by
  have hlow : v &&& 0x7F = v % 128 := Nat.and_two_pow_sub_one_eq_mod v 7
  have hor : (v % 128) ||| 0x80 = v % 128 + 128 := by
    have hlt : v % 128 < 2 ^ 7 := Nat.mod_lt v (by decide)
    have hshift := Nat.shiftLeft_add_eq_or_of_lt hlt 1
    rw [Nat.or_comm, Nat.add_comm]
    exact hshift.symm
  rw [writeVarint, if_pos h, hlow, hor, Nat.shiftRight_eq_div_pow]

theorem toNat_ofNat_byte {n : ℕ} (h : n < 256) : (UInt8.ofNat n).toNat = n := by
  rw [UInt8.toNat_ofNat']
  exact Nat.mod_eq_of_lt h

theorem toNat_eq_zero_iff (v : UInt32) : v.toNat = 0 ↔ v = 0 := by
  constructor
  · intro h
    apply UInt32.toNat_inj.mp
    exact h
  · rintro rfl
    rfl

/-- A number below `128 ^ n` takes at most `n` groups, which spell it. -/
theorem groups_writeVarint {n : ℕ} (v : ℕ) (h : v < 128 ^ (n + 1)) :
    Groups (n + 1) (writeVarint v) ∧ value (writeVarint v) = v := by
  induction n generalizing v with
  | zero =>
      rw [Nat.zero_add, pow_one] at h
      have hbyte : (UInt8.ofNat v).toNat = v := toNat_ofNat_byte (by omega)
      rw [writeVarint_of_lt h]
      refine ⟨Groups.last (by rw [hbyte]; exact h), ?_⟩
      rw [value, value, hbyte]
      omega
  | succ n ih =>
      rcases Nat.lt_or_ge v 128 with hlt | hge
      · have hbyte : (UInt8.ofNat v).toNat = v := toNat_ofNat_byte (by omega)
        rw [writeVarint_of_lt hlt]
        refine ⟨Groups.last (by rw [hbyte]; exact hlt), ?_⟩
        rw [value, value, hbyte]
        omega
      · have hdiv : v / 128 < 128 ^ (n + 1) := by
          rw [Nat.div_lt_iff_lt_mul (by decide), ← pow_succ]
          exact h
        obtain ⟨hgroups, hvalue⟩ := ih (v / 128) hdiv
        have hbyte : (UInt8.ofNat (v % 128 + 128)).toNat = v % 128 + 128 :=
          toNat_ofNat_byte (by omega)
        rw [writeVarint_of_le hge]
        refine ⟨Groups.more (by rw [hbyte]; omega) hgroups, ?_⟩
        rw [value, hvalue, hbyte]
        omega

/-- **A written varint is one**, of the value written. -/
theorem isVarint_writeVarint {v : ℕ} (h : v < 2 ^ 64) : IsVarint (writeVarint v) v := by
  obtain ⟨hgroups, hvalue⟩ := groups_writeVarint (n := 9) v (lt_of_lt_of_le h (by norm_num))
  exact ⟨hgroups, by rw [hvalue, Nat.mod_eq_of_lt h]⟩

/-- The tag of a field number of 29 bits. -/
theorem tag_eq {field : ℕ} (h : field < 2 ^ 29) (wt : WireType) :
    tag field wt = 8 * field + wt.code := by
  have hlt : field * 2 ^ 3 < 2 ^ 32 := by omega
  have hcode : wt.code < 2 ^ 3 := wt.code_lt
  rw [tag, Nat.shiftLeft_eq, Nat.mod_eq_of_lt hlt, ← Nat.shiftLeft_eq,
    ← Nat.shiftLeft_add_eq_or_of_lt hcode, Nat.shiftLeft_eq]
  ring

/-- What a decoder uses of a field. -/
structure View where
  number : ℕ
  varint : ℕ := 0
  fixed32 : ℕ := 0
  bytes : List UInt8 := []
  deriving DecidableEq, Repr

/-- A field with its slice read. -/
def Field.view (parsed : List UInt8) (f : Field) : View :=
  { number := f.number, varint := f.varint, fixed32 := f.fixed32, bytes := f.bytes parsed }

/-- The message `data` is accepted, with these fields. -/
def Spells (data : List UInt8) (views : List View) : Prop :=
  ∃ fs, parseFields data = some fs ∧ fs.map (Field.view data) = views

/-- A field with its slice read, and the type it was sent as. -/
def Field.entry (parsed : List UInt8) (f : Field) : WireType × View := (f.type, f.view parsed)

/-- The message `data` is accepted, with these fields of these types. -/
def Spelled (data : List UInt8) (entries : List (WireType × View)) : Prop :=
  ∃ fs, parseFields data = some fs ∧ fs.map (Field.entry data) = entries

theorem spells_iff {data : List UInt8} {views : List View} :
    Spells data views ↔ ∃ entries, Spelled data entries ∧ entries.map Prod.snd = views := by
  constructor
  · rintro ⟨fs, hfs, rfl⟩
    refine ⟨fs.map (Field.entry data), ⟨fs, hfs, rfl⟩, ?_⟩
    rw [List.map_map]
    rfl
  · rintro ⟨entries, ⟨fs, hfs, rfl⟩, rfl⟩
    refine ⟨fs, hfs, ?_⟩
    rw [List.map_map]
    rfl

/-- Fields of one type. -/
theorem Spelled.spells {data : List UInt8} {t : WireType} {views : List View}
    (h : Spelled data (views.map (Prod.mk t))) : Spells data views := by
  refine spells_iff.mpr ⟨_, h, ?_⟩
  rw [List.map_map]
  exact List.map_id _

theorem spelled_nil : Spelled [] [] := ⟨[], (parseFields_eq_some_iff _ _).mpr (Fields.nil 0), rfl⟩

theorem spells_nil : Spells [] [] := spells_iff.mpr ⟨[], spelled_nil, rfl⟩

/-- **Messages written one after the other** have the fields of both. -/
theorem Spelled.append {a b : List UInt8} {ea eb : List (WireType × View)} (ha : Spelled a ea)
    (hb : Spelled b eb) : Spelled (a ++ b) (ea ++ eb) := by
  obtain ⟨fa, hfa, rfl⟩ := ha
  obtain ⟨fb, hfb, rfl⟩ := hb
  rw [parseFields_eq_some_iff] at hfa hfb
  refine ⟨fa ++ fb.map (Field.shift a.length), ?_, ?_⟩
  · rw [parseFields_eq_some_iff]
    exact hfa.append (hfb.shift a.length)
  · rw [List.map_append, List.map_map]
    congr 1
    · apply List.map_congr_left
      intro f hf
      have hbytes : f.bytes (a ++ b) = f.bytes a := by
        apply Field.bytes_append
        intro o ho
        have hin := hfa.slice hf ho
        omega
      rw [Field.entry, Field.entry, Field.view, Field.view, hbytes]
    · apply List.map_congr_left
      intro f _
      show Field.entry (a ++ b) (f.shift a.length) = Field.entry b f
      rw [Field.entry, Field.entry, Field.view, Field.view, Field.bytes_shift]
      rfl

theorem Spells.append {a b : List UInt8} {va vb : List View} (ha : Spells a va)
    (hb : Spells b vb) : Spells (a ++ b) (va ++ vb) := by
  obtain ⟨ea, hea, rfl⟩ := spells_iff.mp ha
  obtain ⟨eb, heb, rfl⟩ := spells_iff.mp hb
  exact spells_iff.mpr ⟨ea ++ eb, hea.append heb, List.map_append⟩

/-- A message of one field. -/
theorem spelled_of_wellFormed {bs : List UInt8} {f : Field} (h : WellFormed 0 bs f) :
    Spelled bs [f.entry bs] := by
  have hfields := Fields.cons h (Fields.nil _)
  rw [List.append_nil] at hfields
  exact ⟨[f], (parseFields_eq_some_iff _ _).mpr hfields, rfl⟩

/-- The fields a varint writer writes. -/
def varintViews (field v : ℕ) : List View :=
  if v = 0 then [] else [{ number := field, varint := v }]

/-- The fields a writer of four bytes writes. -/
def fixed32Views (field v : ℕ) : List View :=
  if v = 0 then [] else [{ number := field, fixed32 := v }]

/-- The fields a writer of bytes writes. -/
def bytesViews (field : ℕ) (data : List UInt8) (force : Bool := false) : List View :=
  if !force && data.isEmpty then [] else [{ number := field, bytes := data }]

section

variable {field : ℕ} (hfield : field < 2 ^ 29)
include hfield

omit hfield in
theorem tag_mod (wt : WireType) : (8 * field + wt.code) % 8 = wt.code := by
  have hcode := wt.code_lt
  omega

theorem isVarint_writeTag (wt : WireType) : IsVarint (writeTag field wt) (8 * field + wt.code) := by
  have hcode := wt.code_lt
  rw [writeTag, tag_eq hfield]
  exact isVarint_writeVarint (by omega)

theorem tag_div (wt : WireType) : (8 * field + wt.code) / 8 % 2 ^ 32 = field := by
  have hcode := wt.code_lt
  omega

theorem spelled_varint {v : ℕ} (hv : v < 2 ^ 64) :
    Spelled (writeTag field .varint ++ writeVarint v)
      [(.varint, { number := field, varint := v })] := by
  have h := spelled_of_wellFormed (WellFormed.varint
    (isVarint_writeTag hfield .varint) (tag_mod _) (isVarint_writeVarint hv))
  rw [tag_div hfield] at h
  exact h

theorem spelled_fixed32 {v : ℕ} (hv : v < 2 ^ 32) :
    Spelled (writeTag field .fixed32 ++ LittleEndian.write 4 v)
      [(.fixed32, { number := field, fixed32 := v })] := by
  have h := spelled_of_wellFormed (WellFormed.fixed32
    (isVarint_writeTag hfield .fixed32) (tag_mod _) (LittleEndian.length_write 4 v))
  rw [tag_div hfield, LittleEndian.read_write, Nat.mod_eq_of_lt hv] at h
  exact h

theorem spelled_writeU32 (v : UInt32) :
    Spelled (writeU32 field v) ((varintViews field v.toNat).map (Prod.mk .varint)) := by
  unfold writeU32 varintViews
  by_cases h : v = 0
  · rw [if_pos h, if_pos ((toNat_eq_zero_iff v).mpr h)]
    exact spelled_nil
  · rw [if_neg h, if_neg (fun h0 => h ((toNat_eq_zero_iff v).mp h0))]
    exact spelled_varint hfield (lt_trans v.toNat_lt (by norm_num))

theorem spelled_writeU64 (v : UInt64) :
    Spelled (writeU64 field v) ((varintViews field v.toNat).map (Prod.mk .varint)) := by
  have hzero : v.toNat = 0 ↔ v = 0 := UInt64.toNat_inj (b := 0)
  unfold writeU64 varintViews
  by_cases h : v = 0
  · rw [if_pos h, if_pos (hzero.mpr h)]
    exact spelled_nil
  · rw [if_neg h, if_neg (fun h0 => h (hzero.mp h0))]
    exact spelled_varint hfield v.toNat_lt

theorem spelled_writeBool (v : Bool) :
    Spelled (writeBool field v) ((varintViews field v.toNat).map (Prod.mk .varint)) := by
  cases v with
  | false => exact spelled_nil
  | true => exact spelled_varint hfield (by norm_num)

theorem spelled_writeFixed32 (v : UInt32) :
    Spelled (writeFixed32 field v) ((fixed32Views field v.toNat).map (Prod.mk .fixed32)) := by
  unfold writeFixed32 fixed32Views
  by_cases h : v = 0
  · rw [if_pos h, if_pos ((toNat_eq_zero_iff v).mpr h)]
    exact spelled_nil
  · rw [if_neg h, if_neg (fun h0 => h ((toNat_eq_zero_iff v).mp h0))]
    exact spelled_fixed32 hfield v.toNat_lt

theorem spelled_writeBytes {data : List UInt8} (hdata : data.length < 2 ^ 64) (force : Bool) :
    Spelled (writeBytes field data force)
      ((bytesViews field data force).map (Prod.mk .length)) := by
  unfold writeBytes bytesViews
  split_ifs
  · exact spelled_nil
  · have h := spelled_of_wellFormed (WellFormed.length
      (isVarint_writeTag hfield .length) (tag_mod _) (isVarint_writeVarint hdata))
    rw [tag_div hfield] at h
    simp only [Field.entry, Field.view, Field.bytes] at h
    rw [Nat.zero_add, ← List.append_assoc, ← List.length_append, List.drop_left,
      List.take_length] at h
    exact h

theorem spells_writeU32 (v : UInt32) : Spells (writeU32 field v) (varintViews field v.toNat) :=
  (spelled_writeU32 hfield v).spells

theorem spells_writeBool (v : Bool) : Spells (writeBool field v) (varintViews field v.toNat) :=
  (spelled_writeBool hfield v).spells

theorem spells_writeFixed32 (v : UInt32) :
    Spells (writeFixed32 field v) (fixed32Views field v.toNat) :=
  (spelled_writeFixed32 hfield v).spells

/-- A float that is a zero is left out, whatever its sign. -/
theorem spells_writeFloat (bits : UInt32) :
    Spells (writeFloat field bits)
      (fixed32Views field (if floatIsZero bits then 0 else bits.toNat)) := by
  unfold writeFloat fixed32Views
  by_cases h : floatIsZero bits = true
  · rw [if_pos h, if_pos h, if_pos rfl]
    exact spells_nil
  · have hne : bits.toNat ≠ 0 := by
      intro h0
      apply h
      rw [(toNat_eq_zero_iff bits).mp h0]
      rfl
    rw [if_neg h, if_neg h, if_neg hne]
    have hspelled := spelled_fixed32 hfield bits.toNat_lt
    exact spells_iff.mpr ⟨_, hspelled, rfl⟩

theorem spells_writeBytes {data : List UInt8} (hdata : data.length < 2 ^ 64) (force : Bool) :
    Spells (writeBytes field data force) (bytesViews field data force) :=
  (spelled_writeBytes hfield hdata force).spells

end

/-! ## Sequences of writes -/

/-- A call of a writer. -/
inductive Write where
  | u32 (field : ℕ) (v : UInt32)
  | u64 (field : ℕ) (v : UInt64)
  | bool (field : ℕ) (v : Bool)
  | fixed32 (field : ℕ) (v : UInt32)
  | bytes (field : ℕ) (data : List UInt8) (force : Bool)
  deriving DecidableEq, Repr

namespace Write

/-- What the call appends. -/
def out : Write → List UInt8
  | u32 field v => writeU32 field v
  | u64 field v => writeU64 field v
  | bool field v => writeBool field v
  | fixed32 field v => writeFixed32 field v
  | bytes field data force => writeBytes field data force

/-- The field the call stands for, unless it is a default. -/
def entries : Write → List (WireType × View)
  | u32 field v => (varintViews field v.toNat).map (Prod.mk .varint)
  | u64 field v => (varintViews field v.toNat).map (Prod.mk .varint)
  | bool field v => (varintViews field v.toNat).map (Prod.mk .varint)
  | fixed32 field v => (fixed32Views field v.toNat).map (Prod.mk .fixed32)
  | bytes field data force => (bytesViews field data force).map (Prod.mk .length)

/-- A field number of 29 bits, and data that a vector can hold. -/
def Fits : Write → Prop
  | u32 field _ | u64 field _ | bool field _ | fixed32 field _ => field < 2 ^ 29
  | bytes field data _ => field < 2 ^ 29 ∧ data.length < 2 ^ 64

theorem spelled {w : Write} (h : w.Fits) : Spelled w.out w.entries := by
  cases w with
  | u32 field v => exact spelled_writeU32 h v
  | u64 field v => exact spelled_writeU64 h v
  | bool field v => exact spelled_writeBool h v
  | fixed32 field v => exact spelled_writeFixed32 h v
  | bytes field data force => exact spelled_writeBytes h.1 h.2 force

/-- **Any sequence of writes** is read back as its fields. -/
theorem spelled_flatMap (ws : List Write) (h : ∀ w ∈ ws, w.Fits) :
    Spelled (ws.flatMap out) (ws.flatMap entries) := by
  induction ws with
  | nil => exact spelled_nil
  | cons w ws ih =>
      rw [List.flatMap_cons, List.flatMap_cons]
      exact (spelled (h w List.mem_cons_self)).append
        (ih fun v hv => h v (List.mem_cons_of_mem w hv))

end Write

end Pb
