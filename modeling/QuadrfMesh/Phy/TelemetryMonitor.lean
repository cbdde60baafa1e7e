/-
# Reading a telemetry line (`apps/quadrf_mesh_monitor.cpp`)

The monitor finds the fields of a telemetry line by their names and converts their texts.  A field
of an object is found, whatever the other values are (`parseJsonField_object`), and what `snprintf`
wrote of a number is read back: integers and node ids exactly, the metrics to half a unit of the
last decimal (`abs_written_sub_le`).
-/
import QuadrfMesh.Lib.Numerals
import QuadrfMesh.Phy.Telemetry

namespace Telemetry

open Lines Numerals

/-! ## Conversions of `<cstdlib>` -/

/-- A sign at the front. -/
def readSign : List Char → Bool × List Char
  | '-' :: cs => (true, cs)
  | '+' :: cs => (false, cs)
  | cs => (false, cs)

/-- The base of a number that is read with base 0. -/
def readBase : List Char → ℕ × List Char
  | '0' :: x :: d :: cs =>
      if (x = 'x' ∨ x = 'X') ∧ (digitOf 16 d).isSome then (16, d :: cs) else (8, '0' :: x :: d :: cs)
  | '0' :: cs => (8, '0' :: cs)
  | cs => (10, cs)

/-- White space of `isspace`. -/
def isSpace (c : Char) : Bool := c = ' ' || (decide (9 ≤ c.toNat) && decide (c.toNat ≤ 13))

/-- An integer at the front of a text: whether it is negative, and its size. -/
def readInteger (base : ℕ) (text : List Char) : Bool × ℕ :=
  let sign := readSign (text.dropWhile isSpace)
  let digits := if base = 0 then readBase sign.2 else (base, sign.2)
  (sign.1, (readDigits digits.1 0 digits.2).1)

/-- `strtoull` and `strtoul`, of 64 bits. -/
def strtoull (base : ℕ) (text : List Char) : UInt64 :=
  let n := readInteger base text
  if 2 ^ 64 ≤ n.2 then UInt64.ofNat (2 ^ 64 - 1)
  else if n.1 then -UInt64.ofNat n.2 else UInt64.ofNat n.2

/-- `strtol`, of 64 bits. -/
def strtol (base : ℕ) (text : List Char) : ℤ :=
  let n := readInteger base text
  if n.1 then max (-2 ^ 63) (-(n.2 : ℤ)) else min (2 ^ 63 - 1) (n.2 : ℤ)

/-- `strtof` of a number without exponent, before it is rounded. -/
def strtof (text : List Char) : ℚ :=
  let sign := readSign (text.dropWhile isSpace)
  let whole := readDigits 10 0 sign.2
  let x : ℚ := match whole.2 with
    | '.' :: cs =>
        let all := readDigits 10 whole.1 cs
        all.1 / 10 ^ (cs.length - all.2.length)
    | _ => whole.1
  if sign.1 then -x else x

/-- The numbers of a `PacketRecord`. -/
structure ShownRecord where
  tsMs : UInt64 := 0
  snrDb : ℚ := 0
  sirDb : ℚ := 0
  lvlDbfs : ℚ := 0
  cfoHz : Int32 := 0
  ratePpm : ℚ := 0
  fromNode : UInt32 := 0
  toNode : UInt32 := 0
  packetId : UInt32 := 0
  payloadLen : UInt16 := 0
  isEcho : Bool := false
  deriving DecidableEq

/-- The conversions in `telemetryClientThread`. -/
def PacketRecord.shown (r : PacketRecord) : ShownRecord where
  tsMs := (r.ts.map (strtoull 10)).getD 0
  snrDb := (r.snr.map strtof).getD 0
  sirDb := (r.sir.map strtof).getD 0
  lvlDbfs := (r.lvl.map strtof).getD 0
  cfoHz := (r.cfo.map fun val => Int32.ofInt (strtol 10 val)).getD 0
  ratePpm := (r.ratePpm.map strtof).getD 0
  fromNode := (r.fromNode.map fun val => (strtoull 0 val).toUInt32).getD 0
  toNode := (r.toNode.map fun val => (strtoull 0 val).toUInt32).getD 0
  packetId := (r.packetId.map fun val => (strtoull 0 val).toUInt32).getD 0
  payloadLen := (r.payloadLen.map fun val => (strtoull 10 val).toUInt16).getD 0
  isEcho := r.isEcho

/-! ## What was written is read back -/

theorem dropWhile_isSpace {c : Char} (h : isSpace c = false) (cs : List Char) :
    (c :: cs).dropWhile isSpace = c :: cs := by
  rw [List.dropWhile_cons_of_neg (by rw [h]; exact Bool.false_ne_true)]

theorem isSpace_of_isDigit {c : Char} (h : c.isDigit = true) : isSpace c = false := by
  have hbounds : 48 ≤ c.toNat := by
    rw [Char.isDigit, Bool.and_eq_true, decide_eq_true_eq] at h
    exact h.1
  have hspace : c ≠ ' ' := by
    rintro rfl
    exact absurd hbounds (by decide)
  simp [isSpace, hspace]
  omega

/-- A number as it stands behind its sign. -/
theorem readSign_signed (negative : Bool) {digits : List Char} (hne : digits ≠ [])
    (hdigits : ∀ c ∈ digits, c.isDigit = true) (rest : List Char) :
    readSign (((if negative then ['-'] else []) ++ (digits ++ rest)).dropWhile isSpace)
      = (negative, digits ++ rest) := by
  obtain ⟨c, cs, rfl⟩ := List.exists_cons_of_ne_nil hne
  have hc := hdigits c List.mem_cons_self
  cases negative with
  | true =>
      rw [if_pos rfl, List.singleton_append, dropWhile_isSpace (by decide)]
      rfl
  | false =>
      rw [if_neg Bool.false_ne_true, List.nil_append, List.cons_append,
        dropWhile_isSpace (isSpace_of_isDigit hc)]
      have hminus : c ≠ '-' := by
        rintro rfl
        exact absurd hc (by decide)
      have hplus : c ≠ '+' := by
        rintro rfl
        exact absurd hc (by decide)
      rw [readSign]
      · exact fun _ h => absurd (List.cons.inj h).1 hminus
      · exact fun _ h => absurd (List.cons.inj h).1 hplus

theorem readSign_toDigits (negative : Bool) (n : ℕ) (rest : List Char) :
    readSign (((if negative then ['-'] else []) ++ (Nat.toDigits 10 n ++ rest)).dropWhile isSpace)
      = (negative, Nat.toDigits 10 n ++ rest) :=
  readSign_signed negative Nat.toDigits_ne_nil
    (fun _ hc => Nat.isDigit_of_mem_toDigits (by norm_num) (by norm_num) hc) rest

theorem decimal_eq (z : ℤ) :
    decimal z = (if decide (z < 0) then ['-'] else []) ++ (Nat.toDigits 10 z.natAbs ++ []) := by
  rw [decimal, List.append_nil]
  simp only [decide_eq_true_eq]

theorem readInteger_decimal (z : ℤ) : readInteger 10 (decimal z) = (decide (z < 0), z.natAbs) := by
  have hread := readDigits_toDigits z.natAbs []
  rw [readDigits_nil] at hread
  rw [readInteger, decimal_eq, readSign_toDigits]
  simp only [show ¬((10 : ℕ) = 0) by norm_num, if_false, hread]

/-- `%lld` is read by `strtoull`. -/
theorem strtoull_decimal {z : ℤ} (hz : z.natAbs < 2 ^ 64) :
    strtoull 10 (decimal z) = UInt64.ofInt z := by
  have hcast : ∀ n : ℕ, UInt64.ofNat n = UInt64.ofInt n := by
    intro n
    rw [UInt64.ofInt]
    refine UInt64.toNat_inj.mp ?_
    simp only [UInt64.toNat_ofNat']
    omega
  rw [strtoull, readInteger_decimal]
  simp only
  rw [if_neg (not_le.mpr hz), hcast]
  rcases lt_or_ge z 0 with hneg | hpos
  · have habs : ((z.natAbs : ℕ) : ℤ) = -z := by omega
    rw [if_pos (decide_eq_true hneg), habs, UInt64.ofInt_neg, neg_neg]
  · rw [if_neg (by simpa using hpos), Int.natAbs_of_nonneg hpos]

/-- `%d` is read by `strtol`. -/
theorem strtol_decimal {z : ℤ} (hlow : -2 ^ 63 ≤ z) (hhigh : z ≤ 2 ^ 63 - 1) :
    strtol 10 (decimal z) = z := by
  rw [strtol, readInteger_decimal]
  simp only
  rcases lt_or_ge z 0 with hneg | hpos
  · rw [if_pos (decide_eq_true hneg)]
    omega
  · rw [if_neg (by simpa using hpos)]
    omega

/-- `%08x` is read by `strtoul` with base 0. -/
theorem strtoull_hex8 (n : UInt32) : strtoull 0 ('0' :: 'x' :: hex8 n) = n.toUInt64 := by
  have hlt := n.toNat_lt
  have hdigits : hex8 n = (lastDigits 16 8 n.toNat).map Nat.digitChar := by
    rw [hex8, lastDigits, List.map_map]
    refine List.map_congr_left fun k hk => ?_
    have hmask : ∀ m : ℕ, m &&& 0xF = m % 16 := fun m => Nat.and_two_pow_sub_one_eq_mod m 4
    rw [Function.comp_apply, hmask, Nat.shiftRight_eq_div_pow, pow_mul]
    rfl
  have hread : readDigits 16 0 (hex8 n) = (n.toNat, []) := by
    have h := readDigits_digitChars (le_refl 16) (lastDigits_lt (by norm_num) 8 n.toNat) 0 []
    rw [List.append_nil, readDigits_nil, foldl_lastDigits, zero_mul, zero_add,
      Nat.mod_eq_of_lt (by simpa using hlt)] at h
    rw [hdigits, h]
  have hbase : readBase ('0' :: 'x' :: hex8 n) = (16, hex8 n) := by
    have hsplit : hex8 n = Nat.digitChar ((n.toNat >>> 28) &&& 0xF) :: (hex8 n).tail := rfl
    have hfirst : (digitOf 16 (Nat.digitChar ((n.toNat >>> 28) &&& 0xF))).isSome = true := by
      rw [digitOf_digitChar (le_refl 16) (Nat.lt_of_le_of_lt Nat.and_le_right (by norm_num))]
      rfl
    rw [hsplit, readBase, if_pos ⟨Or.inl rfl, hfirst⟩]
  have hsign : readSign ('0' :: 'x' :: hex8 n) = (false, '0' :: 'x' :: hex8 n) := rfl
  have hinteger : readInteger 0 ('0' :: 'x' :: hex8 n) = (false, n.toNat) := by
    rw [readInteger, dropWhile_isSpace (by decide), hsign]
    simp only [if_true]
    rw [hbase, hread]
  rw [strtoull, hinteger]
  simp only
  rw [if_neg (by omega), if_neg Bool.false_ne_true]
  refine UInt64.toNat_inj.mp ?_
  rw [UInt64.toNat_ofNat_of_lt' (by simp only [UInt64.size]; omega)]
  rfl

/-- The value `%.1f` or `%.2f` writes. -/
def written (places : ℕ) (x : ℚ) : ℚ :=
  let y : ℚ := (roundEven (|x| * 10 ^ places)).toNat / 10 ^ places
  if x < 0 then -y else y

theorem strtof_fixed {places : ℕ} (x : ℚ) : strtof (fixed places x) = written places x := by
  set n := (roundEven (|x| * 10 ^ places)).toNat with hn
  have hfixed : fixed places x = (if decide (x < 0) then ['-'] else [])
      ++ (Nat.toDigits 10 (n / 10 ^ places)
        ++ '.' :: ((lastDigits 10 places n).map Nat.digitChar ++ [])) := by
    rw [fixed, lastDigits, List.map_map, List.append_nil, List.append_assoc]
    simp only [decide_eq_true_eq]
    rfl
  have hdot : digitOf 10 '.' = none := by decide
  have hfrac := readDigits_digitChars (show 10 ≤ 16 by norm_num) (lastDigits_lt (by norm_num) places n)
    (n / 10 ^ places) []
  rw [readDigits_nil, foldl_lastDigits, mul_comm, Nat.div_add_mod] at hfrac
  rw [strtof, hfixed, readSign_toDigits]
  simp only [readDigits_toDigits, readDigits_none hdot]
  rw [hfrac]
  simp only [List.append_nil, List.length_map, List.length_nil, Nat.sub_zero, decide_eq_true_eq]
  rw [written, lastDigits, List.length_map, List.length_range]

/-- The last decimal is rounded. -/
theorem abs_written_sub_le (places : ℕ) (x : ℚ) :
    |written places x - x| ≤ 1 / (2 * 10 ^ places) := by
  have hpow : (0 : ℚ) < 10 ^ places := by positivity
  have hround : ∀ y : ℚ, 0 ≤ y → |((roundEven y).toNat : ℚ) - y| ≤ 1 / 2 := by
    intro y hy
    have hfloor := Int.floor_le y
    have hlt := Int.lt_floor_add_one y
    have hpos : 0 ≤ ⌊y⌋ := Int.floor_nonneg.mpr hy
    unfold roundEven
    simp only
    split_ifs with hdown
    · have hcast : ((⌊y⌋.toNat : ℕ) : ℚ) = ⌊y⌋ := by
        exact_mod_cast congrArg (Int.cast (R := ℚ)) (Int.toNat_of_nonneg hpos)
      rw [hcast, abs_le]
      constructor
      · rcases hdown with h | ⟨h, -⟩ <;> linarith
      · linarith
    · have hcast : (((⌊y⌋ + 1).toNat : ℕ) : ℚ) = ⌊y⌋ + 1 := by
        exact_mod_cast congrArg (Int.cast (R := ℚ)) (Int.toNat_of_nonneg (by omega : 0 ≤ ⌊y⌋ + 1))
      rw [hcast, abs_le]
      have hhalf : 1 / 2 ≤ y - ⌊y⌋ := by
        by_contra h
        exact hdown (Or.inl (not_le.mp h))
      constructor <;> linarith
  have hmain : ∀ y : ℚ, 0 ≤ y →
      |((roundEven (y * 10 ^ places)).toNat : ℚ) / 10 ^ places - y| ≤ 1 / (2 * 10 ^ places) := by
    intro y hy
    have hscaled := hround (y * 10 ^ places) (by positivity)
    have heq : ((roundEven (y * 10 ^ places)).toNat : ℚ) / 10 ^ places - y
        = (((roundEven (y * 10 ^ places)).toNat : ℚ) - y * 10 ^ places) / 10 ^ places := by
      field_simp
    rw [heq, abs_div, abs_of_pos hpow, div_le_iff₀ hpow]
    calc _ ≤ (1 : ℚ) / 2 := hscaled
      _ = 1 / (2 * 10 ^ places) * 10 ^ places := by field_simp
  unfold written
  simp only
  split_ifs with hneg
  · have h := hmain (-x) (by linarith)
    rw [abs_of_neg hneg, show ∀ a : ℚ, -a - x = -(a - -x) from fun a => by ring, abs_neg]
    exact h
  · have h := hmain x (not_lt.mp hneg)
    rwa [abs_of_nonneg (not_lt.mp hneg)]

/-! ## Finding a field -/

/-- A text that is no part of the syntax of an object. -/
def Token (t : List Char) : Prop :=
  (∀ c ∈ t, c ≠ '"' ∧ c ≠ ',' ∧ c ≠ '}' ∧ c ≠ '\r' ∧ c ≠ '\n') ∧ ∃ c ∈ t, c ≠ ' '

/-- A value of a field is such a text, in quotes perhaps. -/
inductive IsValue : List Char → List Char → Prop
  | plain {t : List Char} (h : Token t) : IsValue t t
  | quoted {t : List Char} (h : Token t) : IsValue (quoted t) t

/-- A name of a field. -/
def IsName (name : List Char) : Prop :=
  name ≠ [] ∧ '"' ∉ name ∧ ':' ∉ name ∧ ',' ∉ name ∧ '}' ∉ name

instance (name : List Char) : Decidable (IsName name) := inferInstanceAs (Decidable (_ ∧ _))

/-- The spaces at both ends taken off. -/
def trim (t : List Char) : List Char := (t.dropWhile (· = ' ')).rdropWhile (· = ' ')

/-- What `parseJsonField` looks for. -/
def needle (key : List Char) : List Char := quoted key ++ [':']

theorem quoted_append (t xs : List Char) : quoted t ++ xs = '"' :: (t ++ '"' :: xs) := by
  rw [quoted, List.append_assoc, List.singleton_append, List.cons_append]

theorem findAfter_cons_of_not {n : List Char} {c : Char} {cs : List Char} (h : ¬n <+: c :: cs) :
    findAfter n (c :: cs) = findAfter n cs := by
  rw [findAfter, if_neg (by rwa [List.isPrefixOf_iff_prefix])]

theorem findAfter_of_prefix {n rest : List Char} (hne : n ≠ []) : findAfter n (n ++ rest) = some rest := by
  obtain ⟨c, cs, rfl⟩ := List.exists_cons_of_ne_nil hne
  have hpre : (c :: cs).isPrefixOf (c :: (cs ++ rest)) = true :=
    List.isPrefixOf_iff_prefix.mpr (List.prefix_append _ _)
  rw [List.cons_append, findAfter, if_pos hpre, ← List.cons_append, List.drop_left]

/-- A quote is where another one is, or not at all. -/
theorem prefix_of_quoted {key t xs ys : List Char} (hkey : '"' ∉ key) (ht : '"' ∉ t)
    (h : key ++ '"' :: xs <+: t ++ '"' :: ys) : key = t ∧ xs <+: ys := by
  induction key generalizing t with
  | nil =>
      cases t with
      | nil => exact ⟨rfl, (List.cons_prefix_cons.mp h).2⟩
      | cons c cs => exact absurd (List.cons_prefix_cons.mp h).1 (fun hc => ht (hc ▸ List.mem_cons_self))
  | cons k key ih =>
      obtain ⟨hk, hkeys⟩ := not_or.mp (List.mem_cons.not.mp hkey)
      cases t with
      | nil => exact absurd (List.cons_prefix_cons.mp h).1 (fun hc => hk hc.symm)
      | cons c cs =>
          obtain ⟨rfl, hrest⟩ := List.cons_prefix_cons.mp h
          obtain ⟨rfl, hpre⟩ := ih hkeys (fun hc => ht (List.mem_cons_of_mem _ hc)) hrest
          exact ⟨rfl, hpre⟩

section Find

variable {key : List Char} (hkey : IsName key)
include hkey

theorem quote_not_mem : '"' ∉ key := hkey.2.1

omit hkey in
/-- Without a quote there is nothing to find. -/
theorem findAfter_skip {t : List Char} (ht : '"' ∉ t) (rest : List Char) :
    findAfter (needle key) (t ++ rest) = findAfter (needle key) rest := by
  induction t with
  | nil => rfl
  | cons c cs ih =>
      obtain ⟨hc, hcs⟩ := not_or.mp (List.mem_cons.not.mp ht)
      have hnot : ¬needle key <+: c :: (cs ++ rest) := fun h => hc (List.cons_prefix_cons.mp h).1
      rw [List.cons_append, findAfter_cons_of_not hnot, ih hcs]

/-- A quote that is followed by no letter of the name opens no name. -/
theorem findAfter_skip_close {c : Char} (hc : c ∉ key) (rest : List Char) :
    findAfter (needle key) ('"' :: c :: rest) = findAfter (needle key) (c :: rest) := by
  refine findAfter_cons_of_not fun h => ?_
  obtain ⟨k, ks, rfl⟩ := List.exists_cons_of_ne_nil hkey.1
  have h' := (List.cons_prefix_cons.mp h).2
  exact hc ((List.cons_prefix_cons.mp h').1 ▸ List.mem_cons_self)

/-- Quoted text that is not the name, or no name at all. -/
theorem findAfter_skip_quoted {t : List Char} (ht : '"' ∉ t) {c : Char} (hc : c ∉ key)
    (hother : key ≠ t ∨ c ≠ ':') (rest : List Char) :
    findAfter (needle key) (quoted t ++ c :: rest) = findAfter (needle key) (c :: rest) := by
  have hopen : ¬needle key <+: '"' :: (t ++ '"' :: c :: rest) := by
    intro h
    have h' : key ++ '"' :: [':'] <+: t ++ '"' :: c :: rest := by
      have hname : key ++ ['"'] ++ [':'] <+: t ++ '"' :: c :: rest := (List.cons_prefix_cons.mp h).2
      rwa [List.append_assoc] at hname
    obtain ⟨hname, hcolon⟩ := prefix_of_quoted (quote_not_mem hkey) ht h'
    exact hother.elim (fun hne => hne hname) fun hne => hne (List.cons_prefix_cons.mp hcolon).1.symm
  rw [quoted_append, findAfter_cons_of_not hopen, findAfter_skip ht, findAfter_skip_close hkey hc]

/-- A value is passed over. -/
theorem findAfter_skip_value {v t : List Char} (hv : IsValue v t) {c : Char} (hc : c = ',' ∨ c = '}')
    (rest : List Char) : findAfter (needle key) (v ++ c :: rest) = findAfter (needle key) rest := by
  have hmem : c ∉ key := by
    obtain ⟨-, -, -, hcomma, hbrace⟩ := hkey
    rcases hc with rfl | rfl
    · exact hcomma
    · exact hbrace
  have hquote : c ≠ '"' := by rcases hc with rfl | rfl <;> decide
  have hcolon : c ≠ ':' := by rcases hc with rfl | rfl <;> decide
  have hlast : findAfter (needle key) (c :: rest) = findAfter (needle key) rest :=
    findAfter_cons_of_not fun h => hquote (List.cons_prefix_cons.mp h).1.symm
  cases hv with
  | plain h => rw [findAfter_skip (fun hq => (h.1 _ hq).1 rfl), hlast]
  | quoted h =>
      rw [findAfter_skip_quoted hkey (fun hq => (h.1 _ hq).1 rfl) hmem (Or.inr hcolon), hlast]

omit hkey in
/-- The end of an object's field. -/
theorem members_cons (f : String × List Char) (fs : List (String × List Char)) :
    ∃ c rest, (c = ',' ∨ c = '}') ∧ objectBody (f :: fs) = member f ++ c :: rest ∧
      (fs = [] ∧ rest = [] ∨ fs ≠ [] ∧ rest = objectBody fs) := by
  cases fs with
  | nil => exact ⟨'}', [], Or.inr rfl, rfl, Or.inl ⟨rfl, rfl⟩⟩
  | cons g fs =>
      refine ⟨',', objectBody (g :: fs), Or.inl rfl, ?_, Or.inr ⟨List.cons_ne_nil _ _, rfl⟩⟩
      rw [objectBody, members, List.append_assoc, List.cons_append, objectBody]

/-- **The first field of the name** is found, with its value at the front. -/
theorem findAfter_objectBody {fields : List (String × List Char)} (hne : fields ≠ [])
    (hfields : ∀ f ∈ fields, IsName f.1.toList ∧ ∃ t, IsValue f.2 t) :
    match fields.find? fun f => f.1.toList = key with
    | none => findAfter (needle key) (objectBody fields) = none
    | some f => ∃ c rest, (c = ',' ∨ c = '}') ∧
        findAfter (needle key) (objectBody fields) = some (f.2 ++ c :: rest) := by
  induction fields with
  | nil => exact absurd rfl hne
  | cons f fs ih =>
      obtain ⟨⟨hname, t, hvalue⟩, hrest⟩ := List.forall_mem_cons.mp hfields
      obtain ⟨c, rest, hc, hbody, hend⟩ := members_cons f fs
      have hmember : objectBody (f :: fs) = quoted f.1.toList ++ ':' :: (f.2 ++ c :: rest) := by
        rw [hbody, member, List.append_assoc, List.cons_append]
      by_cases hthis : f.1.toList = key
      · have hfirst : (f :: fs).find? (fun f => decide (f.1.toList = key)) = some f :=
          List.find?_cons_of_pos (decide_eq_true hthis)
        rw [hfirst]
        refine ⟨c, rest, hc, ?_⟩
        rw [hmember, hthis, ← List.singleton_append, ← List.append_assoc]
        exact findAfter_of_prefix (List.cons_ne_nil _ _)
      · have hcolon : ':' ∉ key := hkey.2.2.1
        have hskip : findAfter (needle key) (objectBody (f :: fs)) = findAfter (needle key) rest := by
          rw [hmember, findAfter_skip_quoted hkey hname.2.1 hcolon
            (Or.inl (Ne.symm hthis)), ← List.singleton_append,
            findAfter_skip (by decide), findAfter_skip_value hkey hvalue hc]
        have hlater : (f :: fs).find? (fun f => decide (f.1.toList = key))
            = fs.find? fun f => decide (f.1.toList = key) :=
          List.find?_cons_of_neg (by simpa using hthis)
        rw [hlater, hskip]
        rcases hend with ⟨rfl, rfl⟩ | ⟨hmore, rfl⟩
        · exact if_neg (List.cons_ne_nil _ _)
        · exact ih hmore hrest

end Find

/-- What `parseJsonField` takes of the value. -/
theorem value_text {v t : List Char} (hv : IsValue v t) {c : Char} (hc : c = ',' ∨ c = '}')
    (rest : List Char) :
    ((((v ++ c :: rest).dropWhile fun c => c = ' ' || c = '"').takeWhile fun c =>
      !(c = ',' || c = '}' || c = '"' || c = '\r' || c = '\n')).rdropWhile (· = ' ')) = trim t := by
  -- behind the quote, if there is one, stand the text and something that ends it
  have hmain : ∀ (t : List Char) (e : Char) (rest : List Char), Token t →
      (e = ',' ∨ e = '}' ∨ e = '"') →
      ((((t ++ e :: rest).dropWhile fun c => c = ' ' || c = '"').takeWhile fun c =>
        !(c = ',' || c = '}' || c = '"' || c = '\r' || c = '\n')).rdropWhile (· = ' ')) = trim t := by
    intro t e rest ht he
    obtain ⟨hchars, x, hx, hspace⟩ := ht
    obtain ⟨front, y, back, rfl, hfront, hy⟩ : ∃ front y back, t = front ++ y :: back ∧
        (∀ c ∈ front, c = ' ') ∧ y ≠ ' ' := by
      refine ⟨t.takeWhile (· = ' '), (t.dropWhile (· = ' ')).head ?_, (t.dropWhile (· = ' ')).tail, ?_,
        fun c hc => by simpa using List.mem_takeWhile_imp hc, ?_⟩
      · intro hnil
        exact hspace (by simpa using List.dropWhile_eq_nil_iff.mp hnil x hx)
      · rw [List.cons_head_tail, List.takeWhile_append_dropWhile]
      · simpa using List.head_dropWhile_not (fun c => decide (c = ' ')) (l := t) _
    have hyquote : y ≠ '"' := (hchars y (by simp)).1
    have hdrop : ∀ zs, ((front ++ y :: back) ++ zs).dropWhile (fun c => c = ' ' || c = '"')
        = y :: back ++ zs := by
      intro zs
      rw [List.append_assoc, List.dropWhile_append_of_pos (fun c hc => by simp [hfront c hc]),
        List.cons_append, List.dropWhile_cons_of_neg (by simp [hy, hyquote])]
    have hend : ¬(!(e = ',' || e = '}' || e = '"' || e = '\r' || e = '\n')) = true := by
      rcases he with rfl | rfl | rfl <;> decide
    have htake : ((y :: back) ++ e :: rest).takeWhile (fun c =>
        !(c = ',' || c = '}' || c = '"' || c = '\r' || c = '\n')) = y :: back := by
      have hnone : (e :: rest).takeWhile (fun c =>
          !(c = ',' || c = '}' || c = '"' || c = '\r' || c = '\n')) = [] :=
        List.takeWhile_cons_of_neg hend
      rw [List.takeWhile_append_of_pos, hnone, List.append_nil]
      intro c hc
      obtain ⟨h1, h2, h3, h4, h5⟩ := hchars c (List.mem_append_right _ hc)
      simp [h1, h2, h3, h4, h5]
    have htrim : trim (front ++ y :: back) = (y :: back).rdropWhile (· = ' ') := by
      rw [trim, List.dropWhile_append_of_pos (fun c hc => by simp [hfront c hc]),
        List.dropWhile_cons_of_neg (by simp [hy])]
    rw [hdrop, htake, htrim]
  cases hv with
  | plain h => exact hmain v c rest h (hc.imp id Or.inl)
  | quoted h =>
      rw [quoted_append, List.dropWhile_cons_of_pos (by simp)]
      exact hmain t '"' (c :: rest) h (Or.inr (Or.inr rfl))

/-- **A field of an object** is the first of that name. -/
theorem parseJsonField_object {fields : List (String × List Char)} (hne : fields ≠ [])
    (hfields : ∀ f ∈ fields, IsName f.1.toList ∧ ∃ t, IsValue f.2 t) {key : String}
    (hkey : IsName key.toList) :
    (fields.find? (fun f => f.1.toList = key.toList) = none →
      parseJsonField ('{' :: objectBody fields) key = none) ∧
    ∀ f t, fields.find? (fun f => f.1.toList = key.toList) = some f → IsValue f.2 t →
      parseJsonField ('{' :: objectBody fields) key = some (trim t) := by
  have hbrace : findAfter (needle key.toList) ('{' :: objectBody fields)
      = findAfter (needle key.toList) (objectBody fields) :=
    findAfter_cons_of_not fun h => absurd (List.cons_prefix_cons.mp h).1 (by decide)
  have hfind := findAfter_objectBody hkey hne hfields
  refine ⟨fun hnone => ?_, fun f t hsome hvalue => ?_⟩
  · rw [hnone] at hfind
    rw [parseJsonField]
    show (findAfter (needle key.toList) _).map _ = none
    rw [hbrace, hfind]
    rfl
  · rw [hsome] at hfind
    obtain ⟨c, rest, hc, hfound⟩ := hfind
    rw [parseJsonField]
    show (findAfter (needle key.toList) _).map _ = _
    rw [hbrace, hfound, Option.map_some]
    exact congrArg some (value_text hvalue hc rest)

end Telemetry
