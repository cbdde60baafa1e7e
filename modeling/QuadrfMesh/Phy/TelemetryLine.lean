/-
# Telemetry lines (`apps/quadrf_lora_phy.cpp`)

The two lines of JSON the PHY writes to its telemetry clients, as `snprintf` formats them.  A
line opens one object and ends with its only newline.  A telemetry line fits the buffer it is
formatted in, and a modem line does if the preset's name has at most 50 characters.
-/
import QuadrfMesh.AirIpc.Messages
import QuadrfMesh.Lib.Lines
import QuadrfMesh.Lib.Rounding
import QuadrfMesh.Phy.Presets

namespace Telemetry

open Lines

/-! ## The lines -/

/-- A line of JSON: an object and a newline. -/
abbrev TelemetryLine := Line '{' '\n' '\x00'

/-- Text that neither opens an object nor ends a line or a string. -/
def Plain (text : List Char) : Prop := '{' ∉ text ∧ '\n' ∉ text ∧ '\x00' ∉ text

instance (text : List Char) : Decidable (Plain text) := inferInstanceAs (Decidable (_ ∧ _ ∧ _))

theorem plain_append {s t : List Char} : Plain (s ++ t) ↔ Plain s ∧ Plain t := by
  unfold Plain
  simp only [List.mem_append, not_or]
  tauto

theorem plain_cons {c : Char} {t : List Char} :
    Plain (c :: t) ↔ (c ≠ '{' ∧ c ≠ '\n' ∧ c ≠ '\x00') ∧ Plain t := by
  unfold Plain
  simp only [List.mem_cons, not_or]
  tauto

theorem plain_of_forall {t : List Char} (h : ∀ c ∈ t, c ≠ '{' ∧ c ≠ '\n' ∧ c ≠ '\x00') : Plain t :=
  ⟨fun hc => (h _ hc).1 rfl, fun hc => (h _ hc).2.1 rfl, fun hc => (h _ hc).2.2 rfl⟩

/-- `%d`, `%u`, `%lld` and `%zu`. -/
def decimal (z : ℤ) : List Char := (if z < 0 then ['-'] else []) ++ Nat.toDigits 10 z.natAbs

/-- `%08x`. -/
def hex8 (n : UInt32) : List Char :=
  (List.range 8).map fun k => Nat.digitChar ((n.toNat >>> (4 * (7 - k))) &&& 0xF)

/-- The nearest integer, of two the even one. -/
def roundEven (x : ℚ) : ℤ :=
  let rest := x - ⌊x⌋
  if rest < 1 / 2 ∨ (rest = 1 / 2 ∧ ⌊x⌋ % 2 = 0) then ⌊x⌋ else ⌊x⌋ + 1

/-- `%.1f` and `%.2f`. -/
def fixed (places : ℕ) (x : ℚ) : List Char :=
  let n := (roundEven (|x| * 10 ^ places)).toNat
  (if x < 0 then ['-'] else []) ++ Nat.toDigits 10 (n / 10 ^ places)
    ++ '.' :: (List.range places).map fun k => Nat.digitChar (n / 10 ^ (places - 1 - k) % 10)

theorem digitChar_plain (n : ℕ) :
    Nat.digitChar n ≠ '{' ∧ Nat.digitChar n ≠ '\n' ∧ Nat.digitChar n ≠ '\x00' := by
  rcases Nat.lt_or_ge n 16 with hlt | hge
  · have hall : ∀ n < 16,
        Nat.digitChar n ≠ '{' ∧ Nat.digitChar n ≠ '\n' ∧ Nat.digitChar n ≠ '\x00' := by decide
    exact hall n hlt
  · rw [Nat.digitChar_eq_star.mpr hge]
    decide

theorem plain_toDigits (n : ℕ) : Plain (Nat.toDigits 10 n) := by
  apply plain_of_forall
  intro c hc
  have hdigit : c.isDigit = true := Nat.isDigit_of_mem_toDigits (by norm_num) (by norm_num) hc
  refine ⟨?_, ?_, ?_⟩ <;>
  · rintro rfl
    exact absurd hdigit (by decide)

theorem plain_digits (f : ℕ → ℕ) (n : ℕ) :
    Plain ((List.range n).map fun k => Nat.digitChar (f k)) := by
  apply plain_of_forall
  intro c hc
  obtain ⟨k, -, rfl⟩ := List.mem_map.mp hc
  exact digitChar_plain _

theorem plain_sign (c : Prop) [Decidable c] : Plain (if c then ['-'] else []) := by
  split_ifs <;> decide

theorem plain_decimal (z : ℤ) : Plain (decimal z) :=
  plain_append.mpr ⟨plain_sign _, plain_toDigits _⟩

theorem plain_hex8 (n : UInt32) : Plain (hex8 n) := plain_digits _ 8

theorem plain_fixed (places : ℕ) (x : ℚ) : Plain (fixed places x) := by
  unfold fixed
  exact plain_append.mpr ⟨plain_append.mpr ⟨plain_sign _, plain_toDigits _⟩,
    plain_cons.mpr ⟨by decide, plain_digits _ _⟩⟩

/-- `"text"`. -/
def quoted (text : List Char) : List Char := '"' :: text ++ ['"']

/-- A field of an object. -/
def member (f : String × List Char) : List Char := quoted f.1.toList ++ ':' :: f.2

/-- The fields of an object, with commas in between. -/
def members : List (String × List Char) → List Char
  | [] => []
  | [f] => member f
  | f :: g :: fs => member f ++ ',' :: members (g :: fs)

/-- An object behind its opening brace. -/
def objectBody (fields : List (String × List Char)) : List Char := members fields ++ ['}']

theorem plain_quoted {text : List Char} (h : Plain text) : Plain (quoted text) :=
  plain_append.mpr ⟨plain_cons.mpr ⟨by decide, h⟩, by decide⟩

theorem plain_members : ∀ {fields : List (String × List Char)},
    (∀ f ∈ fields, Plain f.1.toList ∧ Plain f.2) → Plain (members fields)
  | [], _ => by decide
  | [f], h => by
      obtain ⟨hname, hvalue⟩ := h f (List.mem_singleton_self f)
      exact plain_append.mpr ⟨plain_quoted hname, plain_cons.mpr ⟨by decide, hvalue⟩⟩
  | f :: g :: fs, h => by
      obtain ⟨⟨hname, hvalue⟩, hrest⟩ := List.forall_mem_cons.mp h
      refine plain_append.mpr ⟨?_, plain_cons.mpr ⟨by decide, plain_members hrest⟩⟩
      exact plain_append.mpr ⟨plain_quoted hname, plain_cons.mpr ⟨by decide, hvalue⟩⟩

/-- An object with plain fields on a line. -/
def objectLine (fields : List (String × List Char))
    (h : ∀ f ∈ fields, Plain f.1.toList ∧ Plain f.2) : TelemetryLine where
  body := objectBody fields
  start_not_mem := (plain_append.mpr ⟨plain_members h, by decide⟩ : Plain (objectBody fields)).1
  stop_not_mem := (plain_append.mpr ⟨plain_members h, by decide⟩ : Plain (objectBody fields)).2.1
  nul_not_mem := (plain_append.mpr ⟨plain_members h, by decide⟩ : Plain (objectBody fields)).2.2

/-! ## What the PHY writes -/

/-- A preset name that was parsed: a key, or the text behind `--preset`. -/
structure PresetName where
  name : String
  parses : (parseMeshtasticPreset name).isSome = true

/-- Names that are parsed have letters and separators only. -/
theorem PresetName.plain (n : PresetName) : Plain n.name.toList := by
  obtain ⟨preset, hpreset⟩ := Option.isSome_iff_exists.mp n.parses
  obtain ⟨info, hfind, -⟩ := Option.map_eq_some_iff.mp hpreset
  have hkey := List.find?_some hfind
  have hmem := List.mem_of_find?_eq_some hfind
  have hplain : ∀ info ∈ kMeshtasticPresetInfo, Plain info.key.toList := by decide +kernel
  simp only [decide_eq_true_eq] at hkey
  have hfiltered := hplain info hmem
  rw [← hkey] at hfiltered
  apply plain_of_forall
  intro c hc
  refine ⟨?_, ?_, ?_⟩
  · rintro rfl
    exact hfiltered.1 (List.mem_map.mpr ⟨'{', List.mem_filter.mpr ⟨hc, by decide⟩, by decide⟩)
  · rintro rfl
    exact hfiltered.2.1 (List.mem_map.mpr ⟨'\n', List.mem_filter.mpr ⟨hc, by decide⟩, by decide⟩)
  · rintro rfl
    exact hfiltered.2.2 (List.mem_map.mpr ⟨'\x00', List.mem_filter.mpr ⟨hc, by decide⟩, by decide⟩)

/-- The key of a preset, which `applyModem` sets. -/
def PresetName.ofPreset (preset : MeshtasticPreset) : PresetName where
  name := meshtasticPresetKey preset
  parses := by rw [parseMeshtasticPreset_key]; rfl

/-- The name's line fits the 80 bytes it is formatted in. -/
def PresetName.Fits (n : PresetName) : Prop := n.name.toList.length ≤ 50

instance (n : PresetName) : Decidable n.Fits := inferInstanceAs (Decidable (_ ≤ _))

/-- Keys do. -/
theorem PresetName.fits_ofPreset (preset : MeshtasticPreset) : (ofPreset preset).Fits := by
  cases preset <;> decide +kernel

/-- The line of `broadcastModemStatus` and of the greeting in `acceptTelemetry`. -/
def modemLine (n : PresetName) : TelemetryLine :=
  objectLine [("type", quoted "modem".toList), ("preset", quoted n.name.toList)] (by
    simp only [List.forall_mem_cons, List.not_mem_nil, false_imp_iff, implies_true, and_true]
    exact ⟨⟨by decide +kernel, by decide +kernel⟩, by decide +kernel, plain_quoted n.plain⟩)

/-- A `float`. -/
abbrev CFloat := { x : ℚ // |x| < 2 ^ 128 }

/-- What `broadcastTelemetry` reads of a `ReceivedFrame`, its `double`s as `float`s. -/
structure Report where
  payload : List UInt8
  payload_le : payload.length ≤ 255
  snr : CFloat
  sirDb : CFloat
  lvlDbfs : CFloat
  cfoHz : CFloat
  ratePpm : CFloat
  preambleSymbols : UInt64 := 0

/-- `to_node`, `from_node` or `packet_id`, where the payload has room for all three. -/
def headerWord (payload : List UInt8) (offset : ℕ) : UInt32 :=
  if 12 ≤ payload.length then readLe32 (payload.drop offset) else 0

/-- The fields of a telemetry line. -/
def reportFields (nowMs : Int64) (r : Report) (echo : Bool) : List (String × List Char) :=
  [("ts", decimal nowMs.toInt),
   ("from", quoted ('0' :: 'x' :: hex8 (headerWord r.payload 4))),
   ("to", quoted ('0' :: 'x' :: hex8 (headerWord r.payload 0))),
   ("id", quoted ('0' :: 'x' :: hex8 (headerWord r.payload 8))),
   ("snr", fixed 2 r.snr),
   ("sir", fixed 2 r.sirDb),
   ("lvl", fixed 1 r.lvlDbfs),
   ("rssi", decimal (Int32.ofInt (lround r.lvlDbfs)).toInt),
   ("cfo", decimal (Int32.ofInt (truncate r.cfoHz)).toInt),
   ("ppm", fixed 2 r.ratePpm),
   ("pre", decimal r.preambleSymbols.toUInt32.toNat),
   ("len", decimal r.payload.length),
   ("echo", if echo then ['1'] else ['0'])]

theorem plain_reportFields (nowMs : Int64) (r : Report) (echo : Bool) :
    ∀ f ∈ reportFields nowMs r echo, Plain f.1.toList ∧ Plain f.2 := by
  have hnames : ∀ f ∈ reportFields nowMs r echo, Plain f.1.toList := by
    have hall : ∀ n ∈ (reportFields nowMs r echo).map Prod.fst, Plain n.toList := by
      show ∀ n ∈ ["ts", "from", "to", "id", "snr", "sir", "lvl", "rssi", "cfo", "ppm", "pre", "len",
        "echo"], Plain n.toList
      decide +kernel
    exact fun f hf => hall f.1 (List.mem_map_of_mem hf)
  have hhex : ∀ n, Plain (quoted ('0' :: 'x' :: hex8 n)) := fun n =>
    plain_quoted (plain_cons.mpr ⟨by decide, plain_cons.mpr ⟨by decide, plain_hex8 n⟩⟩)
  have hecho : Plain (if echo then ['1'] else ['0']) := by split_ifs <;> decide
  refine fun f hf => ⟨hnames f hf, ?_⟩
  simp only [reportFields, List.mem_cons, List.not_mem_nil, or_false] at hf
  rcases hf with rfl | rfl | rfl | rfl | rfl | rfl | rfl | rfl | rfl | rfl | rfl | rfl | rfl
  any_goals first
    | exact plain_decimal _
    | exact hhex _
    | exact plain_fixed _ _
  exact hecho

/-- The line of `broadcastTelemetry`. -/
def reportLine (nowMs : Int64) (r : Report) (echo : Bool) : TelemetryLine :=
  objectLine (reportFields nowMs r echo) (plain_reportFields nowMs r echo)

/-! ## The buffers -/

theorem length_decimal_le {z : ℤ} {k : ℕ} (hk : 0 < k) (hz : z.natAbs < 10 ^ k) :
    (decimal z).length ≤ k + 1 := by
  have hdigits := (Nat.length_toDigits_le_iff (b := 10) (by norm_num) hk).mpr hz
  unfold decimal
  split_ifs <;> simp only [List.length_append, List.length_cons, List.length_nil] <;> omega

theorem roundEven_le (x : ℚ) : (roundEven x : ℚ) ≤ x + 1 := by
  have hfloor := Int.floor_le x
  unfold roundEven
  simp only
  split_ifs
  · linarith
  · push_cast
    linarith

theorem length_fixed_le (places : ℕ) (x : CFloat) : (fixed places x).length ≤ 41 + places := by
  set n := (roundEven (|x.1| * 10 ^ places)).toNat with hn
  have hwhole : n / 10 ^ places < 10 ^ 39 := by
    rw [Nat.div_lt_iff_lt_mul (by positivity)]
    have hpow : (1 : ℚ) ≤ 10 ^ places := one_le_pow₀ (by norm_num)
    have hscaled : |x.1| * 10 ^ places ≤ 2 ^ 128 * 10 ^ places :=
      mul_le_mul_of_nonneg_right x.2.le (by positivity)
    have hround := roundEven_le (|x.1| * 10 ^ places)
    have hlt : (roundEven (|x.1| * 10 ^ places) : ℚ) < ((10 ^ 39 * 10 ^ places : ℕ) : ℤ) := by
      push_cast
      nlinarith
    have hlt : roundEven (|x.1| * 10 ^ places) < (10 ^ 39 * 10 ^ places : ℕ) := by
      exact_mod_cast hlt
    have hpos : 0 < 10 ^ 39 * 10 ^ places := by positivity
    omega
  have hdigits := (Nat.length_toDigits_le_iff (b := 10) (by norm_num) (by norm_num)).mpr hwhole
  unfold fixed
  simp only [← hn, List.length_append, List.length_cons, List.length_map, List.length_range]
  split_ifs <;> simp only [List.length_cons, List.length_nil] <;> omega

/-- A field takes four bytes more than its name and its value, the comma included. -/
theorem length_members : ∀ {fields : List (String × List Char)}, fields ≠ [] →
    (members fields).length + 1 = (fields.map fun f => f.1.toList.length + f.2.length + 4).sum
  | [], h => absurd rfl h
  | [f], _ => by
      simp only [members, member, quoted, List.length_append, List.length_cons, List.length_nil,
        List.map_cons, List.map_nil, List.sum_cons, List.sum_nil]
      omega
  | f :: g :: fs, _ => by
      have ih := length_members (List.cons_ne_nil g fs)
      rw [List.map_cons, List.sum_cons]
      simp only [members, member, quoted, List.length_append, List.length_cons,
        List.length_nil] at ih ⊢
      omega

theorem length_objectLine {fields : List (String × List Char)} (hne : fields ≠ [])
    (h : ∀ f ∈ fields, Plain f.1.toList ∧ Plain f.2) :
    (objectLine fields h).toList.length
      = (fields.map fun f => f.1.toList.length + f.2.length + 4).sum + 2 := by
  have hmembers := length_members hne
  simp only [Line.toList, Line.text, objectLine, objectBody, List.length_append, List.length_cons,
    List.length_nil]
  omega

/-- `hello` and `line` in `broadcastModemStatus` hold 80 bytes, and a name can be too long. -/
theorem modemLine_fits_iff (n : PresetName) :
    (modemLine n).toList.length < 80 ↔ n.Fits := by
  have htype : "type".toList.length = 4 := rfl
  have hpreset : "preset".toList.length = 6 := rfl
  have hmodem : "modem".toList.length = 5 := rfl
  rw [modemLine, length_objectLine (List.cons_ne_nil _ _)]
  simp only [List.map_cons, List.map_nil, List.sum_cons, List.sum_nil, quoted, List.length_append,
    List.length_cons, List.length_nil, htype, hpreset, hmodem]
  unfold PresetName.Fits
  omega

/-- `line` in `broadcastTelemetry` holds 448 bytes. -/
theorem reportLine_fits (nowMs : Int64) (r : Report) (echo : Bool) :
    (reportLine nowMs r echo).toList.length < 448 := by
  have hts : (decimal nowMs.toInt).length ≤ 19 + 1 := by
    apply length_decimal_le (by norm_num)
    have := nowMs.toInt_lt
    have := nowMs.le_toInt
    omega
  have hint : ∀ i : Int32, (decimal i.toInt).length ≤ 10 + 1 := by
    intro i
    apply length_decimal_le (by norm_num)
    have := i.toInt_lt
    have := i.le_toInt
    omega
  have hpre : (decimal r.preambleSymbols.toUInt32.toNat).length ≤ 10 + 1 := by
    apply length_decimal_le (by norm_num)
    have := r.preambleSymbols.toUInt32.toNat_lt
    omega
  have hlen : (decimal r.payload.length).length ≤ 3 + 1 := by
    apply length_decimal_le (by norm_num)
    have := r.payload_le
    omega
  have hecho : (if echo then ['1'] else ['0']).length = 1 := by split_ifs <;> rfl
  have hnode : ∀ n, (quoted ('0' :: 'x' :: hex8 n)).length = 12 := fun n => by
    simp [quoted, hex8]
  have hsnr := length_fixed_le 2 r.snr
  have hsir := length_fixed_le 2 r.sirDb
  have hlvl := length_fixed_le 1 r.lvlDbfs
  have hppm := length_fixed_le 2 r.ratePpm
  have hrssi := hint (Int32.ofInt (lround r.lvlDbfs))
  have hcfo := hint (Int32.ofInt (truncate r.cfoHz))
  have hnames : ∀ n ∈ ["ts", "from", "to", "id", "snr", "sir", "lvl", "rssi", "cfo", "ppm", "pre",
      "len", "echo"], n.toList.length ≤ 4 := by decide +kernel
  simp only [List.forall_mem_cons, List.not_mem_nil, false_imp_iff, implies_true, and_true]
    at hnames
  have hne : reportFields nowMs r echo ≠ [] := List.cons_ne_nil _ _
  rw [reportLine, length_objectLine hne]
  simp only [reportFields, List.map_cons, List.map_nil, List.sum_cons, List.sum_nil, hnode, hecho]
  omega

end Telemetry
