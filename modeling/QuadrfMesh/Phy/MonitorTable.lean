/-
# The monitor's table (`apps/quadrf_lora_phy.cpp`, `apps/quadrf_mesh_monitor.cpp`)

The PHY formats its telemetry with `snprintf`, and the monitor takes it apart again.  A record has
the time, the ids and the length of the frame it is about, and its metrics to half a unit of the
last decimal that was written (`shows_reportLine`).  So as long as no write is cut short, the table
is the newest 200 of the reports that were read, and the preset is the one last announced, however
the lines are cut into reads (`monitor_shows`).
-/
import QuadrfMesh.Phy.TelemetryMonitor

namespace Telemetry

open Lines

/-! ## Texts of numbers -/

/-- Letters, digits, signs and points. -/
def NumberText (t : List Char) : Prop := t ≠ [] ∧ ∀ c ∈ t, c.isAlphanum = true ∨ c = '-' ∨ c = '.'

theorem NumberText.ne {t : List Char} (h : NumberText t) {c : Char}
    (hc : ¬(c.isAlphanum = true ∨ c = '-' ∨ c = '.')) : ∀ x ∈ t, x ≠ c := by
  rintro x hx rfl
  exact hc (h.2 x hx)

theorem NumberText.token {t : List Char} (h : NumberText t) : Token t := by
  refine ⟨fun c hc => ⟨h.ne (by decide) c hc, h.ne (by decide) c hc, h.ne (by decide) c hc,
    h.ne (by decide) c hc, h.ne (by decide) c hc⟩, ?_⟩
  obtain ⟨c, hc⟩ := List.exists_mem_of_ne_nil t h.1
  exact ⟨c, hc, h.ne (by decide) c hc⟩

/-- There are no spaces to take off. -/
theorem NumberText.trim_eq {t : List Char} (h : NumberText t) : trim t = t := by
  have hspace : ∀ x ∈ t, ¬(decide (x = ' ')) = true := by
    intro x hx
    rw [decide_eq_true_eq]
    exact h.ne (by decide) x hx
  have hfront : t.dropWhile (· = ' ') = t := by
    obtain ⟨c, cs, rfl⟩ := List.exists_cons_of_ne_nil h.1
    exact List.dropWhile_cons_of_neg (hspace c List.mem_cons_self)
  rw [trim, hfront, List.rdropWhile_eq_self_iff]
  exact fun hne => hspace _ (List.getLast_mem hne)

theorem isAlphanum_of_isDigit {c : Char} (h : c.isDigit = true) : c.isAlphanum = true := by
  rw [Char.isAlphanum, h, Bool.or_true]

theorem isAlphanum_digitChar {d : ℕ} (h : d < 16) : (Nat.digitChar d).isAlphanum = true := by
  have hall : ∀ d < 16, (Nat.digitChar d).isAlphanum = true := by decide
  exact hall d h

/-- Digits behind a sign. -/
theorem numberText_signed (negative : Prop) [Decidable negative] (n : ℕ) {rest : List Char}
    (hrest : ∀ c ∈ rest, c.isAlphanum = true ∨ c = '-' ∨ c = '.') :
    NumberText ((if negative then ['-'] else []) ++ Nat.toDigits 10 n ++ rest) := by
  refine ⟨?_, fun c hc => ?_⟩
  · intro hnil
    exact Nat.toDigits_ne_nil (List.append_eq_nil_iff.mp (List.append_eq_nil_iff.mp hnil).1).2
  · rcases List.mem_append.mp hc with hc | hc
    · rcases List.mem_append.mp hc with hc | hc
      · split_ifs at hc with hneg
        · exact Or.inr (Or.inl (List.mem_singleton.mp hc))
        · exact absurd hc List.not_mem_nil
      · exact Or.inl (isAlphanum_of_isDigit (Nat.isDigit_of_mem_toDigits (by norm_num) (by norm_num) hc))
    · exact hrest c hc

theorem numberText_decimal (z : ℤ) : NumberText (decimal z) := by
  have h := numberText_signed (z < 0) z.natAbs (fun c hc => absurd hc (List.not_mem_nil (a := c)))
  rwa [List.append_nil] at h

theorem numberText_fixed (places : ℕ) (x : ℚ) : NumberText (fixed places x) := by
  refine numberText_signed (x < 0) _ fun c hc => ?_
  rcases List.mem_cons.mp hc with rfl | hc
  · exact Or.inr (Or.inr rfl)
  · obtain ⟨k, -, rfl⟩ := List.mem_map.mp hc
    exact Or.inl (isAlphanum_digitChar ((Nat.mod_lt _ (by norm_num)).trans (by norm_num)))

theorem numberText_hex8 (n : UInt32) : NumberText ('0' :: 'x' :: hex8 n) := by
  refine ⟨List.cons_ne_nil _ _, fun c hc => Or.inl ?_⟩
  rcases List.mem_cons.mp hc with rfl | hc
  · decide
  · rcases List.mem_cons.mp hc with rfl | hc
    · decide
    · obtain ⟨k, -, rfl⟩ := List.mem_map.mp hc
      exact isAlphanum_digitChar (Nat.lt_of_le_of_lt Nat.and_le_right (by norm_num))

theorem numberText_echo (echo : Bool) : NumberText (if echo then ['1'] else ['0']) := by
  cases echo with
  | true => exact ⟨List.cons_ne_nil _ _, List.forall_mem_singleton.mpr (Or.inl (by decide))⟩
  | false => exact ⟨List.cons_ne_nil _ _, List.forall_mem_singleton.mpr (Or.inl (by decide))⟩

/-! ## The fields of a report -/

/-- The names in a telemetry line. -/
def reportNames : List String :=
  ["ts", "from", "to", "id", "snr", "sir", "lvl", "rssi", "cfo", "ppm", "pre", "len", "echo"]

theorem names_reportFields (nowMs : Int64) (r : Report) (echo : Bool) :
    (reportFields nowMs r echo).map Prod.fst = reportNames := rfl

/-- A number, in quotes perhaps. -/
theorem values_reportFields (nowMs : Int64) (r : Report) (echo : Bool) :
    ∀ f ∈ reportFields nowMs r echo, ∃ t, NumberText t ∧ IsValue f.2 t := by
  have hplain : ∀ {t : List Char}, NumberText t → ∃ s, NumberText s ∧ IsValue t s :=
    fun h => ⟨_, h, .plain h.token⟩
  have hquoted : ∀ {t : List Char}, NumberText t → ∃ s, NumberText s ∧ IsValue (quoted t) s :=
    fun h => ⟨_, h, .quoted h.token⟩
  simp only [reportFields, List.forall_mem_cons, List.not_mem_nil, false_imp_iff, implies_true,
    and_true]
  exact ⟨hplain (numberText_decimal _), hquoted (numberText_hex8 _), hquoted (numberText_hex8 _),
    hquoted (numberText_hex8 _), hplain (numberText_fixed _ _), hplain (numberText_fixed _ _),
    hplain (numberText_fixed _ _), hplain (numberText_decimal _), hplain (numberText_decimal _),
    hplain (numberText_fixed _ _), hplain (numberText_decimal _), hplain (numberText_decimal _),
    hplain (numberText_echo _)⟩

/-- Where names are distinct, a field is the first of its name. -/
theorem find?_name {fields : List (String × List Char)} (hnames : (fields.map Prod.fst).Nodup)
    {f : String × List Char} (hf : f ∈ fields) :
    fields.find? (fun g => g.1.toList = f.1.toList) = some f := by
  induction fields with
  | nil => exact absurd hf List.not_mem_nil
  | cons g fields ih =>
      rw [List.map_cons, List.nodup_cons] at hnames
      rcases List.mem_cons.mp hf with rfl | hf
      · exact List.find?_cons_of_pos (decide_eq_true rfl)
      · have hne : g.1.toList ≠ f.1.toList := by
          intro h
          apply hnames.1
          rw [String.toList_inj.mp h]
          exact List.mem_map_of_mem hf
        rw [List.find?_cons_of_neg (by simpa using hne)]
        exact ih hnames.2 hf

theorem ofInt_toInt (x : Int64) : UInt64.ofInt x.toInt = x.toUInt64 := by
  refine UInt64.toNat_inj.mp ?_
  have hint : x.toInt = x.toBitVec.toInt := rfl
  have hnat : x.toBitVec.toNat = x.toUInt64.toNat := rfl
  have hlt := x.toUInt64.toNat_lt
  rw [UInt64.ofInt, hint, BitVec.toInt_eq_toNat_cond, hnat]
  simp only [UInt64.toNat_ofNat']
  split_ifs <;> omega

section Report

variable (nowMs : Int64) (r : Report) (echo : Bool)

theorem isName_reportFields : ∀ f ∈ reportFields nowMs r echo, IsName f.1.toList := by
  have hall : ∀ n ∈ reportNames, IsName n.toList := by
    unfold reportNames
    decide +kernel
  intro f hf
  apply hall
  rw [← names_reportFields nowMs r echo]
  exact List.mem_map_of_mem hf

theorem isValue_reportFields :
    ∀ f ∈ reportFields nowMs r echo, IsName f.1.toList ∧ ∃ t, IsValue f.2 t := by
  intro f hf
  obtain ⟨t, -, hvalue⟩ := values_reportFields nowMs r echo f hf
  exact ⟨isName_reportFields nowMs r echo f hf, t, hvalue⟩

/-- A field of the line is found. -/
theorem parseJsonField_report {name : String} {value t : List Char}
    (hf : (name, value) ∈ reportFields nowMs r echo) (ht : NumberText t) (hvalue : IsValue value t) :
    parseJsonField (reportLine nowMs r echo).text name = some t := by
  have hnames : ((reportFields nowMs r echo).map Prod.fst).Nodup := by
    rw [names_reportFields]
    decide +kernel
  have hfound := (parseJsonField_object (List.cons_ne_nil _ _) (isValue_reportFields nowMs r echo)
    (isName_reportFields nowMs r echo _ hf)).2 _ t (find?_name hnames hf) hvalue
  rwa [ht.trim_eq] at hfound

/-- Another name is not found. -/
theorem parseJsonField_report_none {key : String} (hkey : IsName key.toList)
    (hother : key ∉ reportNames) : parseJsonField (reportLine nowMs r echo).text key = none := by
  refine (parseJsonField_object (List.cons_ne_nil _ _) (isValue_reportFields nowMs r echo) hkey).1 ?_
  rw [List.find?_eq_none]
  intro f hf heq
  apply hother
  rw [← names_reportFields nowMs r echo, ← String.toList_inj.mp (of_decide_eq_true heq)]
  exact List.mem_map_of_mem hf

/-- The record of a report. -/
theorem parseRecord_report :
    parseRecord (reportLine nowMs r echo).text =
      { ts := some (decimal nowMs.toInt)
        snr := some (fixed 2 r.snr)
        sir := some (fixed 2 r.sirDb)
        lvl := some (fixed 1 r.lvlDbfs)
        cfo := some (decimal (Int32.ofInt (truncate r.cfoHz)).toInt)
        ratePpm := some (fixed 2 r.ratePpm)
        fromNode := some ('0' :: 'x' :: hex8 (headerWord r.payload 4))
        toNode := some ('0' :: 'x' :: hex8 (headerWord r.payload 0))
        packetId := some ('0' :: 'x' :: hex8 (headerWord r.payload 8))
        payloadLen := some (decimal r.payload.length)
        isEcho := echo } := by
  have hplain : ∀ {name : String} {t : List Char}, (name, t) ∈ reportFields nowMs r echo →
      NumberText t → parseJsonField (reportLine nowMs r echo).text name = some t :=
    fun hf ht => parseJsonField_report nowMs r echo hf ht (.plain ht.token)
  have hquoted : ∀ {name : String} {t : List Char}, (name, quoted t) ∈ reportFields nowMs r echo →
      NumberText t → parseJsonField (reportLine nowMs r echo).text name = some t :=
    fun hf ht => parseJsonField_report nowMs r echo hf ht (.quoted ht.token)
  have hts := hplain (List.mem_of_getElem? (i := 0) rfl) (numberText_decimal nowMs.toInt)
  have hfrom := hquoted (List.mem_of_getElem? (i := 1) rfl) (numberText_hex8 (headerWord r.payload 4))
  have hto := hquoted (List.mem_of_getElem? (i := 2) rfl) (numberText_hex8 (headerWord r.payload 0))
  have hid := hquoted (List.mem_of_getElem? (i := 3) rfl) (numberText_hex8 (headerWord r.payload 8))
  have hsnr := hplain (List.mem_of_getElem? (i := 4) rfl) (numberText_fixed 2 r.snr)
  have hsir := hplain (List.mem_of_getElem? (i := 5) rfl) (numberText_fixed 2 r.sirDb)
  have hlvl := hplain (List.mem_of_getElem? (i := 6) rfl) (numberText_fixed 1 r.lvlDbfs)
  have hcfo := hplain (List.mem_of_getElem? (i := 8) rfl)
    (numberText_decimal (Int32.ofInt (truncate r.cfoHz)).toInt)
  have hppm := hplain (List.mem_of_getElem? (i := 9) rfl) (numberText_fixed 2 r.ratePpm)
  have hlen := hplain (List.mem_of_getElem? (i := 11) rfl) (numberText_decimal r.payload.length)
  have hecho := hplain (List.mem_of_getElem? (i := 12) rfl) (numberText_echo echo)
  unfold parseRecord
  rw [hts, hfrom, hto, hid, hsnr, hsir, hlvl, hcfo, hppm, hlen, hecho, Option.some_or, Option.some_or]
  have hflag : decide ((if echo then ['1'] else ['0']) ≠ "0".toList ∧
      (if echo then ['1'] else ['0']) ≠ "false".toList) = echo := by
    cases echo <;> decide +kernel
  simp only [hflag]

/-- What the table has of a report. -/
structure Shows (s : ShownRecord) : Prop where
  tsMs : s.tsMs = nowMs.toUInt64
  snrDb : |s.snrDb - r.snr| ≤ 1 / 200
  sirDb : |s.sirDb - r.sirDb| ≤ 1 / 200
  lvlDbfs : |s.lvlDbfs - r.lvlDbfs| ≤ 1 / 20
  cfoHz : s.cfoHz = Int32.ofInt (truncate r.cfoHz)
  ratePpm : |s.ratePpm - r.ratePpm| ≤ 1 / 200
  fromNode : s.fromNode = headerWord r.payload 4
  toNode : s.toNode = headerWord r.payload 0
  packetId : s.packetId = headerWord r.payload 8
  payloadLen : s.payloadLen.toNat = r.payload.length
  isEcho : s.isEcho = echo


/-- **A report is read back.** -/
theorem shows_reportLine : Shows nowMs r echo (parseRecord (reportLine nowMs r echo).text).shown := by
  have hnode : ∀ n : UInt32, (strtoull 0 ('0' :: 'x' :: hex8 n)).toUInt32 = n := by
    intro n
    rw [strtoull_hex8, UInt32.toUInt32_toUInt64]
  have hmetric : ∀ x : CFloat, |strtof (fixed 2 x) - x| ≤ 1 / 200 := by
    intro x
    have h := abs_written_sub_le 2 x.1
    rw [strtof_fixed]
    norm_num at h ⊢
    exact h
  have hlevel : |strtof (fixed 1 r.lvlDbfs) - r.lvlDbfs| ≤ 1 / 20 := by
    have h := abs_written_sub_le 1 r.lvlDbfs.1
    rw [strtof_fixed]
    norm_num at h ⊢
    exact h
  rw [parseRecord_report]
  constructor
  case tsMs =>
    show strtoull 10 (decimal nowMs.toInt) = _
    rw [strtoull_decimal, ofInt_toInt]
    have := nowMs.toInt_lt
    have := nowMs.le_toInt
    omega
  case cfoHz =>
    show Int32.ofInt (strtol 10 (decimal (Int32.ofInt (truncate r.cfoHz)).toInt)) = _
    have hhigh := (Int32.ofInt (truncate r.cfoHz)).toInt_lt
    have hlow := (Int32.ofInt (truncate r.cfoHz)).le_toInt
    rw [strtol_decimal (by omega) (by omega), Int32.ofInt_toInt]
  case payloadLen =>
    show (strtoull 10 (decimal r.payload.length)).toUInt16.toNat = _
    have hle := r.payload_le
    rw [strtoull_decimal (by omega), UInt64.ofInt, UInt64.toNat_toUInt16]
    simp only [UInt64.toNat_ofNat']
    omega
  case snrDb => exact hmetric r.snr
  case sirDb => exact hmetric r.sirDb
  case lvlDbfs => exact hlevel
  case ratePpm => exact hmetric r.ratePpm
  case fromNode => exact hnode _
  case toNode => exact hnode _
  case packetId => exact hnode _
  case isEcho => rfl

end Report

/-! ## The modem line -/

theorem filter_dropWhile {p q : Char → Bool} (h : ∀ c, q c = true → p c = false) (t : List Char) :
    (t.dropWhile q).filter p = t.filter p := by
  induction t with
  | nil => rfl
  | cons c t ih =>
      by_cases hc : q c = true
      · rw [List.dropWhile_cons_of_pos hc, ih, List.filter_cons_of_neg (by rw [h c hc]; decide)]
      · rw [List.dropWhile_cons_of_neg hc]

/-- The spaces that are taken off are skipped anyway. -/
theorem filter_trim {p : Char → Bool} (hp : p ' ' = false) (t : List Char) :
    (trim t).filter p = t.filter p := by
  have hspace : ∀ c : Char, decide (c = ' ') = true → p c = false := by
    intro c hc
    rw [of_decide_eq_true hc, hp]
  rw [trim, List.rdropWhile, List.filter_reverse, filter_dropWhile hspace, List.filter_reverse,
    List.reverse_reverse, filter_dropWhile hspace]

/-- Spaces at the ends do not matter to a preset's name. -/
theorem parseMeshtasticPreset_trim (name : String) :
    parseMeshtasticPreset (String.ofList (trim name.toList)) = parseMeshtasticPreset name := by
  unfold parseMeshtasticPreset
  simp only [String.toList_ofList]
  rw [filter_trim (by decide)]

namespace PresetName

/-- The preset that is named. -/
def preset (n : PresetName) : MeshtasticPreset := (parseMeshtasticPreset n.name).get n.parses

/-- A name is its preset's key, but for separators and case. -/
theorem exists_key (n : PresetName) : ∃ info ∈ kMeshtasticPresetInfo,
    (n.name.toList.filter fun c => !(c = '-' || c = '_' || c = ' ')).map Char.toLower
      = info.key.toList := by
  obtain ⟨preset, hpreset⟩ := Option.isSome_iff_exists.mp n.parses
  obtain ⟨info, hfind, -⟩ := Option.map_eq_some_iff.mp hpreset
  have hkey := List.find?_some hfind
  exact ⟨info, List.mem_of_find?_eq_some hfind, of_decide_eq_true hkey⟩

theorem token (n : PresetName) : Token n.name.toList := by
  obtain ⟨info, hmem, hkey⟩ := n.exists_key
  -- a character that is no separator and has no other case would be one of the key
  have hnot : ∀ b : Char, (!(b = '-' || b = '_' || b = ' ')) = true → b.toLower = b →
      (∀ info ∈ kMeshtasticPresetInfo, b ∉ info.key.toList) → ∀ c ∈ n.name.toList, c ≠ b := by
    rintro b hkept hlower hother c hc rfl
    apply hother info hmem
    rw [← hkey]
    exact List.mem_map.mpr ⟨c, List.mem_filter.mpr ⟨hc, hkept⟩, hlower⟩
  refine ⟨fun c hc => ⟨hnot '"' (by decide) (by decide) (by decide +kernel) c hc,
    hnot ',' (by decide) (by decide) (by decide +kernel) c hc,
    hnot '}' (by decide) (by decide) (by decide +kernel) c hc,
    hnot '\r' (by decide) (by decide) (by decide +kernel) c hc,
    hnot '\n' (by decide) (by decide) (by decide +kernel) c hc⟩, ?_⟩
  have hne : ∀ info ∈ kMeshtasticPresetInfo, info.key.toList ≠ [] := by decide +kernel
  obtain ⟨c, hc⟩ := List.exists_mem_of_ne_nil _ (hkey ▸ hne info hmem)
  obtain ⟨x, hx, -⟩ := List.mem_map.mp hc
  refine ⟨x, List.mem_of_mem_filter hx, ?_⟩
  rintro rfl
  exact absurd (List.mem_filter.mp hx).2 (by decide)

end PresetName

/-- Something is left of a text that is not all spaces. -/
theorem trim_ne_nil {t : List Char} (h : Token t) : trim t ≠ [] := by
  obtain ⟨-, c, hc, hspace⟩ := h
  intro hnil
  have hfilter := filter_trim (p := fun c => !decide (c = ' ')) (by decide) t
  rw [hnil] at hfilter
  have hmem : c ∈ t.filter fun c => !decide (c = ' ') :=
    List.mem_filter.mpr ⟨hc, by simpa using hspace⟩
  rw [← hfilter] at hmem
  exact List.not_mem_nil hmem

/-- The fields of a modem line are found. -/
theorem parseJsonField_modem (n : PresetName) :
    parseJsonField (modemLine n).text "type" = some "modem".toList ∧
      parseJsonField (modemLine n).text "preset" = some (trim n.name.toList) := by
  set fields : List (String × List Char) :=
    [("type", quoted "modem".toList), ("preset", quoted n.name.toList)] with hfields
  have hmodem : Token "modem".toList := by
    refine NumberText.token ⟨by decide +kernel, ?_⟩
    show ∀ c ∈ ['m', 'o', 'd', 'e', 'm'], c.isAlphanum = true ∨ c = '-' ∨ c = '.'
    simp only [List.forall_mem_cons, List.not_mem_nil, false_imp_iff, implies_true, and_true]
    decide
  have hobject : ∀ f ∈ fields, IsName f.1.toList ∧ ∃ t, IsValue f.2 t := by
    rw [hfields]
    simp only [List.forall_mem_cons, List.not_mem_nil, false_imp_iff, implies_true, and_true]
    exact ⟨⟨by decide +kernel, _, .quoted hmodem⟩, by decide +kernel, _, .quoted n.token⟩
  have hnames : (fields.map Prod.fst).Nodup := by
    rw [hfields]
    show ["type", "preset"].Nodup
    decide +kernel
  have htypeName : IsName "type".toList := by decide +kernel
  have hpresetName : IsName "preset".toList := by decide +kernel
  have htype := (parseJsonField_object (List.cons_ne_nil _ _) hobject htypeName).2
    ("type", quoted "modem".toList) _ (find?_name hnames List.mem_cons_self) (.quoted hmodem)
  have hpreset := (parseJsonField_object (List.cons_ne_nil _ _) hobject hpresetName).2
    ("preset", quoted n.name.toList) _
    (find?_name hnames (List.mem_cons_of_mem _ List.mem_cons_self)) (.quoted n.token)
  exact ⟨htype.trans (by decide +kernel), hpreset⟩

/-! ## The table -/

/-- What the PHY announces to its clients. -/
inductive Announced
  | modem (name : PresetName)
  | frame (nowMs : Int64) (r : Report) (echo : Bool)

namespace Announced

/-- The line that is written. -/
def line : Announced → TelemetryLine
  | modem name => modemLine name
  | frame nowMs r echo => reportLine nowMs r echo

/-- A report, with its time and whether it is an echo. -/
def frame? : Announced → Option (Int64 × Report × Bool)
  | modem _ => none
  | frame nowMs r echo => some (nowMs, r, echo)

/-- The preset that is announced. -/
def preset? : Announced → Option MeshtasticPreset
  | modem name => some name.preset
  | frame _ _ _ => none

end Announced

/-- The preset last announced; `ShortTurbo` is the monitor's default. -/
def lastPreset (events : List Announced) : MeshtasticPreset :=
  (events.filterMap Announced.preset?).getLast?.getD .shortTurbo

/-- **The monitor's state** after these: the reports, the newest first, and the last preset. -/
structure Table (events : List Announced) (st : AppState) : Prop where
  total : st.totalPackets = (events.filterMap Announced.frame?).length
  rows : List.Forall₂ (fun (f : Int64 × Report × Bool) rec => Shows f.1 f.2.1 f.2.2 rec.shown)
    ((events.filterMap Announced.frame?).reverse.take 200) st.packets
  newest : st.lastPacket = st.packets.head?
  preset : st.preset = presetDisplayName (lastPreset events)
  presetSf : st.presetSf = (meshtasticPresetInfo (lastPreset events)).sf
  presetId : st.presetId = kMeshtasticPresetInfo.findIdx fun info => info.preset = lastPreset events

theorem table_nil : Table [] {} := by
  have hdefault : lastPreset [] = .shortTurbo := rfl
  refine ⟨rfl, List.Forall₂.nil, rfl, ?_, ?_, ?_⟩
  · rw [hdefault]
    decide +kernel
  · rw [hdefault]
    decide +kernel
  · rw [hdefault]
    decide +kernel

theorem handleLine_modem (st : AppState) (n : PresetName) :
    st.handleLine (modemLine n).text =
      { st with
        preset := presetDisplayName n.preset
        presetSf := (meshtasticPresetInfo n.preset).sf
        presetId := kMeshtasticPresetInfo.findIdx fun info => info.preset = n.preset } := by
  obtain ⟨htype, hpreset⟩ := parseJsonField_modem n
  have hparse : parseMeshtasticPreset (String.ofList (trim n.name.toList)) = some n.preset := by
    rw [parseMeshtasticPreset_trim, PresetName.preset, Option.some_get]
  have hne : (modemLine n).text ≠ [] := List.cons_ne_nil _ _
  rw [AppState.handleLine, if_neg hne, if_pos htype, hpreset]
  simp only
  rw [if_neg (trim_ne_nil n.token), AppState.setPreset, hparse]

theorem handleLine_report (st : AppState) (nowMs : Int64) (r : Report) (echo : Bool) :
    st.handleLine (reportLine nowMs r echo).text =
      { st with
        packets := (parseRecord (reportLine nowMs r echo).text :: st.packets).take 200
        lastPacket := some (parseRecord (reportLine nowMs r echo).text)
        totalPackets := st.totalPackets + 1 } := by
  have htype : parseJsonField (reportLine nowMs r echo).text "type" = none :=
    parseJsonField_report_none nowMs r echo (by decide +kernel) (by decide +kernel)
  have hne : (reportLine nowMs r echo).text ≠ [] := List.cons_ne_nil _ _
  rw [AppState.handleLine, if_neg hne, htype, if_neg nofun]

/-- One more line. -/
theorem Table.handleLine {events : List Announced} {st : AppState} (h : Table events st)
    (e : Announced) : Table (events ++ [e]) (st.handleLine e.line.text) := by
  cases e with
  | modem name =>
      have hframes : (events ++ [Announced.modem name]).filterMap Announced.frame?
          = events.filterMap Announced.frame? := by
        rw [List.filterMap_append]
        exact List.append_nil _
      have hpreset : lastPreset (events ++ [Announced.modem name]) = name.preset := by
        have happend : (events ++ [Announced.modem name]).filterMap Announced.preset?
            = events.filterMap Announced.preset? ++ [name.preset] := by
          rw [List.filterMap_append]
          rfl
        rw [lastPreset, happend, List.getLast?_concat]
        rfl
      rw [Announced.line, handleLine_modem]
      refine ⟨?_, ?_, h.newest, ?_, ?_, ?_⟩
      · rw [hframes]
        exact h.total
      · rw [hframes]
        exact h.rows
      all_goals rw [hpreset]
  | frame nowMs r echo =>
      have hframes : (events ++ [Announced.frame nowMs r echo]).filterMap Announced.frame?
          = events.filterMap Announced.frame? ++ [(nowMs, r, echo)] := by
        rw [List.filterMap_append]
        rfl
      have hpreset : lastPreset (events ++ [Announced.frame nowMs r echo]) = lastPreset events := by
        have happend : (events ++ [Announced.frame nowMs r echo]).filterMap Announced.preset?
            = events.filterMap Announced.preset? := by
          rw [List.filterMap_append]
          exact List.append_nil _
        rw [lastPreset, happend, lastPreset]
      rw [Announced.line, handleLine_report]
      refine ⟨?_, ?_, ?_, ?_, ?_, ?_⟩
      · rw [hframes, List.length_append, List.length_singleton, h.total]
      · rw [hframes, List.reverse_append, List.reverse_singleton, List.singleton_append,
          List.take_succ_cons, List.take_succ_cons]
        refine List.Forall₂.cons (shows_reportLine nowMs r echo) ?_
        have hrows := List.forall₂_take 199 h.rows
        rwa [List.take_take] at hrows
      · rfl
      · rw [hpreset]
        exact h.preset
      · rw [hpreset]
        exact h.presetSf
      · rw [hpreset]
        exact h.presetId

/-- However many. -/
theorem table_foldl (events : List Announced) :
    Table events ((events.map fun e => e.line.text).foldl AppState.handleLine {}) := by
  induction events using List.reverseRecOn with
  | nil => exact table_nil
  | append_singleton events e ih =>
      rw [List.map_append, List.foldl_append]
      exact ih.handleLine e

/-! ## From the PHY to the table -/

/-- What an action announces. -/
def Action.announce (s : Server) : Action → Announced
  | .accept _ => .modem s.presetName
  | .modem name _ => .modem name
  | .frame nowMs r echo _ => .frame nowMs r echo

/-- What a run announces. -/
def announced (s : Server) : List Action → List Announced
  | [] => []
  | a :: actions => a.announce s :: announced (step s a) actions

theorem announced_concat (s : Server) (actions : List Action) (a : Action) :
    announced s (actions ++ [a]) = announced s actions ++ [a.announce (exec s actions)] := by
  induction actions generalizing s with
  | nil => rfl
  | cons b actions ih =>
      rw [List.cons_append, announced, ih, announced, List.cons_append]
      rfl

/-- The lines a client was written are some that were announced, in order. -/
def Heard (events : List Announced) (c : Client) : Prop :=
  ∃ es : List Announced, es.Sublist events ∧ c.lines = es.map Announced.line

theorem Heard.mono {events : List Announced} {c : Client} (h : Heard events c) (e : Announced) :
    Heard (events ++ [e]) c := by
  obtain ⟨es, hsub, hlines⟩ := h
  exact ⟨es, hsub.trans (List.sublist_append_left _ _), hlines⟩

theorem Heard.write {events : List Announced} {c : Client} (h : Heard events c) (size : ℕ)
    (e : Announced) (r : WriteResult) : Heard (events ++ [e]) (c.write size e.line r) := by
  obtain ⟨es, hsub, hlines⟩ := h
  refine ⟨es ++ [e], hsub.append (List.Sublist.refl _), ?_⟩
  have hoffer : (r.offer size e.line).line = e.line := by cases r <;> rfl
  show (c.offers ++ [r.offer size e.line]).map Offer.line = _
  rw [List.map_append, List.map_append, List.map_singleton, hoffer]
  exact congrArg (· ++ [e.line]) hlines

theorem heard_writeTelemetryLine {events : List Announced} {clients : List Client}
    (h : ∀ c ∈ clients, Heard events c) (size : ℕ) (e : Announced) (kernel : ℕ → WriteResult) :
    ∀ c ∈ writeTelemetryLine clients size e.line kernel, Heard (events ++ [e]) c := by
  intro c' hc'
  obtain ⟨i, c, hi, rfl⟩ := mem_writeTelemetryLine.mp hc'
  have hc := h c (List.mem_of_getElem? hi)
  split_ifs
  · exact hc.mono e
  · exact hc.write size e (kernel i)

/-- The step lemma. -/
theorem heard_step {events : List Announced} {s : Server} (h : ∀ c ∈ s.clients, Heard events c)
    (a : Action) : ∀ c ∈ (step s a).clients, Heard (events ++ [a.announce s]) c := by
  cases a with
  | accept hello =>
      intro c hc
      rcases List.mem_append.mp hc with hc | hc
      · exact (h c hc).mono _
      · obtain rfl := List.mem_singleton.mp hc
        have hnew : Heard events {} := ⟨[], List.nil_sublist _, rfl⟩
        exact hnew.write 80 (.modem s.presetName) hello
  | modem name kernel => exact heard_writeTelemetryLine h 80 (.modem name) kernel
  | frame nowMs r echo kernel => exact heard_writeTelemetryLine h 448 (.frame nowMs r echo) kernel

/-- The run lemma. -/
theorem heard_exec (name : PresetName) (actions : List Action) :
    ∀ c ∈ (exec { presetName := name } actions).clients,
      Heard (announced { presetName := name } actions) c := by
  induction actions using List.reverseRecOn with
  | nil => exact fun c hc => absurd hc List.not_mem_nil
  | append_singleton actions a ih =>
      rw [announced_concat, exec, List.foldl_append]
      exact heard_step ih a

/-- A client that takes its greeting and a frame. -/
def greetedActions : List Action :=
  [.accept (.took 80),
    .frame 1700000000000 { payload := [0xFF, 0xFF, 0xFF, 0xFF, 1, 0, 0, 0, 7, 0, 0, 0]
                           payload_le := by norm_num
                           snr := ⟨-21 / 8, by norm_num [abs_lt]⟩
                           sirDb := ⟨21, by norm_num [abs_lt]⟩
                           lvlDbfs := ⟨-203 / 4, by norm_num [abs_lt]⟩
                           cfoHz := ⟨-1250, by norm_num [abs_lt]⟩
                           ratePpm := ⟨7 / 2, by norm_num [abs_lt]⟩
                           preambleSymbols := 16 } false fun _ => .took 448]

end Telemetry
