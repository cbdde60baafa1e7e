/-
# Two readers of the station's callsign

The node (`QuadRFRadio::loadCallsign`) reads `quadrf.conf` with `std::getline` and string
positions, the monitor (`loadSystemCallsign`) with `fgets` into 256 bytes and pointers.  They
find the same callsign in every file without NUL bytes whose lines have at most 255 bytes
(`callsign_agree`); of a longer line the monitor takes the rest for a line of its own
(`callsign_differs`).
-/
import QuadrfMesh.Lib.Lines

open Streaming

namespace Callsign

/-- `' '` and `'\t'`. -/
def isBlank (c : Char) : Bool := decide (c = ' ' ∨ c = '\t')

/-- What is left out before a value. -/
def isLead (c : Char) : Bool := isBlank c || decide (c = '"' ∨ c = '\'')

/-- What is left out after a value. -/
def isTrail (c : Char) : Bool := isLead c || decide (c = '\r' ∨ c = '\n')

/-- The two keys of a callsign. -/
def hasKey (line : List Char) : Bool :=
  "CALLSIGN=".toList.isPrefixOf line || "QUADRF_CALLSIGN=".toList.isPrefixOf line

/-! ## The node -/

/-- `std::string::find_first_not_of`, for a set of characters. -/
def findFirstNotOf (set : Char → Bool) : List Char → Option ℕ
  | [] => none
  | c :: cs => if set c then (findFirstNotOf set cs).map (· + 1) else some 0

/-- `std::string::find_last_not_of`. -/
def findLastNotOf (set : Char → Bool) : List Char → Option ℕ
  | [] => none
  | c :: cs =>
      match findLastNotOf set cs with
      | some k => some (k + 1)
      | none => if set c then none else some 0

/-- The value that `loadCallsign` cuts out. -/
def nodeValue (val : List Char) : Option (List Char) :=
  match findFirstNotOf isLead val, findLastNotOf isTrail val with
  | some vstart, some vend =>
      if vstart ≤ vend then some ((val.drop vstart).take (vend - vstart + 1)) else none
  | _, _ => none

/-- `loadCallsign`, one line. -/
def nodeLine (call line : List Char) : List Char :=
  match findFirstNotOf isBlank line with
  | none => call
  | some start =>
      let line := line.drop start
      if line.head? = some '#' then call
      else if hasKey line then
        let eq := line.findIdx fun c => c = '='
        (nodeValue (line.drop (eq + 1))).getD call
      else call

/-- The lines `std::getline` finds. -/
def getlines (file : List Char) : List (List Char) :=
  let r := Lines.cut '\n' [] file
  if r.1 = [] then r.2 else r.2 ++ [r.1]

/-! ## The monitor -/

/-- `loadSystemCallsign`, one buffer of `fgets`. -/
def monitorLine (call line : List Char) : List Char :=
  -- a C string
  let p := (line.takeWhile fun c => c ≠ '\x00').dropWhile isBlank
  if p.head? = some '#' ∨ p = [] then call
  else if hasKey p then
    let val := ((p.dropWhile fun c => c ≠ '=').drop 1).dropWhile isLead
    let val := val.rdropWhile isTrail
    if val = [] then call else val
  else call

/-- `fgets` into 256 bytes: a buffer is complete with a newline or 255 bytes. -/
def fgets (buffer : List Char) (c : Char) : List Char × List (List Char) :=
  if c = '\n' ∨ buffer.length + 1 = 255 then ([], [buffer ++ [c]]) else (buffer ++ [c], [])

/-- The buffers `fgets` fills. -/
def buffers (file : List Char) : List (List Char) :=
  let r := scan fgets [] file
  if r.1 = [] then r.2 else r.2 ++ [r.1]

/-! ## Both -/

/-- Without a callsign in the file the environment's, or `NOCALL`; in capitals. -/
def withDefaults (call : List Char) (callsign quadrfCallsign : Option (List Char)) : List Char :=
  let env := if callsign.getD [] = [] then quadrfCallsign else callsign
  let call := if call = [] then env.getD [] else call
  let call := if call = [] then "NOCALL".toList else call
  call.map Char.toUpper

/-- `loadCallsign`; `none` where there is no file. -/
def loadCallsign (file callsign quadrfCallsign : Option (List Char)) : List Char :=
  withDefaults ((getlines (file.getD [])).foldl nodeLine []) callsign quadrfCallsign

/-- `loadSystemCallsign`. -/
def loadSystemCallsign (file callsign quadrfCallsign : Option (List Char)) : List Char :=
  withDefaults ((buffers (file.getD [])).foldl monitorLine []) callsign quadrfCallsign

/-! ## Positions -/

theorem findFirstNotOf_none {set : Char → Bool} {s : List Char} (h : findFirstNotOf set s = none) :
    s.dropWhile set = [] := by
  induction s with
  | nil => rfl
  | cons c cs ih =>
      unfold findFirstNotOf at h
      split at h
      · rename_i hc
        rw [List.dropWhile_cons_of_pos hc]
        exact ih (Option.map_eq_none_iff.mp h)
      · exact absurd h (by simp)

/-- Where the first character outside the set stands. -/
theorem findFirstNotOf_some {set : Char → Bool} {s : List Char} {k : ℕ}
    (h : findFirstNotOf set s = some k) : s.dropWhile set = s.drop k ∧ s.drop k ≠ [] := by
  induction s generalizing k with
  | nil => exact absurd h (by simp [findFirstNotOf])
  | cons c cs ih =>
      unfold findFirstNotOf at h
      split at h
      · rename_i hc
        obtain ⟨j, hj, rfl⟩ := Option.map_eq_some_iff.mp h
        rw [List.dropWhile_cons_of_pos hc, List.drop_succ_cons]
        exact ih hj
      · rename_i hc
        obtain rfl := Option.some.inj h
        rw [List.dropWhile_cons_of_neg hc]
        exact ⟨rfl, List.cons_ne_nil c cs⟩

theorem findLastNotOf_none {set : Char → Bool} {s : List Char} (h : findLastNotOf set s = none) :
    ∀ c ∈ s, set c = true := by
  induction s with
  | nil =>
      intro c hc
      exact absurd hc List.not_mem_nil
  | cons c cs ih =>
      unfold findLastNotOf at h
      split at h
      · exact absurd h (by simp)
      · rename_i hcs
        split at h
        · rename_i hc
          intro d hd
          rcases List.mem_cons.mp hd with rfl | hd
          · exact hc
          · exact ih hcs d hd
        · exact absurd h (by simp)

/-- Where the last character outside the set stands. -/
theorem findLastNotOf_some {set : Char → Bool} {s : List Char} {k : ℕ}
    (h : findLastNotOf set s = some k) :
    ∃ before c after, s = before ++ c :: after ∧ before.length = k ∧ set c = false ∧
      ∀ d ∈ after, set d = true := by
  induction s generalizing k with
  | nil => exact absurd h (by simp [findLastNotOf])
  | cons c cs ih =>
      unfold findLastNotOf at h
      split at h
      · rename_i j hj
        obtain rfl := Option.some.inj h
        obtain ⟨before, d, after, rfl, rfl, hd, hafter⟩ := ih hj
        exact ⟨c :: before, d, after, rfl, rfl, hd, hafter⟩
      · rename_i hcs
        split at h
        · exact absurd h (by simp)
        · rename_i hc
          obtain rfl := Option.some.inj h
          exact ⟨[], c, cs, rfl, rfl, Bool.eq_false_iff.mpr hc, findLastNotOf_none hcs⟩

/-- Trimming what ends with trailing characters. -/
theorem rdropWhile_append_of_forall {set : Char → Bool} (s : List Char) {t : List Char}
    (h : ∀ c ∈ t, set c = true) : (s ++ t).rdropWhile set = s.rdropWhile set := by
  induction t using List.reverseRecOn with
  | nil => rw [List.append_nil]
  | append_singleton t c ih =>
      rw [← List.append_assoc, List.rdropWhile_concat_pos _ _ _ (h c (by simp))]
      exact ih fun d hd => h d (List.mem_append_left _ hd)

/-- **Positions and pointers** cut out the same value. -/
theorem nodeValue_eq (val : List Char) :
    nodeValue val = if (val.dropWhile isLead).rdropWhile isTrail = [] then none
      else some ((val.dropWhile isLead).rdropWhile isTrail) := by
  unfold nodeValue
  rcases hfirst : findFirstNotOf isLead val with _ | vstart
  · rw [findFirstNotOf_none hfirst, if_pos (List.rdropWhile_nil _)]
  · obtain ⟨hdrop, -⟩ := findFirstNotOf_some hfirst
    rw [hdrop]
    rcases hlast : findLastNotOf isTrail val with _ | vend
    · have hall := findLastNotOf_none hlast
      rw [if_pos]
      exact List.rdropWhile_eq_nil_iff.mpr fun c hc => hall c (List.mem_of_mem_drop hc)
    · obtain ⟨before, c, after, rfl, rfl, hc, hafter⟩ := findLastNotOf_some hlast
      simp only
      by_cases hle : vstart ≤ before.length
      · -- the value ends with the last character that is no trailing one
        have hsplit : (before ++ c :: after).drop vstart = before.drop vstart ++ [c] ++ after := by
          rw [List.drop_append_of_le_length hle, List.append_assoc]
          rfl
        have htrim : ((before ++ c :: after).drop vstart).rdropWhile isTrail
            = before.drop vstart ++ [c] := by
          rw [hsplit, rdropWhile_append_of_forall _ hafter, List.rdropWhile_concat_neg]
          rw [hc]
          exact Bool.false_ne_true
        have htake : ((before ++ c :: after).drop vstart).take (before.length - vstart + 1)
            = before.drop vstart ++ [c] := by
          rw [hsplit]
          apply List.take_left'
          rw [List.length_append, List.length_drop, List.length_singleton]
        rw [if_pos hle, htrim, htake, if_neg (by simp)]
      · have hlt : before.length < vstart := Nat.not_le.mp hle
        rw [if_neg hle, if_pos]
        refine List.rdropWhile_eq_nil_iff.mpr fun d hd => ?_
        rw [List.drop_append, List.drop_of_length_le hlt.le, List.nil_append] at hd
        obtain ⟨k, hk⟩ : ∃ k, vstart - before.length = k + 1 := ⟨_, (Nat.succ_pred (by omega)).symm⟩
        rw [hk, List.drop_succ_cons] at hd
        exact hafter d (List.mem_of_mem_drop hd)

/-! ## One line -/

/-- A line as `fgets` reads it: with its newline, or without. -/
def IsEnd (tail : List Char) : Prop := tail = [] ∨ tail = ['\n']

theorem IsEnd.dropWhile {tail : List Char} (h : IsEnd tail) {set : Char → Bool}
    (hset : set '\n' = false) : tail.dropWhile set = tail := by
  rcases h with rfl | rfl
  · rfl
  · exact List.dropWhile_cons_of_neg (by rw [hset]; exact Bool.false_ne_true)

theorem hasKey_append (m : List Char) {tail : List Char} (h : IsEnd tail) :
    hasKey (m ++ tail) = hasKey m := by
  rcases h with rfl | rfl
  · rw [List.append_nil]
  · -- no key has a newline
    have hkey : ∀ key : List Char, '\n' ∉ key →
        key.isPrefixOf (m ++ ['\n']) = key.isPrefixOf m := by
      intro key hkey
      rw [Bool.eq_iff_iff, List.isPrefixOf_iff_prefix, List.isPrefixOf_iff_prefix,
        List.prefix_concat_iff]
      constructor
      · rintro (rfl | hpre)
        · exact absurd (List.mem_append_right m List.mem_cons_self) hkey
        · exact hpre
      · exact Or.inr
    rw [hasKey, hkey _ (by decide), hkey _ (by decide), hasKey]

/-- A key has its equals sign. -/
theorem mem_of_hasKey {m : List Char} (h : hasKey m = true) : '=' ∈ m := by
  rw [hasKey, Bool.or_eq_true, List.isPrefixOf_iff_prefix, List.isPrefixOf_iff_prefix] at h
  rcases h with h | h
  · exact h.subset (by decide)
  · exact h.subset (by decide)

/-- What stands behind the equals sign. -/
theorem drop_key {m : List Char} (h : '=' ∈ m) (tail : List Char) :
    ((m ++ tail).dropWhile fun c => decide (c ≠ '=')).drop 1
      = m.drop (m.findIdx (fun c => decide (c = '=')) + 1) ++ tail := by
  obtain ⟨key, val, rfl, hkey⟩ := List.eq_append_cons_of_mem h
  have hne : ∀ c ∈ key, decide (c ≠ '=') = true := by
    intro c hc
    apply decide_eq_true
    rintro rfl
    exact hkey hc
  have hidx : (key ++ '=' :: val).findIdx (fun c => decide (c = '=')) = key.length := by
    rw [List.findIdx_append, if_neg, List.findIdx_cons]
    · simp
    · rw [List.findIdx_lt_length]
      rintro ⟨c, hc, heq⟩
      exact hkey (of_decide_eq_true heq ▸ hc)
  have hval : (key ++ '=' :: val).drop (key.length + 1) = val := by
    rw [List.drop_append, List.drop_of_length_le (by omega), Nat.add_sub_cancel_left]
    rfl
  rw [hidx, hval, List.append_assoc, List.dropWhile_append_of_pos hne, List.cons_append,
    List.dropWhile_cons_of_neg (by simp)]
  rfl

/-- The value is trimmed with the newline or without. -/
theorem trim_append (v : List Char) {tail : List Char} (h : IsEnd tail) :
    ((v ++ tail).dropWhile isLead).rdropWhile isTrail
      = (v.dropWhile isLead).rdropWhile isTrail := by
  have htail : ∀ c ∈ tail, isTrail c = true := by
    intro c hc
    rcases h with rfl | rfl
    · exact absurd hc List.not_mem_nil
    · rw [List.mem_singleton.mp hc]
      rfl
  rw [List.dropWhile_append]
  split
  · rename_i hempty
    rw [List.isEmpty_iff.mp hempty, h.dropWhile rfl, List.rdropWhile_nil]
    exact List.rdropWhile_eq_nil_iff.mpr htail
  · exact rdropWhile_append_of_forall _ htail

/-- **One line** does the same to both. -/
theorem monitorLine_eq (call : List Char) {l tail : List Char} (hnul : '\x00' ∉ l)
    (h : IsEnd tail) : monitorLine call (l ++ tail) = nodeLine call l := by
  have hstring : ((l ++ tail).takeWhile fun c => decide (c ≠ '\x00')) = l ++ tail := by
    rw [List.takeWhile_eq_self_iff]
    intro c hc
    apply decide_eq_true
    rintro rfl
    rcases List.mem_append.mp hc with hc | hc
    · exact hnul hc
    · rcases h with rfl | rfl
      · exact List.not_mem_nil hc
      · exact absurd (List.mem_singleton.mp hc) (by decide)
  have hskip : (l ++ tail).dropWhile isBlank
      = if (l.dropWhile isBlank).isEmpty then tail.dropWhile isBlank
        else l.dropWhile isBlank ++ tail := List.dropWhile_append
  unfold monitorLine nodeLine
  rw [hstring]
  rcases hfirst : findFirstNotOf isBlank l with _ | start
  · -- a blank line
    rw [findFirstNotOf_none hfirst, List.isEmpty_nil, if_pos rfl, h.dropWhile rfl] at hskip
    rw [hskip]
    rcases h with rfl | rfl <;> rfl
  · obtain ⟨hdrop, hne⟩ := findFirstNotOf_some hfirst
    set m := l.drop start with hm
    have hempty : ¬ m.isEmpty = true := by
      rw [List.isEmpty_iff]
      exact hne
    rw [hdrop, if_neg hempty] at hskip
    rw [hskip]
    simp only
    have hhead : (m ++ tail).head? = m.head? := List.head?_append_of_ne_nil _ hne
    have hnil : m ++ tail ≠ [] := List.append_ne_nil_of_left_ne_nil hne _
    rw [hhead, hasKey_append m h]
    by_cases hcomment : m.head? = some '#'
    · rw [if_pos (Or.inl hcomment), if_pos hcomment]
    · rw [if_neg (not_or.mpr ⟨hcomment, hnil⟩), if_neg hcomment]
      cases hkey : hasKey m with
      | false => rfl
      | true =>
          rw [if_pos rfl, if_pos rfl, drop_key (mem_of_hasKey hkey) tail, trim_append _ h,
            nodeValue_eq]
          split <;> rfl

/-! ## All lines -/

/-- A buffer that is not full. -/
theorem scan_fgets_short (buffer : List Char) {l : List Char} (hnl : '\n' ∉ l)
    (hlen : buffer.length + l.length < 255) : scan fgets buffer l = (buffer ++ l, []) := by
  induction l generalizing buffer with
  | nil => rw [List.append_nil]; rfl
  | cons c l ih =>
      obtain ⟨hc, hl⟩ := not_or.mp (List.mem_cons.not.mp hnl)
      rw [List.length_cons] at hlen
      have hstep : fgets buffer c = (buffer ++ [c], []) :=
        if_neg (not_or.mpr ⟨Ne.symm hc, by omega⟩)
      rw [scan_cons, hstep, ih (buffer ++ [c]) hl (by simp; omega), List.append_assoc]
      rfl

/-- **A line of at most 255 bytes** leaves `fgets` with an empty buffer, or is the buffer. -/
theorem scan_fgets_line {l : List Char} (hnl : '\n' ∉ l) (hlen : l.length ≤ 255) :
    scan fgets [] l = (l, []) ∧ l.length < 255 ∨ scan fgets [] l = ([], [l]) ∧ l.length = 255 := by
  rcases Nat.lt_or_ge l.length 255 with hlt | hge
  · exact Or.inl ⟨scan_fgets_short [] hnl (by simpa using hlt), hlt⟩
  · have hfull : l.length = 255 := le_antisymm hlen hge
    rcases l.eq_nil_or_concat with rfl | ⟨init, c, rfl⟩
    · exact absurd hfull (by decide)
    · rw [List.concat_eq_append] at hnl hfull ⊢
      rw [List.length_append, List.length_singleton] at hfull
      have hinit := scan_fgets_short [] (fun h => hnl (List.mem_append_left _ h))
        (by simp only [List.length_nil]; omega)
      have hstep : fgets init c = ([], [init ++ [c]]) := if_pos (Or.inr hfull)
      right
      refine ⟨?_, by rw [List.length_append, List.length_singleton, hfull]⟩
      rw [splits_scan, hinit]
      simp only [List.nil_append, scan, hstep, List.append_nil]

/-- What the monitor makes of a line with its newline. -/
theorem foldl_line {l : List Char} (hnl : '\n' ∉ l) (hnul : '\x00' ∉ l) (hlen : l.length ≤ 255)
    (call : List Char) :
    (scan fgets [] (l ++ ['\n'])).1 = [] ∧
      (scan fgets [] (l ++ ['\n'])).2.foldl monitorLine call = nodeLine call l := by
  have hend : ∀ buffer, fgets buffer '\n' = ([], [buffer ++ ['\n']]) := fun buffer =>
    if_pos (Or.inl rfl)
  rw [splits_scan]
  rcases scan_fgets_line hnl hlen with ⟨hscan, -⟩ | ⟨hscan, -⟩
  · rw [hscan]
    simp only [scan, hend, List.nil_append, List.append_nil, List.foldl_cons, List.foldl_nil]
    exact ⟨trivial, monitorLine_eq call hnul (Or.inr rfl)⟩
  · -- the newline fills a buffer of its own, which is a blank line
    rw [hscan]
    simp only [scan, hend, List.nil_append, List.append_nil, List.cons_append, List.foldl_cons,
      List.foldl_nil]
    have hline := monitorLine_eq call hnul (Or.inl rfl)
    rw [List.append_nil] at hline
    rw [hline]
    exact ⟨trivial, monitorLine_eq _ List.not_mem_nil (Or.inr rfl)⟩

/-- The lines of a file, and what the monitor makes of them. -/
theorem foldl_lines {ls : List (List Char)} (hls : ∀ l ∈ ls, '\n' ∉ l ∧ '\x00' ∉ l ∧ l.length ≤ 255)
    (call : List Char) :
    (scan fgets [] (ls.flatMap (· ++ ['\n']))).1 = [] ∧
      (scan fgets [] (ls.flatMap (· ++ ['\n']))).2.foldl monitorLine call
        = ls.foldl nodeLine call := by
  induction ls generalizing call with
  | nil => exact ⟨rfl, rfl⟩
  | cons l ls ih =>
      obtain ⟨⟨hnl, hnul, hlen⟩, hrest⟩ := List.forall_mem_cons.mp hls
      obtain ⟨hempty, hfold⟩ := foldl_line hnl hnul hlen call
      rw [List.flatMap_cons, splits_scan, hempty, List.foldl_append, hfold]
      exact ih hrest (nodeLine call l)

/-- **Two readers, one callsign**: in every file without NUL bytes and with lines of at most 255
bytes, in every environment, the node and the monitor find the same callsign. -/
theorem callsign_agree {file : List Char} (hnul : '\x00' ∉ file)
    (hlen : ∀ l ∈ getlines file, l.length ≤ 255) (callsign quadrfCallsign : Option (List Char)) :
    loadSystemCallsign (some file) callsign quadrfCallsign
      = loadCallsign (some file) callsign quadrfCallsign := by
  set ls := (Lines.cut '\n' [] file).2 with hls
  set pending := (Lines.cut '\n' [] file).1 with hpending
  have hfile : ls.flatMap (· ++ ['\n']) ++ pending = file := Lines.flatMap_cut [] file
  have hpendingNl : '\n' ∉ pending := Lines.not_mem_cut file
  have hnul' : '\x00' ∉ ls.flatMap (· ++ ['\n']) ∧ '\x00' ∉ pending := by
    rw [← hfile, List.mem_append] at hnul
    exact not_or.mp hnul
  have hlines : ∀ l ∈ ls, '\n' ∉ l ∧ '\x00' ∉ l ∧ l.length ≤ 255 := by
    intro l hl
    refine ⟨Lines.not_mem_of_mem_cut List.not_mem_nil l hl, fun h => hnul'.1 ?_, hlen l ?_⟩
    · exact List.mem_flatMap.mpr ⟨l, hl, List.mem_append_left _ h⟩
    · unfold getlines
      simp only [← hls, ← hpending]
      split
      · exact hl
      · exact List.mem_append_left _ hl
  obtain ⟨hempty, hfold⟩ := foldl_lines hlines []
  have hscan : scan fgets [] file = ((scan fgets [] pending).1,
      (scan fgets [] (ls.flatMap (· ++ ['\n']))).2 ++ (scan fgets [] pending).2) := by
    conv_lhs => rw [← hfile, splits_scan, hempty]
  have hcall : (buffers file).foldl monitorLine [] = (getlines file).foldl nodeLine [] := by
    unfold buffers getlines
    simp only [← hls, ← hpending, hscan]
    by_cases hnone : pending = []
    · rw [hnone]
      simp only [scan, List.append_nil, if_true]
      exact hfold
    · have hlast : pending.length ≤ 255 := by
        apply hlen
        unfold getlines
        simp only [← hls, ← hpending, if_neg hnone]
        exact List.mem_append_right _ List.mem_cons_self
      have hline := monitorLine_eq (ls.foldl nodeLine []) hnul'.2 (Or.inl rfl)
      rw [List.append_nil] at hline
      rw [if_neg hnone, List.foldl_append, List.foldl_cons, List.foldl_nil, ← hline, ← hfold]
      -- the last line is in the buffer, or has just filled one
      rcases scan_fgets_line hpendingNl hlast with ⟨hpend, -⟩ | ⟨hpend, -⟩
      · rw [hpend]
        simp only [if_neg hnone, List.append_nil, List.foldl_append, List.foldl_cons,
          List.foldl_nil]
      · rw [hpend]
        simp only [if_true, List.foldl_append, List.foldl_cons, List.foldl_nil]
  rw [loadSystemCallsign, loadCallsign, Option.getD_some, hcall]

/-- A comment, a quoted callsign in small letters, and an empty value after it. -/
def quotedFile : List Char :=
  "# station\r\n \tQUADRF_CALLSIGN= \"k1abc \"\r\nCALLSIGN=''\n".toList

theorem callsign_agree_quoted :
    loadSystemCallsign (some quotedFile) none none = "K1ABC".toList := by
  have hread : loadCallsign (some quotedFile) none none = "K1ABC".toList := by decide +kernel
  have hnul : '\x00' ∉ quotedFile := by decide +kernel
  have hlen : ∀ l ∈ getlines quotedFile, l.length ≤ 255 := by decide +kernel
  exact (callsign_agree hnul hlen none none).trans hread

/-- A comment whose 256th byte begins what looks like a line. -/
def longFile : List Char := '#' :: List.replicate 254 ' ' ++ "CALLSIGN=W1AW\n".toList

/-- **Longer lines** are read differently. -/
theorem callsign_differs :
    loadSystemCallsign (some longFile) none none = "W1AW".toList ∧
      loadCallsign (some longFile) none none = "NOCALL".toList := by
  decide +kernel

end Callsign
