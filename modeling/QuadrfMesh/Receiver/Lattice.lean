/-
# One chip lattice for a symbol

A symbol leaves a hard value, a soft row and, where its second peak rivaled the first, a
runner-up, all read against one reference.  Two places move what is stored:
`checkHeader` by a shift of the whole frame, and `finalizeData` by a slip path.  Both move
values and rows alike and forget the runner-ups, so they stay together exactly as long as
no symbol with a runner-up is moved (`lattice_kept_iff`).
-/
import QuadrfMesh.Receiver.FrameCheck

open Transition

/-- `v'` is `v` moved by `sh` chips, on a circle of `nChips`. -/
def MovedBy (nChips : ℕ) (sh : ℤ) (v v' : UInt16) : Prop :=
  (v'.toNat : ℤ) ≡ v.toNat + sh [ZMOD nChips]

/-! ## Values and rows -/

section Chips

variable {nChips : ℕ}

theorem toNat_ofNat_emod (hpos : 0 < nChips) (hfit : nChips ≤ 2 ^ 16) (x : ℤ) :
    ((UInt16.ofNat (x % nChips).toNat).toNat : ℤ) = x % nChips := by
  have hnonneg : 0 ≤ x % nChips := Int.emod_nonneg _ (by omega)
  have hlt : x % nChips < nChips := Int.emod_lt_of_pos _ (by omega)
  rw [UInt16.toNat_ofNat', Nat.mod_eq_of_lt (by omega)]
  omega

theorem movedBy_emod (hpos : 0 < nChips) (hfit : nChips ≤ 2 ^ 16) (v : UInt16) (sh : ℤ) :
    MovedBy nChips sh v (UInt16.ofNat ((v.toNat + sh) % nChips).toNat) := by
  rw [MovedBy, toNat_ofNat_emod hpos hfit]
  exact Int.mod_modEq _ _

theorem movedBy_shiftValue (hpos : 0 < nChips) (hfit : nChips ≤ 2 ^ 16)
    (hdvd : (nChips : ℤ) ∣ 2 ^ 32) (sh : ℤ) (v : UInt16) :
    MovedBy nChips sh v (shiftValue sh nChips v) := by
  rw [MovedBy, shiftValue, toNat_ofNat_emod hpos hfit, Int.emod_emod_of_dvd _ hdvd]
  -- one turn of the circle is added against wrapping below zero
  calc ((v.toNat : ℤ) + sh + nChips) % nChips ≡ v.toNat + sh + nChips [ZMOD nChips] :=
        Int.mod_modEq _ _
    _ ≡ v.toNat + sh [ZMOD nChips] := Int.add_modEq_right

theorem movedBy_self_iff (sh : ℤ) (v : UInt16) : MovedBy nChips sh v v ↔ (nChips : ℤ) ∣ sh := by
  rw [MovedBy, Int.modEq_iff_dvd, add_sub_cancel_left]

theorem movedBy_zero (v : UInt16) : MovedBy nChips 0 v v :=
  (movedBy_self_iff 0 v).mpr (dvd_zero _)

theorem MovedBy.trans {a b : ℤ} {u v w : UInt16} (huv : MovedBy nChips a u v)
    (hvw : MovedBy nChips b v w) : MovedBy nChips (a + b) u w := by
  have h : (v.toNat : ℤ) + b ≡ u.toNat + a + b [ZMOD nChips] := Int.ModEq.add_right b huv
  rw [MovedBy, ← add_assoc]
  exact Int.ModEq.trans hvw h

theorem rotateSoftRow_zero (row : List ℚ) : rotateSoftRow nChips 0 row = row := by
  rw [rotateSoftRow, Int.zero_emod, Int.toNat_zero, Nat.sub_zero, Nat.mod_self, List.rotate_zero]

end Chips

namespace Receiver

variable {α τ : Type} (R : Receiver α τ)

/-! ## Where symbols are moved -/

/-- The shift `checkHeader` accepts. -/
def acceptedShift (c : Core τ) : Option ℤ :=
  if c.haveLen || decide (c.rawValues.length < 8) then none
  else if (R.decodeHard c.rawValues).header.valid then none
  else if R.params.softDecoding && (R.decodeSoft (c.softRows 8) 0).header.valid then none
  else R.headerShifts.find? fun sh =>
    (R.decodeHard (shiftValues c.rawValues sh R.nChips)).header.valid

/-- The symbols a slip path covers. -/
def slipRows (c : Core τ) : ℕ := min c.rawValues.length (min c.slipSyms c.softMags.length)

/-- The slip path `finalizeData` applies. -/
def slipPath (c : Core τ) : Option (List ℤ) :=
  if wander R.params && decide (c.slipSyms ≠ 0) && (R.decodeHard c.rawValues).crcFailed then
    let paths := R.tracker.slipSearch c.tracker
    (paths.find? fun offs =>
      (R.decodeHard (R.applySlips (slipRows c) c.rawValues offs)).good).or paths.head?
  else none

/-- Everything stored of the symbols of `c` is in `c'`, that of symbol `i` moved by `δ i`
chips. -/
structure Moved (δ : ℕ → ℤ) (c c' : Core τ) : Prop where
  len : c'.rawValues.length = c.rawValues.length
  raw : ∀ i v, c.rawValues[i]? = some v →
    ∃ v', c'.rawValues[i]? = some v' ∧ MovedBy R.nChips (δ i) v v'
  soft : ∀ i row, i < c.rawValues.length → c.softMags[i]? = some row →
    c'.softMags[i]? = some (rotateSoftRow R.nChips (δ i) row)
  alts : List.Forall₂ (fun a a' => a'.idx = a.idx ∧ MovedBy R.nChips (δ a.idx) a.value a'.value)
    c.altSyms c'.altSyms

/-- Whatever the step from `s` to `t` moves of a symbol, it moves all of it. -/
structure MovesTogether (s t : Session α τ) : Prop where
  header : ∀ r sh, R.symbolRead s = some r → R.acceptedShift (s.core.absorb r) = some sh →
    R.Moved (fun _ => sh) (s.core.absorb r) t.core
  slips : ∀ c offs, R.closing s = some c → R.slipPath c = some offs →
    R.Moved (fun i => if i < slipRows c then -offs.getD i 0 else 0) c (R.slipCorrect c)

/-- The next step moves no symbol with a runner-up, unless by whole turns. -/
structure LeavesAlts (s : Session α τ) : Prop where
  header : ∀ r sh, R.symbolRead s = some r → R.acceptedShift (s.core.absorb r) = some sh →
    (s.core.absorb r).altSyms = [] ∨ (R.nChips : ℤ) ∣ sh
  slips : ∀ c offs, R.closing s = some c → R.slipPath c = some offs →
    ∀ a ∈ c.altSyms, a.idx < slipRows c → (R.nChips : ℤ) ∣ offs.getD a.idx 0

/-! ## The readings of a frame -/

/-- The symbols read of the frame that is received after `n` steps. -/
def frameReadings (chunks : List (List α)) : ℕ → List (SymbolReading τ)
  | 0 => []
  | n + 1 =>
      if (R.runFor (R.start chunks) n).core.state = .data ∧
          (R.runFor (R.start chunks) (n + 1)).core.state = .data then
        frameReadings chunks n ++ (R.symbolRead (R.runFor (R.start chunks) n)).toList
      else []

/-- What is stored of each symbol is what was read of it, moved by `δ` chips: the hard
value, or the runner-up in its place, the soft row, and the runner-up. -/
structure ReadAt (rs : List (SymbolReading τ)) (δ : ℕ → ℤ) (c : Core τ) : Prop where
  len : c.rawValues.length = rs.length
  rows : c.softMags.length = rs.length
  raw : ∀ i r, rs[i]? = some r → ∃ v, c.rawValues[i]? = some v ∧
    (MovedBy R.nChips (δ i) r.value v ∨
      ∃ w ratio, r.alt = some (w, ratio) ∧ MovedBy R.nChips (δ i) w v)
  soft : ∀ i r, rs[i]? = some r →
    c.softMags[i]? = some (rotateSoftRow R.nChips (δ i) r.softRow)
  alts : ∀ a ∈ c.altSyms, ∃ r w ratio, rs[a.idx]? = some r ∧ r.alt = some (w, ratio) ∧
    MovedBy R.nChips (δ a.idx) w a.value

/-- What is stored of a symbol refers to one reference. -/
def OneReference (rs : List (SymbolReading τ)) (c : Core τ) : Prop := ∃ δ, R.ReadAt rs δ c

variable {R}

/-! ## The two moves -/

theorem nChips_eq : R.nChips = 2 ^ R.params.spreadingFactor := chipCount_eq R.params

theorem nChips_pos : 0 < R.nChips := chipCount_pos R.params

theorem nChips_le (hsf : R.params.spreadingFactor ≤ 16) : R.nChips ≤ 2 ^ 16 := by
  rw [nChips_eq]
  exact Nat.pow_le_pow_right (by omega) hsf

theorem nChips_dvd (hsf : R.params.spreadingFactor ≤ 16) : (R.nChips : ℤ) ∣ 2 ^ 32 := by
  have h : R.nChips ∣ 2 ^ 32 := by
    rw [nChips_eq]
    exact Nat.pow_dvd_pow 2 (by omega)
  exact_mod_cast h

/-- Where values and rows are moved and the runner-ups stay as they are, all is moved
together exactly when those are moved by whole turns. -/
theorem moved_iff_of_alts {δ : ℕ → ℤ} {c c' : Core τ}
    (hlen : c'.rawValues.length = c.rawValues.length)
    (hraw : ∀ i v, c.rawValues[i]? = some v →
      ∃ v', c'.rawValues[i]? = some v' ∧ MovedBy R.nChips (δ i) v v')
    (hsoft : ∀ i row, i < c.rawValues.length → c.softMags[i]? = some row →
      c'.softMags[i]? = some (rotateSoftRow R.nChips (δ i) row))
    (halts : c'.altSyms = c.altSyms) :
    R.Moved δ c c' ↔ ∀ a ∈ c.altSyms, (R.nChips : ℤ) ∣ δ a.idx := by
  constructor
  · intro hm a ha
    have hall := hm.alts
    rw [halts, List.forall₂_same] at hall
    exact (movedBy_self_iff _ _).mp (hall a ha).2
  · intro hturns
    refine ⟨hlen, hraw, hsoft, ?_⟩
    rw [halts, List.forall₂_same]
    intro a ha
    exact ⟨rfl, (movedBy_self_iff _ _).mpr (hturns a ha)⟩

theorem moved_shiftLattice_iff (hsf : R.params.spreadingFactor ≤ 16) (c : Core τ) (sh : ℤ)
    (h : HeaderInfo) :
    R.Moved (fun _ => sh) c (R.acceptHeader (R.shiftLattice c sh) h) ↔
      c.altSyms = [] ∨ (R.nChips : ℤ) ∣ sh := by
  rw [moved_iff_of_alts]
  · constructor
    · intro hturns
      rcases List.eq_nil_or_concat c.altSyms with hnil | ⟨as, a, hcons⟩
      · exact Or.inl hnil
      · exact Or.inr (hturns a (by simp [hcons]))
    · rintro (hnil | hturn) a ha
      · rw [hnil] at ha
        exact absurd ha List.not_mem_nil
      · exact hturn
  · exact List.length_map _
  · intro i v hv
    refine ⟨shiftValue sh R.nChips v, ?_, movedBy_shiftValue nChips_pos (nChips_le hsf)
      (nChips_dvd hsf) sh v⟩
    show (c.rawValues.map _)[i]? = _
    rw [List.getElem?_map, hv]
    rfl
  · intro i row hi hrow
    have hlt : i < c.softMags.length := (List.getElem?_eq_some_iff.mp hrow).1
    show (((c.softMags.take c.rawValues.length).map (rotateSoftRow R.nChips sh))
      ++ c.softMags.drop c.rawValues.length)[i]? = _
    rw [List.getElem?_append_left (by rw [List.length_map, List.length_take]; omega),
      List.getElem?_map, List.getElem?_take_of_lt hi, hrow]
    rfl
  · rfl

theorem slipCorrect_of_slipPath {c : Core τ} {offs : List ℤ} (h : R.slipPath c = some offs) :
    R.slipCorrect c
      = { c with
          cur := { c.cur with rawValues := R.applySlips (slipRows c) c.rawValues offs }
          softMags := c.softMags.mapIdx fun s row =>
            if s < slipRows c then rotateSoftRow R.nChips (-offs.getD s 0) row else row } := by
  unfold slipPath at h
  unfold slipCorrect
  split at h
  · rename_i hcond
    rw [if_pos hcond]
    simp only at h ⊢
    split
    · rename_i offs' hpick
      obtain rfl : offs' = offs := Option.some.inj (hpick.symm.trans h)
      rfl
    · rename_i hpick
      exact absurd (hpick.symm.trans h) (by simp)
  · exact absurd h (by simp)

theorem moved_slipCorrect_iff (hsf : R.params.spreadingFactor ≤ 16) {c : Core τ} {offs : List ℤ}
    (h : R.slipPath c = some offs) :
    R.Moved (fun i => if i < slipRows c then -offs.getD i 0 else 0) c (R.slipCorrect c) ↔
      ∀ a ∈ c.altSyms, a.idx < slipRows c → (R.nChips : ℤ) ∣ offs.getD a.idx 0 := by
  rw [slipCorrect_of_slipPath h, moved_iff_of_alts]
  · constructor
    · intro hturns a ha hlt
      have hturn := hturns a ha
      rwa [if_pos hlt, dvd_neg] at hturn
    · intro hturns a ha
      split
      · rename_i hlt
        rw [dvd_neg]
        exact hturns a ha hlt
      · exact dvd_zero _
  · exact List.length_mapIdx
  · intro i v hv
    show ∃ v', (c.rawValues.mapIdx _)[i]? = some v' ∧ _
    rw [List.getElem?_mapIdx, hv]
    refine ⟨_, rfl, ?_⟩
    split
    · exact movedBy_emod nChips_pos (nChips_le hsf) v _
    · exact movedBy_zero v
  · intro i row _ hrow
    show (c.softMags.mapIdx _)[i]? = _
    rw [List.getElem?_mapIdx, hrow]
    show some _ = some _
    congr 1
    split
    · rfl
    · rw [rotateSoftRow_zero]
  · rfl

/-! ## The header check -/

theorem checkHeader_of_acceptedShift {c : Core τ} {sh : ℤ} (h : R.acceptedShift c = some sh) :
    ∃ hdr, R.checkHeader c = some (R.acceptHeader (R.shiftLattice c sh) hdr) := by
  unfold acceptedShift at h
  unfold checkHeader
  split at h
  · exact absurd h (by simp)
  · rename_i hopen
    rw [if_neg hopen]
    split at h
    · exact absurd h (by simp)
    · rename_i hhard
      rw [if_neg hhard]
      split at h
      · exact absurd h (by simp)
      · rename_i hsoft
        rw [if_neg hsoft, h]
        exact ⟨_, rfl⟩

/-- Without a shift `checkHeader` moves nothing: at most a runner-up takes the place of
its value. -/
theorem checkHeader_cases {c c' : Core τ} (h : R.acceptedShift c = none)
    (hc : R.checkHeader c = some c') :
    c' = c ∨ (∃ hdr, c' = R.acceptHeader c hdr) ∨
      ∃ a ∈ c.altSyms, ∃ hdr, c' = R.acceptHeader
        { c with cur := { c.cur with rawValues := c.rawValues.set a.idx a.value } } hdr := by
  unfold acceptedShift at h
  unfold checkHeader at hc
  split at hc
  · exact Or.inl (Option.some.inj hc).symm
  · rename_i hopen
    rw [if_neg hopen] at h
    split at hc
    · exact Or.inr (Or.inl ⟨_, (Option.some.inj hc).symm⟩)
    · rename_i hhard
      rw [if_neg hhard] at h
      split at hc
      · exact Or.inr (Or.inl ⟨_, (Option.some.inj hc).symm⟩)
      · rename_i hsoft
        rw [if_neg hsoft] at h
        rw [h] at hc
        simp only at hc
        split at hc
        · rename_i a hfind
          exact Or.inr (Or.inr ⟨a, List.mem_of_find?_eq_some hfind, _, (Option.some.inj hc).symm⟩)
        · exact absurd hc (by simp)

section Step

variable {s t : Session α τ}

/-- A step whose header check accepts a shift. -/
theorem core_of_acceptedShift (hst : R.advance s = some t) {r : SymbolReading τ} {sh : ℤ}
    (hr : R.symbolRead s = some r) (hsh : R.acceptedShift (s.core.absorb r) = some sh) :
    ∃ hdr, t.core = R.acceptHeader (R.shiftLattice (s.core.absorb r) sh) hdr := by
  obtain ⟨hdr, hcheck⟩ := checkHeader_of_acceptedShift hsh
  by_cases hdata : s.core.state = .data
  · rcases advance_data hdata hst with ⟨-, hnone, -⟩ | ⟨r', hr', -, hpass⟩ |
      ⟨c, scanAbs, -, ⟨hnone, -⟩ | ⟨r', hr', hbad, -⟩, -⟩
    · exact absurd (hr.symm.trans hnone) (by simp)
    · obtain rfl : r = r' := Option.some.inj (hr.symm.trans hr')
      exact ⟨hdr, Option.some.inj (hpass.symm.trans hcheck)⟩
    · exact absurd (hr.symm.trans hnone) (by simp)
    · obtain rfl : r = r' := Option.some.inj (hr.symm.trans hr')
      exact absurd (hbad.symm.trans hcheck) (by simp)
  · exact absurd (hr.symm.trans (advance_idle hdata hst).1) (by simp)

theorem leavesAlts_of_ended (h : R.advance s = none) : R.LeavesAlts s := by
  obtain ⟨hread, hclose⟩ := ended h
  constructor
  · intro r sh hr
    exact absurd (hr.symm.trans hread) (by simp)
  · intro c offs hc
    exact absurd (hc.symm.trans hclose) (by simp)

/-- **One step** moves all there is of a symbol exactly when it moves none with a
runner-up. -/
theorem movesTogether_iff (hsf : R.params.spreadingFactor ≤ 16) (hst : R.advance s = some t) :
    R.MovesTogether s t ↔ R.LeavesAlts s := by
  constructor
  · intro h
    constructor
    · intro r sh hr hsh
      obtain ⟨hdr, hcore⟩ := core_of_acceptedShift hst hr hsh
      have hmoved := h.header r sh hr hsh
      rw [hcore] at hmoved
      exact (moved_shiftLattice_iff hsf _ sh hdr).mp hmoved
    · intro c offs hclose hpath
      exact (moved_slipCorrect_iff hsf hpath).mp (h.slips c offs hclose hpath)
  · intro h
    constructor
    · intro r sh hr hsh
      obtain ⟨hdr, hcore⟩ := core_of_acceptedShift hst hr hsh
      rw [hcore]
      exact (moved_shiftLattice_iff hsf _ sh hdr).mpr (h.header r sh hr hsh)
    · intro c offs hclose hpath
      exact (moved_slipCorrect_iff hsf hpath).mpr (h.slips c offs hclose hpath)

end Step

/-! ## The frame as it was read -/

section ReadAt

variable {rs : List (SymbolReading τ)} {δ : ℕ → ℤ} {c c' : Core τ}

theorem EmptyData.readAt (h : EmptyData c) (δ : ℕ → ℤ) : R.ReadAt [] δ c := by
  refine ⟨?_, ?_, ?_, ?_, ?_⟩
  · rw [h.raw]
    rfl
  · rw [h.soft]
    rfl
  · intro i r hr
    exact absurd hr (by simp)
  · intro i r hr
    exact absurd hr (by simp)
  · intro a ha
    rw [h.alts] at ha
    exact absurd ha List.not_mem_nil

/-- It is the values, rows and runner-ups that count. -/
theorem ReadAt.congr (h : R.ReadAt rs δ c) (hraw : c'.rawValues = c.rawValues)
    (hsoft : c'.softMags = c.softMags) (halts : c'.altSyms = c.altSyms) : R.ReadAt rs δ c' := by
  refine ⟨?_, ?_, ?_, ?_, ?_⟩
  · rw [hraw]
    exact h.len
  · rw [hsoft]
    exact h.rows
  · rw [hraw]
    exact h.raw
  · rw [hsoft]
    exact h.soft
  · rw [halts]
    exact h.alts

theorem getElem?_concat_cases {β : Type} {xs : List β} {x y : β} {i : ℕ}
    (h : (xs ++ [x])[i]? = some y) :
    (i < xs.length ∧ xs[i]? = some y) ∨ (i = xs.length ∧ y = x) := by
  rcases Nat.lt_or_ge i xs.length with hlt | hge
  · rw [List.getElem?_append_left hlt] at h
    exact Or.inl ⟨hlt, h⟩
  · have hlt := (List.getElem?_eq_some_iff.mp h).1
    rw [List.length_append, List.length_singleton] at hlt
    obtain rfl : i = xs.length := by omega
    rw [List.getElem?_concat_length] at h
    exact Or.inr ⟨rfl, (Option.some.inj h).symm⟩

/-- One more symbol, read where the tracking is now. -/
theorem ReadAt.absorb (h : R.ReadAt rs δ c) (r : SymbolReading τ) :
    R.ReadAt (rs ++ [r]) (fun i => if i < rs.length then δ i else 0) (c.absorb r) := by
  have hnew : (c.rawValues ++ [r.value])[rs.length]? = some r.value := by
    rw [← h.len, List.getElem?_concat_length]
  have hnewRow : (c.softMags ++ [r.softRow])[rs.length]? = some r.softRow := by
    rw [← h.rows, List.getElem?_concat_length]
  refine ⟨?_, ?_, ?_, ?_, ?_⟩
  · rw [Core.rawValues_absorb, List.length_append, List.length_append, h.len]
    rfl
  · show (c.softMags ++ [r.softRow]).length = _
    rw [List.length_append, List.length_append, h.rows]
    rfl
  · intro i r' hr'
    rw [Core.rawValues_absorb]
    rcases getElem?_concat_cases hr' with ⟨hlt, hr''⟩ | ⟨rfl, rfl⟩
    · obtain ⟨v, hv, hmoved⟩ := h.raw i r' hr''
      refine ⟨v, ?_, ?_⟩
      · rw [List.getElem?_append_left (by rw [h.len]; exact hlt), hv]
      · simpa only [hlt, if_true] using hmoved
    · refine ⟨r'.value, hnew, Or.inl ?_⟩
      rw [if_neg (Nat.lt_irrefl _)]
      exact movedBy_zero _
  · intro i r' hr'
    show (c.softMags ++ [r.softRow])[i]? = _
    rcases getElem?_concat_cases hr' with ⟨hlt, hr''⟩ | ⟨rfl, rfl⟩
    · rw [List.getElem?_append_left (by rw [h.rows]; exact hlt), h.soft i r' hr'', if_pos hlt]
    · rw [hnewRow, if_neg (Nat.lt_irrefl _), rotateSoftRow_zero]
  · intro a ha
    rcases List.mem_append.mp ha with ha | ha
    · obtain ⟨r', w, ratio, hr', halt, hmoved⟩ := h.alts a ha
      have hlt := (List.getElem?_eq_some_iff.mp hr').1
      refine ⟨r', w, ratio, ?_, halt, ?_⟩
      · rw [List.getElem?_append_left hlt, hr']
      · rw [if_pos hlt]
        exact hmoved
    · rcases halt : r.alt with _ | ⟨w, ratio⟩
      · simp [halt] at ha
      · simp only [halt] at ha
        split at ha
        · obtain rfl := List.mem_singleton.mp ha
          refine ⟨r, w, ratio, ?_, halt, ?_⟩
          · show (rs ++ [r])[c.rawValues.length]? = _
            rw [h.len, List.getElem?_concat_length]
          · rw [if_neg (by simp [h.len])]
            exact movedBy_zero _
        · exact absurd ha List.not_mem_nil

/-- A runner-up in the place of its value refers to what the value did. -/
theorem ReadAt.swap (h : R.ReadAt rs δ c) {a : AltSym} (ha : a ∈ c.altSyms) :
    R.ReadAt rs δ { c with cur := { c.cur with rawValues := c.rawValues.set a.idx a.value } } := by
  refine ⟨?_, h.rows, ?_, h.soft, h.alts⟩
  · show (c.rawValues.set a.idx a.value).length = _
    rw [List.length_set]
    exact h.len
  · intro i r hr
    show ∃ v, (c.rawValues.set a.idx a.value)[i]? = some v ∧ _
    obtain ⟨v, hv, hmoved⟩ := h.raw i r hr
    by_cases hi : a.idx = i
    · subst hi
      obtain ⟨r', w, ratio, hr', halt, hmoved'⟩ := h.alts a ha
      obtain rfl : r = r' := Option.some.inj (hr.symm.trans hr')
      refine ⟨a.value, ?_, Or.inr ⟨w, ratio, halt, hmoved'⟩⟩
      rw [List.getElem?_set_self (List.getElem?_eq_some_iff.mp hv).1]
    · refine ⟨v, ?_, hmoved⟩
      rw [List.getElem?_set_ne hi, hv]

/-- A frame moved from where it was read. -/
theorem ReadAt.moved (h : R.ReadAt rs (fun _ => 0) c) (hm : R.Moved δ c c')
    (hrows : c'.softMags.length = c.softMags.length) : R.ReadAt rs δ c' := by
  refine ⟨?_, ?_, ?_, ?_, ?_⟩
  · rw [hm.len]
    exact h.len
  · rw [hrows]
    exact h.rows
  · intro i r hr
    obtain ⟨v, hv, hread⟩ := h.raw i r hr
    obtain ⟨v', hv', hmoved⟩ := hm.raw i v hv
    refine ⟨v', hv', ?_⟩
    rcases hread with hread | ⟨w, ratio, halt, hread⟩
    · left
      rw [← zero_add (δ i)]
      exact hread.trans hmoved
    · refine Or.inr ⟨w, ratio, halt, ?_⟩
      rw [← zero_add (δ i)]
      exact hread.trans hmoved
  · intro i r hr
    have hlt := (List.getElem?_eq_some_iff.mp hr).1
    have hrow := h.soft i r hr
    rw [rotateSoftRow_zero] at hrow
    exact hm.soft i r.softRow (by rw [h.len]; exact hlt) hrow
  · intro a' ha'
    obtain ⟨a, ha, hidx, hmoved⟩ : ∃ a ∈ c.altSyms, a'.idx = a.idx ∧
        MovedBy R.nChips (δ a.idx) a.value a'.value := by
      obtain ⟨i, hi, rfl⟩ := List.getElem_of_mem ha'
      have hlen := hm.alts.length_eq
      exact ⟨c.altSyms[i], List.getElem_mem _, (List.forall₂_iff_get.mp hm.alts).2 i (by omega) hi⟩
    obtain ⟨r, w, ratio, hr, halt, hread⟩ := h.alts a ha
    refine ⟨r, w, ratio, ?_, halt, ?_⟩
    · rw [hidx]
      exact hr
    · rw [hidx, ← zero_add (δ a.idx)]
      exact hread.trans hmoved

end ReadAt

/-! ## Whole runs -/

/-- The frame as a run has it: nothing is moved before the header is in. -/
def Stored (R : Receiver α τ) (rs : List (SymbolReading τ)) (c : Core τ) : Prop :=
  ∃ δ, R.ReadAt rs δ c ∧ (c.haveLen = false → δ = fun _ => 0)

theorem haveLen_of_acceptedShift {c : Core τ} {sh : ℤ} (h : R.acceptedShift c = some sh) :
    c.haveLen = false := by
  unfold acceptedShift at h
  by_contra hlen
  rw [Bool.eq_true_of_not_eq_false hlen, Bool.true_or, if_pos rfl] at h
  exact absurd h (by simp)

/-- **Step lemma.**  One more symbol, if the header check moves no runner-up. -/
theorem Stored.collect (hsf : R.params.spreadingFactor ≤ 16) {rs : List (SymbolReading τ)}
    {c c' : Core τ} {r : SymbolReading τ} (h : Stored R rs c) (hpass : R.collect c r = some c')
    (hok : ∀ sh, R.acceptedShift (c.absorb r) = some sh →
      (c.absorb r).altSyms = [] ∨ (R.nChips : ℤ) ∣ sh) : Stored R (rs ++ [r]) c' := by
  obtain ⟨δ, hread, hzero⟩ := h
  have hnext := hread.absorb r
  have hzero' : c.haveLen = false → (fun i => if i < rs.length then δ i else 0) = fun _ => 0 := by
    intro hopen
    funext i
    rw [hzero hopen]
    exact ite_self 0
  rcases hsh : R.acceptedShift (c.absorb r) with _ | sh
  · rcases checkHeader_cases hsh hpass with rfl | ⟨hdr, rfl⟩ | ⟨a, ha, hdr, rfl⟩
    · exact ⟨_, hnext, hzero'⟩
    · exact ⟨_, hnext.congr rfl rfl rfl, fun hopen => absurd hopen (by simp [acceptHeader])⟩
    · exact ⟨_, (hnext.swap ha).congr rfl rfl rfl,
        fun hopen => absurd hopen (by simp [acceptHeader])⟩
  · obtain ⟨hdr, hcheck⟩ := checkHeader_of_acceptedShift hsh
    obtain rfl := Option.some.inj (hcheck.symm.trans hpass)
    have hopen : c.haveLen = false := haveLen_of_acceptedShift (c := c.absorb r) hsh
    rw [hzero' hopen] at hnext
    have hmoved := (moved_shiftLattice_iff hsf (c.absorb r) sh hdr).mpr (hok sh hsh)
    refine ⟨_, hnext.moved hmoved ?_, fun hopen => absurd hopen (by simp [acceptHeader])⟩
    show (((c.absorb r).softMags.take (c.absorb r).rawValues.length).map
      (rotateSoftRow R.nChips sh) ++ (c.absorb r).softMags.drop (c.absorb r).rawValues.length).length
        = _
    rw [List.length_append, List.length_map, ← List.length_append, List.take_append_drop]

/-- **Run lemma.**  As long as no symbol with a runner-up is moved, what is stored of the
frame is what was read. -/
theorem stored_runFor (hsf : R.params.spreadingFactor ≤ 16) (chunks : List (List α)) (n : ℕ)
    (hok : ∀ k < n, R.LeavesAlts (R.runFor (R.start chunks) k))
    (hdata : (R.runFor (R.start chunks) n).core.state = .data) :
    Stored R (R.frameReadings chunks n) (R.runFor (R.start chunks) n).core := by
  induction n with
  | zero => exact absurd hdata (by simp [runFor, start])
  | succ n ih =>
      have hprev := ih fun k hk => hok k (by omega)
      have hlast := hok n (by omega)
      rw [frameReadings, hdata]
      rcases hadv : R.advance (R.runFor (R.start chunks) n) with _ | t
      -- at the end of the session
      · have hsame : R.runFor (R.start chunks) (n + 1) = R.runFor (R.start chunks) n := by
          rw [runFor, hadv]
          rfl
        rw [hsame] at hdata ⊢
        rw [(ended hadv).1, if_pos ⟨hdata, rfl⟩, Option.toList_none, List.append_nil]
        exact hprev hdata
      · have hnext : R.runFor (R.start chunks) (n + 1) = t := by
          rw [runFor, hadv]
          rfl
        rw [hnext] at hdata ⊢
        by_cases hs : (R.runFor (R.start chunks) n).core.state = .data
        · rw [if_pos ⟨hs, rfl⟩]
          rcases advance_data hs hadv with ⟨hsame, hnone, -⟩ | ⟨r, hr, -, hpass⟩ |
            ⟨c, scanAbs, -, -, hclosed⟩
          · rw [hsame, hnone, Option.toList_none, List.append_nil]
            exact hprev hs
          · rw [hr]
            exact (hprev hs).collect hsf hpass fun sh hsh => hlast.header r sh hr hsh
          · rw [hclosed] at hdata
            exact absurd hdata (by simp [Core.restart])
        -- the data has just been found
        · rw [if_neg fun h => hs h.1]
          have hempty := (advance_idle hs hadv).2.2.data hdata
          exact ⟨_, hempty.readAt fun _ => 0, fun _ => rfl⟩

/-- **One lattice in a run.**  Every step moves all there is of a symbol, and what is
stored of each symbol of a frame refers to one reference, exactly when no step moves a
symbol that has a runner-up. -/
theorem lattice_kept_iff (hsf : R.params.spreadingFactor ≤ 16) (chunks : List (List α)) (n : ℕ) :
    ((∀ k < n, ∀ t, R.advance (R.runFor (R.start chunks) k) = some t →
        R.MovesTogether (R.runFor (R.start chunks) k) t) ∧
      ∀ k ≤ n, (R.runFor (R.start chunks) k).core.state = .data →
        R.OneReference (R.frameReadings chunks k) (R.runFor (R.start chunks) k).core) ↔
      ∀ k < n, R.LeavesAlts (R.runFor (R.start chunks) k) := by
  constructor
  · rintro ⟨hmoves, -⟩ k hk
    rcases hadv : R.advance (R.runFor (R.start chunks) k) with _ | t
    · exact leavesAlts_of_ended hadv
    · exact (movesTogether_iff hsf hadv).mp (hmoves k hk t hadv)
  · intro hok
    constructor
    · intro k hk t hadv
      exact (movesTogether_iff hsf hadv).mpr (hok k hk)
    · intro k hk hdata
      obtain ⟨δ, hread, -⟩ := stored_runFor hsf chunks k (fun j hj => hok j (by omega)) hdata
      exact ⟨δ, hread⟩

/-! ## A frame read two chips low -/

/-- Every symbol is read two chips low, the second with a runner-up. -/
def lowReceiver : Receiver ℕ Unit :=
  lineReceiver 16
    ((lineChips.map fun chip => ((chip + 126) % 128, 0)).modify 1 fun symbol => (symbol.1, 77))

/-- Its session on the whole line. -/
def low (n : ℕ) : Session ℕ Unit := lowReceiver.runFor (lowReceiver.start [List.range 3400]) n

/-- The eighth symbol brings a header one chip up, with the runner-up on record. -/
theorem low_moves_alt : ¬ lowReceiver.LeavesAlts (low 15) := by
  have hread : ((lowReceiver.symbolRead (low 15)).map fun r =>
      (lowReceiver.acceptedShift ((low 15).core.absorb r),
        ((low 15).core.absorb r).altSyms.length)) = some (some 1, 1) := by
    decide +kernel
  obtain ⟨r, hr, hfields⟩ := Option.map_eq_some_iff.mp hread
  rw [Prod.mk.injEq] at hfields
  intro h
  rcases h.header r 1 hr hfields.1 with hnil | hturn
  · rw [hnil] at hfields
    exact absurd hfields.2 (by simp)
  · exact absurd hturn (by decide)

theorem lattice_kept_iff_low :
    ¬ ((∀ k < 16, ∀ t, lowReceiver.advance (low k) = some t →
        lowReceiver.MovesTogether (low k) t) ∧
      ∀ k ≤ 16, (low k).core.state = .data →
        lowReceiver.OneReference (lowReceiver.frameReadings [List.range 3400] k) (low k).core) := by
  intro h
  have hleaves := (lattice_kept_iff (R := lowReceiver) (by decide) [List.range 3400] 16).mp h
  exact low_moves_alt (hleaves 15 (by omega))

/-- The shift of that frame leaves the runner-up behind. -/
theorem shift_forgets_alt :
    ¬ ∀ (p : LoraParams) (dsp : Dsp ℕ) (tracker : CarrierTracker ℕ Unit) (m : SoftMath)
        (chunks : List (List ℕ)) (s t : Session ℕ Unit),
      p.spreadingFactor ≤ 16 →
      (loraReceiver p dsp tracker (m.decodeFrameSoft p)).Reached chunks s →
      (loraReceiver p dsp tracker (m.decodeFrameSoft p)).advance s = some t →
      (loraReceiver p dsp tracker (m.decodeFrameSoft p)).MovesTogether s t := by
  intro h
  rcases hadv : lowReceiver.advance (low 15) with _ | t
  · exact low_moves_alt (leavesAlts_of_ended hadv)
  · have hmoves := h sf7Chips _ _ flatMath [List.range 3400] (low 15) t (by decide)
      (reached_runFor _ 15) hadv
    exact low_moves_alt ((movesTogether_iff (R := lowReceiver) (by decide) hadv).mp hmoves)

end Receiver
