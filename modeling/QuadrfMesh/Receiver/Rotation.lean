/-
# Shifting values, rows and likelihoods

`shiftValues` moves values, `rotateSoftRow` the rows they are read of, and `symbolLlrs` reads a
row as if it had been moved.  The three are one turn of the circle of chips (`rotations_agree`).
-/
import QuadrfMesh.Lib.Turn
import QuadrfMesh.Lora.SoftAgree
import QuadrfMesh.Receiver.Core

open Turn

/-! ## Rows and values -/

/-- `rotateSoftRow` turns the row. -/
theorem rotateSoftRow_eq_turn {nChips : ℕ} (sh : ℤ) {row : List ℚ} (hrow : row.length = nChips) :
    rotateSoftRow nChips sh row = turn sh row := by
  subst hrow
  cases row with
  | nil => rw [rotateSoftRow, turn, List.rotate_nil, List.rotate_nil]
  | cons x row =>
      set n := (x :: row).length with hn
      have hpos : 0 < n := Nat.succ_pos _
      have hlt : sh % n < n := Int.emod_lt_of_pos _ (by omega)
      have hle : (sh % n).toNat ≤ n := by omega
      refine (turn_eq_rotate ?_).symm
      rw [Int.natCast_mod, Nat.cast_sub hle, cast_toNat_emod hpos]
      calc -sh ≡ -(sh % n) [ZMOD n] := (Int.mod_modEq _ _).symm.neg
        _ ≡ n - sh % n [ZMOD n] := by
          rw [Int.modEq_iff_dvd, sub_neg_eq_add, sub_add_cancel]
        _ ≡ (n - sh % n) % n [ZMOD n] := (Int.mod_modEq _ _).symm

/-- A row of one magnitude for each chip, read as a value: where its greatest one is. -/
def ReadsAs (row : List ℚ) (v : UInt16) : Prop := ∃ u, GreatestAt row u ∧ v = UInt16.ofNat u

theorem ReadsAs.unique {row : List ℚ} {v v' : UInt16} (h : ReadsAs row v) (h' : ReadsAs row v') :
    v = v' := by
  obtain ⟨u, hu, rfl⟩ := h
  obtain ⟨u', hu', rfl⟩ := h'
  rw [hu.unique hu']

/-- Two numbers that agree modulo 65536 are one value. -/
theorem ofNat_eq_ofNat {a b : ℕ} (h : (a : ℤ) ≡ b [ZMOD 2 ^ 16]) :
    UInt16.ofNat a = UInt16.ofNat b := by
  rw [← UInt16.toNat_inj, UInt16.toNat_ofNat', UInt16.toNat_ofNat']
  have := h.eq
  omega

/-- `shiftValues` moves the place of a value. -/
theorem shiftValue_ofNat {sf u : ℕ} (hsf : sf < 32) (hu : u < 2 ^ sf) (sh : ℤ) :
    shiftValue sh (2 ^ sf) (UInt16.ofNat u) = UInt16.ofNat (place (2 ^ sf) sh u) := by
  have hpos : 0 < 2 ^ sf := by positivity
  have hturn : ((2 ^ sf : ℕ) : ℤ) ∣ 2 ^ 32 := by
    push_cast
    exact pow_dvd_pow 2 hsf.le
  have hkept : (((UInt16.ofNat u).toNat : ℤ) + sh + (2 ^ sf : ℕ)) % 2 ^ 32 % (2 ^ sf : ℕ)
      = ((UInt16.ofNat u).toNat + sh) % (2 ^ sf : ℕ) := by
    rw [Int.emod_emod_of_dvd _ hturn, Int.add_emod_right]
  rw [shiftValue, hkept]
  apply ofNat_eq_ofNat
  rw [cast_toNat_emod hpos, cast_place hpos]
  rcases le_or_gt sf 16 with hle | hgt
  · -- the value is the place
    have hfit : u < 2 ^ 16 := lt_of_lt_of_le hu (Nat.pow_le_pow_right (by norm_num) hle)
    rw [UInt16.toNat_ofNat', Nat.mod_eq_of_lt hfit]
  · -- the value is what 16 bits hold of the place, before and after
    have hdvd : (2 ^ 16 : ℤ) ∣ (2 ^ sf : ℕ) := by
      push_cast
      exact pow_dvd_pow 2 hgt.le
    have hlow : ((UInt16.ofNat u).toNat : ℤ) ≡ u [ZMOD 2 ^ 16] := by
      rw [UInt16.toNat_ofNat', Int.natCast_mod]
      exact Int.mod_modEq _ _
    calc ((UInt16.ofNat u).toNat + sh) % (2 ^ sf : ℕ) ≡ (UInt16.ofNat u).toNat + sh [ZMOD 2 ^ 16] :=
          (Int.mod_modEq _ _).of_dvd hdvd
      _ ≡ u + sh [ZMOD 2 ^ 16] := hlow.add_right sh
      _ ≡ (u + sh) % (2 ^ sf : ℕ) [ZMOD 2 ^ 16] := ((Int.mod_modEq _ _).of_dvd hdvd).symm

/-- **A rotated row** is read as the shifted value. -/
theorem ReadsAs.rotate {sf : ℕ} (hsf : sf < 32) {row : List ℚ} (hrow : row.length = 2 ^ sf)
    {v : UInt16} (h : ReadsAs row v) (sh : ℤ) :
    ReadsAs (rotateSoftRow (2 ^ sf) sh row) (shiftValue sh (2 ^ sf) v) := by
  obtain ⟨u, hu, rfl⟩ := h
  have hlt : u < 2 ^ sf := hrow ▸ hu.lt
  rw [rotateSoftRow_eq_turn sh hrow, shiftValue_ofNat hsf hlt, ← hrow]
  exact ⟨_, hu.turn sh, rfl⟩

/-! ## Likelihoods -/

/-- **`symbolLlrs` with a shift** reads the row as if it had been rotated. -/
theorem SoftMath.symbolLlrs_rotate (m : SoftMath) {sf : ℕ} {row : List ℚ}
    (hrow : row.length = 2 ^ sf) (reduced : Bool) (toneAmp noisePow : ℚ) (sh : ℤ) :
    m.symbolLlrs row sf reduced toneAmp noisePow sh
      = m.symbolLlrs (rotateSoftRow (2 ^ sf) sh row) sf reduced toneAmp noisePow 0 := by
  have hpos : 0 < row.length := by
    rw [hrow]
    positivity
  have hread : ∀ u ∈ List.range row.length,
      row.getD ((u + row.length - (sh % row.length).toNat) % row.length) 0
        = (turn sh row).getD ((u + row.length - (0 % (row.length : ℤ)).toNat) % row.length) 0 := by
    intro u hu
    have hlt : u < row.length := List.mem_range.mp hu
    rw [place_neg_eq hpos, Int.zero_emod, Int.toNat_zero, Nat.sub_zero, Nat.add_mod_right,
      Nat.mod_eq_of_lt hlt, List.getD_eq_getElem?_getD, List.getD_eq_getElem?_getD,
      getElem?_turn sh hlt]
  have hmetric : ∀ k : ℚ, ((List.range row.length).map fun u =>
        m.logBesselI0 (k * row.getD ((u + row.length - (sh % row.length).toNat) % row.length) 0))
      = (List.range row.length).map fun u => m.logBesselI0
        (k * (turn sh row).getD ((u + row.length - (0 % (row.length : ℤ)).toNat) % row.length) 0) :=
    fun k => List.map_congr_left fun u hu => by rw [hread u hu]
  rw [rotateSoftRow_eq_turn sh hrow]
  unfold SoftMath.symbolLlrs
  simp only [Nat.shiftLeft_eq, one_mul, ← hrow, hmetric]

/-- `struct SoftSymbols`, a row of magnitudes for each symbol. -/
structure SoftSymbols where
  mags : List (List ℚ) := []
  toneAmp : ℚ := 0
  noisePow : ℚ := 0

namespace SoftSymbols

variable (m : SoftMath) (p : LoraParams)

/-- The likelihoods of a symbol. -/
def llrs (soft : SoftSymbols) (shift : ℤ) (s : ℕ) (reduced : Bool) : List ℚ :=
  m.symbolLlrs (soft.mags.getD s []) p.spreadingFactor reduced soft.toneAmp soft.noisePow shift

/-- `decodeFrameSoft` on rows with their scale. -/
def decodeFrameSoft (soft : SoftSymbols) (shift : ℤ) : DecodeResult :=
  decodeFrameLlrs p (soft.llrs m p shift) soft.mags.length

/-- `softRows`: the scale is estimated of the rows. -/
def estimated (rows : List (List ℚ)) : SoftSymbols :=
  let scale := m.estimateSoftScale rows (chipCount p)
  { mags := rows, toneAmp := scale.1, noisePow := scale.2 }

/-- The rows, each rotated. -/
def rotate (soft : SoftSymbols) (sh : ℤ) : SoftSymbols :=
  { soft with mags := soft.mags.map (rotateSoftRow (chipCount p) sh) }

/-- What the receiver decodes is rows with the scale estimated of them. -/
theorem decodeFrameSoft_estimated (rows : List (List ℚ)) (shift : ℤ) :
    (estimated m p rows).decodeFrameSoft m p shift = m.decodeFrameSoft p rows shift := by
  rw [SoftMath.decodeFrameSoft_eq]
  rfl

/-- **A shift on the rows** is no shift on the rotated rows. -/
theorem decodeFrameSoft_rotate {soft : SoftSymbols}
    (hrows : ∀ row ∈ soft.mags, row.length = chipCount p) (sh : ℤ) :
    soft.decodeFrameSoft m p sh = (soft.rotate p sh).decodeFrameSoft m p 0 := by
  have hllrs : soft.llrs m p sh = (soft.rotate p sh).llrs m p 0 := by
    funext s reduced
    unfold llrs rotate
    rw [chipCount_eq] at hrows ⊢
    simp only [List.getD_eq_getElem?_getD, List.getElem?_map]
    rcases hs : soft.mags[s]? with _ | row
    · -- no row: every magnitude is zero, wherever it is read
      simp [SoftMath.symbolLlrs]
    · exact m.symbolLlrs_rotate (hrows row (List.mem_of_getElem? hs)) reduced _ _ sh
  unfold decodeFrameSoft
  rw [hllrs]
  simp only [rotate, List.length_map]

end SoftSymbols

/-- **A retry of the receiver**, the scale estimated of the rows and the chips `sh` over, decodes
the rotated rows at the scale of the unrotated ones. -/
theorem SoftMath.decodeFrameSoft_rotate (m : SoftMath) (p : LoraParams) {rows : List (List ℚ)}
    (hrows : ∀ row ∈ rows, row.length = chipCount p) (sh : ℤ) :
    m.decodeFrameSoft p rows sh
      = ((SoftSymbols.estimated m p rows).rotate p sh).decodeFrameSoft m p 0 := by
  rw [← SoftSymbols.decodeFrameSoft_estimated]
  exact SoftSymbols.decodeFrameSoft_rotate m p hrows sh

/-- **One turn of the chips.**  Rotations of a row compose by addition; where a row has one
greatest magnitude, the rotated row is read as the shifted value and as no other; and decoding
rows with a shift is decoding the rotated rows without. -/
theorem rotations_agree {sf : ℕ} (hsf : sf < 32) :
    (∀ (a b : ℤ) (row : List ℚ), row.length = 2 ^ sf →
      rotateSoftRow (2 ^ sf) b (rotateSoftRow (2 ^ sf) a row) = rotateSoftRow (2 ^ sf) (a + b) row) ∧
    (∀ (a : ℤ) (row : List ℚ) (v : UInt16), row.length = 2 ^ sf → ReadsAs row v →
      ∀ v', ReadsAs (rotateSoftRow (2 ^ sf) a row) v' ↔ shiftValues [v] a (2 ^ sf) = [v']) ∧
    ∀ (m : SoftMath) (p : LoraParams) (soft : SoftSymbols) (a : ℤ), p.spreadingFactor = sf →
      (∀ row ∈ soft.mags, row.length = 2 ^ sf) →
      soft.decodeFrameSoft m p a
        = ({ soft with mags := soft.mags.map (rotateSoftRow (2 ^ sf) a) } : SoftSymbols).decodeFrameSoft
            m p 0 := by
  refine ⟨?_, ?_, ?_⟩
  · intro a b row hrow
    rw [rotateSoftRow_eq_turn a hrow, rotateSoftRow_eq_turn (a + b) hrow,
      rotateSoftRow_eq_turn b (by rw [length_turn, hrow]), turn_turn]
  · intro a row v hrow hv v'
    have hmoved := hv.rotate hsf hrow a
    rw [shiftValues, List.map_singleton, List.singleton_inj]
    constructor
    · intro hv'
      exact hmoved.unique hv'
    · rintro rfl
      exact hmoved
  · rintro m p soft a rfl hrows
    rw [← chipCount_eq] at hrows ⊢
    exact soft.decodeFrameSoft_rotate m p hrows a

/-- A row of four chips, two down and five up, its first chip read as the third; and eight rows
of 32 chips, decoded three chips down. -/
theorem rotations_agree_four :
    let p : LoraParams := { spreadingFactor := 5 }
    let soft : SoftSymbols :=
      { mags := (List.range 8).map fun s => (List.range 32).map fun u => if u = s then 1 else 0
        toneAmp := 1, noisePow := 1 }
    rotateSoftRow 4 5 (rotateSoftRow 4 (-2) [9, 1, 2, 3]) = rotateSoftRow 4 3 [9, 1, 2, 3] ∧
    ReadsAs (rotateSoftRow 4 (-2) [9, 1, 2, 3]) 2 ∧
    soft.decodeFrameSoft ⟨id, id, id⟩ p (-3)
      = ({ soft with mags := soft.mags.map (rotateSoftRow 32 (-3)) } : SoftSymbols).decodeFrameSoft
          ⟨id, id, id⟩ p 0 := by
  intro p soft
  have hread : ReadsAs [9, 1, 2, 3] 0 := by
    refine ⟨0, ⟨9, rfl, ?_⟩, rfl⟩
    intro k y hy hne
    have hk : k < 4 := (List.getElem?_eq_some_iff.mp hy).1
    interval_cases k
    · exact absurd rfl hne
    all_goals
      obtain rfl := Option.some.inj hy
      norm_num
  have hrows : ∀ row ∈ soft.mags, row.length = 2 ^ 5 := by
    intro row hrow
    obtain ⟨s, -, rfl⟩ := List.mem_map.mp hrow
    rw [List.length_map, List.length_range]
    rfl
  obtain ⟨hturns, hreads, -⟩ := rotations_agree (show 2 < 32 by norm_num)
  obtain ⟨-, -, hdecodes⟩ := rotations_agree (show 5 < 32 by norm_num)
  exact ⟨hturns (-2) 5 _ rfl, (hreads (-2) _ 0 rfl hread 2).mpr (by decide),
    hdecodes _ p soft (-3) rfl hrows⟩
