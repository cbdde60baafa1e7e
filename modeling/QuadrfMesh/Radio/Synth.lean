/-
# The MAX285x synthesizer and the LO follower (`src/radio/synth.cpp`)

`f_LO = 80 MHz * (IDIV + FDIV / 2^20)` in register words, the round trip of an LO
that is an exact multiple of `80 / 2^20` MHz, how far off any other LO comes out
(`synth_roundTrip`), and `LoFollower`, which compares the two LOs with what the PHY last
programmed.  A `double` in MHz is an exact rational.
-/
import QuadrfMesh.Lib.Rounding

/-! ## Register words -/

/-- `word`: register number and ten data bits. -/
def word (reg data10 : ℕ) : ℕ := ((reg &&& 0x3F) <<< 10) ||| (data10 &&& 0x3FF)

/-- `struct SynthWords`. -/
structure SynthWords where
  w15 : ℕ := 0
  w16 : ℕ := 0
  w17 : ℕ := 0
  deriving DecidableEq, Repr

/-- `synthWords`; an integer part outside 0..127 keeps its low seven bits. -/
def synthWords (loMhz : ℚ) : SynthWords :=
  let ratio := loMhz / 80
  let idiv := ⌊ratio⌋
  let fdiv := ⌊(ratio - idiv) * 2 ^ 20 + 1 / 2⌋.toNat
  let carry := fdiv = 2 ^ 20
  let idiv := if carry then idiv + 1 else idiv
  let fdiv := if carry then 0 else fdiv
  { w15 := word 15 ((1 <<< 9) ||| (idiv % 128).toNat)
    w16 := word 16 (fdiv >>> 10)
    w17 := word 17 fdiv }

/-- `synthLoMhz` on the readbacks of Main15, Main16 and Main17. -/
def synthLoMhz (r15 r16 r17 : ℕ) : ℚ :=
  let idiv := r15 &&& 0x7F
  let fdiv := ((r16 &&& 0x3FF) <<< 10) ||| (r17 &&& 0x3FF)
  80 * (idiv + fdiv / 2 ^ 20)

/-- The low ten bits of a word are its data. -/
theorem word_data (reg data10 : ℕ) : word reg data10 &&& 0x3FF = data10 &&& 0x3FF := by
  apply Nat.eq_of_testBit_eq
  intro i
  have hmask : (0x3FF : ℕ) = 2 ^ 10 - 1 := rfl
  unfold word
  rw [hmask]
  simp only [Nat.testBit_and, Nat.testBit_or, Nat.testBit_shiftLeft, Nat.testBit_two_pow_sub_one]
  by_cases hi : i < 10
  · simp [hi, show ¬ 10 ≤ i by omega]
  · simp [hi]

/-- The LO the chip runs at once `synthWords loMhz` is written. -/
def quantLo (loMhz : ℚ) : ℚ :=
  synthLoMhz (synthWords loMhz).w15 (synthWords loMhz).w16 (synthWords loMhz).w17

/-- `synthLoMhz` reads only the data bits of the words. -/
theorem synthLoMhz_data (r15 r16 r17 : ℕ) :
    synthLoMhz (r15 &&& 0x3FF) (r16 &&& 0x3FF) (r17 &&& 0x3FF) = synthLoMhz r15 r16 r17 := by
  have h7 : ∀ n : ℕ, (n &&& 0x3FF) &&& 0x7F = n &&& 0x7F := by
    intro n
    rw [Nat.and_assoc]
    rfl
  have h10 : ∀ n : ℕ, (n &&& 0x3FF) &&& 0x3FF = n &&& 0x3FF := by
    intro n
    rw [Nat.and_assoc]
    rfl
  unfold synthLoMhz
  rw [h7, h10, h10]

/-- The words of an exact multiple of one FDIV step. -/
theorem synthWords_of_fdiv (idiv fdiv : ℕ) (hf : fdiv < 2 ^ 20) :
    synthWords (80 * ((idiv : ℚ) + fdiv / 2 ^ 20))
      = { w15 := word 15 ((1 <<< 9) ||| (idiv % 128)), w16 := word 16 (fdiv >>> 10)
          w17 := word 17 fdiv } := by
  have hfrac : (fdiv : ℚ) / 2 ^ 20 < 1 := by
    rw [div_lt_one (by positivity)]
    exact_mod_cast hf
  have hnn : (0 : ℚ) ≤ (fdiv : ℚ) / 2 ^ 20 := by positivity
  have hratio : 80 * ((idiv : ℚ) + fdiv / 2 ^ 20) / 80 = idiv + fdiv / 2 ^ 20 := by
    rw [mul_comm, mul_div_assoc]
    norm_num
  have hfloor : ⌊(idiv : ℚ) + fdiv / 2 ^ 20⌋ = idiv := by
    rw [Int.floor_eq_iff]
    push_cast
    constructor <;> linarith
  have hround : ⌊((idiv : ℚ) + fdiv / 2 ^ 20 - ((idiv : ℤ) : ℚ)) * 2 ^ 20 + 1 / 2⌋ = fdiv := by
    rw [Int.floor_eq_iff]
    push_cast
    have h : ((idiv : ℚ) + fdiv / 2 ^ 20 - idiv) * 2 ^ 20 = fdiv := by
      field_simp
      ring
    rw [h]
    constructor <;> linarith
  unfold synthWords
  simp only [hratio, hfloor, hround, Int.toNat_natCast]
  rw [if_neg (by omega), if_neg (by omega)]
  congr 3

/-- Twenty bits, split over two words of ten. -/
theorem fdiv_words {fdiv : ℕ} (hfdiv : fdiv < 2 ^ 20) :
    (((fdiv >>> 10) &&& 0x3FF) <<< 10) ||| (fdiv &&& 0x3FF) = fdiv := by
  apply Nat.eq_of_testBit_eq
  intro i
  have hmask : (0x3FF : ℕ) = 2 ^ 10 - 1 := rfl
  rw [hmask]
  simp only [Nat.testBit_or, Nat.testBit_shiftLeft, Nat.testBit_and, Nat.testBit_shiftRight,
    Nat.testBit_two_pow_sub_one]
  rcases Nat.lt_or_ge i 10 with h10 | h10
  · simp [h10, show ¬ 10 ≤ i by omega]
  · rcases Nat.lt_or_ge i 20 with h20 | h20
    · simp [h10, show ¬ i < 10 by omega, show i - 10 < 10 by omega]
    · have hpow : 2 ^ 20 ≤ 2 ^ i := Nat.pow_le_pow_right (by norm_num) h20
      have hz : fdiv.testBit i = false := Nat.testBit_lt_two_pow (by omega)
      simp [show ¬ i < 10 by omega, show ¬ i - 10 < 10 by omega, hz]

/-- The LO of the words of an IDIV and an FDIV. -/
theorem synthLoMhz_words {idiv fdiv : ℕ} (hidiv : idiv < 128) (hfdiv : fdiv < 2 ^ 20) :
    synthLoMhz (word 15 ((1 <<< 9) ||| idiv)) (word 16 (fdiv >>> 10)) (word 17 fdiv)
      = 80 * ((idiv : ℚ) + fdiv / 2 ^ 20) := by
  have h15 : ((1 <<< 9) ||| idiv) &&& 0x7F = idiv := by
    have h : ∀ n < 128, ((1 <<< 9) ||| n) &&& 0x7F = n := by decide +kernel
    exact h idiv hidiv
  rw [← synthLoMhz_data]
  simp only [word_data]
  rw [synthLoMhz_data]
  unfold synthLoMhz
  simp only [h15, fdiv_words hfdiv]

/-- **Round trip.**  An LO in the registers is programmed back without change. -/
theorem quantLo_synthLoMhz (r15 r16 r17 : ℕ) :
    quantLo (synthLoMhz r15 r16 r17) = synthLoMhz r15 r16 r17 := by
  set idiv := r15 &&& 0x7F with hi
  set fdiv := ((r16 &&& 0x3FF) <<< 10) ||| (r17 &&& 0x3FF) with hfd
  have hlo : synthLoMhz r15 r16 r17 = 80 * ((idiv : ℚ) + fdiv / 2 ^ 20) := rfl
  have hidiv : idiv < 128 := lt_of_le_of_lt Nat.and_le_right (by norm_num)
  have hfdiv : fdiv < 2 ^ 20 := by
    apply Nat.or_lt_two_pow
    · rw [Nat.shiftLeft_eq]
      have h : r16 &&& 0x3FF < 2 ^ 10 := lt_of_le_of_lt Nat.and_le_right (by norm_num)
      omega
    · exact lt_of_le_of_lt Nat.and_le_right (by norm_num)
  rw [quantLo, hlo, synthWords_of_fdiv idiv fdiv hfdiv]
  simp only
  rw [Nat.mod_eq_of_lt hidiv, synthLoMhz_words hidiv hfdiv]

/-! ## Quantization -/

/-- **What `synthWords` programs**: an IDIV and an FDIV that fit the registers, half an FDIV
step from the LO at most. -/
theorem synthWords_fields {f : ℚ} (hf : 0 ≤ f) (htop : f / 80 + 1 / 2 ^ 21 < 128) :
    ∃ idiv fdiv : ℕ, idiv < 128 ∧ fdiv < 2 ^ 20 ∧
      synthWords f = { w15 := word 15 ((1 <<< 9) ||| idiv), w16 := word 16 (fdiv >>> 10)
                       w17 := word 17 fdiv } ∧
      |80 * ((idiv : ℚ) + fdiv / 2 ^ 20) - f| ≤ 80 / 2 ^ 21 := by
  have hratio : 0 ≤ f / 80 := by positivity
  obtain ⟨i, n, hi, hn, hn_le, hlow, herr⟩ := exists_steps hratio (N := 2 ^ 20) (by norm_num)
  rw [Nat.cast_pow, Nat.cast_ofNat] at hn herr
  have hmhz : |80 * ((i : ℚ) + n / 2 ^ 20) - f| ≤ 80 / 2 ^ 21 := by
    have hscale : 80 * ((i : ℚ) + n / 2 ^ 20) - f = 80 * ((i : ℚ) + n / 2 ^ 20 - f / 80) := by
      ring
    calc |80 * ((i : ℚ) + n / 2 ^ 20) - f| = 80 * |(i : ℚ) + n / 2 ^ 20 - f / 80| := by
          rw [hscale, abs_mul, abs_of_pos (by norm_num)]
      _ ≤ 80 * (1 / (2 * 2 ^ 20)) := mul_le_mul_of_nonneg_left herr (by norm_num)
      _ = 80 / 2 ^ 21 := by norm_num
  by_cases hcarry : n = 2 ^ 20
  · -- FDIV rounds up to the next IDIV, which the top of the range leaves room for
    have hone : ((2 ^ 20 : ℕ) : ℚ) / 2 ^ 20 = 1 := by norm_num
    have hroom : i + 1 < 128 := by
      have h : (i : ℚ) + 1 < 128 := by
        have hnext := (abs_le.mp herr).2
        rw [hcarry, hone] at hnext
        linarith
      exact_mod_cast h
    refine ⟨i + 1, 0, hroom, by norm_num, ?_, ?_⟩
    · have hmod : ((i : ℤ) + 1) % 128 = ((i + 1 : ℕ) : ℤ) := by omega
      unfold synthWords
      simp only [hi, Int.cast_natCast, hn, Int.toNat_natCast, hcarry, if_true, hmod]
    · rw [hcarry, hone] at hmhz
      push_cast
      rw [zero_div, add_zero]
      exact hmhz
  · have hidiv : i < 128 := by
      have h : (i : ℚ) < 128 := by linarith
      exact_mod_cast h
    refine ⟨i, n, hidiv, lt_of_le_of_ne hn_le hcarry, ?_, hmhz⟩
    have hmod : (i : ℤ) % 128 = (i : ℤ) := by omega
    unfold synthWords
    simp only [hi, Int.cast_natCast, hn, Int.toNat_natCast, if_neg hcarry, hmod]

/-- **The LO registers.**  Of an LO below the top of IDIV the words hold one that is half an
FDIV step away at most, the carry from FDIV into IDIV included; and the words of an LO that
was read back are the words it was read from. -/
theorem synth_roundTrip :
    (∀ f : ℚ, 0 ≤ f → f / 80 + 1 / 2 ^ 21 < 128 →
      |synthLoMhz ((synthWords f).w15 &&& 0x3FF) ((synthWords f).w16 &&& 0x3FF)
        ((synthWords f).w17 &&& 0x3FF) - f| ≤ 80 / 2 ^ 21) ∧
    ∀ idiv < 128, ∀ fdiv < 2 ^ 20,
      let words : SynthWords := { w15 := word 15 ((1 <<< 9) ||| idiv), w16 := word 16 (fdiv >>> 10)
                                  w17 := word 17 fdiv }
      synthLoMhz words.w15 words.w16 words.w17 = 80 * ((idiv : ℚ) + fdiv / 2 ^ 20) ∧
      synthWords (synthLoMhz words.w15 words.w16 words.w17) = words := by
  constructor
  · intro f hf htop
    obtain ⟨idiv, fdiv, hidiv, hfdiv, hwords, herr⟩ := synthWords_fields hf htop
    rw [synthLoMhz_data, hwords, synthLoMhz_words hidiv hfdiv]
    exact herr
  · intro idiv hidiv fdiv hfdiv words
    have hlo := synthLoMhz_words hidiv hfdiv
    refine ⟨hlo, ?_⟩
    rw [hlo, synthWords_of_fdiv idiv fdiv hfdiv, Nat.mod_eq_of_lt hidiv]

/-- A hair below 5840 MHz, where FDIV carries, and the words of 5800 MHz. -/
theorem synth_roundTrip_carry :
    |synthLoMhz ((synthWords (5840 - 1 / 10 ^ 6)).w15 &&& 0x3FF)
      ((synthWords (5840 - 1 / 10 ^ 6)).w16 &&& 0x3FF)
      ((synthWords (5840 - 1 / 10 ^ 6)).w17 &&& 0x3FF) - (5840 - 1 / 10 ^ 6)| ≤ 80 / 2 ^ 21 ∧
    synthWords (synthLoMhz (word 15 ((1 <<< 9) ||| 72)) (word 16 (2 ^ 19 >>> 10)) (word 17 (2 ^ 19)))
      = { w15 := word 15 ((1 <<< 9) ||| 72), w16 := word 16 (2 ^ 19 >>> 10), w17 := word 17 (2 ^ 19) } :=
  ⟨synth_roundTrip.1 _ (by norm_num) (by norm_num),
    (synth_roundTrip.2 72 (by norm_num) (2 ^ 19) (by norm_num)).2⟩

/-! ## The follower -/

/-- `class LoFollower`. -/
structure LoFollower where
  channelMhz : ℚ
  ifMhz : ℚ
  tolMhz : ℚ := 5 / 1000
  txExpectMhz : ℚ
  rxExpectMhz : ℚ
  deriving DecidableEq, Repr

namespace LoFollower

/-- The constructor. -/
def new (channelMhz ifMhz : ℚ) : LoFollower where
  channelMhz := channelMhz
  ifMhz := ifMhz
  txExpectMhz := channelMhz
  rxExpectMhz := channelMhz - ifMhz

/-- `rxLoMhz`. -/
def rxLoMhz (f : LoFollower) : ℚ := f.channelMhz - f.ifMhz

/-- `struct Retune`. -/
structure Retune where
  txMoved : Bool
  rxMoved : Bool
  channelMhz : ℚ
  deriving DecidableEq, Repr

/-- `observe`: the retune an external write asks for, and the follower after it. -/
def observe (f : LoFollower) (txLoMhz rxLoMhz : ℚ) : Option Retune × LoFollower :=
  let txMoved := decide (f.tolMhz < |txLoMhz - f.txExpectMhz|)
  let rxMoved := decide (f.tolMhz < |rxLoMhz - f.rxExpectMhz|)
  if !txMoved && !rxMoved then (none, f)
  else
    let channelMhz := if txMoved then txLoMhz else rxLoMhz
    (some { txMoved, rxMoved, channelMhz }, { f with channelMhz })

/-- `programmed`: the LOs to expect. -/
def programmed (f : LoFollower) (txLoMhz rxLoMhz : ℚ) : LoFollower :=
  { f with txExpectMhz := txLoMhz, rxExpectMhz := rxLoMhz }

end LoFollower
