/-
# What the payload CRC tells apart (`src/lora/coding.cpp`)

`crc16` is a shift register of sixteen bits that takes a byte in at the top
(`crc16_register`), so two bytes fill it and nothing is lost in it.  The last two bytes of
a payload go in without a shift.  A change within two adjacent bytes always shows
(`payloadCrc_adjacent`); a change in the last two bytes shows unless the CRC nibbles change
along with it (`tail_errors_pass_iff`).
-/
import QuadrfMesh.Lib.ShiftRegister
import QuadrfMesh.Lora.FrameRoundTrip
import QuadrfMesh.Lora.Soft

open ShiftRegister

/-! ## One byte -/

/-- The polynomial of `crc16`. -/
def crcPoly : BitVec 16 := 0x1021#16

/-- A byte at the top of the register. -/
def atTop (b : BitVec 8) : BitVec 16 := b.setWidth 16 <<< 8

/-- One turn of the loop in `crc16`. -/
def crcTurn (s : UInt16 × UInt8) : UInt16 × UInt8 :=
  (if ((s.1 &&& 0x8000) >>> 8) ^^^ (s.2 &&& 0x80).toUInt16 ≠ 0 then (s.1 <<< 1) ^^^ 0x1021
    else s.1 <<< 1, s.2 <<< 1)

theorem crc16_eq_foldl (crc : UInt16) (byte : UInt8) :
    crc16 crc byte = ((List.range 8).foldl (fun s _ => crcTurn s) (crc, byte)).1 := rfl

theorem and_0x8000 (c : UInt16) : c &&& 0x8000 = if c.toBitVec.msb then 0x8000 else 0 := by
  have hmask : (0x8000 : UInt16).toBitVec = BitVec.twoPow 16 15 := rfl
  rw [← UInt16.toBitVec_inj, UInt16.toBitVec_and, hmask, BitVec.and_twoPow,
    BitVec.msb_eq_getLsbD_last]
  split <;> rfl

theorem and_0x80 (b : UInt8) : b &&& 0x80 = if b.toBitVec.msb then 0x80 else 0 := by
  have hmask : (0x80 : UInt8).toBitVec = BitVec.twoPow 8 7 := rfl
  rw [← UInt8.toBitVec_inj, UInt8.toBitVec_and, hmask, BitVec.and_twoPow,
    BitVec.msb_eq_getLsbD_last]
  split <;> rfl

theorem msb_atTop (b : BitVec 8) : (atTop b).msb = b.msb := by
  rw [BitVec.msb_eq_getLsbD_last, BitVec.msb_eq_getLsbD_last, atTop]
  simp

theorem atTop_shiftLeft (b : BitVec 8) : atTop (b <<< 1) = atTop b <<< 1 := by
  have hshift : (b <<< 1).setWidth 16 <<< 8 = b.setWidth 16 <<< 9 := by
    apply BitVec.eq_of_getLsbD_eq
    intro i hi
    simp only [BitVec.getLsbD_shiftLeft, BitVec.getLsbD_setWidth]
    rcases Nat.lt_or_ge i 9 with h | h
    · have h8 : i - 8 < 1 := by omega
      simp [h, h8]
    · have h8 : ¬ i < 8 := by omega
      have h1 : ¬ i - 8 < 1 := by omega
      have hlt : i - 8 < 8 := by omega
      have hlt' : i - 8 < 16 := by omega
      have hlt'' : i - 9 < 16 := by omega
      have hsub : i - 8 - 1 = i - 9 := by omega
      simp [h8, h1, hlt, hlt', hlt'', hsub, not_lt.mpr h, hi]
  rw [atTop, atTop, hshift, ← BitVec.shiftLeft_add]

/-- A turn shifts the register with the rest of the byte at its top. -/
theorem crcTurn_register (s : UInt16 × UInt8) :
    (crcTurn s).1.toBitVec ^^^ atTop (crcTurn s).2.toBitVec
      = shift crcPoly (s.1.toBitVec ^^^ atTop s.2.toBitVec) := by
  have hbyte : (s.2 <<< 1).toBitVec = s.2.toBitVec <<< 1 := rfl
  have hcrc : (s.1 <<< 1).toBitVec = s.1.toBitVec <<< 1 := rfl
  have hpoly : (0x1021 : UInt16).toBitVec = crcPoly := rfl
  have hcond : ((s.1 &&& 0x8000) >>> 8) ^^^ (s.2 &&& 0x80).toUInt16 ≠ 0 ↔
      (s.1.toBitVec ^^^ atTop s.2.toBitVec).msb = true := by
    rw [and_0x8000, and_0x80, BitVec.msb_xor, msb_atTop]
    cases s.1.toBitVec.msb <;> cases s.2.toBitVec.msb <;> decide
  unfold crcTurn shift
  simp only [hcond, hbyte, atTop_shiftLeft, BitVec.shiftLeft_xor_distrib]
  split_ifs
  · rw [UInt16.toBitVec_xor, hcrc, hpoly, BitVec.xor_assoc, BitVec.xor_assoc,
      BitVec.xor_comm crcPoly]
  · rw [hcrc]

theorem crcTurn_byte (s : UInt16 × UInt8) : (crcTurn s).2.toBitVec = s.2.toBitVec <<< 1 := rfl

/-- The register and the rest of the byte after `n` turns. -/
theorem crcTurns (s : UInt16 × UInt8) (n : ℕ) :
    let r := (List.range n).foldl (fun s _ => crcTurn s) s
    r.1.toBitVec ^^^ atTop r.2.toBitVec
        = shifts crcPoly n (s.1.toBitVec ^^^ atTop s.2.toBitVec) ∧
      r.2.toBitVec = s.2.toBitVec <<< n := by
  induction n with
  | zero => exact ⟨rfl, (BitVec.shiftLeft_zero _).symm⟩
  | succ n ih =>
      obtain ⟨hreg, hbyte⟩ := ih
      simp only [List.range_succ, List.foldl_append, List.foldl_cons, List.foldl_nil]
      refine ⟨?_, ?_⟩
      · rw [crcTurn_register, hreg, shifts_succ]
      · rw [crcTurn_byte, hbyte, BitVec.shiftLeft_add]

/-- **`crc16`** takes a byte in at the top of the register and shifts it eight times. -/
theorem crc16_register (crc : UInt16) (byte : UInt8) :
    (crc16 crc byte).toBitVec = shifts crcPoly 8 (crc.toBitVec ^^^ atTop byte.toBitVec) := by
  obtain ⟨hreg, hbyte⟩ := crcTurns (crc, byte) 8
  have hgone : byte.toBitVec <<< 8 = 0#8 := BitVec.shiftLeft_eq_zero (le_refl 8)
  simp only [hbyte, hgone] at hreg
  rw [crc16_eq_foldl, ← hreg]
  exact (BitVec.xor_zero).symm

theorem crc16_injective (byte : UInt8) : Function.Injective fun crc => crc16 crc byte := by
  intro a b hab
  have hreg := congrArg UInt16.toBitVec hab
  simp only [crc16_register] at hreg
  have htop := shifts_injective crcPoly rfl 8 hreg
  exact UInt16.toBitVec_inj.mp (BitVec.xor_left_inj _ |>.mp htop)

theorem atTop_xor (a b : BitVec 8) : atTop (a ^^^ b) = atTop a ^^^ atTop b := by
  rw [atTop, BitVec.setWidth_xor, BitVec.shiftLeft_xor_distrib]
  rfl

theorem atTop_injective : Function.Injective atTop := by
  intro a b hab
  apply BitVec.eq_of_getLsbD_eq
  intro i hi
  have hbit := congrArg (fun v : BitVec 16 => v.getLsbD (i + 8)) hab
  have hlt : i + 8 < 16 := by omega
  have hlt' : i < 16 := by omega
  simpa [atTop, hlt, hlt'] using hbit

/-- A byte of the register that has been shifted out at the top is seen at the bottom. -/
theorem low_shifts_atTop (d : BitVec 8) (h : (shifts crcPoly 8 (atTop d)).setWidth 8 = 0#8) :
    d = 0#8 := by
  have hall : ∀ n < 256, (shifts crcPoly 8 (atTop (BitVec.ofNat 8 n))).setWidth 8 = 0#8 →
      BitVec.ofNat 8 n = 0#8 := by
    decide +kernel
  have hd := hall d.toNat d.isLt
  rw [BitVec.ofNat_toNat, BitVec.setWidth_eq] at hd
  exact hd h

theorem low_atTop (d : BitVec 8) : (atTop d).setWidth 8 = 0#8 := by
  apply BitVec.eq_of_getLsbD_eq
  intro i hi
  simp [atTop, hi]

/-- **Two bytes fill the register**, whether or not it is shifted after the second. -/
theorem crc16_two {s : UInt16} {b b' c c' : UInt8}
    (h : crc16 s b ^^^ (b'.toUInt16 <<< 8) = crc16 s c ^^^ (c'.toUInt16 <<< 8)) :
    b = c ∧ b' = c' := by
  have hreg := congrArg UInt16.toBitVec h
  have hb' : (b'.toUInt16 <<< 8).toBitVec = atTop b'.toBitVec := rfl
  have hc' : (c'.toUInt16 <<< 8).toBitVec = atTop c'.toBitVec := rfl
  rw [UInt16.toBitVec_xor, UInt16.toBitVec_xor, crc16_register, crc16_register, hb', hc',
    shifts_xor, shifts_xor, BitVec.xor_assoc, BitVec.xor_assoc, BitVec.xor_right_inj] at hreg
  -- the first bytes differ by what the second make up for
  have hdiff : shifts crcPoly 8 (atTop (b.toBitVec ^^^ c.toBitVec))
      = atTop (b'.toBitVec ^^^ c'.toBitVec) := by
    rw [atTop_xor, atTop_xor, shifts_xor]
    exact xor_eq_xor_of_xor_eq hreg
  have hzero := low_shifts_atTop (b.toBitVec ^^^ c.toBitVec) (by rw [hdiff, low_atTop])
  have hbc : b = c := UInt8.toBitVec_inj.mp (BitVec.xor_eq_zero_iff.mp hzero)
  refine ⟨hbc, ?_⟩
  rw [hbc, BitVec.xor_right_inj] at hreg
  exact UInt8.toBitVec_inj.mp (atTop_injective hreg)

theorem crc16_crc16 {s : UInt16} {b b' c c' : UInt8}
    (h : crc16 (crc16 s b) b' = crc16 (crc16 s c) c') : b = c ∧ b' = c' := by
  have hreg := congrArg UInt16.toBitVec h
  rw [crc16_register (crc16 s b) b', crc16_register (crc16 s c) c'] at hreg
  have htop := shifts_injective crcPoly rfl 8 hreg
  exact crc16_two (UInt16.toBitVec_inj.mp htop)

/-! ## Payloads -/

theorem foldl_crc16_injective (bytes : List UInt8) :
    Function.Injective fun crc => bytes.foldl crc16 crc := by
  induction bytes with
  | nil => exact fun a b hab => hab
  | cons byte bytes ih =>
      intro a b hab
      exact crc16_injective byte (ih hab)

/-- The last two bytes go in without a shift. -/
theorem payloadCrc_concat (bytes : List UInt8) (y z : UInt8) :
    payloadCrc (bytes ++ [y, z])
      = bytes.foldl crc16 0x0000 ^^^ z.toUInt16 ^^^ (y.toUInt16 <<< 8) := by
  have hlen : (bytes ++ [y, z]).length = bytes.length + 2 := by simp
  have hlast : bytes.length + 2 - 1 = bytes.length + 1 := rfl
  unfold payloadCrc
  simp only [hlen, hlast, Nat.add_sub_cancel]
  rw [if_neg (by omega), List.take_left' rfl, List.getD_append_right _ _ _ _ (by omega),
    List.getD_append_right _ _ _ _ (by omega), Nat.sub_self, Nat.add_sub_cancel_left]
  rfl

/-- Two bytes side by side in a word. -/
theorem word_inj {b b' c c' : UInt8}
    (h : b'.toUInt16 ^^^ (b.toUInt16 <<< 8) = c'.toUInt16 ^^^ (c.toUInt16 <<< 8)) :
    b = c ∧ b' = c' := by
  have hword := congrArg UInt16.toBitVec h
  have htop : ∀ x : UInt8, (x.toUInt16 <<< 8).toBitVec = atTop x.toBitVec := fun _ => rfl
  have hlow : ∀ x : UInt8, x.toUInt16.toBitVec.setWidth 8 = x.toBitVec := by
    intro x
    rw [UInt8.toBitVec_toUInt16, BitVec.setWidth_setWidth_of_le _ (by omega), BitVec.setWidth_eq]
  rw [UInt16.toBitVec_xor, UInt16.toBitVec_xor, htop, htop] at hword
  have hbytes := congrArg (BitVec.setWidth 8) hword
  rw [BitVec.setWidth_xor, BitVec.setWidth_xor, low_atTop, low_atTop, BitVec.xor_zero,
    BitVec.xor_zero, hlow, hlow] at hbytes
  have hlast : b' = c' := UInt8.toBitVec_inj.mp hbytes
  refine ⟨?_, hlast⟩
  rw [hlast, BitVec.xor_right_inj] at hword
  exact UInt8.toBitVec_inj.mp (atTop_injective hword)

/-- Two bytes next to each other show in the CRC, wherever they stand. -/
theorem payloadCrc_pair {pre post : List UInt8} {b b' c c' : UInt8}
    (h : payloadCrc (pre ++ [b, b'] ++ post) = payloadCrc (pre ++ [c, c'] ++ post)) :
    b = c ∧ b' = c' := by
  rcases List.eq_nil_or_concat' post with rfl | ⟨front, z, rfl⟩
  · -- the last two bytes
    rw [List.append_nil, List.append_nil, payloadCrc_concat, payloadCrc_concat, UInt16.xor_assoc,
      UInt16.xor_assoc, UInt16.xor_right_inj] at h
    exact word_inj h
  · rcases List.eq_nil_or_concat' front with rfl | ⟨mid, y, rfl⟩
    · -- one is shifted and one is not
      have hsplit : ∀ u v : UInt8, pre ++ [u, v] ++ ([] ++ [z]) = (pre ++ [u]) ++ [v, z] := by
        intro u v
        simp
      rw [hsplit, hsplit, payloadCrc_concat, payloadCrc_concat, List.foldl_append,
        List.foldl_append, UInt16.xor_assoc, UInt16.xor_assoc, UInt16.xor_comm z.toUInt16,
        UInt16.xor_comm z.toUInt16, ← UInt16.xor_assoc, ← UInt16.xor_assoc,
        UInt16.xor_left_inj] at h
      exact crc16_two h
    · have hsplit : ∀ u v : UInt8,
          pre ++ [u, v] ++ (mid ++ [y] ++ [z]) = (pre ++ [u, v] ++ mid) ++ [y, z] := by
        intro u v
        simp
      rw [hsplit, hsplit, payloadCrc_concat, payloadCrc_concat, UInt16.xor_left_inj,
        UInt16.xor_left_inj, List.foldl_append, List.foldl_append, List.foldl_append,
        List.foldl_append] at h
      exact crc16_crc16 (foldl_crc16_injective mid h)

theorem payloadCrc_single {pre post : List UInt8} {b c : UInt8}
    (h : payloadCrc (pre ++ [b] ++ post) = payloadCrc (pre ++ [c] ++ post)) : b = c := by
  rcases post with - | ⟨z, post⟩
  · rcases List.eq_nil_or_concat' pre with rfl | ⟨front, y, rfl⟩
    · -- a single byte is shifted
      have hshift : crc16 0x0000 b ^^^ ((0 : UInt8).toUInt16 <<< 8)
          = crc16 0x0000 c ^^^ ((0 : UInt8).toUInt16 <<< 8) := congrArg (· ^^^ _) h
      exact (crc16_two hshift).1
    · have hsplit : ∀ u : UInt8, front ++ [y] ++ [u] ++ [] = front ++ [y, u] ++ [] := by
        intro u
        simp
      rw [hsplit, hsplit] at h
      exact (payloadCrc_pair h).2
  · have hsplit : ∀ u : UInt8, pre ++ [u] ++ z :: post = pre ++ [u, z] ++ post := by
      intro u
      simp
    rw [hsplit, hsplit] at h
    exact (payloadCrc_pair h).1

theorem eq_of_payloadCrc {xs ys : List UInt8} (hlen : xs.length = ys.length) {k : ℕ}
    (hagree : ∀ i, i ≠ k → i ≠ k + 1 → xs[i]? = ys[i]?) (h : payloadCrc xs = payloadCrc ys) :
    xs = ys := by
  have hpre : xs.take k = ys.take k := by
    apply List.ext_getElem?
    intro i
    rw [List.getElem?_take, List.getElem?_take]
    split_ifs with hi
    · exact hagree i (by omega) (by omega)
    · rfl
  have hpost : xs.drop (k + 2) = ys.drop (k + 2) := by
    apply List.ext_getElem?
    intro i
    rw [List.getElem?_drop, List.getElem?_drop]
    exact hagree _ (by omega) (by omega)
  have hmid : (xs.drop k).length = (ys.drop k).length := by
    rw [List.length_drop, List.length_drop, hlen]
  rw [← List.take_append_drop k xs, ← List.take_append_drop k ys, hpre] at h ⊢
  rw [← List.drop_drop, ← List.drop_drop] at hpost
  congr 1
  -- what lies between `k` and `k + 2`
  match hx : xs.drop k, hy : ys.drop k, hmid with
  | [], [], _ => rfl
  | [b], [c], _ =>
      rw [hx, hy] at h
      have hone : ∀ u : UInt8, ys.take k ++ [u] = ys.take k ++ [u] ++ [] := by
        intro u
        simp
      rw [hone b, hone c] at h
      rw [payloadCrc_single h]
  | b :: b' :: post, c :: c' :: post', _ =>
      rw [hx, hy] at hpost h
      obtain rfl : post = post' := hpost
      have htwo : ∀ u v : UInt8, ys.take k ++ u :: v :: post = ys.take k ++ [u, v] ++ post := by
        intro u v
        simp
      rw [htwo, htwo] at h
      obtain ⟨rfl, rfl⟩ := payloadCrc_pair h
      rfl

/-- **A change within two adjacent bytes shows** in the CRC of the payload, whatever else is
in it, and so in the check on arrival when the CRC nibbles are those sent. -/
theorem payloadCrc_adjacent {xs ys : List UInt8} (hlen : xs.length = ys.length) {k : ℕ}
    (hagree : ∀ i, i ≠ k → i ≠ k + 1 → xs[i]? = ys[i]?) (hne : xs ≠ ys) :
    payloadCrc xs ≠ payloadCrc ys ∧
      ∀ (nibbles : List ℕ) (d : DecodeResult), d.header.hasCrc = true →
        (finishPayload nibbles d).payload = ys →
        (finishPayload nibbles d).crcReceived = payloadCrc xs →
          (finishPayload nibbles d).crcOk = false := by
  have hcrc : payloadCrc xs ≠ payloadCrc ys := fun h => hne (eq_of_payloadCrc hlen hagree h)
  refine ⟨hcrc, ?_⟩
  intro nibbles d hhas hpayload hreceived
  by_contra hok
  have hchecked := finishPayload_checked nibbles d (Bool.of_not_eq_false hok)
  obtain ⟨hsame, hexpected⟩ := hchecked.crc (by rw [header_finishPayload, hhas])
  rw [hpayload] at hexpected
  exact hcrc (hreceived.symm.trans (hsame.trans hexpected))

/-- The last byte shifted in and the first that is not. -/
theorem payloadCrc_adjacent_boundary : payloadCrc [1, 2, 3, 4] ≠ payloadCrc [1, 5, 6, 4] := by
  have hagree : ∀ i, i ≠ 1 → i ≠ 1 + 1 → ([1, 2, 3, 4] : List UInt8)[i]? = [1, 5, 6, 4][i]? := by
    intro i h1 h2
    rcases i with - | - | - | i
    · rfl
    · exact absurd rfl h1
    · exact absurd rfl h2
    · rfl
  have hne : ([1, 2, 3, 4] : List UInt8) ≠ [1, 5, 6, 4] := by decide
  have hlen : ([1, 2, 3, 4] : List UInt8).length = ([1, 5, 6, 4] : List UInt8).length := rfl
  exact (payloadCrc_adjacent hlen hagree hne).1

/-! ## Bytes and words from nibbles -/

/-- A byte as `finishPayload` puts it together. -/
def nibbleByte (lo hi : ℕ) : UInt8 := UInt8.ofNat ((lo &&& 0x0F) ||| (hi <<< 4))

/-- A CRC as `finishPayload` puts it together. -/
def nibbleWord (a b c d : ℕ) : UInt16 :=
  UInt16.ofNat ((a &&& 0x0F) ||| (b <<< 4) ||| (c <<< 8) ||| (d <<< 12))

theorem testBit_0x0F (i : ℕ) : Nat.testBit 0x0F i = decide (i < 4) :=
  Nat.testBit_two_pow_sub_one 4 i

theorem testBit_nibble {n : ℕ} (hn : n < 16) {i : ℕ} (hi : ¬ i < 4) : n.testBit i = false := by
  have hpow : 2 ^ 4 ≤ 2 ^ i := Nat.pow_le_pow_right (by omega) (by omega)
  exact Nat.testBit_lt_two_pow (lt_of_lt_of_le hn hpow)

theorem testBit_nibbleByte (lo hi i : ℕ) :
    (nibbleByte lo hi).toNat.testBit i
      = if i < 4 then lo.testBit i else decide (i < 8) && hi.testBit (i - 4) := by
  rw [nibbleByte, UInt8.toNat_ofNat', Nat.testBit_mod_two_pow, Nat.testBit_or, Nat.testBit_and,
    testBit_0x0F, Nat.testBit_shiftLeft]
  rcases Nat.lt_or_ge i 4 with h | h
  · have h8 : i < 8 := by omega
    simp [h, h8]
  · simp [h, not_lt.mpr h]

theorem nibbleByte_xor (lo hi lo' hi' : ℕ) :
    nibbleByte (lo ^^^ lo') (hi ^^^ hi') = nibbleByte lo hi ^^^ nibbleByte lo' hi' := by
  apply UInt8.toNat_inj.mp
  apply Nat.eq_of_testBit_eq
  intro i
  rw [UInt8.toNat_xor, Nat.testBit_xor, testBit_nibbleByte, testBit_nibbleByte,
    testBit_nibbleByte, Nat.testBit_xor, Nat.testBit_xor]
  split_ifs
  · rfl
  · exact Bool.and_xor_distrib_left _ _ _

theorem nibbleByte_zero : nibbleByte 0 0 = 0 := rfl

theorem nibbleByte_inj {lo hi lo' hi' : ℕ} (hlo : lo < 16) (hhi : hi < 16) (hlo' : lo' < 16)
    (hhi' : hi' < 16) (h : nibbleByte lo hi = nibbleByte lo' hi') : lo = lo' ∧ hi = hi' := by
  have hbits : ∀ i, (nibbleByte lo hi).toNat.testBit i = (nibbleByte lo' hi').toNat.testBit i :=
    fun i => by rw [h]
  constructor
  · apply Nat.eq_of_testBit_eq
    intro i
    by_cases hi4 : i < 4
    · have hbit := hbits i
      rw [testBit_nibbleByte, testBit_nibbleByte, if_pos hi4, if_pos hi4] at hbit
      exact hbit
    · rw [testBit_nibble hlo hi4, testBit_nibble hlo' hi4]
  · apply Nat.eq_of_testBit_eq
    intro i
    by_cases hi4 : i < 4
    · have hbit := hbits (i + 4)
      have hge : ¬ i + 4 < 4 := by omega
      have hlt : i + 4 < 8 := by omega
      rw [testBit_nibbleByte, testBit_nibbleByte, if_neg hge, if_neg hge, decide_eq_true hlt,
        Bool.true_and, Bool.true_and, Nat.add_sub_cancel] at hbit
      exact hbit
    · rw [testBit_nibble hhi hi4, testBit_nibble hhi' hi4]

/-- A CRC is two bytes side by side. -/
theorem nibbleWord_eq {a b c : ℕ} (hb : b < 16) (hc : c < 16) (d : ℕ) :
    nibbleWord a b c d = (nibbleByte a b).toUInt16 ^^^ ((nibbleByte c d).toUInt16 <<< 8) := by
  apply UInt16.toNat_inj.mp
  apply Nat.eq_of_testBit_eq
  intro i
  have hshift : ∀ x : UInt8, (x.toUInt16 <<< 8).toNat.testBit i
      = (decide (i < 16) && (decide (8 ≤ i) && x.toNat.testBit (i - 8))) := by
    intro x
    rw [UInt16.toNat_shiftLeft, UInt8.toNat_toUInt16]
    show (x.toNat <<< 8 % 2 ^ 16).testBit i = _
    rw [Nat.testBit_mod_two_pow, Nat.testBit_shiftLeft]
  rw [nibbleWord, UInt16.toNat_ofNat', UInt16.toNat_xor, Nat.testBit_xor, hshift,
    UInt8.toNat_toUInt16, testBit_nibbleByte, testBit_nibbleByte, Nat.testBit_mod_two_pow]
  simp only [Nat.testBit_or, Nat.testBit_and, testBit_0x0F, Nat.testBit_shiftLeft]
  -- which nibble the bit is in
  rcases Nat.lt_or_ge i 4 with h4 | h4
  · have h16 : i < 16 := by omega
    have h8 : ¬ 8 ≤ i := by omega
    have h12 : ¬ 12 ≤ i := by omega
    simp [h4, h16, h8, h12, not_le.mpr h4]
  rcases Nat.lt_or_ge i 8 with h8 | h8
  · have h16 : i < 16 := by omega
    have h12 : ¬ 12 ≤ i := by omega
    simp [h4, h8, h16, h12, not_lt.mpr h4, not_le.mpr h8]
  rcases Nat.lt_or_ge i 12 with h12 | h12
  · have h16 : i < 16 := by omega
    have hc4 : i - 8 < 4 := by omega
    have hbz := testBit_nibble hb (i := i - 4) (by omega)
    simp [h4, h8, h16, hc4, hbz, not_lt.mpr h4, not_lt.mpr h8, not_le.mpr h12]
  · have hbz := testBit_nibble hb (i := i - 4) (by omega)
    have hcz := testBit_nibble hc (i := i - 8) (by omega)
    have hc4 : ¬ i - 8 < 4 := by omega
    have hsub : i - 8 - 4 = i - 12 := by omega
    have hlt : i - 8 < 8 ↔ i < 16 := by omega
    simp [h4, h8, h12, hbz, hcz, hc4, hsub, hlt, not_lt.mpr h4, not_lt.mpr h8]

/-! ## Errors in the tail -/

/-- The pairs of a tail nibble and its CRC nibble that `SoftMath.tailMargin` goes through. -/
def tailPairs (len : ℕ) : List (ℕ × ℕ) :=
  let a := 5 + 2 * (len - 2)
  let c := 5 + 2 * len
  [(a + 2, c), (a + 3, c + 1), (a, c + 2), (a + 1, c + 3)]

/-- The errors are within the last two payload bytes and the CRC. -/
def TailErrors (len : ℕ) (err : ℕ → ℕ) : Prop :=
  ∀ i, err i ≠ 0 → 5 + 2 * (len - 2) ≤ i ∧ i < 5 + 2 * len + 4

/-- The flips in payload byte `i`. -/
def errByte (err : ℕ → ℕ) (i : ℕ) : UInt8 := nibbleByte (err (5 + 2 * i)) (err (5 + 2 * i + 1))

theorem crcOk_finishPayload (ns : List ℕ) {d : DecodeResult} (hcrc : d.header.hasCrc = true) :
    (finishPayload ns d).crcOk = true ↔
      nibbleWord (ns.getD (5 + 2 * d.header.payloadLen) 0)
          (ns.getD (5 + 2 * d.header.payloadLen + 1) 0)
          (ns.getD (5 + 2 * d.header.payloadLen + 2) 0)
          (ns.getD (5 + 2 * d.header.payloadLen + 3) 0)
        = payloadCrc ((List.range d.header.payloadLen).map fun i =>
            nibbleByte (ns.getD (5 + 2 * i) 0) (ns.getD (5 + 2 * i + 1) 0) ^^^ whitening i) := by
  unfold finishPayload
  simp only [hcrc, if_true]
  exact beq_iff_eq

section TailErrors

variable {p : LoraParams} {payload : List UInt8} {err : ℕ → ℕ} {ns : List ℕ}
  (hcrc : p.hasCrc = true)
  (hns : ∀ i < frameNibbles true payload.length,
    ns.getD i 0 = (nibbleStream p payload).getD i 0 ^^^ err i)
include hns

/-- A payload byte as received. -/
theorem received_byte {i : ℕ} (hi : i < payload.length) :
    nibbleByte (ns.getD (5 + 2 * i) 0) (ns.getD (5 + 2 * i + 1) 0) ^^^ whitening i
      = payload.getD i 0 ^^^ errByte err i := by
  have hlo : (nibbleStream p payload).getD (5 + 2 * i) 0
      = (whitenedByte payload i &&& 0x0F).toNat := by
    rw [show 5 + 2 * i = 5 + (i * 2 + 0) by ring]
    exact getD_nibbleStream_payload p payload i 0 hi (by omega)
  have hhi : (nibbleStream p payload).getD (5 + 2 * i + 1) 0
      = (whitenedByte payload i >>> 4).toNat := by
    rw [show 5 + 2 * i + 1 = 5 + (i * 2 + 1) by ring]
    exact getD_nibbleStream_payload p payload i 1 hi (by omega)
  have hsent : nibbleByte (whitenedByte payload i &&& 0x0F).toNat (whitenedByte payload i >>> 4).toNat
      = payload.getD i 0 ^^^ whitening i := byte_of_nibbles _
  have hw : ∀ x e w : UInt8, x ^^^ w ^^^ e ^^^ w = x ^^^ e := by
    intro x e w
    rw [UInt8.xor_assoc x, UInt8.xor_comm w, ← UInt8.xor_assoc, UInt8.xor_assoc, UInt8.xor_self,
      UInt8.xor_zero]
  rw [hns _ (by unfold frameNibbles; omega), hns _ (by unfold frameNibbles; omega), nibbleByte_xor,
    hlo, hhi, hsent]
  exact hw _ _ _

include hcrc in
/-- The CRC as received. -/
theorem received_crc (hnib : ∀ i, err i < 16) :
    nibbleWord (ns.getD (5 + 2 * payload.length) 0) (ns.getD (5 + 2 * payload.length + 1) 0)
        (ns.getD (5 + 2 * payload.length + 2) 0) (ns.getD (5 + 2 * payload.length + 3) 0)
      = payloadCrc payload ^^^ (errByte err payload.length).toUInt16
        ^^^ ((errByte err (payload.length + 1)).toUInt16 <<< 8) := by
  set c := 5 + 2 * payload.length with hc
  set crc := payloadCrc payload with hcrcdef
  have hs : ∀ j < 4, ns.getD (c + j) 0
      = [(crc &&& 0x000F).toNat, ((crc &&& 0x00F0) >>> 4).toNat, ((crc &&& 0x0F00) >>> 8).toNat,
          ((crc &&& 0xF000) >>> 12).toNat].getD j 0 ^^^ err (c + j) := by
    intro j hj
    rw [hns _ (by unfold frameNibbles; simp only [if_true]; omega), hc,
      getD_nibbleStream_crc p payload j hcrc]
  have h0 := hs 0 (by omega)
  rw [add_zero] at h0
  have h1lt : ((crc &&& 0x00F0) >>> 4).toNat < 16 := crc_nibble_lt (k := 4) _ _ (by decide)
  have h2lt : ((crc &&& 0x0F00) >>> 8).toNat < 16 := crc_nibble_lt (k := 8) _ _ (by decide)
  have hxor : ∀ {a b : ℕ}, a < 16 → b < 16 → a ^^^ b < 16 := fun ha hb =>
    Nat.xor_lt_two_pow (n := 4) ha hb
  have hsent : nibbleWord (crc &&& 0x000F).toNat ((crc &&& 0x00F0) >>> 4).toNat
      ((crc &&& 0x0F00) >>> 8).toNat ((crc &&& 0xF000) >>> 12).toNat = crc := crc_of_nibbles crc
  rw [nibbleWord_eq h1lt h2lt] at hsent
  rw [h0, hs 1 (by omega), hs 2 (by omega), hs 3 (by omega)]
  simp only [List.getD_cons_zero, List.getD_cons_succ]
  rw [nibbleWord_eq (hxor h1lt (hnib _)) (hxor h2lt (hnib _)), nibbleByte_xor, nibbleByte_xor,
    UInt8.toUInt16_xor, UInt8.toUInt16_xor, UInt16.shiftLeft_xor]
  have hb : 5 + 2 * (payload.length + 1) = c + 2 := by omega
  rw [errByte, errByte, hb, ← hc]
  conv_rhs => rw [← hsent]
  ac_rfl

/-- The payload as received: only its last two bytes may differ. -/
theorem received_payload {front : List UInt8} {y z : UInt8} (hpay : payload = front ++ [y, z])
    (htail : TailErrors payload.length err) :
    (List.range payload.length).map (fun i =>
        nibbleByte (ns.getD (5 + 2 * i) 0) (ns.getD (5 + 2 * i + 1) 0) ^^^ whitening i)
      = front ++ [y ^^^ errByte err front.length, z ^^^ errByte err (front.length + 1)] := by
  have hlen : payload.length = front.length + 2 := by rw [hpay, List.length_append]; rfl
  have hbyte : ∀ i < payload.length,
      nibbleByte (ns.getD (5 + 2 * i) 0) (ns.getD (5 + 2 * i + 1) 0) ^^^ whitening i
        = payload.getD i 0 ^^^ errByte err i := fun i hi => received_byte hns hi
  -- no errors before the last two bytes
  have hfront : ∀ i < front.length, payload.getD i 0 ^^^ errByte err i = front.getD i 0 := by
    intro i hi
    have hlo : err (5 + 2 * i) = 0 := by
      by_contra hne
      have h := htail _ hne
      omega
    have hhi : err (5 + 2 * i + 1) = 0 := by
      by_contra hne
      have h := htail _ hne
      omega
    rw [errByte, hlo, hhi, nibbleByte_zero, UInt8.xor_zero, hpay, List.getD_append _ _ _ _ hi]
  have hy : payload.getD front.length 0 = y := by
    rw [hpay, List.getD_append_right _ _ _ _ le_rfl, Nat.sub_self]
    rfl
  have hz : payload.getD (front.length + 1) 0 = z := by
    rw [hpay, List.getD_append_right _ _ _ _ (by omega), Nat.add_sub_cancel_left]
    rfl
  have hmap : (List.range payload.length).map (fun i =>
        nibbleByte (ns.getD (5 + 2 * i) 0) (ns.getD (5 + 2 * i + 1) 0) ^^^ whitening i)
      = (List.range payload.length).map fun i => payload.getD i 0 ^^^ errByte err i :=
    List.map_congr_left fun i hi => hbyte i (List.mem_range.mp hi)
  rw [hmap, hlen, List.range_succ, List.range_succ, List.map_append, List.map_append,
    List.map_singleton, List.map_singleton, hy, hz, List.append_assoc]
  congr 1
  apply List.ext_getElem
  · simp
  · intro i h1 h2
    simp only [List.getElem_map, List.getElem_range]
    rw [hfront i h2, List.getD_eq_getElem _ _ h2]

end TailErrors

/-- Flips in the last two bytes go straight into the CRC. -/
theorem payloadCrc_flip {payload front : List UInt8} {y z : UInt8}
    (hpay : payload = front ++ [y, z]) (ey ez : UInt8) :
    payloadCrc (front ++ [y ^^^ ey, z ^^^ ez])
      = payloadCrc payload ^^^ (ez.toUInt16 ^^^ (ey.toUInt16 <<< 8)) := by
  rw [hpay, payloadCrc_concat, payloadCrc_concat, UInt8.toUInt16_xor, UInt8.toUInt16_xor,
    UInt16.shiftLeft_xor]
  ac_rfl

/-- The pairs, byte by byte. -/
theorem errBytes_eq_iff {err : ℕ → ℕ} (hnib : ∀ i, err i < 16) {len : ℕ} (hn : 2 ≤ len) :
    (errByte err (len - 1) = errByte err len ∧ errByte err (len - 2) = errByte err (len + 1)) ↔
      ∀ pr ∈ tailPairs len, err pr.1 = err pr.2 := by
  obtain ⟨m, rfl⟩ : ∃ m, len = m + 2 := ⟨len - 2, by omega⟩
  have hlast : 5 + 2 * (m + 2 - 1) = 5 + 2 * m + 2 := by omega
  have hnext : 5 + 2 * (m + 2 + 1) = 5 + 2 * (m + 2) + 2 := by omega
  simp only [tailPairs, errByte, hlast, hnext, Nat.add_sub_cancel, List.forall_mem_cons,
    List.not_mem_nil, false_imp_iff, forall_const, and_true]
  constructor
  · rintro ⟨hz, hy⟩
    obtain ⟨h2, h3⟩ := nibbleByte_inj (hnib _) (hnib _) (hnib _) (hnib _) hz
    obtain ⟨h0, h1⟩ := nibbleByte_inj (hnib _) (hnib _) (hnib _) (hnib _) hy
    exact ⟨h2, h3, h0, h1⟩
  · rintro ⟨h2, h3, h0, h1⟩
    have h3' : err (5 + 2 * m + 2 + 1) = err (5 + 2 * (m + 2) + 1) := h3
    have h1' : err (5 + 2 * m + 1) = err (5 + 2 * (m + 2) + 2 + 1) := h1
    exact ⟨by rw [h2, h3'], by rw [h0, h1']⟩

/-- Every nibble of the tail and of the CRC is in a pair. -/
theorem exists_tailPair {len i : ℕ} (hn : 2 ≤ len) (hlow : 5 + 2 * (len - 2) ≤ i)
    (hhigh : i < 5 + 2 * len + 4) : ∃ pr ∈ tailPairs len, pr.1 = i ∨ pr.2 = i := by
  simp only [tailPairs, List.exists_mem_cons_iff, List.not_mem_nil, false_and, exists_const,
    or_false]
  omega

/-- **Errors in the tail.**  Errors in the last two payload bytes and the CRC pass the check
exactly when each tail nibble and its partner of `tailPairs` are wrong alike; so an error
that passes is in both nibbles of a pair, and the pairs are those of the tail margin. -/
theorem tail_errors_pass_iff {p : LoraParams} (hcrc : p.hasCrc = true) {payload : List UInt8}
    (hn : 2 ≤ payload.length) {err : ℕ → ℕ} (hnib : ∀ i, err i < 16)
    (htail : TailErrors payload.length err) {ns : List ℕ}
    (hns : ∀ i < frameNibbles true payload.length,
      ns.getD i 0 = (nibbleStream p payload).getD i 0 ^^^ err i)
    {d : DecodeResult} (hd : d.header.hasCrc = true) (hlen : d.header.payloadLen = payload.length) :
    ((finishPayload ns d).crcOk = true ↔ ∀ pr ∈ tailPairs payload.length, err pr.1 = err pr.2) ∧
      ((finishPayload ns d).crcOk = true → (∃ i, err i ≠ 0) →
        ∃ pr ∈ tailPairs payload.length, err pr.1 ≠ 0 ∧ err pr.2 = err pr.1) ∧
      ∀ margins : List ℚ, SoftMath.tailMargin margins payload.length
        = (tailPairs payload.length).foldl (fun t pr =>
            min t (max (margins.getD pr.1 0) (margins.getD pr.2 0))) (10 ^ 300) := by
  obtain ⟨front, y, z, hpay⟩ : ∃ front y z, payload = front ++ [y, z] := by
    refine ⟨payload.take (payload.length - 2), payload[payload.length - 2],
      payload[payload.length - 1], ?_⟩
    have hdrop : payload.drop (payload.length - 2)
        = [payload[payload.length - 2], payload[payload.length - 1]] := by
      rw [List.drop_eq_getElem_cons (by omega), List.drop_eq_getElem_cons (by omega),
        List.drop_of_length_le (by omega)]
      congr 3
      omega
    rw [← hdrop, List.take_append_drop]
  have hflen : payload.length = front.length + 2 := by rw [hpay, List.length_append]; rfl
  have hlast : payload.length - 1 = front.length + 1 := by omega
  have hprev : payload.length - 2 = front.length := by omega
  have hpass : (finishPayload ns d).crcOk = true ↔
      ∀ pr ∈ tailPairs payload.length, err pr.1 = err pr.2 := by
    rw [crcOk_finishPayload ns hd, hlen, received_payload hns hpay htail,
      received_crc hcrc hns hnib, payloadCrc_flip hpay, UInt16.xor_assoc, UInt16.xor_right_inj,
      ← errBytes_eq_iff hnib hn, hlast, hprev]
    constructor
    · intro h
      obtain ⟨hprev, hlast⟩ := word_inj h
      exact ⟨hlast.symm, hprev.symm⟩
    · rintro ⟨hlast, hprev⟩
      rw [hlast, hprev]
  refine ⟨hpass, ?_, fun _ => rfl⟩
  rintro hok ⟨i, hi⟩
  have hpairs := hpass.mp hok
  obtain ⟨hlow, hhigh⟩ := htail i hi
  -- the flipped nibble is in some pair, and its partner is flipped too
  have hmem : ∃ pr ∈ tailPairs payload.length, pr.1 = i ∨ pr.2 = i := exists_tailPair hn hlow hhigh
  obtain ⟨pr, hpr, hor⟩ := hmem
  have heq := hpairs pr hpr
  refine ⟨pr, hpr, ?_, heq.symm⟩
  rcases hor with rfl | rfl
  · exact hi
  · rw [heq]
    exact hi

/-- A bit of the last byte but one, flipped together with its bit of the CRC. -/
def pairedFlip (i : ℕ) : ℕ := if i = 5 ∨ i = 11 then 1 else 0

theorem pairedFlip_passes :
    (finishPayload ((nibbleStream {} [0x41, 0x42]).mapIdx fun i n => n ^^^ pairedFlip i)
      { header := { valid := true, payloadLen := 2, cr := 1, hasCrc := true } }).crcOk = true := by
  have hnib : ∀ i, pairedFlip i < 16 := by
    intro i
    unfold pairedFlip
    split <;> omega
  have htail : TailErrors [(0x41 : UInt8), 0x42].length pairedFlip := by
    intro i hi
    unfold pairedFlip at hi
    show 5 ≤ i ∧ i < 13
    split at hi <;> omega
  have hns : ∀ i < frameNibbles true [(0x41 : UInt8), 0x42].length,
      ((nibbleStream {} [0x41, 0x42]).mapIdx fun i n => n ^^^ pairedFlip i).getD i 0
        = (nibbleStream {} [0x41, 0x42]).getD i 0 ^^^ pairedFlip i := by
    decide +kernel
  have h := tail_errors_pass_iff (p := {}) rfl (by decide) hnib htail hns
    (d := { header := { valid := true, payloadLen := 2, cr := 1, hasCrc := true } }) rfl rfl
  exact h.1.mpr (by decide)
