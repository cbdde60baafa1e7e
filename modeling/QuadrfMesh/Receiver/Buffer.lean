/-
# The sample buffer

`buf_`, `base_` and `next_abs_` of `Receiver` (`src/lora/receiver.cpp`): the samples kept
of a longer stream.  The receiver reaches them through the requests listed here, each
answered as the source computes it from the buffered samples alone.
-/
import QuadrfMesh.Lib.Asking
import QuadrfMesh.Receiver.Dsp

/-- `buf_` and `base_`; `next_abs_` is where the buffered samples end. -/
structure Buffer (α : Type) where
  base : ℕ := 0
  samples : List α := []

namespace Buffer

variable {α : Type}

def nextAbs (b : Buffer α) : ℕ := b.base + b.samples.length

/-- The insertion of `feed`. -/
def push (b : Buffer α) (chunk : List α) : Buffer α :=
  { b with samples := b.samples ++ chunk }

/-- `trimFront`. -/
def trimFront (b : Buffer α) (keepFromAbs : ℕ) : Buffer α :=
  if keepFromAbs ≤ b.base then b
  else
    let drop := min (keepFromAbs - b.base) b.samples.length
    { base := b.base + drop, samples := b.samples.drop drop }

/-- How much of the margin before `foundAbs` is still buffered, and the resample origin
that leaves (the head of `stepSync`): Catmull-Rom reads one sample before the window. -/
def resampleOrigin (b : Buffer α) (foundAbs half : ℕ) : ℕ × ℕ :=
  let back := min (foundAbs - b.base) half
  let origin := foundAbs - back
  if origin < b.base + 1 then
    (if b.base + 1 < foundAbs then foundAbs - (b.base + 1) else 0, b.base + 1)
  else (back, origin)

end Buffer

/-- What the receiver asks of its buffer.  Positions are absolute stream indices. -/
inductive Request where
  /-- `std::max(abs, base_)`. -/
  | clampScan (abs : ℕ)
  /-- `abs <= next_abs_`. -/
  | arrived (abs : ℕ)
  | trimFront (keepFromAbs : ℕ)
  | rawWindow (abs len : ℕ)
  | resampleOrigin (foundAbs half : ℕ)
  /-- The samples `preambleSlope` reads from `abs` on. -/
  | preamble (abs sps preambleLen : ℕ)
  /-- `pos - base_ >= 1.0`. -/
  | kept (pos : ℚ)
  /-- `posEnd - base_ < buf_.size()`. -/
  | before (posEnd : ℚ)
  | resample (pos ratio : ℚ) (count : ℕ)
  deriving DecidableEq

/-- The answers. -/
def Request.Answer (α : Type) : Request → Type
  | .clampScan _ => ℕ
  | .arrived _ => Bool
  | .trimFront _ => Unit
  | .rawWindow _ _ => List α
  | .resampleOrigin _ _ => ℕ × ℕ
  | .preamble _ _ _ => List α
  | .kept _ => Bool
  | .before _ => Bool
  | .resample _ _ _ => List α

/-- A computation that reads the stream through the buffer. -/
abbrev Reading (α β : Type) : Type := Asking Request (Request.Answer α) β

namespace Reading

variable {α : Type}

def clampScan (abs : ℕ) : Reading α ℕ := Asking.request (Request.clampScan abs)
def arrived (abs : ℕ) : Reading α Bool := Asking.request (Request.arrived abs)
def trimFront (keepFromAbs : ℕ) : Reading α Unit := Asking.request (Request.trimFront keepFromAbs)
def rawWindow (abs len : ℕ) : Reading α (List α) := Asking.request (Request.rawWindow abs len)
def resampleOrigin (foundAbs half : ℕ) : Reading α (ℕ × ℕ) :=
  Asking.request (Request.resampleOrigin foundAbs half)
def preamble (abs sps preambleLen : ℕ) : Reading α (List α) :=
  Asking.request (Request.preamble abs sps preambleLen)
def kept (pos : ℚ) : Reading α Bool := Asking.request (Request.kept pos)
def before (posEnd : ℚ) : Reading α Bool := Asking.request (Request.before posEnd)
def resample (pos ratio : ℚ) (count : ℕ) : Reading α (List α) :=
  Asking.request (Request.resample pos ratio count)

end Reading

namespace Buffer

variable {α : Type}

/-- The answer to a request. -/
def answer (tap : List α → ℚ → α) (b : Buffer α) : (q : Request) → q.Answer α
  | .clampScan abs => (max abs b.base : ℕ)
  | .arrived abs => (decide (abs ≤ b.nextAbs) : Bool)
  | .trimFront _ => ()
  | .rawWindow abs len => (b.samples.drop (abs - b.base)).take len
  | .resampleOrigin foundAbs half => b.resampleOrigin foundAbs half
  | .preamble abs sps preambleLen => preambleSamples sps preambleLen b.samples (abs - b.base)
  | .kept pos => decide (1 ≤ pos - b.base)
  | .before posEnd => decide (posEnd - b.base < b.samples.length)
  | .resample pos ratio count => resampleCatmullRom tap b.samples (pos - b.base) ratio count

/-- The buffer as a server: only `trimFront` changes it. -/
def serve (tap : List α → ℚ → α) (b : Buffer α) (q : Request) : q.Answer α × Buffer α :=
  (b.answer tap q,
    match q with
    | .trimFront keepFromAbs => b.trimFront keepFromAbs
    | _ => b)

end Buffer

/-! ## The buffer as a part of the stream -/

namespace Request

/-- The positions of a window. -/
def window (abs len : ℕ) : List ℤ := (List.range len).map fun i : ℕ => ((abs + i : ℕ) : ℤ)

/-- The windows `preambleSlope` looks at, as far as the stream goes. -/
def preambleWindow (abs sps preambleLen : ℕ) : List ℤ :=
  window abs ((if preambleLen = 0 then 2 ^ 64 - 1 else preambleLen - 1) * sps)

/-- The outermost taps of every output. -/
def taps (pos ratio : ℚ) (count : ℕ) : List ℤ :=
  (List.range count).flatMap fun k : ℕ => [⌊pos + k * ratio⌋ - 1, ⌊pos + k * ratio⌋ + 2]

/-- The stream positions a request needs not let go of yet. -/
def behind : Request → List ℤ
  | .clampScan abs => [(abs : ℤ)]
  | .rawWindow abs len => window abs len
  | .resampleOrigin foundAbs half => (List.range (half + 2)).map fun i : ℕ => (foundAbs : ℤ) - i
  | .preamble abs sps preambleLen => preambleWindow abs sps preambleLen
  | .kept pos => [⌊pos⌋ - 1]
  | .resample pos ratio count => taps pos ratio count
  | _ => []

/-- The stream positions a request needs arrived. -/
def ahead : Request → List ℤ
  | .arrived abs => [(abs : ℤ) - 1]
  | .rawWindow abs len => window abs len
  | .preamble abs sps preambleLen => preambleWindow abs sps preambleLen
  | .before posEnd => [⌊posEnd⌋]
  | .resample pos ratio count => taps pos ratio count
  | _ => []

end Request

namespace Buffer

variable {α : Type}

/-- A request is refused no sample of a stream of length `len`. -/
def Settled (len : ℕ) (b : Buffer α) (q : Request) : Prop :=
  (∀ i ∈ q.behind, 0 ≤ i → i < len → (b.base : ℤ) ≤ i) ∧
    ∀ i ∈ q.ahead, 0 ≤ i → i < len → i < b.nextAbs

instance (len : ℕ) (b : Buffer α) (q : Request) : Decidable (Settled len b q) :=
  inferInstanceAs (Decidable ((∀ i ∈ q.behind, 0 ≤ i → i < len → (b.base : ℤ) ≤ i) ∧
    ∀ i ∈ q.ahead, 0 ≤ i → i < len → i < b.nextAbs))

/-- The buffer holds `stream` from `base` on, up to the samples `rest` still to come. -/
structure Sees (b : Buffer α) (rest stream : List α) : Prop where
  base_le : b.base ≤ stream.length
  drop_eq : stream.drop b.base = b.samples ++ rest

/-- A buffer that never let go of anything. -/
def whole (stream : List α) : Buffer α := { samples := stream }

section Sees

variable {b : Buffer α} {rest stream : List α} (h : b.Sees rest stream)
include h

theorem Sees.nextAbs_add : b.nextAbs + rest.length = stream.length := by
  have hlen := congrArg List.length h.drop_eq
  rw [List.length_drop, List.length_append] at hlen
  have := h.base_le
  unfold nextAbs
  omega

theorem Sees.trimFront (keep : ℕ) : (b.trimFront keep).Sees rest stream := by
  unfold Buffer.trimFront
  split
  · exact h
  · have hnext := h.nextAbs_add
    unfold nextAbs at hnext
    refine ⟨by simp only; omega, ?_⟩
    simp only
    rw [← List.drop_drop, h.drop_eq, List.drop_append_of_le_length (Nat.min_le_right _ _)]

omit h in
theorem Sees.push {chunk : List α} (h : b.Sees (chunk ++ rest) stream) :
    (b.push chunk).Sees rest stream := by
  refine ⟨h.base_le, ?_⟩
  show stream.drop b.base = b.samples ++ chunk ++ rest
  rw [h.drop_eq, List.append_assoc]

/-- The buffer keeps seeing the stream whatever it is asked. -/
theorem Sees.serve (tap : List α → ℚ → α) (q : Request) : (b.serve tap q).2.Sees rest stream := by
  cases q with
  | trimFront keep => exact h.trimFront keep
  | clampScan | arrived | rawWindow | resampleOrigin | preamble | kept | before | resample => exact h

/-- A window the buffer holds, or that ends with the stream, is that of the stream. -/
theorem Sees.window (abs len : ℕ) (hbase : b.base ≤ abs)
    (hend : abs + len ≤ b.nextAbs ∨ b.nextAbs = stream.length) :
    (b.samples.drop (abs - b.base)).take len = (stream.drop abs).take len := by
  have hnext := h.nextAbs_add
  have hdrop : stream.drop abs = (b.samples ++ rest).drop (abs - b.base) := by
    rw [← h.drop_eq, List.drop_drop]
    congr 1
    omega
  rw [hdrop, List.drop_append, List.take_append]
  rcases hend with hend | hend
  · have hzero : len - (b.samples.drop (abs - b.base)).length = 0 := by
      rw [List.length_drop]
      unfold nextAbs at hend
      omega
    rw [hzero, List.take_zero, List.append_nil]
  · have hnil : rest = [] := List.eq_nil_of_length_eq_zero (by omega)
    rw [hnil, List.drop_nil, List.take_nil, List.append_nil]

/-! ### Requests the buffer settles -/

theorem Sees.clampScan_eq (abs : ℕ) (hs : b.Settled stream.length (.clampScan abs)) :
    max abs b.base = max abs 0 := by
  have hle := h.base_le
  rcases Nat.lt_or_ge abs stream.length with hlt | hge
  · have := hs.1 abs (List.mem_singleton.mpr rfl) (by omega) (by omega)
    omega
  · omega

theorem Sees.arrived_iff (abs : ℕ) (hs : b.Settled stream.length (.arrived abs)) :
    abs ≤ b.nextAbs ↔ abs ≤ stream.length := by
  have hnext := h.nextAbs_add
  constructor
  · intro habs
    omega
  · intro habs
    rcases Nat.eq_zero_or_pos abs with h0 | h0
    · omega
    · have := hs.2 (abs - 1) (List.mem_singleton.mpr rfl) (by omega) (by omega)
      omega

theorem Sees.rawWindow_eq (abs len : ℕ) (hs : b.Settled stream.length (.rawWindow abs len)) :
    (b.samples.drop (abs - b.base)).take len = (stream.drop abs).take len := by
  have hnext := h.nextAbs_add
  have hwant : ∀ i < len, abs + i < stream.length → b.base ≤ abs + i ∧ abs + i < b.nextAbs := by
    intro i hi hlt
    have hmem : ((abs + i : ℕ) : ℤ) ∈ Request.window abs len :=
      List.mem_map.mpr ⟨i, List.mem_range.mpr hi, rfl⟩
    have hkept := hs.1 _ hmem (by omega) (by omega)
    have hcome := hs.2 _ hmem (by omega) (by omega)
    omega
  rcases Nat.eq_zero_or_pos len with h0 | h0
  · rw [h0, List.take_zero, List.take_zero]
  · rcases Nat.lt_or_ge abs stream.length with hlt | hge
    · refine h.window abs len (hwant 0 h0 hlt).1 ?_
      rcases Nat.lt_or_ge (abs + len) stream.length with hin | hout
      · have := (hwant (len - 1) (by omega) (by omega)).2
        left
        omega
      · have := (hwant (stream.length - 1 - abs) (by omega) (by omega)).2
        right
        omega
    · have hbase := h.base_le
      unfold nextAbs at hnext
      rw [List.drop_eq_nil_of_le (by omega), List.drop_eq_nil_of_le hge]

theorem Sees.resampleOrigin_eq (foundAbs half : ℕ)
    (hs : b.Settled stream.length (.resampleOrigin foundAbs half)) :
    b.resampleOrigin foundAbs half = (whole stream).resampleOrigin foundAbs half := by
  have hbase := h.base_le
  have hwant : ∀ i ≤ half + 1, i ≤ foundAbs → foundAbs - i < stream.length →
      b.base ≤ foundAbs - i := by
    intro i hi hle hlt
    have := hs.1 ((foundAbs : ℤ) - i)
      (List.mem_map.mpr ⟨i, List.mem_range.mpr (by omega), rfl⟩) (by omega) (by omega)
    omega
  -- the margin is all there, or the stream starts inside it
  have hcases : b.base + half + 1 ≤ foundAbs ∨ b.base = 0 := by
    rcases Nat.lt_or_ge foundAbs (half + 1) with hlt | hge
    · right
      rcases Nat.eq_zero_or_pos stream.length with h0 | h0
      · omega
      · have := hwant foundAbs (by omega) le_rfl (by omega)
        omega
    · left
      rcases Nat.lt_or_ge (foundAbs - (half + 1)) stream.length with hin | hout
      · have := hwant (half + 1) le_rfl hge hin
        omega
      · omega
  have hwhole : (whole stream).base = 0 := rfl
  unfold resampleOrigin
  rw [hwhole]
  rcases hcases with hfar | hzero
  · have hback : min (foundAbs - b.base) half = min (foundAbs - 0) half := by omega
    simp only [hback]
    rw [if_neg (by omega), if_neg (by omega)]
  · rw [hzero]

theorem Sees.preamble_eq (abs sps preambleLen : ℕ)
    (hs : b.Settled stream.length (.preamble abs sps preambleLen)) :
    preambleSamples sps preambleLen b.samples (abs - b.base)
      = preambleSamples sps preambleLen stream abs := by
  have hnext := h.nextAbs_add
  have hbase := h.base_le
  unfold preambleSamples
  set wanted := if preambleLen = 0 then 2 ^ 64 - 1 else preambleLen - 1
  have hwant : ∀ i < wanted * sps, abs + i < stream.length →
      b.base ≤ abs + i ∧ abs + i < b.nextAbs := by
    intro i hi hlt
    have hmem : ((abs + i : ℕ) : ℤ) ∈ Request.preambleWindow abs sps preambleLen :=
      List.mem_map.mpr ⟨i, List.mem_range.mpr hi, rfl⟩
    have hkept := hs.1 _ hmem (by omega) (by omega)
    have hcome := hs.2 _ hmem (by omega) (by omega)
    omega
  have hraw : ∀ n ≤ wanted * sps,
      (b.samples.drop (abs - b.base)).take n = (stream.drop abs).take n := by
    intro n hn
    refine h.rawWindow_eq abs n ⟨?_, ?_⟩
    all_goals
      intro j hj hj0 hlt
      obtain ⟨i, hi, rfl⟩ := List.mem_map.mp hj
      have := hwant i (lt_of_lt_of_le (List.mem_range.mp hi) hn) (by omega)
      omega
  -- as many whole windows are there as the stream has
  have hcount : min wanted ((b.samples.length - (abs - b.base)) / sps)
      = min wanted ((stream.length - abs) / sps) := by
    rcases Nat.eq_zero_or_pos (wanted * sps) with h0 | h0
    · rcases Nat.mul_eq_zero.mp h0 with h1 | h1
      · rw [h1, Nat.zero_min, Nat.zero_min]
      · rw [h1, Nat.div_zero, Nat.div_zero]
    · have hlen := congrArg List.length (hraw (wanted * sps) le_rfl)
      simp only [List.length_take, List.length_drop] at hlen
      have hsps : 0 < sps := Nat.pos_of_mul_pos_left h0
      rcases le_total (wanted * sps) (stream.length - abs) with hge | hle
      · have h1 : wanted ≤ (stream.length - abs) / sps := (Nat.le_div_iff_mul_le hsps).mpr hge
        have h2 : wanted ≤ (b.samples.length - (abs - b.base)) / sps :=
          (Nat.le_div_iff_mul_le hsps).mpr (by omega)
        omega
      · rcases Nat.lt_or_ge (b.samples.length - (abs - b.base)) (wanted * sps) with hlt | hge'
        · rw [show b.samples.length - (abs - b.base) = stream.length - abs by omega]
        · have h1 : wanted ≤ (stream.length - abs) / sps :=
            (Nat.le_div_iff_mul_le hsps).mpr (by omega)
          have h2 : wanted ≤ (b.samples.length - (abs - b.base)) / sps :=
            (Nat.le_div_iff_mul_le hsps).mpr hge'
          omega
  simp only [hcount]
  exact hraw _ (Nat.mul_le_mul_right _ (Nat.min_le_left _ _))

theorem Sees.kept_iff (pos : ℚ) (hs : b.Settled stream.length (.kept pos)) :
    1 ≤ pos - b.base ↔ 1 ≤ pos - (0 : ℕ) := by
  have hbase := h.base_le
  have hfloor : ∀ n : ℕ, 1 ≤ pos - n ↔ (n : ℤ) + 1 ≤ ⌊pos⌋ := by
    intro n
    rw [Int.le_floor]
    push_cast
    constructor <;> intro hn <;> linarith
  rw [hfloor, hfloor]
  constructor
  · intro hpos
    omega
  · intro hpos
    rcases lt_or_ge (⌊pos⌋ - 1) (stream.length : ℤ) with hlt | hge
    · have := hs.1 _ (List.mem_singleton.mpr rfl) (by omega) hlt
      omega
    · omega

theorem Sees.before_iff (posEnd : ℚ) (hs : b.Settled stream.length (.before posEnd)) :
    posEnd - b.base < b.samples.length ↔ posEnd - (0 : ℕ) < stream.length := by
  have hnext := h.nextAbs_add
  have hfloor : ∀ m n : ℕ, posEnd - m < n ↔ ⌊posEnd⌋ < (m : ℤ) + n := by
    intro m n
    rw [Int.floor_lt]
    push_cast
    constructor <;> intro hn <;> linarith
  rw [hfloor, hfloor]
  unfold nextAbs at hnext
  constructor
  · intro hend
    omega
  · intro hend
    rcases lt_or_ge ⌊posEnd⌋ 0 with hneg | hpos
    · omega
    · have := hs.2 _ (List.mem_singleton.mpr rfl) hpos (by omega)
      unfold nextAbs at this
      omega

theorem Sees.resampleFrom_eq (tap : List α → ℚ → α) (pos ratio : ℚ) (count k : ℕ)
    (hs : ∀ j < count, ∀ i ∈ [⌊pos + ((k + j : ℕ) : ℚ) * ratio⌋ - 1,
      ⌊pos + ((k + j : ℕ) : ℚ) * ratio⌋ + 2],
      0 ≤ i → i < stream.length → (b.base : ℤ) ≤ i ∧ i < b.nextAbs) :
    resampleFrom tap b.samples b.samples.length (pos - b.base) ratio count k
      = resampleFrom tap stream stream.length (pos - (0 : ℕ)) ratio count k := by
  have hnext := h.nextAbs_add
  have hbase := h.base_le
  induction count generalizing k with
  | zero => rfl
  | succ count ih =>
      have hwant := hs 0 (by omega)
      rw [add_zero] at hwant
      have hrest := ih (k + 1) (fun j hj => by
        have := hs (j + 1) (by omega)
        rwa [show k + (j + 1) = k + 1 + j by omega] at this)
      have hpos : pos - b.base + k * ratio = pos + k * ratio - (b.base : ℤ) := by
        push_cast
        ring
      have hpos0 : pos - (0 : ℕ) + k * ratio = pos + k * ratio := by
        push_cast
        ring
      rw [resampleFrom, resampleFrom]
      simp only [hpos, hpos0, Int.floor_sub_intCast, hrest]
      set i1 := ⌊pos + k * ratio⌋ with hi1
      have hlow := hwant (i1 - 1) (by simp)
      have hhigh := hwant (i1 + 2) (by simp)
      unfold nextAbs at hnext hlow hhigh
      -- the taps lie inside the stream, or neither side reads them
      by_cases hin : i1 < 1 ∨ (stream.length : ℤ) ≤ i1 + 2
      · rw [if_pos hin, if_pos (by omega)]
      · obtain ⟨hin1, hin2⟩ := not_or.mp hin
        have h1 := hlow (by omega) (by omega)
        have h2 := hhigh (by omega) (by omega)
        rw [if_neg hin, if_neg (by omega)]
        have hwin := h.window (i1 - 1).toNat 4 (by omega) (Or.inl (by unfold nextAbs; omega))
        rw [show (i1 - b.base - 1).toNat = (i1 - 1).toNat - b.base by omega, hwin]
        congr 2
        push_cast
        ring

/-- **A settled request** is answered as if the whole stream were buffered. -/
theorem Sees.answer_eq (tap : List α → ℚ → α) (q : Request) (hs : b.Settled stream.length q) :
    b.answer tap q = (whole stream).answer tap q := by
  cases q with
  | clampScan abs => exact h.clampScan_eq abs hs
  | arrived abs =>
      have hwhole : (whole stream).nextAbs = stream.length := Nat.zero_add _
      show decide _ = decide _
      rw [hwhole]
      exact decide_eq_decide.mpr (h.arrived_iff abs hs)
  | trimFront keep => rfl
  | rawWindow abs len => exact h.rawWindow_eq abs len hs
  | resampleOrigin foundAbs half => exact h.resampleOrigin_eq foundAbs half hs
  | preamble abs sps preambleLen => exact h.preamble_eq abs sps preambleLen hs
  | kept pos => exact decide_eq_decide.mpr (h.kept_iff pos hs)
  | before posEnd => exact decide_eq_decide.mpr (h.before_iff posEnd hs)
  | resample pos ratio count =>
      refine h.resampleFrom_eq tap pos ratio count 0 ?_
      intro j hj i hi
      rw [Nat.zero_add] at hi
      have hmem : i ∈ Request.taps pos ratio count :=
        List.mem_flatMap.mpr ⟨j, List.mem_range.mpr hj, hi⟩
      exact fun h0 hlt => ⟨hs.1 i hmem h0 hlt, hs.2 i hmem h0 hlt⟩

end Sees
end Buffer
