/-
# StreamAPI framing (`src/stream/framer.cpp`)

Two start bytes, the payload length in two bytes, and the payload.  A parser that looks
for a start is brought to the length by any number of first start bytes and a second one
(`feed_header`); with the bytes that announce a payload or are passed over told apart
(`Passed`), the first payload it emits is the first the stream holds (`exists_frame`,
`completes`).
-/
import Mathlib
import QuadrfMesh.Lib.Streaming

namespace StreamApi

open Streaming

def kStart1 : UInt8 := 0x94
def kStart2 : UInt8 := 0xC3
def kMaxPayload : ℕ := 512

/-- The header of a payload of length `len`. -/
def header (len : ℕ) : List UInt8 :=
  [kStart1, kStart2, UInt8.ofNat ((len >>> 8) &&& 0xFF), UInt8.ofNat (len &&& 0xFF)]

/-- `frame`; `none` where it returns false. -/
def frame (payload : List UInt8) : Option (List UInt8) :=
  if kMaxPayload < payload.length then none else some (header payload.length ++ payload)

/-- The length two bytes announce. -/
def announced (hi lo : UInt8) : ℕ := (hi.toNat <<< 8) ||| lo.toNat

/-- `enum class State`. -/
inductive DeframerState
  | scanStart1 | expectStart2 | lenHi | lenLo | payload
  deriving DecidableEq, Repr

/-- `class Deframer`. -/
structure Deframer where
  state : DeframerState := .scanStart1
  len : ℕ := 0
  buf : List UInt8 := []
  framesOk : ℕ := 0
  framesRejected : ℕ := 0
  deriving DecidableEq, Repr

namespace Deframer

/-- `reset`. -/
def reset (d : Deframer) : Deframer := { d with state := .scanStart1, len := 0, buf := [] }

/-- The body of `feed`'s loop: one byte. -/
def feedByte (d : Deframer) (b : UInt8) : Deframer × List (List UInt8) :=
  match d.state with
  | .scanStart1 => (if b = kStart1 then { d with state := .expectStart2 } else d, [])
  | .expectStart2 =>
      (if b = kStart2 then { d with state := .lenHi }
        -- a wake byte, or a second first start byte
        else if b = kStart1 then d
        else { d with state := .scanStart1 }, [])
  | .lenHi => ({ d with len := b.toNat <<< 8, state := .lenLo }, [])
  | .lenLo =>
      let len := d.len ||| b.toNat
      if kMaxPayload < len then
        ({ d with framesRejected := d.framesRejected + 1, state := .scanStart1, len := 0 }, [])
      else if len = 0 then
        ({ d with framesOk := d.framesOk + 1, state := .scanStart1, len }, [[]])
      else ({ d with buf := [], state := .payload, len }, [])
  | .payload =>
      let buf := d.buf ++ [b]
      if d.len ≤ buf.length then
        ({ d with buf := [], framesOk := d.framesOk + 1, state := .scanStart1, len := 0 }, [buf])
      else ({ d with buf }, [])

/-- `feed`: the parser after a run of bytes, and the payloads it emitted. -/
def feed : Deframer → List UInt8 → Deframer × List (List UInt8) := scan feedByte

/-- **Feeding two runs of bytes is feeding them joined.** -/
theorem splits_feed : Splits feed := splits_scan feedByte

theorem feed_cons (d : Deframer) (b : UInt8) (bs : List UInt8) :
    d.feed (b :: bs) = (((d.feedByte b).1.feed bs).1, (d.feedByte b).2 ++ ((d.feedByte b).1.feed bs).2) :=
  rfl

/-- The states that look for the start of a frame. -/
def Seeking (d : Deframer) : Prop := d.state = .scanStart1 ∨ d.state = .expectStart2

end Deframer

/-! ## The length of a payload -/

theorem announced_eq (hi lo : UInt8) : announced hi lo = 256 * hi.toNat + lo.toNat := by
  unfold announced
  rw [← Nat.shiftLeft_add_eq_or_of_lt lo.toNat_lt, Nat.shiftLeft_eq, Nat.mul_comm]

theorem announced_lt (hi lo : UInt8) : announced hi lo < 65536 := by
  have h1 := hi.toNat_lt
  have h2 := lo.toNat_lt
  rw [announced_eq]
  omega

/-- The bytes of a length, as remainders. -/
theorem header_eq (len : ℕ) :
    header len = [kStart1, kStart2, UInt8.ofNat (len / 256 % 256), UInt8.ofNat (len % 256)] := by
  have hlow : ∀ n, n &&& 0xFF = n % 256 := fun n => Nat.and_two_pow_sub_one_eq_mod n 8
  rw [header, hlow, hlow, Nat.shiftRight_eq_div_pow]

/-- The bytes of a length announce it. -/
theorem announced_header {len : ℕ} (h : len < 65536) :
    announced (UInt8.ofNat (len / 256 % 256)) (UInt8.ofNat (len % 256)) = len := by
  rw [announced_eq, UInt8.toNat_ofNat', UInt8.toNat_ofNat']
  omega

/-- A header is determined by the length it announces. -/
theorem header_announced (hi lo : UInt8) :
    header (announced hi lo) = [kStart1, kStart2, hi, lo] := by
  have h1 := hi.toNat_lt
  have h2 := lo.toNat_lt
  have hhi : UInt8.ofNat (announced hi lo / 256 % 256) = hi := by
    apply UInt8.toNat_inj.mp
    rw [UInt8.toNat_ofNat', announced_eq]
    omega
  have hlo : UInt8.ofNat (announced hi lo % 256) = lo := by
    apply UInt8.toNat_inj.mp
    rw [UInt8.toNat_ofNat', announced_eq]
    omega
  rw [header_eq, hhi, hlo]

theorem frame_eq_none_iff (payload : List UInt8) :
    frame payload = none ↔ 512 < payload.length := by
  unfold frame kMaxPayload
  split_ifs with h
  · exact ⟨fun _ => h, fun _ => rfl⟩
  · exact ⟨fun hn => absurd hn (by simp), fun hn => absurd hn h⟩

theorem frame_of_le {payload : List UInt8} (h : payload.length ≤ kMaxPayload) :
    frame payload = some (header payload.length ++ payload) := if_neg (by omega)

namespace Deframer

/-! ## One frame -/

/-- The first start byte, read while seeking. -/
theorem feedByte_start1 {d : Deframer} (h : d.Seeking) :
    d.feedByte kStart1 = ({ d with state := .expectStart2 }, []) := by
  unfold feedByte
  rcases h with h | h
  · rw [h]
    rfl
  · rw [h]
    obtain ⟨state, _, _, _, _⟩ := d
    cases h
    rfl

/-- The start and the first byte of the length, read while seeking. -/
theorem feed_start {d : Deframer} (h : d.Seeking) (hi : UInt8) :
    d.feed [kStart1, kStart2, hi] = ({ d with state := .lenLo, len := hi.toNat <<< 8 }, []) := by
  rw [feed_cons, feedByte_start1 h]
  rfl

/-- The last byte of a length that is too large. -/
theorem feedByte_oversize {d : Deframer} {hi lo : UInt8} (hst : d.state = .lenLo)
    (hlen : d.len = hi.toNat <<< 8) (h : kMaxPayload < announced hi lo) :
    d.feedByte lo
      = ({ d with framesRejected := d.framesRejected + 1, state := .scanStart1, len := 0 }, []) := by
  unfold feedByte
  rw [hst, hlen]
  exact if_pos h

theorem feedByte_zero {d : Deframer} {hi lo : UInt8} (hst : d.state = .lenLo)
    (hlen : d.len = hi.toNat <<< 8) (h : announced hi lo = 0) :
    d.feedByte lo
      = ({ d with framesOk := d.framesOk + 1, state := .scanStart1, len := 0 }, [[]]) := by
  have hle : ¬ kMaxPayload < announced hi lo := by
    rw [h]
    decide
  have hzero : (hi.toNat <<< 8) ||| lo.toNat = 0 := h
  unfold announced at hle
  unfold feedByte
  rw [hst, hlen]
  simp only
  rw [if_neg hle, if_pos hzero, hzero]

theorem feedByte_lenLo {d : Deframer} {hi lo : UInt8} (hst : d.state = .lenLo)
    (hlen : d.len = hi.toNat <<< 8) (hle : announced hi lo ≤ kMaxPayload)
    (hpos : 0 < announced hi lo) :
    d.feedByte lo = ({ d with buf := [], state := .payload, len := announced hi lo }, []) := by
  unfold announced at hle hpos
  unfold feedByte
  rw [hst, hlen]
  simp only
  rw [if_neg (by omega), if_neg (by omega)]
  rfl

/-- Bytes that do not fill the payload. -/
theorem feed_payload_part {d : Deframer} (h : d.state = .payload) (bs : List UInt8)
    (hlen : d.buf.length + bs.length < d.len) :
    d.feed bs = ({ d with buf := d.buf ++ bs }, []) := by
  induction bs generalizing d with
  | nil =>
      rw [List.append_nil]
      rfl
  | cons b bs ih =>
      rw [List.length_cons] at hlen
      have hbyte : d.feedByte b = ({ d with buf := d.buf ++ [b] }, []) := by
        unfold feedByte
        rw [h]
        simp only [List.length_append, List.length_singleton]
        rw [if_neg (by omega)]
      have hrest := ih (d := { d with buf := d.buf ++ [b] }) h
        (by simp only [List.length_append, List.length_singleton]; omega)
      rw [feed_cons, hbyte]
      simp only
      rw [hrest, List.append_assoc]
      rfl

/-- The byte that fills the payload. -/
theorem feedByte_payload_full {d : Deframer} (h : d.state = .payload) (b : UInt8)
    (hlen : d.buf.length + 1 = d.len) :
    d.feedByte b
      = ({ d with buf := [], framesOk := d.framesOk + 1, state := .scanStart1, len := 0 },
          [d.buf ++ [b]]) := by
  unfold feedByte
  rw [h]
  simp only [List.length_append, List.length_singleton]
  rw [if_pos (by omega)]

/-- The header of an empty payload. -/
theorem feed_header_zero {d : Deframer} (h : d.Seeking) :
    d.feed (header 0)
      = ({ d with framesOk := d.framesOk + 1, state := .scanStart1, len := 0 }, [[]]) := by
  have hann : announced (UInt8.ofNat (0 / 256 % 256)) (UInt8.ofNat (0 % 256)) = 0 :=
    announced_header (by decide)
  have hbyte := feedByte_zero (d := { d with state := .lenLo, len := _ }) rfl rfl hann
  have hhead : header 0 = [kStart1, kStart2, UInt8.ofNat (0 / 256 % 256)] ++ [UInt8.ofNat (0 % 256)] :=
    header_eq 0
  rw [hhead, splits_feed, feed_start h]
  simp only
  rw [feed_cons, hbyte]
  rfl

/-- The header of a payload that is not empty. -/
theorem feed_header_pos {d : Deframer} (h : d.Seeking) {len : ℕ} (hpos : 0 < len)
    (hle : len ≤ kMaxPayload) :
    d.feed (header len) = ({ d with buf := [], state := .payload, len := len }, []) := by
  have hann := announced_header (lt_of_le_of_lt hle (by decide : kMaxPayload < 65536))
  have hbyte := feedByte_lenLo (d := { d with state := .lenLo, len := _ }) rfl rfl
    (by rw [hann]; exact hle) (by rw [hann]; exact hpos)
  have hhead : header len
      = [kStart1, kStart2, UInt8.ofNat (len / 256 % 256)] ++ [UInt8.ofNat (len % 256)] :=
    header_eq len
  rw [hhead, splits_feed, feed_start h]
  simp only
  rw [feed_cons, hbyte, hann]
  rfl

/-- **A whole frame** read while seeking: its payload comes out with its last byte, and the
parser starts over. -/
theorem completes_frame {d : Deframer} (h : d.Seeking) {payload : List UInt8}
    (hlen : payload.length ≤ kMaxPayload) :
    Completes feed d (header payload.length ++ payload) payload ∧
      (d.feed (header payload.length ++ payload)).1.state = .scanStart1 := by
  rcases List.eq_nil_or_concat' payload with rfl | ⟨init, last, rfl⟩
  · -- an empty payload comes out with the length
    have hfeed := feed_header_zero h
    have hinit := feed_start h (UInt8.ofNat (0 / 256 % 256))
    rw [List.append_nil, List.length_nil, hfeed]
    exact ⟨⟨_, _, header_eq 0, by rw [hinit], by rw [hfeed]⟩, rfl⟩
  · have hl : (init ++ [last]).length = init.length + 1 := List.length_append
    have hhdr := feed_header_pos h (by rw [hl]; exact Nat.succ_pos _) hlen
    have hinit : d.feed (header (init ++ [last]).length ++ init)
        = ({ d with buf := init, state := .payload, len := (init ++ [last]).length }, []) := by
      rw [splits_feed, hhdr]
      simp only
      rw [feed_payload_part rfl init (by simp only [List.length_nil, hl]; omega)]
      rfl
    have hfull : d.feed (header (init ++ [last]).length ++ (init ++ [last]))
        = ({ d with buf := [], framesOk := d.framesOk + 1, state := .scanStart1, len := 0 },
            [init ++ [last]]) := by
      rw [← List.append_assoc, splits_feed, hinit]
      simp only
      rw [feed_cons, feedByte_payload_full rfl last (by simp only [hl])]
      rfl
    rw [hfull]
    exact ⟨⟨_, last, (List.append_assoc ..).symm, by rw [hinit], by rw [hfull]⟩, rfl⟩

/-! ## Bytes that are passed over -/

/-- Bytes that hold no frame: whatever is started announces too much, and nothing is left
started. -/
inductive Passed : List UInt8 → Prop
  | nil : Passed []
  | byte {b : UInt8} {bs : List UInt8} (h : b = kStart1 → bs.head? ≠ some kStart2)
      (hbs : Passed bs) : Passed (b :: bs)
  | oversize {hi lo : UInt8} {bs : List UInt8} (h : kMaxPayload < announced hi lo)
      (hbs : Passed bs) : Passed (kStart1 :: kStart2 :: hi :: lo :: bs)

/-- Bytes without a first start byte, then wake bytes. -/
theorem passed_gap {gap : List UInt8} (hgap : kStart1 ∉ gap) (wakes : ℕ) :
    Passed (gap ++ List.replicate wakes kStart1) := by
  induction gap with
  | nil =>
      rw [List.nil_append]
      induction wakes with
      | zero => exact Passed.nil
      | succ n ih =>
          rw [List.replicate_succ]
          refine Passed.byte (fun _ => ?_) ih
          cases n with
          | zero => exact fun hnone => absurd hnone (by simp)
          | succ n => exact fun hsome => absurd (Option.some.inj hsome) (by decide)
  | cons b gap ih =>
      rw [List.mem_cons, not_or] at hgap
      exact Passed.byte (fun hb => absurd hb.symm hgap.1) (ih hgap.2)

/-- The state is ready for `bs`: a first start byte just read is not followed by a second. -/
def Before (d : Deframer) (bs : List UInt8) : Prop :=
  d.Seeking ∧ (d.state = .expectStart2 → bs.head? ≠ some kStart2)

/-- One byte passed over. -/
theorem feedByte_before {d : Deframer} {b : UInt8} {bs : List UInt8} (h : d.Before (b :: bs))
    (hb : b = kStart1 → bs.head? ≠ some kStart2) :
    (d.feedByte b).2 = [] ∧ (d.feedByte b).1.Before bs := by
  obtain ⟨hseek, hexp⟩ := h
  by_cases hb1 : b = kStart1
  · rw [hb1, feedByte_start1 hseek]
    exact ⟨rfl, Or.inr rfl, fun _ => hb hb1⟩
  · unfold feedByte
    rcases hseek with hst | hst
    · rw [hst]
      simp only
      rw [if_neg hb1]
      exact ⟨trivial, Or.inl hst, fun hst' => absurd (hst.symm.trans hst') (by decide)⟩
    · have hb2 : b ≠ kStart2 := fun hb2 => hexp hst (by rw [hb2]; rfl)
      rw [hst]
      simp only
      rw [if_neg hb2, if_neg hb1]
      exact ⟨trivial, Or.inl rfl, fun hst' => absurd hst' (by simp)⟩

/-- A start that announces too much. -/
theorem feed_oversize {d : Deframer} (h : d.Seeking) {hi lo : UInt8}
    (hlen : kMaxPayload < announced hi lo) (bs : List UInt8) :
    (d.feed [kStart1, kStart2, hi, lo]).2 = [] ∧
      (d.feed [kStart1, kStart2, hi, lo]).1.Before bs := by
  have hbyte := feedByte_oversize (d := { d with state := .lenLo, len := hi.toNat <<< 8 }) rfl rfl
    hlen
  have hsplit : [kStart1, kStart2, hi, lo] = [kStart1, kStart2, hi] ++ [lo] := rfl
  rw [hsplit, splits_feed, feed_start h hi]
  simp only
  rw [feed_cons, hbyte]
  exact ⟨rfl, Or.inl rfl, fun hst => absurd hst (by simp [feed, scan])⟩

/-- A parser that starts over is ready for anything. -/
theorem before_of_scan {d : Deframer} (h : d.state = .scanStart1) (bs : List UInt8) :
    d.Before bs :=
  ⟨Or.inl h, fun hexp => absurd (h.symm.trans hexp) (by decide)⟩

theorem feed_passed {bs : List UInt8} (h : Passed bs) {d : Deframer} (hd : d.Before bs) :
    (d.feed bs).2 = [] ∧ (d.feed bs).1.Seeking := by
  induction h generalizing d with
  | nil => exact ⟨rfl, hd.1⟩
  | byte hb _ ih =>
      obtain ⟨hout, hbefore⟩ := feedByte_before hd hb
      rw [feed_cons, hout]
      exact ih hbefore
  | @oversize hi lo bs hlen _ ih =>
      obtain ⟨hout, hbefore⟩ := feed_oversize hd.1 hlen bs
      have hsplit : kStart1 :: kStart2 :: hi :: lo :: bs = [kStart1, kStart2, hi, lo] ++ bs := rfl
      rw [hsplit, splits_feed, hout]
      exact ih hbefore

/-- **The first frame after bytes that are passed over.** -/
theorem completes {d : Deframer} {stray payload : List UInt8} (hd : d.Before stray)
    (hstray : Passed stray) (hlen : payload.length ≤ kMaxPayload) :
    Completes feed d (stray ++ (header payload.length ++ payload)) payload ∧
      (d.feed (stray ++ (header payload.length ++ payload))).1.state = .scanStart1 := by
  obtain ⟨hout, hseek⟩ := feed_passed hstray hd
  obtain ⟨⟨init, last, hcut, hinit, hfull⟩, hstate⟩ := completes_frame hseek hlen
  rw [splits_feed, hout]
  refine ⟨⟨stray ++ init, last, by rw [hcut, List.append_assoc], ?_, ?_⟩, hstate⟩
  · rw [splits_feed, hout]
    exact hinit
  · rw [splits_feed, hout]
    exact hfull

/-- `bs` holds a frame after bytes that are passed over. -/
def HasFrame (bs : List UInt8) : Prop :=
  ∃ stray payload rest, Passed stray ∧ payload.length ≤ kMaxPayload ∧
    bs = stray ++ (header payload.length ++ payload) ++ rest

/-- A byte passed over before a frame. -/
theorem HasFrame.byte {b : UInt8} {bs : List UInt8} (hb : b = kStart1 → bs.head? ≠ some kStart2)
    (h : HasFrame bs) : HasFrame (b :: bs) := by
  obtain ⟨stray, payload, rest, hstray, hlen, rfl⟩ := h
  refine ⟨b :: stray, payload, rest, Passed.byte ?_ hstray, hlen, rfl⟩
  intro hb1 hhead
  cases stray with
  | nil => exact absurd hhead (by simp)
  | cons c stray => exact hb hb1 hhead

theorem HasFrame.oversize {hi lo : UInt8} {bs : List UInt8} (hlen : kMaxPayload < announced hi lo)
    (h : HasFrame bs) : HasFrame (kStart1 :: kStart2 :: hi :: lo :: bs) := by
  obtain ⟨stray, payload, rest, hstray, hle, rfl⟩ := h
  exact ⟨_, payload, rest, Passed.oversize hlen hstray, hle, rfl⟩

/-- A start that announces a payload: the payload follows, or nothing is emitted yet. -/
theorem hasFrame_of_start {d : Deframer} (h : d.Seeking) {hi lo : UInt8} {bs : List UInt8}
    (hlen : announced hi lo ≤ kMaxPayload)
    (hout : (d.feed (kStart1 :: kStart2 :: hi :: lo :: bs)).2 ≠ []) :
    HasFrame (kStart1 :: kStart2 :: hi :: lo :: bs) := by
  rcases Nat.lt_or_ge bs.length (announced hi lo) with hlt | hge
  · -- the payload is not complete
    exfalso
    have hbyte := feedByte_lenLo (d := { d with state := .lenLo, len := hi.toNat <<< 8 }) rfl rfl
      hlen (by omega)
    have hsplit : kStart1 :: kStart2 :: hi :: lo :: bs = [kStart1, kStart2, hi] ++ (lo :: bs) := rfl
    apply hout
    rw [hsplit, splits_feed, feed_start h hi]
    simp only
    rw [feed_cons, hbyte]
    simp only
    rw [feed_payload_part rfl bs (by simpa using hlt)]
    rfl
  · have htake : (bs.take (announced hi lo)).length = announced hi lo := List.length_take_of_le hge
    refine ⟨[], bs.take (announced hi lo), bs.drop (announced hi lo), Passed.nil, ?_, ?_⟩
    · rw [htake]
      exact hlen
    · rw [htake, header_announced, List.nil_append, List.append_assoc, List.take_append_drop]
      rfl

/-- **What is emitted was framed**: a parser that emits anything has read a frame. -/
theorem hasFrame_of_feed (bs : List UInt8) {d : Deframer} (hd : d.Before bs)
    (hout : (d.feed bs).2 ≠ []) : HasFrame bs := by
  induction hn : bs.length using Nat.strong_induction_on generalizing bs d with
  | _ n ih =>
  subst hn
  match bs, hd, hout with
  | [], _, hout => exact absurd rfl hout
  | b :: bs, hd, hout =>
      by_cases hstart : b = kStart1 ∧ bs.head? = some kStart2
      · obtain ⟨rfl, hhead⟩ := hstart
        obtain ⟨bs, rfl⟩ : ∃ tail, bs = kStart2 :: tail := by
          cases bs with
          | nil => exact absurd hhead (by simp)
          | cons c bs => exact ⟨bs, by rw [Option.some.inj hhead]⟩
        match bs with
        | [] =>
            rw [feed_cons, feedByte_start1 hd.1] at hout
            exact absurd rfl hout
        | [hi] =>
            rw [feed_start hd.1 hi] at hout
            exact absurd rfl hout
        | hi :: lo :: bs =>
            rcases Nat.lt_or_ge kMaxPayload (announced hi lo) with hlt | hle
            · obtain ⟨hnil, hbefore⟩ := feed_oversize hd.1 hlt bs
              have hsplit : kStart1 :: kStart2 :: hi :: lo :: bs
                  = [kStart1, kStart2, hi, lo] ++ bs := rfl
              rw [hsplit, splits_feed, hnil] at hout
              exact HasFrame.oversize hlt
                (ih bs.length (by simp only [List.length_cons]; omega) bs hbefore hout rfl)
            · exact hasFrame_of_start hd.1 hle hout
      · have hb : b = kStart1 → bs.head? ≠ some kStart2 := fun h1 h2 => hstart ⟨h1, h2⟩
        obtain ⟨hnil, hbefore⟩ := feedByte_before hd hb
        rw [feed_cons, hnil] at hout
        exact HasFrame.byte hb (ih bs.length (by simp) bs hbefore hout rfl)

end Deframer

/-! ## The round trip -/

/-- A run of payloads, each framed, with the bytes and the number of wake bytes put before
its frame. -/
def wire (items : List (List UInt8 × ℕ × List UInt8)) : List UInt8 :=
  items.flatMap fun it => it.1 ++ List.replicate it.2.1 kStart1 ++ (frame it.2.2).getD []

namespace Deframer

theorem feed_wire {d : Deframer} (hd : d.state = .scanStart1)
    {items : List (List UInt8 × ℕ × List UInt8)}
    (hlen : ∀ it ∈ items, it.2.2.length ≤ kMaxPayload) (hgap : ∀ it ∈ items, kStart1 ∉ it.1) :
    (d.feed (wire items)).2 = items.map (fun it => it.2.2) ∧
      (d.feed (wire items)).1.state = .scanStart1 := by
  induction items generalizing d with
  | nil => exact ⟨rfl, hd⟩
  | cons it items ih =>
      obtain ⟨gap, wakes, payload⟩ := it
      have hle : payload.length ≤ kMaxPayload := hlen _ (List.mem_cons_self ..)
      obtain ⟨hdone, hstate⟩ := completes (before_of_scan hd _)
        (passed_gap (hgap _ (List.mem_cons_self ..)) wakes) hle
      obtain ⟨hout, hend⟩ := ih hstate (fun it hit => hlen it (List.mem_cons_of_mem _ hit))
        (fun it hit => hgap it (List.mem_cons_of_mem _ hit))
      have hsplit : wire ((gap, wakes, payload) :: items)
          = gap ++ List.replicate wakes kStart1 ++ (header payload.length ++ payload)
              ++ wire items := by
        rw [wire, List.flatMap_cons, frame_of_le hle]
        rfl
      rw [hsplit, splits_feed, hdone.out, hout]
      exact ⟨rfl, hend⟩

/-- **StreamAPI round trip.**  `frame` fails for payloads of more than 512 bytes and no others;
a fresh parser fed framed payloads, with bytes other than the first start byte between the
frames and wake bytes before them, in chunks cut anywhere, emits the payloads in order. -/
theorem framer_round_trip (items : List (List UInt8 × ℕ × List UInt8)) (tail : List UInt8)
    (chunks : List (List UInt8)) (hlen : ∀ it ∈ items, it.2.2.length ≤ 512)
    (hgap : ∀ it ∈ items, 0x94 ∉ it.1) (htail : 0x94 ∉ tail)
    (hchunks : chunks.flatten = wire items ++ tail) :
    (∀ payload, frame payload = none ↔ 512 < payload.length) ∧
      (run feed {} chunks).2 = items.map fun it => it.2.2 := by
  refine ⟨frame_eq_none_iff, ?_⟩
  have hnil : ({} : Deframer).feed [] = ({}, []) := rfl
  have hfresh : ({} : Deframer).state = .scanStart1 := rfl
  obtain ⟨hout, hend⟩ := feed_wire hfresh hlen hgap
  have hpassed : Passed tail := by
    have hgapped := passed_gap htail 0
    rwa [List.replicate_zero, List.append_nil] at hgapped
  rw [splits_feed.run_eq_of_nil hnil, hchunks, splits_feed, hout,
    (feed_passed hpassed (before_of_scan hend tail)).1, List.append_nil]

/-- An empty payload and one that looks like a header, cut inside the header. -/
theorem framer_round_trip_two :
    (run feed {} [[0x41, 0x94], [0x94, 0xC3, 0], [], [0, 0x94, 0xC3, 0, 4, 0x94],
      [0xC3, 0, 1, 0xC3]]).2 = [[], [0x94, 0xC3, 0, 1]] :=
  (framer_round_trip [([0x41], 1, []), ([], 0, [0x94, 0xC3, 0, 1])] [0xC3] _ (by decide)
    (by decide) (by decide) (by decide)).2

end Deframer

end StreamApi
