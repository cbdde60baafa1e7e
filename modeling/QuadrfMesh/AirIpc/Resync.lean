/-
# Resynchronisation of the Air-IPC deframer (`include/quadrf/air_ipc.hpp`)

A header can be rejected at its version, its type or its length.  At the first two the
rejected byte is looked at again, since it may begin the next frame; at the length it is
not, so that a length `0xHH51` that is too long takes the first byte of a frame with it.
The parser resynchronises on a history exactly when no header in it has such a length
(`resynchronises_iff`).
-/
import QuadrfMesh.AirIpc.Deframer

namespace Deframer

/-- The parser after a history. -/
def after (history : List UInt8) : Deframer := (({} : Deframer).feed history).1

/-- A header is rejected at this byte. -/
def Rejects (d : Deframer) (byte : UInt8) : Prop :=
  (d.feedByte byte).1.framesRejected = d.framesRejected + 1

/-- After a byte the parser stands where a fresh one stands after that byte alone: in the same
state, with the same frames to come whatever follows, and so with a frame to come that
begins with the byte. -/
def StartsAt (d : Deframer) (byte : UInt8) : Prop :=
  (d.feedByte byte).1.state = (({} : Deframer).feedByte byte).1.state ∧
    (∀ rest, ((d.feedByte byte).1.feed rest).2
      = ((({} : Deframer).feedByte byte).1.feed rest).2) ∧
    ∀ (f : IpcFrame) (rest : List UInt8), f.bytes = byte :: rest →
      ((d.feedByte byte).1.feed rest).2 = [{ type := f.type, body := f.body }]

/-- Each rejection in a history leaves the parser so. -/
def Resynchronises (history : List UInt8) : Prop :=
  ∀ before byte rest, history = before ++ byte :: rest → (after before).Rejects byte →
    (after before).StartsAt byte

/-! ## Parsers that go on alike -/

/-- Two parsers in the same state, with the same of what that state goes on to use. -/
structure Alike (d e : Deframer) : Prop where
  state : d.state = e.state
  type : d.state = .lenHi ∨ d.state = .lenLo ∨ d.state = .body → d.type = e.type
  length : d.state = .lenLo ∨ d.state = .body → d.bodyLength = e.bodyLength
  body : d.state = .body → d.body = e.body

/-- The states that go on to use nothing else. -/
def Fresh (d : Deframer) : Prop := d.state ≠ .lenHi ∧ d.state ≠ .lenLo ∧ d.state ≠ .body

theorem alike_of_state {d e : Deframer} (hstate : d.state = e.state) (hfresh : d.Fresh) :
    Alike d e := by
  obtain ⟨hhi, hlo, hbody⟩ := hfresh
  refine ⟨hstate, ?_, ?_, fun h => absurd h hbody⟩
  · rintro (h | h | h)
    · exact absurd h hhi
    · exact absurd h hlo
    · exact absurd h hbody
  · rintro (h | h)
    · exact absurd h hlo
    · exact absurd h hbody

/-- A rejected header leaves nothing behind. -/
theorem alike_rejectAndResync (d e : Deframer) (byte : UInt8) :
    Alike (d.rejectAndResync byte) (e.rejectAndResync byte) := by
  refine alike_of_state rfl ?_
  unfold Fresh rejectAndResync
  simp only
  split_ifs <;> decide

/-- **Parsers that are alike stay alike**, and emit the same. -/
theorem Alike.feedByte {d e : Deframer} (h : Alike d e) (byte : UInt8) :
    Alike (d.feedByte byte).1 (e.feedByte byte).1 ∧
      (d.feedByte byte).2 = (e.feedByte byte).2 := by
  have hstate := h.state
  unfold Deframer.feedByte
  rw [← hstate]
  cases hs : d.state with
  | scanMagic0 =>
      refine ⟨?_, rfl⟩
      simp only
      split_ifs
      · exact alike_of_state rfl (by simp [Fresh])
      · exact h
  | expectMagic1 =>
      refine ⟨?_, rfl⟩
      simp only
      split_ifs
      · exact alike_of_state rfl (by simp [Fresh])
      · exact alike_of_state rfl (by simp [Fresh])
      · exact h
  | version =>
      refine ⟨?_, rfl⟩
      simp only
      split_ifs
      · exact alike_rejectAndResync d e byte
      · exact alike_of_state rfl (by simp [Fresh])
  | type =>
      simp only
      cases MsgType.ofByte byte with
      | none => exact ⟨alike_rejectAndResync d e byte, rfl⟩
      | some type => exact ⟨⟨rfl, fun _ => rfl, by simp, by simp⟩, rfl⟩
  | lenHi =>
      refine ⟨⟨rfl, fun _ => h.type (Or.inl hs), fun _ => rfl, by simp⟩, rfl⟩
  | lenLo =>
      have htype := h.type (Or.inr (Or.inl hs))
      have hlength := h.length (Or.inl hs)
      simp only
      rw [← hlength]
      split_ifs
      · exact ⟨alike_of_state rfl (by simp [Fresh]), rfl⟩
      · exact ⟨⟨rfl, fun _ => htype, fun _ => rfl, fun _ => rfl⟩, rfl⟩
  | body =>
      have htype := h.type (Or.inr (Or.inr hs))
      have hlength := h.length (Or.inr hs)
      have hbody := h.body hs
      simp only
      rw [← hbody, ← hlength, ← htype]
      split_ifs
      · exact ⟨alike_of_state rfl (by simp [Fresh]), rfl⟩
      · exact ⟨⟨rfl, fun _ => rfl, fun _ => rfl, fun _ => rfl⟩, rfl⟩

theorem Alike.feed {d e : Deframer} (h : Alike d e) (bytes : List UInt8) :
    (d.feed bytes).2 = (e.feed bytes).2 := by
  induction bytes generalizing d e with
  | nil => rfl
  | cons byte bytes ih =>
      obtain ⟨hnext, hout⟩ := h.feedByte byte
      simp only [Deframer.feed]
      rw [hout, ih hnext]

/-! ## Rejections -/

/-- A fresh parser after one byte. -/
theorem fresh_feedByte (byte : UInt8) :
    (({} : Deframer).feedByte byte).1.state
      = if byte = kMagic0 then .expectMagic1 else .scanMagic0 := by
  unfold Deframer.feedByte
  simp only
  split_ifs <;> rfl

/-- **A parser in the right state starts at the byte.** -/
theorem startsAt_iff (d : Deframer) (byte : UInt8) :
    d.StartsAt byte ↔
      (d.feedByte byte).1.state = if byte = kMagic0 then .expectMagic1 else .scanMagic0 := by
  unfold StartsAt
  rw [fresh_feedByte]
  constructor
  · exact fun h => h.1
  · intro h
    have halike : Alike (d.feedByte byte).1 (({} : Deframer).feedByte byte).1 := by
      apply alike_of_state (h.trans (fresh_feedByte byte).symm)
      unfold Fresh
      rw [h]
      split_ifs <;> decide
    refine ⟨h, fun rest => halike.feed rest, ?_⟩
    intro f rest hbytes
    have hwhole := (feed_bytes (d := {}) (Or.inl rfl) f).1
    rw [hbytes] at hwhole
    simp only [Deframer.feed] at hwhole
    have hquiet : (({} : Deframer).feedByte byte).2 = [] := rfl
    rw [hquiet, List.nil_append] at hwhole
    rw [halike.feed rest]
    exact hwhole

/-- **The rejections**: at the version, at the type, at the low byte of a length. -/
theorem rejects_iff (d : Deframer) (byte : UInt8) :
    d.Rejects byte ↔
      (d.state = .version ∧ byte ≠ kProtocolVersion) ∨
      (d.state = .type ∧ MsgType.ofByte byte = none) ∨
      (d.state = .lenLo ∧
        (d.bodyLength ||| byte.toNat = 0 ∨ kMaxBodyLen < (d.bodyLength ||| byte.toNat))) := by
  unfold Rejects Deframer.feedByte
  cases hs : d.state with
  | scanMagic0 =>
      simp only
      split_ifs <;> simp
  | expectMagic1 =>
      simp only
      split_ifs <;> simp
  | version =>
      simp only
      split_ifs with hbyte <;> simp [hbyte, rejectAndResync]
  | type =>
      simp only
      cases hof : MsgType.ofByte byte <;> simp [rejectAndResync]
  | lenHi => simp
  | lenLo =>
      dsimp only
      split_ifs with hlen
      · exact iff_of_true rfl (Or.inr (Or.inr ⟨rfl, hlen⟩))
      · refine iff_of_false (Nat.ne_of_lt (Nat.lt_succ_self _)) ?_
        rintro (⟨h, -⟩ | ⟨h, -⟩ | ⟨-, h⟩)
        · exact absurd h (by decide)
        · exact absurd h (by decide)
        · exact hlen h
  | body =>
      simp only
      split_ifs <;> simp

/-- Where a rejection at the version or the type leaves the parser. -/
theorem startsAt_of_early {d : Deframer} {byte : UInt8} (h : d.Rejects byte)
    (hstate : d.state ≠ .lenLo) : d.StartsAt byte := by
  rw [startsAt_iff]
  rcases (rejects_iff d byte).mp h with ⟨hs, hbyte⟩ | ⟨hs, hof⟩ | ⟨hs, -⟩
  · unfold Deframer.feedByte
    rw [hs]
    simp only
    rw [if_pos hbyte]
    rfl
  · unfold Deframer.feedByte
    rw [hs]
    simp only
    rw [hof]
    rfl
  · exact absurd hs hstate

/-- Where a rejection at the length leaves the parser: looking for a new frame, whatever the
byte. -/
theorem startsAt_lenLo_iff {d : Deframer} {byte : UInt8} (h : d.Rejects byte)
    (hstate : d.state = .lenLo) : d.StartsAt byte ↔ byte ≠ kMagic0 := by
  have hlen : d.bodyLength ||| byte.toNat = 0 ∨ kMaxBodyLen < (d.bodyLength ||| byte.toNat) := by
    rcases (rejects_iff d byte).mp h with ⟨hs, -⟩ | ⟨hs, -⟩ | ⟨-, hlen⟩
    · exact absurd (hstate.symm.trans hs) (by decide)
    · exact absurd (hstate.symm.trans hs) (by decide)
    · exact hlen
  have hnext : (d.feedByte byte).1.state = .scanMagic0 := by
    unfold Deframer.feedByte
    rw [hstate]
    simp only
    rw [if_pos hlen]
  rw [startsAt_iff, hnext]
  split_ifs with hbyte <;> simp [hbyte]

/-! ## Lengths -/

/-- The high byte of a length is in place when the low byte is awaited. -/
theorem bodyLength_after {history : List UInt8} (h : (after history).state = .lenLo) :
    ∃ hi : UInt8, (after history).bodyLength = hi.toNat <<< 8 := by
  have hstep : ∀ (d : Deframer) (byte : UInt8), (d.feedByte byte).1.state = .lenLo →
      ∃ hi : UInt8, (d.feedByte byte).1.bodyLength = hi.toNat <<< 8 := by
    intro d byte
    unfold Deframer.feedByte
    cases hs : d.state with
    | lenHi => exact fun _ => ⟨byte, rfl⟩
    | type =>
        cases MsgType.ofByte byte with
        | none =>
            simp only [rejectAndResync]
            split_ifs <;> simp
        | some type => simp
    | scanMagic0 | expectMagic1 | version | lenLo | body =>
        simp only [rejectAndResync]
        split_ifs <;> simp [hs]
  rcases List.eq_nil_or_concat' history with rfl | ⟨before, byte, rfl⟩
  · exact absurd h (by decide)
  · have hafter : after (before ++ [byte]) = ((after before).feedByte byte).1 := by
      unfold after
      rw [feed_append]
      rfl
    rw [hafter] at h ⊢
    exact hstep _ _ h

/-- A length whose low byte is the magic is rejected unless its high byte is zero. -/
theorem length_magic0 (hi : UInt8) :
    (hi.toNat <<< 8 ||| kMagic0.toNat = 0 ∨ kMaxBodyLen < (hi.toNat <<< 8 ||| kMagic0.toNat)) ↔
      hi.toNat <<< 8 ≠ 0 := by
  have h : ∀ n < 256, (n <<< 8 ||| kMagic0.toNat = 0 ∨ kMaxBodyLen < (n <<< 8 ||| kMagic0.toNat)) ↔
      n <<< 8 ≠ 0 := by
    decide +kernel
  exact h hi.toNat hi.toNat_lt

/-- **When the deframer resynchronises**: unless a header has a length of the form `0xHH51`
with a high byte that is not zero. -/
theorem resynchronises_iff (history : List UInt8) :
    Resynchronises history ↔
      ∀ before byte rest, history = before ++ byte :: rest → (after before).state = .lenLo →
        (after before).bodyLength ≠ 0 → byte ≠ kMagic0 := by
  constructor
  · rintro h before byte rest hhist hstate hlen rfl
    obtain ⟨hi, hhi⟩ := bodyLength_after hstate
    have hrejects : (after before).Rejects kMagic0 := by
      rw [rejects_iff]
      right
      right
      rw [hhi] at hlen ⊢
      exact ⟨hstate, (length_magic0 hi).mpr hlen⟩
    exact (startsAt_lenLo_iff hrejects hstate).mp (h before kMagic0 rest hhist hrejects) rfl
  · intro h before byte rest hhist hrejects
    by_cases hstate : (after before).state = .lenLo
    · rw [startsAt_lenLo_iff hrejects hstate]
      by_cases hlen : (after before).bodyLength = 0
      · -- a length below 256 that ends in the magic is not rejected
        rintro rfl
        obtain ⟨hi, hhi⟩ := bodyLength_after hstate
        rcases (rejects_iff _ _).mp hrejects with ⟨hs, -⟩ | ⟨hs, -⟩ | ⟨-, hbad⟩
        · exact absurd (hstate.symm.trans hs) (by decide)
        · exact absurd (hstate.symm.trans hs) (by decide)
        · rw [hhi] at hbad hlen
          exact (length_magic0 hi).mp hbad hlen
      · exact h before byte rest hhist hstate hlen
    · exact startsAt_of_early hrejects hstate

/-- A header with the length `0x0151`, whose last byte is the first of a frame. -/
def longHeader : List UInt8 := [kMagic0, kMagic1, kProtocolVersion, 1, 0x01, kMagic0]

/-- The frame that begins with the rejected byte is lost. -/
theorem long_header_eats_magic : ¬ Resynchronises longHeader := by
  intro h
  have hrejects : (after (longHeader.take 5)).Rejects kMagic0 := by
    unfold Rejects
    decide +kernel
  obtain ⟨hstate, -⟩ := h (longHeader.take 5) kMagic0 [] rfl hrejects
  exact absurd hstate (by decide +kernel)

end Deframer
