/-
# The Air-IPC deframer (`class Deframer` in `include/quadrf/air_ipc.hpp`)

A byte-fed parser.  What it emits does not depend on how the stream is cut
(`feed_append`), a whole frame read from a state that still looks for the magic
comes out as sent (`feed_bytes`), and the first bytes of a frame come out as
nothing (`feed_take_nil`).
-/
import QuadrfMesh.AirIpc.Messages

/-- `enum class State`. -/
inductive DeframerState
  | scanMagic0 | expectMagic1 | version | type | lenHi | lenLo | body
  deriving DecidableEq, Repr

/-- `struct Frame`. -/
structure RawFrame where
  type : MsgType
  body : List UInt8
  deriving DecidableEq, Repr

/-- `class Deframer`. -/
structure Deframer where
  state : DeframerState := .scanMagic0
  type : MsgType := .txEnqueue
  bodyLength : ℕ := 0
  body : List UInt8 := []
  framesOk : ℕ := 0
  framesRejected : ℕ := 0
  deriving DecidableEq, Repr

namespace Deframer

/-- `rejectAndResync`. -/
def rejectAndResync (d : Deframer) (byte : UInt8) : Deframer :=
  { d with
    framesRejected := d.framesRejected + 1
    state := if byte = kMagic0 then .expectMagic1 else .scanMagic0 }

/-- The body of `feed`'s loop: one byte. -/
def feedByte (d : Deframer) (byte : UInt8) : Deframer × List RawFrame :=
  match d.state with
  | .scanMagic0 => (if byte = kMagic0 then { d with state := .expectMagic1 } else d, [])
  | .expectMagic1 =>
      (if byte = kMagic1 then { d with state := .version }
        -- a second first byte of the magic may start a frame
        else if byte ≠ kMagic0 then { d with state := .scanMagic0 }
        else d, [])
  | .version =>
      (if byte ≠ kProtocolVersion then d.rejectAndResync byte else { d with state := .type }, [])
  | .type =>
      match MsgType.ofByte byte with
      | none => (d.rejectAndResync byte, [])
      | some type => ({ d with type, state := .lenHi }, [])
  | .lenHi => ({ d with bodyLength := byte.toNat <<< 8, state := .lenLo }, [])
  | .lenLo =>
      let bodyLength := d.bodyLength ||| byte.toNat
      -- the last byte of an impossible length does not start a frame
      if bodyLength = 0 ∨ kMaxBodyLen < bodyLength then
        ({ d with framesRejected := d.framesRejected + 1, state := .scanMagic0, bodyLength := 0 }, [])
      else ({ d with bodyLength, body := [], state := .body }, [])
  | .body =>
      let body := d.body ++ [byte]
      if body.length = d.bodyLength then
        ({ d with body := [], framesOk := d.framesOk + 1, state := .scanMagic0, bodyLength := 0 },
          [{ type := d.type, body }])
      else ({ d with body }, [])

/-- `feed`: the parser after a run of bytes, and the frames it emitted. -/
def feed (d : Deframer) : List UInt8 → Deframer × List RawFrame
  | [] => (d, [])
  | byte :: bytes =>
      let (d, out) := d.feedByte byte
      let (d, rest) := d.feed bytes
      (d, out ++ rest)

/-- The reads of one connection, fed in turn. -/
def feedAll (d : Deframer) : List (List UInt8) → Deframer × List RawFrame
  | [] => (d, [])
  | chunk :: chunks =>
      let (d, out) := d.feed chunk
      let (d, rest) := d.feedAll chunks
      (d, out ++ rest)

/-- Feeding two runs of bytes is feeding them joined. -/
theorem feed_append (d : Deframer) (xs ys : List UInt8) :
    d.feed (xs ++ ys) = (((d.feed xs).1.feed ys).1, (d.feed xs).2 ++ ((d.feed xs).1.feed ys).2) := by
  induction xs generalizing d with
  | nil => rfl
  | cons x xs ih =>
      rw [List.cons_append]
      simp only [feed, ih]
      rw [List.append_assoc]

/-- **How the reads cut the stream does not matter.** -/
theorem feedAll_eq (d : Deframer) (chunks : List (List UInt8)) :
    d.feedAll chunks = d.feed chunks.flatten := by
  induction chunks generalizing d with
  | nil => rfl
  | cons chunk chunks ih =>
      rw [List.flatten_cons, feed_append]
      simp only [feedAll, ih]

/-- The states that still look for the magic of a frame: the first byte of a frame
brings each of them to `expectMagic1`. -/
def Seeking (d : Deframer) : Prop :=
  d.state = .scanMagic0 ∨ d.state = .expectMagic1 ∨ d.state = .version ∨ d.state = .type

/-! ## One frame -/

/-- The first byte of a frame, read while seeking. -/
theorem feedByte_magic0 {d : Deframer} (h : d.Seeking) :
    ∃ d', d.feedByte kMagic0 = (d', []) ∧ d'.state = .expectMagic1 ∧ d'.framesOk = d.framesOk := by
  unfold feedByte
  rcases h with h | h | h | h
  · rw [h]
    exact ⟨_, rfl, rfl, rfl⟩
  · rw [h]
    exact ⟨d, rfl, h, rfl⟩
  · rw [h]
    exact ⟨_, rfl, rfl, rfl⟩
  · rw [h]
    exact ⟨_, rfl, rfl, rfl⟩

theorem feedByte_magic1 {d : Deframer} (h : d.state = .expectMagic1) :
    d.feedByte kMagic1 = ({ d with state := .version }, []) := by
  unfold feedByte
  rw [h]
  rfl

theorem feedByte_version {d : Deframer} (h : d.state = .version) :
    d.feedByte kProtocolVersion = ({ d with state := .type }, []) := by
  unfold feedByte
  rw [h]
  rfl

theorem feedByte_type {d : Deframer} (h : d.state = .type) (t : MsgType) :
    d.feedByte t.toByte = ({ d with type := t, state := .lenHi }, []) := by
  unfold feedByte
  rw [h]
  simp only [MsgType.ofByte_toByte]

theorem feedByte_lenHi {d : Deframer} (h : d.state = .lenHi) (byte : UInt8) :
    d.feedByte byte = ({ d with bodyLength := byte.toNat <<< 8, state := .lenLo }, []) := by
  unfold feedByte
  rw [h]

theorem feedByte_lenLo {d : Deframer} (h : d.state = .lenLo) (byte : UInt8)
    (hpos : 0 < (d.bodyLength ||| byte.toNat)) (hle : (d.bodyLength ||| byte.toNat) ≤ kMaxBodyLen) :
    d.feedByte byte
      = ({ d with bodyLength := d.bodyLength ||| byte.toNat, body := [], state := .body }, []) := by
  unfold feedByte
  rw [h]
  simp only
  rw [if_neg (by omega)]

/-- The two length bytes of a frame. -/
theorem length_of_bytes (n : ℕ) (hn : n ≤ kMaxBodyLen) :
    ((UInt8.ofNat ((n >>> 8) &&& 0xFF)).toNat <<< 8) ||| (UInt8.ofNat (n &&& 0xFF)).toNat = n := by
  -- a body is shorter than 280 bytes, so every length can be tried
  have h : ∀ n < 280, ((UInt8.ofNat ((n >>> 8) &&& 0xFF)).toNat <<< 8)
      ||| (UInt8.ofNat (n &&& 0xFF)).toNat = n := by decide +kernel
  exact h n (by unfold kMaxBodyLen kRxMetaLen kMaxAirLen at hn; omega)

/-- The first three bytes of a frame, read while seeking. -/
theorem feed_magic {d : Deframer} (h : d.Seeking) :
    ∃ d', d.feed [kMagic0] = (d', []) ∧ d'.state = .expectMagic1 ∧ d'.framesOk = d.framesOk ∧
      d.feed [kMagic0, kMagic1] = ({ d' with state := .version }, []) ∧
      d.feed [kMagic0, kMagic1, kProtocolVersion] = ({ d' with state := .type }, []) := by
  obtain ⟨d', h0, hst, hok⟩ := feedByte_magic0 h
  have h1 := feedByte_magic1 hst
  have h2 : ({ d' with state := .version } : Deframer).feedByte kProtocolVersion
      = ({ d' with state := .type }, []) := feedByte_version rfl
  refine ⟨d', ?_, hst, hok, ?_, ?_⟩
  · simp only [feed, h0, List.append_nil]
  · simp only [feed, h0, h1, List.append_nil]
  · simp only [feed, h0, h1, h2, List.append_nil]

/-- The header of a frame, read while seeking. -/
theorem feed_header {d : Deframer} (h : d.Seeking) (f : IpcFrame) :
    ∃ r, d.feed f.header = ({ state := .body, type := f.type, bodyLength := f.body.length
                              body := [], framesOk := d.framesOk, framesRejected := r }, []) := by
  obtain ⟨d', -, -, hok, -, h3⟩ := feed_magic h
  have hlen := length_of_bytes f.body.length f.body_le
  have hsplit : f.header = [kMagic0, kMagic1, kProtocolVersion]
      ++ [f.type.toByte, UInt8.ofNat ((f.body.length >>> 8) &&& 0xFF),
        UInt8.ofNat (f.body.length &&& 0xFF)] := rfl
  refine ⟨d'.framesRejected, ?_⟩
  set hi := UInt8.ofNat ((f.body.length >>> 8) &&& 0xFF)
  set lo := UInt8.ofNat (f.body.length &&& 0xFF)
  have htype : ({ d' with state := .type } : Deframer).feedByte f.type.toByte
      = ({ d' with type := f.type, state := .lenHi }, []) := feedByte_type rfl f.type
  have hhi : ({ d' with type := f.type, state := .lenHi } : Deframer).feedByte hi
      = ({ d' with type := f.type, bodyLength := hi.toNat <<< 8, state := .lenLo }, []) :=
    feedByte_lenHi rfl hi
  have hlo : ({ d' with type := f.type, bodyLength := hi.toNat <<< 8, state := .lenLo } :
      Deframer).feedByte lo
      = ({ d' with type := f.type, bodyLength := (hi.toNat <<< 8) ||| lo.toNat, body := []
                   state := .body }, []) :=
    feedByte_lenLo rfl lo (by rw [hlen]; exact f.body_pos) (by rw [hlen]; exact f.body_le)
  rw [hsplit, feed_append, h3, ← hok]
  simp only [feed, htype, hhi, hlo, hlen, List.append_nil]

/-- Bytes that do not fill the body. -/
theorem feed_body_part {d : Deframer} (h : d.state = .body) (bs : List UInt8)
    (hlen : d.body.length + bs.length < d.bodyLength) :
    d.feed bs = ({ d with body := d.body ++ bs }, []) := by
  induction bs generalizing d with
  | nil =>
      rw [List.append_nil]
      rfl
  | cons b bs ih =>
      rw [List.length_cons] at hlen
      have hbyte : d.feedByte b = ({ d with body := d.body ++ [b] }, []) := by
        unfold feedByte
        rw [h]
        simp only [List.length_append, List.length_singleton]
        rw [if_neg (by omega)]
      have hrest := ih (d := { d with body := d.body ++ [b] }) h
        (by simp only [List.length_append, List.length_singleton]; omega)
      simp only [feed, hbyte, hrest, List.append_nil, List.append_assoc, List.singleton_append]

/-- Bytes that fill the body emit the frame. -/
theorem feed_body_full {d : Deframer} (h : d.state = .body) (bs : List UInt8) (hne : bs ≠ [])
    (hlen : d.body.length + bs.length = d.bodyLength) :
    d.feed bs
      = ({ d with body := [], framesOk := d.framesOk + 1, state := .scanMagic0, bodyLength := 0 },
          [{ type := d.type, body := d.body ++ bs }]) := by
  -- only the last byte completes the body
  obtain ⟨init, b, rfl⟩ : ∃ init b, bs = init ++ [b] :=
    ⟨bs.dropLast, bs.getLast hne, (List.dropLast_append_getLast hne).symm⟩
  rw [List.length_append, List.length_singleton] at hlen
  have hbyte : ({ d with body := d.body ++ init } : Deframer).feedByte b
      = ({ d with body := [], framesOk := d.framesOk + 1, state := .scanMagic0, bodyLength := 0 },
          [{ type := d.type, body := d.body ++ init ++ [b] }]) := by
    unfold feedByte
    rw [h]
    simp only [List.length_append, List.length_singleton]
    rw [if_pos (by omega)]
  rw [feed_append, feed_body_part h init (by omega)]
  simp only [feed, hbyte, List.nil_append, List.append_nil, List.append_assoc]

/-- **A whole frame** read while seeking comes out as sent, and the parser seeks again. -/
theorem feed_bytes {d : Deframer} (h : d.Seeking) (f : IpcFrame) :
    (d.feed f.bytes).2 = [{ type := f.type, body := f.body }] ∧ (d.feed f.bytes).1.Seeking := by
  obtain ⟨r, hhead⟩ := feed_header h f
  have hne : f.body ≠ [] := by
    have h := f.body_pos
    rintro hnil
    rw [hnil] at h
    exact absurd h (by simp)
  rw [IpcFrame.bytes, feed_append, hhead]
  simp only
  rw [feed_body_full rfl f.body hne (by simp)]
  exact ⟨rfl, Or.inl rfl⟩

/-- A proper initial part of a frame emits nothing. -/
theorem feed_take_nil {d : Deframer} (h : d.Seeking) (f : IpcFrame) (k : ℕ)
    (hk : k < f.bytes.length) : (d.feed (f.bytes.take k)).2 = [] := by
  obtain ⟨r, hhead⟩ := feed_header h f
  rw [IpcFrame.length_bytes] at hk
  rcases Nat.lt_or_ge k 6 with h6 | h6
  · -- part of the header
    have hsplit := feed_append d (f.header.take k) (f.header.drop k)
    rw [List.take_append_drop, hhead] at hsplit
    have hnil := (Prod.mk.inj hsplit).2
    rw [IpcFrame.bytes, List.take_append_of_le_length (by rw [IpcFrame.length_header]; omega)]
    exact (List.append_eq_nil_iff.mp hnil.symm).1
  · rw [IpcFrame.bytes, List.take_append, List.take_of_length_le
      (by rw [IpcFrame.length_header]; exact h6), IpcFrame.length_header, feed_append, hhead]
    simp only
    rw [feed_body_part rfl _ (by simp only [List.length_nil, List.length_take]; omega)]
    rfl

/-- Up to three bytes of a frame leave a seeking parser seeking. -/
theorem feed_take_seeking {d : Deframer} (h : d.Seeking) (f : IpcFrame) (k : ℕ) (hk : k ≤ 3) :
    (d.feed (f.bytes.take k)).1.Seeking := by
  obtain ⟨d', h1, hst, -, h2, h3⟩ := feed_magic h
  interval_cases k
  · exact h
  · show (d.feed [kMagic0]).1.Seeking
    rw [h1]
    exact Or.inr (Or.inl hst)
  · show (d.feed [kMagic0, kMagic1]).1.Seeking
    rw [h2]
    exact Or.inr (Or.inr (Or.inl rfl))
  · show (d.feed [kMagic0, kMagic1, kProtocolVersion]).1.Seeking
    rw [h3]
    exact Or.inr (Or.inr (Or.inr rfl))

end Deframer
