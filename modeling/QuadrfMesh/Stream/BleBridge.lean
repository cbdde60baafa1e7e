/-
# The BLE bridge's reader (`TcpBridge` in `tools/ble/quadrf_ble_bridge.py`)

The bridge reads the PhoneAPI stream four bytes, then one payload at a time, and throws
four bytes away when they are not a header.  It gives what the parser of
`src/stream/framer.cpp` gives exactly as long as the first frame after whole blocks is the
first frame of the stream (`agrees_iff`).
-/
import QuadrfMesh.Lib.Recent
import QuadrfMesh.Stream.Framer

namespace StreamApi

open Streaming

/-- What `_rx_worker` is reading: the header, or a payload of the length it announced. -/
inductive Reading
  | hdr (got : List UInt8) (h : got.length < 4)
  | payload (length : ℕ) (got : List UInt8) (h : got.length < length)

namespace Reading

/-- A header from its start. -/
def start : Reading := .hdr [] (by decide)

/-- The argument of `sock.recv`. -/
def wanted : Reading → ℕ
  | .hdr got _ => 4 - got.length
  | .payload length got _ => length - got.length

theorem wanted_pos (r : Reading) : 0 < r.wanted := by
  cases r with
  | hdr got h => exact Nat.sub_pos_of_lt h
  | payload length got h => exact Nat.sub_pos_of_lt h

end Reading

/-- `class TcpBridge`, one connection. -/
structure TcpBridge where
  reading : Reading := Reading.start
  rxQueue : List (List UInt8) := []
  fromNum : ℕ := 0

namespace TcpBridge

/-- A complete payload: the queue keeps the last 64. -/
def append (b : TcpBridge) (payload : List UInt8) : TcpBridge :=
  let rxQueue := b.rxQueue ++ [payload]
  { reading := Reading.start
    rxQueue := if 64 < rxQueue.length then rxQueue.drop 1 else rxQueue
    fromNum := b.fromNum + 1 }

/-- `_rx_worker` when `recv` returns `chunk`, and the payloads it appends to `rx_queue`. -/
def recv (b : TcpBridge) (chunk : List UInt8) : TcpBridge × List (List UInt8) :=
  match b.reading with
  | .hdr hdr _ =>
      let hdr := hdr ++ chunk
      if h : hdr.length < 4 then ({ b with reading := .hdr hdr h }, [])
      -- bad sync bytes: all four are discarded
      else if hdr.getD 0 0 ≠ 0x94 ∨ hdr.getD 1 0 ≠ 0xC3 then
        ({ b with reading := Reading.start }, [])
      else
        let length := announced (hdr.getD 2 0) (hdr.getD 3 0)
        if h : 0 < length then ({ b with reading := .payload length [] h }, [])
        else (b.append [], [[]])
  | .payload length payload _ =>
      let payload := payload ++ chunk
      if h : payload.length < length then ({ b with reading := .payload length payload h }, [])
      else (b.append payload, [payload])

/-- `recv` returns at least one byte, and no more than it was asked for. -/
def Received (b : TcpBridge) : List (List UInt8) → Prop
  | [] => True
  | chunk :: chunks =>
      (0 < chunk.length ∧ chunk.length ≤ b.reading.wanted) ∧ (b.recv chunk).1.Received chunks

/-- The bridge, byte by byte. -/
def read : TcpBridge → List UInt8 → TcpBridge × List (List UInt8) :=
  scan fun b byte => b.recv [byte]

theorem splits_read : Splits read := splits_scan _

/-- A byte that leaves more to come. -/
theorem recv_cons (b : TcpBridge) (x : UInt8) {xs : List UInt8} (hne : xs ≠ [])
    (hle : (x :: xs).length ≤ b.reading.wanted) :
    (b.recv [x]).2 = [] ∧ xs.length ≤ (b.recv [x]).1.reading.wanted ∧
      (b.recv [x]).1.recv xs = b.recv (x :: xs) := by
  have hpos := List.length_pos_of_ne_nil hne
  obtain ⟨reading, rxQueue, fromNum⟩ := b
  rw [List.length_cons] at hle
  cases reading with
  | hdr hdr h =>
      simp only [Reading.wanted] at hle
      have hlt : (hdr ++ [x]).length < 4 := by
        rw [List.length_append, List.length_singleton]
        omega
      have hbyte : (TcpBridge.mk (.hdr hdr h) rxQueue fromNum).recv [x]
          = (⟨.hdr (hdr ++ [x]) hlt, rxQueue, fromNum⟩, []) := dif_pos hlt
      rw [hbyte]
      refine ⟨rfl, ?_, ?_⟩
      · simp only [Reading.wanted, List.length_append, List.length_singleton]
        omega
      · simp only [recv, List.append_assoc, List.singleton_append]
        rfl
  | payload length payload h =>
      simp only [Reading.wanted] at hle
      have hlt : (payload ++ [x]).length < length := by
        rw [List.length_append, List.length_singleton]
        omega
      have hbyte : (TcpBridge.mk (.payload length payload h) rxQueue fromNum).recv [x]
          = (⟨.payload length (payload ++ [x]) hlt, rxQueue, fromNum⟩, []) := dif_pos hlt
      rw [hbyte]
      refine ⟨rfl, ?_, ?_⟩
      · simp only [Reading.wanted, List.length_append, List.length_singleton]
        omega
      · simp only [recv, List.append_assoc, List.singleton_append]
        rfl

/-- **How `recv` cuts the stream does not matter.** -/
theorem recv_eq_read (b : TcpBridge) {chunk : List UInt8} (hpos : 0 < chunk.length)
    (hle : chunk.length ≤ b.reading.wanted) : b.recv chunk = b.read chunk := by
  induction chunk generalizing b with
  | nil => exact absurd hpos (by simp)
  | cons x xs ih =>
      rcases eq_or_ne xs [] with rfl | hne
      · rw [read, scan_cons, scan]
        simp only [List.append_nil]
      · obtain ⟨hnil, hle', heq⟩ := recv_cons b x hne hle
        have hrest := ih (b.recv [x]).1 (List.length_pos_of_ne_nil hne) hle'
        rw [← heq, hrest, read, scan_cons, hnil]
        rfl

theorem run_recv {b : TcpBridge} {chunks : List (List UInt8)} (h : b.Received chunks) :
    run recv b chunks = b.read chunks.flatten := by
  induction chunks generalizing b with
  | nil => rfl
  | cons chunk chunks ih =>
      obtain ⟨⟨hpos, hle⟩, hrest⟩ := h
      rw [List.flatten_cons, splits_read, ← recv_eq_read b hpos hle, ← ih hrest]
      rfl

/-- Every stream can arrive, a byte at a time. -/
theorem received_singletons (b : TcpBridge) (bs : List UInt8) :
    b.Received (bs.map fun byte => [byte]) := by
  induction bs generalizing b with
  | nil => trivial
  | cons byte bs ih => exact ⟨⟨Nat.one_pos, b.reading.wanted_pos⟩, ih _⟩

/-! ## The queue -/

/-- The queue and the counter after a payload. -/
theorem append_queue {b : TcpBridge} {appended : List (List UInt8)}
    (h : b.rxQueue = Recent.last 64 appended) (payload : List UInt8) :
    (b.append payload).rxQueue = Recent.last 64 (appended ++ [payload]) := by
  have hle : (Recent.last 64 appended).length ≤ 64 := by
    rw [Recent.last, List.length_drop]
    omega
  rw [← Recent.last_last_append, ← h]
  rw [← h] at hle
  simp only [append, Recent.last, List.length_append, List.length_singleton]
  split_ifs with hfull
  · rw [show b.rxQueue.length + 1 - 64 = 1 by omega]
  · rw [show b.rxQueue.length + 1 - 64 = 0 by omega, List.drop_zero]

theorem recv_queue {b : TcpBridge} {appended : List (List UInt8)}
    (h : b.rxQueue = Recent.last 64 appended) (chunk : List UInt8) :
    (b.recv chunk).1.rxQueue = Recent.last 64 (appended ++ (b.recv chunk).2) ∧
      (b.recv chunk).1.fromNum = b.fromNum + (b.recv chunk).2.length := by
  unfold recv
  cases b.reading with
  | hdr got hgot =>
      simp only
      split_ifs
      · exact ⟨by rw [List.append_nil]; exact h, rfl⟩
      · exact ⟨by rw [List.append_nil]; exact h, rfl⟩
      · exact ⟨by rw [List.append_nil]; exact h, rfl⟩
      · exact ⟨append_queue h [], rfl⟩
  | payload length got hgot =>
      simp only
      split_ifs
      · exact ⟨by rw [List.append_nil]; exact h, rfl⟩
      · exact ⟨append_queue h _, rfl⟩

/-- **The queue holds the last 64 payloads appended**, and the counter counts them all. -/
theorem run_recv_queue {b : TcpBridge} {appended : List (List UInt8)}
    (h : b.rxQueue = Recent.last 64 appended) (chunks : List (List UInt8)) :
    (run recv b chunks).1.rxQueue = Recent.last 64 (appended ++ (run recv b chunks).2) ∧
      (run recv b chunks).1.fromNum = b.fromNum + (run recv b chunks).2.length := by
  induction chunks generalizing b appended with
  | nil => exact ⟨by rw [run, List.append_nil]; exact h, rfl⟩
  | cons chunk chunks ih =>
      obtain ⟨hqueue, hnum⟩ := recv_queue h chunk
      obtain ⟨hqueue', hnum'⟩ := ih hqueue
      rw [run]
      refine ⟨?_, ?_⟩
      · rw [← List.append_assoc]
        exact hqueue'
      · simp only [hnum', hnum, List.length_append, Nat.add_assoc]

/-! ## Blocks and payloads -/

/-- The bridge expects a header. -/
def AtStart (b : TcpBridge) : Prop := b.reading = Reading.start

/-- Fewer than four bytes of a header. -/
theorem read_short {b : TcpBridge} (h : b.AtStart) {bs : List UInt8} (hlt : bs.length < 4) :
    (b.read bs).2 = [] := by
  rcases eq_or_ne bs [] with rfl | hne
  · rfl
  · have hle : bs.length ≤ b.reading.wanted := by
      rw [h]
      exact hlt.le
    rw [← recv_eq_read b (List.length_pos_of_ne_nil hne) hle]
    unfold recv
    rw [h]
    exact congrArg Prod.snd (dif_pos hlt)

/-- Four bytes from the start of a header. -/
theorem read_block {b : TcpBridge} (h : b.AtStart) (a₀ a₁ a₂ a₃ : UInt8) :
    b.read [a₀, a₁, a₂, a₃]
      = if a₀ ≠ 0x94 ∨ a₁ ≠ 0xC3 then ({ b with reading := Reading.start }, [])
        else if hpos : 0 < announced a₂ a₃ then
          ({ b with reading := .payload (announced a₂ a₃) [] hpos }, [])
        else (b.append [], [[]]) := by
  have hle : [a₀, a₁, a₂, a₃].length ≤ b.reading.wanted := by
    rw [h]
    exact le_rfl
  rw [← recv_eq_read b (List.length_pos_of_ne_nil (List.cons_ne_nil a₀ _)) hle]
  unfold recv
  rw [h]
  rfl

/-- Four bytes that are no header are thrown away. -/
theorem read_bad {b : TcpBridge} (h : b.AtStart) {a₀ a₁ : UInt8} (a₂ a₃ : UInt8)
    (hbad : ¬ (a₀ = kStart1 ∧ a₁ = kStart2)) :
    (b.read [a₀, a₁, a₂, a₃]).2 = [] ∧ (b.read [a₀, a₁, a₂, a₃]).1.AtStart := by
  have hsync : a₀ ≠ 0x94 ∨ a₁ ≠ 0xC3 := not_and_or.mp hbad
  rw [read_block h, if_pos hsync]
  exact ⟨rfl, rfl⟩

/-- Part of a payload. -/
theorem read_payload_part {b : TcpBridge} {length : ℕ} {got : List UInt8} {hgot : got.length < length}
    (h : b.reading = .payload length got hgot) {bs : List UInt8}
    (hlt : got.length + bs.length < length) : (b.read bs).2 = [] := by
  rcases eq_or_ne bs [] with rfl | hne
  · rfl
  · have hle : bs.length ≤ b.reading.wanted := by
      rw [h, Reading.wanted]
      omega
    have hlen : (got ++ bs).length < length := by
      rw [List.length_append]
      exact hlt
    rw [← recv_eq_read b (List.length_pos_of_ne_nil hne) hle]
    unfold recv
    rw [h]
    exact congrArg Prod.snd (dif_pos hlen)

/-- The rest of a payload. -/
theorem read_payload_full {b : TcpBridge} {length : ℕ} {got : List UInt8} {hgot : got.length < length}
    (h : b.reading = .payload length got hgot) {bs : List UInt8}
    (heq : got.length + bs.length = length) :
    b.read bs = (b.append (got ++ bs), [got ++ bs]) := by
  have hpos : 0 < bs.length := by omega
  have hle : bs.length ≤ b.reading.wanted := by
    rw [h, Reading.wanted]
    omega
  have hlen : ¬ (got ++ bs).length < length := by
    rw [List.length_append]
    omega
  rw [← recv_eq_read b hpos hle]
  unfold recv
  rw [h]
  exact dif_neg hlen

/-- **A whole frame** from the start of a header. -/
theorem completes_frame {b : TcpBridge} (h : b.AtStart) {payload : List UInt8}
    (hlen : payload.length < 65536) :
    Completes read b (header payload.length ++ payload) payload ∧
      (b.read (header payload.length ++ payload)).1.AtStart := by
  set hi := UInt8.ofNat (payload.length / 256 % 256)
  set lo := UInt8.ofNat (payload.length % 256)
  have hann : announced hi lo = payload.length := announced_header hlen
  have hhead : header payload.length = [kStart1, kStart2, hi, lo] := header_eq _
  have hgood : ¬ (kStart1 ≠ 0x94 ∨ kStart2 ≠ 0xC3) := by decide
  rcases List.eq_nil_or_concat' payload with rfl | ⟨init, last, hpayload⟩
  · have hzero : ¬ 0 < announced hi lo := by
      rw [hann]
      exact Nat.lt_irrefl 0
    have hfull : b.read (header ([] : List UInt8).length) = (b.append [], [[]]) := by
      rw [hhead, read_block h, if_neg hgood, dif_neg hzero]
    rw [List.append_nil, hfull]
    exact ⟨⟨[kStart1, kStart2, hi], lo, hhead, read_short h (by decide), by rw [hfull]⟩, rfl⟩
  · have hpos : 0 < announced hi lo := by
      rw [hann, hpayload, List.length_append]
      exact Nat.succ_pos _
    have hhdr : b.read (header payload.length)
        = ({ b with reading := .payload (announced hi lo) [] hpos }, []) := by
      rw [hhead, read_block h, if_neg hgood, dif_pos hpos]
    have hfull : b.read (header payload.length ++ payload) = (b.append payload, [payload]) := by
      rw [splits_read, hhdr]
      simp only
      rw [read_payload_full rfl (by simpa using hann.symm)]
      rfl
    have hinit : (b.read (header payload.length ++ init)).2 = [] := by
      rw [splits_read, hhdr]
      simp only
      rw [List.nil_append]
      refine read_payload_part rfl ?_
      rw [hann, hpayload, List.length_append]
      simp
    rw [hfull]
    refine ⟨⟨header payload.length ++ init, last, ?_, hinit, by rw [hfull]⟩, rfl⟩
    rw [List.append_assoc, ← hpayload]

/-! ## The first frame on the grid -/

/-- Whole blocks that are no headers. -/
inductive Blocks : List UInt8 → Prop
  | nil : Blocks []
  | block {a₀ a₁ a₂ a₃ : UInt8} {bs : List UInt8} (h : ¬ (a₀ = kStart1 ∧ a₁ = kStart2))
      (hbs : Blocks bs) : Blocks (a₀ :: a₁ :: a₂ :: a₃ :: bs)

theorem read_blocks {bs : List UInt8} (h : Blocks bs) {b : TcpBridge} (hb : b.AtStart) :
    (b.read bs).2 = [] ∧ (b.read bs).1.AtStart := by
  induction h generalizing b with
  | nil => exact ⟨rfl, hb⟩
  | @block a₀ a₁ a₂ a₃ bs hbad _ ih =>
      obtain ⟨hnil, hstart⟩ := read_bad hb a₂ a₃ hbad
      have hsplit : a₀ :: a₁ :: a₂ :: a₃ :: bs = [a₀, a₁, a₂, a₃] ++ bs := rfl
      rw [hsplit, splits_read, hnil]
      exact ih hstart

/-- **The first frame after whole blocks.** -/
theorem completes {b : TcpBridge} {stray payload : List UInt8} (hb : b.AtStart)
    (hstray : Blocks stray) (hlen : payload.length < 65536) :
    Completes read b (stray ++ (header payload.length ++ payload)) payload ∧
      (b.read (stray ++ (header payload.length ++ payload))).1.AtStart := by
  obtain ⟨hout, hstart⟩ := read_blocks hstray hb
  obtain ⟨⟨init, last, hcut, hinit, hfull⟩, hend⟩ := completes_frame hstart hlen
  rw [splits_read, hout]
  refine ⟨⟨stray ++ init, last, by rw [hcut, List.append_assoc], ?_, ?_⟩, hend⟩
  · rw [splits_read, hout]
    exact hinit
  · rw [splits_read, hout]
    exact hfull

/-- `bs` holds a frame after whole blocks that are no headers. -/
def HasBlockFrame (bs : List UInt8) : Prop :=
  ∃ stray payload rest, Blocks stray ∧ payload.length < 65536 ∧
    bs = stray ++ (header payload.length ++ payload) ++ rest

/-- **What is appended was framed on the grid.** -/
theorem hasBlockFrame_of_read (bs : List UInt8) {b : TcpBridge} (hb : b.AtStart)
    (hout : (b.read bs).2 ≠ []) : HasBlockFrame bs := by
  induction hn : bs.length using Nat.strong_induction_on generalizing bs b with
  | _ n ih =>
  subst hn
  rcases Nat.lt_or_ge bs.length 4 with hlt | hge
  · exact absurd (read_short hb hlt) hout
  · match bs, hge with
    | a₀ :: a₁ :: a₂ :: a₃ :: bs, _ =>
        have hsplit : a₀ :: a₁ :: a₂ :: a₃ :: bs = [a₀, a₁, a₂, a₃] ++ bs := rfl
        by_cases hstart : a₀ = kStart1 ∧ a₁ = kStart2
        · obtain ⟨rfl, rfl⟩ := hstart
          rcases Nat.lt_or_ge bs.length (announced a₂ a₃) with hlt | hle
          · -- the payload is not complete
            exfalso
            have hpos : 0 < announced a₂ a₃ := by omega
            apply hout
            rw [hsplit, splits_read, read_block hb, if_neg (by decide), dif_pos hpos]
            exact read_payload_part rfl (by simpa using hlt)
          · have htake : (bs.take (announced a₂ a₃)).length = announced a₂ a₃ :=
              List.length_take_of_le hle
            refine ⟨[], bs.take (announced a₂ a₃), bs.drop (announced a₂ a₃), Blocks.nil, ?_, ?_⟩
            · rw [htake]
              exact announced_lt a₂ a₃
            · rw [htake, header_announced, List.nil_append, List.append_assoc,
                List.take_append_drop]
              rfl
        · obtain ⟨hnil, hend⟩ := read_bad hb a₂ a₃ hstart
          rw [hsplit, splits_read, hnil] at hout
          obtain ⟨stray, payload, rest, hstray, hlen, rfl⟩ :=
            ih bs.length (by simp only [List.length_cons]; omega) bs hend hout rfl
          exact ⟨_, payload, rest, Blocks.block hstart hstray, hlen, rfl⟩

/-! ## The bridge and the parser -/

/-- What the bridge appends and what the parser emits, as the stream arrives and however
`recv` cuts it. -/
def Agrees (stream : List UInt8) : Prop :=
  ∀ chunks, ({} : TcpBridge).Received chunks → chunks.flatten <+: stream →
    (run recv {} chunks).2 = (({} : Deframer).feed chunks.flatten).2

theorem agrees_iff_agree (stream : List UInt8) :
    Agrees stream ↔ Agree read {} Deframer.feed {} stream := by
  constructor
  · intro h bs hbs
    have hflat : (bs.map fun byte => [byte]).flatten = bs := by
      rw [← List.flatMap_def]
      exact List.flatMap_singleton' bs
    have hrec := received_singletons {} bs
    have hall := h _ hrec (by rw [hflat]; exact hbs)
    rwa [run_recv hrec, hflat] at hall
  · intro h chunks hrec hpre
    rw [run_recv hrec]
    exact h _ hpre

/-- The frames of the stream are the same on the grid and byte by byte: before each frame
stand whole blocks that are no headers, and that the parser passes over; and after the last
no frame is complete in either reading. -/
inductive InStep : List UInt8 → Prop
  | rest {bs : List UInt8} (hblock : ¬ HasBlockFrame bs) (hscan : ¬ Deframer.HasFrame bs) :
      InStep bs
  | frame {stray payload bs : List UInt8} (hblock : Blocks stray) (hscan : Deframer.Passed stray)
      (hlen : payload.length ≤ kMaxPayload) (h : InStep bs) :
      InStep (stray ++ (header payload.length ++ payload) ++ bs)

theorem agree_of_inStep {bs : List UInt8} (h : InStep bs) {b : TcpBridge} {d : Deframer}
    (hb : b.AtStart) (hd : d.state = .scanStart1) : Agree read b Deframer.feed d bs := by
  induction h generalizing b d with
  | @rest bs hblock hscan =>
      have hread : (b.read bs).2 = [] := by
        by_contra hne
        exact hblock (hasBlockFrame_of_read bs hb hne)
      have hfeed : (d.feed bs).2 = [] := by
        by_contra hne
        exact hscan (Deframer.hasFrame_of_feed bs (Deframer.before_of_scan hd bs) hne)
      exact agree_of_nil splits_read Deframer.splits_feed hread hfeed
  | @frame stray payload bs hblock hscan hlen _ ih =>
      obtain ⟨hdone, hstart⟩ := completes hb hblock (lt_of_le_of_lt hlen (by decide))
      obtain ⟨hdone', hstate⟩ := Deframer.completes (Deframer.before_of_scan hd _) hscan hlen
      exact (agree_append_iff splits_read Deframer.splits_feed hdone hdone').mpr (ih hstart hstate)

theorem inStep_of_agree (bs : List UInt8) {b : TcpBridge} {d : Deframer} (hb : b.AtStart)
    (hd : d.state = .scanStart1) (h : Agree read b Deframer.feed d bs) : InStep bs := by
  induction hn : bs.length using Nat.strong_induction_on generalizing bs b d with
  | _ n ih =>
  subst hn
  have hread : HasBlockFrame bs → (b.read bs).2 ≠ [] := by
    rintro ⟨stray, payload, rest, hstray, hlen, rfl⟩ hnil
    have hdone := (completes hb hstray hlen).1
    rw [splits_read, hdone.out] at hnil
    exact List.cons_ne_nil _ _ hnil
  have hfeed : Deframer.HasFrame bs → (d.feed bs).2 ≠ [] := by
    rintro ⟨stray, payload, rest, hstray, hlen, rfl⟩ hnil
    have hdone := (Deframer.completes (Deframer.before_of_scan hd _) hstray hlen).1
    rw [Deframer.splits_feed, hdone.out] at hnil
    exact List.cons_ne_nil _ _ hnil
  have hout : (b.read bs).2 = (d.feed bs).2 := h bs (List.prefix_refl bs)
  by_cases hblock : HasBlockFrame bs
  · have hscan : Deframer.HasFrame bs := by
      apply Deframer.hasFrame_of_feed bs (Deframer.before_of_scan hd bs)
      rw [← hout]
      exact hread hblock
    obtain ⟨stray, payload, rest, hstray, hlen, rfl⟩ := hblock
    obtain ⟨stray', payload', rest', hstray', hlen', heq⟩ := hscan
    obtain ⟨hdone, hstart⟩ := completes hb hstray hlen
    obtain ⟨hdone', hstate⟩ :=
      Deframer.completes (Deframer.before_of_scan hd _) hstray' hlen'
    -- both readings complete the same frame
    obtain ⟨hsame, rfl⟩ := h.first_eq splits_read Deframer.splits_feed
      (List.prefix_append _ rest) (by rw [heq]; exact List.prefix_append _ rest') hdone hdone'
    obtain rfl := List.append_cancel_right hsame
    rw [agree_append_iff splits_read Deframer.splits_feed hdone hdone'] at h
    refine InStep.frame hstray hstray' hlen' (ih rest.length ?_ rest hstart hstate h rfl)
    simp only [List.length_append, header, List.length_cons]
    omega
  · have hscan : ¬ Deframer.HasFrame bs := by
      intro hframe
      apply hblock
      apply hasBlockFrame_of_read bs hb
      rw [hout]
      exact hfeed hframe
    exact InStep.rest hblock hscan

/-- **Where the bridge and the parser agree**: on the streams whose frames are the same on
the grid and byte by byte, and on no others. -/
theorem agrees_iff (stream : List UInt8) : Agrees stream ↔ InStep stream := by
  have hb : ({} : TcpBridge).AtStart := rfl
  have hd : ({} : Deframer).state = .scanStart1 := rfl
  rw [agrees_iff_agree]
  exact ⟨inStep_of_agree stream hb hd, fun h => agree_of_inStep h hb hd⟩

/-- One stray byte before a frame: the bridge loses the frame. -/
theorem stray_byte_loses_frame :
    ¬ ∀ (stream : List UInt8) (chunks : List (List UInt8)),
      ({} : TcpBridge).Received chunks → chunks.flatten = stream →
        (run recv {} chunks).2 = (({} : Deframer).feed stream).2 := by
  intro h
  have hlost := h [0x0A, 0x94, 0xC3, 0, 1, 7] [[0x0A, 0x94, 0xC3, 0], [1, 7]]
    ⟨by decide, by decide, trivial⟩ rfl
  exact absurd hlost (by decide)

end TcpBridge

end StreamApi
