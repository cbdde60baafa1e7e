/-
# The transmitter's samples over the air

Frames are queued while `pull` writes the bursts out in pieces of any size.  Once the transmitter
is idle, the samples it wrote hold every frame queued, whole and in order (`frames_of_calls`).
Behind a flat channel a frame is still a frame, with another gain, wherever it starts and whatever
follows it (`decode_stream`), so the reading from each start decodes to the payload queued there
(`calls_onAir`).
-/
import QuadrfMesh.Lora.AirRoundTrip
import QuadrfMesh.Phy.TxStream

open Fourier

/-! ## The frames in the samples -/

namespace Transmitter

section Frames

variable {Sample : Type} [Zero Sample]

/-- The frames some calls queue. -/
def queuedFrames (ops : List (Op Sample)) : List (List Sample) :=
  ops.filterMap fun op => match op with
    | .enqueueFrame frame => some frame
    | _ => none

/-- A frame in its burst. -/
theorem burstOf_eq (tx : Transmitter Sample) (frame : List Sample) :
    ∃ warmup gap, tx.burstOf frame = warmup ++ frame ++ gap :=
  ⟨_, _, rfl⟩

/-- **The frames served start one after the other** in the samples of the events. -/
theorem starts_of_events (tx : Transmitter Sample) (es : List (Fifo.Event (List Sample)))
    (hne : ∀ frame ∈ Fifo.served es, frame ≠ []) :
    ∃ starts : List ℕ,
      List.Forall₂ (fun frame start => frame <+: (es.flatMap tx.onAir).drop start) (Fifo.served es)
        starts ∧ starts.Pairwise (· < ·) := by
  induction es with
  | nil => exact ⟨[], List.Forall₂.nil, List.Pairwise.nil⟩
  | cons e es ih =>
      have hne' : ∀ frame ∈ Fifo.served es, frame ≠ [] := by
        intro frame hframe
        refine hne frame ?_
        rw [show e :: es = [e] ++ es from rfl, Fifo.served_append]
        exact List.mem_append_right _ hframe
      obtain ⟨starts, hstarts, hlt⟩ := ih hne'
      -- what is served later starts behind this event
      have hshift : List.Forall₂ (fun frame start =>
          frame <+: ((e :: es).flatMap tx.onAir).drop start) (Fifo.served es)
            (starts.map ((tx.onAir e).length + ·)) := by
        rw [List.forall₂_map_right_iff]
        refine hstarts.imp fun frame start hframe => ?_
        rwa [List.flatMap_cons, List.drop_append, List.drop_eq_nil_of_le (by omega), List.nil_append,
          Nat.add_sub_cancel_left]
      have hlt' : (starts.map ((tx.onAir e).length + ·)).Pairwise (· < ·) :=
        List.pairwise_map.mpr (hlt.imp fun h => Nat.add_lt_add_left h _)
      cases e with
      | put frame => exact ⟨_, hshift, hlt'⟩
      | clear => exact ⟨_, hshift, hlt'⟩
      | idle => exact ⟨_, hshift, hlt'⟩
      | serve frame =>
          obtain ⟨warmup, gap, hburst⟩ := burstOf_eq tx frame
          have honAir : tx.onAir (.serve frame) = warmup ++ frame ++ gap := hburst
          refine ⟨warmup.length :: _, List.Forall₂.cons ?_ hshift, List.pairwise_cons.mpr ⟨?_, hlt'⟩⟩
          · rw [List.flatMap_cons, honAir, List.append_assoc, List.append_assoc, List.drop_left]
            exact List.prefix_append _ _
          · intro start hstart
            obtain ⟨start', -, rfl⟩ := List.mem_map.mp hstart
            have hpos : 0 < frame.length :=
              List.length_pos_of_ne_nil (hne frame List.mem_cons_self)
            rw [honAir, List.length_append, List.length_append]
            omega

omit [Zero Sample] in
/-- The puts of a trace are the frames queued; nothing is cleared unless a call clears. -/
theorem puts_of_trace {ops : List (Op Sample)} {trace : List (List (Fifo.Event (List Sample)))}
    (h : List.Forall₂ Events ops trace) (hclear : .clearQueue ∉ ops) :
    Fifo.puts trace.flatten = queuedFrames ops ∧ .clear ∉ trace.flatten := by
  induction h with
  | nil => exact ⟨rfl, List.not_mem_nil⟩
  | @cons op es ops trace hes _ ih =>
      obtain ⟨hputs, hnot⟩ := ih fun hmem => hclear (List.mem_cons_of_mem _ hmem)
      have hsplit : Fifo.puts (es ++ trace.flatten) = Fifo.puts es ++ Fifo.puts trace.flatten :=
        List.filterMap_append
      rw [List.flatten_cons, hsplit, hputs, List.mem_append, not_or]
      cases op with
      | enqueueFrame frame =>
          obtain rfl : es = [.put frame] := hes
          exact ⟨rfl, by simp, hnot⟩
      | clearQueue => exact absurd List.mem_cons_self hclear
      | pull n =>
          have hserved : ∀ e ∈ es, e = .idle ∨ ∃ frame, e = .serve frame := hes
          refine ⟨?_, ?_, hnot⟩
          · have hnone : Fifo.puts es = [] := by
              rw [Fifo.puts, List.filterMap_eq_nil_iff]
              intro e he
              rcases hserved e he with rfl | ⟨frame, rfl⟩ <;> rfl
            rw [hnone]
            rfl
          · intro hmem
            rcases hserved _ hmem with h | ⟨frame, h⟩ <;> exact absurd h (by simp)

/-- **Every frame queued is in the samples written**, whole and in order, once the transmitter is
idle. -/
theorem frames_of_calls {tx : Transmitter Sample} (hqueue : tx.queue = []) (hrest : tx.rest = [])
    {ops : List (Op Sample)} (hne : ∀ frame ∈ queuedFrames ops, frame ≠ [])
    (hclear : .clearQueue ∉ ops) (hidle : (tx.calls ops).2.isIdle = true) :
    ∃ starts : List ℕ,
      List.Forall₂ (fun frame start => frame <+: (tx.calls ops).1.flatten.drop start)
        (queuedFrames ops) starts ∧ starts.Pairwise (· < ·) := by
  have hops : ∀ frame, .enqueueFrame frame ∈ ops → frame ≠ [] := fun frame hmem =>
    hne frame (List.mem_filterMap.mpr ⟨_, hmem, rfl⟩)
  have hnone : ∀ frame ∈ tx.queue, frame ≠ [] := by
    rw [hqueue]
    exact fun frame hmem => absurd hmem List.not_mem_nil
  obtain ⟨⟨trace, htrace, hrun⟩, -⟩ := calls_behave hnone hops
  obtain ⟨hputs, hnot⟩ := puts_of_trace htrace hclear
  obtain ⟨hserves, hair, -, -⟩ := hrun ops.length
  obtain ⟨hqueue', hrest'⟩ := (isIdle_iff_rest _).mp hidle
  rw [List.take_length, List.take_of_length_le htrace.length_eq.ge] at hserves hair
  rw [hqueue, hqueue'] at hserves
  rw [hrest, hrest', List.nil_append, List.append_nil] at hair
  have hserved : Fifo.served trace.flatten = queuedFrames ops := by
    have h := hserves.served_append_eq hnot
    rwa [List.append_nil, List.nil_append, hputs] at h
  have h := starts_of_events tx trace.flatten (by rwa [hserved])
  rwa [hserved, hair] at h

/-- The samples that wait to go out. -/
def pendingSamples (tx : Transmitter Sample) : ℕ :=
  tx.rest.length + ((tx.queue.map tx.burstOf).flatten).length

/-- **A long enough pull** leaves the transmitter idle. -/
theorem isIdle_of_pull {tx : Transmitter Sample} (hne : ∀ frame ∈ tx.queue, frame ≠ []) {n : ℕ}
    (hn : tx.pendingSamples < n) : (tx.pull n).tx.isIdle = true := by
  obtain ⟨started, h⟩ := pull_spec tx n
  have hair := congrArg List.length h.air_eq
  have hqueue := congrArg (fun q => ((q.map tx.burstOf).flatten).length) h.queue_eq
  simp only [List.map_append, List.flatten_append, List.length_append] at hqueue
  rw [List.length_append, List.length_append, List.length_take, h.length_out] at hair
  have hlt : (tx.pull n).fromBurst < n := by
    unfold pendingSamples at hn
    have := h.fromBurst_le
    omega
  exact (isIdle_iff_rest _).mpr ⟨h.queue_of_silence hne hlt, h.rest_of_silence hlt⟩

end Frames

end Transmitter

/-! ## A frame in the stream -/

section Channel

theorem channel_append (g : ℂ) (q : ℚ) (xs ys : List ℂ) :
    ∃ zs, channel g q (xs ++ ys) = channel g q xs ++ zs := by
  rw [channel, List.mapIdx_append]
  exact ⟨_, rfl⟩

/-- A channel that starts later is one with another gain. -/
theorem drop_channel (g : ℂ) (q : ℚ) (xs : List ℂ) (start : ℕ) :
    (channel g q xs).drop start = channel (g * cis (q * start)) q (xs.drop start) := by
  refine List.ext_getElem (by simp) fun n hn hn' => ?_
  simp only [channel, List.getElem_drop, List.getElem_mapIdx]
  push_cast
  rw [mul_add, cis_add]
  ring

end Channel

section Values

variable {S P : Type} [Field P] [LinearOrder P] [Zero S] [Add S] [Mul S] (ops : SampleOps S P)
  {p : LoraParams}

omit [Zero S] [Add S] [Mul S] in
theorem windowAt_left {xs ys : List S} {start : ℕ} (h : start + samplesPerSymbol p ≤ xs.length) :
    windowAt p (xs ++ ys) start = windowAt p xs start := by
  rw [windowAt, List.drop_append_of_le_length (by omega),
    List.take_append_of_le_length (by rw [List.length_drop]; omega), windowAt]

/-- What is read past the end of a frame comes behind its values. -/
theorem frameValues_append (xs ys : List S) {n m : ℕ} (hn : 0 < n)
    (hlen : dataStart p + n * samplesPerSymbol p ≤ xs.length) (hm : n ≤ m) :
    ∃ rest, frameValues ops p (xs ++ ys) m = frameValues ops p xs n ++ rest := by
  obtain ⟨k, rfl⟩ := Nat.exists_eq_add_of_le hm
  have hfirst : 0 + samplesPerSymbol p ≤ xs.length := by
    have := Nat.le_mul_of_pos_left (samplesPerSymbol p) hn
    omega
  rw [frameValues, List.range_add, List.map_append, frameValues, windowAt_left hfirst]
  refine ⟨_, congrArg (· ++ _) (List.map_congr_left fun j hj => ?_)⟩
  have hj' : (j + 1) * samplesPerSymbol p ≤ n * samplesPerSymbol p :=
    Nat.mul_le_mul_right _ (List.mem_range.mp hj)
  rw [Nat.succ_mul] at hj'
  rw [windowAt_left (by omega)]

end Values

section Decode

variable {p : LoraParams} (hp : LegalParams p) {payload : List UInt8}
  (hlen : 1 ≤ payload.length) (hlen' : payload.length ≤ 255)
include hp hlen hlen'

/-- The decoder reads no further than its frame. -/
theorem decodeFrame_append (rest : List UInt16) :
    decodeFrame p (encodeFrame p payload ++ rest)
      = frameResult p payload (frameSymbolCount p payload.length) := by
  have hfl := length_encodeFrame_blocks hp payload
  have hcount : frameSymbolCount p payload.length
      = 8 + dataBlockCount p (nibbleStream p payload).length * (p.cr + 4) := by
    rw [frameSymbolCount_eq p (by have := hp.sf_ge; omega), length_nibbleStream]
  rw [hcount]
  refine decodeFrame_of_blocks hp hlen hlen' _ (by rw [List.length_append]; omega) ⟨?_, ?_⟩
  · rw [List.take_append_of_le_length (by omega)]
    exact decodeBlock_header hp hlen' _ 8 rfl fun i _ _ => rfl
  · intro k hk
    have hkle : (k + 1) * (p.cr + 4)
        ≤ dataBlockCount p (nibbleStream p payload).length * (p.cr + 4) :=
      Nat.mul_le_mul_right _ hk
    rw [Nat.succ_mul] at hkle
    have hblock : dataBlock p.cr (encodeFrame p payload ++ rest) k
        = dataBlock p.cr (encodeFrame p payload) k := by
      rw [dataBlock, List.drop_append_of_le_length (by omega),
        List.take_append_of_le_length (by rw [List.length_drop]; omega), dataBlock]
    rw [hblock]
    exact decodeBlock_data hp hlen' _ k (p.cr + 4) rfl hk (fun i _ _ => rfl) (Or.inr le_rfl)

end Decode

section Air

variable {p : LoraParams} (hp : LegalParams p) (hos : 0 < osFactor p)
  (hfits : samplesPerSymbol p < 2 ^ 32) (hpre : 0 < p.preambleLen)
  {forward : List ℂ → List ℂ} (hforward : ∀ x, forward x = dft x)
  {amplitude : ℝ} (hamp : amplitude ≠ 0) {g : ℂ} (hg : g ≠ 0) (c : ℤ)
include hp hos hfits hpre hforward hamp hg

/-- **A frame in a stream**, wherever it starts, decodes to its payload. -/
theorem decode_stream {payload : List UInt8} (hlen : 1 ≤ payload.length)
    (hlen' : payload.length ≤ 255) {stream : List ℂ} {start : ℕ}
    (hframe : modulate (complexOps forward) amplitude p (encodeFrame p payload)
      <+: stream.drop start) {n : ℕ} (hn : frameSymbolCount p payload.length ≤ n) :
    decodeFrame p (frameValues (complexOps forward) p
        ((channel g (chipOffset p c) stream).drop start) n)
      = frameResult p payload (frameSymbolCount p payload.length) := by
  have hcount : (encodeFrame p payload).length = frameSymbolCount p payload.length := by
    rw [length_encodeFrame_blocks hp, frameSymbolCount_eq p (by have := hp.sf_ge; omega),
      length_nibbleStream]
  have hg' : g * cis (chipOffset p c * start) ≠ 0 := mul_ne_zero hg (cis_ne_zero _)
  obtain ⟨later, hlater⟩ := hframe
  obtain ⟨behind, hbehind⟩ := channel_append (g * cis (chipOffset p c * start)) (chipOffset p c)
    (modulate (complexOps forward) amplitude p (encodeFrame p payload)) later
  have hpos : 0 < frameSymbolCount p payload.length := by
    rw [← hcount, length_encodeFrame_blocks hp]
    omega
  have hfits' : dataStart p + frameSymbolCount p payload.length * samplesPerSymbol p
      ≤ (channel (g * cis (chipOffset p c * start)) (chipOffset p c)
        (modulate (complexOps forward) amplitude p (encodeFrame p payload))).length := by
    rw [length_channel, length_modulate, frameSamples, hcount, dataStart, add_mul]
    omega
  obtain ⟨rest, hrest⟩ := frameValues_append (complexOps forward) _ behind hpos hfits' hn
  have hvalues := frameValues_onAir hp hos hfits hforward hamp hg' c payload hpre
  rw [onAir] at hvalues
  rw [drop_channel, ← hlater, hbehind, hrest, hvalues]
  exact decodeFrame_append hp hlen hlen' rest

/-- **From the queue to the payloads.**  Payloads are queued while the transmitter's samples are
pulled in pieces of any size.  Once it is idle there is a place in what it wrote for each payload,
in the order they were queued, from which a receiver behind the channel reads that payload. -/
theorem calls_onAir {amplitude' : ℂ} {warmupSyms gapSyms : ℕ} {tx : Transmitter ℂ}
    (htx : tx = { Transmitter.new p amplitude' with warmupSyms, gapSyms })
    {payloads : List (List UInt8)}
    (hlen : ∀ payload ∈ payloads, 1 ≤ payload.length ∧ payload.length ≤ 255)
    {ops : List (Transmitter.Op ℂ)}
    (hops : Transmitter.queuedFrames ops = payloads.map fun payload =>
      modulate (complexOps forward) amplitude p (encodeFrame p payload))
    (hclear : .clearQueue ∉ ops) (hidle : (tx.calls ops).2.isIdle = true) :
    ∃ starts : List ℕ, starts.Pairwise (· < ·) ∧
      List.Forall₂ (fun payload start => ∀ n, frameSymbolCount p payload.length ≤ n →
        decodeFrame p (frameValues (complexOps forward) p
          ((channel g (chipOffset p c) (tx.calls ops).1.flatten).drop start) n)
        = frameResult p payload (frameSymbolCount p payload.length)) payloads starts := by
  have hne : ∀ frame ∈ Transmitter.queuedFrames ops, frame ≠ [] := by
    rw [hops]
    intro frame hmem
    obtain ⟨payload, -, rfl⟩ := List.mem_map.mp hmem
    refine List.ne_nil_of_length_pos ?_
    rw [length_modulate, frameSamples, samplesPerSymbol_eq]
    have hsps : 0 < 2 ^ p.spreadingFactor * osFactor p := Nat.mul_pos (Nat.two_pow_pos _) hos
    omega
  obtain ⟨starts, hstarts, hlt⟩ := Transmitter.frames_of_calls (by rw [htx]; rfl) (by rw [htx]; rfl)
    hne hclear hidle
  rw [hops, List.forall₂_map_left_iff] at hstarts
  refine ⟨starts, hlt, ?_⟩
  rw [List.forall₂_iff_get] at hstarts ⊢
  refine ⟨hstarts.1, fun i hi hi' n hn => ?_⟩
  obtain ⟨h1, h255⟩ := hlen _ (List.getElem_mem hi)
  exact decode_stream hp hos hfits hpre hforward hamp hg c h1 h255 (hstarts.2 i hi hi') hn

omit hp hos hfits hpre hforward hamp hg in
theorem calls_onAir_two :
    ∃ ops : List (Transmitter.Op ℂ), ∃ start : ℕ,
      (decodeFrame { spreadingFactor := 7 } (frameValues (complexOps dft) { spreadingFactor := 7 }
        ((channel Complex.I (chipOffset { spreadingFactor := 7 } 61)
          ((Transmitter.new { spreadingFactor := 7 } (1 : ℂ)).calls ops).1.flatten).drop start)
        300)).payload = [0xFF, 0xEE] := by
  set p : LoraParams := { spreadingFactor := 7 } with hp'
  have hos : osFactor p = 2 := by
    norm_num [osFactor]
    rfl
  have hN : chipCount p = 128 := rfl
  set frameOf := fun payload : List UInt8 =>
    modulate (complexOps dft) 1 p (encodeFrame p payload) with hframeOf
  have hne : ∀ payload, frameOf payload ≠ [] := by
    intro payload
    refine List.ne_nil_of_length_pos ?_
    rw [hframeOf, length_modulate, frameSamples, samplesPerSymbol, hos, hN]
    omega
  set tx : Transmitter ℂ := Transmitter.new p 1
  set queued := ((tx.enqueueFrame (frameOf [0xC0])).enqueueFrame (frameOf [0xFF, 0xEE])) with hqueued
  set ops : List (Transmitter.Op ℂ) := [.enqueueFrame (frameOf [0xC0]),
    .enqueueFrame (frameOf [0xFF, 0xEE]), .pull (queued.pendingSamples + 1)] with hops
  have hidle : (tx.calls ops).2.isIdle = true := by
    show (queued.pull _).tx.isIdle = true
    refine Transmitter.isIdle_of_pull (fun frame hmem => ?_) (Nat.lt_succ_self _)
    have hmem' : frame ∈ [frameOf [0xC0], frameOf [0xFF, 0xEE]] := hmem
    rcases List.mem_pair.mp hmem' with rfl | rfl <;> exact hne _
  obtain ⟨starts, -, hstarts⟩ := calls_onAir (p := p) ⟨by decide, by decide, by decide, by decide⟩
    (by rw [hos]; decide) (by rw [samplesPerSymbol, hos, hN]; decide) (by decide) (fun _ => rfl)
    one_ne_zero Complex.I_ne_zero 61
    (show tx = { Transmitter.new p 1 with warmupSyms := 0, gapSyms := 12 } from rfl)
    (show ∀ payload ∈ [[0xC0], [0xFF, 0xEE]], 1 ≤ payload.length ∧ payload.length ≤ 255 by simp)
    (show Transmitter.queuedFrames ops = _ from rfl) (by simp [hops]) hidle
  obtain ⟨start0, starts', -, hstarts', rfl⟩ := List.forall₂_cons_left_iff.mp hstarts
  obtain ⟨start, -, hread, -, rfl⟩ := List.forall₂_cons_left_iff.mp hstarts'
  exact ⟨ops, start, congrArg DecodeResult.payload (hread 300 (by decide))⟩

end Air
