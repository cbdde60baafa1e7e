/-
# The telemetry socket (`apps/quadrf_lora_phy.cpp`, `apps/quadrf_mesh_monitor.cpp`)

The PHY writes each line to each client with one non-blocking `write`, of which it ignores how
much was taken, and it takes the length that `snprintf` returns, which is more than the buffer
holds when the line is cut short.  The monitor cuts what it reads at the newlines.  What a client
receives is a sequence of complete lines exactly if every write took nothing, or all of a line that
fits its buffer; only the line of a preset name of more than 50 characters does not
(`clients_intact_iff`).
-/
import QuadrfMesh.Lib.Transition
import QuadrfMesh.Phy.TelemetryLine

namespace Telemetry

open Lines

/-! ## The clients -/

/-- The errors `writeTelemetryLine` drops a client for, and the others. -/
inductive Errno
  | epipe | econnreset | ebadf | other
  deriving DecidableEq

/-- What one `write` to a client returns, a count or -1, and the bytes it finds behind the buffer
of a line that does not fit. -/
inductive WriteResult
  | took (n : ℕ) (beyond : List Char := [])
  | refused (errno : Errno)
  deriving DecidableEq

namespace WriteResult

/-- None of the line, or all of it if it fits its buffer. -/
def Whole (r : WriteResult) (fits : Prop) (line : TelemetryLine) : Prop :=
  match r with
  | took n _ => n = 0 ∨ (line.toList.length ≤ n ∧ fits)
  | refused _ => True

/-- The line, and what the kernel takes for it. -/
def offer (r : WriteResult) (size : ℕ) (line : TelemetryLine) : Offer '{' '\n' '\x00' :=
  match r with
  | took n beyond => line.offer size n beyond
  | refused _ => line.offer size 0 []

theorem whole_offer_iff (r : WriteResult) {size : ℕ} (hsize : 1 < size) {line : TelemetryLine}
    {fits : Prop} (hfits : line.toList.length < size ↔ fits) :
    (r.offer size line).Whole ↔ r.Whole fits line := by
  cases r with
  | took n beyond =>
      rw [Whole, ← hfits]
      exact line.whole_offer_iff (by decide) hsize n beyond
  | refused _ =>
      exact iff_of_true ((line.whole_offer_iff (by decide) hsize 0 []).mpr (Or.inl rfl)) trivial

end WriteResult

/-- A connection: what was written to it, and whether it was closed and left the list. -/
structure Client where
  offers : List (Offer '{' '\n' '\x00') := []
  dropped : Bool := false

namespace Client

/-- The bytes the client receives. -/
def stream (c : Client) : List Char := Lines.stream c.offers

/-- The lines that were broadcast to the client. -/
def lines (c : Client) : List TelemetryLine := c.offers.map Offer.line

/-- One turn of the loop in `writeTelemetryLine`, on a line in a buffer of `size` bytes. -/
def write (c : Client) (size : ℕ) (line : TelemetryLine) (r : WriteResult) : Client where
  offers := c.offers ++ [r.offer size line]
  dropped := r = .refused .epipe ∨ r = .refused .econnreset ∨ r = .refused .ebadf

end Client

/-- The PHY's side: the preset's name and the clients, the closed ones included. -/
structure Server where
  presetName : PresetName := .ofPreset .shortTurbo
  clients : List Client := []

/-- `writeTelemetryLine`; `kernel i` is what the write to client `i` returns. -/
def writeTelemetryLine (clients : List Client) (size : ℕ) (line : TelemetryLine)
    (kernel : ℕ → WriteResult) : List Client :=
  clients.mapIdx fun i c => if c.dropped then c else c.write size line (kernel i)

/-- What happens on the telemetry socket. -/
inductive Action
  /-- `acceptTelemetry` accepts a client and greets it. -/
  | accept (hello : WriteResult)
  /-- `applyModem` announces the preset it sets or keeps. -/
  | modem (name : PresetName) (kernel : ℕ → WriteResult)
  /-- `broadcastTelemetry`. -/
  | frame (nowMs : Int64) (r : Report) (echo : Bool) (kernel : ℕ → WriteResult)

/-- One of these. -/
def step (s : Server) : Action → Server
  | .accept hello =>
      -- the result is ignored, whatever it is
      { s with clients := s.clients ++ [{ offers := [hello.offer 80 (modemLine s.presetName)] }] }
  | .modem name kernel =>
      { presetName := name, clients := writeTelemetryLine s.clients 80 (modemLine name) kernel }
  | .frame nowMs r echo kernel =>
      { s with clients := writeTelemetryLine s.clients 448 (reportLine nowMs r echo) kernel }

/-- Each write takes nothing, or all of a line that fits. -/
def Action.Whole (s : Server) : Action → Prop
  | .accept hello => hello.Whole s.presetName.Fits (modemLine s.presetName)
  | .modem name kernel =>
      ∀ i c, s.clients[i]? = some c → c.dropped = false → (kernel i).Whole name.Fits (modemLine name)
  | .frame nowMs r echo kernel =>
      ∀ i c, s.clients[i]? = some c → c.dropped = false →
        (kernel i).Whole True (reportLine nowMs r echo)

/-- Every line so far was taken whole or not at all. -/
def AllWhole (clients : List Client) : Prop := ∀ c ∈ clients, ∀ o ∈ c.offers, o.Whole

/-- A client after the loop is one before it, written to unless it was closed. -/
theorem mem_writeTelemetryLine {clients : List Client} {size : ℕ} {line : TelemetryLine}
    {kernel : ℕ → WriteResult} {c' : Client} :
    c' ∈ writeTelemetryLine clients size line kernel ↔ ∃ i c, clients[i]? = some c ∧
      (if c.dropped then c else c.write size line (kernel i)) = c' := by
  rw [List.mem_iff_getElem?]
  unfold writeTelemetryLine
  simp only [List.getElem?_mapIdx, Option.map_eq_some_iff]

/-- **One line for all**: nothing changes exactly if nobody takes a part of it. -/
theorem allWhole_writeTelemetryLine (clients : List Client) {size : ℕ} (hsize : 1 < size)
    {line : TelemetryLine} {fits : Prop} (hfits : line.toList.length < size ↔ fits)
    (kernel : ℕ → WriteResult) :
    AllWhole (writeTelemetryLine clients size line kernel) ↔ AllWhole clients ∧
      ∀ i c, clients[i]? = some c → c.dropped = false → (kernel i).Whole fits line := by
  constructor
  · intro h
    refine ⟨?_, ?_⟩
    · intro c hc o ho
      obtain ⟨i, hi⟩ := List.mem_iff_getElem?.mp hc
      refine h _ (mem_writeTelemetryLine.mpr ⟨i, c, hi, rfl⟩) o ?_
      split_ifs
      · exact ho
      · exact List.mem_append_left _ ho
    · intro i c hi hopen
      have hwrite := h _ (mem_writeTelemetryLine.mpr ⟨i, c, hi, rfl⟩) ((kernel i).offer size line) (by
        rw [if_neg (by rw [hopen]; exact Bool.false_ne_true)]
        exact List.mem_append_right _ (List.mem_singleton_self _))
      exact (WriteResult.whole_offer_iff _ hsize hfits).mp hwrite
  · rintro ⟨hbefore, hwrite⟩ c' hc' o ho
    obtain ⟨i, c, hi, rfl⟩ := mem_writeTelemetryLine.mp hc'
    have hc := hbefore c (List.mem_of_getElem? hi)
    split_ifs at ho with hdropped
    · exact hc o ho
    · rcases List.mem_append.mp ho with ho | ho
      · exact hc o ho
      · obtain rfl := List.mem_singleton.mp ho
        exact (WriteResult.whole_offer_iff _ hsize hfits).mpr
          (hwrite i c hi (Bool.not_eq_true _ ▸ hdropped))

/-- The step lemma. -/
theorem allWhole_step (s : Server) (a : Action) :
    AllWhole (step s a).clients ↔ AllWhole s.clients ∧ a.Whole s := by
  cases a with
  | accept hello =>
      show AllWhole (s.clients ++ [_]) ↔ _ ∧ hello.Whole _ (modemLine s.presetName)
      rw [← WriteResult.whole_offer_iff _ (by norm_num) (modemLine_fits_iff s.presetName)]
      unfold AllWhole
      rw [List.forall_mem_append, List.forall_mem_singleton]
      simp only [List.forall_mem_singleton]
  | modem name kernel =>
      exact allWhole_writeTelemetryLine _ (by norm_num) (modemLine_fits_iff name) kernel
  | frame nowMs r echo kernel =>
      exact allWhole_writeTelemetryLine _ (by norm_num)
        (iff_true_intro (reportLine_fits nowMs r echo)) kernel

/-- A run. -/
def exec (s : Server) (actions : List Action) : Server := actions.foldl step s

/-- **The run lemma.** -/
theorem allWhole_exec (name : PresetName) (actions : List Action) :
    AllWhole (exec { presetName := name } actions).clients ↔
      ∀ (k : ℕ) (a : Action), actions[k]? = some a →
        a.Whole (exec { presetName := name } (actions.take k)) := by
  have hrun := Transition.foldl_iff (P := fun s : Server => AllWhole s.clients) allWhole_step
    { presetName := name } actions
  exact hrun.trans (and_iff_right fun c hc => absurd hc List.not_mem_nil)

/-! ## The monitor -/

/-- What follows the first `needle`. -/
def findAfter (needle : List Char) : List Char → Option (List Char)
  | [] => if needle = [] then some [] else none
  | c :: cs => if needle.isPrefixOf (c :: cs) then some ((c :: cs).drop needle.length)
      else findAfter needle cs

/-- `parseJsonField`; `none` where it returns false. -/
def parseJsonField (line : List Char) (key : String) : Option (List Char) :=
  (findAfter (quoted key.toList ++ [':']) line).map fun rest =>
    let rest := rest.dropWhile fun c => c = ' ' || c = '"'
    let val := rest.takeWhile fun c => !(c = ',' || c = '}' || c = '"' || c = '\r' || c = '\n')
    val.rdropWhile (· = ' ')

/-- `struct PacketRecord`, its numbers as the texts that are converted. -/
structure PacketRecord where
  ts : Option (List Char) := none
  snr : Option (List Char) := none
  sir : Option (List Char) := none
  lvl : Option (List Char) := none
  cfo : Option (List Char) := none
  ratePpm : Option (List Char) := none
  fromNode : Option (List Char) := none
  toNode : Option (List Char) := none
  packetId : Option (List Char) := none
  payloadLen : Option (List Char) := none
  isEcho : Bool := false
  deriving DecidableEq

/-- The record of a line. -/
def parseRecord (line : List Char) : PacketRecord where
  ts := parseJsonField line "ts"
  snr := parseJsonField line "snr"
  sir := parseJsonField line "sir"
  lvl := (parseJsonField line "lvl").or (parseJsonField line "rssi")
  cfo := parseJsonField line "cfo"
  ratePpm := (parseJsonField line "ppm").or (parseJsonField line "rate_ppm")
  fromNode := parseJsonField line "from"
  toNode := parseJsonField line "to"
  packetId := parseJsonField line "id"
  payloadLen := parseJsonField line "len"
  isEcho := match parseJsonField line "echo" with
    | some val => decide (val ≠ "0".toList ∧ val ≠ "false".toList)
    | none => false

/-- `presetDisplayName`. -/
def presetDisplayName (preset : MeshtasticPreset) : List Char :=
  ((meshtasticPresetInfo preset).modemName.toList.foldl (fun (r : List Char × Bool) c =>
    if c = '_' then (r.1, true) else (r.1 ++ [if r.2 then c else c.toLower], false)) ([], true)).1

/-- What of `AppState` the telemetry thread writes. -/
structure AppState where
  packets : List PacketRecord := []
  lastPacket : Option PacketRecord := none
  totalPackets : ℕ := 0
  preset : List Char := "ShortTurbo".toList
  presetSf : ℕ := 7
  presetId : ℕ := 0
  deriving DecidableEq

namespace AppState

/-- A modem line. -/
def setPreset (st : AppState) (val : List Char) : AppState :=
  match parseMeshtasticPreset (String.ofList val) with
  | some preset =>
      { st with
        preset := presetDisplayName preset
        presetSf := (meshtasticPresetInfo preset).sf
        presetId := kMeshtasticPresetInfo.findIdx fun info => info.preset = preset }
  | none => { st with preset := val }

/-- One line of `telemetryClientThread`. -/
def handleLine (st : AppState) (line : List Char) : AppState :=
  if line = [] then st
  else if parseJsonField line "type" = some "modem".toList then
    match parseJsonField line "preset" with
    | some val => if val = [] then st else st.setPreset val
    | none => st
  else
    let record := parseRecord line
    { st with
      packets := (record :: st.packets).take 200
      lastPacket := some record
      totalPackets := st.totalPackets + 1 }

end AppState

/-- `telemetryClientThread` on one connection. -/
structure Monitor where
  buffer : List Char := []
  state : AppState := {}

namespace Monitor

/-- The loop on the newlines in the buffer, on `fuel` passes at most. -/
def drain : ℕ → Monitor → Monitor
  | 0, m => m
  | fuel + 1, m =>
      if '\n' ∈ m.buffer then
        let nl := m.buffer.idxOf '\n'
        drain fuel { buffer := m.buffer.drop (nl + 1), state := m.state.handleLine (m.buffer.take nl) }
      else m

/-- One `read`. -/
def read (m : Monitor) (chunk : List Char) : Monitor :=
  let buffer := m.buffer ++ chunk
  drain buffer.length { m with buffer }

/-- The loop is the reader of lines. -/
theorem drain_eq (fuel : ℕ) (m : Monitor) (h : m.buffer.length ≤ fuel) :
    drain fuel m = { buffer := (cut '\n' [] m.buffer).1
                     state := (cut '\n' [] m.buffer).2.foldl AppState.handleLine m.state } := by
  induction fuel generalizing m with
  | zero =>
      obtain ⟨buffer, state⟩ := m
      obtain rfl : buffer = [] := List.length_eq_zero_iff.mp (Nat.le_zero.mp h)
      rfl
  | succ fuel ih =>
      obtain ⟨buffer, state⟩ := m
      unfold drain
      split_ifs with hmem
      · obtain ⟨line, rest, hbuffer, hline⟩ := List.eq_append_cons_of_mem hmem
        simp only at hbuffer
        subst hbuffer
        have hidx : (line ++ '\n' :: rest).idxOf '\n' = line.length := by
          rw [List.idxOf_append_of_notMem hline, List.idxOf_cons_self, Nat.add_zero]
        have hdrop : (line ++ '\n' :: rest).drop (line.length + 1) = rest := by
          rw [List.drop_append, List.drop_of_length_le (by omega), Nat.add_sub_cancel_left]
          rfl
        have hlen : rest.length ≤ fuel := by
          rw [List.length_append, List.length_cons] at h
          omega
        simp only [hidx, hdrop, List.take_left]
        rw [ih _ hlen, cut_append_stop [] hline]
        rfl
      · rw [cut_of_not_mem [] hmem]
        rfl

theorem read_eq {m : Monitor} (h : '\n' ∉ m.buffer) (chunk : List Char) :
    m.read chunk = { buffer := (cut '\n' m.buffer chunk).1
                     state := (cut '\n' m.buffer chunk).2.foldl AppState.handleLine m.state } := by
  rw [read, drain_eq _ { m with buffer := m.buffer ++ chunk } le_rfl, cut_pending h]

/-- **The monitor's state** is that of its lines, however it reads. -/
theorem foldl_read_state (chunks : List (List Char)) {m : Monitor} (h : '\n' ∉ m.buffer) :
    (chunks.foldl read m).state
      = (Streaming.run (cut '\n') m.buffer chunks).2.foldl AppState.handleLine m.state := by
  induction chunks generalizing m with
  | nil => rfl
  | cons chunk chunks ih =>
      have hnext : '\n' ∉ (m.read chunk).buffer := by
        rw [read_eq h, cut_pending h]
        exact not_mem_cut _
      rw [List.foldl_cons, ih hnext, read_eq h]
      simp only [Streaming.run, List.foldl_append]

end Monitor

/-! ## Records -/

namespace Client

/-- What the client receives is a sequence of complete lines: of those that were broadcast, in
order, some of them missing perhaps. -/
def Intact (c : Client) : Prop :=
  ∃ ls : List TelemetryLine, ls.Sublist c.lines ∧ c.stream = ls.flatMap Line.toList

/-- However much the monitor has read of it, and in whatever pieces: it has handled such lines
and nothing else. -/
def Unmerged (c : Client) : Prop :=
  ∀ chunks : List (List Char), chunks.flatten <+: c.stream →
    ∃ ls : List TelemetryLine, ls.Sublist c.lines ∧
      (chunks.foldl Monitor.read {}).state = (ls.map Line.text).foldl AppState.handleLine {}

/-- Complete lines make no record of two packets. -/
theorem Intact.unmerged {c : Client} (h : c.Intact) : c.Unmerged := by
  intro chunks hread
  obtain ⟨ls, hsub, hlines⟩ := Lines.Intact.cut_prefix (by decide) h hread
  refine ⟨ls, hsub, ?_⟩
  rw [Monitor.foldl_read_state chunks List.not_mem_nil, hlines]

end Client

/-- **Complete lines**, in every state of a run and to every client, exactly if each write takes
nothing, or all of a line that fits its buffer; and then the monitor has no record but of a line
that was broadcast. -/
theorem clients_intact_iff (name : PresetName) (actions : List Action) :
    (∀ k, ∀ c ∈ (exec { presetName := name } (actions.take k)).clients, c.Intact ∧ c.Unmerged) ↔
      ∀ (k : ℕ) (a : Action), actions[k]? = some a →
        a.Whole (exec { presetName := name } (actions.take k)) := by
  have hintact : ∀ s : Server, (∀ c ∈ s.clients, c.Intact ∧ c.Unmerged) ↔ AllWhole s.clients := by
    intro s
    refine forall₂_congr fun c _ => ?_
    rw [and_iff_left_of_imp Client.Intact.unmerged]
    exact intact_iff (by decide) (by decide) c.offers
  simp only [hintact]
  constructor
  · intro h
    rw [← allWhole_exec]
    have hall := h actions.length
    rwa [List.take_length] at hall
  · intro h k
    rw [allWhole_exec]
    intro j a hj
    rw [List.getElem?_take] at hj
    split_ifs at hj with hlt
    rw [List.take_take, min_eq_left hlt.le]
    exact h j a hj

/-- A frame from node 1 of which ten bytes are taken, and then one from node 2. -/
def tornActions : List Action :=
  let frame (node : UInt8) : Report :=
    { payload := [0xFF, 0xFF, 0xFF, 0xFF, node, 0, 0, 0, node, 0, 0, 0]
      payload_le := by norm_num
      snr := ⟨5 / 2, by norm_num [abs_lt]⟩, sirDb := ⟨30, by norm_num [abs_lt]⟩
      lvlDbfs := ⟨-50, by norm_num [abs_lt]⟩, cfoHz := ⟨120, by norm_num [abs_lt]⟩
      ratePpm := ⟨0, by norm_num⟩, preambleSymbols := 16 }
  [.accept (.took 80), .frame 1 (frame 1) false fun _ => .took 10,
    .frame 2 (frame 2) false fun _ => .took 448]

/-- The client receives a line that was never sent, and the monitor makes one record of two
packets. -/
theorem client_torn : ∃ c ∈ (exec {} tornActions).clients, ¬ c.Intact ∧ ¬ c.Unmerged := by
  set c := (exec {} tornActions).clients.getD 0 {} with hc
  have hmem : c ∈ (exec {} tornActions).clients := by
    rw [show (exec {} tornActions).clients = [c] from rfl]
    exact List.mem_singleton_self c
  refine ⟨c, hmem, fun h => ?_, fun h => ?_⟩
  · have hpart : ¬ ∀ o ∈ c.offers, o.Whole := by
      rw [hc]
      decide +kernel
    exact hpart ((intact_iff (by decide) (by decide) c.offers).mp h)
  · have hnone : ∀ texts ∈ (c.lines.map Line.text).sublists,
        ([c.stream].foldl Monitor.read {}).state ≠ texts.foldl AppState.handleLine {} := by
      rw [hc]
      decide +kernel
    obtain ⟨ls, hsub, hstate⟩ := h [c.stream] (by
      rw [List.flatten_singleton])
    exact hnone _ (List.mem_sublists.mpr (hsub.map Line.text)) hstate

end Telemetry
