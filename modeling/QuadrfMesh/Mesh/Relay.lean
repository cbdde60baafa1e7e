/-
# Relaying (`src/mesh/packet.cpp`)

`shouldRelay` and `prepareRelay`, and a packet that goes from node to node, over the air in
between or not.  A relay counts the hop limit down and leaves its mark; the rest of the packet
stays as it was sent (`relay_chain`).
-/
import QuadrfMesh.Lib.Transition
import QuadrfMesh.Mesh.Packet

open Transition

namespace Mesh

/-- `nodeIdByte`. -/
def nodeIdByte (node : UInt32) : UInt8 := (node &&& 0xFF).toUInt8

/-- `shouldRelay`. -/
def shouldRelay (h : PacketHeader) (ourNode : UInt32) : Bool :=
  if h.from_ = 0 ∨ h.from_ = ourNode then false
  else if h.to_ = ourNode then false
  else if h.hopLimit = 0 ∨ h.id = 0 then false
  else
    let us := nodeIdByte ourNode
    h.nextHop = kNoNextHop || h.nextHop = us

/-- `prepareRelay`; `none` where it returns false. -/
def prepareRelay (pkt : Packet) (ourNode : UInt32) : Option Packet :=
  if shouldRelay pkt.header ourNode then
    some { pkt with
      header := { pkt.header with
        hopLimit := pkt.header.hopLimit - 1
        relayNode := nodeIdByte ourNode } }
  else none

/-- What happens to a packet on its way: a node relays it, or it is sent and received. -/
inductive Hop
  | relay (node : UInt32)
  | air
  deriving DecidableEq

/-- One of these; `none` where it fails. -/
def hop (pkt : Packet) : Hop → Option Packet
  | .relay node => prepareRelay pkt node
  | .air => (packPacket pkt).bind unpackPacket

/-- The nodes that relay, in order. -/
def relayers (hops : List Hop) : List UInt32 :=
  hops.filterMap fun
    | .relay node => some node
    | .air => none

/-- **The relay cases**: the hop limit was not zero, the node neither end of the packet's way. -/
theorem prepareRelay_cases {pkt pkt' : Packet} {node : UInt32} (h : prepareRelay pkt node = some pkt') :
    pkt.header.hopLimit ≠ 0 ∧ node ≠ pkt.header.from_ ∧ node ≠ pkt.header.to_ ∧
      pkt' = { pkt with
        header := { pkt.header with
          hopLimit := pkt.header.hopLimit - 1
          relayNode := nodeIdByte node } } := by
  unfold prepareRelay at h
  split_ifs at h with hrelay
  obtain rfl := Option.some.inj h
  unfold shouldRelay at hrelay
  split_ifs at hrelay with hfrom hto hlimit
  obtain ⟨-, hfrom⟩ := not_or.mp hfrom
  exact ⟨(not_or.mp hlimit).1, fun heq => hfrom heq.symm, fun heq => hto heq.symm, rfl⟩

/-- Over the air a packet with a hop limit of three bits stays as it is, apart from a hop start
that has no room. -/
theorem air_eq {pkt pkt' : Packet} (h : (packPacket pkt).bind unpackPacket = some pkt')
    (hlimit : pkt.header.hopLimit ≤ 7) :
    pkt' = { pkt with
      header := { pkt.header with hopStart := pkt.header.hopStart &&& kFlagsHopLimitMask } } := by
  obtain ⟨bytes, hpack, hunpack⟩ := Option.bind_eq_some_iff.mp h
  rw [unpackPacket_packPacket hpack, PacketHeader.carried, mask_of_le hlimit] at hunpack
  exact (Option.some.inj hunpack).symm

/-- Counting down from a limit that is not zero. -/
theorem toNat_sub_one {b : UInt8} (h : b ≠ 0) : (b - 1).toNat + 1 = b.toNat := by
  revert b
  apply byte_cases
  decide +kernel

/-- What is left of a packet that was sent as `pkt` and went through `hops`. -/
structure Relayed (pkt : Packet) (hops : List Hop) (q : Packet) : Prop where
  hopLimit : q.header.hopLimit.toNat + (relayers hops).length = pkt.header.hopLimit.toNat
  relayNode : q.header.relayNode
    = ((relayers hops).getLast?.map nodeIdByte).getD pkt.header.relayNode
  others : ∀ node ∈ relayers hops, node ≠ pkt.header.from_ ∧ node ≠ pkt.header.to_
  hopStart : q.header.hopStart
    = if Hop.air ∈ hops then pkt.header.hopStart &&& kFlagsHopLimitMask else pkt.header.hopStart
  rest : q = { pkt with
    header := { pkt.header with
      hopLimit := q.header.hopLimit
      hopStart := q.header.hopStart
      relayNode := q.header.relayNode } }

theorem relayers_relay (hops : List Hop) (node : UInt32) :
    relayers (hops ++ [.relay node]) = relayers hops ++ [node] := by
  rw [relayers, List.filterMap_append]
  rfl

theorem relayers_air (hops : List Hop) : relayers (hops ++ [.air]) = relayers hops := by
  rw [relayers, List.filterMap_append]
  exact List.append_nil _

/-- A relay more. -/
theorem Relayed.relay {pkt q q' : Packet} {hops : List Hop} (h : Relayed pkt hops q)
    {node : UInt32} (hrelay : prepareRelay q node = some q') :
    Relayed pkt (hops ++ [.relay node]) q' := by
  obtain ⟨hlimit, hfrom, hto, rfl⟩ := prepareRelay_cases hrelay
  have hfrom_eq : q.header.from_ = pkt.header.from_ := by rw [h.rest]
  have hto_eq : q.header.to_ = pkt.header.to_ := by rw [h.rest]
  have hair : Hop.air ∈ hops ++ [.relay node] ↔ Hop.air ∈ hops := by simp
  refine ⟨?_, ?_, ?_, ?_, ?_⟩
  · have hcount := h.hopLimit
    have hdown := toNat_sub_one hlimit
    rw [relayers_relay, List.length_append, List.length_singleton]
    show (q.header.hopLimit - 1).toNat + ((relayers hops).length + 1) = _
    omega
  · rw [relayers_relay, List.getLast?_concat]
    rfl
  · intro n hn
    rw [relayers_relay] at hn
    rcases List.mem_append.mp hn with hn | hn
    · exact h.others n hn
    · obtain rfl := List.mem_singleton.mp hn
      rw [← hfrom_eq, ← hto_eq]
      exact ⟨hfrom, hto⟩
  · rw [if_congr hair rfl rfl]
    exact h.hopStart
  · have hrest := h.rest
    rw [hrest]

/-- Once more over the air. -/
theorem Relayed.air {pkt q q' : Packet} {hops : List Hop} (h : Relayed pkt hops q)
    (hlimit : pkt.header.hopLimit ≤ 7) (hair : (packPacket q).bind unpackPacket = some q') :
    Relayed pkt (hops ++ [.air]) q' := by
  have hle : q.header.hopLimit ≤ 7 := by
    have hcount := h.hopLimit
    rw [UInt8.le_iff_toNat_le] at hlimit ⊢
    omega
  obtain rfl := air_eq hair hle
  have hmem : Hop.air ∈ hops ++ [.air] := List.mem_append_right _ (List.mem_singleton_self _)
  refine ⟨?_, ?_, ?_, ?_, ?_⟩
  · rw [relayers_air]
    exact h.hopLimit
  · rw [relayers_air]
    exact h.relayNode
  · rw [relayers_air]
    exact h.others
  · rw [if_pos hmem]
    show q.header.hopStart &&& kFlagsHopLimitMask = _
    rw [h.hopStart]
    -- what was cut once stays as it is
    split_ifs
    · exact mask_self _ _
    · rfl
  · have hrest := h.rest
    rw [hrest]

/-- **The run lemma**: so it is after any number of hops. -/
theorem Relayed.of_exec {pkt q : Packet} {hops : List Hop} (h : exec hop pkt hops = some q)
    (hlimit : .air ∈ hops → pkt.header.hopLimit ≤ 7) : Relayed pkt hops q := by
  induction hops using List.reverseRecOn generalizing q with
  | nil =>
      obtain rfl : pkt = q := Option.some.inj h
      exact ⟨rfl, rfl, fun _ hn => absurd hn List.not_mem_nil, rfl, rfl⟩
  | append_singleton hops last ih =>
      rw [exec_append] at h
      obtain ⟨mid, hmid, hlast⟩ := Option.bind_eq_some_iff.mp h
      have hdone := ih hmid fun hair => hlimit (List.mem_append_left _ hair)
      obtain ⟨q', hhop, hq⟩ := Option.bind_eq_some_iff.mp hlast
      obtain rfl : q' = q := Option.some.inj hq
      cases last with
      | relay node => exact hdone.relay hhop
      | air => exact hdone.air (hlimit (List.mem_append_right _ (List.mem_singleton_self _))) hhop

/-- **A relayed packet.**  However many nodes relay it, and however often it goes over the air in
between (a hop limit of three bits then): the relays are no more than its hop limit, which drops
by one for each of them; it bears the mark of the last; neither its sender nor its destination is
among them; and the rest of it is as it was sent, but for a hop start the air has no room for. -/
theorem relay_chain {pkt q : Packet} {hops : List Hop} (h : exec hop pkt hops = some q)
    (hlimit : .air ∈ hops → pkt.header.hopLimit ≤ 7) :
    (relayers hops).length ≤ pkt.header.hopLimit.toNat ∧
    q.header.hopLimit.toNat = pkt.header.hopLimit.toNat - (relayers hops).length ∧
    (∀ node, (relayers hops).getLast? = some node → q.header.relayNode = nodeIdByte node) ∧
    (∀ node ∈ relayers hops, node ≠ pkt.header.from_ ∧ node ≠ pkt.header.to_) ∧
    q.header.hopStart = (if Hop.air ∈ hops then pkt.header.hopStart &&& 7
      else pkt.header.hopStart) ∧
    (pkt.header.hopStart ≤ 7 → q.header.hopStart = pkt.header.hopStart) ∧
    q = { pkt with
      header := { pkt.header with
        hopLimit := q.header.hopLimit
        hopStart := q.header.hopStart
        relayNode := q.header.relayNode } } := by
  have hdone := Relayed.of_exec h hlimit
  have hcount := hdone.hopLimit
  refine ⟨by omega, by omega, ?_, hdone.others, hdone.hopStart, ?_, hdone.rest⟩
  · intro node hnode
    rw [hdone.relayNode, hnode]
    rfl
  · intro hstart
    rw [hdone.hopStart, mask_of_le hstart, ite_self]

/-- Three nodes relay a packet of hop limit 3, over the air after each. -/
theorem relay_chain_three :
    let pkt : Packet := { header := { from_ := 1, id := 5, hopLimit := 3, hopStart := 3 }
                          encrypted := [42] }
    let hops : List Hop := [.relay 0x102, .air, .relay 3, .air, .relay 0x904, .air]
    ∃ q, exec hop pkt hops = some q ∧ q.header.hopLimit.toNat = 3 - (relayers hops).length ∧
      q.header.relayNode = nodeIdByte 0x904 ∧ q.header.hopStart = 3 := by
  intro pkt hops
  have hruns : (exec hop pkt hops).isSome = true := by decide +kernel
  obtain ⟨q, hq⟩ := Option.isSome_iff_exists.mp hruns
  obtain ⟨-, hdrop, hlast, -, -, hstart, -⟩ := relay_chain hq fun _ => by decide
  exact ⟨q, hq, hdrop, hlast _ (by decide), hstart (by decide)⟩

/-- A hop start of 8 does not survive the air. -/
theorem relay_hopStart_lost :
    ∃ (pkt q : Packet) (hops : List Hop), exec hop pkt hops = some q ∧
      pkt.header.hopLimit ≤ 7 ∧ q.header.hopStart ≠ pkt.header.hopStart :=
  ⟨{ header := { from_ := 1, id := 5, hopLimit := 3, hopStart := 8 } },
    { header := { from_ := 1, id := 5, hopLimit := 2, hopStart := 0, relayNode := 5 } },
    [.relay 5, .air], by decide +kernel, by decide, by decide⟩

end Mesh
