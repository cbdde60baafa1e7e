/-
# Channel keys and AES-CTR (`src/bridge/crypto.cpp`)

The key a channel's settings stand for, the channel hash, and `aesCtr`.  The cipher itself
belongs to another library and is a parameter: key, initial counter block and bytes to
bytes, or `none` where one of its calls fails.
-/
import Mathlib
import QuadrfMesh.Lib.LittleEndian

namespace Bridge

def kDefaultPsk : List UInt8 :=
  [0xd4, 0xf1, 0xbb, 0x3a, 0x20, 0x29, 0x07, 0x59,
   0xf0, 0xbc, 0xff, 0xab, 0xcf, 0x4e, 0x69, 0x01]

/-- `expandPsk`; `none` where it returns false. -/
def expandPsk (psk : List UInt8) : Option (List UInt8) :=
  match psk with
  | [] => some []
  | [b] =>
      if b = 0 then some []
      else if 1 < b then some (kDefaultPsk.set 15 (kDefaultPsk.getD 15 0 + (b - 1)))
      else some kDefaultPsk
  | psk => if psk.length = 16 ∨ psk.length = 32 then some psk else none

/-- `xorHash`. -/
def xorHash (data : List UInt8) : UInt8 := data.foldl (fun h b => h ^^^ b) 0

/-- `channelHash`. -/
def channelHash (name key : List UInt8) : UInt8 := xorHash name ^^^ xorHash key

/-- The cipher in counter mode. -/
abbrev Ctr := List UInt8 → List UInt8 → List UInt8 → Option (List UInt8)

/-- The initial counter block: packet id, then sender, each as 64 bits. -/
def nonce (packetId fromNode : UInt32) : List UInt8 :=
  LittleEndian.write 4 packetId.toNat ++ [0, 0, 0, 0]
    ++ LittleEndian.write 4 fromNode.toNat ++ [0, 0, 0, 0]

/-- `aesCtr`; `none` where it returns false. -/
def aesCtr (ctr : Ctr) (key : List UInt8) (packetId fromNode : UInt32) (data : List UInt8) :
    Option (List UInt8) :=
  if key = [] then some data
  else if key.length ≠ 16 ∧ key.length ≠ 32 then none
  else ctr key (nonce packetId fromNode) data

/-- With a key of either size and a counter block, the cipher is an involution that keeps
lengths. -/
def Ctr.Involution (ctr : Ctr) : Prop :=
  ∀ key iv : List UInt8, key.length = 16 ∨ key.length = 32 → iv.length = 16 →
    ∀ data, ∃ out, ctr key iv data = some out ∧ out.length = data.length ∧
      ctr key iv out = some data

/-- A cipher in counter mode: a keystream over the data. -/
def Ctr.ofKeystream (keystream : List UInt8 → List UInt8 → ℕ → UInt8) : Ctr :=
  fun key iv data => some (data.mapIdx fun i b => b ^^^ keystream key iv i)

theorem Ctr.involution_ofKeystream (keystream : List UInt8 → List UInt8 → ℕ → UInt8) :
    (Ctr.ofKeystream keystream).Involution := by
  intro key iv _ _ data
  refine ⟨_, rfl, List.length_mapIdx, ?_⟩
  unfold Ctr.ofKeystream
  rw [List.mapIdx_mapIdx]
  congr 1
  apply List.ext_getElem (by simp)
  intro i _ _
  simp

/-- The lengths of a key: none, or one of the cipher's two. -/
def KeyLength (key : List UInt8) : Prop := key = [] ∨ key.length = 16 ∨ key.length = 32

theorem keyLength_kDefaultPsk : KeyLength kDefaultPsk := Or.inr (Or.inl rfl)

theorem expandPsk_keyLength {psk key : List UInt8} (h : expandPsk psk = some key) :
    KeyLength key := by
  unfold expandPsk at h
  split at h
  · exact Or.inl (Option.some.inj h).symm
  · split_ifs at h with h0 h1
    · exact Or.inl (Option.some.inj h).symm
    · obtain rfl := Option.some.inj h
      exact Or.inr (Or.inl (by rw [List.length_set]; rfl))
    · obtain rfl := Option.some.inj h
      exact keyLength_kDefaultPsk
  · split_ifs at h with hlen
    obtain rfl := Option.some.inj h
    exact Or.inr hlen

/-- Bytes that are no key and no shorthand are refused. -/
theorem expandPsk_eq_none {psk : List UInt8} (h0 : psk.length ≠ 0) (h1 : psk.length ≠ 1)
    (hlen : ¬(psk.length = 16 ∨ psk.length = 32)) : expandPsk psk = none := by
  match psk with
  | [] => exact absurd rfl h0
  | [_] => exact absurd rfl h1
  | _ :: _ :: _ => exact if_neg hlen

/-- Bytes of a key's length are the key. -/
theorem expandPsk_of_length {psk : List UInt8} (hlen : psk.length = 16 ∨ psk.length = 32) :
    expandPsk psk = some psk := by
  match psk with
  | [] => exact absurd hlen (by decide)
  | [_] => exact absurd hlen (by simp)
  | _ :: _ :: _ => exact if_pos hlen

/-- Two keys have one hash under a name exactly if their bytes have one sum. -/
theorem channelHash_inj (name : List UInt8) {key key' : List UInt8} :
    channelHash name key = channelHash name key' ↔ xorHash key = xorHash key' := by
  constructor
  · intro h
    have hcancel := congrArg (xorHash name ^^^ ·) h
    simpa only [channelHash, ← UInt8.xor_assoc, UInt8.xor_self, UInt8.zero_xor] using hcancel
  · intro h
    rw [channelHash, channelHash, h]

/-- **Encrypting twice is nothing**, whatever the key. -/
theorem aesCtr_involution {ctr : Ctr} (hctr : ctr.Involution) {key : List UInt8}
    (hkey : KeyLength key) (packetId fromNode : UInt32) (data : List UInt8) :
    ∃ out, aesCtr ctr key packetId fromNode data = some out ∧ out.length = data.length ∧
      aesCtr ctr key packetId fromNode out = some data := by
  rcases eq_or_ne key [] with hnil | hne
  · unfold aesCtr
    simp only [if_pos hnil]
    exact ⟨data, rfl, rfl, rfl⟩
  · have hsize : key.length = 16 ∨ key.length = 32 := hkey.resolve_left hne
    have hok : ¬ (key.length ≠ 16 ∧ key.length ≠ 32) := by omega
    unfold aesCtr
    simp only [if_neg hne, if_neg hok]
    exact hctr key (nonce packetId fromNode) hsize (by simp [nonce]) data

end Bridge
