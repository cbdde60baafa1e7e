/-
# The rate limit of the parrot (`integrations/meshtastic/backend/QuadRFParrotModule.cpp`)

A table of sixteen senders with the time each was last echoed.  A new sender takes the next
slot round robin, whatever its age.  Echoes to one sender are 1000 ms apart in every run in
which no new sender takes the slot of one echoed within the last 1000 ms
(`echoes_apart`).
-/
import QuadrfMesh.Radio.TxClock

namespace Parrot

/-- `kCooldownSlots`. -/
abbrev kCooldownSlots : ℕ := 16

/-- `struct CooldownEntry`. -/
structure CooldownEntry where
  sender : UInt32 := 0
  lastMs : UInt32 := 0
  deriving DecidableEq

/-- `cooldown_` and `cooldown_idx_`. -/
structure Cooldown where
  slots : Fin kCooldownSlots → CooldownEntry := fun _ => {}
  idx : Fin kCooldownSlots := 0

/-- The first slot of a sender. -/
def Cooldown.slotOf (s : Cooldown) (sender : UInt32) : Option (Fin kCooldownSlots) :=
  Fin.find? fun i => decide ((s.slots i).sender = sender)

/-- `isRateLimited`. -/
def Cooldown.isRateLimited (s : Cooldown) (sender nowMs : UInt32) : Bool × Cooldown :=
  match s.slotOf sender with
  | some i =>
      if nowMs - (s.slots i).lastMs < 1000 then (true, s)
      else (false, { s with slots := Function.update s.slots i { sender, lastMs := nowMs } })
  | none =>
      (false, { slots := Function.update s.slots s.idx { sender, lastMs := nowMs }
                idx := s.idx + 1 })

/-- A call of `isRateLimited`. -/
structure Call where
  sender : UInt32
  time : ℕ
  deriving DecidableEq

/-- The calls that return `false`. -/
def echoes : Cooldown → List Call → List Call
  | _, [] => []
  | s, c :: calls =>
      let answer := s.isRateLimited c.sender (millis c.time)
      if answer.1 then echoes answer.2 calls else c :: echoes answer.2 calls

theorem echoes_cons_limited {s t : Cooldown} {c : Call} {calls : List Call}
    (h : s.isRateLimited c.sender (millis c.time) = (true, t)) :
    echoes s (c :: calls) = echoes t calls := by
  simp only [echoes, h, if_true]

theorem echoes_cons_echo {s t : Cooldown} {c : Call} {calls : List Call}
    (h : s.isRateLimited c.sender (millis c.time) = (false, t)) :
    echoes s (c :: calls) = c :: echoes t calls := by
  simp only [echoes, h, Bool.false_eq_true, if_false]

/-! ## What one call does -/

/-- The time kept for a sender. -/
def Cooldown.served (s : Cooldown) (sender : UInt32) : Option UInt32 :=
  (s.slotOf sender).map fun i => (s.slots i).lastMs

section Update

variable {s t : Cooldown} {i : Fin kCooldownSlots} {sender other now : UInt32}

/-- A slot written before any other of its sender. -/
theorem served_update_self (hfirst : ∀ j < i, (s.slots j).sender ≠ sender)
    (ht : t.slots = Function.update s.slots i { sender, lastMs := now }) :
    t.served sender = some now := by
  have hslot : t.slotOf sender = some i := by
    refine Fin.find?_eq_some_iff.mpr ⟨?_, ?_⟩
    · rw [ht, Function.update_self]
      exact decide_eq_true rfl
    · intro j hj
      rw [ht, Function.update_of_ne hj.ne]
      exact decide_eq_false (hfirst j hj)
  rw [Cooldown.served, hslot, Option.map_some, ht, Function.update_self]

/-- Writing a slot leaves every other sender its time, unless the slot was its own. -/
theorem served_update_other (hne : sender ≠ other)
    (ht : t.slots = Function.update s.slots i { sender, lastMs := now }) :
    t.served other = s.served other ∨
      (s.slots i).sender = other ∧ s.served other = some (s.slots i).lastMs := by
  have hkeep : ∀ j, (s.slots j).sender ≠ other → (t.slots j).sender ≠ other := by
    intro j hj
    rw [ht]
    by_cases hji : j = i
    · rw [hji, Function.update_self]
      exact hne
    · rw [Function.update_of_ne hji]
      exact hj
  cases hslot : s.slotOf other with
  | none =>
      left
      have hnone : t.slotOf other = none := by
        refine Fin.find?_eq_none_iff.mpr fun j => decide_eq_false (hkeep j ?_)
        exact of_decide_eq_false (Fin.find?_eq_none_iff.mp hslot j)
      rw [Cooldown.served, Cooldown.served, hslot, hnone]
      rfl
  | some k =>
      obtain ⟨hk, hbefore⟩ := Fin.find?_eq_some_iff.mp hslot
      by_cases hki : k = i
      · right
        rw [← hki, Cooldown.served, hslot]
        exact ⟨of_decide_eq_true hk, rfl⟩
      · left
        have hsame : t.slots k = s.slots k := by rw [ht, Function.update_of_ne hki]
        have hslot' : t.slotOf other = some k := by
          refine Fin.find?_eq_some_iff.mpr ⟨?_, ?_⟩
          · rw [hsame]
            exact hk
          · intro j hj
            exact decide_eq_false (hkeep j (of_decide_eq_false (hbefore j hj)))
        rw [Cooldown.served, Cooldown.served, hslot, hslot', Option.map_some, Option.map_some,
          hsame]

end Update

/-! ## Runs of calls -/

/-- The call does not take the slot of a sender echoed less than 1000 ms ago: it finds its own
slot, or the one in turn is unused or old enough. -/
def Cooldown.Spares (s : Cooldown) (c : Call) : Prop :=
  s.slotOf c.sender = none → (s.slots s.idx).sender = 0 ∨
    ¬ millis c.time - (s.slots s.idx).lastMs < 1000

/-- Every call of the run spares the recent slots. -/
def Spared : Cooldown → List Call → Prop
  | _, [] => True
  | s, c :: calls => s.Spares c ∧ Spared (s.isRateLimited c.sender (millis c.time)).2 calls

/-- Two echoes to one sender are 1000 ms apart. -/
def Apart (a b : Call) : Prop := a.sender = b.sender → a.time + 1000 ≤ b.time

/-- The echoes so far, at the time `now`: the table still has the sender, with this time or a
later one, or the echo is 1000 ms old. -/
structure Remembers (s : Cooldown) (past : List Call) (now : ℕ) : Prop where
  nonzero : ∀ a ∈ past, a.sender ≠ 0
  kept : ∀ a ∈ past, (∃ T, a.time ≤ T ∧ T ≤ now ∧ s.served a.sender = some (millis T)) ∨
    a.time + 1000 ≤ now

section Step

variable {s : Cooldown} {past : List Call} {c : Call} {now : ℕ}

/-- Time passes. -/
theorem Remembers.later (h : Remembers s past now) {t : ℕ} (ht : now ≤ t) :
    Remembers s past t := by
  refine ⟨h.nonzero, fun a ha => ?_⟩
  rcases h.kept a ha with ⟨T, haT, hT, hserved⟩ | hold
  · exact Or.inl ⟨T, haT, hT.trans ht, hserved⟩
  · exact Or.inr (hold.trans ht)

/-- Writing the slot of the caller, where no recent slot of another sender is lost. -/
theorem Remembers.write {t : Cooldown} {i : Fin kCooldownSlots} (h : Remembers s past c.time)
    (hc : c.sender ≠ 0) (hspan : ∀ a ∈ past, c.time < a.time + 2 ^ 32)
    (hfirst : ∀ j < i, (s.slots j).sender ≠ c.sender)
    (hlost : (s.slots i).sender = c.sender ∨ (s.slots i).sender = 0 ∨
      ¬ millis c.time - (s.slots i).lastMs < 1000)
    (ht : t.slots = Function.update s.slots i { sender := c.sender, lastMs := millis c.time }) :
    Remembers t (c :: past) c.time := by
  refine ⟨List.forall_mem_cons.mpr ⟨hc, h.nonzero⟩, List.forall_mem_cons.mpr ⟨?_, ?_⟩⟩
  · exact Or.inl ⟨c.time, le_rfl, le_rfl, served_update_self hfirst ht⟩
  · intro a ha
    rcases h.kept a ha with ⟨T, haT, hT, hserved⟩ | hold
    · by_cases hsame : c.sender = a.sender
      · exact Or.inl ⟨c.time, haT.trans hT, le_rfl, hsame ▸ served_update_self hfirst ht⟩
      · rcases served_update_other hsame ht with hother | ⟨hslot, hlast⟩
        · exact Or.inl ⟨T, haT, hT, hother.trans hserved⟩
        · -- the slot of `a` itself is taken: it is old
          right
          rcases hlost with hown | hzero | hold
          · exact absurd (hown.symm.trans hslot) hsame
          · exact absurd (hslot.symm.trans hzero) (h.nonzero a ha)
          · rw [Option.some.inj (hlast.symm.trans hserved), UInt32.lt_iff_toNat_lt,
              toNat_millis_sub hT ((hspan a ha).trans_le (Nat.add_le_add_right haT _))] at hold
            change ¬ c.time - T < 1000 at hold
            omega
    · exact Or.inr hold

/-- **The step lemma.**  A refused call changes nothing; an echo is 1000 ms after those
before it to the same sender, and is remembered with them. -/
theorem Remembers.call {t : Cooldown} {limited : Bool} (h : Remembers s past c.time)
    (hc : c.sender ≠ 0) (hspan : ∀ a ∈ past, c.time < a.time + 2 ^ 32) (hspares : s.Spares c)
    (hcall : s.isRateLimited c.sender (millis c.time) = (limited, t)) :
    (limited = true → Remembers t past c.time) ∧
      (limited = false → (∀ a ∈ past, Apart a c) ∧ Remembers t (c :: past) c.time) := by
  unfold Cooldown.isRateLimited at hcall
  cases hslot : s.slotOf c.sender with
  | some i =>
      obtain ⟨hi, hbefore⟩ := Fin.find?_eq_some_iff.mp hslot
      rw [hslot] at hcall
      simp only at hcall
      split_ifs at hcall with hrecent
      · obtain ⟨rfl, rfl⟩ := Prod.mk.injEq .. ▸ hcall
        exact ⟨fun _ => h, fun hfalse => absurd hfalse (by simp)⟩
      · obtain ⟨rfl, rfl⟩ := Prod.mk.injEq .. ▸ hcall
        refine ⟨fun htrue => absurd htrue (by simp), fun _ => ⟨?_, ?_⟩⟩
        · intro a ha hsender
          rcases h.kept a ha with ⟨T, haT, hT, hserved⟩ | hold
          · rw [hsender, Cooldown.served, hslot, Option.map_some] at hserved
            rw [Option.some.inj hserved, UInt32.lt_iff_toNat_lt,
              toNat_millis_sub hT ((hspan a ha).trans_le (Nat.add_le_add_right haT _))] at hrecent
            change ¬ c.time - T < 1000 at hrecent
            omega
          · exact hold
        · exact h.write hc hspan (fun j hj => of_decide_eq_false (hbefore j hj))
            (Or.inl (of_decide_eq_true hi)) rfl
  | none =>
      have hnone : ∀ j, (s.slots j).sender ≠ c.sender := fun j =>
        of_decide_eq_false (Fin.find?_eq_none_iff.mp hslot j)
      rw [hslot] at hcall
      obtain ⟨rfl, rfl⟩ := Prod.mk.injEq .. ▸ hcall
      refine ⟨fun htrue => absurd htrue (by simp), fun _ => ⟨?_, ?_⟩⟩
      · intro a ha hsender
        rcases h.kept a ha with ⟨T, -, -, hserved⟩ | hold
        · rw [hsender, Cooldown.served, hslot] at hserved
          exact absurd hserved (by simp)
        · exact hold
      · exact h.write hc hspan (fun j _ => hnone j) (Or.inr (hspares hslot)) rfl

end Step

/-- **The run lemma**: every echo of the run is 1000 ms after those before the run and in it,
to the same sender. -/
theorem Remembers.run {s : Cooldown} {past calls : List Call} {now : ℕ}
    (h : Remembers s past now) (hnow : ∀ c ∈ calls, now ≤ c.time)
    (horder : calls.Pairwise fun a b => a.time ≤ b.time)
    (hspan : ∀ a ∈ past ++ calls, ∀ c ∈ calls, c.time < a.time + 2 ^ 32)
    (hnonzero : ∀ c ∈ calls, c.sender ≠ 0) (hspared : Spared s calls) :
    (∀ a ∈ past, ∀ b ∈ echoes s calls, Apart a b) ∧ (echoes s calls).Pairwise Apart := by
  induction calls generalizing s past now with
  | nil => exact ⟨fun _ _ _ hb => absurd hb List.not_mem_nil, List.Pairwise.nil⟩
  | cons c calls ih =>
      obtain ⟨hnonzero_c, hnonzero⟩ := List.forall_mem_cons.mp hnonzero
      obtain ⟨horder_c, horder⟩ := List.pairwise_cons.mp horder
      obtain ⟨hspares, hspared⟩ := hspared
      have hspan_c : ∀ a ∈ past, c.time < a.time + 2 ^ 32 := fun a ha =>
        hspan a (List.mem_append_left _ ha) c List.mem_cons_self
      rcases hcall : s.isRateLimited c.sender (millis c.time) with ⟨limited, t⟩
      have hstep := (h.later (hnow c List.mem_cons_self)).call hnonzero_c hspan_c hspares hcall
      rw [hcall] at hspared
      cases limited with
      | true =>
          rw [echoes_cons_limited hcall]
          refine ih (hstep.1 rfl) horder_c horder ?_ hnonzero hspared
          intro a ha b hb
          refine hspan a ?_ b (List.mem_cons_of_mem _ hb)
          rcases List.mem_append.mp ha with ha | ha
          · exact List.mem_append_left _ ha
          · exact List.mem_append_right _ (List.mem_cons_of_mem _ ha)
      | false =>
          rw [echoes_cons_echo hcall]
          obtain ⟨hpast, hremembers⟩ := hstep.2 rfl
          obtain ⟨hcross, hpairs⟩ := ih hremembers horder_c horder (fun a ha b hb =>
            hspan a (by simpa [or_left_comm] using ha) b (List.mem_cons_of_mem _ hb))
            hnonzero hspared
          obtain ⟨hcross_c, hcross⟩ := List.forall_mem_cons.mp hcross
          refine ⟨fun a ha => List.forall_mem_cons.mpr ⟨hpast a ha, hcross a ha⟩, ?_⟩
          exact List.pairwise_cons.mpr ⟨hcross_c, hpairs⟩

/-- **Echoes to one sender are 1000 ms apart**, in every run of calls in the order of their
times, over less than 2^32 ms and from any number of senders other than 0, in which no call
takes over the slot of a sender echoed less than 1000 ms before. -/
theorem echoes_apart (calls : List Call) (horder : calls.Pairwise fun a b => a.time ≤ b.time)
    (hspan : ∀ a ∈ calls, ∀ b ∈ calls, b.time < a.time + 2 ^ 32)
    (hnonzero : ∀ c ∈ calls, c.sender ≠ 0) (hspared : Spared {} calls) :
    (echoes {} calls).Pairwise Apart := by
  have hstart : Remembers {} [] 0 := ⟨by simp, by simp⟩
  exact (hstart.run (fun c _ => Nat.zero_le c.time) horder hspan hnonzero hspared).2

instance (s : Cooldown) (c : Call) : Decidable (s.Spares c) :=
  inferInstanceAs (Decidable (_ → _))

instance decidableSpared : (s : Cooldown) → (calls : List Call) → Decidable (Spared s calls)
  | _, [] => isTrue trivial
  | s, c :: calls =>
      have := decidableSpared (s.isRateLimited c.sender (millis c.time)).2 calls
      inferInstanceAs (Decidable (s.Spares c ∧ _))

instance (a b : Call) : Decidable (Apart a b) := inferInstanceAs (Decidable (_ → _))

/-- A sender that calls three times within a second. -/
theorem echoes_apart_three :
    (echoes {} [⟨5, 4294967000⟩, ⟨5, 4294967500⟩, ⟨5, 4294968000⟩]).Pairwise Apart :=
  echoes_apart _ (by decide) (by decide) (by decide) (by decide +kernel)

/-- Sixteen senders fill the table.  Two seconds later the first is echoed in its slot, which
is the next to go; one new sender takes it, and the first is echoed again after 2 ms. -/
theorem echoes_apart_evicted :
    ∃ calls : List Call, (calls.Pairwise fun a b => a.time ≤ b.time) ∧
      (∀ a ∈ calls, ∀ b ∈ calls, b.time < a.time + 2 ^ 32) ∧ (∀ c ∈ calls, c.sender ≠ 0) ∧
      (⟨1, 2000⟩ : Call) ∈ echoes {} calls ∧ (⟨1, 2002⟩ : Call) ∈ echoes {} calls :=
  ⟨[⟨1, 0⟩, ⟨2, 1⟩, ⟨3, 2⟩, ⟨4, 3⟩, ⟨5, 4⟩, ⟨6, 5⟩, ⟨7, 6⟩, ⟨8, 7⟩, ⟨9, 8⟩, ⟨10, 9⟩, ⟨11, 10⟩,
      ⟨12, 11⟩, ⟨13, 12⟩, ⟨14, 13⟩, ⟨15, 14⟩, ⟨16, 15⟩, ⟨1, 2000⟩, ⟨17, 2001⟩, ⟨1, 2002⟩],
    by decide +kernel, by decide +kernel, by decide +kernel, by decide +kernel, by decide +kernel⟩

end Parrot
