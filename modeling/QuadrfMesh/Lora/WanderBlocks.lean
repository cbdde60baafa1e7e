/-
# The blocks of the carrier fit

Where the sub-blocks of a window lie.  Each is cut at most once, at the wrap, so two neighbours
of one segment touch (`BlockPlace.touch`); every phase step lies within the symbol and counts for
something, and where the wrap is known all but one neighbour have one.  The fit then has enough
of them, and no combination of its coefficients is left free (`WanderFitOf.fit_accepts`).
-/
import QuadrfMesh.Lora.Wander

open Finset LeastSquares

/-! ## Where the blocks lie -/

/-- A block of `a` samples from `start` of sub-block `m`, short only at the wrap. -/
structure BlockPlace {S P : Type} [Field P] (len : ℕ) (wrap : ℤ) (m : ℕ) (q : CarrierBlock S P)
    (start a : ℕ) : Prop where
  pos : 0 < a
  le : a ≤ len
  center_eq : q.center = start + 1 / 2 * (a : P)
  place : q.seg = 1 ∧ start = m * len ∧ (start + a : ℕ) ≤ wrap ∧ (a < len → wrap = (start + a : ℕ))
    ∨ q.seg = 2 ∧ start + a = (m + 1) * len ∧ wrap ≤ start ∧ (a < len → wrap = start)

namespace BlockPlace

variable {S P : Type} [Field P] {len : ℕ} {wrap : ℤ} {m s0 a0 s1 a1 : ℕ} {q0 q1 : CarrierBlock S P}
  (h0 : BlockPlace len wrap m q0 s0 a0) (h1 : BlockPlace len wrap (m + 1) q1 s1 a1)
include h0 h1

/-- Two neighbours of one segment touch: the wrap is in neither of them. -/
theorem touch (hseg : q0.seg = q1.seg) : s1 = s0 + a0 := by
  have hlen0 := h0.le
  have hlen1 := h1.le
  have hpos0 := h0.pos
  have hpos1 := h1.pos
  have hnext : (m + 1 + 1) * len = (m + 1) * len + len := Nat.succ_mul _ _
  have hnext' : (m + 1) * len = m * len + len := Nat.succ_mul _ _
  rcases h0.place with ⟨hs0, hst0, hw0, hwrap0⟩ | ⟨hs0, hst0, hw0, hwrap0⟩ <;>
    rcases h1.place with ⟨hs1, hst1, hw1, hwrap1⟩ | ⟨hs1, hst1, hw1, hwrap1⟩
  · by_contra hne
    have := hwrap0 (by omega)
    omega
  · omega
  · omega
  · by_contra hne
    have := hwrap1 (by omega)
    omega

/-- The segments only go up. -/
theorem seg_le : q0.seg ≤ q1.seg := by
  have hpos0 := h0.pos
  have hpos1 := h1.pos
  rcases h0.place with ⟨hs0, hst0, hw0, -⟩ | ⟨hs0, hst0, hw0, -⟩ <;>
    rcases h1.place with ⟨hs1, hst1, hw1, -⟩ | ⟨hs1, hst1, hw1, -⟩ <;> omega

/-- The step between them. -/
theorem center_sub [CharZero P] (hseg : q0.seg = q1.seg) :
    q1.center - q0.center = (a0 + a1 : ℕ) / 2 := by
  rw [h0.center_eq, h1.center_eq, touch h0 h1 hseg]
  push_cast
  ring

end BlockPlace

section Accepts

variable {S P : Type} [CommRing S] [Field P] [LinearOrder P] [IsStrictOrderedRing P]
  {ops : CarrierOps S P} {sps len : ℕ} {z : List S} {b1 b2 wrap : ℤ} (hwrap : 0 ≤ wrap)
  (hlen : 0 < len)
include hwrap hlen

variable (ops sps z b1 b2) in
/-- The parts of a sub-block: one or two, the first segment before the second. -/
theorem blockParts_spec (m : ℕ) :
    blockParts ops sps z b1 b2 wrap len m ≠ [] ∧
      (blockParts ops sps z b1 b2 wrap len m).IsChain (fun q0 q1 => q0.seg = 1 ∧ q1.seg = 2) ∧
      ∀ q ∈ blockParts ops sps z b1 b2 wrap len m, ∃ start a, BlockPlace len wrap m q start a := by
  have hlenP : (0 : P) < len := by exact_mod_cast hlen
  set split : ℕ := (max 0 (min (wrap - (m * len : ℕ)) len)).toNat with hsplit
  have hsplitZ : (split : ℤ) = max 0 (min (wrap - (m * len : ℕ)) len) :=
    Int.toNat_of_nonneg (le_max_left _ _)
  have hsplit_le : split ≤ len := by omega
  have hrest : ((len - split : ℕ) : P) = len - split := Nat.cast_sub hsplit_le
  have hfirst : (len / 8 : P) ≤ split → 0 < split := fun hbig => by
    have : (0 : P) < split := lt_of_lt_of_le (by positivity) hbig
    exact_mod_cast this
  have hsecond : (len / 8 : P) ≤ len - split → 0 < len - split := fun hbig => by
    have : (0 : P) < (len - split : ℕ) := by
      rw [hrest]
      exact lt_of_lt_of_le (by positivity) hbig
    exact_mod_cast this
  have hbefore : ∀ q : CarrierBlock S P, (len / 8 : P) ≤ split → q.seg = 1 →
      q.center = (m * len : ℕ) + 1 / 2 * (split : P) →
      ∃ start a, BlockPlace len wrap m q start a := fun q hbig hseg hcenter => by
    have := hfirst hbig
    exact ⟨m * len, split, this, hsplit_le, hcenter, Or.inl ⟨hseg, rfl, by push_cast; omega,
      fun hshort => by push_cast; omega⟩⟩
  have hafter : ∀ q : CarrierBlock S P, (len / 8 : P) ≤ len - split → q.seg = 2 →
      q.center = (m * len : ℕ) + (split : P) + 1 / 2 * (len - split) →
      ∃ start a, BlockPlace len wrap m q start a := fun q hbig hseg hcenter => by
    have := hsecond hbig
    exact ⟨m * len + split, len - split, this, Nat.sub_le _ _, by rw [hcenter, hrest]; push_cast; ring,
      Or.inr ⟨hseg, by rw [Nat.succ_mul]; omega, by push_cast; omega, fun hshort => by push_cast; omega⟩⟩
  simp only [blockParts]
  rw [if_neg (not_lt.mpr hwrap), ← hsplit]
  split_ifs with h1 h2 h2
  · refine ⟨List.cons_ne_nil _ _, by simp, fun q hq => ?_⟩
    rcases List.mem_cons.mp hq with rfl | hq
    · exact hbefore _ h1 rfl rfl
    · obtain rfl := List.mem_singleton.mp hq
      exact hafter _ h2 rfl rfl
  · refine ⟨List.cons_ne_nil _ _, List.IsChain.singleton _, fun q hq => ?_⟩
    obtain rfl := List.mem_singleton.mp hq
    exact hbefore _ h1 rfl rfl
  · refine ⟨List.cons_ne_nil _ _, List.IsChain.singleton _, fun q hq => ?_⟩
    obtain rfl := List.mem_singleton.mp hq
    exact hafter _ h2 rfl rfl
  · exfalso
    linarith

variable (ops sps z b1 b2) in
/-- What holds of the phase steps across sub-blocks holds between all neighbours. -/
theorem isChain_blocks (nSub : ℕ) (R : CarrierBlock S P → CarrierBlock S P → Prop)
    (hwithin : ∀ q0 q1, q0.seg = 1 → q1.seg = 2 → R q0 q1)
    (hacross : ∀ m, m + 1 < nSub → ∀ q0 ∈ blockParts ops sps z b1 b2 wrap len m,
      ∀ q1 ∈ blockParts ops sps z b1 b2 wrap len (m + 1), R q0 q1) :
    ((List.range nSub).flatMap (blockParts ops sps z b1 b2 wrap len)).IsChain R := by
  rw [List.flatMap_def, List.isChain_flatten (by
    intro hnil
    obtain ⟨m, -, hm⟩ := List.mem_map.mp hnil
    exact (blockParts_spec ops sps z b1 b2 hwrap hlen m).1 hm)]
  refine ⟨?_, ?_⟩
  · intro l hl
    obtain ⟨m, -, rfl⟩ := List.mem_map.mp hl
    exact (blockParts_spec ops sps z b1 b2 hwrap hlen m).2.1.imp fun q0 q1 h => hwithin q0 q1 h.1 h.2
  · rw [List.isChain_map, List.isChain_range]
    intro m hm q0 hq0 q1 hq1
    exact hacross m (by omega) q0 (List.mem_of_getLast? hq0) q1 (List.mem_of_head? hq1)

omit [IsStrictOrderedRing P] hwrap hlen in
/-- Blocks of different segments have no phase step. -/
theorem observe_eq_none {noiseVar : P} {q0 q1 : CarrierBlock S P} (h0 : q0.seg = 1)
    (h1 : q1.seg = 2) : observe ops sps noiseVar q0 q1 = none := by
  simp only [observe]
  rw [if_pos (by rw [h0, h1]; decide)]

variable (ops sps) in
omit [IsStrictOrderedRing P] hwrap hlen in
/-- Neighbours of one segment have one. -/
theorem observe_isSome (noiseVar : P) {q0 q1 : CarrierBlock S P} (h : q0.seg = q1.seg) :
    (observe ops sps noiseVar q0 q1).isSome = true := by
  simp only [observe]
  rw [if_neg (not_not.mpr h)]
  rfl

end Accepts

section Observations

variable {S P : Type} [CommRing S] [Field P] [LinearOrder P] [IsStrictOrderedRing P]
  {ops : CarrierOps S P} {w : WanderFitOf P} {z : List S} {b1 wrap : ℤ} {noiseVar : P} {nSub : ℕ}
  (hwrap : 0 ≤ wrap) (hsps : 0 < w.sps) (hsub : 0 < nSub) (hdvd : nSub ∣ w.sps)
include hwrap hsps hsub hdvd

omit [Field P] [LinearOrder P] [IsStrictOrderedRing P] hwrap in
theorem subLen_pos : 0 < w.sps / nSub :=
  Nat.div_pos (Nat.le_of_dvd hsps hdvd) hsub

/-- **Every observation is the step between two neighbouring sub-blocks.** -/
theorem exists_of_mem_observations {o : P × P × P}
    (ho : o ∈ observations ops w z b1 wrap noiseVar nSub) :
    ∃ m, m + 1 < nSub ∧ ∃ q0 q1 s0 a0 s1 a1,
      q0 ∈ blockParts ops w.sps z b1 (((b1 - w.nChips) % w.sps + w.sps) % w.sps) wrap
        (w.sps / nSub) m ∧
      q1 ∈ blockParts ops w.sps z b1 (((b1 - w.nChips) % w.sps + w.sps) % w.sps) wrap
        (w.sps / nSub) (m + 1) ∧
      BlockPlace (w.sps / nSub) wrap m q0 s0 a0 ∧ BlockPlace (w.sps / nSub) wrap (m + 1) q1 s1 a1 ∧
      q0.seg = q1.seg ∧ observe ops w.sps noiseVar q0 q1 = some o := by
  have hlen := subLen_pos hsps hsub hdvd
  set b2 : ℤ := ((b1 - w.nChips) % w.sps + w.sps) % w.sps
  have hchain := isChain_blocks ops w.sps z b1 b2 hwrap hlen nSub
    (fun q0 q1 => ∀ o, observe ops w.sps noiseVar q0 q1 = some o →
      ∃ m, m + 1 < nSub ∧ q0 ∈ blockParts ops w.sps z b1 b2 wrap (w.sps / nSub) m ∧
        q1 ∈ blockParts ops w.sps z b1 b2 wrap (w.sps / nSub) (m + 1))
    (fun q0 q1 h0 h1 o ho => by
      rw [observe_eq_none h0 h1] at ho
      cases ho)
    fun m hm q0 hq0 q1 hq1 o _ => ⟨m, hm, hq0, hq1⟩
  simp only [observations, phaseSteps, List.mem_filterMap] at ho
  obtain ⟨q, hq, ho⟩ := ho
  obtain ⟨i, hi, hget⟩ := List.getElem_of_mem hq
  rw [List.getElem_zip, List.getElem_tail] at hget
  rw [← hget] at ho
  obtain ⟨m, hm, hq0, hq1⟩ := List.isChain_iff_getElem.mp hchain i _ o ho
  obtain ⟨s0, a0, h0⟩ := (blockParts_spec ops w.sps z b1 b2 hwrap hlen m).2.2 _ hq0
  obtain ⟨s1, a1, h1⟩ := (blockParts_spec ops w.sps z b1 b2 hwrap hlen (m + 1)).2.2 _ hq1
  refine ⟨m, hm, _, _, s0, a0, s1, a1, hq0, hq1, h0, h1, ?_, ho⟩
  by_contra hseg
  simp only [observe] at ho
  rw [if_pos hseg] at ho
  cases ho

/-- **Where and how much an observation counts**: within the symbol, and never for nothing. -/
theorem observation_bounds (htwoPi : 0 < ops.twoPi) {o : P × P × P}
    (ho : o ∈ observations ops w z b1 wrap noiseVar nSub) :
    0 ≤ o.1 ∧ o.1 ≤ 1 ∧ 12 / (w.sps : P) ^ 2 ≤ o.2.2 := by
  obtain ⟨m, hm, q0, q1, s0, a0, s1, a1, -, -, h0, h1, hseg, ho⟩ :=
    exists_of_mem_observations hwrap hsps hsub hdvd ho
  set len := w.sps / nSub with hlen
  have hspsP : (0 : P) < w.sps := by exact_mod_cast hsps
  have hstep := BlockPlace.center_sub h0 h1 hseg
  have htouch := BlockPlace.touch h0 h1 hseg
  have hpos0 := h0.pos
  have hpos1 := h1.pos
  -- the second block ends within the symbol
  have hend : s1 + a1 ≤ w.sps := by
    have hle1 := h1.le
    have hnext : (m + 1 + 1) * len = (m + 1) * len + len := Nat.succ_mul _ _
    have hinside : (m + 1 + 1) * len ≤ w.sps := by
      calc (m + 1 + 1) * len ≤ nSub * len := Nat.mul_le_mul_right _ hm
        _ = w.sps := Nat.mul_div_cancel' hdvd
    rcases h1.place with ⟨-, hst, -, -⟩ | ⟨-, hst, -, -⟩ <;> omega
  simp only [observe] at ho
  rw [if_neg (not_not.mpr hseg)] at ho
  obtain rfl := Option.some.inj ho
  have hmid : 1 / 2 * (q0.center + q1.center) = ((s0 + a0 : ℕ) : P) + (a1 / 4 - a0 / 4) := by
    rw [h0.center_eq, h1.center_eq, htouch]
    push_cast
    ring
  have ha0 : (0 : P) < a0 := by exact_mod_cast hpos0
  have ha1 : (0 : P) < a1 := by exact_mod_cast hpos1
  have hs0 : (0 : P) ≤ s0 := Nat.cast_nonneg _
  have hendP : (s1 + a1 : P) ≤ w.sps := by exact_mod_cast hend
  refine ⟨?_, ?_, ?_⟩
  · refine div_nonneg ?_ hspsP.le
    rw [hmid]
    push_cast
    linarith
  · show 1 / 2 * (q0.center + q1.center) / w.sps ≤ 1
    rw [div_le_one hspsP, hmid]
    rw [htouch] at hendP
    push_cast at hendP ⊢
    linarith
  · -- the variance is capped and the step at least one sample
    set Δ : P := q1.center - q0.center with hΔ
    have hΔ1 : 1 ≤ Δ := by
      rw [hstep, le_div_iff₀ two_pos, one_mul]
      exact_mod_cast (show 2 ≤ a0 + a1 by omega)
    have hΔpos : 0 < Δ := one_pos.trans_le hΔ1
    set varD : P := min (1 / 2 / max (ops.norm q0.p / max (noiseVar * q0.len) (1 / 10 ^ 30) - 1) (3 / 10)
      + 1 / 2 / max (ops.norm q1.p / max (noiseVar * q1.len) (1 / 10 ^ 30) - 1) (3 / 10))
      (ops.twoPi * ops.twoPi / 12) with hvarD
    have hsnr : ∀ x : P, 0 < 1 / 2 / max x (3 / 10) := fun x =>
      div_pos (by norm_num) (lt_max_of_lt_right (by norm_num))
    have hvarpos : 0 < varD := lt_min (add_pos (hsnr _) (hsnr _)) (by positivity)
    have hvarle : varD ≤ ops.twoPi * ops.twoPi / 12 := min_le_right _ _
    show 12 / (w.sps : P) ^ 2
      ≤ 1 / (varD * (w.sps / (ops.twoPi * Δ)) * (w.sps / (ops.twoPi * Δ)))
    have hden : varD * (w.sps / (ops.twoPi * Δ)) * (w.sps / (ops.twoPi * Δ)) ≤ w.sps ^ 2 / 12 := by
      have hsq : varD * (w.sps / (ops.twoPi * Δ)) * (w.sps / (ops.twoPi * Δ))
          = varD * w.sps ^ 2 / (ops.twoPi ^ 2 * Δ ^ 2) := by
        field_simp
      rw [hsq, div_le_div_iff₀ (by positivity) (by norm_num)]
      have hΔsq : 1 ≤ Δ ^ 2 := one_le_pow₀ hΔ1
      have hcap : varD * 12 ≤ ops.twoPi ^ 2 := by
        rw [le_div_iff₀ (by norm_num)] at hvarle
        rwa [sq]
      calc varD * w.sps ^ 2 * 12 = varD * 12 * w.sps ^ 2 := by ring
        _ ≤ ops.twoPi ^ 2 * w.sps ^ 2 := mul_le_mul_of_nonneg_right hcap (by positivity)
        _ ≤ w.sps ^ 2 * (ops.twoPi ^ 2 * Δ ^ 2) := by
            have hmore : ops.twoPi ^ 2 * w.sps ^ 2 * 1 ≤ ops.twoPi ^ 2 * w.sps ^ 2 * Δ ^ 2 :=
              mul_le_mul_of_nonneg_left hΔsq (by positivity)
            linarith
    calc 12 / (w.sps : P) ^ 2 = 1 / (w.sps ^ 2 / 12) := by rw [one_div_div]
      _ ≤ _ := one_div_le_one_div_of_le (by positivity) hden

end Observations

/-! ## Enough of them -/

section Count

variable {S P : Type} [CommRing S] [Field P] [LinearOrder P] {ops : CarrierOps S P} {sps : ℕ}
  {noiseVar : P}

theorem length_phaseSteps_cons {q0 q1 : CarrierBlock S P} {blocks : List (CarrierBlock S P)} :
    (phaseSteps ops sps noiseVar (q0 :: q1 :: blocks)).length
      = (if q0.seg = q1.seg then 1 else 0) + (phaseSteps ops sps noiseVar (q1 :: blocks)).length := by
  simp only [phaseSteps, List.tail_cons, List.zip_cons_cons, List.filterMap_cons]
  by_cases hseg : q0.seg = q1.seg
  · obtain ⟨o, ho⟩ := Option.isSome_iff_exists.mp
      (observe_isSome ops sps noiseVar hseg)
    rw [ho, if_pos hseg, List.length_cons, add_comm]
  · have hnone : observe ops sps noiseVar q0 q1 = none := by
      simp only [observe]
      rw [if_pos hseg]
    rw [hnone, if_neg hseg, zero_add]

variable (ops sps noiseVar) in
/-- Blocks of the second segment all have steps between them. -/
theorem length_phaseSteps_second {blocks : List (CarrierBlock S P)}
    (hsecond : ∀ q ∈ blocks, q.seg = 2) :
    blocks.length ≤ (phaseSteps ops sps noiseVar blocks).length + 1 := by
  induction blocks with
  | nil => simp
  | cons q0 blocks ih =>
      cases blocks with
      | nil => simp
      | cons q1 blocks =>
          obtain ⟨h0, hrest⟩ := List.forall_mem_cons.mp hsecond
          have h1 := (List.forall_mem_cons.mp hrest).1
          have := ih hrest
          rw [length_phaseSteps_cons, if_pos (h0.trans h1.symm), List.length_cons]
          omega

/-- **All but one neighbour** have a step, where the segments only go up. -/
theorem length_phaseSteps {blocks : List (CarrierBlock S P)}
    (hup : blocks.IsChain fun q0 q1 => q0.seg ≤ q1.seg)
    (hseg : ∀ q ∈ blocks, q.seg = 1 ∨ q.seg = 2) :
    blocks.length ≤ (phaseSteps ops sps noiseVar blocks).length + 2 := by
  induction blocks with
  | nil => simp
  | cons q0 blocks ih =>
      cases blocks with
      | nil => simp
      | cons q1 blocks =>
          obtain ⟨h0, hrest⟩ := List.forall_mem_cons.mp hseg
          obtain ⟨h01, hup'⟩ := List.isChain_cons_cons.mp hup
          rw [length_phaseSteps_cons, List.length_cons]
          by_cases hsame : q0.seg = q1.seg
          · have := ih hup' hrest
            rw [if_pos hsame]
            omega
          · -- the change: everything after it is of the second segment
            have hsecond : ∀ q ∈ q1 :: blocks, q.seg = 2 := by
              have htrans : (q1 :: blocks).Pairwise
                  fun q0 q1 : CarrierBlock S P => q0.seg ≤ q1.seg := by
                have : Trans (fun q0 q1 : CarrierBlock S P => q0.seg ≤ q1.seg)
                    (fun q0 q1 : CarrierBlock S P => q0.seg ≤ q1.seg)
                    (fun q0 q1 : CarrierBlock S P => q0.seg ≤ q1.seg) :=
                  ⟨fun h h' => le_trans h h'⟩
                exact hup'.pairwise
              intro q hq
              rcases List.mem_cons.mp hq with rfl | hq
              · have := (List.forall_mem_cons.mp hrest).1
                omega
              · have := (List.pairwise_cons.mp htrans).1 q hq
                have := hrest q (List.mem_cons_of_mem _ hq)
                omega
            have := length_phaseSteps_second ops sps noiseVar hsecond
            rw [if_neg hsame]
            omega

end Count

section Fit

variable {S P : Type} [CommRing S] [Field P] [LinearOrder P] [IsStrictOrderedRing P]
  {ops : CarrierOps S P} {w : WanderFitOf P} {z : List S} {b1 wrap : ℤ} {noiseVar : P} {nSub : ℕ}

variable (ops z b1 noiseVar) in
/-- A window with a known wrap has two observations at least. -/
theorem two_le_length_observations (hwrap : 0 ≤ wrap) (hsps : 0 < w.sps) (hsub : 4 ≤ nSub)
    (hdvd : nSub ∣ w.sps) : 2 ≤ (observations ops w z b1 wrap noiseVar nSub).length := by
  have hlen := subLen_pos hsps (by omega) hdvd
  set b2 : ℤ := ((b1 - w.nChips) % w.sps + w.sps) % w.sps with hb2
  set part := blockParts ops w.sps z b1 b2 wrap (w.sps / nSub) with hpart
  have hspec := blockParts_spec ops w.sps z b1 b2 hwrap hlen
  have hseg : ∀ q ∈ (List.range nSub).flatMap part, q.seg = 1 ∨ q.seg = 2 := by
    intro q hq
    obtain ⟨m, -, hq⟩ := List.mem_flatMap.mp hq
    obtain ⟨s, a, h⟩ := (hspec m).2.2 q hq
    exact h.place.imp (·.1) (·.1)
  have hup := isChain_blocks ops w.sps z b1 b2 hwrap hlen nSub (fun q0 q1 => q0.seg ≤ q1.seg)
    (fun q0 q1 h0 h1 => by rw [h0, h1]; decide)
    fun m _ q0 hq0 q1 hq1 => by
      obtain ⟨s0, a0, h0⟩ := (hspec m).2.2 q0 hq0
      obtain ⟨s1, a1, h1⟩ := (hspec (m + 1)).2.2 q1 hq1
      exact h0.seg_le h1
  -- every sub-block has a block
  have hmany : ∀ n, n ≤ ((List.range n).flatMap part).length := by
    intro n
    induction n with
    | zero => exact Nat.zero_le _
    | succ n ih =>
        have hone : 0 < (part n).length := List.length_pos_iff.mpr (hspec n).1
        rw [List.range_succ, List.flatMap_append, List.length_append, List.flatMap_singleton]
        omega
  have hcount : ((List.range nSub).flatMap part).length
      ≤ (observations ops w z b1 wrap noiseVar nSub).length + 2 := length_phaseSteps hup hseg
  have := hmany nSub
  omega

omit [CommRing S] in
/-- No order is large within the symbol. -/
theorem abs_legendre_le {x : P} (hx : |x| ≤ 1) (i : ℕ) : |legendre x i| ≤ 3 ^ i := by
  induction i using Nat.twoStepInduction with
  | zero => simp [legendre]
  | one =>
      rw [legendre, pow_one]
      linarith
  | more i ih ih' =>
      have hpos : (0 : P) < i + 2 := by positivity
      have hi : (0 : P) ≤ i := Nat.cast_nonneg i
      have hrec := legendre_succ_succ x i
      have hfirst : |(2 * i + 3) * x * legendre x (i + 1)| ≤ (2 * i + 3) * 3 ^ (i + 1) := by
        rw [abs_mul, abs_mul, abs_of_nonneg (by positivity : (0 : P) ≤ 2 * i + 3), mul_assoc]
        refine mul_le_mul_of_nonneg_left ?_ (by positivity)
        calc |x| * |legendre x (i + 1)| ≤ 1 * |legendre x (i + 1)| :=
              mul_le_mul_of_nonneg_right hx (abs_nonneg _)
          _ ≤ 3 ^ (i + 1) := by rwa [one_mul]
      have hsecond : |(i + 1) * legendre x i| ≤ (i + 1) * 3 ^ i := by
        rw [abs_mul, abs_of_nonneg (by positivity : (0 : P) ≤ i + 1)]
        exact mul_le_mul_of_nonneg_left ih (by positivity)
      have hsum : (i + 2 : P) * |legendre x (i + 2)| ≤ (i + 2) * 3 ^ (i + 2) := by
        calc (i + 2 : P) * |legendre x (i + 2)| = |(i + 2 : P) * legendre x (i + 2)| := by
              rw [abs_mul, abs_of_pos hpos]
          _ ≤ (2 * i + 3) * 3 ^ (i + 1) + (i + 1) * 3 ^ i := by
              rw [hrec]
              exact (abs_sub _ _).trans (add_le_add hfirst hsecond)
          _ ≤ (i + 2) * 3 ^ (i + 2) := by
              have hroom : (i + 2 : P) * 3 ^ (i + 2)
                  = (2 * i + 3) * 3 ^ (i + 1) + (i + 1) * 3 ^ i + (2 * i + 8) * 3 ^ i := by ring
              rw [hroom]
              exact le_add_of_nonneg_right (by positivity)
      exact le_of_mul_le_mul_left hsum hpos

/-- What the solver needs of its prior: no pull towards the mean, and every higher order held. -/
structure FirmPrior (order : ℕ) (priorInv : ℕ → P) : Prop where
  nonneg : ∀ i, 0 ≤ priorInv i
  firm : ∀ i, 1 ≤ i → i ≤ order → 1 / 10 ^ 100 ≤ priorInv i

omit [CommRing S] in
/-- What the solver calls free is far below what the data say. -/
theorem free_le : (6 / 10 ^ 300 : P) ≤ 1 / 10 ^ 110 := by
  have hsplit : (10 : P) ^ 300 = 10 ^ 110 * 10 ^ 190 := by rw [← pow_add]
  have hsix : (6 : P) ≤ 10 ^ 190 := by norm_num
  rw [hsplit, div_le_div_iff₀ (by positivity) (by positivity), one_mul, mul_comm]
  exact mul_le_mul_of_nonneg_left hsix (by positivity)

/-- **A stage accepts every window** whose wrap is known. -/
theorem WanderFitOf.solve_accepts (hwrap : 0 ≤ wrap) (hsps : 0 < w.sps) (hfits : w.sps < 2 ^ 32)
    (hsub : 4 ≤ nSub) (hdvd : nSub ∣ w.sps) (htwoPi : 0 < ops.twoPi) (horder : w.order ≤ 5)
    {priorInv : ℕ → P} (hprior : FirmPrior w.order priorInv) :
    (w.solve ops z b1 wrap noiseVar nSub priorInv).2 = true := by
  have hcount := two_le_length_observations ops z b1 noiseVar hwrap hsps hsub hdvd
  have hbounds : ∀ o ∈ observations ops w z b1 wrap noiseVar nSub,
      0 ≤ o.1 ∧ o.1 ≤ 1 ∧ 12 / (w.sps : P) ^ 2 ≤ o.2.2 := fun _ ho =>
    observation_bounds hwrap hsps (by omega) hdvd htwoPi ho
  set obs := observations ops w z b1 wrap noiseVar nSub with hobs
  -- if the solver refuses, some combination is free
  cases hridge : ridgeSolve (fun r i => legendre (2 * (obs.getD r (0, 0, 0)).1 - 1) i)
      (fun r => (obs.getD r (0, 0, 0)).2.1) (fun r => (obs.getD r (0, 0, 0)).2.2) obs.length
      (w.order + 1) priorInv with
  | some x =>
      unfold solve
      simp only
      rw [if_neg (by
        push Not
        exact ⟨by omega, by omega, Nat.mod_eq_zero_of_dvd hdvd⟩), ← hobs, if_neg (by omega), hridge]
  | none =>
      exfalso
      obtain ⟨v, hle, ⟨k, hk, hone⟩, hfree⟩ := exists_of_ridgeSolve_eq_none (by omega) (by omega) hridge
      set fit : Problem P := ⟨obs.length, w.order + 1,
        fun r i => legendre (2 * (obs.getD r (0, 0, 0)).1 - 1) i,
        fun r => (obs.getD r (0, 0, 0)).2.1, fun r => (obs.getD r (0, 0, 0)).2.2, priorInv⟩ with hfit
      have hat : ∀ r < obs.length, obs.getD r (0, 0, 0) ∈ obs := fun r hr => by
        rw [List.getD_eq_getElem _ _ hr]
        exact List.getElem_mem hr
      have hweight : ∀ r ∈ range fit.rows, 0 ≤ fit.weight r * fit.predict v r ^ 2 := fun r hr =>
        mul_nonneg (observations_weight_nonneg (hat r (mem_range.mp hr))) (sq_nonneg _)
      have hpull : ∀ i ∈ range fit.n, 0 ≤ fit.prior i * v i ^ 2 := fun i _ =>
        mul_nonneg (hprior.nonneg i) (sq_nonneg _)
      have hfew : ((w.order + 1 : ℕ) : P) / 10 ^ 300 ≤ 6 / 10 ^ 300 := by
        have hsix : ((w.order + 1 : ℕ) : P) ≤ (6 : ℕ) := Nat.cast_le.mpr (by omega)
        rw [Nat.cast_ofNat] at hsix
        exact div_le_div_of_nonneg_right hsix (by positivity)
      refine absurd (hfree.trans_le hfew) (not_lt.mpr ?_)
      by_cases hlarge : ∃ i, 1 ≤ i ∧ i ≤ w.order ∧ 1 / 1000 ≤ |v i|
      · -- a higher order is in it: the prior holds it
        obtain ⟨i, hi, hi', hbig⟩ := hlarge
        have hterm : fit.prior i * v i ^ 2 ≤ fit.spread v :=
          (single_le_sum hpull (mem_range.mpr (show i < w.order + 1 by omega))).trans
            (le_add_of_nonneg_left (sum_nonneg hweight))
        have hsq : (1 / 1000 : P) ^ 2 ≤ v i ^ 2 := by
          rw [← sq_abs (v i)]
          exact pow_le_pow_left₀ (by norm_num) hbig 2
        calc (6 / 10 ^ 300 : P) ≤ 1 / 10 ^ 110 := free_le
          _ ≤ 1 / 10 ^ 100 * (1 / 1000) ^ 2 := by norm_num
          _ ≤ fit.prior i * v i ^ 2 :=
              mul_le_mul (hprior.firm i hi hi') hsq (by positivity) (hprior.nonneg i)
          _ ≤ fit.spread v := hterm
      · -- only the mean is: the first observation sees it
        push Not at hlarge
        have hk0 : k = 0 := by
          by_contra hne
          have := hlarge k (by omega) (by omega)
          rw [hone] at this
          norm_num at this
        obtain ⟨ht, ht', hw⟩ := hbounds _ (hat 0 (by omega))
        set x : P := 2 * (obs.getD 0 (0, 0, 0)).1 - 1 with hx
        have hx1 : |x| ≤ 1 := by
          rw [abs_le, hx]
          constructor <;> linarith
        have hpredict : fit.predict v 0 = v 0 + ∑ i ∈ range w.order, legendre x (i + 1) * v (i + 1) := by
          rw [Problem.predict, sum_range_succ' _ w.order, add_comm]
          congr 1
          show legendre x 0 * v 0 = v 0
          rw [legendre, one_mul]
        have hrest : |∑ i ∈ range w.order, legendre x (i + 1) * v (i + 1)| ≤ 1 / 2 := by
          calc |∑ i ∈ range w.order, legendre x (i + 1) * v (i + 1)|
              ≤ ∑ i ∈ range w.order, |legendre x (i + 1) * v (i + 1)| := abs_sum_le_sum_abs _ _
            _ ≤ ∑ i ∈ range w.order, (3 ^ (i + 1) * (1 / 1000) : P) := by
                refine sum_le_sum fun i hi => ?_
                rw [abs_mul]
                have hi' := mem_range.mp hi
                exact mul_le_mul (abs_legendre_le hx1 _) (hlarge (i + 1) (by omega) (by omega)).le
                  (abs_nonneg _) (by positivity)
            _ ≤ ∑ i ∈ range 5, (3 ^ (i + 1) * (1 / 1000) : P) :=
                sum_le_sum_of_subset_of_nonneg (range_mono horder) fun i _ _ => by positivity
            _ ≤ 1 / 2 := by norm_num [sum_range_succ]
        have hseen : (1 / 2 : P) ≤ |fit.predict v 0| := by
          have hmean : |v 0| = 1 := hk0 ▸ hone
          rw [hpredict]
          have := abs_sub_abs_le_abs_add (v 0)
            (∑ i ∈ range w.order, legendre x (i + 1) * v (i + 1))
          linarith
        have hsq : (1 / 2 : P) ^ 2 ≤ fit.predict v 0 ^ 2 := by
          rw [← sq_abs (fit.predict v 0)]
          exact pow_le_pow_left₀ (by norm_num) hseen 2
        have hterm : fit.weight 0 * fit.predict v 0 ^ 2 ≤ fit.spread v :=
          (single_le_sum hweight (mem_range.mpr (show 0 < obs.length by omega))).trans
            (le_add_of_nonneg_right (sum_nonneg hpull))
        have hspsP : (0 : P) < w.sps := by exact_mod_cast hsps
        have hfloor : (12 / (2 ^ 32) ^ 2 : P) ≤ fit.weight 0 := by
          refine le_trans ?_ hw
          have : (w.sps : P) ≤ 2 ^ 32 := by exact_mod_cast hfits.le
          gcongr
        calc (6 / 10 ^ 300 : P) ≤ 1 / 10 ^ 110 := free_le
          _ ≤ 12 / (2 ^ 32) ^ 2 * (1 / 2) ^ 2 := by norm_num
          _ ≤ fit.weight 0 * fit.predict v 0 ^ 2 :=
              mul_le_mul hfloor hsq (by positivity) (le_trans (by positivity) hfloor)
          _ ≤ fit.spread v := hterm

theorem WanderFitOf.configure_firm (sps nChips : ℕ) {sigmaW : P} (hsigma : sigmaW ≤ 10 ^ 40)
    (order : ℕ) :
    (configure sps nChips sigmaW order).order ≤ 5 ∧
      FirmPrior (configure sps nChips sigmaW order).order
        (configure sps nChips sigmaW order).priorInv := by
  have hle : (configure sps nChips sigmaW order).order ≤ 5 := by
    simp only [configure]
    omega
  refine ⟨hle, (configure_configured sps nChips sigmaW order).1.prior_nonneg, fun i hi hi' => ?_⟩
  simp only [configure] at hi' ⊢
  rw [if_pos ⟨hi, hi'⟩]
  set sigma : P := max (sigmaW / (1 + i)) (2 / 100) with hs
  have hlow : 0 < sigma := lt_max_of_lt_right (by norm_num)
  have hhigh : sigma ≤ 10 ^ 40 := by
    refine max_le ?_ (by norm_num)
    have hi0 : (0 : P) ≤ i := Nat.cast_nonneg i
    rw [div_le_iff₀ (by positivity)]
    calc sigmaW ≤ 10 ^ 40 := hsigma
      _ ≤ 10 ^ 40 * (1 + i) := le_mul_of_one_le_right (by positivity) (by linarith)
  refine one_div_le_one_div_of_le (by positivity) ?_
  calc sigma * sigma ≤ 10 ^ 40 * 10 ^ 40 := mul_le_mul hhigh hhigh hlow.le (by positivity)
    _ ≤ 10 ^ 100 := by norm_num

variable (ops) in
/-- Earlier windows leave the settings as they are. -/
theorem WanderFitOf.after_keeps (hw : w.Configured) (calls : List (FitCall S P)) :
    (w.after ops calls).Configured ∧ (w.after ops calls).order = w.order ∧
      (w.after ops calls).priorInv = w.priorInv ∧
      (w.after ops calls).sps = w.sps ∧ (w.after ops calls).nChips = w.nChips := by
  induction calls generalizing w with
  | nil => exact ⟨hw, rfl, rfl, rfl, rfl⟩
  | cons q calls ih =>
      obtain ⟨hconfigured, -, horder, hinv, hsps, hchips⟩ :=
        fit_keeps ops hw q.z q.b1 q.wrap q.noiseVar q.nSub
      obtain ⟨h, horder', hinv', hsps', hchips'⟩ := ih hconfigured
      exact ⟨h, horder'.trans horder, hinv'.trans hinv, hsps'.trans hsps, hchips'.trans hchips⟩

variable (z b1 noiseVar) in
/-- The first stage, after earlier windows. -/
theorem WanderFitOf.after_solve {sps nChips order : ℕ} {sigmaW : P} (hsps : 0 < sps)
    (hfits : sps < 2 ^ 32) (hsigma : sigmaW ≤ 10 ^ 40) (htwoPi : 0 < ops.twoPi)
    (calls : List (FitCall S P)) (hwrap : 0 ≤ wrap) (hsub : 4 ≤ nSub) (hdvd : nSub ∣ sps) :
    let w := (configure sps nChips sigmaW order).after ops calls
    (w.solve ops z b1 wrap noiseVar nSub w.priorInv).2 = true := by
  intro w
  obtain ⟨hconfigured, -⟩ := configure_configured sps nChips sigmaW order
  obtain ⟨-, horder, hinv, hsps', -⟩ := after_keeps ops hconfigured calls
  obtain ⟨hfive, hfirm⟩ := configure_firm sps nChips hsigma order
  have hwsps : w.sps = sps := hsps'
  rw [← horder, ← hinv] at hfirm
  exact solve_accepts hwrap (by rw [hwsps]; exact hsps) (by rw [hwsps]; exact hfits) hsub
    (by rw [hwsps]; exact hdvd) htwoPi (by rw [horder]; exact hfive) hfirm

omit [IsStrictOrderedRing P] in
/-- A fit succeeds with its first stage. -/
theorem WanderFitOf.fit_of_solve (hfirst : (w.solve ops z b1 wrap noiseVar nSub w.priorInv).2 = true) :
    (w.fit ops z b1 wrap noiseVar nSub).2 = true := by
  simp only [fit]
  rw [if_neg (by rw [hfirst]; decide)]
  split_ifs <;> rfl

/-- **Whatever windows came before**, the fit accepts every window with a known wrap. -/
theorem WanderFitOf.fit_accepts {sps nChips order : ℕ} {sigmaW : P} (hsps : 0 < sps)
    (hfits : sps < 2 ^ 32) (hsigma : sigmaW ≤ 10 ^ 40) (htwoPi : 0 < ops.twoPi)
    (calls : List (FitCall S P)) (hwrap : 0 ≤ wrap) (hsub : 4 ≤ nSub) (hdvd : nSub ∣ sps) :
    (((configure sps nChips sigmaW order).after ops calls).fit ops z b1 wrap noiseVar nSub).2
      = true :=
  fit_of_solve (after_solve z b1 noiseVar hsps hfits hsigma htwoPi calls hwrap hsub hdvd)

end Fit

theorem WanderFitOf.fit_accepts_real :
    (((configure 16 8 1 3).after complexCarrier []).fit complexCarrier (List.replicate 16 1) 3 6
      (1 / 2) 4).2 = true :=
  fit_accepts (by decide) (by decide) (by norm_num)
    (by show 0 < 2 * Real.pi; positivity) [] (by decide) le_rfl (by decide)
