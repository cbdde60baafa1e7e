/-
# Beam search with parent indices

A machine with labelled choices has many runs (`runs`).  A beam keeps some of them: of each its
last node, whose parent is an index into the beam before, and a table of parents and labels for
each step.  What the tables give back are the labels of runs, each with the state its node
stands for (`pairs_step`).
-/
import Mathlib

namespace Beam

variable {ι ν σ κ : Type*}

/-! ## Runs -/

/-- The runs of a machine with labelled choices: the labels, and the state they end in. -/
def runs (choices : ι → σ → List (κ × σ)) : σ → List ι → List (List κ × σ)
  | s, [] => [([], s)]
  | s, i :: is =>
      (choices i s).flatMap fun c => (runs choices c.2 is).map fun r => (c.1 :: r.1, r.2)

variable {choices : ι → σ → List (κ × σ)}

/-- The runs with a step more. -/
def extend (choices : σ → List (κ × σ)) (rs : List (List κ × σ)) : List (List κ × σ) :=
  rs.flatMap fun r => (choices r.2).map fun c => (r.1 ++ [c.1], c.2)

theorem runs_append_singleton (s : σ) (is : List ι) (i : ι) :
    runs choices s (is ++ [i]) = extend (choices i) (runs choices s is) := by
  induction is generalizing s with
  | nil =>
      simp only [List.nil_append, runs, extend, List.flatMap_singleton, List.map_cons, List.map_nil]
      exact List.map_eq_flatMap.symm
  | cons j is ih =>
      simp only [List.cons_append, runs, ih, extend, List.flatMap_assoc, List.map_flatMap,
        List.flatMap_map, List.map_map]
      rfl

theorem extend_perm (c : σ → List (κ × σ)) {rs rs' : List (List κ × σ)} (h : rs.Perm rs') :
    (extend c rs).Perm (extend c rs') := h.flatMap_right _

theorem extend_subperm (c : σ → List (κ × σ)) {rs rs' : List (List κ × σ)} (h : rs.Subperm rs') :
    (extend c rs).Subperm (extend c rs') := by
  obtain ⟨rs'', hperm, hsub⟩ := h
  exact ⟨_, extend_perm c hperm, hsub.flatMap _⟩

theorem length_extend {c : σ → List (κ × σ)} {n : ℕ} (h : ∀ s, (c s).length = n)
    (rs : List (List κ × σ)) : (extend c rs).length = rs.length * n := by
  simp only [extend, List.length_flatMap, List.length_map, h, List.map_const', List.sum_replicate,
    smul_eq_mul]

theorem length_runs {n : ℕ} (h : ∀ i s, (choices i s).length = n) (s : σ) (is : List ι) :
    (runs choices s is).length = n ^ is.length := by
  induction is using List.reverseRecOn with
  | nil => rfl
  | append_singleton is i ih =>
      rw [runs_append_singleton, length_extend (h i), ih, List.length_append, List.length_singleton,
        pow_succ]

/-- Runs differ in their labels, if choices do. -/
theorem nodup_labels (h : ∀ i s, ((choices i s).map Prod.fst).Nodup) (s : σ) (is : List ι) :
    ((runs choices s is).map Prod.fst).Nodup := by
  induction is generalizing s with
  | nil => exact List.nodup_singleton _
  | cons i is ih =>
      simp only [runs, List.map_flatMap, List.map_map]
      rw [List.nodup_flatMap]
      constructor
      · intro c _
        have hmap : ((runs choices c.2 is).map (Prod.fst ∘ fun r => (c.1 :: r.1, r.2)))
            = ((runs choices c.2 is).map Prod.fst).map (c.1 :: ·) := by
          rw [List.map_map]
          rfl
        rw [hmap]
        exact (ih c.2).map fun _ _ => List.tail_eq_of_cons_eq
      · refine (List.pairwise_map.mp (h i s)).imp ?_
        intro c c' hne ls hl hl'
        obtain ⟨r, -, rfl⟩ := List.mem_map.mp hl
        obtain ⟨r', -, heq⟩ := List.mem_map.mp hl'
        exact hne (List.cons.inj heq).1.symm

/-! ## Tables -/

/-- The labels back from entry `i` of the newest table, the newest first. -/
def back [Inhabited κ] : List (List (ℕ × κ)) → ℕ → List κ
  | [], _ => []
  | row :: rows, i =>
      let entry := row.getD i (0, default)
      back rows entry.1 ++ [entry.2]

/-- The labels back from entry `i` of the last table. -/
def traceback [Inhabited κ] (trace : List (List (ℕ × κ))) (i : ℕ) : List κ := back trace.reverse i

section Steps

variable [Inhabited κ] (parent : ν → ℕ) (label : ν → κ)

/-- The table of a beam. -/
def row (beam : List ν) : List (ℕ × κ) := beam.map fun n => (parent n, label n)

theorem traceback_concat (trace : List (List (ℕ × κ))) {beam : List ν} {i : ℕ} {n : ν}
    (hn : beam[i]? = some n) :
    traceback (trace ++ [row parent label beam]) i = traceback trace (parent n) ++ [label n] := by
  have hentry : (row parent label beam).getD i (0, default) = (parent n, label n) := by
    rw [row, List.getD_eq_getElem?_getD, List.getElem?_map, hn]
    rfl
  rw [traceback, List.reverse_concat, back, hentry]
  rfl

/-- The labels behind each node, and the state it stands for. -/
def pairs (view : ν → σ) (trace : List (List (ℕ × κ))) (beam : List ν) : List (List κ × σ) :=
  beam.mapIdx fun i n => (traceback trace i, view n)

variable {parent label}

theorem map_fst_pairs (view : ν → σ) (trace : List (List (ℕ × κ))) (beam : List ν) :
    (pairs view trace beam).map Prod.fst = (List.range beam.length).map (traceback trace) := by
  apply List.ext_getElem?
  intro i
  rw [pairs, List.getElem?_map, List.getElem?_mapIdx, List.getElem?_map]
  rcases Nat.lt_or_ge i beam.length with hlt | hge
  · rw [List.getElem?_eq_getElem hlt, List.getElem?_range hlt]
    rfl
  · rw [List.getElem?_eq_none hge, List.getElem?_eq_none (by rwa [List.length_range])]
    rfl

theorem map_snd_pairs (view : ν → σ) (trace : List (List (ℕ × κ))) (beam : List ν) :
    (pairs view trace beam).map Prod.snd = beam.map view := by
  apply List.ext_getElem?
  intro i
  rw [pairs, List.getElem?_map, List.getElem?_mapIdx, List.getElem?_map, Option.map_map]
  rfl

@[simp] theorem length_pairs (view : ν → σ) (trace : List (List (ℕ × κ))) (beam : List ν) :
    (pairs view trace beam).length = beam.length := List.length_mapIdx

/-- The nodes that are kept, with what is behind them. -/
theorem pairs_concat (view : ν → σ) (trace : List (List (ℕ × κ))) (kept : List ν) :
    pairs view (trace ++ [row parent label kept]) kept
      = kept.map fun n => (traceback trace (parent n) ++ [label n], view n) := by
  apply List.ext_getElem?
  intro i
  rw [pairs, List.getElem?_mapIdx, List.getElem?_map]
  cases hn : kept[i]? with
  | none => rfl
  | some n => simp only [Option.map_some, traceback_concat parent label trace hn]

/-- **All children of a beam** are the runs of the beam with a step more. -/
theorem children_pairs {view view' : ν → σ} {choices : σ → List (κ × σ)} {children : ℕ → ν → List ν}
    (hparent : ∀ i n, ∀ c ∈ children i n, parent c = i)
    (hchoices : ∀ i n, (children i n).map (fun c => (label c, view' c)) = choices (view n))
    (trace : List (List (ℕ × κ))) (beam : List ν) :
    (beam.mapIdx children).flatten.map (fun n => (traceback trace (parent n) ++ [label n], view' n))
      = extend choices (pairs view trace beam) := by
  have hchild : ∀ i n, (children i n).map (fun n => (traceback trace (parent n) ++ [label n], view' n))
      = (choices (view n)).map fun c => (traceback trace i ++ [c.1], c.2) := by
    intro i n
    rw [← hchoices i n, List.map_map]
    refine List.map_congr_left fun c hc => ?_
    rw [hparent i n c hc]
    rfl
  simp only [extend, pairs, List.flatMap_def, List.map_flatten, List.mapIdx_eq_zipIdx_map,
    List.map_map]
  congr 2
  funext n
  exact hchild n.2 n.1

/-- **One step of a beam**: what is kept are runs of the beam with a step more. -/
theorem pairs_step {view view' : ν → σ} {choices : σ → List (κ × σ)} {children : ℕ → ν → List ν}
    (hparent : ∀ i n, ∀ c ∈ children i n, parent c = i)
    (hchoices : ∀ i n, (children i n).map (fun c => (label c, view' c)) = choices (view n))
    (trace : List (List (ℕ × κ))) {beam kept : List ν}
    (hkept : kept.Subperm (beam.mapIdx children).flatten) :
    (pairs view' (trace ++ [row parent label kept]) kept).Subperm
      (extend choices (pairs view trace beam)) := by
  obtain ⟨kept', hperm, hsub⟩ := hkept
  rw [pairs_concat, ← children_pairs hparent hchoices]
  exact ⟨_, hperm.map _, hsub.map _⟩

/-- If all children are kept, all runs are. -/
theorem pairs_step_perm {view view' : ν → σ} {choices : σ → List (κ × σ)}
    {children : ℕ → ν → List ν} (hparent : ∀ i n, ∀ c ∈ children i n, parent c = i)
    (hchoices : ∀ i n, (children i n).map (fun c => (label c, view' c)) = choices (view n))
    (trace : List (List (ℕ × κ))) {beam kept : List ν}
    (hkept : kept.Perm (beam.mapIdx children).flatten) :
    (pairs view' (trace ++ [row parent label kept]) kept).Perm
      (extend choices (pairs view trace beam)) := by
  rw [pairs_concat, ← children_pairs hparent hchoices]
  exact hkept.map _

end Steps

/-! ## Keeping the best -/

/-- A partial sort by a key: the first `n` of the sorted list are the least, in order; which of
equals is left open. -/
structure PartialSort {β : Type*} [LE β] (key : ν → β) where
  sort : ℕ → List ν → List ν
  perm : ∀ n l, (sort n l).Perm l
  sorted : ∀ n l, ((sort n l).take n).Pairwise fun a b => key a ≤ key b
  least : ∀ n l, ∀ a ∈ (sort n l).take n, ∀ b ∈ (sort n l).drop n, key a ≤ key b

namespace PartialSort

theorem pairwise_mergeSort_key {β : Type*} [LinearOrder β] (key : ν → β) (l : List ν) :
    (l.mergeSort fun a b => decide (key a ≤ key b)).Pairwise fun a b => key a ≤ key b := by
  refine (List.pairwise_mergeSort ?_ ?_ l).imp of_decide_eq_true
  · intro a b c hab hbc
    rw [decide_eq_true_eq] at hab hbc ⊢
    exact hab.trans hbc
  · intro a b
    rw [Bool.or_eq_true, decide_eq_true_eq, decide_eq_true_eq]
    exact le_total _ _

/-- Of a sorted list the first are the least. -/
theorem key_take_le_drop {β : Type*} [LE β] {key : ν → β} {l : List ν}
    (h : l.Pairwise fun a b => key a ≤ key b) (n : ℕ) :
    ∀ a ∈ l.take n, ∀ b ∈ l.drop n, key a ≤ key b := by
  rw [← List.take_append_drop n l, List.pairwise_append] at h
  exact h.2.2

/-- A sort is a partial sort. -/
def ofMergeSort {β : Type*} [LinearOrder β] (key : ν → β) : PartialSort key where
  sort _ l := l.mergeSort fun a b => decide (key a ≤ key b)
  perm _ l := List.mergeSort_perm l _
  sorted _ l := (pairwise_mergeSort_key key l).sublist (List.take_sublist _ _)
  least n l := key_take_le_drop (pairwise_mergeSort_key key l) n

variable {β : Type*} [LE β] {key : ν → β} (P : PartialSort key)

/-- The best `n`, in order. -/
def best (n : ℕ) (l : List ν) : List ν := (P.sort n l).take n

theorem length_best_le (n : ℕ) (l : List ν) : (P.best n l).length ≤ n := List.length_take_le _ _

theorem subperm_best (n : ℕ) (l : List ν) : (P.best n l).Subperm l :=
  (List.take_sublist n _).subperm.trans (P.perm n l).subperm

/-- Where there is room for all, all are kept. -/
theorem perm_best {n : ℕ} {l : List ν} (h : l.length ≤ n) : (P.best n l).Perm l := by
  have hall : (P.sort n l).length ≤ n := by
    rw [(P.perm n l).length_eq]
    exact h
  rw [best, List.take_of_length_le hall]
  exact P.perm n l

/-- Nothing that was dropped is better than what is kept. -/
theorem key_best_le {n : ℕ} {l : List ν} {a b : ν} (ha : a ∈ P.best n l) (hb : b ∈ l)
    (hdropped : b ∉ P.best n l) : key a ≤ key b := by
  have hmem : b ∈ P.sort n l := (P.perm n l).mem_iff.mpr hb
  rw [← List.take_append_drop n (P.sort n l), List.mem_append] at hmem
  exact P.least n l a ha b (hmem.resolve_left hdropped)

end PartialSort

/-- A sort by any key, the least first; which of equals comes first is left open. -/
structure KeySort (ν β : Type*) [LE β] where
  sort : (ν → β) → List ν → List ν
  perm : ∀ key l, (sort key l).Perm l
  sorted : ∀ key l, (sort key l).Pairwise fun a b => key a ≤ key b

namespace KeySort

/-- Such a sort, equals in the order they come in. -/
def ofMergeSort (ν β : Type*) [LinearOrder β] : KeySort ν β where
  sort key l := l.mergeSort fun a b => decide (key a ≤ key b)
  perm _ l := List.mergeSort_perm l _
  sorted key l := PartialSort.pairwise_mergeSort_key key l

/-- With the key fixed it sorts in part as well. -/
def partialSort {β : Type*} [LE β] (S : KeySort ν β) (key : ν → β) : PartialSort key where
  sort _ l := S.sort key l
  perm _ l := S.perm key l
  sorted _ l := (S.sorted key l).sublist (List.take_sublist _ _)
  least n l := PartialSort.key_take_le_drop (S.sorted key l) n

end KeySort

end Beam
