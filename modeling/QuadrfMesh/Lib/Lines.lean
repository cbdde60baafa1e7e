/-
# Lines on a stream

A reader cuts a stream at every `stop` (`cut`).  A writer offers lines that begin with `start`
and end with `stop`, and of each offer some initial part is taken; a line too long for its buffer
is cut short there by a `nul`, and what is taken may go on beyond it.  What is on the stream is a
sequence of complete lines exactly if each offer was taken whole or not at all (`intact_iff`);
then the reader gets those lines, however it reads (`Intact.cut_prefix`).
-/
import QuadrfMesh.Lib.Streaming
import Mathlib

namespace Lines

open Streaming

variable {α : Type*}

/-! ## Reading -/

section Reading

variable [DecidableEq α] {stop : α}

/-- The text since the last `stop`, and the one that `x` ends. -/
def feed (stop : α) (text : List α) (x : α) : List α × List (List α) :=
  if x = stop then ([], [text]) else (text ++ [x], [])

/-- The reader: the unfinished text, and the texts that end with a `stop`. -/
def cut (stop : α) : List α → List α → List α × List (List α) := scan (feed stop)

theorem splits_cut (stop : α) : Splits (cut stop) := splits_scan _

/-- No `stop`, no complete text. -/
theorem cut_of_not_mem (text : List α) {xs : List α} (h : stop ∉ xs) :
    cut stop text xs = (text ++ xs, []) := by
  induction xs generalizing text with
  | nil => rw [List.append_nil]; rfl
  | cons x xs ih =>
      obtain ⟨hx, hxs⟩ := not_or.mp (List.mem_cons.not.mp h)
      have hfeed : feed stop text x = (text ++ [x], []) := if_neg (Ne.symm hx)
      rw [cut, scan_cons, hfeed]
      rw [show scan (feed stop) (text ++ [x]) xs = _ from ih (text ++ [x]) hxs, List.append_assoc]
      rfl

/-- Up to the first `stop`, and then from the start. -/
theorem cut_append_stop (text : List α) {xs : List α} (h : stop ∉ xs) (rest : List α) :
    cut stop text (xs ++ stop :: rest)
      = ((cut stop [] rest).1, (text ++ xs) :: (cut stop [] rest).2) := by
  rw [splits_cut, cut_of_not_mem text h]
  have hfeed : feed stop (text ++ xs) stop = ([], [text ++ xs]) := if_pos rfl
  rw [cut, scan_cons, hfeed]
  rfl

/-- What is pending was read before. -/
theorem cut_pending {text : List α} (h : stop ∉ text) (xs : List α) :
    cut stop text xs = cut stop [] (text ++ xs) := by
  rw [splits_cut, cut_of_not_mem [] h]
  rfl

/-- What is pending has no `stop`. -/
theorem not_mem_cut (xs : List α) : stop ∉ (cut stop [] xs).1 := by
  have hkept : ∀ (xs text : List α), stop ∉ text → stop ∉ (cut stop text xs).1 := by
    intro xs
    induction xs with
    | nil => exact fun _ h => h
    | cons x xs ih =>
        intro text h
        rw [cut, scan_cons]
        apply ih
        unfold feed
        split_ifs with hx
        · exact List.not_mem_nil
        · rw [List.mem_append, List.mem_singleton]
          exact not_or.mpr ⟨h, Ne.symm hx⟩
  exact hkept xs [] List.not_mem_nil

/-- No complete text has a `stop`. -/
theorem not_mem_of_mem_cut {text xs : List α} (htext : stop ∉ text) :
    ∀ t ∈ (cut stop text xs).2, stop ∉ t := by
  induction xs generalizing text with
  | nil =>
      intro t ht
      exact absurd ht List.not_mem_nil
  | cons x xs ih =>
      intro t ht
      rw [cut, scan_cons, ← cut] at ht
      by_cases hx : x = stop
      · have hfeed : feed stop text x = ([], [text]) := if_pos hx
        rw [hfeed] at ht
        rcases List.mem_cons.mp ht with rfl | ht
        · exact htext
        · exact ih List.not_mem_nil t ht
      · have hfeed : feed stop text x = (text ++ [x], []) := if_neg hx
        rw [hfeed] at ht
        apply ih _ t ht
        rw [List.mem_append, List.mem_singleton]
        exact not_or.mpr ⟨htext, Ne.symm hx⟩

/-- Nothing that was read is lost. -/
theorem flatMap_cut (text xs : List α) :
    (cut stop text xs).2.flatMap (· ++ [stop]) ++ (cut stop text xs).1 = text ++ xs := by
  induction xs generalizing text with
  | nil => rw [List.append_nil]; rfl
  | cons x xs ih =>
      rw [cut, scan_cons]
      have hrest := ih (feed stop text x).1
      rw [cut] at hrest
      rw [List.flatMap_append, List.append_assoc, hrest]
      unfold feed
      split_ifs with hx
      · rw [hx, List.flatMap_singleton, List.nil_append, List.append_assoc]
        rfl
      · rw [List.flatMap_nil, List.nil_append, List.append_assoc]
        rfl

end Reading

/-! ## Writing -/

/-- A line: `start`, a body with none of the three marks, and `stop`. -/
structure Line (start stop nul : α) where
  body : List α
  start_not_mem : start ∉ body
  stop_not_mem : stop ∉ body
  nul_not_mem : nul ∉ body

variable {start stop nul : α}

namespace Line

/-- The line without its end. -/
def text (l : Line start stop nul) : List α := start :: l.body

/-- The line with its end. -/
def toList (l : Line start stop nul) : List α := l.text ++ [stop]

theorem stop_not_mem_text (hne : start ≠ stop) (l : Line start stop nul) : stop ∉ l.text := by
  intro h
  rcases List.mem_cons.mp h with h | h
  · exact hne h.symm
  · exact l.stop_not_mem h

theorem start_not_mem_tail (hne : start ≠ stop) (l : Line start stop nul) :
    start ∉ l.toList.tail := by
  intro h
  rcases List.mem_append.mp h with h | h
  · exact l.start_not_mem h
  · exact hne (List.mem_singleton.mp h)

theorem nul_not_mem_toList (hnul : nul ≠ start ∧ nul ≠ stop) (l : Line start stop nul) :
    nul ∉ l.toList := by
  intro h
  rcases List.mem_append.mp h with h | h
  · rcases List.mem_cons.mp h with h | h
    · exact hnul.1 h
    · exact l.nul_not_mem h
  · exact hnul.2 (List.mem_singleton.mp h)

end Line

/-- Lines that were offered, and what was taken for each: a part of it, or something with a
`nul` in it. -/
structure Offer (start stop nul : α) where
  line : Line start stop nul
  taken : List α
  part_or_nul : taken <+: line.toList ∨ nul ∈ taken

namespace Offer

/-- All of the line, or none of it. -/
def Whole (o : Offer start stop nul) : Prop := o.taken = [] ∨ o.taken = o.line.toList

instance [DecidableEq α] (o : Offer start stop nul) : Decidable o.Whole :=
  inferInstanceAs (Decidable (_ ∨ _))

/-- An initial part of the line. -/
def Part (o : Offer start stop nul) : Prop := o.taken <+: o.line.toList

end Offer

/-! ### The buffer -/

namespace Line

/-- A line in a buffer of `size`: one that does not fit is cut short by the mark. -/
def buffered (size : ℕ) (l : Line start stop nul) : List α :=
  if l.toList.length < size then l.toList else l.toList.take (size - 1) ++ [nul]

/-- What is kept of a line that does not fit. -/
theorem length_cut_short {size : ℕ} {l : Line start stop nul} (hover : ¬l.toList.length < size) :
    (l.toList.take (size - 1)).length = size - 1 := by
  rw [List.length_take]
  omega

/-- Behind the mark nothing is left of the line. -/
theorem nul_mem_buffered {size n : ℕ} {l : Line start stop nul} (hover : ¬l.toList.length < size)
    (hn : size - 1 < n) (beyond : List α) : nul ∈ (l.buffered size ++ beyond).take n := by
  rw [buffered, if_neg hover, List.append_assoc, List.take_append, List.mem_append]
  right
  rw [length_cut_short hover, List.singleton_append, List.take_cons (by omega)]
  exact List.mem_cons_self

/-- As many as the line has are offered from the buffer and what lies `beyond`, and `n` are taken. -/
def offer (size n : ℕ) (beyond : List α) (l : Line start stop nul) : Offer start stop nul where
  line := l
  taken := (l.buffered size ++ beyond).take (min n l.toList.length)
  part_or_nul := by
    by_cases hfits : l.toList.length < size
    · left
      rw [buffered, if_pos hfits, List.take_append_of_le_length (min_le_right _ _)]
      exact List.take_prefix _ _
    · rcases Nat.lt_or_ge (size - 1) (min n l.toList.length) with hlong | hpart
      · exact Or.inr (nul_mem_buffered hfits hlong beyond)
      · left
        rw [buffered, if_neg hfits, List.append_assoc,
          List.take_append_of_le_length (hpart.trans_eq (length_cut_short hfits).symm)]
        exact (List.take_prefix _ _).trans (List.take_prefix _ _)

/-- **Whole or not at all**: nothing is taken, or all of a line that fits. -/
theorem whole_offer_iff (hnul : nul ≠ start ∧ nul ≠ stop) {size : ℕ} (hsize : 1 < size) (n : ℕ)
    (beyond : List α) (l : Line start stop nul) :
    (l.offer size n beyond).Whole ↔
      n = 0 ∨ (l.toList.length ≤ n ∧ l.toList.length < size) := by
  have hne : l.toList.length ≠ 0 := by
    rw [toList, List.length_append, List.length_singleton]
    omega
  have htaken : (l.offer size n beyond).taken
      = (l.buffered size ++ beyond).take (min n l.toList.length) := rfl
  constructor
  · rintro (hnone | hall)
    · left
      rw [htaken, List.take_eq_nil_iff, List.append_eq_nil_iff] at hnone
      rcases hnone with hzero | ⟨hempty, -⟩
      · omega
      · unfold buffered at hempty
        split_ifs at hempty
        · exact absurd (congrArg List.length hempty) hne
        · exact absurd hempty (by simp)
    · right
      have hlong : l.toList.length ≤ n := by
        have hlen := congrArg List.length hall
        rw [htaken, List.length_take] at hlen
        have hline : (l.offer size n beyond).line.toList.length = l.toList.length := rfl
        omega
      refine ⟨hlong, ?_⟩
      by_contra hover
      -- the mark would be in the line
      apply l.nul_not_mem_toList hnul
      have hline : (l.buffered size ++ beyond).take l.toList.length = l.toList := by
        rw [htaken, min_eq_right hlong] at hall
        exact hall
      rw [← hline]
      exact nul_mem_buffered hover (by omega) beyond
  · rintro (rfl | ⟨hlong, hfits⟩)
    · left
      rw [htaken, Nat.zero_min, List.take_zero]
    · right
      rw [htaken, min_eq_right hlong, buffered, if_pos hfits, List.take_left]
      rfl

end Line

/-! ### The stream -/

/-- What was taken, in order. -/
def stream (offers : List (Offer start stop nul)) : List α := offers.flatMap Offer.taken

/-- The stream is a sequence of complete lines: of those that were offered, in order. -/
def Intact (offers : List (Offer start stop nul)) : Prop :=
  ∃ ls : List (Line start stop nul),
    ls.Sublist (offers.map Offer.line) ∧ stream offers = ls.flatMap Line.toList

/-- Parts of lines begin with `start`. -/
theorem head_stream {offers : List (Offer start stop nul)} (hpart : ∀ o ∈ offers, o.Part) :
    stream offers = [] ∨ ∃ rest, stream offers = start :: rest := by
  induction offers with
  | nil => exact Or.inl rfl
  | cons o offers ih =>
      obtain ⟨⟨rest, hrest⟩, hparts⟩ := List.forall_mem_cons.mp hpart
      rcases htaken : o.taken with _ | ⟨x, xs⟩
      · rcases ih hparts with h | h
        · exact Or.inl (by rw [stream, List.flatMap_cons, htaken]; exact h)
        · exact Or.inr (by rw [stream, List.flatMap_cons, htaken]; exact h)
      · rw [htaken, Line.toList, Line.text] at hrest
        obtain rfl : x = start := (List.cons.inj hrest).1
        exact Or.inr ⟨_, by rw [stream, List.flatMap_cons, htaken, List.cons_append]⟩

/-- A part of a line that is not all of it has no `stop`. -/
theorem stop_not_mem_taken (hne : start ≠ stop) {o : Offer start stop nul} (hpart : o.Part)
    (h : o.taken ≠ o.line.toList) : stop ∉ o.taken := by
  have hpre : o.taken <+: o.line.text := by
    rcases List.prefix_concat_iff.mp hpart with heq | hpre
    · exact absurd heq h
    · exact hpre
  exact fun hmem => o.line.stop_not_mem_text hne (hpre.subset hmem)

/-- Two streams that begin with a complete line begin with the same. -/
theorem line_append_inj (hne : start ≠ stop) {l l' : Line start stop nul} {xs ys : List α}
    (h : l.toList ++ xs = l'.toList ++ ys) : l = l' ∧ xs = ys := by
  classical
  have hcut : ∀ (l : Line start stop nul) (zs : List α), l.toList ++ zs = l.text ++ stop :: zs := by
    intro l zs
    rw [Line.toList, List.append_assoc]
    rfl
  rw [hcut, hcut] at h
  have hread := congrArg (fun zs => (cut stop [] zs).2.head?) h
  simp only [cut_append_stop [] (l.stop_not_mem_text hne), List.head?_cons,
    cut_append_stop [] (l'.stop_not_mem_text hne), List.nil_append, Option.some.injEq] at hread
  have hline : l = l' := by
    cases l
    cases l'
    congr
    exact (List.cons.inj hread).2
  subst hline
  exact ⟨rfl, (List.cons.inj (List.append_cancel_left h)).2⟩

/-- A line that begins with a part of another goes on with something that is no `start`. -/
theorem goes_on (hne : start ≠ stop) {o : Offer start stop nul} (hpart : o.Part)
    (hnone : o.taken ≠ []) (hsome : o.taken ≠ o.line.toList) {l : Line start stop nul}
    {next xs : List α} (h : o.taken ++ next = l.toList ++ xs) :
    ∃ x more, next = x :: more ∧ x ≠ start := by
  have hstop := stop_not_mem_taken hne hpart hsome
  have hlast : stop ∈ l.toList := List.mem_append_right _ (List.mem_singleton_self stop)
  obtain ⟨more, hmore⟩ : o.taken <+: l.toList := by
    rcases List.prefix_or_prefix_of_prefix (List.prefix_append o.taken _)
      (h ▸ List.prefix_append l.toList _) with hpre | hpre
    · exact hpre
    · exact absurd (hpre.subset hlast) hstop
  rw [← hmore, List.append_assoc, List.append_cancel_left_eq] at h
  rcases more with _ | ⟨x, more⟩
  · rw [List.append_nil] at hmore
    exact absurd (hmore ▸ hlast) hstop
  · refine ⟨x, more ++ xs, h, ?_⟩
    rintro rfl
    apply l.start_not_mem_tail hne
    rw [← hmore, List.tail_append_of_ne_nil hnone]
    exact List.mem_append_right _ List.mem_cons_self

/-- Parts that make up complete lines are whole. -/
theorem whole_of_parts (hne : start ≠ stop) {offers : List (Offer start stop nul)}
    (hpart : ∀ o ∈ offers, o.Part) {ls : List (Line start stop nul)}
    (h : stream offers = ls.flatMap Line.toList) : ∀ o ∈ offers, o.Whole := by
  induction offers generalizing ls with
  | nil => exact fun _ ho => absurd ho List.not_mem_nil
  | cons o offers ih =>
      obtain ⟨ho, hparts⟩ := List.forall_mem_cons.mp hpart
      rw [stream, List.flatMap_cons] at h
      by_cases hnone : o.taken = []
      · rw [hnone, List.nil_append] at h
        exact List.forall_mem_cons.mpr ⟨Or.inl hnone, ih hparts h⟩
      cases ls with
      | nil => exact absurd (List.append_eq_nil_iff.mp h).1 hnone
      | cons l ls =>
          rw [List.flatMap_cons] at h
          by_cases hall : o.taken = o.line.toList
          · rw [hall] at h
            exact List.forall_mem_cons.mpr
              ⟨Or.inr hall, ih hparts (line_append_inj hne h).2⟩
          · -- what is offered next begins with `start`, and the line goes on with something else
            obtain ⟨x, more, hnext, hx⟩ := goes_on hne ho hnone hall h
            rcases head_stream hparts with hempty | ⟨rest, hrest⟩
            · exact absurd (hempty.symm.trans hnext).symm (List.cons_ne_nil _ _)
            · exact absurd (List.cons.inj (hnext.symm.trans hrest)).1 hx

/-- **A stream of complete lines** has no offer taken in part, and none with a `nul`. -/
theorem whole_of_lines (hne : start ≠ stop) (hnul : nul ≠ start ∧ nul ≠ stop)
    {offers : List (Offer start stop nul)} {ls : List (Line start stop nul)}
    (h : stream offers = ls.flatMap Line.toList) : ∀ o ∈ offers, o.Whole := by
  refine whole_of_parts hne (fun o ho => o.part_or_nul.resolve_right fun hmem => ?_) h
  have hstream : nul ∈ stream offers := List.mem_flatMap_of_mem ho hmem
  rw [h] at hstream
  obtain ⟨l, -, hl⟩ := List.mem_flatMap.mp hstream
  exact l.nul_not_mem_toList hnul hl

/-- Offers taken whole or not at all leave complete lines. -/
theorem intact_of_whole {offers : List (Offer start stop nul)} (h : ∀ o ∈ offers, o.Whole) :
    Intact offers := by
  induction offers with
  | nil => exact ⟨[], List.Sublist.slnil, rfl⟩
  | cons o offers ih =>
      obtain ⟨ho, hrest⟩ := List.forall_mem_cons.mp h
      obtain ⟨ls, hsub, hstream⟩ := ih hrest
      rcases ho with hnone | hall
      · refine ⟨ls, hsub.cons _, ?_⟩
        rw [stream, List.flatMap_cons, hnone]
        exact hstream
      · refine ⟨o.line :: ls, hsub.cons_cons _, ?_⟩
        rw [stream, List.flatMap_cons, hall, List.flatMap_cons, ← hstream]
        rfl

/-- **Complete lines**: exactly if each offer was taken whole or not at all. -/
theorem intact_iff (hne : start ≠ stop) (hnul : nul ≠ start ∧ nul ≠ stop)
    (offers : List (Offer start stop nul)) : Intact offers ↔ ∀ o ∈ offers, o.Whole :=
  ⟨fun ⟨_, _, h⟩ => whole_of_lines hne hnul h, intact_of_whole⟩

/-! ## Reading what was written -/

/-- Complete lines are read as they were written. -/
theorem cut_lines [DecidableEq α] (hne : start ≠ stop) (ls : List (Line start stop nul)) :
    cut stop [] (ls.flatMap Line.toList) = ([], ls.map Line.text) := by
  induction ls with
  | nil => rfl
  | cons l ls ih =>
      rw [List.flatMap_cons, Line.toList, List.append_assoc, List.singleton_append,
        cut_append_stop [] (l.stop_not_mem_text hne), ih]
      rfl

/-- **What is read of complete lines**, in whatever calls: some of the lines, in order. -/
theorem Intact.cut_prefix [DecidableEq α] (hne : start ≠ stop)
    {offers : List (Offer start stop nul)} (h : Intact offers) {chunks : List (List α)}
    (hread : chunks.flatten <+: stream offers) :
    ∃ ls : List (Line start stop nul), ls.Sublist (offers.map Offer.line) ∧
      (run (cut stop) [] chunks).2 = ls.map Line.text := by
  obtain ⟨ls, hsub, hstream⟩ := h
  have hsplits : Splits (cut stop) := splits_cut stop
  have hpre := hsplits.out_prefix [] hread
  rw [hstream, cut_lines hne, ← hsplits.run_eq_of_nil rfl chunks] at hpre
  obtain ⟨n, hn⟩ : ∃ n, (run (cut stop) [] chunks).2 = (ls.map Line.text).take n :=
    ⟨_, List.prefix_iff_eq_take.mp hpre⟩
  refine ⟨ls.take n, (List.take_sublist n ls).trans hsub, ?_⟩
  rw [hn, List.map_take]

end Lines
