import Mathlib.Logic.Basic

/-!
# Lines of a text

The parts of a text that a separator ends, and what is left after the last separator. A text that
comes in two pieces has the lines of the first piece, and those that begin in its last line.
-/

namespace Xv6.Lib

universe u

variable {α : Type u} [DecidableEq α]

/-- The parts that end with the separator, without it. -/
def lines (sep : α) (text : List α) : List (List α) := (text.splitOn sep).dropLast

/-- What follows the last separator. -/
def lastLine (sep : α) (text : List α) : List α := (text.splitOn sep).getLastD []

variable {sep : α}

theorem lines_of_not_mem {l : List α} (h : sep ∉ l) : lines sep l = [] := by
  rw [lines, List.splitOn_eq_singleton h]
  rfl

theorem lastLine_of_not_mem {l : List α} (h : sep ∉ l) : lastLine sep l = l := by
  rw [lastLine, List.splitOn_eq_singleton h]
  rfl

theorem lines_cons {l : List α} (h : sep ∉ l) (t : List α) :
    lines sep (l ++ sep :: t) = l :: lines sep t := by
  rw [lines, List.splitOn_append_cons_self_of_not_mem h,
    List.dropLast_cons_of_ne_nil (List.splitOn_ne_nil sep t)]
  rfl

theorem lastLine_cons {l : List α} (h : sep ∉ l) (t : List α) :
    lastLine sep (l ++ sep :: t) = lastLine sep t := by
  rw [lastLine, List.splitOn_append_cons_self_of_not_mem h, lastLine, List.getLastD_cons]
  cases hs : t.splitOn sep with
  | nil => exact absurd hs (List.splitOn_ne_nil sep t)
  | cons x xs => rw [List.getLastD_cons, List.getLastD_cons]

/-- Line by line: a text without a separator, or a line before a text. -/
theorem lines_induction {P : List α → Prop} (sep : α) (hlast : ∀ l, sep ∉ l → P l)
    (hline : ∀ l t, sep ∉ l → P t → P (l ++ sep :: t)) (text : List α) : P text := by
  induction hlen : text.length using Nat.strongRecOn generalizing text with
  | ind n ih =>
    by_cases hmem : sep ∈ text
    · obtain ⟨l, t, htext, hl⟩ := List.eq_append_cons_of_mem hmem
      rw [htext, List.length_append, List.length_cons] at hlen
      rw [htext]
      exact hline l t hl (ih t.length (by omega) t rfl)
    · exact hlast text hmem

theorem not_mem_lastLine (sep : α) (text : List α) : sep ∉ lastLine sep text := by
  induction text using lines_induction sep with
  | hlast l h =>
    rw [lastLine_of_not_mem h]
    exact h
  | hline l t h ih =>
    rw [lastLine_cons h]
    exact ih

/-- The last line ends the text. -/
theorem lastLine_suffix (sep : α) (text : List α) : ∃ s, text = s ++ lastLine sep text := by
  induction text using lines_induction sep with
  | hlast l h => exact ⟨[], by rw [lastLine_of_not_mem h]; rfl⟩
  | hline l t h ih =>
    obtain ⟨s, hs⟩ := ih
    refine ⟨l ++ sep :: s, ?_⟩
    rw [lastLine_cons h, List.append_assoc, List.cons_append, ← hs]

/-- The lines of a text in two pieces. -/
theorem lines_append (s t : List α) :
    lines sep (s ++ t) = lines sep s ++ lines sep (lastLine sep s ++ t) := by
  induction s using lines_induction sep with
  | hlast l h => rw [lines_of_not_mem h, lastLine_of_not_mem h, List.nil_append]
  | hline l s h ih =>
    rw [List.append_assoc, List.cons_append, lines_cons h, lines_cons h, lastLine_cons h, ih,
      List.cons_append]

theorem lastLine_append (s t : List α) :
    lastLine sep (s ++ t) = lastLine sep (lastLine sep s ++ t) := by
  induction s using lines_induction sep with
  | hlast l h => rw [lastLine_of_not_mem h]
  | hline l s h ih => rw [List.append_assoc, List.cons_append, lastLine_cons h, lastLine_cons h, ih]

end Xv6.Lib
