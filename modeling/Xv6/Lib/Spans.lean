import Mathlib.Data.List.Pairwise
import Mathlib.Order.Defs.LinearOrder
import Mathlib.Tactic.Order

/-!
# Sets as lists of intervals

A set as the list of the half-open intervals it consists of, in ascending order and with gaps
between them. An interval that touches none of them, or one, or two, is inserted so that this stays
so.
-/

namespace Xv6.Lib

variable {α : Type*} [LinearOrder α]

/-- `x` is in one of the intervals. -/
def Covers (l : List (α × α)) (x : α) : Prop := ∃ a ∈ l, a.1 ≤ x ∧ x < a.2

/-- No interval is empty, and each of them ends before the next one begins. -/
structure Separated (l : List (α × α)) : Prop where
  proper : ∀ a ∈ l, a.1 < a.2
  apart : l.Pairwise fun a b ↦ a.2 < b.1

/-- Put an interval in front of the others, and join it with the first if they touch. -/
def joinFront (a : α × α) : List (α × α) → List (α × α)
  | [] => [a]
  | b :: l => if a.2 = b.1 then (a.1, b.2) :: l else a :: b :: l

/-- Insert an interval in its place. -/
def insertSpan (a : α × α) : List (α × α) → List (α × α)
  | [] => [a]
  | b :: l => if a.1 < b.1 then joinFront a (b :: l) else joinFront b (insertSpan a l)

/-- What is left of an interval in front of `c`. -/
def cut (a : α × α) (c : α) : List (α × α) := if a.1 < c then [(a.1, c)] else []

section
variable {a : α × α} {c x : α} {l l₁ l₂ : List (α × α)}

theorem covers_cons : Covers (a :: l) x ↔ (a.1 ≤ x ∧ x < a.2) ∨ Covers l x := by
  simp only [Covers, List.mem_cons, exists_eq_or_imp]

theorem covers_append : Covers (l₁ ++ l₂) x ↔ Covers l₁ x ∨ Covers l₂ x := by
  simp only [Covers, List.mem_append, or_and_right, exists_or]

theorem separated_cons :
    Separated (a :: l) ↔ a.1 < a.2 ∧ (∀ b ∈ l, a.2 < b.1) ∧ Separated l := by
  constructor
  · intro h
    obtain ⟨hfirst, hrest⟩ := List.pairwise_cons.mp h.apart
    exact ⟨h.proper a List.mem_cons_self, hfirst, fun b hb ↦ h.proper b (List.mem_cons_of_mem a hb),
      hrest⟩
  · rintro ⟨ha, hfirst, hl⟩
    refine ⟨?_, List.pairwise_cons.mpr ⟨hfirst, hl.apart⟩⟩
    intro b hb
    rcases List.mem_cons.mp hb with rfl | hb
    · exact ha
    · exact hl.proper b hb

/-! ### Insertion -/

theorem joinFront_eq_cons (h : ∀ b ∈ l, a.2 < b.1) : joinFront a l = a :: l := by
  cases l with
  | nil => rfl
  | cons b l => exact if_neg (ne_of_lt (h b List.mem_cons_self))

/-- An interval of the result begins where one of the given intervals does. -/
theorem start_joinFront {b : α × α} (hb : b ∈ joinFront a l) : b.1 = a.1 ∨ ∃ d ∈ l, b.1 = d.1 := by
  cases l with
  | nil => exact Or.inl (by rw [List.mem_singleton.mp hb])
  | cons d l =>
    rw [joinFront] at hb
    split at hb
    · rcases List.mem_cons.mp hb with rfl | hb
      · exact Or.inl rfl
      · exact Or.inr ⟨b, List.mem_cons_of_mem d hb, rfl⟩
    · rcases List.mem_cons.mp hb with rfl | hb
      · exact Or.inl rfl
      · exact Or.inr ⟨b, hb, rfl⟩

theorem start_insertSpan {b : α × α} (hb : b ∈ insertSpan a l) :
    b.1 = a.1 ∨ ∃ d ∈ l, b.1 = d.1 := by
  induction l generalizing b with
  | nil => exact Or.inl (by rw [List.mem_singleton.mp hb])
  | cons e l ih =>
    rw [insertSpan] at hb
    split at hb
    · exact start_joinFront hb
    · rcases start_joinFront hb with he | ⟨d, hd, heq⟩
      · exact Or.inr ⟨e, List.mem_cons_self, he⟩
      · rcases ih hd with ha | ⟨d', hd', heq'⟩
        · exact Or.inl (heq.trans ha)
        · exact Or.inr ⟨d', List.mem_cons_of_mem e hd', heq.trans heq'⟩

theorem covers_joinFront (ha : a.1 < a.2) (hl : ∀ b ∈ l, b.1 < b.2) :
    Covers (joinFront a l) x ↔ (a.1 ≤ x ∧ x < a.2) ∨ Covers l x := by
  cases l with
  | nil => exact covers_cons
  | cons b l =>
    have hb := hl b List.mem_cons_self
    rw [joinFront]
    split
    · next heq =>
      rw [covers_cons, covers_cons, ← or_assoc]
      apply or_congr_left
      constructor
      · rintro ⟨hlo, hhi⟩
        rcases lt_or_ge x a.2 with hx | hx
        · exact Or.inl ⟨hlo, hx⟩
        · exact Or.inr ⟨heq ▸ hx, hhi⟩
      · rintro (⟨hlo, hhi⟩ | ⟨hlo, hhi⟩)
        · exact ⟨hlo, by order⟩
        · exact ⟨by order, hhi⟩
    · exact covers_cons

theorem separated_joinFront (ha : a.1 < a.2) (hbehind : ∀ b ∈ l, a.2 ≤ b.1) (hl : Separated l) :
    Separated (joinFront a l) := by
  cases l with
  | nil => exact separated_cons.mpr ⟨ha, (fun _ hb ↦ nomatch hb), hl⟩
  | cons b l =>
    obtain ⟨hb, hgap, hrest⟩ := separated_cons.mp hl
    have hle := hbehind b List.mem_cons_self
    rw [joinFront]
    split
    · exact separated_cons.mpr ⟨by order, hgap, hrest⟩
    · next hne =>
      have hlt : a.2 < b.1 := lt_of_le_of_ne hle hne
      refine separated_cons.mpr ⟨ha, ?_, hl⟩
      intro d hd
      rcases List.mem_cons.mp hd with rfl | hd
      · exact hlt
      · have := hgap d hd
        order

/-- An interval is inserted that overlaps none of the others. -/
theorem separated_insertSpan (ha : a.1 < a.2) (hout : ∀ b ∈ l, a.2 ≤ b.1 ∨ b.2 ≤ a.1)
    (hl : Separated l) : Separated (insertSpan a l) := by
  induction l with
  | nil => exact separated_cons.mpr ⟨ha, (fun _ hb ↦ nomatch hb), hl⟩
  | cons b l ih =>
    obtain ⟨hb, hgap, hrest⟩ := separated_cons.mp hl
    have hside := hout b List.mem_cons_self
    rw [insertSpan]
    split
    · next hlt =>
      have hle : a.2 ≤ b.1 := hside.resolve_right (by order)
      apply separated_joinFront ha _ hl
      intro d hd
      rcases List.mem_cons.mp hd with rfl | hd
      · exact hle
      · have := hgap d hd
        order
    · next hge =>
      have hle : b.2 ≤ a.1 := hside.resolve_left (by order)
      apply separated_joinFront hb
      · intro d hd
        rcases start_insertSpan hd with heq | ⟨e, he, heq⟩
        · rw [heq]
          exact hle
        · rw [heq]
          exact le_of_lt (hgap e he)
      · exact ih (fun d hd ↦ hout d (List.mem_cons_of_mem b hd)) hrest

/-- The set gets the points of the interval. -/
theorem covers_insertSpan (ha : a.1 < a.2) (hout : ∀ b ∈ l, a.2 ≤ b.1 ∨ b.2 ≤ a.1)
    (hl : Separated l) : Covers (insertSpan a l) x ↔ (a.1 ≤ x ∧ x < a.2) ∨ Covers l x := by
  induction l with
  | nil => exact covers_cons
  | cons b l ih =>
    obtain ⟨hb, -, hrest⟩ := separated_cons.mp hl
    have hout' : ∀ d ∈ l, a.2 ≤ d.1 ∨ d.2 ≤ a.1 := fun d hd ↦ hout d (List.mem_cons_of_mem b hd)
    rw [insertSpan]
    split
    · exact covers_joinFront ha hl.proper
    · rw [covers_joinFront hb (separated_insertSpan ha hout' hrest).proper, ih hout' hrest,
        covers_cons]
      exact or_left_comm

theorem insertSpan_front (h : ∀ b ∈ l, a.1 < b.1) : insertSpan a l = joinFront a l := by
  cases l with
  | nil => rfl
  | cons b l => exact if_pos (h b List.mem_cons_self)

/-- The place of an interval is behind the last one that begins before it. -/
theorem insertSpan_append {p : α × α} (hl : Separated (l₁ ++ p :: l₂))
    (hbefore : ∀ b ∈ l₁ ++ [p], b.1 ≤ a.1) (hbehind : ∀ b ∈ l₂, a.1 < b.1) :
    insertSpan a (l₁ ++ p :: l₂) = l₁ ++ joinFront p (joinFront a l₂) := by
  induction l₁ with
  | nil =>
    rw [List.nil_append, insertSpan, if_neg (not_lt_of_ge (hbefore p List.mem_cons_self)),
      insertSpan_front hbehind]
    rfl
  | cons b l₁ ih =>
    obtain ⟨-, hgap, hrest⟩ := separated_cons.mp hl
    rw [List.cons_append, insertSpan, if_neg (not_lt_of_ge (hbefore b List.mem_cons_self)),
      ih hrest (fun d hd ↦ hbefore d (List.mem_cons_of_mem b hd)), joinFront_eq_cons]
    · rfl
    · intro d hd
      rcases List.mem_append.mp hd with hd | hd
      · exact hgap d (List.mem_append_left _ hd)
      · -- the joined interval begins where `p` does, or behind it
        have hp := hgap p (List.mem_append_right _ List.mem_cons_self)
        rcases start_joinFront hd with heq | ⟨e, he, heq⟩
        · rw [heq]
          exact hp
        · rcases start_joinFront he with heq' | ⟨f, hf, heq'⟩
          · have := hbefore p (List.mem_append_right _ List.mem_cons_self)
            rw [heq, heq']
            order
          · rw [heq, heq']
            exact hgap f (List.mem_append_right _ (List.mem_cons_of_mem p hf))

/-! ### Removal -/

theorem Separated.sublist (h : Separated l₂) (hsub : l₁.Sublist l₂) : Separated l₁ :=
  ⟨fun a ha ↦ h.proper a (hsub.subset ha), h.apart.sublist hsub⟩

/-- The intervals behind a point of the list begin behind it, those before it end before it. -/
theorem Separated.sides (h : Separated (l₁ ++ a :: l₂)) :
    (∀ b ∈ l₁, b.2 < a.1) ∧ ∀ b ∈ l₂, a.2 < b.1 := by
  obtain ⟨-, hright, hcross⟩ := List.pairwise_append.mp h.apart
  exact ⟨fun b hb ↦ hcross b hb a List.mem_cons_self, (List.pairwise_cons.mp hright).1⟩

/-- One interval is cut off at `c`. -/
theorem separated_cut (h : Separated (l₁ ++ a :: l₂)) (hc : c ≤ a.2) :
    Separated (l₁ ++ (cut a c ++ l₂)) := by
  obtain ⟨hbefore, hbehind⟩ := h.sides
  have hrest : Separated (l₁ ++ l₂) :=
    h.sublist (List.Sublist.append_left (List.sublist_cons_self a l₂) l₁)
  unfold cut
  split
  · next hlt =>
    have hright : Separated ((a.1, c) :: l₂) := by
      refine separated_cons.mpr ⟨hlt, ?_, hrest.sublist (List.sublist_append_right l₁ l₂)⟩
      intro b hb
      have := hbehind b hb
      exact lt_of_le_of_lt hc this
    refine ⟨?_, List.pairwise_append.mpr
      ⟨(List.pairwise_append.mp hrest.apart).1, hright.apart, ?_⟩⟩
    · intro b hb
      rcases List.mem_append.mp hb with hb | hb
      · exact hrest.proper b (List.mem_append_left _ hb)
      · exact hright.proper b hb
    · intro b hb d hd
      rcases List.mem_cons.mp hd with rfl | hd
      · exact hbefore b hb
      · exact (List.pairwise_append.mp hrest.apart).2.2 b hb d hd
  · exact hrest

/-- The set loses the points from `c` on. -/
theorem covers_cut (hlo : a.1 ≤ c) (hc : c ≤ a.2) :
    Covers (l₁ ++ a :: l₂) x ↔ Covers (l₁ ++ (cut a c ++ l₂)) x ∨ (c ≤ x ∧ x < a.2) := by
  have hcut : (a.1 ≤ x ∧ x < a.2) ↔ Covers (cut a c) x ∨ (c ≤ x ∧ x < a.2) := by
    unfold cut
    split
    · rw [covers_cons]
      constructor
      · rintro ⟨h₁, h₂⟩
        rcases lt_or_ge x c with hx | hx
        · exact Or.inl (Or.inl ⟨h₁, hx⟩)
        · exact Or.inr ⟨hx, h₂⟩
      · rintro ((⟨h₁, h₂⟩ | ⟨_, hmem, -⟩) | ⟨h₁, h₂⟩)
        · exact ⟨h₁, lt_of_lt_of_le h₂ hc⟩
        · cases hmem
        · exact ⟨le_trans hlo h₁, h₂⟩
    · next hge =>
      have heq : c = a.1 := le_antisymm (not_lt.mp hge) hlo
      rw [heq]
      constructor
      · exact Or.inr
      · rintro (⟨_, hmem, -⟩ | h)
        · cases hmem
        · exact h
  rw [covers_append, covers_append, covers_append, covers_cons, hcut]
  constructor
  · rintro (h | (h | h) | h)
    · exact Or.inl (Or.inl h)
    · exact Or.inl (Or.inr (Or.inl h))
    · exact Or.inr h
    · exact Or.inl (Or.inr (Or.inr h))
  · rintro ((h | h | h) | h)
    · exact Or.inl h
    · exact Or.inr (Or.inl (Or.inl h))
    · exact Or.inr (Or.inr h)
    · exact Or.inr (Or.inl (Or.inr h))

theorem not_covers_cut (h : Separated (l₁ ++ a :: l₂)) (hlo : a.1 ≤ c) (hx : c ≤ x)
    (hx' : x < a.2) :
    ¬ Covers (l₁ ++ (cut a c ++ l₂)) x := by
  obtain ⟨hbefore, hbehind⟩ := h.sides
  rintro ⟨b, hb, h₁, h₂⟩
  rcases List.mem_append.mp hb with hb | hb
  · have := hbefore b hb
    order
  · rcases List.mem_append.mp hb with hb | hb
    · unfold cut at hb
      split at hb
      · rw [List.mem_singleton.mp hb] at h₂
        exact absurd h₂ (not_lt_of_ge hx)
      · cases hb
    · have := hbehind b hb
      order

end

end Xv6.Lib
