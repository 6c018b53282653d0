import Mathlib.Computability.Language
import Xv6.User.Grep

/-!
# The patterns of `grep`

A pattern is a sequence of items, single characters and repetitions, with or without the two
anchors. It denotes a language, and `match` decides whether the text has a part in that language at
a place that the anchors allow.
-/

namespace Xv6.Grep

open Computability

/-! ### Patterns -/

/-- What stands for one character: any character, or the character itself. -/
inductive Atom where
  | any
  | char (c : UInt8)
  deriving DecidableEq, Repr

/-- The characters that match. -/
def Atom.Matches : Atom → UInt8 → Prop
  | .any, _ => True
  | .char c, x => c = x

/-- One character, or any number of them. -/
inductive Item where
  | one (a : Atom)
  | many (a : Atom)
  deriving DecidableEq, Repr

/-- The texts that match an atom. -/
def Atom.language (a : Atom) : Language UInt8 := {w | ∃ x, a.Matches x ∧ w = [x]}

def Item.language : Item → Language UInt8
  | .one a => a.language
  | .many a => a.language∗

/-- The texts that match a sequence of items. -/
def language (items : List Item) : Language UInt8 := (items.map Item.language).prod

/-- A pattern: does it start at the beginning of the text, its items, and does it end at the end? -/
structure Pattern where
  bol : Bool
  items : List Item
  eol : Bool
  deriving DecidableEq, Repr

/-- Some part of the text matches, where the anchors allow it. -/
def Pattern.Occurs (p : Pattern) (text : Text) : Prop :=
  ∃ before part after, text = before ++ part ++ after ∧ part ∈ language p.items ∧
    (p.bol = true → before = []) ∧ (p.eol = true → after = [])

/-- The atom of a character. -/
def atom (c : UInt8) : Atom := if c = dot then .any else .char c

/-- The items that a pattern is written with, and whether a `$` ends it. A character is repeated if
a `*` follows it, and stands for itself otherwise. -/
def readItems : Text → List Item × Bool
  | [] => ([], false)
  | [c] => if c = dollar then ([], true) else ([.one (atom c)], false)
  | c :: d :: re =>
    if d = star then
      let (items, eol) := readItems re
      (.many (atom c) :: items, eol)
    else
      let (items, eol) := readItems (d :: re)
      (.one (atom c) :: items, eol)

/-- The pattern that a text is: a leading `^` is the first anchor. -/
def readPattern (re : Text) : Pattern :=
  let bol := re.head? = some caret
  let (items, eol) := readItems (if bol then re.tail else re)
  ⟨bol, items, eol⟩

/-! ### Languages -/

theorem atom_matches {c x : UInt8} : (atom c).Matches x ↔ c = dot ∨ c = x := by
  unfold atom
  split
  · next h => exact ⟨fun _ ↦ Or.inl h, fun _ ↦ trivial⟩
  · next h => exact ⟨Or.inr, fun hx ↦ hx.resolve_left h⟩

/-- A repetition is a text of characters that match. -/
theorem mem_kstar_atom {a : Atom} {w : Text} : w ∈ a.language∗ ↔ ∀ x ∈ w, a.Matches x := by
  rw [Language.mem_kstar]
  constructor
  · rintro ⟨ws, rfl, hws⟩ x hx
    obtain ⟨v, hv, hxv⟩ := List.mem_flatten.mp hx
    obtain ⟨y, hy, rfl⟩ := hws v hv
    rw [List.mem_singleton.mp hxv]
    exact hy
  · intro hw
    refine ⟨w.map (fun x ↦ [x]), ?_, ?_⟩
    · induction w with
      | nil => rfl
      | cons x w ih =>
        rw [List.map_cons, List.flatten_cons, ← ih (fun y hy ↦ hw y (List.mem_cons_of_mem x hy))]
        rfl
    · intro v hv
      obtain ⟨x, hx, rfl⟩ := List.mem_map.mp hv
      exact ⟨x, hw x hx, rfl⟩

theorem mem_language_nil {w : Text} : w ∈ language [] ↔ w = [] := Language.mem_one w

theorem mem_language_one {a : Atom} {items : List Item} {w : Text} :
    w ∈ language (.one a :: items) ↔ ∃ x v, w = x :: v ∧ a.Matches x ∧ v ∈ language items := by
  change w ∈ a.language * language items ↔ _
  rw [Language.mem_mul]
  constructor
  · rintro ⟨_, ⟨x, hx, rfl⟩, v, hv, rfl⟩
    exact ⟨x, v, rfl, hx, hv⟩
  · rintro ⟨x, v, rfl, hx, hv⟩
    exact ⟨[x], ⟨x, hx, rfl⟩, v, hv, rfl⟩

theorem mem_language_many {a : Atom} {items : List Item} {w : Text} :
    w ∈ language (.many a :: items) ↔
      ∃ u v, w = u ++ v ∧ (∀ x ∈ u, a.Matches x) ∧ v ∈ language items := by
  change w ∈ a.language∗ * language items ↔ _
  rw [Language.mem_mul]
  constructor
  · rintro ⟨u, hu, v, hv, rfl⟩
    exact ⟨u, v, rfl, mem_kstar_atom.mp hu, hv⟩
  · rintro ⟨u, v, rfl, hu, hv⟩
    exact ⟨u, mem_kstar_atom.mpr hu, v, hv, rfl⟩

/-! ### The matcher -/

/-- `matchstar` tries the rest of the pattern behind every run of characters that match. -/
theorem matchstar_iff {c : UInt8} {re text : Text} : matchstar c re text = true ↔
    ∃ u v, text = u ++ v ∧ (∀ x ∈ u, (atom c).Matches x) ∧ matchhere re v = true := by
  induction text with
  | nil =>
    rw [matchstar]
    constructor
    · intro h
      split at h
      · next hhere => exact ⟨[], [], rfl, (by intro _ hx; cases hx), hhere⟩
      · cases h
    · rintro ⟨u, v, huv, -, hhere⟩
      obtain ⟨rfl, rfl⟩ := List.append_eq_nil_iff.mp huv.symm
      rw [if_pos hhere]
  | cons x text ih =>
    rw [matchstar]
    by_cases hhere : matchhere re (x :: text) = true
    · rw [if_pos hhere]
      exact ⟨fun _ ↦ ⟨[], x :: text, rfl, (by intro _ hx; cases hx), hhere⟩, fun _ ↦ rfl⟩
    · rw [if_neg hhere]
      have hiff : (x = c ∨ c = dot) ↔ (atom c).Matches x := by
        rw [atom_matches, or_comm, eq_comm (a := x)]
      constructor
      · intro h
        split at h
        · next hx =>
          obtain ⟨u, v, rfl, hu, hv⟩ := ih.mp h
          exact ⟨x :: u, v, rfl, List.forall_mem_cons.mpr ⟨hiff.mp hx, hu⟩, hv⟩
        · cases h
      · rintro ⟨u, v, huv, hu, hv⟩
        cases u with
        | nil =>
          rw [List.nil_append] at huv
          exact absurd (huv ▸ hv) hhere
        | cons y u =>
          obtain ⟨rfl, rfl⟩ := List.cons.inj huv
          obtain ⟨hx, hu⟩ := List.forall_mem_cons.mp hu
          rw [if_pos (hiff.mpr hx)]
          exact ih.mpr ⟨u, v, rfl, hu, hv⟩

theorem matchhere_cons (c : UInt8) (re text : Text) : matchhere (c :: re) text =
    if re.head? = some star then matchstar c re.tail text
    else if c = dollar ∧ re = [] then decide (text = [])
    else match text with
    | [] => false
    | x :: text => if c = dot ∨ c = x then matchhere re text else false :=
  matchhere.eq_def (c :: re) text

theorem matchhere_nil (text : Text) : matchhere [] text = true := by rw [matchhere.eq_def]

/-- `matchhere` when the first character of the pattern stands for one character. -/
theorem matchhere_one {c : UInt8} {re text : Text} (hstar : re.head? ≠ some star)
    (hdollar : ¬ (c = dollar ∧ re = [])) : matchhere (c :: re) text = true ↔
      ∃ x v, text = x :: v ∧ (atom c).Matches x ∧ matchhere re v = true := by
  rw [matchhere_cons, if_neg hstar, if_neg hdollar]
  cases text with
  | nil => exact ⟨(fun h ↦ nomatch h), fun ⟨_, _, h, _⟩ ↦ nomatch h⟩
  | cons x text =>
    dsimp only
    constructor
    · intro h
      split at h
      · next hx => exact ⟨x, text, rfl, atom_matches.mpr hx, h⟩
      · cases h
    · rintro ⟨y, v, hyv, hy, hv⟩
      obtain ⟨rfl, rfl⟩ := List.cons.inj hyv
      rw [if_pos (atom_matches.mp hy)]
      exact hv

/-- The text begins with a part that matches the items, which is all of it if the pattern says
so. -/
def Begins (items : List Item) (eol : Bool) (text : Text) : Prop :=
  ∃ part after, text = part ++ after ∧ part ∈ language items ∧ (eol = true → after = [])

theorem begins_nil (text : Text) : Begins [] false text :=
  ⟨[], text, rfl, mem_language_nil.mpr rfl, (fun h ↦ nomatch h)⟩

theorem begins_one {a : Atom} {items : List Item} {eol : Bool} {text : Text} :
    Begins (.one a :: items) eol text ↔
      ∃ x v, text = x :: v ∧ a.Matches x ∧ Begins items eol v := by
  constructor
  · rintro ⟨part, after, rfl, hpart, hafter⟩
    obtain ⟨x, v, rfl, hx, hv⟩ := mem_language_one.mp hpart
    exact ⟨x, v ++ after, rfl, hx, v, after, rfl, hv, hafter⟩
  · rintro ⟨x, _, rfl, hx, v, after, rfl, hv, hafter⟩
    exact ⟨x :: v, after, rfl, mem_language_one.mpr ⟨x, v, rfl, hx, hv⟩, hafter⟩

theorem begins_many {a : Atom} {items : List Item} {eol : Bool} {text : Text} :
    Begins (.many a :: items) eol text ↔
      ∃ u v, text = u ++ v ∧ (∀ x ∈ u, a.Matches x) ∧ Begins items eol v := by
  constructor
  · rintro ⟨part, after, rfl, hpart, hafter⟩
    obtain ⟨u, v, rfl, hu, hv⟩ := mem_language_many.mp hpart
    exact ⟨u, v ++ after, List.append_assoc u v after, hu, v, after, rfl, hv, hafter⟩
  · rintro ⟨u, _, rfl, hu, v, after, rfl, hv, hafter⟩
    exact ⟨u ++ v, after, (List.append_assoc u v after).symm,
      mem_language_many.mpr ⟨u, v, rfl, hu, hv⟩, hafter⟩

/-- `matchhere` decides what the items say about the beginning of the text. -/
theorem matchhere_iff {re text : Text} : matchhere re text = true ↔
    Begins (readItems re).1 (readItems re).2 text := by
  -- the cases are those of reading the pattern
  fun_induction readItems re generalizing text with
  | case1 => exact iff_of_true (matchhere_nil text) (begins_nil text)
  | case2 =>
    have hstar : ([] : Text).head? ≠ some star := (fun h ↦ nomatch h)
    rw [matchhere_cons, if_neg hstar, if_pos ⟨rfl, rfl⟩, decide_eq_true_iff]
    constructor
    · rintro rfl
      exact ⟨[], [], rfl, mem_language_nil.mpr rfl, fun _ ↦ rfl⟩
    · rintro ⟨part, after, rfl, hpart, hafter⟩
      rw [mem_language_nil.mp hpart, hafter rfl]
      rfl
  | case3 c hc =>
    have hstar : ([] : Text).head? ≠ some star := (fun h ↦ nomatch h)
    rw [matchhere_one hstar (fun h ↦ hc h.1), begins_one]
    simp only [matchhere_nil, begins_nil]
  | case4 c re items eol hread ih =>
    rw [hread] at ih
    have hstar : (star :: re).head? = some star := rfl
    rw [matchhere_cons, if_pos hstar, begins_many]
    simp only [← ih]
    exact matchstar_iff
  | case5 c d re hd items eol hread ih =>
    rw [hread] at ih
    have hstar : (d :: re).head? ≠ some star := fun h ↦ hd (Option.some.inj h)
    have hdollar : ¬ (c = dollar ∧ d :: re = []) := fun h ↦ List.cons_ne_nil d re h.2
    rw [matchhere_one hstar hdollar, begins_one]
    simp only [← ih]

/-- The loop of `match` tries every place. -/
theorem matchLoop_iff {re text : Text} : matchLoop re text = true ↔
    ∃ before rest, text = before ++ rest ∧ matchhere re rest = true := by
  induction text with
  | nil =>
    rw [matchLoop]
    constructor
    · intro h
      exact ⟨[], [], rfl, h⟩
    · rintro ⟨before, rest, htext, h⟩
      obtain ⟨rfl, rfl⟩ := List.append_eq_nil_iff.mp htext.symm
      exact h
  | cons x text ih =>
    rw [matchLoop]
    by_cases hhere : matchhere re (x :: text) = true
    · rw [if_pos hhere]
      exact ⟨fun _ ↦ ⟨[], x :: text, rfl, hhere⟩, fun _ ↦ rfl⟩
    · rw [if_neg hhere, ih]
      constructor
      · rintro ⟨before, rest, rfl, h⟩
        exact ⟨x :: before, rest, rfl, h⟩
      · rintro ⟨before, rest, htext, h⟩
        cases before with
        | nil =>
          rw [List.nil_append] at htext
          exact absurd (htext ▸ h) hhere
        | cons y before =>
          obtain ⟨rfl, rfl⟩ := List.cons.inj htext
          exact ⟨before, rest, rfl, h⟩

/-- `match` decides its pattern language, on every pattern and every text. -/
theorem match_decides (re text : Text) :
    matchText re text = true ↔ (readPattern re).Occurs text := by
  unfold matchText readPattern
  by_cases hbol : re.head? = some caret
  · rw [if_pos hbol]
    simp only [hbol, decide_true, if_true]
    rw [matchhere_iff]
    constructor
    · rintro ⟨part, after, rfl, hpart, hafter⟩
      exact ⟨[], part, after, rfl, hpart, fun _ ↦ rfl, hafter⟩
    · rintro ⟨before, part, after, rfl, hpart, hbefore, hafter⟩
      rw [hbefore rfl]
      exact ⟨part, after, rfl, hpart, hafter⟩
  · rw [if_neg hbol]
    simp only [hbol, decide_false, if_false]
    rw [matchLoop_iff]
    constructor
    · rintro ⟨before, rest, rfl, h⟩
      obtain ⟨part, after, rfl, hpart, hafter⟩ := matchhere_iff.mp h
      exact ⟨before, part, after, (List.append_assoc before part after).symm, hpart,
        (fun h ↦ nomatch h), hafter⟩
    · rintro ⟨before, part, after, rfl, hpart, -, hafter⟩
      exact ⟨before, part ++ after, List.append_assoc before part after,
        matchhere_iff.mpr ⟨part, after, rfl, hpart, hafter⟩⟩

end Xv6.Grep
