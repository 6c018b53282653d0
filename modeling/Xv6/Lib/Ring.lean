import Mathlib.Data.List.Nodup
import Mathlib.Logic.Function.Basic

/-!
# Doubly linked rings

Nodes with a successor and a predecessor, linked in a ring through a sentinel. A ring is two
paths from the sentinel back to itself, the second one in the reverse order, so that each lemma
about a path serves both directions.
-/

namespace Xv6.Lib

variable {α : Type*}

/-- From `a` the links lead through the nodes of the list and then to `c`. -/
def Path (f : α → α) (a : α) : List α → α → Prop
  | [], c => f a = c
  | x :: l, c => f a = x ∧ Path f x l c

section
variable {f g : α → α} {a b c : α} {l : List α}

theorem Path.congr (h : Path f a l c) (hfg : ∀ x ∈ a :: l, g x = f x) : Path g a l c := by
  induction l generalizing a with
  | nil => exact (hfg a List.mem_cons_self).trans h
  | cons x l ih =>
    refine ⟨(hfg a List.mem_cons_self).trans h.1, ?_⟩
    exact ih h.2 (fun y hy ↦ hfg y (List.mem_cons_of_mem a hy))

theorem path_append {l₁ l₂ : List α} :
    Path f a (l₁ ++ b :: l₂) c ↔ Path f a l₁ b ∧ Path f b l₂ c := by
  induction l₁ generalizing a with
  | nil => exact Iff.rfl
  | cons x l₁ ih =>
    constructor
    · intro h
      obtain ⟨h₁, h₂⟩ := ih.mp h.2
      exact ⟨⟨h.1, h₁⟩, h₂⟩
    · intro h
      exact ⟨h.1.1, ih.mpr ⟨h.1.2, h.2⟩⟩

/-- The last node leads to the end. -/
theorem Path.last (h : Path f a l c) : f (l.getLastD a) = c := by
  induction l generalizing a with
  | nil => exact h
  | cons x l ih =>
    rw [List.getLastD_cons]
    exact ih h.2

/-- The first node of a path. -/
theorem Path.first (h : Path f a l c) : f a = l.headD c := by
  cases l with
  | nil => exact h
  | cons x l => exact h.1

theorem getLastD_mem (a : α) (l : List α) : l.getLastD a ∈ a :: l := by
  induction l generalizing a with
  | nil => exact List.mem_cons_self
  | cons x l ih =>
    rw [List.getLastD_cons]
    exact List.mem_cons_of_mem a (ih x)

/-- The same nodes reached from another one. -/
theorem Path.from (h : Path f a l c) (hb : g b = f a) (hl : ∀ x ∈ l, g x = f x) : Path g b l c := by
  cases l with
  | nil => exact hb.trans h
  | cons x l => exact ⟨hb.trans h.1, h.2.congr hl⟩

/-- A node leads to the next one of the list, or the last node to the end. -/
theorem Path.succ_cases (h : Path f a l c) {x : α} (hx : x ∈ a :: l) :
    (x = l.getLastD a ∧ f x = c) ∨ ∃ l₁ l₂, a :: l = l₁ ++ x :: f x :: l₂ := by
  induction l generalizing a with
  | nil =>
    rw [List.mem_singleton.mp hx]
    exact Or.inl ⟨rfl, h⟩
  | cons y l ih =>
    rcases List.mem_cons.mp hx with rfl | hx
    · exact Or.inr ⟨[], l, by rw [h.1]; rfl⟩
    · rcases ih h.2 hx with hlast | ⟨l₁, l₂, heq⟩
      · rw [List.getLastD_cons]
        exact Or.inl hlast
      · exact Or.inr ⟨a :: l₁, l₂, by rw [heq]; rfl⟩

/-- Only the node before it leads to a node. -/
theorem Path.pred_unique {l₁ l₂ : List α} (h : Path f a (l₁ ++ b :: l₂) c)
    (hnodup : (a :: (l₁ ++ b :: l₂)).Nodup) (hc : b ≠ c) {x : α} (hx : x ∈ a :: (l₁ ++ b :: l₂))
    (hfx : f x = b) : x = l₁.getLastD a := by
  induction l₁ generalizing a with
  | nil =>
    rcases List.mem_cons.mp hx with rfl | hx
    · rfl
    · rcases h.2.succ_cases hx with ⟨-, hend⟩ | ⟨l, l', heq⟩
      · exact (hc (hfx.symm.trans hend)).elim
      · have hright : (b :: l₂).Nodup := (List.nodup_cons.mp hnodup).2
        rw [hfx] at heq
        rw [heq] at hright
        -- `b` is the first node, and would be a later one
        cases l with
        | nil =>
          cases heq
          exact ((List.nodup_cons.mp hright).1 List.mem_cons_self).elim
        | cons z l =>
          cases heq
          refine ((List.nodup_cons.mp hright).1 ?_).elim
          exact List.mem_append_right _ (List.mem_cons_of_mem _ List.mem_cons_self)
  | cons y l₁ ih =>
    rw [List.getLastD_cons]
    rcases List.mem_cons.mp hx with rfl | hx
    · have hy : y = b := h.1.symm.trans hfx
      rw [hy] at hnodup
      refine ((List.nodup_cons.mp (List.nodup_cons.mp hnodup).2).1 ?_).elim
      exact List.mem_append_right _ List.mem_cons_self
    · exact ih h.2 (List.nodup_cons.mp hnodup).2 hx

/-- A ring can be walked from each of its nodes. -/
theorem Path.rotate (h : Path f a l a) (hb : b ∈ a :: l) :
    ∃ l', Path f b l' b ∧ (b :: l').Perm (a :: l) := by
  rcases List.mem_cons.mp hb with rfl | hb
  · exact ⟨l, h, List.Perm.refl _⟩
  · obtain ⟨l₁, l₂, rfl⟩ := List.append_of_mem hb
    obtain ⟨hleft, hright⟩ := path_append.mp h
    refine ⟨l₂ ++ a :: l₁, path_append.mpr ⟨hright, hleft⟩, ?_⟩
    have hswap : (a :: l₁ ++ b :: l₂).Perm (b :: l₂ ++ a :: l₁) := List.perm_append_comm
    exact hswap.symm

variable [DecidableEq α]

/-- The last link of a path is turned to `b`. -/
theorem Path.redirect (h : Path f a l c) (hnodup : (a :: l).Nodup) :
    Path (Function.update f (l.getLastD a) b) a l b := by
  induction l generalizing a with
  | nil => exact Function.update_self a b f
  | cons x l ih =>
    rw [List.nodup_cons] at hnodup
    rw [List.getLastD_cons]
    refine ⟨?_, ih h.2 hnodup.2⟩
    have hne : a ≠ l.getLastD x := by
      intro he
      apply hnodup.1
      rw [he]
      exact getLastD_mem x l
    exact (Function.update_of_ne hne _ _).trans h.1

/-- A node is left out of a path: the node before it leads to the node after it. -/
theorem Path.unlink {l₁ l₂ : List α} (h : Path f a (l₁ ++ b :: l₂) c)
    (hnodup : (a :: (l₁ ++ b :: l₂)).Nodup) :
    Path (Function.update f (l₁.getLastD a) (f b)) a (l₁ ++ l₂) c := by
  obtain ⟨hleft, hright⟩ := path_append.mp h
  rw [← List.cons_append] at hnodup
  obtain ⟨hnodup₁, -, hdisj⟩ := List.nodup_append.mp hnodup
  cases l₂ with
  | nil =>
    rw [List.append_nil]
    have hb : f b = c := hright
    rw [hb]
    exact hleft.redirect hnodup₁
  | cons y l₂ =>
    have hb : f b = y := hright.1
    rw [hb]
    apply path_append.mpr
    refine ⟨hleft.redirect hnodup₁, ?_⟩
    apply hright.2.congr
    intro x hx
    apply Function.update_of_ne
    intro he
    exact hdisj _ (getLastD_mem a l₁) x (List.mem_cons_of_mem b hx) he.symm

end

/-- The nodes of the list form a ring with the sentinel `h`. -/
structure Ring (next prev : α → α) (h : α) (l : List α) : Prop where
  forward : Path next h l h
  backward : Path prev h l.reverse h
  nodup : (h :: l).Nodup

section
variable {next prev : α → α} {h b : α} {l l₁ l₂ : List α}

theorem headD_reverse (l : List α) (a : α) : l.reverse.headD a = l.getLastD a := by
  rw [List.headD_eq_head?_getD, List.head?_reverse, List.getLastD_eq_getLast?]

/-- A ring is one in the other direction too. -/
theorem Ring.swap (hr : Ring next prev h l) : Ring prev next h l.reverse := by
  refine ⟨hr.backward, ?_, ?_⟩
  · rw [List.reverse_reverse]
    exact hr.forward
  · have := hr.nodup
    rw [List.nodup_cons] at this ⊢
    exact ⟨fun hm ↦ this.1 (List.mem_reverse.mp hm), List.nodup_reverse.mpr this.2⟩

/-- The node after another one. -/
theorem Ring.next_eq (hr : Ring next prev h (l₁ ++ b :: l₂)) : next b = l₂.headD h :=
  (path_append.mp hr.forward).2.first

/-- The node before another one. -/
theorem Ring.prev_eq (hr : Ring next prev h (l₁ ++ b :: l₂)) : prev b = l₁.getLastD h := by
  have hswap := hr.swap
  rw [List.reverse_append, List.reverse_cons, List.append_assoc, List.singleton_append] at hswap
  rw [hswap.next_eq, headD_reverse]

theorem Ring.next_ne (hr : Ring next prev h (l₁ ++ b :: l₂)) : next b ≠ b := by
  have hnodup := hr.nodup
  rw [List.nodup_cons] at hnodup
  obtain ⟨hh, hnodup⟩ := hnodup
  have hright := (List.nodup_cons.mp (List.nodup_append.mp hnodup).2.1).1
  rw [hr.next_eq]
  intro he
  cases l₂ with
  | nil =>
    have hb : h = b := he
    exact hh (hb ▸ List.mem_append_right l₁ List.mem_cons_self)
  | cons x l₂ =>
    have hb : x = b := he
    exact hright (hb ▸ List.mem_cons_self)

variable [DecidableEq α]

/-- A node is taken out of a ring. -/
theorem Ring.unlink (hr : Ring next prev h (l₁ ++ b :: l₂)) :
    Ring (Function.update next (prev b) (next b)) (Function.update prev (next b) (prev b)) h
      (l₁ ++ l₂) := by
  have hback := hr.swap
  rw [List.reverse_append, List.reverse_cons, List.append_assoc, List.singleton_append] at hback
  refine ⟨?_, ?_, ?_⟩
  · rw [hr.prev_eq]
    exact hr.forward.unlink hr.nodup
  · have hunlink := hback.forward.unlink hback.nodup
    rw [List.reverse_append, hback.prev_eq]
    exact hunlink
  · have hsub : (h :: (l₁ ++ l₂)).Sublist (h :: (l₁ ++ b :: l₂)) :=
      (List.Sublist.append_left (List.sublist_cons_self b l₂) l₁).cons_cons h
    exact hr.nodup.sublist hsub

/-- A node is put into a ring after the sentinel. -/
theorem Ring.push (hr : Ring next prev h l) (hb : b ∉ h :: l) :
    Ring (Function.update (Function.update next b (next h)) h b)
      (Function.update (Function.update prev b h) (next h) b) h (b :: l) := by
  have hbh : b ≠ h := fun he ↦ hb (he ▸ List.mem_cons_self)
  have hfirst : next h = l.reverse.getLastD h := by
    rw [hr.forward.first, ← headD_reverse, List.reverse_reverse]
  have hh : h ∉ l := (List.nodup_cons.mp hr.nodup).1
  refine ⟨⟨Function.update_self _ _ _, ?_⟩, ?_, ?_⟩
  · apply hr.forward.from
    · rw [Function.update_of_ne hbh, Function.update_self]
    · intro x hx
      have hxh : x ≠ h := fun he ↦ hh (he ▸ hx)
      have hxb : x ≠ b := fun he ↦ hb (he ▸ List.mem_cons_of_mem h hx)
      rw [Function.update_of_ne hxh, Function.update_of_ne hxb]
  · rw [List.reverse_cons, hfirst]
    apply path_append.mpr
    have hmem : l.reverse.getLastD h ∈ h :: l := by
      have := getLastD_mem h l.reverse
      rw [List.mem_cons, List.mem_reverse] at this
      exact List.mem_cons.mpr this
    refine ⟨?_, ?_⟩
    · apply Path.redirect _ hr.swap.nodup
      · exact h
      · apply hr.backward.congr
        intro x hx
        rw [List.mem_cons, List.mem_reverse] at hx
        have hxb : x ≠ b := fun he ↦ hb (he ▸ List.mem_cons.mpr hx)
        exact Function.update_of_ne hxb _ _
    · have hne : b ≠ l.reverse.getLastD h := fun he ↦ hb (he ▸ hmem)
      exact (Function.update_of_ne hne _ _).trans (Function.update_self _ _ _)
  · rw [List.nodup_cons]
    refine ⟨?_, List.nodup_cons.mpr ⟨fun hm ↦ hb (List.mem_cons_of_mem h hm), ?_⟩⟩
    · intro hm
      rcases List.mem_cons.mp hm with he | hm
      · exact hbh he.symm
      · exact hh hm
    · exact (List.nodup_cons.mp hr.nodup).2

end

/-- Follow the links from a node until the sentinel, to the first node that passes the test. -/
def follow [DecidableEq α] (f : α → α) (h : α) (test : α → Bool) : Nat → α → Option α
  | 0, _ => none
  | n + 1, x => if x = h then none else if test x then some x else follow f h test n (f x)

theorem follow_eq_find [DecidableEq α] {f : α → α} {a h : α} {l : List α} (test : α → Bool)
    {n : Nat} (hp : Path f a l h) (hh : h ∉ l) (hn : l.length < n) :
    follow f h test n (f a) = l.find? test := by
  induction n generalizing a l with
  | zero => exact (Nat.not_lt_zero _ hn).elim
  | succ n ih =>
    cases l with
    | nil =>
      have hfa : f a = h := hp
      rw [follow, hfa, if_pos rfl]
      rfl
    | cons x l =>
      have hfa : f a = x := hp.1
      have hx : x ≠ h := fun he ↦ hh (he ▸ List.mem_cons_self)
      rw [follow, hfa, if_neg hx, List.find?_cons]
      cases ht : test x with
      | true => rfl
      | false =>
        exact ih hp.2 (fun hm ↦ hh (List.mem_cons_of_mem x hm)) (Nat.lt_of_succ_lt_succ hn)

end Xv6.Lib
