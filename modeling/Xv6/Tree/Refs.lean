import Xv6.Lib.Returns
import Xv6.Tree.Calls
import Xv6.Tree.Edits

/-!
# References to inodes

A running call holds references of its own besides those of the tables. `Held s kept own` says
that the counts of the inode table are exact, where `kept` are the inodes that the call has
locked at least once, and `own` those it only looked up. An inode without links is kept alive
by a reference of the tables or of `kept`; giving back one of `own` therefore never frees
anything.
-/

namespace Xv6.Tree

open Xv6.Lib

/-- The references of files and processes to inode `x`. -/
def Tables.refs (t : Tables) (x : Nat) : Nat :=
  hits (fun f ↦ (t.files f).target.ip) (some x) + hits (fun p ↦ (t.procs p).map Proc.cwd) (some x)

/-- The counts of the inode table are exact, and inodes in use are not free. -/
structure Held (s : State) (kept own : List Nat) : Prop where
  count : ∀ x, s.ref x = s.refs x + kept.count x + own.count x
  alloc : ∀ x, 0 < s.refs x + kept.count x → (s.inodes x).type ≠ .free
  valid : ∀ x, s.valid x = true → 0 < s.ref x → (s.inodes x).type ≠ .free
  keptValid : ∀ x ∈ kept, s.valid x = true
  orphan : ∀ x, (s.inodes x).type ≠ .free → (s.inodes x).nlink = 0 →
    s.valid x = true ∧ 0 < s.refs x + kept.count x

/-- A step that changes at most the counts of the inode table. -/
structure Same (s s' : State) : Prop where
  inodes : s'.inodes = s.inodes
  tables : s'.toTables = s.toTables

theorem Same.refl (s : State) : Same s s := ⟨rfl, rfl⟩

theorem Same.trans {s s' s'' : State} (h : Same s s') (h' : Same s' s'') : Same s s'' :=
  ⟨h'.inodes.trans h.inodes, h'.tables.trans h.tables⟩

section
variable {s s' : State} {kept own : List Nat} {x : Nat}

theorem Held.perm (h : Held s kept own) {own' : List Nat} (hp : own.Perm own') :
    Held s kept own' := by
  refine ⟨?_, h.alloc, h.valid, h.keptValid, h.orphan⟩
  intro y
  rw [← hp.count_eq]
  exact h.count y

theorem Held.permKept (h : Held s kept own) {kept' : List Nat} (hp : kept.Perm kept') :
    Held s kept' own := by
  have hc (y : Nat) : kept'.count y = kept.count y := (hp.count_eq y).symm
  refine ⟨?_, ?_, h.valid, fun x hx ↦ h.keptValid x (hp.mem_iff.mpr hx), ?_⟩
  · intro y
    rw [hc]
    exact h.count y
  · intro y
    rw [hc]
    exact h.alloc y
  · intro y
    rw [hc]
    exact h.orphan y

/-- An inode that the call has locked is kept. -/
theorem Held.keep (h : Held s kept (x :: own)) (hv : s.valid x = true) :
    Held s (x :: kept) own := by
  have hx := h.count x
  rw [List.count_cons_self] at hx
  refine ⟨?_, ?_, h.valid, ?_, ?_⟩
  · intro y
    have := h.count y
    simp only [List.count_cons] at this ⊢
    omega
  · intro y hy
    by_cases hyx : y = x
    · rw [hyx]
      exact h.valid x hv (by omega)
    · apply h.alloc y
      rwa [List.count_cons_of_ne (Ne.symm hyx)] at hy
  · intro y hy
    rcases List.mem_cons.mp hy with rfl | hy
    · exact hv
    · exact h.keptValid y hy
  · intro y ht hl
    have := h.orphan y ht hl
    rw [List.count_cons]
    exact ⟨this.1, by omega⟩

theorem iget_spec (hi : iget s x = .ok s') (h : Held s kept own) :
    Same s s' ∧ Held s' kept (x :: own) := by
  rw [iget] at hi
  split at hi
  · next hpos =>
    cases hi
    refine ⟨⟨rfl, rfl⟩, ?_, h.alloc, ?_, h.keptValid, h.orphan⟩
    · intro y
      have := h.count y
      by_cases hyx : y = x
      · subst hyx
        simp only [Function.update_self, List.count_cons_self]
        omega
      · rw [List.count_cons_of_ne (Ne.symm hyx)]
        simpa only [Function.update_of_ne hyx] using this
    · intro y hv hr
      apply h.valid y hv
      by_cases hyx : y = x
      · exact hyx ▸ hpos
      · simpa only [Function.update_of_ne hyx] using hr
  · split at hi
    · cases hi
    · next hzero _ =>
      cases hi
      have hx := h.count x
      refine ⟨⟨rfl, rfl⟩, ?_, h.alloc, ?_, ?_, ?_⟩
      · intro y
        have := h.count y
        by_cases hyx : y = x
        · subst hyx
          simp only [Function.update_self, List.count_cons_self]
          change 1 = s.refs y + _ + _
          omega
        · rw [List.count_cons_of_ne (Ne.symm hyx)]
          simpa only [Function.update_of_ne hyx] using this
      · intro y hv hr
        by_cases hyx : y = x
        · rw [hyx] at hv
          simp at hv
        · simp only [Function.update_of_ne hyx] at hv hr
          exact h.valid y hv hr
      · intro y hy
        have hyx : y ≠ x := by
          rintro rfl
          have := List.count_pos_iff.mpr hy
          omega
        simp only [Function.update_of_ne hyx]
        exact h.keptValid y hy
      · intro y ht hl
        have ho := h.orphan y ht hl
        have hyx : y ≠ x := by
          rintro rfl
          omega
        simp only [Function.update_of_ne hyx]
        exact ho

theorem idup_spec (h : Held s kept own) (hpos : 0 < s.refs x) :
    Same s (idup s x) ∧ Held (idup s x) kept (x :: own) := by
  have hx := h.count x
  have hi : iget s x = .ok (idup s x) := by
    rw [iget, if_pos (by omega)]
    rfl
  exact iget_spec hi h

theorem ilock_spec (hl : ilock s x = .ok s') (h : Held s kept own) :
    Same s s' ∧ Held s' kept own ∧ s'.valid x = true ∧ (s.inodes x).type ≠ .free := by
  rw [ilock] at hl
  split at hl
  · cases hl
  · next hr =>
    split at hl
    · next hv =>
      cases hl
      exact ⟨Same.refl s, h, hv, h.valid x hv (by omega)⟩
    · split at hl
      · cases hl
      · next hv ht =>
        cases hl
        refine ⟨⟨rfl, rfl⟩, ⟨h.count, h.alloc, ?_, ?_, ?_⟩, Function.update_self .., ht⟩
        · intro y hvy hry
          by_cases hyx : y = x
          · exact hyx ▸ ht
          · exact h.valid y (by simpa only [Function.update_of_ne hyx] using hvy) hry
        · intro y hy
          have hyx : y ≠ x := by
            rintro rfl
            exact hv (h.keptValid y hy)
          simp only [Function.update_of_ne hyx]
          exact h.keptValid y hy
        · intro y hty hly
          have ho := h.orphan y hty hly
          have hyx : y ≠ x := by
            rintro rfl
            exact hv ho.1
          simp only [Function.update_of_ne hyx]
          exact ho

/-- Giving back an inode that was only looked up. -/
theorem iput_own (h : Held s kept (x :: own)) : Same s (iput s x) ∧ Held (iput s x) kept own := by
  have hx := h.count x
  rw [List.count_cons_self] at hx
  have hnot : ¬(s.ref x = 1 ∧ s.valid x = true ∧ (s.inodes x).nlink = 0) := by
    rintro ⟨hr, hv, hl⟩
    have := (h.orphan x (h.valid x hv (by omega)) hl).2
    omega
  rw [iput, if_neg hnot]
  refine ⟨⟨rfl, rfl⟩, ?_, h.alloc, ?_, h.keptValid, h.orphan⟩
  · intro y
    have := h.count y
    by_cases hyx : y = x
    · subst hyx
      simp only [Function.update_self]
      change s.ref y - 1 = s.refs y + _ + _
      omega
    · rw [List.count_cons_of_ne (Ne.symm hyx)] at this
      simpa only [Function.update_of_ne hyx] using this
  · intro y hv hr
    apply h.valid y hv
    by_cases hyx : y = x
    · rw [hyx]
      omega
    · simpa only [Function.update_of_ne hyx] using hr

/-- Giving back an inode that was locked, and perhaps lost its links since. -/
theorem iput_kept (h : Held s (x :: kept) []) :
    (iput s x).toTables = s.toTables ∧ Freed s.inodes (iput s x).inodes ∧
      Held (iput s x) kept [] := by
  have hx := h.count x
  rw [List.count_cons_self, List.count_nil] at hx
  rw [iput]
  split
  · next hlast =>
    obtain ⟨hr, hv, hl⟩ := hlast
    refine ⟨rfl, ?_, ?_, ?_, ?_, ?_, ?_⟩
    · intro y
      by_cases hyx : y = x
      · right
        rw [hyx]
        simp only [Function.update_self]
        exact ⟨Or.inr hl, rfl, rfl, by change (s.inodes x).nlink < _; omega⟩
      · exact Or.inl (Function.update_of_ne hyx ..)
    · intro y
      have := h.count y
      by_cases hyx : y = x
      · subst hyx
        simp only [Function.update_self, List.count_nil]
        change 0 = s.refs y + _ + _
        omega
      · rw [List.count_cons_of_ne (Ne.symm hyx)] at this
        simpa only [Function.update_of_ne hyx] using this
    · intro y hy
      have hyx : y ≠ x := by
        rintro rfl
        change 0 < s.refs y + _ at hy
        omega
      simp only [Function.update_of_ne hyx]
      apply h.alloc y
      rw [List.count_cons_of_ne (Ne.symm hyx)]
      exact hy
    · intro y hvy hry
      by_cases hyx : y = x
      · rw [hyx] at hvy
        simp at hvy
      · simp only [Function.update_of_ne hyx] at hvy hry ⊢
        exact h.valid y hvy hry
    · intro y hy
      have hyx : y ≠ x := by
        rintro rfl
        have := List.count_pos_iff.mpr hy
        omega
      simp only [Function.update_of_ne hyx]
      exact h.keptValid y (List.mem_cons_of_mem _ hy)
    · intro y hty hly
      by_cases hyx : y = x
      · rw [hyx] at hty
        simp [Inode.freed] at hty
      · simp only [Function.update_of_ne hyx] at hty hly ⊢
        have ho := h.orphan y hty hly
        rw [List.count_cons_of_ne (Ne.symm hyx)] at ho
        exact ho
  · next hlast =>
    refine ⟨rfl, Freed.refl _, ?_, ?_, ?_, ?_, ?_⟩
    · intro y
      have := h.count y
      by_cases hyx : y = x
      · subst hyx
        simp only [Function.update_self, List.count_nil]
        change s.ref y - 1 = s.refs y + _ + _
        omega
      · rw [List.count_cons_of_ne (Ne.symm hyx)] at this
        simpa only [Function.update_of_ne hyx] using this
    · intro y hy
      apply h.alloc y
      rw [List.count_cons]
      change 0 < s.refs y + _ at hy
      omega
    · intro y hvy hry
      apply h.valid y hvy
      by_cases hyx : y = x
      · rw [hyx]
        omega
      · simpa only [Function.update_of_ne hyx] using hry
    · exact fun y hy ↦ h.keptValid y (List.mem_cons_of_mem _ hy)
    · intro y hty hly
      have ho := h.orphan y hty hly
      refine ⟨ho.1, ?_⟩
      change 0 < s.refs y + _
      by_cases hyx : y = x
      · subst hyx
        have : s.ref y ≠ 1 := fun hr ↦ hlast ⟨hr, ho.1, hly⟩
        omega
      · rw [List.count_cons_of_ne (Ne.symm hyx)] at ho
        exact ho.2

/-- A change of inodes that allocates and frees none, and takes the last link of inodes only
that the call keeps. -/
theorem Held.setInodes (h : Held s kept own) {m : Graph}
    (ht : ∀ y, (m y).type = .free ↔ (s.inodes y).type = .free)
    (hl : ∀ y, (m y).nlink = 0 → (s.inodes y).nlink = 0 ∨ y ∈ kept) :
    Held { s with inodes := m } kept own := by
  refine ⟨h.count, ?_, ?_, h.keptValid, ?_⟩
  · exact fun y hy hf ↦ h.alloc y hy ((ht y).mp hf)
  · exact fun y hv hr hf ↦ h.valid y hv hr ((ht y).mp hf)
  · intro y hty hly
    rcases hl y hly with hl | hk
    · exact h.orphan y (fun hf ↦ hty ((ht y).mpr hf)) hl
    · refine ⟨h.keptValid y hk, ?_⟩
      have := List.count_pos_iff.mpr hk
      change 0 < s.refs y + _
      omega

/-- The same for the store of one inode. -/
theorem Held.setInode (h : Held s kept own) {ip : Inode} (ht : ip.type = (s.inodes x).type)
    (hl : ip.nlink = 0 → (s.inodes x).nlink = 0 ∨ x ∈ kept) : Held (s.setInode x ip) kept own := by
  apply h.setInodes
  · intro y
    by_cases hyx : y = x
    · rw [hyx, Function.update_self, ht]
    · rw [Function.update_of_ne hyx]
  · intro y hy
    by_cases hyx : y = x
    · rw [hyx] at hy ⊢
      rw [Function.update_self] at hy
      exact hl hy
    · rw [Function.update_of_ne hyx] at hy
      exact Or.inl hy

@[simp] theorem State.setInode_inodes (ip : Inode) :
    (s.setInode x ip).inodes = Function.update s.inodes x ip := rfl

@[simp] theorem State.setInode_tables (ip : Inode) : (s.setInode x ip).toTables = s.toTables := rfl

end

end Xv6.Tree
