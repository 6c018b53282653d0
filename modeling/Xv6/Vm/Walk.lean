import Xv6.Lib.Returns
import Xv6.Vm.Tables

/-!
# Allocation and the walk

What `kalloc`, `kfree` and `walk` do to the pages that a caller owns. A caller's pages are
`Sound` with the free list if none is counted twice and `kfree` accepts them all.
-/

namespace Xv6.Vm

open Xv6.Lib

/-- The caller's pages and the free list: no page occurs twice, and each can be freed. -/
structure Sound (k : Kernel) (m : Mem) (own : Nat → Nat) : Prop where
  once : Once m.toHeap own
  usable : ∀ q, 0 < m.free.count q + own q → k.Usable q

section
variable {k : Kernel} {m m' : Mem} {own own' : Nat → Nat}

theorem Kernel.Usable.lt {q : Nat} (h : k.Usable q) : q < 2 ^ 20 := by
  obtain ⟨-, h2⟩ := h
  unfold PHYSTOP KERNBASE PGSIZE at h2
  omega

theorem Kernel.Usable.ne_zero {q : Nat} (h : k.Usable q) : q ≠ 0 := by
  obtain ⟨h1, -⟩ := h
  have h2 := k.above
  rintro rfl
  rw [Nat.zero_mul] at h1
  omega

theorem Sound.moves (h : Sound k m own) (hm : Moves m.toHeap m'.toHeap own own') :
    Sound k m' own' := by
  refine ⟨hm.once h.once, ?_⟩
  intro q hq
  rw [hm.count] at hq
  exact h.usable q hq

theorem Sound.mono (h : Sound k m own) (hle : ∀ q, own' q ≤ own q) : Sound k m own' := by
  refine ⟨h.once.mono hle, ?_⟩
  intro q hq
  have := hle q
  exact h.usable q (by omega)

theorem Sound.left {extra : Nat → Nat} (h : Sound k m (own + extra)) : Sound k m own :=
  h.mono (fun _ ↦ Nat.le_add_right _ _)

theorem Sound.right {extra : Nat → Nat} (h : Sound k m (extra + own)) : Sound k m own :=
  h.mono (fun _ ↦ Nat.le_add_left _ _)

theorem Sound.le_one (h : Sound k m own) (q : Nat) : own q ≤ 1 := by
  have := h.once q
  omega

theorem Sound.congr (h : Sound k m own) (he : own' = own) : Sound k m own' := by
  rw [he]
  exact h

theorem Sound.heap (h : Sound k m own) (he : m'.toHeap = m.toHeap) : Sound k m' own := by
  have hfree : m'.free = m.free := congrArg Heap.free he
  refine ⟨?_, ?_⟩
  · rw [he]
    exact h.once
  · rw [hfree]
    exact h.usable

theorem Sound.lt (h : Sound k m own) {q : Nat} (hq : 0 < own q) : q < 2 ^ 20 :=
  (h.usable q (Nat.add_pos_right _ hq)).lt

theorem Sound.ne_zero (h : Sound k m own) {q : Nat} (hq : 0 < own q) : q ≠ 0 :=
  (h.usable q (Nat.add_pos_right _ hq)).ne_zero

/-- Pages that are counted apart are different. -/
theorem Sound.disjoint {extra : Nat → Nat} (h : Sound k m (own + extra)) {q : Nat}
    (hq : 0 < extra q) : own q = 0 := by
  have := h.once q
  rw [Pi.add_apply] at this
  omega

/-! ### Allocating and freeing -/

/-- A failing `kalloc` leaves memory as it is. -/
theorem kalloc_none (h : kalloc m = (none, m')) : m'.toHeap = m.toHeap := by
  unfold kalloc at h
  simp only at h
  split at h
  · cases h
    rfl
  · split at h
    · cases h
      rfl
    · cases h

/-- A page from `kalloc` is one that was free. -/
theorem kalloc_some {page : Nat} (h : kalloc m = (some page, m')) :
    m.free = page :: m'.free ∧ m'.cells = Function.update m.cells page (fun _ ↦ 5) := by
  unfold kalloc at h
  simp only at h
  split at h
  · cases h
  · next r next hfree =>
    split at h
    · cases h
    · cases h
      exact ⟨hfree, rfl⟩

theorem count_cons_one (p q : Nat) (l : List Nat) : (p :: l).count q = one p q + l.count q := by
  rw [List.count_cons, one, Nat.add_comm]
  simp only [beq_iff_eq, eq_comm (a := p)]

/-- The page from `kalloc` is the caller's now, with any contents. -/
theorem kalloc_moves {page : Nat} (h : kalloc m = (some page, m')) {w : Mem}
    (hfree : w.free = m'.free) (hcells : ∀ q, q ≠ page → w.cells q = m'.cells q)
    (own : Nat → Nat) : Moves m.toHeap w.toHeap own (own + one page) := by
  obtain ⟨hf, hc⟩ := kalloc_some h
  refine ⟨?_, ?_⟩
  · intro q
    rw [hfree, hf, count_cons_one, Pi.add_apply]
    omega
  · intro q hq _
    have hne : q ≠ page := by
      rintro rfl
      rw [hf, count_cons_one, one_self] at hq
      omega
    rw [hcells q hne, hc, Function.update_of_ne hne]

theorem kalloc_fresh {page : Nat} (h : kalloc m = (some page, m')) (hs : Sound k m own) :
    own page = 0 ∧ k.Usable page := by
  obtain ⟨hf, -⟩ := kalloc_some h
  have h1 := hs.once page
  rw [hf, count_cons_one, one_self] at h1
  refine ⟨by omega, hs.usable page ?_⟩
  rw [hf, count_cons_one, one_self]
  omega

/-- `kfree` gives a page of the caller back. -/
theorem kfree_spec {page : Nat} (hs : Sound k m (own + one page)) :
    Returns (kfree k m page) (fun m' ↦ Moves m.toHeap m'.toHeap (own + one page) own ∧
      ∀ q, q ≠ page → m'.cells q = m.cells q) := by
  have hu : k.Usable page := by
    apply hs.usable
    rw [Pi.add_apply, one_self]
    omega
  have hcells (q : Nat) (hq : q ≠ page) : (m.fill page 1).cells q = m.cells q :=
    Function.update_of_ne hq ..
  rw [kfree, if_pos hu]
  refine Returns.ok ⟨⟨?_, ?_⟩, hcells⟩
  · intro q
    change (page :: m.free).count q + own q = _
    rw [count_cons_one, Pi.add_apply]
    omega
  · intro q _ hq
    apply hcells
    rintro rfl
    rw [Pi.add_apply, one_self] at hq
    omega

/-! ### The walk -/

theorem walkLoop_succ (m : Mem) (va : Nat) (alloc : Bool) (l pt : Nat) :
    walkLoop m va alloc (l + 1) pt =
      let i := digit (l + 1) (va / PGSIZE)
      if Valid (Ram.pte m.cells pt i) then
        walkLoop m va alloc l (PTE2PA (Ram.pte m.cells pt i))
      else if alloc then
        match kalloc m with
        | (none, m) => (none, m)
        | (some page, m) =>
          walkLoop ((m.fill page 0).setPte pt i (mkPte page PTE_V)) va alloc l page
      else (none, m) := by
  have hdigit : PX (l + 1) va = digit (l + 1) (va / PGSIZE) := PX_eq ..
  have hpte (page : Nat) : PA2PTE page ||| PTE_V = mkPte page PTE_V := PA2PTE_or (by decide)
  simp only [← hdigit, ← hpte]
  rfl

/-- `walk` without allocation only looks. -/
theorem walkLoop_false (m : Mem) (va l pt : Nat) :
    walkLoop m va false l pt = (slot m.cells l pt (va / PGSIZE), m) := by
  induction l generalizing pt with
  | zero => rw [walkLoop, slot, PX_eq, digit]
  | succ l ih =>
    rw [walkLoop_succ, slot]
    by_cases hv : Valid (Ram.pte m.cells pt (digit (l + 1) (va / PGSIZE)))
    · simp only [hv, if_true, ih]
    · simp only [hv, if_false, Bool.false_eq_true]

/-- What `walk` guarantees about the table below a page of level `l`. -/
structure Walked (m : Mem) (l pt v : Nat) (r : Option (Nat × Nat) × Mem) : Prop where
  moves : Moves m.toHeap r.2.toHeap (tables m.cells l pt) (tables r.2.cells l pt)
  table : Table r.2.cells l pt
  entries : ∀ u, entry r.2.cells l pt u = entry m.cells l pt u
  slot : ∀ loc, r.1 = some loc → slot r.2.cells l pt v = some loc

/-- A walk below an entry, seen from the page above. -/
theorem Walked.up {l pt v : Nat} {r : Option (Nat × Nat) × Mem} (ht : Table m.cells (l + 1) pt)
    (hs : Sound k m (tables m.cells (l + 1) pt))
    (hv : Valid (Ram.pte m.cells pt (digit (l + 1) v)))
    (h : Walked m l (PTE2PA (Ram.pte m.cells pt (digit (l + 1) v))) v r) :
    Walked m (l + 1) pt v r := by
  have hd := digit_lt (l + 1) v
  have hown (q : Nat) := tables_child (l := l) hd hv q
  -- pages of the table that are not below this entry are not touched
  have hkeep {q : Nat} (hq : 0 < tables m.cells (l + 1) pt q)
      (hb : tables m.cells l (PTE2PA (Ram.pte m.cells pt (digit (l + 1) v))) q = 0) :
      r.2.cells q = m.cells q := by
    have := hs.once q
    exact h.moves.cells q (by omega) hb
  have hpt : r.2.cells pt = m.cells pt := by
    have h1 := hown pt
    have h2 := hs.le_one pt
    rw [one_self] at h1
    exact hkeep (tables_self _ _ _) (by omega)
  obtain ⟨hpages, htable, hentry, hslot⟩ := child_change (l := l) r.2.cells hd hv hpt (by
    intro j hj hjd hvj q hq
    have h1 := tables_children (l := l) hj hd hjd hvj hv q
    have h2 := hs.le_one q
    exact hkeep (by omega) (by omega))
  refine ⟨⟨?_, ?_⟩, htable ht h.table, ?_, ?_⟩
  · intro q
    have h1 := h.moves.count q
    have h2 := hpages q
    omega
  · intro q hfree hq
    have := hown q
    exact h.moves.cells q hfree (by omega)
  · intro u
    rw [hentry]
    split
    · next hu =>
      rw [h.entries, entry, hu, if_pos hv]
    · rfl
  · intro loc hloc
    rw [hslot, if_pos rfl]
    exact h.slot loc hloc

/-- The loop of `walk` keeps every entry and adds only pages from the free list. -/
theorem walkLoop_spec (va : Nat) (alloc : Bool) {l pt : Nat} (ht : Table m.cells l pt)
    (hs : Sound k m (tables m.cells l pt)) :
    Walked m l pt (va / PGSIZE) (walkLoop m va alloc l pt) := by
  induction l generalizing m pt with
  | zero =>
    refine ⟨Moves.refl _ _, ht, fun _ ↦ rfl, ?_⟩
    intro loc hloc
    rw [walkLoop, PX_eq] at hloc
    exact hloc
  | succ l ih =>
    have hd := digit_lt (l + 1) (va / PGSIZE)
    -- a walk on through an entry that is valid
    have hdown {m : Mem} (ht : Table m.cells (l + 1) pt)
        (hs : Sound k m (tables m.cells (l + 1) pt))
        (hv : Valid (Ram.pte m.cells pt (digit (l + 1) (va / PGSIZE)))) :
        Walked m (l + 1) pt (va / PGSIZE) (walkLoop m va alloc l
          (PTE2PA (Ram.pte m.cells pt (digit (l + 1) (va / PGSIZE))))) := by
      apply Walked.up ht hs hv
      apply ih (ht _ hd hv).2
      apply hs.mono
      intro q
      have := tables_child (l := l) hd hv q
      omega
    rw [walkLoop_succ]
    simp only
    split
    · next hv => exact hdown ht hs hv
    · next hv =>
      split
      · split
        · next m₁ hk =>
          have hm := kalloc_none hk
          have hcells : m₁.cells = m.cells := congrArg Heap.cells hm
          refine ⟨?_, ?_, ?_, ?_⟩
          · rw [hm]
            exact Moves.refl _ _
          · rw [hcells]
            exact ht
          · intro u
            rw [hcells]
          · intro loc hloc
            cases hloc
        · next page m₁ hk =>
          obtain ⟨hfresh, hu⟩ := kalloc_fresh hk hs
          obtain ⟨-, hcells⟩ := kalloc_some hk
          have hlt : page < 2 ^ 52 := Nat.lt_trans hu.lt (by decide)
          let m₂ := (m₁.fill page 0).setPte pt (digit (l + 1) (va / PGSIZE)) (mkPte page PTE_V)
          have hm₂ : m₂.cells = Ram.setPte (Function.update m.cells page (fun _ ↦ 0)) pt
              (digit (l + 1) (va / PGSIZE)) (mkPte page PTE_V) := by
            change Ram.setPte (Function.update m₁.cells page (fun _ ↦ 0)) _ _ _ = _
            rw [hcells, Function.update_idem]
          obtain ⟨hself, hpages, htable, hentry⟩ :=
            new_child (l := l) hd hv hs.le_one hfresh hlt hm₂
          have hmoves : Moves m.toHeap m₂.toHeap (tables m.cells (l + 1) pt)
              (tables m₂.cells (l + 1) pt) := by
            have hown : tables m₂.cells (l + 1) pt = tables m.cells (l + 1) pt + one page :=
              funext hpages
            refine ⟨?_, ?_⟩
            · rw [hown]
              exact (kalloc_moves hk (w := m₁) rfl (fun _ _ ↦ rfl) _).count
            · intro q hfree hq
              have hne : q ≠ page := by
                rintro rfl
                rw [(kalloc_some hk).1, count_cons_one, one_self] at hfree
                omega
              have hpt : q ≠ pt := by
                rintro rfl
                have := tables_self m.cells (l + 1) q
                omega
              rw [hm₂, Ram.setPte_of_ne hpt, Function.update_of_ne hne]
          have hvalid : Valid (Ram.pte m₂.cells pt (digit (l + 1) (va / PGSIZE))) := by
            rw [hself, Valid, mkPte_and (by decide) (by decide)]
            decide
          have hw := hdown (htable ht) (hs.moves hmoves) hvalid
          rw [hself, PTE2PA_mkPte (by decide) hlt] at hw
          exact ⟨hmoves.trans hw.moves, hw.table, fun u ↦ (hw.entries u).trans (hentry u), hw.slot⟩
      · exact ⟨Moves.refl _ _, ht, fun _ ↦ rfl, (by intro loc hloc; cases hloc)⟩

end

end Xv6.Vm
