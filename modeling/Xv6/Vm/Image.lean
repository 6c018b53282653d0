import Xv6.Vm.Copyout
import Xv6.Vm.Exec
import Xv6.Vm.Space

/-!
# The memory of a process

The page table that `proc_pagetable` makes, with the trampoline and the trapframe at its top, and
the new image that `exec` builds in it. Whatever fails on the way, what was allocated goes back to
the free list.
-/

namespace Xv6.Vm

open Xv6.Lib

/-- What `proc_pagetable` puts at the top: the trampoline and the trapframe, not for the user. -/
def topEntries (k : Kernel) (trapframe : Nat) : Nat → Nat :=
  Function.update (Function.update 0 (TOP + 1) (mkPte k.trampoline (PTE_R ||| PTE_X ||| PTE_V)))
    TOP (mkPte trapframe (PTE_R ||| PTE_W ||| PTE_V))

section
variable {k : Kernel} {m m' : Mem} {pt n : Nat} {top : Nat → Nat}

theorem Kernel.trampoline_lt (k : Kernel) : k.trampoline < 2 ^ 20 := by
  have h1 := k.text
  have h2 := k.below
  unfold PHYSTOP KERNBASE PGSIZE at *
  omega

/-- Mapping a page of the kernel at the top. -/
theorem mapTop_spec {v page perm : Nat} (h : Layout m.cells pt n top)
    (hs : Sound k m (space m.cells pt n)) (hlo : TOP ≤ v) (hhi : v < NPAGES)
    (hfree : ¬ Valid (top v)) (hpage : page < 2 ^ 52) (hperm : perm < 1024) :
    Returns (mappages m pt (v * PGSIZE) PGSIZE page perm) (fun r ↦
      Moves m.toHeap r.2.toHeap (space m.cells pt n) (space r.2.cells pt n) ∧
      Layout r.2.cells pt n
        (if r.1 = true then Function.update top v (mkPte page (perm ||| PTE_V)) else top)) := by
  have hN : NPAGES = TOP + 2 := rfl
  have hsize := h.size
  have hno : ¬ Valid (entry m.cells 2 pt v) := by
    rw [h.top v hlo (by omega)]
    exact hfree
  apply (mappages_page hperm hhi hpage h.table hs.left hno).mono
  rintro ⟨ok, m'⟩ ⟨hmoves, htable, hentries⟩
  simp only at hmoves htable hentries ⊢
  have hother (u : Nat) (hu : u < TOP) : entry m'.cells 2 pt u = entry m.cells 2 pt u := by
    rw [hentries u (by omega), if_neg (by omega)]
  have husers : users m'.cells pt 0 n = users m.cells pt 0 n :=
    users_congr (fun u _ hu ↦ hother u (by omega))
  refine ⟨?_, htable, hsize, ?_, ?_, ?_⟩
  · refine (hmoves.add (users m.cells pt 0 n)).congr rfl ?_
    rw [space, husers]
  · intro u hu
    rw [hother u (by omega)]
    exact h.leaf u hu
  · intro u hlo' hu
    rw [hother u hu]
    exact h.gap u hlo' hu
  · intro u hlo' hu
    rw [hentries u hu, h.top u hlo' hu]
    cases ok with
    | false => simp only [Bool.false_eq_true, false_and, if_false]
    | true =>
      simp only [true_and, if_true]
      rw [Function.update_apply]

/-- Unmapping a page of the kernel at the top. -/
theorem unmapTop_spec {v : Nat} (h : Layout m.cells pt n top) (hs : Sound k m (space m.cells pt n))
    (hlo : TOP ≤ v) (hhi : v < NPAGES) (hleaf : Leaf (top v)) :
    Returns (uvmunmap k m pt (v * PGSIZE) 1 false) (fun m' ↦
      Moves m.toHeap m'.toHeap (space m.cells pt n) (space m'.cells pt n) ∧
      Layout m'.cells pt n (Function.update top v 0)) := by
  have hN : NPAGES = TOP + 2 := rfl
  have hsize := h.size
  have hs' : Sound k m (tables m.cells 2 pt + freedIf false (users m.cells pt v 1)) :=
    hs.left.congr (add_zero _)
  apply (uvmunmap_spec false (by omega) h.table hs' ?_).mono
  · intro m' hun
    have hother (u : Nat) (hu : u < TOP) : entry m'.cells 2 pt u = entry m.cells 2 pt u := by
      rw [hun.entries u (by omega), if_neg (by omega)]
    have husers : users m'.cells pt 0 n = users m.cells pt 0 n :=
      users_congr (fun u _ hu ↦ hother u (by omega))
    have hmoves : Moves m.toHeap m'.toHeap (tables m.cells 2 pt) (tables m'.cells 2 pt) :=
      hun.moves.congr (add_zero _).symm rfl
    refine ⟨?_, hun.table, hsize, ?_, ?_, ?_⟩
    · refine (hmoves.add (users m.cells pt 0 n)).congr rfl ?_
      rw [space, husers]
    · intro u hu
      rw [hother u (by omega)]
      exact h.leaf u hu
    · intro u hlo' hu
      rw [hother u hu]
      exact h.gap u hlo' hu
    · intro u hlo' hu
      rw [hun.entries u hu, Function.update_apply, h.top u hlo' hu]
      by_cases huv : u = v
      · rw [if_pos huv, if_pos (by omega)]
      · rw [if_neg huv, if_neg (by omega)]
  · intro u hlo' hu
    have : u = v := by omega
    rw [this, h.top v hlo (by omega)]
    exact hleaf

/-! ### `proc_pagetable` -/

theorem trampoline_leaf (k : Kernel) : Leaf (mkPte k.trampoline (PTE_R ||| PTE_X ||| PTE_V)) :=
  mkPte_leaf (by decide) (by decide) (by decide)

theorem trapframe_leaf (tf : Nat) : Leaf (mkPte tf (PTE_R ||| PTE_W ||| PTE_V)) :=
  mkPte_leaf (by decide) (by decide) (by decide)

theorem topEntries_trapframe (k : Kernel) (tf : Nat) :
    topEntries k tf TOP = mkPte tf (PTE_R ||| PTE_W ||| PTE_V) := Function.update_self ..

theorem topEntries_trampoline (k : Kernel) (tf : Nat) :
    topEntries k tf (TOP + 1) = mkPte k.trampoline (PTE_R ||| PTE_X ||| PTE_V) := by
  rw [topEntries, Function.update_of_ne (Nat.succ_ne_self TOP), Function.update_self]

/-- `proc_freepagetable` gives back all pages of the address space. -/
theorem procFreepagetable_spec {tf sz : Nat}
    (h : Layout m.cells pt (pages sz) (topEntries k tf))
    (hs : Sound k m (space m.cells pt (pages sz))) :
    Returns (procFreepagetable k m pt sz) (fun m' ↦
      Moves m.toHeap m'.toHeap (space m.cells pt (pages sz)) 0) := by
  have hN : NPAGES = TOP + 2 := rfl
  rw [procFreepagetable, TRAMPOLINE_eq, TRAPFRAME_eq]
  have hleaf : Leaf (topEntries k tf (TOP + 1)) := by
    rw [topEntries_trampoline]
    exact trampoline_leaf k
  apply (unmapTop_spec h hs (by omega) (by omega) hleaf).bind
  rintro m₁ ⟨hm₁, hl₁⟩
  have hs₁ := hs.moves hm₁
  have hleaf₁ : Leaf (Function.update (topEntries k tf) (TOP + 1) 0 TOP) := by
    rw [Function.update_of_ne (Nat.succ_ne_self TOP).symm, topEntries_trapframe]
    exact trapframe_leaf tf
  apply (unmapTop_spec hl₁ hs₁ (Nat.le_refl _) (by omega) hleaf₁).bind
  rintro m₂ ⟨hm₂, hl₂⟩
  have hempty : Function.update (Function.update (topEntries k tf) (TOP + 1) 0) TOP 0 = 0 := by
    funext v
    simp only [Function.update_apply, topEntries, Pi.zero_apply]
    split
    · rfl
    · split <;> rfl
  rw [hempty] at hl₂
  apply (uvmfree_spec _ hl₂ (hs₁.moves hm₂)).mono
  intro m' hm'
  exact (hm₁.trans hm₂).trans hm'

/-- The new table maps nothing. -/
theorem uvmcreate_layout (hs : Sound k m 0) (hc : uvmcreate m = (some pt, m')) :
    Layout m'.cells pt 0 0 ∧ Moves m.toHeap m'.toHeap 0 (space m'.cells pt 0) := by
  obtain ⟨hm, htable, -, hentries, -⟩ := uvmcreate_spec hs hc
  rw [zero_add, ← space_zero] at hm
  refine ⟨⟨htable, Nat.zero_le _, fun v hv ↦ absurd hv (Nat.not_lt_zero v), ?_, ?_⟩, hm⟩
  · intro v _ _
    rw [hentries]
    exact not_valid_zero
  · intro v _ _
    exact hentries v

/-- `proc_pagetable` makes an address space without user pages, or gives everything back. -/
theorem procPagetable_spec {tf : Nat} (hs : Sound k m 0) (htf : tf < 2 ^ 52) :
    Returns (procPagetable k m tf) (fun r ↦
      match r.1 with
      | none => Moves m.toHeap r.2.toHeap 0 0
      | some pt => Layout r.2.cells pt 0 (topEntries k tf) ∧
          Moves m.toHeap r.2.toHeap 0 (space r.2.cells pt 0)) := by
  have hN : NPAGES = TOP + 2 := rfl
  rw [procPagetable]
  split
  · next m₁ hc =>
    refine Returns.ok ?_
    simp only
    rw [uvmcreate_none hc]
    exact Moves.refl _ _
  · next pt m₁ hc =>
    obtain ⟨hl₁, hm₁⟩ := uvmcreate_layout hs hc
    have hs₁ := hs.moves hm₁
    -- the table is freed again, with nothing mapped
    have hfree {m₂ : Mem} (hm₂ : Moves m.toHeap m₂.toHeap 0 (space m₂.cells pt 0))
        (hl₂ : Layout m₂.cells pt 0 0) :
        Returns (uvmfree k m₂ pt 0 >>= fun m ↦ (.ok (none, m) : Except String (Option Nat × Mem)))
          (fun r ↦ match r.1 with
            | none => Moves m.toHeap r.2.toHeap 0 0
            | some pt => Layout r.2.cells pt 0 (topEntries k tf) ∧
                Moves m.toHeap r.2.toHeap 0 (space r.2.cells pt 0)) := by
      have hzero : pages 0 = 0 := rfl
      have hspec := uvmfree_spec 0 (by rwa [hzero]) (by rw [hzero]; exact hs.moves hm₂)
      apply hspec.bind
      intro m₃ hm₃
      rw [hzero] at hm₃
      exact Returns.ok (hm₂.trans hm₃)
    rw [TRAMPOLINE_eq, TRAPFRAME_eq]
    have htramp := Nat.lt_trans k.trampoline_lt (by decide : 2 ^ 20 < 2 ^ 52)
    apply (mapTop_spec hl₁ hs₁ (Nat.le_succ TOP) (by omega) not_valid_zero htramp (by decide)).bind
    rintro ⟨ok, m₂⟩ ⟨hm₂, hl₂⟩
    have hm₂ := hm₁.trans hm₂
    cases ok with
    | false => exact hfree hm₂ hl₂
    | true =>
      simp only [if_true] at hl₂ ⊢
      have hs₂ := hs.moves hm₂
      have hno : ¬ Valid (Function.update (0 : Nat → Nat) (TOP + 1)
          (mkPte k.trampoline (PTE_R ||| PTE_X ||| PTE_V)) TOP) := by
        rw [Function.update_of_ne (Nat.succ_ne_self TOP).symm]
        exact not_valid_zero
      apply (mapTop_spec hl₂ hs₂ (Nat.le_refl TOP) (by omega) hno htf (by decide)).bind
      rintro ⟨ok, m₃⟩ ⟨hm₃, hl₃⟩
      have hm₃ := hm₂.trans hm₃
      cases ok with
      | true => exact Returns.ok ⟨hl₃, hm₃⟩
      | false =>
        simp only [Bool.false_eq_true, if_false] at hl₃ ⊢
        have hleaf : Leaf (Function.update (0 : Nat → Nat) (TOP + 1)
            (mkPte k.trampoline (PTE_R ||| PTE_X ||| PTE_V)) (TOP + 1)) := by
          rw [Function.update_self]
          exact trampoline_leaf k
        apply (unmapTop_spec hl₃ (hs.moves hm₃) (Nat.le_succ TOP) (by omega) hleaf).bind
        rintro m₄ ⟨hm₄, hl₄⟩
        have hempty : Function.update (Function.update (0 : Nat → Nat) (TOP + 1)
            (mkPte k.trampoline (PTE_R ||| PTE_X ||| PTE_V))) (TOP + 1) 0 = 0 := by
          rw [Function.update_idem]
          exact Function.update_eq_self (TOP + 1) (0 : Nat → Nat)
        rw [hempty] at hl₄
        exact hfree (hm₃.trans hm₄) hl₄

/-! ### Stores to user pages -/

/-- A store into a user page is not one into the table. -/
theorem sameTable_write {v : Nat} (hs : Sound k m (space m.cells pt n)) (hv : v < n) (off : Nat)
    (bs : List UInt8) :
    SameTable m.cells (m.write (PTE2PA (entry m.cells 2 pt v)) off bs).cells 2 pt := by
  have hpos := users_pos m.cells pt hv
  apply SameTable.of_cells
  intro q hq
  apply write_other
  rintro rfl
  have := hs.once (PTE2PA (entry m.cells 2 pt v))
  rw [space, Pi.add_apply] at this
  omega

/-- A store into a user page. -/
theorem Resized.write {v : Nat} (h : Layout m.cells pt n top) (hs : Sound k m (space m.cells pt n))
    (hv : v < n) (off : Nat) (bs : List UInt8) (flags : Nat → Nat) :
    Resized m (m.write (PTE2PA (entry m.cells 2 pt v)) off bs) pt n n top flags := by
  have hpos := users_pos m.cells pt hv
  have hsame := sameTable_write hs hv off bs
  refine ⟨hsame.layout h, ?_, fun u _ _ ↦ hsame.entries u,
    fun _ hlo hhi ↦ absurd hlo (Nat.not_le.mpr hhi)⟩
  rw [hsame.space]
  refine Moves.store rfl ?_
  intro q hq
  apply write_other
  rintro rfl
  rw [space, Pi.add_apply] at hq
  omega

/-- Only the first `n` pages are for the user. -/
theorem Layout.user_lt {tf v : Nat} (h : Layout m.cells pt n (topEntries k tf)) (hlt : v < NPAGES)
    (hvalid : Valid (entry m.cells 2 pt v)) (huser : entry m.cells 2 pt v &&& PTE_U ≠ 0) :
    v < n := by
  apply Classical.byContradiction
  intro hn
  have hN : NPAGES = TOP + 2 := rfl
  by_cases htop : v < TOP
  · exact h.gap v (by omega) htop hvalid
  · rw [h.top v (by omega) (by omega)] at huser
    have : v = TOP ∨ v = TOP + 1 := by omega
    rcases this with htf | htr
    · rw [htf, topEntries_trapframe, mkPte_and (by decide) (by decide)] at huser
      exact huser (by decide)
    · rw [htr, topEntries_trampoline, mkPte_and (by decide) (by decide)] at huser
      exact huser (by decide)

/-- Only user pages can be reached through `walkaddr`. -/
theorem Layout.walkaddr {tf va : Nat} (h : Layout m.cells pt n (topEntries k tf))
    (hne : walkaddr m pt va ≠ 0) :
    ∃ v < n, walkaddr m pt va = PTE2PA (entry m.cells 2 pt v) := by
  rw [walkaddr_eq, userPage_eq] at hne ⊢
  split at hne
  · next hcond =>
    obtain ⟨hlt, hvalid, huser⟩ := hcond
    exact ⟨va / PGSIZE, h.user_lt hlt hvalid huser, by rw [if_pos ⟨hlt, hvalid, huser⟩]; rfl⟩
  · exact (hne rfl).elim

/-- `copyout` stores to user pages only. -/
theorem copyoutLoop_resized {tf fuel dstva : Nat} {src : List UInt8}
    (h : Layout m.cells pt n (topEntries k tf)) (hs : Sound k m (space m.cells pt n))
    (flags : Nat → Nat) :
    Resized m (copyoutLoop pt fuel m dstva src).2 pt n n (topEntries k tf) flags := by
  induction fuel generalizing m dstva src with
  | zero => exact Resized.refl h flags
  | succ fuel ih =>
    rw [copyoutLoop]
    split
    · exact Resized.refl h flags
    · simp only
      split
      · exact Resized.refl h flags
      · next hne =>
        obtain ⟨v, hv, hpage⟩ := h.walkaddr hne
        have hw := Resized.write h hs hv (dstva - PGROUNDDOWN dstva)
          (src.take (min (PGSIZE - (dstva - PGROUNDDOWN dstva)) src.length)) flags
        rw [hpage]
        exact hw.trans (ih hw.layout (hs.moves hw.moves)) (Or.inl (Nat.le_refl n))

theorem copyout_resized {tf : Nat} (dstva : Nat) (src : List UInt8)
    (h : Layout m.cells pt n (topEntries k tf)) (hs : Sound k m (space m.cells pt n))
    (flags : Nat → Nat) :
    Resized m (copyout m pt dstva src).2 pt n n (topEntries k tf) flags :=
  copyoutLoop_resized h hs flags

/-! ### User pages -/

/-- The first `n` pages are for the user. -/
def UserPages (c : Ram) (pt n : Nat) : Prop := ∀ v < n, entry c 2 pt v &&& PTE_U ≠ 0

theorem userFlags_user (xperm : Nat) : userFlags xperm &&& PTE_U ≠ 0 := by
  intro hzero
  have hbit : (userFlags xperm &&& PTE_U).testBit 4 = true := by
    have hU : PTE_U.testBit 4 = true := by decide
    simp only [userFlags, Nat.testBit_or, Nat.testBit_and, hU, Bool.true_or, Bool.or_true,
      Bool.and_true]
  rw [hzero, Nat.zero_testBit] at hbit
  cases hbit

theorem Resized.userPages {n' xperm : Nat} (h : Resized m m' pt n n' top (fun _ ↦ userFlags xperm))
    (hu : UserPages m.cells pt n) : UserPages m'.cells pt n' := by
  intro v hv
  by_cases hn : v < n
  · rw [h.kept v hn hv]
    exact hu v hn
  · rw [and_flags _ (by decide), ← PTE_FLAGS_eq, h.added v (by omega) hv]
    exact userFlags_user xperm

/-! ### The stack -/

theorem Leaf.clear {pte : Nat} (h : Leaf pte) : Leaf (pte &&& (2 ^ 64 - 1 - PTE_U)) := by
  have hvalid : (2 ^ 64 - 1 - PTE_U) &&& PTE_V = PTE_V := by decide
  have hperm :
      (2 ^ 64 - 1 - PTE_U) &&& (PTE_R ||| PTE_W ||| PTE_X) = PTE_R ||| PTE_W ||| PTE_X := by
    decide
  refine ⟨?_, ?_⟩
  · rw [Valid, Nat.and_assoc, hvalid]
    exact h.1
  · rw [Nat.and_assoc, hperm]
    exact h.2

/-- What `uvmclear` of a user page did: the page is not for the user any more. -/
structure Cleared (m m' : Mem) (pt n : Nat) (top : Nat → Nat) (v : Nat) : Prop where
  layout : Layout m'.cells pt n top
  moves : Moves m.toHeap m'.toHeap (space m.cells pt n) (space m'.cells pt n)
  guard : entry m'.cells 2 pt v &&& PTE_U = 0
  kept : ∀ u < n, u ≠ v → entry m'.cells 2 pt u = entry m.cells 2 pt u
  same : ∀ va < n * PGSIZE, image m'.cells pt va = image m.cells pt va

theorem clear_user (pte : Nat) : pte &&& (2 ^ 64 - 1 - PTE_U) &&& PTE_U = 0 := by
  have hzero : (2 ^ 64 - 1 - PTE_U) &&& PTE_U = 0 := by decide
  rw [Nat.and_assoc, hzero, Nat.and_zero]

/-- `uvmclear` of a user page. -/
theorem uvmclear_layout {v : Nat} (h : Layout m.cells pt n top)
    (hs : Sound k m (space m.cells pt n)) (hv : v < n) :
    Returns (uvmclear m pt (v * PGSIZE)) (fun m' ↦ Cleared m m' pt n top v) := by
  have hN : NPAGES = TOP + 2 := rfl
  have hsize := h.size
  have hleaf := h.leaf v hv
  apply (uvmclear_spec (by omega) h.table hs.left.le_one hleaf.1).mono
  intro m' hst
  have hpage (u : Nat) (hu : u < n) :
      PTE2PA (entry m'.cells 2 pt u) = PTE2PA (entry m.cells 2 pt u) := by
    rw [hst.entries u (by omega)]
    split
    · next huv => rw [huv, clear_page]
    · rfl
  have husers : users m'.cells pt 0 n = users m.cells pt 0 n := by
    funext q
    have hmap : mapped m'.cells pt 0 n = mapped m.cells pt 0 n := by
      apply List.map_congr_left
      intro u hu
      obtain ⟨-, hhi⟩ := List.mem_range'_1.mp hu
      exact hpage u (by omega)
    rw [users, users, hmap]
  refine ⟨⟨hst.table, hsize, ?_, ?_, ?_⟩, ?_, ?_, ?_, ?_⟩
  · intro u hu
    rw [hst.entries u (by omega)]
    split
    · exact hleaf.clear
    · exact h.leaf u hu
  · intro u hlo hhi
    rw [hst.entries u (by omega), if_neg (by omega)]
    exact h.gap u hlo hhi
  · intro u hlo hhi
    rw [hst.entries u hhi, if_neg (by omega)]
    exact h.top u hlo hhi
  · refine (hst.moves (users m.cells pt 0 n)).congr rfl ?_
    rw [space, husers]
  · rw [hst.entries v (by omega), if_pos rfl]
    exact clear_user _
  · intro u hu huv
    rw [hst.entries u (by omega), if_neg huv]
  · intro va hva
    have hu := page_of_lt hva
    rw [image, image, hpage _ hu, hst.cells]
    apply hs.disjoint
    exact users_pos m.cells pt hu

theorem pushArgs_resized {tf : Nat} (stackbase sp : Nat) (argv ustack : List Nat)
    (h : Layout m.cells pt n (topEntries k tf)) (hs : Sound k m (space m.cells pt n))
    (flags : Nat → Nat) :
    Resized m (pushArgs pt stackbase argv m sp ustack).2 pt n n (topEntries k tf) flags := by
  induction argv generalizing m sp ustack with
  | nil =>
    rw [pushArgs]
    exact Resized.refl h flags
  | cons arg argv ih =>
    rw [pushArgs]
    simp only
    split
    · exact Resized.refl h flags
    · split
      · exact Resized.refl h flags
      · have hout := copyout_resized (pushSp sp ((cstring m arg).length + 1))
          (cstring m arg ++ [0]) h hs flags
        split
        · next hc =>
          rw [hc] at hout
          exact hout
        · next hc =>
          rw [hc] at hout
          exact hout.trans (ih _ _ hout.layout (hs.moves hout.moves)) (Or.inl (Nat.le_refl n))

theorem pushStack_resized {tf : Nat} (stackbase sp : Nat) (argv : List Nat)
    (h : Layout m.cells pt n (topEntries k tf)) (hs : Sound k m (space m.cells pt n))
    (flags : Nat → Nat) :
    Resized m (pushStack m pt stackbase sp argv).2 pt n n (topEntries k tf) flags := by
  have hargs := pushArgs_resized stackbase sp argv [] h hs flags
  rw [pushStack]
  split
  · next hp =>
    rw [hp] at hargs
    exact hargs
  · next sp' ustack m₁ hp =>
    rw [hp] at hargs
    simp only
    split
    · exact hargs
    · have hout := copyout_resized (pushSp sp' ((ustack.length + 1) * 8))
        (words (ustack ++ [0])) hargs.layout (hs.moves hargs.moves) flags
      split
      · next hc =>
        rw [hc] at hout
        exact hargs.trans hout (Or.inl (Nat.le_refl n))
      · next hc =>
        rw [hc] at hout
        exact hargs.trans hout (Or.inl (Nat.le_refl n))

end

end Xv6.Vm
