import Xv6.Vm.Program

/-!
# Who has which page

Every page that `kinit` freed is on the free list, or belongs to a process, to an open pipe or to
the kernel since boot, and to one of them only. A system call passes pages between the free list,
one process and the pipes; the pages of the other processes it leaves alone.
-/

namespace Xv6.Vm

open Xv6.Lib

/-- The slot holds a process. -/
def Proc.Live (pr : Proc) : Prop := pr.state ≠ .UNUSED

instance (pr : Proc) : Decidable pr.Live := inferInstanceAs (Decidable (_ ≠ _))

/-- The pages of a slot: none if it is not used. -/
def Proc.owns (c : Ram) (pr : Proc) : Nat → Nat := if pr.Live then pr.hold c else 0

/-- The pages of pipes with an open end. -/
def State.openPipes (s : State) : Nat → Nat :=
  fun q ↦ if (s.pipes q).readopen = true ∨ (s.pipes q).writeopen = true then 1 else 0

/-- How often a page is somewhere else than on the free list. -/
def State.owned (s : State) : Nat → Nat :=
  (∑ p, (s.procs p).owns s.mem.cells) + s.openPipes + fun q ↦ s.early.count q

/-- The memory of all processes has its shape, and every page of `kinit` is in one place. -/
structure MemOk (k : Kernel) (s : State) : Prop where
  layout : ∀ p, (s.procs p).Live → Layout s.mem.cells (s.procs p).pagetable (pages (s.procs p).sz)
    (topEntries k (s.procs p).trapframe)
  total : ∀ q, s.mem.free.count q + s.owned q = (kinit k).count q

/-- The two values of a slot have the same memory. -/
structure Proc.SameMemory (pr pr' : Proc) : Prop where
  live : pr'.Live ↔ pr.Live
  pagetable : pr'.pagetable = pr.pagetable
  sz : pr'.sz = pr.sz
  trapframe : pr'.trapframe = pr.trapframe

variable {k : Kernel} {s s' : State} {p : Slot} {pr pr' : Proc}

theorem Proc.SameMemory.refl (pr : Proc) : pr.SameMemory pr := ⟨Iff.rfl, rfl, rfl, rfl⟩

theorem Proc.owns_live {c : Ram} (h : pr.Live) : pr.owns c = pr.hold c := if_pos h

theorem Proc.owns_unused {c : Ram} (h : pr.state = .UNUSED) : pr.owns c = 0 :=
  if_neg (not_not.mpr h)

theorem Proc.SameMemory.owns (h : pr.SameMemory pr') (c : Ram) : pr'.owns c = pr.owns c := by
  have hhold : pr'.hold c = pr.hold c := by
    rw [Proc.hold, Proc.hold, h.pagetable, h.sz, h.trapframe]
  unfold Proc.owns
  rw [hhold]
  by_cases hlive : pr.Live
  · rw [if_pos hlive, if_pos (h.live.mpr hlive)]
  · rw [if_neg hlive, if_neg (mt h.live.mp hlive)]

/-! ### No page twice -/

theorem MemOk.sound (h : MemOk k s) : Sound k s.mem s.owned := by
  refine ⟨?_, ?_⟩
  · intro q
    rw [h.total]
    exact List.nodup_iff_count_le_one.mp (kinit_nodup k) q
  · intro q hq
    rw [h.total] at hq
    exact kinit_usable (List.count_pos_iff.mp hq)

theorem owns_le (s : State) (p : Slot) (q : Nat) : (s.procs p).owns s.mem.cells q ≤ s.owned q := by
  have hle := le_sum (fun o ↦ (s.procs o).owns s.mem.cells q) p
  simp only [State.owned, Pi.add_apply, Finset.sum_apply]
  omega

/-- The pages of a slot and of the pipes, and those of another slot. -/
theorem owns_add_le (s : State) {p o : Slot} (hne : o ≠ p) (q : Nat) :
    ((s.procs p).owns s.mem.cells + s.openPipes + (s.procs o).owns s.mem.cells) q ≤ s.owned q := by
  have hpair : ∑ x ∈ {p, o}, (s.procs x).owns s.mem.cells q ≤ ∑ x, (s.procs x).owns s.mem.cells q :=
    Finset.sum_le_sum_of_subset (Finset.subset_univ _)
  rw [Finset.sum_pair hne.symm] at hpair
  simp only [State.owned, Pi.add_apply, Finset.sum_apply]
  omega

theorem MemOk.shape (h : MemOk k s) (hp : (s.procs p).Live) : Shape k s.mem (s.procs p) := by
  refine ⟨h.layout p hp, h.sound.mono ?_⟩
  intro q
  have hle := owns_le s p q
  rw [Proc.owns_live hp] at hle
  exact hle

/-! ### One call -/

/-- What a call does to memory: it passes pages between the free list, slot `p` and the pipes. The
other slots keep their memory, and slot `p` has a table of its shape if it is in use. -/
structure Passes (k : Kernel) (s s' : State) (p : Slot) : Prop where
  moves : Moves s.mem.toHeap s'.mem.toHeap ((s.procs p).owns s.mem.cells + s.openPipes)
    ((s'.procs p).owns s'.mem.cells + s'.openPipes)
  layout : (s'.procs p).Live → Layout s'.mem.cells (s'.procs p).pagetable (pages (s'.procs p).sz)
    (topEntries k (s'.procs p).trapframe)
  others : ∀ o, o ≠ p → (s.procs o).SameMemory (s'.procs o)
  early : s'.early = s.early

/-- The pages of another slot are not touched. -/
theorem Passes.untouched (h : Passes k s s' p) (hm : MemOk k s) {o : Slot} (ho : o ≠ p)
    (hlive : (s.procs o).Live) : Untouched s.mem s'.mem (s.procs o) := by
  apply Moves.untouched (k := k) h.moves
  apply hm.sound.mono
  intro q
  have hle := owns_add_le s ho q
  rw [Proc.owns_live hlive] at hle
  exact hle

theorem Passes.owns (h : Passes k s s' p) (hm : MemOk k s) {o : Slot} (ho : o ≠ p) :
    (s'.procs o).owns s'.mem.cells = (s.procs o).owns s.mem.cells := by
  rw [(h.others o ho).owns]
  by_cases hlive : (s.procs o).Live
  · rw [Proc.owns_live hlive, Proc.owns_live hlive]
    exact (h.untouched hm ho hlive).hold
  · rw [Proc.owns, Proc.owns, if_neg hlive, if_neg hlive]

theorem Passes.memOk (h : Passes k s s' p) (hm : MemOk k s) : MemOk k s' := by
  refine ⟨?_, ?_⟩
  · intro o hlive
    by_cases ho : o = p
    · rw [ho] at hlive ⊢
      exact h.layout hlive
    · have hsame := h.others o ho
      have hlive' := hsame.live.mp hlive
      rw [hsame.pagetable, hsame.sz, hsame.trapframe]
      exact (h.untouched hm ho hlive').table.layout (hm.layout o hlive')
  · intro q
    have hcount := h.moves.count q
    have hsum := sum_add_of_eq_off p (fun o ho ↦ congrFun (h.owns hm ho) q)
    have htotal := hm.total q
    simp only [State.owned, Pi.add_apply, Finset.sum_apply, h.early] at hcount htotal ⊢
    omega

theorem openPipes_congr (h : s'.pipes = s.pipes) : s'.openPipes = s.openPipes := by
  unfold State.openPipes
  rw [h]

/-- A call in which slot `p` changes and the pipes do not. -/
theorem Passes.update (pr' : Proc) (hprocs : s'.procs = Function.update s.procs p pr')
    (hpipes : s'.pipes = s.pipes)
    (hearly : s'.early = s.early)
    (hm : Moves s.mem.toHeap s'.mem.toHeap ((s.procs p).owns s.mem.cells) (pr'.owns s'.mem.cells))
    (hl : pr'.Live →
      Layout s'.mem.cells pr'.pagetable (pages pr'.sz) (topEntries k pr'.trapframe)) :
    Passes k s s' p := by
  have hp : s'.procs p = pr' := by rw [hprocs, Function.update_self]
  refine ⟨?_, ?_, ?_, hearly⟩
  · rw [openPipes_congr hpipes, hp]
    exact hm.add s.openPipes
  · rw [hp]
    exact hl
  · intro o ho
    rw [hprocs, Function.update_of_ne ho]
    exact Proc.SameMemory.refl _

/-- A call in which the pages of all slots stay what they are, and `hm` says what happens to those
of the pipes. -/
theorem Passes.idle (h : MemOk k s) (hprocs : ∀ o, (s.procs o).SameMemory (s'.procs o))
    (hearly : s'.early = s.early) (hm : Moves s.mem.toHeap s'.mem.toHeap s.openPipes s'.openPipes)
    (p : Slot) : Passes k s s' p := by
  have hsame := hprocs p
  have hun : (s.procs p).Live → Untouched s.mem s'.mem (s.procs p) := by
    intro hlive
    apply Moves.untouched (k := k) hm
    apply h.sound.mono
    intro q
    have hle := le_sum (fun o ↦ (s.procs o).owns s.mem.cells q) p
    rw [Proc.owns_live hlive] at hle
    simp only [State.owned, Pi.add_apply, Finset.sum_apply]
    omega
  have howns : (s'.procs p).owns s'.mem.cells = (s.procs p).owns s.mem.cells := by
    rw [hsame.owns]
    by_cases hlive : (s.procs p).Live
    · rw [Proc.owns_live hlive, Proc.owns_live hlive, (hun hlive).hold]
    · rw [Proc.owns, Proc.owns, if_neg hlive, if_neg hlive]
  refine ⟨?_, ?_, fun o _ ↦ hprocs o, hearly⟩
  · rw [howns, add_comm, add_comm _ s'.openPipes]
    exact hm.add _
  · intro hlive
    have hlive' := hsame.live.mp hlive
    rw [hsame.pagetable, hsame.sz, hsame.trapframe]
    exact (hun hlive').table.layout (h.layout p hlive')

end Xv6.Vm
