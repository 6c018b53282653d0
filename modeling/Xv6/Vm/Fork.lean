import Xv6.Vm.Process

/-!
# Copies of processes

`fork` (`kernel/proc.c:280`) makes a child with the parent's memory, registers, descriptors and
directory, in pages that nobody used, or fails and leaves everything as it was. What the parent and
the child store afterwards stays with the one that stored it.
-/

namespace Xv6.Vm

open Xv6.Lib

/-- The pages of a process have the same contents in `m'` as in `m`. -/
def Untouched (m m' : Mem) (pr : Proc) : Prop :=
  ∀ q, 0 < pr.hold m.cells q → m'.cells q = m.cells q

section
variable {k : Kernel} {m m' m₁ : Mem} {pr pr' : Proc} {own own' : Nat → Nat}

theorem Untouched.table (h : Untouched m m' pr) : SameTable m.cells m'.cells 2 pr.pagetable := by
  apply SameTable.of_cells
  intro q hq
  apply h
  simp only [Proc.hold, space, Pi.add_apply]
  omega

theorem Untouched.user (h : Untouched m m' pr) {v : Nat} (hv : v < pages pr.sz) :
    m'.cells (PTE2PA (entry m.cells 2 pr.pagetable v)) =
      m.cells (PTE2PA (entry m.cells 2 pr.pagetable v)) := by
  apply h
  have := users_pos m.cells pr.pagetable hv
  simp only [Proc.hold, space, Pi.add_apply]
  omega

theorem Untouched.image (h : Untouched m m' pr) {va : Nat} (hva : va < pages pr.sz * PGSIZE) :
    image m'.cells pr.pagetable va = image m.cells pr.pagetable va :=
  image_congr (h.table.entries _) (h.user (page_of_lt hva))

theorem Untouched.hold (h : Untouched m m' pr) : pr.hold m'.cells = pr.hold m.cells :=
  Proc.hold_congr h.table

theorem Untouched.trapframe (h : Untouched m m' pr) :
    m'.cells pr.trapframe = m.cells pr.trapframe := by
  apply h
  rw [Proc.hold, Pi.add_apply, one_self]
  omega

/-- What is done with other pages leaves a process alone. -/
theorem Moves.untouched (hm : Moves m.toHeap m'.toHeap own own')
    (hs : Sound k m (own + pr.hold m.cells)) : Untouched m m' pr :=
  fun _ hq ↦ hm.cells_of_pos hs.once hq

theorem Untouched.shape (h : Untouched m m' pr) (hshape : Shape k m pr)
    (hs : Sound k m' (pr.hold m.cells)) : Shape k m' pr :=
  hshape.same h.table hs

/-! ### Registers -/

/-- A load of a word depends on its eight bytes. -/
theorem Ram.pte_of_bytes {c c' : Ram} {p p' i : Nat}
    (h : ∀ j < 8, c' p' (8 * i + j) = c p (8 * i + j)) :
    Ram.pte c' p' i = Ram.pte c p i := by
  apply readLE_congr
  intro o hlo hhi
  have := h (o - 8 * i) (by omega)
  rw [Nat.add_sub_of_le hlo] at this
  exact this

/-- The registers in the copy of a trapframe. -/
theorem copyRegs_pte {dst src i : Nat} (hi : i < regCount) :
    Ram.pte (m.copyRegs dst src).cells dst i = Ram.pte m.cells src i := by
  apply Ram.pte_of_bytes
  intro j hj
  have hlt : 8 * i + j < 8 * regCount := by omega
  rw [Mem.copyRegs, write_byte, if_pos (Nat.zero_le _), Nat.sub_zero, List.getD_eq_getElem?_getD,
    Mem.read, List.getElem?_map, List.getElem?_range hlt, Option.map_some, Option.getD_some,
    Nat.zero_add]

theorem copyRegs_other {dst src q : Nat} (h : q ≠ dst) : (m.copyRegs dst src).cells q = m.cells q :=
  write_other h 0 _

/-! ### Descriptors -/

/-- How many of the descriptors refer to a file. -/
def refsTo (ofile : Fin NOFILE → Option (Fin NFILE)) (fds : List (Fin NOFILE)) (f : Fin NFILE) :
    Nat :=
  fds.countP (fun fd ↦ ofile fd = some f)

/-- The file table with one reference more for each descriptor. -/
def dupped (files : Fin NFILE → File) (ofile : Fin NOFILE → Option (Fin NFILE))
    (fds : List (Fin NOFILE)) : Fin NFILE → File :=
  fun f ↦ { files f with ref := (files f).ref + refsTo ofile fds f }

theorem dupped_none {files : Fin NFILE → File} {fd : Fin NOFILE} {fds : List (Fin NOFILE)}
    (h : pr.ofile fd = none) : dupped files pr.ofile (fd :: fds) = dupped files pr.ofile fds := by
  funext f
  rw [dupped, dupped, refsTo, refsTo, List.countP_cons_of_neg]
  rw [h]
  exact (fun h ↦ nomatch h)

theorem dupped_some {files : Fin NFILE → File} {fd : Fin NOFILE} {fds : List (Fin NOFILE)}
    {f : Fin NFILE} (h : pr.ofile fd = some f) :
    dupped (Function.update files f { files f with ref := (files f).ref + 1 }) pr.ofile fds =
      dupped files pr.ofile (fd :: fds) := by
  funext f'
  rw [dupped, dupped, refsTo, refsTo, List.countP_cons]
  by_cases hf : f' = f
  · rw [hf, Function.update_self, h, if_pos (decide_eq_true rfl)]
    simp only [File.mk.injEq, and_true]
    omega
  · have hne : ¬ decide (pr.ofile fd = some f') = true := by
      rw [h, decide_eq_true_eq]
      exact fun he ↦ hf (Option.some.inj he).symm
    rw [Function.update_of_ne hf, if_neg hne, Nat.add_zero]

theorem dupFiles_eq {s : State} {fds : List (Fin NOFILE)}
    (h : ∀ fd f, pr.ofile fd = some f → 1 ≤ (s.files f).ref) :
    dupFiles s pr fds = .ok { s with files := dupped s.files pr.ofile fds } := by
  induction fds generalizing s with
  | nil => rfl
  | cons fd fds ih =>
    rw [dupFiles]
    cases hfd : pr.ofile fd with
    | none => rw [ih h, dupped_none hfd]
    | some f =>
      have hpos := h fd f hfd
      have hup : filedup s f = .ok (s.setFile f { s.files f with ref := (s.files f).ref + 1 }) := by
        rw [filedup, if_neg (by omega)]
      dsimp only
      rw [hup]
      show dupFiles (s.setFile f { s.files f with ref := (s.files f).ref + 1 }) pr fds = _
      rw [ih, State.setFile, dupped_some hfd]
      intro fd' f' hfd'
      have hold := h fd' f' hfd'
      by_cases hf : f' = f
      · rw [State.setFile_files, hf, Function.update_self]
        exact Nat.le_add_left 1 _
      · rw [State.setFile_files, Function.update_of_ne hf]
        exact hold

end

/-! ### Stores -/

section
variable {k : Kernel} {m m' : Mem}

/-- A store of the program goes through the entry of its page. -/
theorem userStore_eq (m : Mem) (pt va : Nat) (b : UInt8) :
    userStore m pt va b =
      if va < MAXVA ∧ Valid (entry m.cells 2 pt (va / PGSIZE)) ∧
          entry m.cells 2 pt (va / PGSIZE) &&& PTE_U ≠ 0 ∧
          entry m.cells 2 pt (va / PGSIZE) &&& PTE_W ≠ 0
      then some (m.write (PTE2PA (entry m.cells 2 pt (va / PGSIZE))) (va % PGSIZE) [b])
      else none := by
  rw [userStore, walkLoop_false]
  by_cases hva : MAXVA ≤ va
  · rw [if_pos hva, if_neg (fun h ↦ absurd h.1 (Nat.not_lt.mpr hva))]
  · rw [if_neg hva]
    cases hs : slot m.cells 2 pt (va / PGSIZE) with
    | none => rw [entry_of_slot_none hs, if_neg (fun h ↦ not_valid_zero h.2.1)]
    | some loc =>
      rw [entry_slot hs]
      simp only [Nat.not_le.mp hva, true_and]

/-- A store of a process changes one of its user pages. -/
theorem Shape.userStore {pr : Proc} {va : Nat} {b : UInt8} (h : Shape k m pr)
    (hm' : userStore m pr.pagetable va b = some m') :
    m' = m.write (PTE2PA (entry m.cells 2 pr.pagetable (va / PGSIZE))) (va % PGSIZE) [b] ∧
      SameTable m.cells m'.cells 2 pr.pagetable ∧ Shape k m' pr ∧
      Moves m.toHeap m'.toHeap (pr.hold m.cells) (pr.hold m'.cells) := by
  rw [userStore_eq] at hm'
  split at hm'
  · next hc =>
    have hlt : va / PGSIZE < NPAGES := by
      rw [Nat.div_lt_iff_lt_mul (by decide), NPAGES_mul]
      exact hc.1
    have hv := h.layout.user_lt hlt hc.2.1 hc.2.2.1
    have hm' := Option.some.inj hm'
    have hw := Resized.write h.layout h.sound.left hv (va % PGSIZE) [b] 0
    have hsame := sameTable_write h.sound.left hv (va % PGSIZE) [b]
    rw [hm'] at hw hsame
    have hmoves : Moves m.toHeap m'.toHeap (pr.hold m.cells) (pr.hold m'.cells) :=
      hw.moves.add (one pr.trapframe)
    exact ⟨hm'.symm, hsame, ⟨hw.layout, h.sound.moves hmoves⟩, hmoves⟩
  · cases hm'

/-- Stores of two processes, one after the other; one that the hardware refuses changes nothing. -/
def storeRun (prs : Bool → Proc) : List (Bool × Nat × UInt8) → Mem → Mem
  | [], m => m
  | (c, va, b) :: ws, m => storeRun prs ws ((userStore m (prs c).pagetable va b).getD m)

/-- Two processes with pages of their own. -/
structure Apart (k : Kernel) (m : Mem) (prs : Bool → Proc) : Prop where
  shape : ∀ c, Shape k m (prs c)
  sound : ∀ c, Sound k m ((prs c).hold m.cells + (prs !c).hold m.cells)

/-- A store of one process is none of the other. -/
theorem Apart.store {prs : Bool → Proc} {c : Bool} {va : Nat} {b : UInt8} (h : Apart k m prs)
    (hm' : userStore m (prs c).pagetable va b = some m') :
    Apart k m' prs ∧ Untouched m m' (prs !c) := by
  obtain ⟨-, -, hshape, hmoves⟩ := (h.shape c).userStore hm'
  have hun : Untouched m m' (prs !c) := Moves.untouched hmoves (h.sound c)
  have hs := (h.sound c).moves (hmoves.add ((prs !c).hold m.cells))
  have hother := hun.shape (h.shape !c) hs.right
  rw [← hun.hold] at hs
  refine ⟨⟨?_, ?_⟩, hun⟩
  · intro d
    by_cases hd : d = c
    · rw [hd]
      exact hshape
    · rw [Bool.eq_not.mpr hd]
      exact hother
  · intro d
    by_cases hd : d = c
    · rw [hd]
      exact hs
    · rw [Bool.eq_not.mpr hd, Bool.not_not, add_comm]
      exact hs

/-- A store of a process whose pages are the same in two memories. -/
theorem Untouched.store {m₂ : Mem} {pr : Proc} {va : Nat} {b : UInt8} (hun : Untouched m m₂ pr)
    (h : Shape k m pr) : Untouched ((userStore m pr.pagetable va b).getD m)
      ((userStore m₂ pr.pagetable va b).getD m₂) pr := by
  have hentry := hun.table.entries (va / PGSIZE)
  cases hm' : Vm.userStore m pr.pagetable va b with
  | none =>
    have hnone : Vm.userStore m₂ pr.pagetable va b = none := by
      rw [userStore_eq] at hm' ⊢
      rw [hentry]
      split at hm'
      · cases hm'
      · next hc => exact if_neg hc
    rw [hnone]
    exact hun
  | some m' =>
    have hsome : Vm.userStore m₂ pr.pagetable va b =
        some (m₂.write (PTE2PA (entry m.cells 2 pr.pagetable (va / PGSIZE))) (va % PGSIZE)
          [b]) := by
      rw [userStore_eq] at hm' ⊢
      rw [hentry]
      split at hm'
      · next hc => exact if_pos hc
      · cases hm'
    obtain ⟨heq, hsame, -, -⟩ := h.userStore hm'
    rw [hsome]
    intro q hq
    rw [Option.getD_some, Proc.hold_congr hsame] at hq
    have hold := hun q hq
    rw [Option.getD_some, Option.getD_some, heq]
    by_cases hpage : q = PTE2PA (entry m.cells 2 pr.pagetable (va / PGSIZE))
    · rw [hpage] at hold ⊢
      funext o
      rw [write_byte, write_byte, hold]
    · rw [write_other hpage, write_other hpage, hold]

/-- What a process finds in its memory after stores of both is what it finds after its own. -/
theorem storeRun_isolated {m₂ : Mem} {prs : Bool → Proc} {c : Bool} (h : Apart k m prs)
    (hun : Untouched m m₂ (prs c)) (ws : List (Bool × Nat × UInt8)) :
    Untouched (storeRun prs ws m) (storeRun prs (ws.filter (fun w ↦ w.1 = c)) m₂) (prs c) := by
  induction ws generalizing m m₂ with
  | nil => exact hun
  | cons w ws ih =>
    obtain ⟨d, va, b⟩ := w
    have hnext : Apart k ((userStore m (prs d).pagetable va b).getD m) prs := by
      cases hm' : userStore m (prs d).pagetable va b with
      | none => exact h
      | some m' => exact (h.store hm').1
    rw [storeRun]
    by_cases hd : d = c
    · rw [List.filter_cons, if_pos (decide_eq_true hd), storeRun]
      apply ih hnext
      rw [hd]
      exact hun.store (h.shape c)
    · rw [List.filter_cons, if_neg (fun he ↦ hd (of_decide_eq_true he))]
      apply ih hnext
      cases hm' : userStore m (prs d).pagetable va b with
      | none => exact hun
      | some m' =>
        have hother := (h.store hm').2
        have hc : c = !d := Bool.eq_not.mpr (fun he ↦ hd he.symm)
        rw [← hc] at hother
        intro q hq
        rw [Option.getD_some] at hq ⊢
        rw [hother.hold] at hq
        rw [hother q hq, hun q hq]

end

/-! ### `fork` -/

/-- The process in slot `q` is a copy of the one in slot `p`, in pages that were free. -/
structure Forked (k : Kernel) (s s' : State) (p q : Slot) (pid : Nat) : Prop where
  slot : (s.procs q).state = .UNUSED
  others : ∀ o, o ≠ q → s'.procs o = s.procs o
  state : (s'.procs q).state = .RUNNABLE
  pid : (s'.procs q).pid = pid
  parent : (s'.procs q).parent = some p
  sz : (s'.procs q).sz = (s.procs p).sz
  layout : Layout s'.mem.cells (s'.procs q).pagetable (pages (s.procs p).sz)
    (topEntries k (s'.procs q).trapframe)
  flags : ∀ v < pages (s.procs p).sz, PTE_FLAGS (entry s'.mem.cells 2 (s'.procs q).pagetable v) =
    PTE_FLAGS (entry s.mem.cells 2 (s.procs p).pagetable v)
  bytes : ∀ va < pages (s.procs p).sz * PGSIZE, image s'.mem.cells (s'.procs q).pagetable va =
    image s.mem.cells (s.procs p).pagetable va
  fresh : ∀ page, 0 < (s'.procs q).hold s'.mem.cells page → page ∈ s.mem.free
  regs : ∀ i < regCount, Ram.pte s'.mem.cells (s'.procs q).trapframe i =
    if i = regA0 then 0 else Ram.pte s.mem.cells (s.procs p).trapframe i
  ofile : (s'.procs q).ofile = (s.procs p).ofile
  files : ∀ f, s'.files f = { s.files f with
    ref := (s.files f).ref + refsTo (s.procs p).ofile (List.finRange NOFILE) f }
  cwd : (s'.procs q).cwd = (s.procs p).cwd
  inodes : ∀ ip, s'.inodes.ref ip = s.inodes.ref ip + if (s.procs p).cwd = some ip then 1 else 0
  used : ∀ page, page ∉ s.mem.free → s'.mem.cells page = s.mem.cells page
  kept : ∀ va < pages (s.procs p).sz * PGSIZE, image s'.mem.cells (s.procs p).pagetable va =
    image s.mem.cells (s.procs p).pagetable va
  isolated : ∀ c ws, ∀ va < pages (s.procs p).sz * PGSIZE,
    let prs := fun child : Bool ↦ if child then s'.procs q else s'.procs p
    image (storeRun prs ws s'.mem).cells (prs c).pagetable va =
      image (storeRun prs (ws.filter (fun w ↦ w.1 = c)) s'.mem).cells (prs c).pagetable va

/-- Nothing came of a `fork`, and its slot is free. -/
structure ForkFailed (s s' : State) : Prop where
  procs : s'.procs = s.procs ∨
    ∃ q, (s.procs q).state = .UNUSED ∧ s'.procs = Function.update s.procs q (s.procs q).freed
  files : s'.files = s.files
  pipes : s'.pipes = s.pipes
  inodes : s'.inodes = s.inodes
  free : s'.mem.free.Perm s.mem.free
  used : ∀ page, page ∉ s.mem.free → s'.mem.cells page = s.mem.cells page

/-- The child: a copy of the parent in the slot that `allocproc` filled. -/
def Proc.child (np pr : Proc) (p : Slot) : Proc :=
  { np with
    sz := pr.sz, trace_mask := pr.trace_mask, ofile := pr.ofile, cwd := pr.cwd, name := pr.name,
    parent := some p, state := .RUNNABLE }

section
variable {k : Kernel} {m m₁ m₂ : Mem} {pr np : Proc}

/-- The memory of the child after `uvmcopy`, in terms of the memory before `fork`. -/
theorem fork_grown (h : Shape k m pr) (hnp : Shape k m₁ np) (hsz : np.sz = 0)
    (hm₁ : Moves m.toHeap m₁.toHeap 0 (np.hold m₁.cells)) :
    Returns (uvmcopy k m₁ pr.pagetable np.pagetable pr.sz) (fun r ↦
      Grown m₁ r.2 np.pagetable 0 (if r.1 = true then pages pr.sz else 0)
      (topEntries k np.trapframe)
        (fun v ↦ PTE_FLAGS (entry m.cells 2 pr.pagetable v)) (image m.cells pr.pagetable)) := by
  have hs : Sound k m (0 + pr.hold m.cells) := by
    rw [zero_add]
    exact h.sound
  have hun : Untouched m m₁ pr := Moves.untouched hm₁ hs
  have hs₁ := hs.moves (hm₁.add (pr.hold m.cells))
  have hold := hun.table
  obtain ⟨hl, -⟩ := hnp.of_cleared hsz
  have hsound : Sound k m₁ (space m₁.cells np.pagetable 0 +
      space m₁.cells pr.pagetable (pages pr.sz)) := by
    rw [hold.space]
    apply hs₁.mono
    intro q
    rw [Proc.hold, Proc.hold, hsz, pages_zero]
    simp only [Pi.add_apply]
    omega
  apply (uvmcopy_spec (hold.layout h.layout) hl hsound).mono
  rintro ⟨ok, m₂⟩ hgrown
  apply hgrown.congr
  · intro v _ _
    rw [hold.entries]
  · intro va _ hva
    apply hun.image
    cases ok with
    | true => exact hva
    | false =>
      have hzero : va < 0 * PGSIZE := hva
      omega

/-- The child's pages, when only user pages were added to those that `allocproc` made. -/
theorem fork_moves {n : Nat} {flags : Nat → Nat} {fill : Nat → UInt8} {sz : Nat}
    (hnp : np.sz = 0) (hn : pages sz = n)
    (hgrown : Grown m₁ m₂ np.pagetable 0 n (topEntries k np.trapframe) flags fill) :
    Moves m₁.toHeap m₂.toHeap (np.hold m₁.cells) (Proc.hold m₂.cells { np with sz := sz }) := by
  rw [Proc.hold, Proc.hold, hnp, pages_zero, hn]
  exact hgrown.moves.add (one np.trapframe)

theorem mem_of_moves {own : Nat → Nat} (hm : Moves m.toHeap m₁.toHeap 0 own) {q : Nat}
    (hq : 0 < own q) :
    q ∈ m.free := by
  have := hm.count q
  rw [Pi.zero_apply] at this
  exact List.count_pos_iff.mp (by omega)

theorem cells_of_moves {own : Nat → Nat} (hm : Moves m.toHeap m₁.toHeap 0 own) {q : Nat}
    (hq : q ∉ m.free) : m₁.cells q = m.cells q :=
  hm.cells q (List.count_eq_zero.mpr hq) rfl

/-- What the child's memory and registers are, and what is left of the old memory. -/
structure ChildMem (k : Kernel) (m m' : Mem) (pr np : Proc) : Prop where
  shape : Shape k m' np
  moves : Moves m.toHeap m'.toHeap 0 (np.hold m'.cells)
  flags : ∀ v < pages pr.sz, PTE_FLAGS (entry m'.cells 2 np.pagetable v) =
    PTE_FLAGS (entry m.cells 2 pr.pagetable v)
  bytes : ∀ va < pages pr.sz * PGSIZE, image m'.cells np.pagetable va =
    image m.cells pr.pagetable va
  regs : ∀ i < regCount, Ram.pte m'.cells np.trapframe i =
    if i = regA0 then 0 else Ram.pte m.cells pr.trapframe i

/-- The memory of the child when its registers are copied too. -/
theorem fork_child (h : Shape k m pr) (hsz : np.sz = 0)
    (hm₁ : Moves m.toHeap m₁.toHeap 0 (np.hold m₁.cells))
    (hgrown : Grown m₁ m₂ np.pagetable 0 (pages pr.sz) (topEntries k np.trapframe)
      (fun v ↦ PTE_FLAGS (entry m.cells 2 pr.pagetable v)) (image m.cells pr.pagetable))
    (p : Slot) :
    ChildMem k m ((m₂.copyRegs np.trapframe pr.trapframe).setReg np.trapframe regA0 0) pr
      (np.child pr p) := by
  have hs : Sound k m 0 := h.sound.mono (fun _ ↦ Nat.zero_le _)
  have hm₂ : Moves m.toHeap m₂.toHeap 0 ((np.child pr p).hold m₂.cells) :=
    hm₁.trans (fork_moves hsz rfl hgrown)
  have hshape₂ : Shape k m₂ (np.child pr p) := ⟨hgrown.layout, hs.moves hm₂⟩
  have hregs : TrapframeStored m₂
      ((m₂.copyRegs np.trapframe pr.trapframe).setReg np.trapframe regA0 0) (np.child pr p) := by
    have hcopy : TrapframeStored m₂ (m₂.copyRegs np.trapframe pr.trapframe) (np.child pr p) :=
      ⟨rfl, fun q hq ↦ copyRegs_other hq⟩
    exact hcopy.trans (trapframeStored_setReg _ (np.child pr p) regA0 0)
  refine ⟨hregs.shape hshape₂, hm₂.trans (hregs.moves hshape₂), ?_, ?_, ?_⟩
  · intro v hv
    have hentry := (hregs.table hshape₂).entries v
    have hflags := hgrown.added v (Nat.zero_le v) hv
    rw [← hflags]
    exact congrArg PTE_FLAGS hentry
  · intro va hva
    have himage := hregs.image hshape₂ (show va < pages (np.child pr p).sz * PGSIZE from hva)
    rw [← hgrown.filled va (by omega) hva]
    exact himage
  · intro i hi
    have hold : m₂.cells pr.trapframe = m.cells pr.trapframe := by
      have hun : Untouched m m₂ pr := Moves.untouched hm₂ (h.sound.congr (zero_add _))
      exact hun.trapframe
    show Ram.pte (Ram.setPte (m₂.copyRegs np.trapframe pr.trapframe).cells np.trapframe regA0 0)
      np.trapframe i = _
    by_cases ha : i = regA0
    · rw [if_pos ha, ha, Ram.pte_setPte_self (by decide)]
    · rw [if_neg ha, Ram.pte_setPte_of_ne ha, copyRegs_pte hi, Ram.pte_congr hold]

end

theorem freeSlot_some {s : State} {q : Slot} (h : freeSlot s = some q) :
    (s.procs q).state = .UNUSED := by
  have hq := List.find?_some h
  exact of_decide_eq_true hq

/-- Parent and child have no page in common. -/
theorem ChildMem.apart {k : Kernel} {m m' : Mem} {pr np : Proc} (hc : ChildMem k m m' pr np)
    (h : Shape k m pr) : Apart k m' (fun child ↦ if child then np else pr) := by
  have hs : Sound k m (0 + pr.hold m.cells) := h.sound.congr (zero_add _)
  have hun : Untouched m m' pr := Moves.untouched hc.moves hs
  have hs' := hs.moves (hc.moves.add (pr.hold m.cells))
  have hpr := hun.shape h hs'.right
  rw [← hun.hold] at hs'
  refine ⟨?_, ?_⟩
  · intro c
    cases c with
    | true => exact hc.shape
    | false => exact hpr
  · intro c
    cases c with
    | true => exact hs'
    | false => exact hs'.congr (add_comm _ _)

/-- The state after a `fork` that made the child `np` in slot `q`. -/
def State.forked (s : State) (p q : Slot) (np : Proc) (m : Mem) (ip : Nat) : State :=
  { s with
    mem := m, procs := Function.update s.procs q (np.child (s.procs p) p), nextpid := s.nextpid + 1,
    files := dupped s.files (s.procs p).ofile (List.finRange NOFILE), inodes := s.inodes.iget ip }

theorem Forked.of_childMem {k : Kernel} {s : State} {p q : Slot} {np : Proc} {m' : Mem} {ip : Nat}
    (h : Shape k s.mem (s.procs p)) (hne : p ≠ q) (hunused : (s.procs q).state = .UNUSED)
    (hip : (s.procs p).cwd = some ip)
    (hc : ChildMem k s.mem m' (s.procs p) (np.child (s.procs p) p)) :
    Forked k s (s.forked p q np m' ip) p q np.pid := by
  have hproc : (s.forked p q np m' ip).procs q = np.child (s.procs p) p := Function.update_self ..
  have hparent : (s.forked p q np m' ip).procs p = s.procs p := Function.update_of_ne hne ..
  refine ⟨hunused, fun o ho ↦ Function.update_of_ne ho .., ?_, ?_, ?_, ?_, ?_, ?_, ?_, ?_, ?_, ?_,
    fun _ ↦ rfl, ?_, ?_, fun _ ↦ cells_of_moves hc.moves, ?_, ?_⟩
  · rw [hproc]
    rfl
  · rw [hproc]
    rfl
  · rw [hproc]
    rfl
  · rw [hproc]
    rfl
  · rw [hproc]
    exact hc.shape.layout
  · rw [hproc]
    exact hc.flags
  · rw [hproc]
    exact hc.bytes
  · rw [hproc]
    exact fun page ↦ mem_of_moves hc.moves
  · rw [hproc]
    exact hc.regs
  · rw [hproc]
    rfl
  · rw [hproc]
    rfl
  · intro i
    rw [hip]
    show Function.update s.inodes.ref ip (s.inodes.ref ip + 1) i = _
    rw [Function.update_apply]
    by_cases hi : i = ip
    · rw [if_pos hi, if_pos (congrArg some hi.symm), hi]
    · rw [if_neg hi, if_neg (fun he ↦ hi (Option.some.inj he).symm), Nat.add_zero]
  · intro va hva
    have hun : Untouched s.mem m' (s.procs p) :=
      Moves.untouched hc.moves (h.sound.congr (zero_add _))
    exact hun.image hva
  · rw [hproc, hparent]
    intro c ws va hva
    have hrun := storeRun_isolated (hc.apart h) (fun _ _ ↦ rfl : Untouched m' m' _) ws (c := c)
    apply (hrun.image ?_).symm
    cases c with
    | true => exact hva
    | false => exact hva

/-- The ways `fork` can end: with a child in a slot that was free, or without and nothing
allocated. -/
inductive ForkCases (k : Kernel) (s : State) (p : Slot) : Option Nat × State → Prop
  | child (q : Slot) (np : Proc) (m : Mem) (ip : Nat) (hq : (s.procs q).state = .UNUSED)
      (hip : (s.procs p).cwd = some ip)
      (hc : ChildMem k s.mem m (s.procs p) (np.child (s.procs p) p)) :
      ForkCases k s p (some np.pid, s.forked p q np m ip)
  | full : ForkCases k s p (none, s)
  | failed (q : Slot) (m : Mem) (hq : (s.procs q).state = .UNUSED)
      (hm : Moves s.mem.toHeap m.toHeap 0 0) :
      ForkCases k s p
        (none, { s.setProc q (s.procs q).freed with mem := m, nextpid := s.nextpid + 1 })

/-- `fork` of a process whose memory has its shape. -/
theorem fork_cases {k : Kernel} {s : State} {p : Slot} (h : Shape k s.mem (s.procs p))
    (hslots : ∀ q, (s.procs q).state = .UNUSED → (s.procs q).Cleared)
    (hfiles : ∀ fd f, (s.procs p).ofile fd = some f → 1 ≤ (s.files f).ref)
    (hcwd : (s.procs p).cwd ≠ none) : Returns (fork k s p) (ForkCases k s p) := by
  have hs : Sound k s.mem 0 := h.sound.mono (fun _ ↦ Nat.zero_le _)
  rw [fork]
  dsimp only
  cases hslot : freeSlot s with
  | none => exact Returns.ok .full
  | some q =>
    have hunused := freeSlot_some hslot
    dsimp only
    apply (allocproc_spec hs (hslots q hunused)).bind
    rintro ⟨ok, np, m₁⟩ hr
    cases ok with
    | false =>
      obtain ⟨hnp, hm₁⟩ := hr
      dsimp only at hnp
      subst hnp
      exact Returns.pure (.failed q m₁ hunused hm₁)
    | true =>
      obtain ⟨tf, pt, hnp, hshape, hm₁⟩ := hr
      dsimp only at hnp hshape hm₁ ⊢
      rw [if_pos rfl]
      have hsz : np.sz = 0 := by
        rw [hnp]
        exact (hslots q hunused).sz
      apply (fork_grown h hshape hsz hm₁).bind
      rintro ⟨ok, m₂⟩ hgrown
      cases ok with
      | false =>
        have hgrown : Grown m₁ m₂ np.pagetable 0 0 (topEntries k np.trapframe) _ _ := hgrown
        have hm₂ := hm₁.trans (fork_moves hsz pages_zero hgrown)
        have hshape₂ : Shape k m₂ { np with sz := 0 } := by
          refine ⟨?_, hs.moves hm₂⟩
          rw [pages_zero]
          exact hgrown.layout
        have hnp' : { np with sz := 0 } = np := by
          rw [← hsz]
        rw [hnp'] at hshape₂ hm₂
        apply (freeproc_spec hshape₂).bind
        intro m₃ hm₃
        have hfreed : np.freed = (s.procs q).freed := by
          rw [hnp]
          rfl
        rw [hfreed]
        exact Returns.pure (.failed q m₃ hunused (hm₂.trans hm₃))
      | true =>
        have hgrown : Grown m₁ m₂ np.pagetable 0 (pages (s.procs p).sz) (topEntries k np.trapframe)
          (fun v ↦ PTE_FLAGS (entry s.mem.cells 2 (s.procs p).pagetable v))
          (image s.mem.cells (s.procs p).pagetable) := hgrown
        obtain ⟨ip, hip⟩ := Option.ne_none_iff_exists'.mp hcwd
        have hdup (m' : Mem) : dupFiles { s with mem := m', nextpid := s.nextpid + 1 } (s.procs p)
            (List.finRange NOFILE) = .ok { s with
              mem := m', nextpid := s.nextpid + 1,
              files := dupped s.files (s.procs p).ofile (List.finRange NOFILE) } :=
                dupFiles_eq hfiles
        -- the slot had no open files of its own
        have hofile : (fun fd ↦ ((s.procs p).ofile fd).or (np.ofile fd)) = (s.procs p).ofile := by
          funext fd
          have hnone : np.ofile fd = none := by
            rw [hnp]
            exact (hslots q hunused).ofile fd
          rw [hnone, Option.or_none]
        simp only [if_true, hip, hofile]
        rw [hdup]
        have hchild := ForkCases.child q np _ ip hunused hip (fork_child h hsz hm₁ hgrown p)
        rw [State.forked, Proc.child, hip] at hchild
        exact Returns.pure hchild

/-- `fork` of a process whose memory has its shape makes a child that is a copy in pages of its own,
or changes nothing. -/
theorem fork_copies {k : Kernel} {s : State} {p : Slot} (h : Shape k s.mem (s.procs p))
    (hp : (s.procs p).state ≠ .UNUSED)
    (hslots : ∀ q, (s.procs q).state = .UNUSED → (s.procs q).Cleared)
    (hfiles : ∀ fd f, (s.procs p).ofile fd = some f → 1 ≤ (s.files f).ref)
    (hcwd : (s.procs p).cwd ≠ none) :
    Returns (fork k s p) (fun r ↦
      match r.1 with
      | some pid => ∃ q, Forked k s r.2 p q pid
      | none => ForkFailed s r.2) := by
  apply (fork_cases h hslots hfiles hcwd).mono
  intro r hr
  cases hr with
  | child q np m ip hq hip hc =>
    have hne : p ≠ q := fun he ↦ hp (he ▸ hq)
    exact ⟨q, Forked.of_childMem h hne hq hip hc⟩
  | full => exact ⟨Or.inl rfl, rfl, rfl, rfl, List.Perm.refl _, fun _ _ ↦ rfl⟩
  | failed q m hq hm =>
    refine ⟨Or.inr ⟨q, hq, rfl⟩, rfl, rfl, rfl, ?_, fun _ ↦ cells_of_moves hm⟩
    rw [List.perm_iff_count]
    exact hm.count

/-- `fork` makes a child when there is a slot, and memory for the process and a copy of its
pages. -/
theorem fork_ok {k : Kernel} {s : State} {p : Slot} {r : Option Nat × State} (hs : Sound k s.mem 0)
    (hf : s.mem.fails = []) (hn : 4 + 3 * pages (s.procs p).sz ≤ s.mem.free.length)
    (hslot : freeSlot s ≠ none) (hfork : fork k s p = .ok r) : ∃ pid, r.1 = some pid := by
  obtain ⟨q, hq⟩ := Option.ne_none_iff_exists'.mp hslot
  rw [fork] at hfork
  dsimp only at hfork
  rw [hq] at hfork
  obtain ⟨⟨ok, np, m₁⟩, halloc, hfork⟩ := bind_ok hfork
  obtain ⟨hok, hf₁, hn₁⟩ := allocproc_ok hs hf (by omega) halloc
  dsimp only at hok hf₁ hn₁ hfork
  rw [hok, if_pos rfl] at hfork
  obtain ⟨⟨ok, m₂⟩, hcopy, hfork⟩ := bind_ok hfork
  rw [uvmcopy, ← Nat.zero_mul PGSIZE] at hcopy
  have hpages : 3 * pages (s.procs p).sz ≤ m₁.free.length := by omega
  obtain ⟨hok, -, -⟩ := uvmcopyLoop_ok hf₁ hpages hcopy
  dsimp only at hok hfork
  rw [hok, if_pos rfl] at hfork
  obtain ⟨s', -, hfork⟩ := bind_ok hfork
  split at hfork
  · cases hfork
  · cases hfork
    exact ⟨_, rfl⟩

/-- The first process forks, and has a child. -/
theorem fork_copies_first : ∃ s pid s' q,
    userinit builtKernel (beforeUserinit builtKernel 0) = .ok s ∧
    fork builtKernel (s.failing []) initSlot = .ok (some pid, s') ∧
    Forked builtKernel (s.failing []) s' initSlot q pid := by
  obtain ⟨s, hs, hshape, hsz, hfirst⟩ := builtKernel_userinit
  have hshape : Shape builtKernel (s.failing []).mem ((s.failing []).procs initSlot) :=
    hshape.heap rfl
  have hrun : ((s.failing []).procs initSlot).state ≠ .UNUSED := by
    change (s.procs initSlot).state ≠ .UNUSED
    rw [hfirst.state]
    exact fun h ↦ nomatch h
  have hfiles : ∀ fd f, ((s.failing []).procs initSlot).ofile fd = some f →
      1 ≤ ((s.failing []).files f).ref := by
    intro fd f hf
    change (s.procs initSlot).ofile fd = some f at hf
    rw [hfirst.ofile] at hf
    cases hf
  have hcwd : ((s.failing []).procs initSlot).cwd ≠ none := by
    change (s.procs initSlot).cwd ≠ none
    rw [hfirst.cwd]
    exact fun h ↦ nomatch h
  obtain ⟨⟨r, s'⟩, hfork, hr⟩ := fork_copies hshape hrun hfirst.slots hfiles hcwd
  have hslot : freeSlot (s.failing []) ≠ none := by
    intro hnone
    have hone := List.find?_eq_none.mp hnone 1 (List.mem_finRange 1)
    exact hone (decide_eq_true (hfirst.others 1 (by decide)))
  have hfree : 4 + 3 * pages (s.procs initSlot).sz ≤ s.mem.free.length := by
    rw [hsz, pages_one]
    have := hfirst.free
    omega
  have hsound : Sound builtKernel (s.failing []).mem 0 := hshape.sound.mono (fun _ ↦ Nat.zero_le _)
  obtain ⟨pid, hpid⟩ := fork_ok hsound rfl hfree hslot hfork
  dsimp only at hpid
  subst hpid
  obtain ⟨q, hq⟩ := hr
  exact ⟨s, pid, s', q, hs, hfork, hq⟩

end Xv6.Vm
