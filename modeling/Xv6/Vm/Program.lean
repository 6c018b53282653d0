import Xv6.Vm.Copyinstr
import Xv6.Vm.Fork
import Xv6.Vm.Load

/-!
# Replacing the image of a process

`exec` (`kernel/exec.c:22`) builds an address space beside the old one and gives up the old one at
the very end. When it fails, at whatever point, it has given back what it took; when it succeeds,
the process has the new pages in place of the old ones.
-/

namespace Xv6.Vm

open Xv6.Lib

section
variable {k : Kernel} {m m' m₁ : Mem} {pt n : Nat} {top own own' : Nat → Nat} {pr : Proc}

/-! ### The stack -/

/-- `copyout` does not store below the page it starts on. -/
theorem copyoutLoop_above {tf fuel dstva : Nat} {src : List UInt8}
    (h : Layout m.cells pt n (topEntries k tf)) (hs : Sound k m (space m.cells pt n)) {va : Nat}
    (hva : va < n * PGSIZE) (hlt : va / PGSIZE < dstva / PGSIZE) :
    image (copyoutLoop pt fuel m dstva src).2.cells pt va = image m.cells pt va := by
  induction fuel generalizing m dstva src with
  | zero => rfl
  | succ fuel ih =>
    rw [copyoutLoop]
    dsimp only
    rw [walkaddr_page, sub_page]
    split
    · rfl
    · split
      · rfl
      · next hne =>
        have hacc := accessible_iff.mpr hne
        have hpage : walkaddr m pt dstva = PTE2PA (entry m.cells 2 pt (dstva / PGSIZE)) := by
          rw [walkaddr_eq, userPage_eq] at hne ⊢
          split
          · rfl
          · next hno =>
            rw [if_neg hno] at hne
            exact (hne rfl).elim
        have hv : dstva / PGSIZE < n := by
          rw [walkaddr_eq, userPage_eq] at hne
          split at hne
          · next hc => exact h.user_lt hc.1 hc.2.1 hc.2.2
          · exact (hne rfl).elim
        have hmod : dstva % PGSIZE < PGSIZE := Nat.mod_lt _ (by decide)
        have hlen : dstva % PGSIZE +
            (src.take (min (PGSIZE - dstva % PGSIZE) src.length)).length ≤ PGSIZE := by
          rw [List.length_take]
          omega
        rw [hpage, next_page hacc]
        have hw := Resized.write h hs hv (dstva % PGSIZE)
          (src.take (min (PGSIZE - dstva % PGSIZE) src.length)) 0
        rw [ih hw.layout (hs.moves hw.moves), image_write hs hv hlen hva, overlay, if_neg]
        · unfold PGSIZE at *
          omega
        · unfold nextPage PGSIZE at *
          omega

theorem copyout_above {tf dstva : Nat} {src : List UInt8} {r : Bool × Mem}
    (h : Layout m.cells pt n (topEntries k tf)) (hs : Sound k m (space m.cells pt n))
    (hr : copyout m pt dstva src = r) {va : Nat} (hva : va < n * PGSIZE)
    (hlt : va / PGSIZE < dstva / PGSIZE) : image r.2.cells pt va = image m.cells pt va := by
  rw [← hr]
  exact copyoutLoop_above h hs hva hlt

/-- The arguments go to the stack page, not below it. -/
theorem pushArgs_above {tf b : Nat} (sp : Nat) (argv ustack : List Nat)
    (h : Layout m.cells pt n (topEntries k tf)) (hs : Sound k m (space m.cells pt n)) {va : Nat}
    (hva : va < n * PGSIZE) (hlt : va / PGSIZE < b) :
    image (pushArgs pt (b * PGSIZE) argv m sp ustack).2.cells pt va = image m.cells pt va := by
  induction argv generalizing m sp ustack with
  | nil => rw [pushArgs]
  | cons arg argv ih =>
    rw [pushArgs]
    dsimp only
    split
    · rfl
    · split
      · rfl
      · next hsp =>
        have hpage : va / PGSIZE < pushSp sp ((cstring m arg).length + 1) / PGSIZE := by
          apply Nat.lt_of_lt_of_le hlt
          rw [Nat.le_div_iff_mul_le (by decide)]
          omega
        have hout := copyout_resized (pushSp sp ((cstring m arg).length + 1))
          (cstring m arg ++ [0]) h hs 0
        split
        · next hc => exact copyout_above h hs hc hva hpage
        · next hc =>
          have habove := copyout_above h hs hc hva hpage
          rw [hc] at hout
          rw [ih _ _ hout.layout (hs.moves hout.moves)]
          exact habove

theorem pushStack_above {tf b sp : Nat} {argv : List Nat}
    (h : Layout m.cells pt n (topEntries k tf)) (hs : Sound k m (space m.cells pt n)) {va : Nat}
    (hva : va < n * PGSIZE) (hlt : va / PGSIZE < b) :
    image (pushStack m pt (b * PGSIZE) sp argv).2.cells pt va = image m.cells pt va := by
  have hargs := pushArgs_resized (b * PGSIZE) sp argv [] h hs 0
  have habove := pushArgs_above sp argv [] h hs hva hlt
  rw [pushStack]
  split
  · next hp =>
    rw [hp] at habove
    exact habove
  · next sp' ustack m₁ hp =>
    rw [hp] at habove hargs
    dsimp only
    split
    · exact habove
    · next hsp =>
      have hpage : va / PGSIZE < pushSp sp' ((ustack.length + 1) * 8) / PGSIZE := by
        apply Nat.lt_of_lt_of_le hlt
        rw [Nat.le_div_iff_mul_le (by decide)]
        omega
      have hs₁ := hs.moves hargs.moves
      split
      · next hc => exact (copyout_above hargs.layout hs₁ hc hva hpage).trans habove
      · next hc => exact (copyout_above hargs.layout hs₁ hc hva hpage).trans habove

/-! ### The commit -/

/-- The registers that `exec` sets; `kernel/exec.c:116–125`. -/
def Mem.setImage (m : Mem) (trapframe sp entry : Nat) : Mem :=
  ((m.setReg trapframe regA1 sp).setReg trapframe regEpc entry).setReg trapframe regSp sp

theorem setImage_stored (m : Mem) (pr : Proc) (sp entry : Nat) :
    TrapframeStored m (m.setImage pr.trapframe sp entry) pr :=
  ((trapframeStored_setReg m pr _ _).trans (trapframeStored_setReg _ pr _ _)).trans
    (trapframeStored_setReg _ pr _ _)

/-- The process has the address space `new` of `n` pages in place of its old one. -/
structure Committed (m m' : Mem) (pr : Proc) (new n sp entry : Nat) : Prop where
  moves : Moves m.toHeap m'.toHeap (space m.cells new n + pr.hold m.cells)
    (space m'.cells new n + one pr.trapframe)
  table : SameTable m.cells m'.cells 2 new
  same : ∀ va < n * PGSIZE, image m'.cells new va = image m.cells new va
  trapframe : m'.cells pr.trapframe = (m.setImage pr.trapframe sp entry).cells pr.trapframe

/-- The registers are set, and the old address space is given back. -/
theorem commit_spec {new n : Nat}
    (hold : Layout m.cells pr.pagetable (pages pr.sz) (topEntries k pr.trapframe))
    (hs : Sound k m (space m.cells new n + pr.hold m.cells)) (sp entry : Nat) :
    Returns (procFreepagetable k (m.setImage pr.trapframe sp entry) pr.pagetable pr.sz) (fun m' ↦
      Committed m m' pr new n sp entry) := by
  have hshape : Shape k m pr := ⟨hold, hs.right⟩
  have hst := setImage_stored m pr sp entry
  have hshape₁ := hst.shape hshape
  have hnew : SameTable m.cells (m.setImage pr.trapframe sp entry).cells 2 new := by
    apply SameTable.of_cells
    intro q hq
    apply hst.cells
    rintro rfl
    have := hs.once pr.trapframe
    simp only [space, Proc.hold, Pi.add_apply, one_self] at this
    omega
  have hm₁ : Moves m.toHeap (m.setImage pr.trapframe sp entry).toHeap
      (space m.cells new n + pr.hold m.cells)
      (space (m.setImage pr.trapframe sp entry).cells new n +
        pr.hold (m.setImage pr.trapframe sp entry).cells) := by
    have hadd := (hst.moves hshape).add (space m.cells new n)
    rw [hnew.space]
    exact hadd.congr (add_comm _ _) (add_comm _ _)
  have hs₁ := hs.moves hm₁
  generalize hm : m.setImage pr.trapframe sp entry = m₁ at *
  have hs₁' : Sound k m₁
      (space m₁.cells pr.pagetable (pages pr.sz) + (space m₁.cells new n + one pr.trapframe)) := by
    apply hs₁.congr
    rw [Proc.hold, ← add_assoc, add_left_comm, add_assoc]
  apply (procFreepagetable_spec hshape₁.layout hs₁'.left).mono
  intro m' hm'
  have hkeep {q : Nat} (hq : 0 < (space m₁.cells new n + one pr.trapframe) q) :
      m'.cells q = m₁.cells q :=
    hm'.cells_of_pos hs₁'.once hq
  have hnew' : SameTable m₁.cells m'.cells 2 new := by
    apply SameTable.of_cells
    intro q hq
    apply hkeep
    simp only [space, Pi.add_apply]
    omega
  refine ⟨?_, hnew.trans hnew', ?_, ?_⟩
  · have hadd := hm'.add (space m₁.cells new n + one pr.trapframe)
    refine hm₁.trans (hadd.congr ?_ ?_)
    · rw [Proc.hold, ← add_assoc, add_left_comm, add_assoc]
    · rw [zero_add, hnew'.space]
  · intro va hva
    have hv := page_of_lt hva
    have hpos := users_pos m.cells new hv
    apply image_congr ((hnew.trans hnew').entries _)
    rw [hkeep, hst.cells]
    · rintro he
      have := hs.once pr.trapframe
      rw [he] at hpos
      simp only [space, Proc.hold, Pi.add_apply, one_self] at this
      omega
    · rw [hnew.space]
      simp only [space, Pi.add_apply]
      omega
  · rw [hm]
    apply hkeep
    rw [Pi.add_apply, one_self]
    omega

/-! ### From the stack pages on -/

/-- The address space `new` of `n` pages got a guard page and a stack page. -/
structure StackReady (m m' : Mem) (new n : Nat) (top : Nat → Nat) : Prop where
  layout : Layout m'.cells new (n + 2) top
  moves : Moves m.toHeap m'.toHeap (space m.cells new n) (space m'.cells new (n + 2))
  guard : entry m'.cells 2 new n &&& PTE_U = 0
  stack : PTE_FLAGS (entry m'.cells 2 new (n + 1)) = userFlags PTE_W
  same : ∀ va < n * PGSIZE, image m'.cells new va = image m.cells new va

theorem stack_size {n : Nat} (hn : n ≤ TOP) :
    (n * PGSIZE + 2 * PGSIZE) % 2 ^ 64 = (n + 2) * PGSIZE := by
  have hT := TOP_mul
  have hle := Nat.mul_le_mul_right PGSIZE hn
  have hP : PGSIZE = 4096 := rfl
  have hsum : n * PGSIZE + 2 * PGSIZE < 2 ^ 64 := by omega
  exact (Nat.mod_eq_of_lt hsum).trans (Nat.add_mul n 2 PGSIZE).symm

/-- What `uvmalloc` of the two pages returns. -/
theorem stackAlloc_spec {new sz : Nat} (h : Layout m.cells new (pages sz) top)
    (hs : Sound k m (space m.cells new (pages sz))) :
    Returns (uvmalloc k m new (PGROUNDUP sz) ((PGROUNDUP sz + 2 * PGSIZE) % 2 ^ 64) PTE_W) (fun r ↦
      if r.1 = 0 then Grown m r.2 new (pages sz) (pages sz) top (fun _ ↦ userFlags PTE_W) 0
      else r.1 = (pages sz + 2) * PGSIZE ∧
        Grown m r.2 new (pages sz) (pages sz + 2) top (fun _ ↦ userFlags PTE_W) 0) := by
  have hround : pages (pages sz * PGSIZE) = pages sz := pages_mul _
  have h' := h
  have hs' := hs
  rw [← hround] at h' hs'
  rw [PGROUNDUP_eq h.size, stack_size h.size]
  apply (uvmalloc_spec h' hs' (by decide)).mono
  rintro ⟨sz1, m₁⟩ hm₁
  rw [hround] at hm₁
  dsimp only at hm₁ ⊢
  split at hm₁
  · next hz =>
    rw [if_pos hz]
    exact hm₁
  · next hne =>
    obtain ⟨hmax, hm₁⟩ := hm₁
    have hsz1 : sz1 = (pages sz + 2) * PGSIZE := by
      rw [hmax]
      apply Nat.max_eq_right
      exact Nat.mul_le_mul_right _ (by omega)
    rw [hsz1, pages_mul] at hm₁
    rw [if_neg hne]
    exact ⟨hsz1, hm₁⟩

/-- The lower of the two pages becomes the guard page. -/
theorem stackClear_spec {new : Nat} {fill : Nat → UInt8}
    (hg : Grown m m₁ new n (n + 2) top (fun _ ↦ userFlags PTE_W) fill)
    (hs : Sound k m (space m.cells new n)) :
    Returns (uvmclear m₁ new ((n + 2) * PGSIZE - 2 * PGSIZE))
      (fun m' ↦ StackReady m m' new n top) := by
  have hpage : (n + 2) * PGSIZE - 2 * PGSIZE = n * PGSIZE := by
    rw [Nat.add_mul, Nat.add_sub_cancel]
  have hmul : n * PGSIZE ≤ (n + 2) * PGSIZE := Nat.mul_le_mul_right _ (by omega)
  rw [hpage]
  apply (uvmclear_layout hg.layout (hs.moves hg.moves) (by omega)).mono
  intro m' hc
  refine ⟨hc.layout, hg.moves.trans hc.moves, hc.guard, ?_, ?_⟩
  · rw [hc.kept (n + 1) (by omega) (by omega)]
    exact hg.added (n + 1) (by omega) (by omega)
  · intro va hva
    rw [hc.same va (by omega)]
    exact hg.same va hva (by omega)

/-- What the process has after `exec`: the address space `new`, whose first pages have the
bytes they had before there was a stack. -/
structure Replaced (k : Kernel) (m m' : Mem) (pr : Proc) (new sz sz' : Nat) : Prop where
  size : sz' = (pages sz + 2) * PGSIZE
  layout : Layout m'.cells new (pages sz + 2) (topEntries k pr.trapframe)
  moves : Moves m.toHeap m'.toHeap (space m.cells new (pages sz) + pr.hold m.cells)
    (space m'.cells new (pages sz + 2) + one pr.trapframe)
  same : ∀ va < pages sz * PGSIZE, image m'.cells new va = image m.cells new va

/-- The label `bad`, once the inode is released. -/
theorem execBad_spec {new sz tf : Nat} (it : Inodes)
    (h : Layout m.cells new (pages sz) (topEntries k tf))
    (hs : Sound k m (space m.cells new (pages sz))) :
    Returns (execBad k m it (some new) sz none) (fun r ↦ r.1 = none ∧ r.2.1 = it ∧
      Moves m.toHeap r.2.2.toHeap (space m.cells new (pages sz)) 0) := by
  rw [execBad]
  apply (procFreepagetable_spec h hs).bind
  intro m' hm'
  exact Returns.pure ⟨rfl, rfl, hm'⟩

/-- The result of `exec` with the new address space of size `sz`. -/
def StackResult (k : Kernel) (m : Mem) (it : Inodes) (pr : Proc) (new sz : Nat)
    (r : Option (Nat × Nat × Nat) × Inodes × Mem) : Prop :=
  r.2.1 = it ∧
    match r.1 with
    | none => Moves m.toHeap r.2.2.toHeap (space m.cells new (pages sz)) 0
    | some (pt, sz', _) => pt = new ∧ Replaced k m r.2.2 pr new sz sz'

theorem execStack_spec {it : Inodes} {new sz entry : Nat} {argv : List Nat}
    (hnew : Layout m.cells new (pages sz) (topEntries k pr.trapframe))
    (hold : Layout m.cells pr.pagetable (pages pr.sz) (topEntries k pr.trapframe))
    (hs : Sound k m (space m.cells new (pages sz) + pr.hold m.cells)) :
    Returns (execStack k m it new sz pr.trapframe entry argv pr.pagetable pr.sz)
      (StackResult k m it pr new sz) := by
  -- the new address space is given back with the size it has then
  have hbad {m₁ : Mem} {sz' : Nat}
      (hl : Layout m₁.cells new (pages sz') (topEntries k pr.trapframe))
      (hm : Moves m.toHeap m₁.toHeap (space m.cells new (pages sz))
        (space m₁.cells new (pages sz'))) :
      Returns (execBad k m₁ it (some new) sz' none) (StackResult k m it pr new sz) := by
    apply (execBad_spec it hl (hs.left.moves hm)).mono
    rintro ⟨r, it', m'⟩ ⟨hr, hit, hm'⟩
    dsimp only at hr hit hm'
    rw [hr]
    exact ⟨hit, hm.trans hm'⟩
  have hround : pages (PGROUNDUP sz) = pages sz := by
    rw [PGROUNDUP_eq hnew.size]
    exact pages_mul _
  rw [execStack]
  dsimp only
  apply (stackAlloc_spec hnew hs.left).bind
  rintro ⟨sz1, m₁⟩ hm₁
  dsimp only at hm₁ ⊢
  split at hm₁
  · next hz =>
    rw [if_pos hz]
    rw [← hround] at hm₁
    apply hbad hm₁.layout
    rw [hround]
    exact hm₁.moves.congr (by rw [hround]) (by rw [hround])
  · next hne =>
    rw [if_neg hne]
    obtain ⟨hsz1, hm₁⟩ := hm₁
    subst hsz1
    apply (stackClear_spec hm₁ hs.left).bind
    intro m₂ hm₂
    have hbase : (pages sz + 2) * PGSIZE - PGSIZE = (pages sz + 1) * PGSIZE := by
      rw [Nat.add_mul, Nat.add_mul]
      omega
    have hs₂ := hs.left.moves hm₂.moves
    have hpush := pushStack_resized ((pages sz + 1) * PGSIZE) ((pages sz + 2) * PGSIZE) argv
      hm₂.layout hs₂ 0
    have habove {va : Nat} (hva : va < pages sz * PGSIZE) :
        image (pushStack m₂ new ((pages sz + 1) * PGSIZE)
        ((pages sz + 2) * PGSIZE) argv).2.cells new va = image m.cells new va := by
      have hmul : pages sz * PGSIZE ≤ (pages sz + 2) * PGSIZE := Nat.mul_le_mul_right _ (by omega)
      have hpage := page_of_lt hva
      rw [pushStack_above hm₂.layout hs₂ (by omega) (by omega)]
      exact hm₂.same va hva
    rw [hbase]
    generalize pushStack m₂ new ((pages sz + 1) * PGSIZE) ((pages sz + 2) * PGSIZE) argv = r at *
    obtain ⟨r, m₃⟩ := r
    have hm₃ := hm₂.moves.trans hpush.moves
    dsimp only at hm₃ habove
    cases r with
    | none =>
      apply hbad
      · rw [pages_mul]
        exact hpush.layout
      · rw [pages_mul]
        exact hm₃
    | some r =>
      obtain ⟨sp, argc⟩ := r
      have hun := Moves.untouched hm₃ hs
      have hs₃ := hs.moves (hm₃.add (pr.hold m.cells))
      rw [← hun.hold] at hs₃
      dsimp only
      apply (commit_spec (hun.table.layout hold) hs₃ sp entry).bind
      intro m' hm'
      refine Returns.pure ⟨rfl, rfl, rfl, hm'.table.layout hpush.layout, ?_, ?_⟩
      · refine (hm₃.add (pr.hold m.cells)).trans (hm'.moves.congr ?_ rfl)
        rw [hun.hold]
      · intro va hva
        have hmul : pages sz * PGSIZE ≤ (pages sz + 2) * PGSIZE := Nat.mul_le_mul_right _ (by omega)
        dsimp only
        rw [hm'.same va (by omega)]
        exact habove hva

/-! ### The inode of the program -/

/-- The inode table is as it was, and no lock is held that was not. -/
structure Restored (it it' : Inodes) : Prop where
  ref : it'.ref = it.ref
  ops : it'.ops = it.ops
  locked : ∀ ip, it'.locked ip = true → it.locked ip = true

/-- The inode table while `exec` reads the file. -/
def Inodes.held (it : Inodes) (ip : Nat) : Inodes where
  ref := Function.update it.ref ip (it.ref ip + 1)
  locked := Function.update it.locked ip true
  ops := it.ops + 1

theorem ilock_eq (it : Inodes) (ip : Nat) : (it.begin_op.iget ip).ilock ip = .ok (it.held ip) := by
  have href : (it.begin_op.iget ip).ref ip = it.ref ip + 1 := Function.update_self ..
  rw [Inodes.ilock, if_neg (by omega)]
  rfl

/-- The inode is unlocked and put, and the operation ends. -/
theorem iunlockput_held (it : Inodes) (ip : Nat) :
    Returns ((it.held ip).iunlockput ip) (fun it' ↦ Restored it it'.end_op) := by
  have href : (it.held ip).ref ip = it.ref ip + 1 := Function.update_self ..
  have hlocked : (it.held ip).locked ip = true := Function.update_self ..
  rw [Inodes.iunlockput, hlocked, if_neg (by simp only [Bool.true_eq_false, false_or]; omega)]
  refine Returns.ok ⟨?_, Nat.add_sub_cancel .., ?_⟩
  · show Function.update (it.held ip).ref ip ((it.held ip).ref ip - 1) = it.ref
    rw [href, Nat.add_sub_cancel, Inodes.held, Function.update_idem]
    exact Function.update_eq_self ip it.ref
  · intro i hi
    have hi : Function.update (it.held ip).locked ip false i = true := hi
    rw [Function.update_apply] at hi
    split at hi
    · cases hi
    · next hne =>
      rw [← hi]
      exact (Function.update_of_ne hne ..).symm

/-- The label `bad` with the inode still locked and no address space. -/
theorem execBad_held (k : Kernel) (m : Mem) (it : Inodes) (ip : Nat) :
    Returns (execBad k m (it.held ip) none 0 (some ip)) (fun r ↦ Restored it r.2.1 ∧ r.1 = none ∧
      r.2.2 = m) := by
  rw [execBad]
  apply Returns.bind (Returns.pure (Q := fun m' ↦ m' = m) rfl)
  rintro m' rfl
  apply (iunlockput_held it ip).bind
  intro it' hit'
  exact Returns.pure ⟨hit', rfl, rfl⟩

/-- The label `bad` with the inode still locked. -/
theorem execBad_loading {new sz tf : Nat} (it : Inodes) (ip : Nat)
    (h : Layout m.cells new (pages sz) (topEntries k tf))
    (hs : Sound k m (space m.cells new (pages sz))) :
    Returns (execBad k m (it.held ip) (some new) sz (some ip))
      (fun r ↦ Restored it r.2.1 ∧ r.1 = none ∧
      Moves m.toHeap r.2.2.toHeap (space m.cells new (pages sz)) 0) := by
  rw [execBad]
  apply (procFreepagetable_spec h hs).bind
  intro m' hm'
  apply (iunlockput_held it ip).bind
  intro it' hit'
  exact Returns.pure ⟨hit', rfl, hm'⟩

/-! ### `exec` -/

/-- The header of a program file. -/
def elfhdr (file : List UInt8) : Elfhdr := Elfhdr.decode (readi file 0 elfhdrSize)

/-- A program loads: its header is good, and its segments are in the address space `new`, of `sz`
bytes, which is empty in `m₁`. -/
structure Loads (k : Kernel) (m : Mem) (trapframe : Nat) (file : List UInt8) (new : Nat) (m₁ : Mem)
    (sz : Nat) (m₂ : Mem) : Prop where
  header : (readi file 0 elfhdrSize).length = elfhdrSize
  magic : (elfhdr file).magic = ELF_MAGIC
  pagetable : procPagetable k m trapframe = .ok (some new, m₁)
  segments : loadSegments k new file (elfhdr file).phnum m₁ ((elfhdr file).phoff % 2 ^ 32) 0 =
    .ok (true, sz, m₂)

/-- What is known of the address space of a program that loads. -/
structure LoadedSpace (k : Kernel) (m : Mem) (trapframe : Nat) (file : List UInt8) (new : Nat)
    (m₁ : Mem) (sz : Nat) (m₂ : Mem) : Prop where
  empty : Layout m₁.cells new 0 (topEntries k trapframe)
  moves : Moves m.toHeap m₂.toHeap 0 (space m₂.cells new (pages sz))
  loaded : Segments m₁ new 0 (topEntries k trapframe) file ((elfhdr file).phoff % 2 ^ 32)
    (elfhdr file).phnum (true, sz, m₂)

theorem segments_spec {tf new : Nat} (file : List UInt8)
    (hl : Layout m.cells new 0 (topEntries k tf)) (hs : Sound k m (space m.cells new 0))
    (off cnt : Nat) :
    Returns (loadSegments k new file cnt m off 0)
      (Segments m new 0 (topEntries k tf) file off cnt) := by
  have hzero := pages_zero
  apply loadSegments_spec
  · rw [hzero]
    exact hl
  · rw [hzero]
    exact hs
  · rw [hzero]
    exact fun v hv ↦ absurd hv (Nat.not_lt_zero v)

theorem Loads.space {tf new sz : Nat} {file : List UInt8} {m₂ : Mem}
    (h : Loads k m tf file new m₁ sz m₂) (hs : Sound k m 0) (htf : tf < 2 ^ 52) :
    LoadedSpace k m tf file new m₁ sz m₂ := by
  obtain ⟨hl, hm₁⟩ := (procPagetable_spec hs htf).elim h.pagetable
  have hseg := (segments_spec _ hl (hs.moves hm₁) _ _).elim h.segments
  refine ⟨hl, ?_, hseg⟩
  have hmoves := hseg.moves
  rw [pages_zero] at hmoves
  exact hm₁.trans hmoves

/-- The process with another image. -/
def Proc.withImage (pr : Proc) (pagetable sz : Nat) : Proc :=
  { pr with pagetable := pagetable, sz := sz }

/-- The result of `exec`. -/
def ExecResult (k : Kernel) (m : Mem) (it : Inodes) (pr : Proc) (file : Option (Nat × List UInt8))
    (r : Option (Nat × Nat × Nat) × Inodes × Mem) : Prop :=
  Restored it r.2.1 ∧
    match r.1 with
    | none => Moves m.toHeap r.2.2.toHeap 0 0
    | some (new, sz', _) => ∃ ip bytes m₁ sz m₂, file = some (ip, bytes) ∧
        Loads k m pr.trapframe bytes new m₁ sz m₂ ∧ Replaced k m₂ r.2.2 pr new sz sz'

theorem Shape.trapframe_lt (h : Shape k m pr) : pr.trapframe < 2 ^ 20 := by
  apply h.sound.lt
  rw [Proc.hold, Pi.add_apply, one_self]
  omega

theorem exec_spec (h : Shape k m pr) (it : Inodes) (file : Option (Nat × List UInt8))
    (argv : List Nat) :
    Returns (exec k m it pr.pagetable pr.sz pr.trapframe file argv)
      (ExecResult k m it pr file) := by
  have hs : Sound k m 0 := h.sound.mono (fun _ ↦ Nat.zero_le _)
  have htf := h.trapframe_lt
  cases file with
  | none => exact Returns.ok ⟨⟨rfl, Nat.add_sub_cancel .., fun _ h ↦ h⟩, Moves.refl _ _⟩
  | some found =>
    obtain ⟨ip, bytes⟩ := found
    rw [exec]
    dsimp only
    rw [ilock_eq]
    simp only [bind, Except.bind]
    -- without an address space, `bad` only releases the inode
    have hbad {m₁ : Mem} (hm : Moves m.toHeap m₁.toHeap 0 0) :
        Returns (execBad k m₁ (it.held ip) none 0 (some ip))
          (ExecResult k m it pr (some (ip, bytes))) := by
      apply (execBad_held k m₁ it ip).mono
      rintro ⟨r, it', m'⟩ ⟨hit, hr, hm'⟩
      dsimp only at hr hm'
      subst hr hm'
      exact ⟨hit, hm⟩
    split
    · exact hbad (Moves.refl _ _)
    next hlen =>
    split
    · exact hbad (Moves.refl _ _)
    next hmagic =>
    obtain ⟨⟨new, m₁⟩, hpt, hm₁⟩ := procPagetable_spec hs (show pr.trapframe < 2 ^ 52 by omega)
    rw [hpt]
    cases new with
    | none => exact hbad hm₁
    | some new =>
      obtain ⟨hl, hm₁⟩ := hm₁
      obtain ⟨⟨ok, sz, m₂⟩, hload, hseg⟩ := segments_spec bytes hl (hs.moves hm₁)
        ((elfhdr bytes).phoff % 2 ^ 32) (elfhdr bytes).phnum
      have hm₂ : Moves m.toHeap m₂.toHeap 0 (Vm.space m₂.cells new (pages sz)) := by
        have hmoves := hseg.moves
        rw [pages_zero] at hmoves
        exact hm₁.trans hmoves
      have hs₂ := hs.moves hm₂
      have hload' := hload
      rw [elfhdr] at hload'
      dsimp only
      rw [hload']
      cases ok with
      | false =>
        apply (execBad_loading it ip hseg.layout hs₂).mono
        rintro ⟨r, it', m'⟩ ⟨hit, hr, hm'⟩
        dsimp only at hr hm'
        subst hr
        exact ⟨hit, hm₂.trans hm'⟩
      | true =>
        obtain ⟨it', hput, hit⟩ := iunlockput_held it ip
        simp only [if_true]
        rw [hput]
        have hun := Moves.untouched hm₂ (h.sound.congr (zero_add _))
        have hs' : Sound k m₂ (Vm.space m₂.cells new (pages sz) + pr.hold m₂.cells) := by
          have hadd := hm₂.add (pr.hold m.cells)
          rw [hun.hold]
          rw [zero_add] at hadd
          exact h.sound.moves hadd
        apply (execStack_spec hseg.layout (hun.table.layout h.layout) hs').mono
        rintro ⟨r, it₂, m'⟩ ⟨hit₂, hr⟩
        dsimp only at hit₂ hr
        subst hit₂
        refine ⟨hit, ?_⟩
        cases r with
        | none => exact hm₂.trans hr
        | some r =>
          obtain ⟨pt, sz', argc⟩ := r
          obtain ⟨hpt', hrep⟩ := hr
          subst hpt'
          exact ⟨ip, bytes, m₁, sz, m₂, rfl,
            ⟨Classical.not_not.mp hlen, Classical.not_not.mp hmagic, hpt, hload⟩, hrep⟩

theorem Proc.withImage_hold (c : Ram) (pr : Proc) (new sz : Nat) :
    (pr.withImage new sz).hold c = Vm.space c new (pages sz) + one pr.trapframe := rfl

/-- The new image has its shape, in place of the old one. -/
theorem Replaced.shape {new sz sz' : Nat} {file : List UInt8} {m₂ : Mem}
    (h : Replaced k m₂ m' pr new sz sz') (hl : Loads k m pr.trapframe file new m₁ sz m₂)
    (hpr : Shape k m pr) :
    Shape k m' (pr.withImage new sz') ∧
      Moves m.toHeap m'.toHeap (pr.hold m.cells) ((pr.withImage new sz').hold m'.cells) := by
  have hs : Sound k m 0 := hpr.sound.mono (fun _ ↦ Nat.zero_le _)
  have htf := hpr.trapframe_lt
  have hm₂ := (hl.space hs (by omega)).moves
  have hun := Moves.untouched hm₂ (hpr.sound.congr (zero_add _))
  have hpages : pages sz' = pages sz + 2 := by
    rw [h.size]
    exact pages_mul _
  have hmoves :
      Moves m.toHeap m'.toHeap (pr.hold m.cells) ((pr.withImage new sz').hold m'.cells) := by
    have hadd := hm₂.add (pr.hold m.cells)
    rw [zero_add, ← hun.hold] at hadd
    rw [Proc.withImage_hold, hpages]
    refine Moves.trans ?_ h.moves
    rw [hun.hold] at hadd ⊢
    exact hadd
  refine ⟨⟨?_, hpr.sound.moves hmoves⟩, hmoves⟩
  show Layout m'.cells new (pages sz') (topEntries k pr.trapframe)
  rw [hpages]
  exact h.layout

end

/-! ### `sys_exec` -/

section
variable {k : Kernel} {m : Mem}

/-- The pages of the arguments. -/
def argPages (argv : List Nat) : Nat → Nat := fun q ↦ argv.count q

theorem argPages_nil : argPages [] = 0 := rfl

theorem argPages_cons (page : Nat) (argv : List Nat) :
    argPages (page :: argv) = argPages argv + one page := by
  funext q
  rw [argPages, count_cons_one, Nat.add_comm]
  rfl

theorem argPages_append (argv : List Nat) (page : Nat) :
    argPages (argv ++ [page]) = argPages argv + one page := by
  funext q
  rw [argPages, List.count_append, count_cons_one, List.count_nil, Nat.add_zero]
  rfl

/-- The loop over the arguments owns the pages it has collected. -/
theorem fetchArgs_moves (pr : Proc) (uargv n : Nat) (m : Mem) (i : Nat) (argv : List Nat) :
    Moves m.toHeap (fetchArgs pr uargv n m i argv).2.2.toHeap (argPages argv)
      (argPages (fetchArgs pr uargv n m i argv).2.1) := by
  induction n generalizing m i argv with
  | zero => exact Moves.refl _ _
  | succ n ih =>
    rw [fetchArgs]
    split
    · exact Moves.refl _ _
    next uarg _ =>
    split
    · exact Moves.refl _ _
    split
    · next hk =>
      rw [kalloc_none hk]
      exact Moves.refl _ _
    · next page m₁ hk =>
      have hm := kalloc_moves hk (w := m₁.write page 0 (copyinstr m₁ pr.pagetable uarg PGSIZE).2)
        rfl
        (fun q hq ↦ write_other hq ..) (argPages argv)
      rw [← argPages_append] at hm
      dsimp only
      split
      · exact hm.trans (ih ..)
      · exact hm

theorem freeArgs_spec {argv : List Nat} (hs : Sound k m (argPages argv)) :
    Returns (freeArgs k argv m) (fun m' ↦ Moves m.toHeap m'.toHeap (argPages argv) 0) := by
  induction argv generalizing m with
  | nil => exact Returns.ok (Moves.refl _ _)
  | cons page argv ih =>
    rw [argPages_cons] at hs ⊢
    rw [freeArgs]
    apply (kfree_spec hs).bind
    rintro m₁ ⟨hm₁, -⟩
    apply (ih (hs.moves hm₁)).mono
    intro m' hm'
    exact hm₁.trans hm'

end

/-- The result of `sys_exec`: the process has another image, or nothing has happened. -/
inductive ExecCases (k : Kernel) (s : State) (p : Slot) : Option Nat × State → Prop
  | failed (m : Mem) (it : Inodes) (hit : Restored s.inodes it)
      (hm : Moves s.mem.toHeap m.toHeap 0 0) :
    ExecCases k s p (none, { s with mem := m, inodes := it })
  | image (argc new sz : Nat) (name : List UInt8) (m : Mem) (it : Inodes)
      (hit : Restored s.inodes it)
    (hshape : Shape k m ((s.procs p).withImage new sz))
    (hm : Moves s.mem.toHeap m.toHeap ((s.procs p).hold s.mem.cells)
      (((s.procs p).withImage new sz).hold m.cells)) :
    ExecCases k s p (some argc,
      State.setProc { s with mem := m, inodes := it } p
      { (s.procs p).withImage new sz with name := name })

theorem Restored.refl (it : Inodes) : Restored it it := ⟨rfl, rfl, fun _ h ↦ h⟩

theorem sysExec_cases {k : Kernel} {s : State} {p : Slot} (h : Shape k s.mem (s.procs p))
    (upath uargv : Nat) (fs : List UInt8 → Option (Nat × List UInt8)) :
    Returns (sysExec k s p upath uargv fs) (ExecCases k s p) := by
  rw [sysExec]
  dsimp only
  split
  · exact Returns.ok (ExecCases.failed s.mem s.inodes (Restored.refl _) (Moves.refl _ _))
  next path _ =>
  have hargs := fetchArgs_moves (s.procs p) uargv MAXARG s.mem 0 []
  rw [argPages_nil] at hargs
  generalize fetchArgs (s.procs p) uargv MAXARG s.mem 0 [] = r at *
  obtain ⟨ok, argv, m₁⟩ := r
  dsimp only at hargs ⊢
  have hadd := hargs.add ((s.procs p).hold s.mem.cells)
  rw [zero_add, add_comm] at hadd
  have hs₁ := h.sound.moves hadd
  have hun : Untouched s.mem m₁ (s.procs p) := Moves.untouched hargs (h.sound.congr (zero_add _))
  cases ok with
  | false =>
    simp only [Bool.false_eq_true, if_false]
    apply (freeArgs_spec hs₁.right).bind
    intro m' hm'
    exact Returns.pure (ExecCases.failed m' s.inodes (Restored.refl _) (hargs.trans hm'))
  | true =>
    simp only [if_true]
    have hshape₁ := hun.shape h hs₁.left
    apply (exec_spec hshape₁ s.inodes (fs path) argv).bind
    rintro ⟨r, it, m₂⟩ ⟨hit, hr⟩
    dsimp only at hit hr ⊢
    cases r with
    | none =>
      have hm₂ := Moves.add hr (argPages argv)
      rw [zero_add] at hm₂
      apply (freeArgs_spec (hs₁.right.moves hm₂)).bind
      intro m' hm'
      exact Returns.pure (ExecCases.failed m' it hit ((hargs.trans hm₂).trans hm'))
    | some r =>
      obtain ⟨new, sz, argc⟩ := r
      obtain ⟨ip, bytes, m₃, sz₀, m₄, -, hl, hrep⟩ := hr
      obtain ⟨hshape₂, hm₂⟩ := hrep.shape hl hshape₁
      rw [hun.hold] at hm₂
      have hm₂ := hm₂.add (argPages argv)
      have hs₂ := hs₁.moves hm₂
      apply (freeArgs_spec hs₂.right).bind
      intro m' hm'
      have hun' : Untouched m₂ m' ((s.procs p).withImage new sz) :=
        Moves.untouched hm' (hs₂.congr (add_comm _ _))
      have hm : Moves s.mem.toHeap m'.toHeap ((s.procs p).hold s.mem.cells)
          (((s.procs p).withImage new sz).hold m'.cells) := by
        refine (hadd.trans hm₂).trans ((hm'.add _).congr (add_comm _ _) ?_)
        rw [zero_add, hun'.hold]
      have hsound := h.sound.moves hm
      rw [hun'.hold] at hsound
      exact Returns.pure
        (ExecCases.image argc new sz (progName path) m' it hit (hun'.shape hshape₂ hsound) hm)

section
variable {k : Kernel} {m : Mem} {pr : Proc} {pt n va : Nat} {top : Nat → Nat}

/-- User pages can be accessed, and hold the bytes of the image. -/
theorem Layout.accessible (h : Layout m.cells pt n top) (hs : Sound k m (space m.cells pt n))
    (hva : va < n * PGSIZE) (hu : entry m.cells 2 pt (va / PGSIZE) &&& PTE_U ≠ 0) :
    Accessible m pt va ∧ userByte m pt va = some (image m.cells pt va) := by
  have hv : va / PGSIZE < n := (Nat.div_lt_iff_lt_mul (by decide)).mpr hva
  have hN : NPAGES = TOP + 2 := rfl
  have hlt : va / PGSIZE < NPAGES := Nat.lt_of_lt_of_le hv (by have := h.size; omega)
  have hpage : userPage m pt (va / PGSIZE) = some (PTE2PA (entry m.cells 2 pt (va / PGSIZE))) := by
    rw [userPage_eq, if_pos ⟨hlt, (h.leaf _ hv).1, hu⟩]
  have hnull : PTE2PA (entry m.cells 2 pt (va / PGSIZE)) ≠ 0 := by
    apply hs.ne_zero
    have := users_pos m.cells pt hv
    rw [space, Pi.add_apply]
    omega
  refine ⟨⟨?_, _, hpage, hnull⟩, ?_⟩
  · rw [← NPAGES_mul]
    exact (Nat.div_lt_iff_lt_mul (by decide)).mp hlt
  · rw [userByte, hpage]
    rfl

/-- `n` bytes of the process that are zero. -/
def Zeros (m : Mem) (pt va n : Nat) : Prop :=
  ∀ i < n, Accessible m pt (va + i) ∧ userByte m pt (va + i) = some 0

theorem Zeros.mono {n' : Nat} (h : Zeros m pt va n') (hle : n ≤ n') : Zeros m pt va n :=
  fun i hi ↦ h i (Nat.lt_of_lt_of_le hi hle)

/-- The pages that `uvmalloc` adds are zero. -/
theorem Grown.zeros {m₀ : Mem} {n₀ v : Nat}
    (hg : Grown m₀ m pt n₀ n top (fun _ ↦ userFlags PTE_W) 0)
    (hs : Sound k m (space m.cells pt n)) (hlo : n₀ ≤ v) (hhi : v < n) :
    Zeros m pt (v * PGSIZE) PGSIZE := by
  intro i hi
  have hdiv : (v * PGSIZE + i) / PGSIZE = v := by
    unfold PGSIZE at *
    omega
  have hva : v * PGSIZE + i < n * PGSIZE := by
    unfold PGSIZE at *
    omega
  have huser : entry m.cells 2 pt ((v * PGSIZE + i) / PGSIZE) &&& PTE_U ≠ 0 := by
    have hflags : PTE_FLAGS (entry m.cells 2 pt v) &&& PTE_U = entry m.cells 2 pt v &&& PTE_U := by
      rw [PTE_FLAGS, Nat.and_assoc]
      rfl
    rw [hdiv, ← hflags, hg.added v hlo hhi]
    decide
  have hfill : image m.cells pt (v * PGSIZE + i) = 0 := by
    refine hg.filled _ ?_ hva
    unfold PGSIZE at *
    omega
  rw [← hfill]
  exact hg.layout.accessible hs hva huser

theorem Zeros.bytesAt (h : Zeros m pt va n) : bytesAt m pt va n = List.replicate n 0 := by
  rw [List.eq_replicate_iff]
  refine ⟨bytesAt_length m pt va n, ?_⟩
  intro b hb
  obtain ⟨i, hi, rfl⟩ := List.getElem_of_mem hb
  have hin : i < n := Nat.lt_of_lt_of_eq hi (bytesAt_length m pt va n)
  have hget := bytesAt_get hi (h i hin).1
  rw [(h i hin).2] at hget
  exact (Option.some.inj hget).symm

/-- Such a byte is the empty string. -/
theorem Zeros.copyinstr {max : Nat} (h : Zeros m pt va 1) (hmax : 0 < max) :
    copyinstr m pt va max = (true, [0]) := by
  have hstr : UserString m pt va 0 := by
    refine ⟨?_, fun i hi ↦ absurd hi (Nat.not_lt_zero i), (h 0 Nat.one_pos).2⟩
    intro i hi
    exact (h i (by omega)).1
  rw [(copyinstr_spec m pt va max).eq_string hmax hstr, h.bytesAt]
  rfl

/-- Eight of them are an array without arguments. -/
theorem Zeros.fetchArgs (h : Zeros m pr.pagetable va 8) (hsz : va + 8 ≤ pr.sz)
    (hlt : va + 8 < 2 ^ 64) : fetchArgs pr va MAXARG m 0 [] = (true, [], m) := by
  obtain ⟨n, hgood, heq⟩ := copyin_spec m pr.pagetable va 8
  have hn : n = 8 := hgood.all_iff.mpr (fun i hi ↦ (h i hi).1)
  rw [hn, h.bytesAt] at heq
  have haddr : fetchaddr m pr va = some 0 := by
    rw [fetchaddr, if_neg (by omega), heq]
    rfl
  have hva : (va + 8 * 0) % 2 ^ 64 = va := by omega
  have hmax : MAXARG = 31 + 1 := rfl
  rw [hmax, Vm.fetchArgs, hva, haddr]
  rfl

end

/-- A program file with one segment of one byte at address 0. The offset of the segment in the
file is 0, or `2 ^ 32` if `wrap`. -/
def tinyElf (wrap : Bool) : List UInt8 :=
  [0x7F, 0x45, 0x4C, 0x46] ++ List.replicate 28 0 ++ [64] ++ List.replicate 23 0 ++
    [1] ++ List.replicate 7 0 ++
    [1, 0, 0, 0, 5, 0, 0, 0, 0, 0, 0, 0, if wrap then 1 else 0, 0, 0, 0] ++ List.replicate 16 0 ++
    [1] ++ List.replicate 7 0 ++ [1] ++ List.replicate 15 0

/-- The header of the segment in such a file. -/
def tinyHeader (wrap : Bool) : Proghdr where
  type := ELF_PROG_LOAD
  flags := 5
  off := if wrap then 2 ^ 32 else 0
  vaddr := 0
  filesz := 1
  memsz := 1

theorem tinyElf_header (wrap : Bool) : (readi (tinyElf wrap) 0 elfhdrSize).length = elfhdrSize ∧
    elfhdr (tinyElf wrap) = { magic := ELF_MAGIC, entry := 0, phoff := 64, phnum := 1 } := by
  cases wrap <;> decide +kernel

theorem tinyElf_segment (wrap : Bool) : (readi (tinyElf wrap) 64 proghdrSize).length = proghdrSize ∧
    Proghdr.decode (readi (tinyElf wrap) 64 proghdrSize) = tinyHeader wrap ∧
    (readi (tinyElf wrap) 0 1).length = 1 := by
  cases wrap <;> decide +kernel

/-- A segment of one byte is loaded from the start of the file. -/
theorem loadseg_tiny {m : Mem} {new offset : Nat} {file : List UInt8} {r : Bool × Mem}
    (hoff : offset % 2 ^ 32 = 0) (hread : (readi file 0 1).length = 1)
    (h : loadseg m new 0 file offset 1 = .ok r) :
    r.1 = true ∧ r.2.fails = m.fails ∧ r.2.free = m.free := by
  have hcount : (1 % 2 ^ 32 + PGSIZE - 1) / PGSIZE = 0 + 1 := by decide
  have hlen : (if 1 % 2 ^ 32 - 0 < PGSIZE then 1 % 2 ^ 32 - 0 else PGSIZE) = 1 := by decide
  have hzero : (0 + 0) % 2 ^ 32 = 0 := by decide
  rw [loadseg] at h
  rw [hcount, hoff, loadsegLoop] at h
  rw [hlen, hzero] at h
  split at h
  · cases h
  · rw [if_neg (not_not_intro hread), loadsegLoop] at h
    have hr := Except.ok.inj h
    subst hr
    exact ⟨rfl, rfl, rfl⟩

/-- The small program loads when there are eight free pages. -/
theorem tinyElf_loads {k : Kernel} {m : Mem} {tf : Nat} (wrap : Bool) (hs : Sound k m 0)
    (htf : tf < 2 ^ 52) (hf : m.fails = []) (hn : 8 ≤ m.free.length) :
    ∃ new m₁ m₂, Loads k m tf (tinyElf wrap) new m₁ 1 m₂ ∧
      m₂.fails = [] ∧ m.free.length ≤ m₂.free.length + 8 := by
  obtain ⟨hlen, helf⟩ := tinyElf_header wrap
  obtain ⟨hread, hph, hbyte⟩ := tinyElf_segment wrap
  obtain ⟨⟨pt, m₁⟩, hpt, hm₁⟩ := procPagetable_spec hs htf
  obtain ⟨new, hnew, hf₁, hn₁⟩ := procPagetable_ok hs hf (by omega) hpt
  dsimp only at hnew hf₁ hn₁
  subst hnew
  obtain ⟨hl, hm₁⟩ := hm₁
  have hs₁ := hs.moves hm₁
  obtain ⟨⟨ok, sz, m₂⟩, hload, -⟩ := segments_spec (tinyElf wrap) hl hs₁ 64 1
  have hperm : (tinyHeader wrap).vaddr + (tinyHeader wrap).memsz = 1 := rfl
  have hmod : 1 % 2 ^ 64 = 1 := by decide
  have hstep := hload
  rw [loadSegments] at hstep
  dsimp only at hstep
  have hfilesz : ¬ (tinyHeader wrap).memsz < (tinyHeader wrap).filesz := Nat.lt_irrefl 1
  have hvaddr : (tinyHeader wrap).vaddr = 0 := rfl
  rw [if_neg (not_not_intro hread), hph, if_neg (fun h ↦ h rfl), if_neg hfilesz, hperm, hmod,
    hvaddr, if_neg (Nat.not_lt_zero 1), if_neg (fun h ↦ h (Nat.zero_mod _))] at hstep
  obtain ⟨⟨sz1, m₃⟩, halloc, hstep⟩ := bind_ok hstep
  have hone : pages (1 - 0) = 1 := by decide
  obtain ⟨hsz1, hf₃, hn₃⟩ :=
    uvmalloc_ok hf₁ (by rw [hone]; omega) (Nat.zero_le 1) (by decide) halloc
  dsimp only at hsz1 hf₃ hn₃ hstep
  rw [hone] at hn₃
  subst hsz1
  rw [if_neg (Nat.one_ne_zero)] at hstep
  obtain ⟨⟨ok', m₄⟩, hseg, hstep⟩ := bind_ok hstep
  have hoff : (tinyHeader wrap).off % 2 ^ 32 = 0 := by
    cases wrap <;> decide
  obtain ⟨hok', hf₄, hfree₄⟩ := loadseg_tiny hoff hbyte hseg
  dsimp only at hok' hf₄ hfree₄ hstep
  rw [hok', if_pos rfl, loadSegments] at hstep
  have hr := Except.ok.inj hstep
  rw [← hr] at hload
  refine ⟨new, m₁, m₄, ⟨hlen, ?_, hpt, ?_⟩, hf₄.trans hf₃, ?_⟩
  · rw [helf]
  · rw [helf]
    exact hload
  · rw [hfree₄]
    omega

end Xv6.Vm
