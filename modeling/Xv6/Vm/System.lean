import Xv6.Vm.Descriptors

/-!
# All processes together

What holds between system calls: the memory of every process has its shape, every page is in one
place, and the file table agrees with the descriptors and the pipes. Every call of a process that
can run returns, without a panic, and this holds again, whichever allocations fail.
-/

namespace Xv6.Vm

open Xv6.Lib

/-- A slot: without memory if it is not used, without descriptors unless it runs, and with a
directory if it does. -/
structure Proc.Ok (pr : Proc) : Prop where
  unused : pr.state = .UNUSED → pr.Cleared
  idle : pr.state ≠ .RUNNABLE → ∀ fd, pr.ofile fd = none
  cwd : pr.state = .RUNNABLE → pr.cwd ≠ none

/-- The state of the system while a call has the references `held` in hand; `early` are the pages
that the kernel took at boot. -/
structure Inv (k : Kernel) (early : List Nat) (s : State) (held : Fin NFILE → Nat) : Prop where
  boot : s.early = early
  mem : MemOk k s
  files : FilesOk s held
  procs : ∀ p, (s.procs p).Ok

section
variable {k : Kernel} {early : List Nat} {s s' : State} {held held' : Fin NFILE → Nat}
  {f : Fin NFILE} {p : Slot}
  {pr pr' : Proc}

theorem live_of_runnable (h : pr.state = .RUNNABLE) : pr.Live := by
  intro hu
  rw [h] at hu
  cases hu

/-! ### Parts of calls -/

theorem MemOk.soundPipes (h : MemOk k s) : Sound k s.mem s.openPipes := by
  apply h.sound.mono
  intro q
  simp only [State.owned, Pi.add_apply]
  omega

/-- Files are closed or opened, and pages of pipes come or go. -/
theorem Inv.closed (h : Inv k early s held) (hfiles : FilesOk s' held') (hc : ClosedFiles s s') :
    Inv k early s' held' := by
  refine ⟨hc.early.trans h.boot, ?_, hfiles, ?_⟩
  · apply (Passes.idle h.mem _ hc.early hc.moves initSlot).memOk h.mem
    intro o
    rw [hc.procs]
    exact Proc.SameMemory.refl _
  · intro o
    rw [hc.procs]
    exact h.procs o

theorem Inv.fileclose (h : Inv k early s (held + one f)) :
    Returns (fileclose k s f) (fun s' ↦ Inv k early s' held ∧ s'.procs = s.procs) := by
  apply (fileclose_spec h.files h.mem.soundPipes).mono
  rintro s' ⟨hfiles, hc⟩
  exact ⟨h.closed hfiles hc, hc.procs⟩

theorem Inv.closeBoth {g : Fin NFILE} (h : Inv k early s (held + one g + one f)) :
    Returns (closeBoth k s f g) (fun s' ↦ Inv k early s' held) := by
  apply (closeBoth_spec h.files h.mem.soundPipes).mono
  rintro s' ⟨hfiles, hc⟩
  exact h.closed hfiles hc

/-- Slots change, but not their memory. -/
theorem Inv.sameMemory (h : Inv k early s held) (hmem : s'.mem = s.mem)
    (hpipes : s'.pipes = s.pipes) (hearly : s'.early = s.early)
    (hprocs : ∀ o, (s.procs o).SameMemory (s'.procs o)) (hfiles : FilesOk s' held')
    (hok : ∀ o, (s'.procs o).Ok) : Inv k early s' held' := by
  refine ⟨hearly.trans h.boot, ?_, hfiles, hok⟩
  apply (Passes.idle h.mem hprocs hearly _ initSlot).memOk h.mem
  rw [hmem, openPipes_congr hpipes]
  exact Moves.refl _ _

/-- A process gets other descriptors. -/
theorem Inv.setFds (h : Inv k early s held) (hrun : (s.procs p).state = .RUNNABLE)
    {ofile : Fin NOFILE → Option (Fin NFILE)}
    (hfiles : FilesOk (s.setProc p { s.procs p with ofile := ofile }) held') :
    Inv k early (s.setProc p { s.procs p with ofile := ofile }) held' := by
  refine h.sameMemory rfl rfl rfl ?_ hfiles ?_
  · intro o
    rw [State.setProc_procs, Function.update_apply]
    split
    · next heq =>
      rw [heq]
      exact ⟨Iff.rfl, rfl, rfl, rfl⟩
    · exact Proc.SameMemory.refl _
  · intro o
    rw [State.setProc_procs, Function.update_apply]
    split
    · next heq =>
      refine ⟨?_, ?_, (h.procs p).cwd⟩
      · intro hu
        exact absurd hu (live_of_runnable hrun)
      · intro hne
        exact absurd hrun hne
    · exact h.procs o

/-- Only slot `p` and memory change. -/
theorem Inv.update (h : Inv k early s held) (hprocs : s'.procs = Function.update s.procs p pr')
    (hpass : Passes k s s' p) (hfiles : FilesOk s' held') (hok : pr'.Ok) :
    Inv k early s' held' := by
  refine ⟨hpass.early.trans h.boot, hpass.memOk h.mem, hfiles, ?_⟩
  intro o
  rw [hprocs, Function.update_apply]
  split
  · exact hok
  · exact h.procs o

/-- Memory changes, and a process keeps its place in it. -/
theorem Inv.withMem (h : Inv k early s held) {m : Mem} (hlive : (s.procs p).Live)
    (hm : Moves s.mem.toHeap m.toHeap ((s.procs p).hold s.mem.cells) ((s.procs p).hold m.cells))
    (hl : Layout m.cells (s.procs p).pagetable (pages (s.procs p).sz)
      (topEntries k (s.procs p).trapframe)) : Inv k early { s with mem := m } held := by
  have hpass : Passes k s { s with mem := m } p := by
    refine Passes.update (s.procs p) (Function.update_eq_self p s.procs).symm rfl rfl ?_
      (fun _ ↦ hl)
    rw [Proc.owns_live hlive, Proc.owns_live hlive]
    exact hm
  exact ⟨h.boot, hpass.memOk h.mem, h.files.congr (fun _ ↦ rfl) rfl rfl, h.procs⟩

/-- `copyout` to a process. -/
theorem Inv.copyout (h : Inv k early s held) (hlive : (s.procs p).Live) (dstva : Nat)
    (src : List UInt8) :
    Inv k early { s with mem := (copyout s.mem (s.procs p).pagetable dstva src).2 } held := by
  have hshape := h.mem.shape hlive
  have hres := copyout_resized dstva src hshape.layout hshape.sound.left (fun _ ↦ 0)
  exact h.withMem hlive (hres.moves.add (one (s.procs p).trapframe)) hres.layout

theorem Inv.failing (h : Inv k early s held) (fails : List Bool) :
    Inv k early (s.failing fails) held :=
  ⟨h.boot, ⟨h.mem.layout, h.mem.total⟩, h.files.congr (fun _ ↦ rfl) rfl rfl, h.procs⟩

/-! ### `fork` -/

/-- The references of a child's descriptors. -/
theorem FilesOk.forked {q : Slot} {np : Proc} {m : Mem} {ip : Nat} (h : FilesOk s 0)
    (hq : ∀ fd, (s.procs q).ofile fd = none) : FilesOk (s.forked p q np m ip) 0 := by
  have hend : ∀ g pi w, (s.forked p q np m ip).IsEnd g pi w ↔ s.IsEnd g pi w := fun _ _ _ ↦ Iff.rfl
  refine ⟨?_, ?_, h.ends, h.alone⟩
  · intro f
    have hsum := fds_setProc s q (np.child (s.procs p) p) f
    have hzero : hits (s.procs q).ofile (some f) = 0 := by
      apply hits_eq_zero
      intro fd
      rw [hq fd]
      exact fun he ↦ nomatch he
    have hchild : hits (np.child (s.procs p) p).ofile (some f) =
        refsTo (s.procs p).ofile (List.finRange NOFILE) f := (refsTo_eq_hits _ f).symm
    rw [hzero, hchild] at hsum
    have hrefs := h.refs f
    change (s.files f).ref + refsTo (s.procs p).ofile (List.finRange NOFILE) f =
      (s.setProc q (np.child (s.procs p) p)).fds f + (0 : Fin NFILE → Nat) f
    rw [hrefs]
    omega
  · intro f hzero
    apply h.closed f
    have hsum : (s.files f).ref + refsTo (s.procs p).ofile (List.finRange NOFILE) f = 0 := hzero
    omega

/-- A slot without descriptors is given back, with its pages. -/
theorem Inv.freed {q : Slot} (h : Inv k early s 0) (hidle : ∀ fd, (s.procs q).ofile fd = none)
    {m : Mem} (hm : Moves s.mem.toHeap m.toHeap ((s.procs q).owns s.mem.cells) 0) (nextpid : Nat) :
    Inv k early { s.setProc q (s.procs q).freed with mem := m, nextpid := nextpid } 0 := by
  have hunused : (s.procs q).freed.state = .UNUSED := rfl
  have hpass : Passes k s
      { s.setProc q (s.procs q).freed with mem := m, nextpid := nextpid } q := by
    refine Passes.update (s.procs q).freed rfl rfl rfl ?_ (fun hlive ↦ absurd hunused hlive)
    rw [Proc.owns_unused hunused]
    exact hm
  refine h.update rfl hpass (h.files.congr ?_ rfl rfl)
    ⟨fun _ ↦ Proc.Cleared.freed hidle, fun _ ↦ hidle, ?_⟩
  · intro o
    change (Function.update s.procs q (s.procs q).freed o).ofile = _
    rw [Function.update_apply]
    split
    · next heq =>
      rw [heq]
      rfl
    · rfl
  · intro he
    cases he

theorem Inv.fork (h : Inv k early s 0) (hrun : (s.procs p).state = .RUNNABLE) :
    Returns (Vm.fork k s p) (fun r ↦ Inv k early r.2 0) := by
  have hshape := h.mem.shape (live_of_runnable hrun)
  have hcwd := (h.procs p).cwd hrun
  have hidle {q : Slot} (hq : (s.procs q).state = .UNUSED) : ∀ fd, (s.procs q).ofile fd = none := by
    apply (h.procs q).idle
    rw [hq]
    exact fun he ↦ nomatch he
  apply (fork_cases hshape (fun q ↦ (h.procs q).unused)
    (fun _ _ hfd ↦ h.files.ref_pos hfd) hcwd).mono
  rintro r (⟨q, np, m, ip, hq, hip, hc⟩ | _ | ⟨q, m, hq, hm⟩)
  · have hlive : (np.child (s.procs p) p).Live := fun he ↦ nomatch he
    have hpass : Passes k s (s.forked p q np m ip) q := by
      refine Passes.update (np.child (s.procs p) p) rfl rfl rfl ?_ (fun _ ↦ hc.shape.layout)
      rw [Proc.owns_unused hq, Proc.owns_live hlive]
      exact hc.moves
    apply h.update rfl hpass (h.files.forked (hidle hq))
    exact ⟨(fun he ↦ nomatch he), fun hne ↦ absurd rfl hne, fun _ ↦ hcwd⟩
  · exact h
  · apply h.freed (hidle hq)
    rw [Proc.owns_unused hq]
    exact hm

/-! ### `exec`, `sbrk` and stores -/

/-- A process that runs gets another image. -/
theorem Inv.image (h : Inv k early s 0) (hrun : (s.procs p).state = .RUNNABLE) (pr' : Proc)
    {m : Mem} (it : Inodes) (hpr : pr'.state = (s.procs p).state)
    (hofile : pr'.ofile = (s.procs p).ofile) (hcwd : pr'.cwd = (s.procs p).cwd)
    (hm : Moves s.mem.toHeap m.toHeap ((s.procs p).hold s.mem.cells) (pr'.hold m.cells))
    (hl : Layout m.cells pr'.pagetable (pages pr'.sz) (topEntries k pr'.trapframe)) :
    Inv k early (State.setProc { s with mem := m, inodes := it } p pr') 0 := by
  have hrun' : pr'.state = .RUNNABLE := hpr.trans hrun
  have hpass : Passes k s (State.setProc { s with mem := m, inodes := it } p pr') p := by
    refine Passes.update pr' rfl rfl rfl ?_ (fun _ ↦ hl)
    rw [Proc.owns_live (live_of_runnable hrun), Proc.owns_live (live_of_runnable hrun')]
    exact hm
  refine h.update rfl hpass (h.files.congr ?_ rfl rfl) ⟨?_, ?_, ?_⟩
  · intro o
    rw [State.setProc_procs, Function.update_apply]
    split
    · next heq => rw [heq, hofile]
    · rfl
  · intro he
    exact absurd he (live_of_runnable hrun')
  · intro hne
    exact absurd hrun' hne
  · intro _
    rw [hcwd]
    exact (h.procs p).cwd hrun

theorem Inv.exec (h : Inv k early s 0) (hrun : (s.procs p).state = .RUNNABLE) (upath uargv : Nat)
    (fs : List UInt8 → Option (Nat × List UInt8)) :
    Returns (sysExec k s p upath uargv fs) (fun r ↦ Inv k early r.2 0) := by
  apply (sysExec_cases (h.mem.shape (live_of_runnable hrun)) upath uargv fs).mono
  rintro r (⟨m, it, -, hm⟩ | ⟨argc, new, sz, name, m, it, -, hshape, hm⟩)
  · have hmoves := hm.add s.openPipes
    rw [zero_add] at hmoves
    have hpass : Passes k s { s with mem := m, inodes := it } p := by
      refine Passes.idle h.mem ?_ ?_ ?_ p
      · exact fun o ↦ Proc.SameMemory.refl _
      · rfl
      · exact hmoves
    exact ⟨h.boot, hpass.memOk h.mem, h.files.congr (fun _ ↦ rfl) rfl rfl, h.procs⟩
  · exact h.image hrun _ it rfl rfl rfl hm hshape.layout

theorem Inv.sbrk (h : Inv k early s 0) (hrun : (s.procs p).state = .RUNNABLE) {n : Int}
    (hlo : -2 ^ 31 ≤ n) (hhi : n < 2 ^ 31) :
    Returns (sysSbrk k s p n) (fun s' ↦ Inv k early s' 0) := by
  have hlive := live_of_runnable hrun
  unfold sysSbrk
  apply (growproc_spec (h.mem.shape hlive) hlo hhi).bind
  rintro ⟨sz, m⟩ ⟨-, hg⟩
  have hmoves := hg.moves.add (one (s.procs p).trapframe)
  cases sz with
  | none => exact Returns.pure (h.withMem hlive hmoves hg.layout)
  | some sz =>
    refine Returns.pure ?_
    exact h.image hrun { s.procs p with sz := sz } s.inodes rfl rfl rfl hmoves hg.layout

theorem Inv.store (h : Inv k early s 0) (hrun : (s.procs p).state = .RUNNABLE) {va : Nat}
    {b : UInt8} {m : Mem} (hm : userStore s.mem (s.procs p).pagetable va b = some m) :
    Inv k early { s with mem := m } 0 := by
  have hlive := live_of_runnable hrun
  obtain ⟨-, -, hshape, hmoves⟩ := (h.mem.shape hlive).userStore hm
  exact h.withMem hlive hmoves hshape.layout

/-! ### `wait` -/

theorem zombieChild_some {q : Slot} (h : zombieChild s p = some q) :
    (s.procs q).state = .ZOMBIE := by
  have hp := List.find?_some h
  simp only [decide_eq_true_eq] at hp
  exact hp.2

theorem Inv.wait (h : Inv k early s 0) (hrun : (s.procs p).state = .RUNNABLE) (addr : Nat) :
    Returns (sysWait k s p addr) (fun s' ↦ Inv k early s' 0) := by
  unfold sysWait
  split
  · exact Returns.ok h
  · next q hq =>
    have hzombie := zombieChild_some hq
    have hidle : ∀ fd, (s.procs q).ofile fd = none := by
      apply (h.procs q).idle
      rw [hzombie]
      exact fun he ↦ nomatch he
    have hlive : (s.procs q).Live := by
      intro he
      rw [hzombie] at he
      cases he
    -- the exit status is stored, or there is no place for it
    have hcopy : Inv k early { s with mem := (if addr ≠ 0 then
        Vm.copyout s.mem (s.procs p).pagetable addr (intBytes (s.procs q).xstate)
        else (true, s.mem)).2 } 0 := by
      split
      · exact h.copyout (live_of_runnable hrun) addr _
      · exact h
    dsimp only
    generalize (if addr ≠ 0 then
        Vm.copyout s.mem (s.procs p).pagetable addr (intBytes (s.procs q).xstate)
        else (true, s.mem)) = r at hcopy ⊢
    split
    · apply (freeproc_spec (hcopy.mem.shape hlive)).bind
      intro m hm
      refine Returns.pure (hcopy.freed hidle ?_ s.nextpid)
      rw [Proc.owns_live hlive]
      exact hm
    · exact Returns.ok hcopy

/-! ### `close` and `pipe` -/

theorem Inv.close (h : Inv k early s 0) (hrun : (s.procs p).state = .RUNNABLE) (fd : Int) :
    Returns (sysClose k s p fd) (fun s' ↦ Inv k early s' 0) := by
  unfold sysClose
  split
  · next hfd =>
    dsimp only
    split
    · exact Returns.ok h
    · next f hf =>
      have hin := h.setFds hrun (h.files.uninstall hf)
      apply hin.fileclose.mono
      rintro s' ⟨hs', -⟩
      exact hs'
  · exact Returns.ok h

theorem freeFd_some {fd : Fin NOFILE} (h : freeFd pr = some fd) : pr.ofile fd = none := by
  have hp := List.find?_some h
  simpa using hp

theorem setFd_ofile (pr : Proc) (fd : Fin NOFILE) (o : Option (Fin NFILE)) (fd' : Fin NOFILE) :
    (pr.setFd fd o).ofile fd' = if fd' = fd then o else pr.ofile fd' := Function.update_apply ..

/-- Descriptors that were free are free again. -/
theorem setFd_undo {fd0 fd1 : Fin NOFILE} {f g : Fin NFILE} (h0 : pr.ofile fd0 = none)
    (h1 : (pr.setFd fd0 (some f)).ofile fd1 = none) :
    ((((pr.setFd fd0 (some f)).setFd fd1 (some g)).setFd fd0 none).setFd fd1 none).ofile =
      pr.ofile := by
  have hne : fd1 ≠ fd0 := by
    rintro rfl
    rw [setFd_ofile, if_pos rfl] at h1
    cases h1
  have hold : pr.ofile fd1 = none := by
    rw [setFd_ofile, if_neg hne] at h1
    exact h1
  funext fd
  rw [setFd_ofile, setFd_ofile, setFd_ofile, setFd_ofile]
  by_cases hfd1 : fd = fd1
  · rw [if_pos hfd1, hfd1, hold]
  · rw [if_neg hfd1]
    by_cases hfd0 : fd = fd0
    · rw [if_pos hfd0, hfd0, h0]
    · rw [if_neg hfd0, if_neg hfd1, if_neg hfd0]

/-- The descriptors of a process are the same, in a slot that was stored again. -/
theorem Inv.restore {held : Fin NFILE → Nat} (h : Inv k early s held)
    (hrun : (s.procs p).state = .RUNNABLE) {ofile : Fin NOFILE → Option (Fin NFILE)}
    (hofile : ofile = (s.procs p).ofile) :
    Inv k early (s.setProc p { s.procs p with ofile := ofile }) held := by
  apply h.setFds hrun
  apply h.files.setProc
  intro g
  rw [hofile]

/-- The references of two new descriptors. -/
theorem hits_setBoth {fd0 fd1 : Fin NOFILE} {f g : Fin NFILE} (h0 : pr.ofile fd0 = none)
    (h1 : (pr.setFd fd0 (some f)).ofile fd1 = none) (x : Fin NFILE) :
    hits ((pr.setFd fd0 (some f)).setFd fd1 (some g)).ofile (some x) =
      hits pr.ofile (some x) + (one g x + one f x) := by
  have hfirst := hits_setFd pr fd0 (some f) x
  have hsecond := hits_setFd (pr.setFd fd0 (some f)) fd1 (some g) x
  rw [h0, if_neg (fun he ↦ nomatch he), ← one_eq_ite] at hfirst
  rw [h1, if_neg (fun he ↦ nomatch he), ← one_eq_ite] at hsecond
  omega

/-- Two files in hand get descriptors. -/
theorem Inv.installBoth {fd0 fd1 : Fin NOFILE} {rf wf : Fin NFILE}
    (h : Inv k early s (0 + one wf + one rf)) (hrun : (s.procs p).state = .RUNNABLE)
    (h0 : (s.procs p).ofile fd0 = none) (h1 : ((s.procs p).setFd fd0 (some rf)).ofile fd1 = none) :
    Inv k early (s.setProc p (((s.procs p).setFd fd0 (some rf)).setFd fd1 (some wf))) 0 := by
  apply h.setFds hrun
  apply h.files.setProc
  intro x
  have hboth := hits_setBoth (g := wf) h0 h1 x
  simp only [Pi.add_apply, Pi.zero_apply]
  change hits (((s.procs p).setFd fd0 (some rf)).setFd fd1 (some wf)).ofile (some x) + 0 = _
  omega

/-- The two descriptors are taken away again. -/
theorem Inv.removeBoth {fd0 fd1 : Fin NOFILE} {rf wf : Fin NFILE} (h : Inv k early s 0)
    (hrun : (s.procs p).state = .RUNNABLE)
    (hpr : s.procs p = (pr.setFd fd0 (some rf)).setFd fd1 (some wf))
    (h0 : pr.ofile fd0 = none) (h1 : (pr.setFd fd0 (some rf)).ofile fd1 = none) :
    Inv k early (s.setProc p (((s.procs p).setFd fd0 none).setFd fd1 none))
      (0 + one wf + one rf) := by
  apply h.setFds hrun
  apply h.files.setProc
  intro x
  have hboth := hits_setBoth (g := wf) h0 h1 x
  have hundo : (((s.procs p).setFd fd0 none).setFd fd1 none).ofile = pr.ofile := by
    rw [hpr]
    exact setFd_undo h0 h1
  simp only [Pi.add_apply, Pi.zero_apply]
  change hits (((s.procs p).setFd fd0 none).setFd fd1 none).ofile (some x) + _ = _
  rw [hundo, hpr]
  omega

/-- The two numbers are stored, as far as there is a place for them. -/
theorem Inv.storeFds (h : Inv k early s 0) (hlive : (s.procs p).Live) {pt : Nat}
    (hpt : (s.procs p).pagetable = pt) (fd0 fd1 : Fin NOFILE) (fdarray : Nat) :
    Inv k early { s with mem :=
      (if (Vm.copyout s.mem pt fdarray (fdBytes fd0)).1 = true then
        Vm.copyout (Vm.copyout s.mem pt fdarray (fdBytes fd0)).2 pt ((fdarray + 4) % 2 ^ 64)
          (fdBytes fd1)
      else (false, (Vm.copyout s.mem pt fdarray (fdBytes fd0)).2)).2 } 0 := by
  have hfirst := h.copyout hlive fdarray (fdBytes fd0)
  rw [hpt] at hfirst
  split
  · have hsecond := hfirst.copyout hlive ((fdarray + 4) % 2 ^ 64) (fdBytes fd1)
    rw [hpt] at hsecond
    exact hsecond
  · exact hfirst

theorem Inv.pipe (h : Inv k early s 0) (hrun : (s.procs p).state = .RUNNABLE) (fdarray : Nat) :
    Returns (sysPipe k s p fdarray) (fun s' ↦ Inv k early s' 0) := by
  unfold sysPipe
  apply (pipealloc_spec h.files h.mem.soundPipes).bind
  rintro ⟨files, s₁⟩ ⟨hc, hfiles⟩
  dsimp only at hc hfiles ⊢
  have hrun₁ : (s₁.procs p).state = .RUNNABLE := by
    rw [hc.procs]
    exact hrun
  cases files with
  | none => exact Returns.pure (h.closed hfiles hc)
  | some fs =>
    obtain ⟨rf, wf⟩ := fs
    have h₁ : Inv k early s₁ (0 + one wf + one rf) := h.closed hfiles hc
    dsimp only
    split
    · exact h₁.closeBoth
    · next fd0 hfd0 =>
      have h0 := freeFd_some hfd0
      split
      · next hfd1 =>
        have hundo :
            (((s₁.procs p).setFd fd0 (some rf)).setFd fd0 none).ofile = (s₁.procs p).ofile := by
          funext fd
          rw [setFd_ofile, setFd_ofile]
          split
          · next heq => rw [heq, h0]
          · rfl
        exact (h₁.restore hrun₁ hundo).closeBoth
      · next fd1 hfd1 =>
        have h1 := freeFd_some hfd1
        have h₂ := h₁.installBoth hrun₁ h0 h1
        have hself :
            (s₁.setProc p (((s₁.procs p).setFd fd0 (some rf)).setFd fd1 (some wf))).procs p =
            ((s₁.procs p).setFd fd0 (some rf)).setFd fd1 (some wf) := Function.update_self ..
        have hrun₂ : ((s₁.setProc p (((s₁.procs p).setFd fd0 (some rf)).setFd fd1
            (some wf))).procs p).state = .RUNNABLE := by
          rw [hself]
          exact hrun₁
        have h₃ := h₂.storeFds (live_of_runnable hrun₂)
          (congrArg Proc.pagetable hself) fd0 fd1 fdarray
        generalize (if (Vm.copyout _ _ fdarray (fdBytes fd0)).1 = true then _ else _) = r at h₃ ⊢
        split
        · exact Returns.pure h₃
        · have h₄ := h₃.removeBoth hrun₂ hself h0 h1
          rw [show (State.procs
            { s₁.setProc p (((s₁.procs p).setFd fd0 (some rf)).setFd fd1 (some wf)) with
            mem := r.2 }) p = _ from hself] at h₄
          exact h₄.closeBoth

/-! ### `exit` -/

/-- `fileclose` does not look at the processes. -/
theorem fileclose_procs (k : Kernel) (s : State) (f : Fin NFILE) (procs : Slot → Proc) :
    Vm.fileclose k { s with procs := procs } f =
      (fun s' ↦ { s' with procs := procs }) <$> Vm.fileclose k s f := by
  have hpipe : ∀ (s : State) (pi : Nat) (w : Bool), pipeclose k { s with procs := procs } pi w =
      (fun s' ↦ { s' with procs := procs }) <$> pipeclose k s pi w := by
    intro s pi w
    rw [pipeclose_eq, pipeclose_eq]
    dsimp only
    split
    · cases kfree k s.mem pi with
      | error e => rfl
      | ok m => rfl
    · rfl
  unfold Vm.fileclose
  dsimp only
  split
  · rfl
  · split
    · rfl
    · split
      · exact hpipe (s.setFile f { s.files f with ref := 0, type := .FD_NONE }) _ _
      · rfl

/-- One round of `exit`: the file of a descriptor is closed, and then the descriptor is. -/
theorem Inv.closeFd (h : Inv k early s 0) (hrun : (s.procs p).state = .RUNNABLE) {fd : Fin NOFILE}
    (hfd : (s.procs p).ofile fd = some f) :
    Returns (Vm.fileclose k s f) (fun s' ↦ s'.procs = s.procs ∧
      Inv k early (s'.setProc p ((s.procs p).setFd fd none)) 0) := by
  have hprocs := fileclose_procs k s f s.procs
  have hclose := (h.setFds hrun (h.files.uninstall hfd)).fileclose
  rw [State.setProc, fileclose_procs] at hclose
  obtain ⟨s₁, heq, hinv, -⟩ := hclose
  cases hs : Vm.fileclose k s f with
  | error e =>
    rw [hs] at heq
    cases heq
  | ok s' =>
    rw [hs] at heq hprocs
    have hsame : s' = { s' with procs := s.procs } := Except.ok.inj hprocs
    cases heq
    have hs' : s'.procs = s.procs := by rw [hsame]
    refine Returns.ok ⟨hs', ?_⟩
    rw [State.setProc, hs']
    exact hinv

/-- The loop of `exit` closes the descriptors of its list. -/
theorem Inv.closeFiles (h : Inv k early s 0) (hrun : (s.procs p).state = .RUNNABLE)
    (fds : List (Fin NOFILE)) :
    Returns (closeFiles k p fds s) (fun s' ↦ Inv k early s' 0 ∧
      (∃ ofile, s'.procs p = { s.procs p with ofile := ofile }) ∧
      ∀ fd, fd ∈ fds ∨ (s.procs p).ofile fd = none → (s'.procs p).ofile fd = none) := by
  induction fds generalizing s with
  | nil =>
    refine Returns.ok ⟨h, ⟨_, rfl⟩, ?_⟩
    rintro fd (hfd | hfd)
    · cases hfd
    · exact hfd
  | cons fd fds ih =>
    rw [Vm.closeFiles]
    split
    · next hnone =>
      apply (ih h hrun).mono
      rintro s' ⟨hs', hpr, hfds⟩
      refine ⟨hs', hpr, ?_⟩
      intro fd' hfd'
      apply hfds
      rcases hfd' with hmem | hclosed
      · rcases List.mem_cons.mp hmem with rfl | hmem
        · exact Or.inr hnone
        · exact Or.inl hmem
      · exact Or.inr hclosed
    · next f hsome =>
      apply (h.closeFd hrun hsome).bind
      rintro s₁ ⟨hprocs, h₁⟩
      rw [hprocs]
      have hself : (s₁.setProc p ((s.procs p).setFd fd none)).procs p = (s.procs p).setFd fd none :=
        Function.update_self ..
      have hrun₁ : ((s₁.setProc p ((s.procs p).setFd fd none)).procs p).state = .RUNNABLE := by
        rw [hself]
        exact hrun
      apply (ih h₁ hrun₁).mono
      rintro s' ⟨hs', ⟨ofile, hpr⟩, hfds⟩
      rw [hself] at hpr hfds
      refine ⟨hs', ⟨ofile, hpr⟩, ?_⟩
      intro fd' hfd'
      apply hfds
      rw [setFd_ofile]
      by_cases heq : fd' = fd
      · exact Or.inr (if_pos heq)
      · rw [if_neg heq]
        rcases hfd' with hmem | hclosed
        · exact Or.inl ((List.mem_cons.mp hmem).resolve_left heq)
        · exact Or.inr hclosed

theorem reparent_procs (s : State) (p o : Slot) :
    ∃ parent, (reparent s p).procs o = { s.procs o with parent := parent } := by
  dsimp only [reparent]
  split
  · exact ⟨_, rfl⟩
  · exact ⟨(s.procs o).parent, rfl⟩

/-- The slots after `exit`: that of the process, which keeps its memory until it is waited for, and
the others, with other parents. -/
theorem zombie_procs (s : State) (p o : Slot) (status : Nat) :
    let s' := reparent (s.setProc p { s.procs p with cwd := none }) p
    let pr := (s'.setProc p { s'.procs p with xstate := status, state := .ZOMBIE }).procs o
    (o = p ∧ ∃ parent, pr = { s.procs p with
      cwd := none, parent := parent, xstate := status, state := .ZOMBIE }) ∨
    (o ≠ p ∧ ∃ parent, pr = { s.procs o with parent := parent }) := by
  intro s' pr
  obtain ⟨parent, hpr⟩ := reparent_procs (s.setProc p { s.procs p with cwd := none }) p o
  by_cases ho : o = p
  · refine Or.inl ⟨ho, parent, ?_⟩
    subst ho
    rw [State.setProc_procs, Function.update_self] at hpr
    change (s'.setProc o { s'.procs o with xstate := status, state := .ZOMBIE }).procs o = _
    rw [State.setProc_procs, Function.update_self, hpr]
  · refine Or.inr ⟨ho, parent, ?_⟩
    rw [State.setProc_procs, Function.update_of_ne ho] at hpr
    change (s'.setProc p { s'.procs p with xstate := status, state := .ZOMBIE }).procs o = _
    rw [State.setProc_procs, Function.update_of_ne ho, hpr]

/-- `exit` after the descriptors are closed. -/
theorem Inv.zombie (h : Inv k early s 0) (hrun : (s.procs p).state = .RUNNABLE)
    (hfds : ∀ fd, (s.procs p).ofile fd = none) (status : Nat) :
    let s' := reparent (s.setProc p { s.procs p with cwd := none }) p
    Inv k early (s'.setProc p { s'.procs p with xstate := status, state := .ZOMBIE }) 0 := by
  intro s'
  have hslot := fun o ↦ zombie_procs s p o status
  refine h.sameMemory rfl rfl rfl ?_ (h.files.congr ?_ rfl rfl) ?_
  · intro o
    rcases hslot o with ⟨rfl, parent, hpr⟩ | ⟨-, parent, hpr⟩
    · rw [hpr]
      exact ⟨⟨fun _ ↦ live_of_runnable hrun, fun _ he ↦ nomatch he⟩, rfl, rfl, rfl⟩
    · rw [hpr]
      exact ⟨Iff.rfl, rfl, rfl, rfl⟩
  · intro o
    rcases hslot o with ⟨rfl, parent, hpr⟩ | ⟨-, parent, hpr⟩
    · rw [hpr]
    · rw [hpr]
  · intro o
    rcases hslot o with ⟨rfl, parent, hpr⟩ | ⟨-, parent, hpr⟩
    · rw [hpr]
      exact ⟨(fun he ↦ nomatch he), fun _ ↦ hfds, (fun he ↦ nomatch he)⟩
    · rw [hpr]
      have hunused (he : (s.procs o).state = .UNUSED) :
          Proc.Cleared { s.procs o with parent := parent } :=
        let hc := (h.procs o).unused he
        ⟨hc.sz, hc.pagetable, hc.ofile⟩
      exact ⟨hunused, (h.procs o).idle, (h.procs o).cwd⟩

theorem Inv.exit (h : Inv k early s 0) (hrun : (s.procs p).state = .RUNNABLE) (hp : p ≠ initSlot)
    (status : Nat) : Returns (sysExit k s p status) (fun s' ↦ Inv k early s' 0) := by
  rw [sysExit, if_neg hp]
  apply (h.closeFiles hrun (List.finRange NOFILE)).bind
  rintro s₁ ⟨h₁, ⟨ofile, hpr⟩, hfds⟩
  have hrun₁ : (s₁.procs p).state = .RUNNABLE := by
    rw [hpr]
    exact hrun
  have hfds : ∀ fd, (s₁.procs p).ofile fd = none := fun fd ↦ hfds fd (Or.inl (List.mem_finRange fd))
  cases hcwd : (s₁.procs p).cwd with
  | none => exact absurd hcwd ((h₁.procs p).cwd hrun₁)
  | some ip =>
    have hiput : Inv k early { s₁ with inodes := (s₁.inodes.begin_op.iput ip).end_op } 0 :=
      ⟨h₁.boot, ⟨h₁.mem.layout, h₁.mem.total⟩, h₁.files.congr (fun _ ↦ rfl) rfl rfl, h₁.procs⟩
    exact Returns.pure (hiput.zombie hrun₁ hfds status)

/-! ### Runs -/

/-- The argument of `sbrk` is an `int`; `kernel/sysproc.c:43`. -/
def Call.Typed : Call → Prop
  | .sbrk _ n _ => -2 ^ 31 ≤ n ∧ n < 2 ^ 31
  | _ => True

/-- Every call that a process can make returns. -/
theorem Inv.perform {c : Call} (h : Inv k early s 0) (hc : c.Typed) (he : c.enabled s = true) :
    Returns (c.perform k s) (fun s' ↦ Inv k early s' 0) := by
  rw [Call.enabled, Bool.and_eq_true, decide_eq_true_eq] at he
  obtain ⟨hrun, hready⟩ := he
  cases c with
  | fork p fails =>
    obtain ⟨r, hr, hinv⟩ := (h.failing fails).fork (p := p) hrun
    rw [Call.perform, hr]
    exact Returns.ok hinv
  | exec p upath uargv fs fails =>
    obtain ⟨r, hr, hinv⟩ := (h.failing fails).exec (p := p) hrun upath uargv fs
    rw [Call.perform, hr]
    exact Returns.ok hinv
  | sbrk p n fails => exact (h.failing fails).sbrk hrun hc.1 hc.2
  | pipe p fdarray fails => exact (h.failing fails).pipe hrun fdarray
  | close p fd => exact h.close hrun fd
  | exit p status => exact h.exit hrun (of_decide_eq_true hready) status
  | wait p addr killed => exact h.wait hrun addr
  | store p va b =>
    obtain ⟨m, hm⟩ := Option.isSome_iff_exists.mp hready
    rw [Call.perform, hm]
    exact Returns.ok (h.store hrun hm)

theorem Inv.step {c : Call} (h : Inv k early s 0) (hc : c.Typed) (hstep : Vm.step k s c = some s') :
    Inv k early s' 0 := by
  unfold Vm.step at hstep
  split at hstep
  · next he =>
    obtain ⟨t, ht, hinv⟩ := h.perform hc he
    rw [ht] at hstep
    cases hstep
    exact hinv
  · cases hstep

/-! ### The first process -/

theorem Inv.beforeUserinit (k : Kernel) (n : Nat) :
    Inv k ((kinit k).take n) (Vm.beforeUserinit k n) 0 := by
  have hunused : ∀ p, ((Vm.beforeUserinit k n).procs p).state = .UNUSED := fun _ ↦ rfl
  refine ⟨rfl, ⟨?_, ?_⟩, ⟨?_, fun _ _ ↦ rfl, ?_, ?_⟩, ?_⟩
  · intro p hlive
    exact absurd (hunused p) hlive
  · intro q
    have hprocs :
        ∀ p, ((Vm.beforeUserinit k n).procs p).owns (Vm.beforeUserinit k n).mem.cells = 0 :=
      fun p ↦ Proc.owns_unused (hunused p)
    have hpipes : (Vm.beforeUserinit k n).openPipes q = 0 := rfl
    have hfree : (Vm.beforeUserinit k n).mem.free = (kinit k).drop n := rfl
    have hearly : (Vm.beforeUserinit k n).early = (kinit k).take n := rfl
    simp only [State.owned, hprocs, Finset.sum_const_zero, Pi.add_apply, Pi.zero_apply, hpipes,
      hfree, hearly, Nat.zero_add]
    rw [Nat.add_comm, ← List.count_append, List.take_append_drop]
  · intro f
    have hfds : (Vm.beforeUserinit k n).fds f = 0 := by
      apply Finset.sum_eq_zero
      intro p _
      rw [refsTo_eq_hits]
      exact hits_eq_zero (by intro _ he; cases he)
    rw [hfds]
    rfl
  · intro pi w
    constructor
    · intro hopen
      cases w <;> cases hopen
    · rintro ⟨f, htype, -⟩
      cases htype
  · rintro f g pi w ⟨htype, -⟩ _
    cases htype
  · intro p
    exact ⟨fun _ ↦ ⟨rfl, rfl, fun _ ↦ rfl⟩, fun _ _ ↦ rfl, (by intro he; cases he)⟩

/-- `userinit`, when its allocations succeed: it needs a trapframe, a page table of five pages and
the page of `initcode`. -/
theorem Inv.userinit {n : Nat} (hn : 7 ≤ (Vm.beforeUserinit k n).mem.free.length) :
    Returns (Vm.userinit k (Vm.beforeUserinit k n)) (fun s ↦ Inv k ((kinit k).take n) s 0) := by
  have h := Inv.beforeUserinit k n
  apply (userinit_spec (beforeUserinit_sound k n) ⟨rfl, rfl, fun _ ↦ rfl⟩ rfl hn).mono
  rintro s ⟨tf, pt, m, rfl, hshape, hmoves, -⟩
  refine h.update rfl (Passes.update _ rfl rfl rfl ?_ (fun _ ↦ hshape.layout)) ?_ ?_
  · rw [Proc.owns_unused rfl, Proc.owns_live (live_of_runnable rfl)]
    exact hmoves
  · refine h.files.congr ?_ rfl rfl
    intro o
    change (Function.update (Vm.beforeUserinit k n).procs initSlot _ o).ofile = _
    rw [Function.update_apply]
    split
    · rfl
    · rfl
  · exact ⟨(fun he ↦ nomatch he), fun hne ↦ absurd rfl hne, fun _ he ↦ nomatch he⟩

end

end Xv6.Vm
