import Xv6.Fd.Exact
import Xv6.Tree.Exact
import Xv6.Vm.Copyin
import Xv6.Vm.Freelist

/-!
# `pipe` with the memory it uses

`sys_pipe` (`kernel/sysfile.c:477–506`) on the tables of `Xv6.Fd.Model` and on physical memory: a
pipe takes a page from `kalloc`, and the descriptors are stored with `copyout` at an address that
the user chose. Each of the seven ways to fail takes back what was done before it.
-/

namespace Xv6.Fd.PipeCall

open Xv6.Lib
open Xv6.Vm (Mem Kernel kalloc kfree)

/-- The tables, and the memory; pipe number `pi` is in the page `page pi`. -/
structure Sys where
  tables : State
  mem : Mem
  page : Nat → Nat

/-- `pipeclose`; `kernel/pipe.c:58–74`. -/
def pipeclose (k : Kernel) (s : Sys) (pi : Nat) (writable : Bool) : Except String Sys :=
  let s := { s with tables := Fd.pipeclose s.tables pi writable }
  let p := s.tables.pipes pi
  if p.readopen = false ∧ p.writeopen = false then do
    let mem ← kfree k s.mem (s.page pi)
    return { s with mem := mem }
  else .ok s

/-- `fileclose`; `kernel/file.c:59–84`. -/
def fileclose (k : Kernel) (s : Sys) (f : Fin NFILE) : Except String Sys :=
  let t := s.tables
  let ff := t.files f
  if ff.ref < 1 then .error "fileclose"
  else if ff.ref - 1 > 0 then .ok { s with tables := t.setTables (t.toTables.unref f) }
  else
    let t := { t.setTables (t.toTables.unref f) with pipe := Function.update t.pipe f none }
    match s.tables.pipe f, ff.target.ip with
    | some pi, _ => pipeclose k { s with tables := t } pi ff.writable
    | none, some ip => .ok { s with tables := t.withTree (Tree.iput t.toState ip) }
    | none, none => .ok { s with tables := t }

/-- `filealloc`; `kernel/file.c:29–44`. -/
def filealloc (s : Sys) : Option (Fin NFILE × Sys) :=
  (Fd.filealloc s.tables).map (fun r ↦ (r.1, { s with tables := r.2 }))

/-- `pipealloc`; `kernel/pipe.c:22–56`. -/
def pipealloc (k : Kernel) (s : Sys) : Except String (Option (Fin NFILE × Fin NFILE) × Sys) :=
  match filealloc s with
  | none => .ok (none, s)
  | some (f0, s) =>
    match filealloc s with
    | none => do
      let s ← fileclose k s f0
      return (none, s)
    | some (f1, s) =>
      match kalloc s.mem with
      | (some page, mem) =>
        .ok (some (f0, f1), { tables := openPipe s.tables f0 f1, mem := mem,
                              page := Function.update s.page s.tables.npipes page })
      | (none, mem) => do
        let s ← fileclose k { s with mem := mem } f0
        let s ← fileclose k s f1
        return (none, s)

/-- The end of `sys_pipe` on an error: close both files. -/
def closeBoth (k : Kernel) (s : Sys) (rf wf : Fin NFILE) : Except String (Int × Sys) := do
  let s ← fileclose k s rf
  let s ← fileclose k s wf
  return (-1, s)

/-- `p->ofile[fd] = f` for the process `pr` in slot `p`. -/
def Sys.setFd (s : Sys) (p : Tree.Slot) (pr : Tree.Proc) (fd : Fin NOFILE)
    (f : Option (Fin NFILE)) :
    Sys :=
  { s with tables := s.tables.setTables (s.tables.toTables.setFd p pr fd f) }

/-- The four bytes of an `int` that is not negative. -/
def intBytes (n : Nat) : List UInt8 := (List.range 4).map (fun i ↦ UInt8.ofNat (n / 256 ^ i))

/-- The two calls of `copyout`; `kernel/sysfile.c:496–497`. -/
def copyoutFds (m : Mem) (pagetable fdarray fd0 fd1 : Nat) : Bool × Mem :=
  match Vm.copyout m pagetable fdarray (intBytes fd0) with
  | (false, m) => (false, m)
  | (true, m) => Vm.copyout m pagetable ((fdarray + 4) % 2 ^ 64) (intBytes fd1)

/-- `sys_pipe` once it has a pipe; `kernel/sysfile.c:488–505`. -/
def storeFds (k : Kernel) (s : Sys) (p : Tree.Slot) (pr : Tree.Proc) (pagetable fdarray : Nat)
    (rf wf : Fin NFILE) : Except String (Int × Sys) :=
  match Tree.freeFd pr with
  | none => closeBoth k s rf wf
  | some fd0 =>
    let s := s.setFd p pr fd0 (some rf)
    let pr := ofile pr fd0 (some rf)
    match Tree.freeFd pr with
    | none => closeBoth k (s.setFd p pr fd0 none) rf wf
    | some fd1 =>
      let s := s.setFd p pr fd1 (some wf)
      let pr := ofile pr fd1 (some wf)
      match copyoutFds s.mem pagetable fdarray fd0 fd1 with
      | (true, mem) => .ok (0, { s with mem := mem })
      | (false, mem) =>
        let s := { s with mem := mem }.setFd p pr fd0 none
        let pr := ofile pr fd0 none
        closeBoth k (s.setFd p pr fd1 none) rf wf

/-- `sys_pipe` of the process `pr` in slot `p`; `kernel/sysfile.c:477–506`. -/
def sysPipe (k : Kernel) (s : Sys) (p : Tree.Slot) (pr : Tree.Proc) (pagetable fdarray : Nat) :
    Except String (Int × Sys) := do
  let (r, s) ← pipealloc k s
  match r with
  | none => return (-1, s)
  | some (rf, wf) => storeFds k s p pr pagetable fdarray rf wf

/-- What is so between calls: a free file has no type, and `kfree` accepts the pages of the free
list. -/
structure Ready (k : Kernel) (s : Sys) : Prop where
  closed : ∀ f, (s.tables.files f).ref = 0 →
    (s.tables.files f).target = .none ∧ s.tables.pipe f = none
  usable : ∀ page ∈ s.mem.free, k.Usable page

/-- The descriptors, the counts and types of the files, and the free pages are the same: `target`
and `pipe` say what `f->type` is. -/
structure Unchanged (s s' : Sys) : Prop where
  procs : s'.tables.procs = s.tables.procs
  ref : ∀ f, (s'.tables.files f).ref = (s.tables.files f).ref
  type : ∀ f, (s'.tables.files f).target = (s.tables.files f).target ∧
    s'.tables.pipe f = s.tables.pipe f
  free : s'.mem.free = s.mem.free

/-! ### Files without a type -/

/-- Between `s` and `t` the files `fs` were taken, and nothing else changed. -/
structure Taken (s t : Sys) (fs : Finset (Fin NFILE)) : Prop where
  procs : t.tables.procs = s.tables.procs
  pipe : t.tables.pipe = s.tables.pipe
  others : ∀ f ∉ fs, t.tables.files f = s.tables.files f
  taken : ∀ f ∈ fs, (s.tables.files f).ref = 0 ∧
    t.tables.files f = { s.tables.files f with ref := 1 }
  free : t.mem.free = s.mem.free

section
variable {k : Kernel} {s t t' : Sys} {f f0 f1 : Fin NFILE} {fs : Finset (Fin NFILE)}

theorem Taken.refl (s : Sys) : Taken s s ∅ :=
  ⟨rfl, rfl, fun _ _ ↦ rfl, fun _ hf ↦ absurd hf (Finset.notMem_empty _), rfl⟩

theorem Taken.unchanged (h : Taken s t ∅) : Unchanged s t := by
  have hfile (f : Fin NFILE) : t.tables.files f = s.tables.files f :=
    h.others f (Finset.notMem_empty f)
  refine ⟨h.procs, ?_, ?_, h.free⟩
  · intro f
    rw [hfile]
  · intro f
    rw [hfile, h.pipe]
    exact ⟨rfl, rfl⟩

theorem filealloc_some (hl : filealloc t = some (f, t')) : (t.tables.files f).ref = 0 ∧
    t' = { t with tables := { t.tables with
      files := Function.update t.tables.files f { t.tables.files f with ref := 1 } } } := by
  rw [filealloc, Fd.filealloc, Option.map_map] at hl
  obtain ⟨g, hfree, heq⟩ := Option.map_eq_some_iff.mp hl
  have hzero : (t.tables.files g).ref = 0 := Tree.freeFile_some hfree
  cases heq
  exact ⟨hzero, rfl⟩

/-- `filealloc` takes a file that is free. -/
theorem Taken.filealloc (h : Taken s t fs) (hl : filealloc t = some (f, t')) :
    f ∉ fs ∧ Taken s t' (insert f fs) := by
  obtain ⟨hzero, rfl⟩ := filealloc_some hl
  have hf : f ∉ fs := by
    intro hf
    have hone := (h.taken f hf).2
    rw [hone] at hzero
    cases hzero
  refine ⟨hf, h.procs, h.pipe, ?_, ?_, h.free⟩
  · intro g hg
    rw [Finset.mem_insert, not_or] at hg
    exact (Function.update_of_ne hg.1 ..).trans (h.others g hg.2)
  · intro g hg
    by_cases hgf : g = f
    · rw [hgf, ← h.others f hf]
      exact ⟨hzero, Function.update_self ..⟩
    · obtain ⟨hs, ht⟩ := h.taken g (Finset.mem_of_mem_insert_of_ne hg hgf)
      exact ⟨hs, (Function.update_of_ne hgf ..).trans ht⟩

/-- The tables without file `f`. -/
def Sys.drop (s : Sys) (f : Fin NFILE) : Sys :=
  { s with tables := { s.tables with
      files := Function.update s.tables.files f { s.tables.files f with ref := 0, target := .none }
      pipe := Function.update s.tables.pipe f none } }

theorem unref_last {t : Tree.Tables} (h : (t.files f).ref = 1) : t.unref f =
    { t with files := Function.update t.files f { t.files f with ref := 0, target := .none } } := by
  rw [Tree.Tables.unref, if_neg (by omega)]

/-- `fileclose` of the last reference to a file without a type. -/
theorem fileclose_none (hone : (t.tables.files f).ref = 1) (hpipe : t.tables.pipe f = none)
    (htarget : (t.tables.files f).target = .none) : fileclose k t f = .ok (t.drop f) := by
  rw [fileclose, if_neg (by omega), if_neg (by omega)]
  simp only [hpipe, htarget, Tree.Target.ip, unref_last hone]
  rfl

/-- `fileclose` of the last reference to an end of a pipe. -/
theorem fileclose_pipe {pi : Nat} (hone : (t.tables.files f).ref = 1)
    (hpipe : t.tables.pipe f = some pi) :
    fileclose k t f = pipeclose k (t.drop f) pi (t.tables.files f).writable := by
  rw [fileclose, if_neg (by omega), if_neg (by omega)]
  simp only [hpipe, unref_last hone]
  rfl

/-- `fileclose` of a file without a type gives it back. -/
theorem Taken.fileclose (h : Taken s t fs) (hr : Ready k s) (hf : f ∈ fs) :
    ∃ t', fileclose k t f = .ok t' ∧ Taken s t' (fs.erase f) := by
  obtain ⟨hs, ht⟩ := h.taken f hf
  obtain ⟨htarget, hpipe⟩ := hr.closed f hs
  rw [← h.pipe] at hpipe
  refine ⟨t.drop f, fileclose_none (by rw [ht]) hpipe (by rw [ht, htarget]), h.procs, ?_, ?_, ?_,
    h.free⟩
  · exact (Function.update_eq_self_iff.mpr hpipe.symm).trans h.pipe
  · intro g hg
    by_cases hgf : g = f
    · rw [hgf]
      refine (Function.update_self ..).trans ?_
      rw [ht, ← hs, ← htarget]
    · apply (Function.update_of_ne hgf ..).trans (h.others g _)
      exact fun hin ↦ hg (Finset.mem_erase.mpr ⟨hgf, hin⟩)
  · intro g hg
    obtain ⟨hgf, hin⟩ := Finset.mem_erase.mp hg
    obtain ⟨hgs, hgt⟩ := h.taken g hin
    exact ⟨hgs, (Function.update_of_ne hgf ..).trans hgt⟩

/-! ### The two ends of a pipe -/

/-- Between `s` and `t` the files `f0` and `f1` became the ends of a new pipe. What the process has
done with its descriptors is left open. -/
structure Paired (s t : Sys) (f0 f1 : Fin NFILE) (pi : Nat) : Prop where
  ne : f0 ≠ f1
  others : ∀ f, f ≠ f0 → f ≠ f1 →
    t.tables.files f = s.tables.files f ∧ t.tables.pipe f = s.tables.pipe f
  ref : (s.tables.files f0).ref = 0 ∧ (s.tables.files f1).ref = 0
  readEnd : t.tables.files f0 = { ref := 1, target := .none, readable := true, writable := false }
  writeEnd : t.tables.files f1 = { ref := 1, target := .none, readable := false, writable := true }
  pipe : t.tables.pipe f0 = some pi ∧ t.tables.pipe f1 = some pi
  isOpen : t.tables.pipes pi = ⟨true, true, 0⟩
  free : s.mem.free = t.page pi :: t.mem.free

theorem Paired.setFd {pi : Nat} (h : Paired s t f0 f1 pi) (p : Tree.Slot) (pr : Tree.Proc)
    (fd : Fin NOFILE) (o : Option (Fin NFILE)) : Paired s (t.setFd p pr fd o) f0 f1 pi :=
  ⟨h.ne, h.others, h.ref, h.readEnd, h.writeEnd, h.pipe, h.isOpen, h.free⟩

theorem Paired.setMem {pi : Nat} (h : Paired s t f0 f1 pi) {mem : Mem}
    (hmem : mem.free = t.mem.free) :
    Paired s { t with mem := mem } f0 f1 pi :=
  ⟨h.ne, h.others, h.ref, h.readEnd, h.writeEnd, h.pipe, h.isOpen, hmem ▸ h.free⟩

/-- Replace the fields of one pipe. -/
def Sys.setPipe (s : Sys) (pi : Nat) (p : Pipe) : Sys :=
  { s with tables := { s.tables with pipes := Function.update s.tables.pipes pi p } }

/-- The first end is closed, and the pipe stays. -/
theorem pipeclose_first {pi : Nat} (h : t.tables.pipes pi = ⟨true, true, 0⟩) :
    pipeclose k t pi false = .ok (t.setPipe pi ⟨false, true, 0⟩) := by
  have hclose : (t.tables.pipes pi).close false = ⟨false, true, 0⟩ := by
    rw [h]
    rfl
  simp only [pipeclose, Fd.pipeclose, hclose, Function.update_self, Bool.true_eq_false, and_false,
    if_false]
  rfl

/-- With the second end its page is freed. -/
theorem pipeclose_second {pi : Nat} {mem : Mem} (h : t.tables.pipes pi = ⟨false, true, 0⟩)
    (hfree : kfree k t.mem (t.page pi) = .ok mem) :
    pipeclose k t pi true = .ok { t.setPipe pi ⟨false, false, 1⟩ with mem := mem } := by
  have hclose : (t.tables.pipes pi).close true = ⟨false, false, 1⟩ := by
    rw [h]
    rfl
  simp only [pipeclose, Fd.pipeclose, hclose, Function.update_self, and_self, if_true, hfree]
  rfl

theorem kfree_usable {m : Mem} {page : Nat} (h : k.Usable page) :
    ∃ m', kfree k m page = .ok m' ∧ m'.free = page :: m.free := by
  exact ⟨_, if_pos h, rfl⟩

/-- Closing both ends gives back the files and the page. -/
theorem Paired.closeBoth {pi : Nat} (h : Paired s t f0 f1 pi) (hr : Ready k s)
    (hprocs : t.tables.procs = s.tables.procs) :
    ∃ t', closeBoth k t f0 f1 = .ok (-1, t') ∧ Unchanged s t' := by
  have hk : k.Usable (t.page pi) := by
    apply hr.usable
    rw [h.free]
    exact List.mem_cons_self
  obtain ⟨mem, hkfree, hfree⟩ := kfree_usable (m := t.mem) hk
  have hfirst : fileclose k t f0 = .ok ((t.drop f0).setPipe pi ⟨false, true, 0⟩) := by
    rw [fileclose_pipe (by rw [h.readEnd]) h.pipe.1, h.readEnd]
    exact pipeclose_first h.isOpen
  have hfile : ((t.drop f0).setPipe pi ⟨false, true, 0⟩).tables.files f1 = t.tables.files f1 :=
    Function.update_of_ne (Ne.symm h.ne) ..
  have hpipe : ((t.drop f0).setPipe pi ⟨false, true, 0⟩).tables.pipe f1 = some pi :=
    (Function.update_of_ne (Ne.symm h.ne) ..).trans h.pipe.2
  have hsecond : fileclose k ((t.drop f0).setPipe pi ⟨false, true, 0⟩) f1 =
      .ok { (((t.drop f0).setPipe pi ⟨false, true, 0⟩).drop f1).setPipe pi ⟨false, false, 1⟩
        with mem := mem } := by
    rw [fileclose_pipe (by rw [hfile, h.writeEnd]) hpipe, hfile, h.writeEnd]
    exact pipeclose_second (Function.update_self ..) hkfree
  have hboth : PipeCall.closeBoth k t f0 f1 =
      .ok (-1, { (((t.drop f0).setPipe pi ⟨false, true, 0⟩).drop f1).setPipe pi ⟨false, false, 1⟩
        with mem := mem }) := by
    rw [PipeCall.closeBoth, hfirst]
    change (fileclose k ((t.drop f0).setPipe pi ⟨false, true, 0⟩) f1).bind _ = _
    rw [hsecond]
    rfl
  have hentry (f : Fin NFILE) :
      (((t.drop f0).drop f1).tables.files f).ref = (s.tables.files f).ref ∧
      (((t.drop f0).drop f1).tables.files f).target = (s.tables.files f).target ∧
      ((t.drop f0).drop f1).tables.pipe f = s.tables.pipe f := by
    by_cases h1 : f = f1
    · obtain ⟨htarget, hpipe1⟩ := hr.closed f1 h.ref.2
      simp only [h1, Sys.drop, Function.update_self, h.ref.2, htarget, hpipe1, and_self]
    · by_cases h0 : f = f0
      · obtain ⟨htarget, hpipe0⟩ := hr.closed f0 h.ref.1
        simp only [h0, Sys.drop, Function.update_of_ne h.ne, Function.update_self, h.ref.1, htarget,
          hpipe0, and_self]
      · simp only [Sys.drop, Function.update_of_ne h1, Function.update_of_ne h0, h.others f h0 h1,
          and_self]
  exact ⟨_, hboth, hprocs, fun f ↦ (hentry f).1, fun f ↦ (hentry f).2, hfree.trans h.free.symm⟩

/-! ### The call -/

theorem kalloc_some {m m' : Mem} {page : Nat} (h : kalloc m = (some page, m')) :
    m.free = page :: m'.free := by
  rw [kalloc] at h
  cases hfree : m.free with
  | nil =>
    simp only [hfree] at h
    cases h
  | cons r next =>
    simp only [hfree] at h
    split at h <;> cases h
    rfl

theorem kalloc_none {m m' : Mem} (h : kalloc m = (none, m')) : m'.free = m.free := by
  rw [kalloc] at h
  cases hfree : m.free with
  | nil =>
    simp only [hfree] at h
    cases h
    exact hfree
  | cons r next =>
    simp only [hfree] at h
    split at h <;> cases h
    exact hfree

theorem Taken.openPipe {page : Nat} {mem : Mem} (h : Taken s t (insert f1 (insert f0 ∅)))
    (hne : f0 ≠ f1) (hk : kalloc t.mem = (some page, mem)) :
    Paired s { tables := openPipe t.tables f0 f1, mem := mem,
               page := Function.update t.page t.tables.npipes page } f0 f1 t.tables.npipes := by
  obtain ⟨hs0, ht0⟩ := h.taken f0 (by simp)
  obtain ⟨hs1, ht1⟩ := h.taken f1 (by simp)
  refine ⟨hne, ?_, ⟨hs0, hs1⟩, ?_, ?_, ⟨?_, ?_⟩, Function.update_self .., ?_⟩
  · intro f hf0 hf1
    rw [openPipe_files _ hne, openPipe_pipe, if_neg hf1, if_neg hf0, if_neg (by tauto), h.pipe]
    exact ⟨h.others f (by simp [hf0, hf1]), rfl⟩
  · rw [openPipe_files _ hne, if_neg hne, if_pos rfl, ht0]
  · rw [openPipe_files _ hne, if_pos rfl, ht1]
  · rw [openPipe_pipe, if_pos (Or.inr rfl)]
  · rw [openPipe_pipe, if_pos (Or.inl rfl)]
  · rw [← h.free, kalloc_some hk]
    simp only [Function.update_self]

/-- `pipealloc` makes a pipe, or changes nothing. -/
theorem pipealloc_spec (hr : Ready k s) : ∃ r t, pipealloc k s = .ok (r, t) ∧
    t.tables.procs = s.tables.procs ∧ match r with
      | none => Unchanged s t
      | some (f0, f1) => ∃ pi, Paired s t f0 f1 pi := by
  cases h0 : filealloc s with
  | none =>
    refine ⟨none, s, ?_, rfl, (Taken.refl s).unchanged⟩
    rw [pipealloc, h0]
  | some r0 =>
    obtain ⟨f0, s₀⟩ := r0
    obtain ⟨-, ht0⟩ := (Taken.refl s).filealloc h0
    cases h1 : filealloc s₀ with
    | none =>
      obtain ⟨t, hclose, ht⟩ := ht0.fileclose hr (Finset.mem_insert_self f0 ∅)
      rw [Finset.erase_insert (Finset.notMem_empty f0)] at ht
      refine ⟨none, t, ?_, ht.procs, ht.unchanged⟩
      rw [pipealloc, h0]
      simp only [h1, hclose]
      rfl
    | some r1 =>
      obtain ⟨f1, s₁⟩ := r1
      obtain ⟨hnew, ht1⟩ := ht0.filealloc h1
      have hne : f0 ≠ f1 := by
        rintro rfl
        exact hnew (Finset.mem_insert_self f0 ∅)
      cases hk : kalloc s₁.mem with
      | mk page mem =>
        cases page with
        | none =>
          have ht2 : Taken s { s₁ with mem := mem } (insert f1 (insert f0 ∅)) :=
            ⟨ht1.procs, ht1.pipe, ht1.others, ht1.taken, (kalloc_none hk).trans ht1.free⟩
          have hmem0 : f0 ∈ (insert f1 (insert f0 ∅) : Finset (Fin NFILE)) := by simp
          obtain ⟨t₀, hclose0, ht3⟩ := ht2.fileclose hr hmem0
          have hmem1 : f1 ∈ (insert f1 (insert f0 ∅) : Finset (Fin NFILE)).erase f0 := by
            simp [Ne.symm hne]
          obtain ⟨t₁, hclose1, ht4⟩ := ht3.fileclose hr hmem1
          have hempty : ((insert f1 (insert f0 ∅) : Finset (Fin NFILE)).erase f0).erase f1 = ∅ := by
            ext f
            simp only [Finset.mem_erase, Finset.mem_insert, Finset.notMem_empty, iff_false]
            tauto
          rw [hempty] at ht4
          refine ⟨none, t₁, ?_, ht4.procs, ht4.unchanged⟩
          rw [pipealloc, h0]
          simp only [h1, hk, hclose0]
          change (fileclose k t₀ f1).bind _ = _
          rw [hclose1]
          rfl
        | some page =>
          have hpair := ht1.openPipe hne hk
          refine ⟨some (f0, f1), _, ?_, ?_, s₁.tables.npipes, hpair⟩
          · rw [pipealloc, h0]
            simp only [h1, hk]
          · exact ht1.procs

section
variable {p : Tree.Slot} {pr : Tree.Proc} {fd0 fd1 : Fin NOFILE}

/-- A descriptor that was free is free again. -/
theorem ofile_restore (h : pr.ofile fd0 = none) (o : Option (Fin NFILE)) :
    ofile (ofile pr fd0 o) fd0 none = pr := by
  simp only [ofile, Function.update_idem]
  rw [Function.update_eq_self_iff.mpr h.symm]

/-- The same for two of them. -/
theorem ofile_restore₂ (h0 : pr.ofile fd0 = none) (h1 : pr.ofile fd1 = none) (hne : fd0 ≠ fd1)
    (o o' : Option (Fin NFILE)) :
    ofile (ofile (ofile (ofile pr fd0 o) fd1 o') fd0 none) fd1 none = pr := by
  have hswap : ofile (ofile (ofile pr fd0 o) fd1 o') fd0 none =
      ofile (ofile (ofile pr fd0 o) fd0 none) fd1 o' := by
    simp only [ofile, Function.update_comm hne]
  rw [hswap, ofile_restore h0, ofile_restore h1]

theorem copyoutFds_free (m : Mem) (pagetable fdarray fd0 fd1 : Nat) :
    (copyoutFds m pagetable fdarray fd0 fd1).2.free = m.free := by
  rw [copyoutFds]
  have hfirst := (Vm.copyoutLoop_free pagetable (intBytes fd0).length m fdarray (intBytes fd0)).1
  change (Vm.copyout m pagetable fdarray (intBytes fd0)).2.free = m.free at hfirst
  split
  · next heq =>
    rw [heq] at hfirst
    exact hfirst
  · next m₁ heq =>
    rw [heq] at hfirst
    exact (Vm.copyoutLoop_free pagetable _ m₁ _ _).1.trans hfirst

/-- The rest of the call stores the descriptors, or takes everything back. -/
theorem Paired.storeFds {pi : Nat} (h : Paired s t f0 f1 pi) (hr : Ready k s)
    (hprocs : t.tables.procs = s.tables.procs) (hp : s.tables.procs p = some pr)
    (pagetable fdarray : Nat) :
    ∃ r t', storeFds k t p pr pagetable fdarray f0 f1 = .ok (r, t') ∧
      (r = 0 ∨ r = -1 ∧ Unchanged s t') := by
  have hback : Function.update t.tables.procs p (some pr) = s.tables.procs := by
    rw [hprocs]
    exact Function.update_eq_self_iff.mpr hp.symm
  rw [PipeCall.storeFds]
  split
  · obtain ⟨t', ht, hun⟩ := h.closeBoth hr hprocs
    exact ⟨-1, t', ht, Or.inr ⟨rfl, hun⟩⟩
  · next fd0 hfd0 =>
    have hfree0 := Tree.freeFd_some hfd0
    have h₁ := h.setFd p pr fd0 (some f0)
    simp only
    split
    · have h₂ := h₁.setFd p (ofile pr fd0 (some f0)) fd0 none
      obtain ⟨t', ht, hun⟩ := h₂.closeBoth hr (by
        refine (Function.update_idem ..).trans ?_
        exact (congrArg (fun q ↦ Function.update t.tables.procs p (some q))
          (ofile_restore hfree0 (some f0))).trans hback)
      exact ⟨-1, t', ht, Or.inr ⟨rfl, hun⟩⟩
    · next fd1 hfd1 =>
      have hfree1 := Tree.freeFd_some hfd1
      have hne : fd0 ≠ fd1 := by
        rintro rfl
        rw [ofile_self] at hfree1
        cases hfree1
      rw [ofile_of_ne _ (Ne.symm hne)] at hfree1
      have h₂ := h₁.setFd p (ofile pr fd0 (some f0)) fd1 (some f1)
      have hmem := copyoutFds_free t.mem pagetable fdarray fd0 fd1
      split
      · exact ⟨0, _, rfl, Or.inl rfl⟩
      · next mem hcopy =>
        have hfree : mem.free = t.mem.free := by
          rw [← hmem]
          exact congrArg (fun r ↦ r.2.free) hcopy.symm
        have h₃ := ((h₂.setMem hfree).setFd p (ofile (ofile pr fd0 (some f0)) fd1 (some f1)) fd0
          none).setFd p (ofile (ofile (ofile pr fd0 (some f0)) fd1 (some f1)) fd0 none) fd1 none
        obtain ⟨t', ht, hun⟩ := h₃.closeBoth hr (by
          simp only [Sys.setFd, State.setTables, Tree.Tables.setFd, Function.update_idem]
          exact (congrArg (fun q ↦ Function.update t.tables.procs p (some q))
            (ofile_restore₂ hfree0 hfree1 hne (some f0) (some f1))).trans hback)
        exact ⟨-1, t', ht, Or.inr ⟨rfl, hun⟩⟩

/-- `sys_pipe` does not panic, and if it fails nothing has changed. -/
theorem sysPipe_fails_unchanged (hr : Ready k s) (hp : s.tables.procs p = some pr)
    (pagetable fdarray : Nat) :
    ∃ r t, sysPipe k s p pr pagetable fdarray = .ok (r, t) ∧ (r = 0 ∨ r = -1 ∧ Unchanged s t) := by
  obtain ⟨r, s₁, halloc, hprocs, hspec⟩ := pipealloc_spec hr
  cases r with
  | none =>
    refine ⟨-1, s₁, ?_, Or.inr ⟨rfl, hspec⟩⟩
    rw [sysPipe, halloc]
    rfl
  | some fs =>
    obtain ⟨pi, h₁⟩ := hspec
    obtain ⟨r, t, ht, hres⟩ := h₁.storeFds hr hprocs hp pagetable fdarray
    refine ⟨r, t, ?_, hres⟩
    rw [sysPipe, halloc]
    exact ht

end

/-! ### Between the calls -/

/-- The tables change as they do without the memory. -/
theorem fileclose_tables (h : fileclose k s f = .ok t) :
    Fd.fileclose s.tables f = .ok t.tables := by
  rw [fileclose] at h
  rw [Fd.fileclose]
  split at h
  · cases h
  · next hpos =>
    rw [if_neg hpos]
    split at h
    · next hmany =>
      cases h
      rw [if_pos hmany]
    · next hlast =>
      rw [if_neg hlast]
      simp only at h ⊢
      cases hpipe : s.tables.pipe f with
      | some pi =>
        rw [hpipe] at h
        simp only [pipeclose] at h
        split at h
        · obtain ⟨mem, -, h⟩ := bind_ok h
          cases h
          rfl
        · cases h
          rfl
      | none =>
        rw [hpipe] at h
        cases hip : (s.tables.files f).target.ip with
        | some ip =>
          rw [hip] at h
          cases h
          rfl
        | none =>
          rw [hip] at h
          cases h
          rfl

theorem closeBoth_tables {r : Int} (h : closeBoth k s f0 f1 = .ok (r, t)) :
    Fd.closeBoth s.tables f0 f1 = .ok (r, t.tables) := by
  obtain ⟨s₁, h0, h⟩ := bind_ok h
  obtain ⟨s₂, h1, h⟩ := bind_ok h
  cases h
  rw [Fd.closeBoth, fileclose_tables h0]
  change (Fd.fileclose s₁.tables f1).bind _ = _
  rw [fileclose_tables h1]
  rfl

theorem filealloc_tables (s : Sys) :
    Fd.filealloc s.tables = (filealloc s).map (fun r ↦ (r.1, r.2.tables)) := by
  rw [filealloc, Option.map_map]
  exact Option.map_id'.symm

theorem pipealloc_tables {r : Option (Fin NFILE × Fin NFILE)} (h : pipealloc k s = .ok (r, t)) :
    ∃ page, Fd.pipealloc s.tables page = .ok (r, t.tables) := by
  rw [pipealloc] at h
  simp only [Fd.pipealloc, filealloc_tables]
  split at h
  · next h0 =>
    cases h
    rw [h0]
    exact ⟨true, rfl⟩
  · next f0 s₀ h0 =>
    rw [h0]
    simp only [Option.map_some, filealloc_tables]
    split at h
    · next h1 =>
      obtain ⟨s₁, hclose, h⟩ := bind_ok h
      cases h
      rw [h1]
      simp only [Option.map_none, fileclose_tables hclose]
      exact ⟨true, rfl⟩
    · next f1 s₁ h1 =>
      rw [h1]
      simp only [Option.map_some]
      split at h
      · cases h
        exact ⟨true, rfl⟩
      · obtain ⟨s₂, hclose0, h⟩ := bind_ok h
        obtain ⟨s₃, hclose1, h⟩ := bind_ok h
        cases h
        refine ⟨false, ?_⟩
        rw [if_neg Bool.false_ne_true, fileclose_tables hclose0]
        change (Fd.fileclose s₂.tables f1).bind _ = _
        rw [fileclose_tables hclose1]
        rfl

/-- The call is one of the model without memory, in which it is left open what `kalloc` and
`copyout` return. -/
theorem sysPipe_tables {p : Tree.Slot} {pr : Tree.Proc} {pagetable fdarray : Nat} {r : Int}
    (h : sysPipe k s p pr pagetable fdarray = .ok (r, t)) :
    ∃ page stored, Fd.sysPipe s.tables p pr page stored = .ok (r, t.tables) := by
  obtain ⟨⟨fs, s₁⟩, halloc, h⟩ := bind_ok h
  obtain ⟨page, hpage⟩ := pipealloc_tables halloc
  refine ⟨page, ?_⟩
  simp only [Fd.sysPipe, hpage, bind, Except.bind]
  cases fs with
  | none =>
    cases h
    exact ⟨true, rfl⟩
  | some fs =>
    obtain ⟨rf, wf⟩ := fs
    simp only [storeFds] at h
    simp only
    cases hfd0 : Tree.freeFd pr with
    | none =>
      rw [hfd0] at h
      exact ⟨true, closeBoth_tables h⟩
    | some fd0 =>
      rw [hfd0] at h
      simp only at h ⊢
      cases hfd1 : Tree.freeFd (ofile pr fd0 (some rf)) with
      | none =>
        rw [hfd1] at h
        exact ⟨true, closeBoth_tables h⟩
      | some fd1 =>
        rw [hfd1] at h
        simp only at h
        split at h
        · cases h
          exact ⟨true, rfl⟩
        · exact ⟨false, closeBoth_tables h⟩

/-- Every state that the calls reach is ready for `pipe`, with a free list as `kalloc` and `kfree`
keep it. -/
theorem ready_of_reaches {im : Tree.Image} {t : State} {km : Freelist.Kmem} {mem : Mem}
    (h : Reaches step (boot im) t) (hmem : Freelist.Represents k km mem) (page : Nat → Nat) :
    Ready k ⟨t, mem, page⟩ := by
  have hok : Ok t t 0 0 := h.invariant (P := fun s ↦ Ok s s 0 0)
    (fun _ _ _ h hstep ↦ (step_ok h hstep).restart) (boot_ok im)
  refine ⟨hok.piped.closed, ?_⟩
  intro q hq
  obtain ⟨-, hlo, hhi, -⟩ := Freelist.mem_pages (hmem.usable q hq)
  have hP : Vm.PGSIZE = 4096 := rfl
  exact ⟨hlo, by omega⟩

end

/-- The kernel as it was linked; `kernel/kernel.sym`. -/
def linked : Kernel := Vm.builtKernel

/-- The tables after `userinit`, and one free page. -/
def afterBoot : Sys where
  tables := boot Tree.emptyImage
  mem := { cells := fun _ _ ↦ 0, free := [0x80100], fails := [] }
  page := fun _ ↦ 0

/-- The first process. -/
def initproc : Tree.Proc := { ofile := fun _ ↦ none, cwd := Tree.ROOTINO }

theorem afterBoot_initproc : afterBoot.tables.procs Tree.initSlot = some initproc := by
  simp only [afterBoot, boot, Tree.boot, initproc, Function.update_self]

/-- The first process has no memory at address 0. -/
theorem sysPipe_fails_unchanged_boot : Ready linked afterBoot ∧
    ∃ r t, sysPipe linked afterBoot Tree.initSlot initproc 0x80050 0 = .ok (r, t) ∧
      (r = 0 ∨ r = -1 ∧ Unchanged afterBoot t) := by
  have hready : Ready linked afterBoot := by
    refine ⟨fun _ _ ↦ ⟨rfl, rfl⟩, ?_⟩
    intro page hpage
    rw [List.mem_singleton.mp hpage]
    decide
  exact ⟨hready, sysPipe_fails_unchanged hready afterBoot_initproc 0x80050 0⟩

end Xv6.Fd.PipeCall
