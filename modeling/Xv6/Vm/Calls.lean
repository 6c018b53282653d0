import Xv6.Base.Param
import Xv6.Lib.Run
import Xv6.Vm.Exec

/-!
# Processes and their memory

The process table as far as it holds memory (`kernel/proc.c`), the file table and pipes
(`kernel/file.c`, `kernel/pipe.c`), and the system calls that allocate and free pages. A call
runs to its end without interruption. The contents of a pipe are left out.
-/

namespace Xv6.Vm

open Xv6.Lib

/-- A slot of the process table. -/
abbrev Slot := Fin NPROC

/-- `struct proc`; `kernel/proc.h:85–113`. -/
structure Proc where
  state : ProcState
  pid : Nat
  sz : Nat
  pagetable : Nat
  trapframe : Nat
  parent : Option Slot
  ofile : Fin NOFILE → Option (Fin NFILE)
  cwd : Option Nat
  name : List UInt8
  trace_mask : Nat
  xstate : Nat

/-- A slot as it is at boot. -/
def Proc.unused : Proc where
  state := .UNUSED
  pid := 0
  sz := 0
  pagetable := 0
  trapframe := 0
  parent := none
  ofile := fun _ ↦ none
  cwd := none
  name := []
  trace_mask := 0
  xstate := 0

/-- A slot after `freeproc`; `kernel/proc.c:159–173`. -/
def Proc.freed (pr : Proc) : Proc :=
  { pr with
    state := .UNUSED, pid := 0, sz := 0, pagetable := 0, trapframe := 0, parent := none, name := [],
    xstate := 0 }

/-- `f->type`, with the page of `f->pipe`; `kernel/file.h:2–9`. -/
inductive FdType where
  | FD_NONE
  | FD_PIPE (pi : Nat)
  deriving DecidableEq, Repr

/-- `struct file`. -/
structure File where
  ref : Nat
  type : FdType
  readable : Bool
  writable : Bool
  deriving DecidableEq, Repr

/-- The ends of a pipe; `kernel/pipe.c:18–19`. -/
structure Pipe where
  readopen : Bool
  writeopen : Bool
  deriving DecidableEq, Repr

/-- Memory, the process table, the file table, the pipes by page, and the inode table. `early` are
the pages that were allocated before `userinit`, for the kernel page table, kernel stacks and the
disk driver. -/
structure State where
  mem : Mem
  procs : Slot → Proc
  nextpid : Nat
  files : Fin NFILE → File
  pipes : Nat → Pipe
  inodes : Inodes
  early : List Nat

def State.setProc (s : State) (p : Slot) (pr : Proc) : State :=
  { s with procs := Function.update s.procs p pr }

def State.setFile (s : State) (f : Fin NFILE) (ff : File) : State :=
  { s with files := Function.update s.files f ff }

@[simp] theorem State.setProc_procs (s : State) (p : Slot) (pr : Proc) :
    (s.setProc p pr).procs = Function.update s.procs p pr := rfl

@[simp] theorem State.setFile_files (s : State) (f : Fin NFILE) (ff : File) :
    (s.setFile f ff).files = Function.update s.files f ff := rfl

/-! ### Processes -/

/-- `freeproc` as far as memory goes; `kernel/proc.c:156–173`. -/
def freeproc (k : Kernel) (m : Mem) (pr : Proc) : Except String Mem := do
  let m ← kfreeIf k m (pr.trapframe ≠ 0) pr.trapframe
  if pr.pagetable ≠ 0 then procFreepagetable k m pr.pagetable pr.sz else return m

/-- The slot that `allocproc` takes; `kernel/proc.c:115–122`. -/
def freeSlot (s : State) : Option Slot :=
  (List.finRange NPROC).find? (fun p ↦ (s.procs p).state = .UNUSED)

/-- `allocproc` from `found` on, in the slot `pr`: the process, or the slot after a failure;
`kernel/proc.c:125–151`. -/
def allocproc (k : Kernel) (m : Mem) (pr : Proc) (pid : Nat) : Except String (Bool × Proc × Mem) :=
  let pr := { pr with pid := pid, state := .USED }
  match kalloc m with
  | (none, m) => do
    let pr := { pr with trapframe := 0 }
    let m ← freeproc k m pr
    return (false, pr.freed, m)
  | (some trapframe, m) => do
    let pr := { pr with trapframe := trapframe }
    let (pagetable, m) ← procPagetable k m trapframe
    match pagetable with
    | none =>
      let pr := { pr with pagetable := 0 }
      let m ← freeproc k m pr
      return (false, pr.freed, m)
    | some pagetable => return (true, { pr with pagetable := pagetable }, m)

/-- The program that calls `exec("/init")`; `kernel/proc.c:222–230`. -/
def initcode : List UInt8 :=
  [0x17, 0x05, 0x00, 0x00, 0x13, 0x05, 0x45, 0x02,
    0x97, 0x05, 0x00, 0x00, 0x93, 0x85, 0x35, 0x02,
    0x93, 0x08, 0x70, 0x00, 0x73, 0x00, 0x00, 0x00,
    0x93, 0x08, 0x20, 0x00, 0x73, 0x00, 0x00, 0x00,
    0xef, 0xf0, 0x9f, 0xff, 0x2f, 0x69, 0x6e, 0x69,
    0x74, 0x00, 0x00, 0x24, 0x00, 0x00, 0x00, 0x00,
    0x00, 0x00, 0x00, 0x00]

/-- The slot of `initproc`: the first one. -/
def initSlot : Slot := 0

/-- The slot of the root directory in the inode table, the first inode that is looked up. -/
def rootSlot : Nat := 0

/-- `userinit`; `kernel/proc.c:233–256`. -/
def userinit (k : Kernel) (s : State) : Except String State := do
  let (ok, pr, m) ← allocproc k s.mem (s.procs initSlot) s.nextpid
  if ok then
    let m ← uvmfirst m pr.pagetable initcode
    let m := (m.setReg pr.trapframe regEpc 0).setReg pr.trapframe regSp PGSIZE
    let pr := { pr with
      sz := PGSIZE, name := "initcode".toUTF8.toList, cwd := some rootSlot, state := .RUNNABLE }
    return { s.setProc initSlot pr with
      mem := m, nextpid := s.nextpid + 1, inodes := s.inodes.iget rootSlot }
  else throw "kerneltrap"

/-- The sum of a 64-bit number and an `int`. -/
def addInt (sz : Nat) (n : Int) : Nat := (((sz : Int) + n) % 2 ^ 64).toNat

/-- `growproc`: the new size, or `none` for an error; `kernel/proc.c:260–277`. -/
def growproc (k : Kernel) (m : Mem) (pr : Proc) (n : Int) : Except String (Option Nat × Mem) :=
  if 0 < n then do
    let (sz, m) ← uvmalloc k m pr.pagetable pr.sz (addInt pr.sz n) PTE_W
    return (if sz = 0 then none else some sz, m)
  else if n < 0 then do
    let (sz, m) ← uvmdealloc k m pr.pagetable pr.sz (addInt pr.sz n)
    return (some sz, m)
  else .ok (some pr.sz, m)

/-! ### Files and pipes -/

/-- The file that `filealloc` takes; `kernel/file.c:29–44`. -/
def freeFile (s : State) : Option (Fin NFILE) :=
  (List.finRange NFILE).find? (fun f ↦ (s.files f).ref = 0)

/-- `filealloc`. -/
def filealloc (s : State) : Option (Fin NFILE) × State :=
  match freeFile s with
  | none => (none, s)
  | some f => (some f, s.setFile f { s.files f with ref := 1 })

/-- `filedup`; `kernel/file.c:47–56`. -/
def filedup (s : State) (f : Fin NFILE) : Except String State :=
  if (s.files f).ref < 1 then .error "filedup"
  else .ok (s.setFile f { s.files f with ref := (s.files f).ref + 1 })

/-- `pipeclose`; `kernel/pipe.c:58–74`. -/
def pipeclose (k : Kernel) (s : State) (pi : Nat) (writable : Bool) : Except String State :=
  let pp := if writable then { s.pipes pi with writeopen := false }
    else { s.pipes pi with readopen := false }
  let s := { s with pipes := Function.update s.pipes pi pp }
  if pp.readopen = false ∧ pp.writeopen = false then do
    let m ← kfree k s.mem pi
    return { s with mem := m }
  else .ok s

/-- `fileclose`; `kernel/file.c:60–84`. -/
def fileclose (k : Kernel) (s : State) (f : Fin NFILE) : Except String State :=
  let ff := s.files f
  if ff.ref < 1 then .error "fileclose"
  else if 0 < ff.ref - 1 then .ok (s.setFile f { ff with ref := ff.ref - 1 })
  else
    let s := s.setFile f { ff with ref := 0, type := .FD_NONE }
    match ff.type with
    | .FD_PIPE pi => pipeclose k s pi ff.writable
    | .FD_NONE => .ok s

/-- `pipealloc`; `kernel/pipe.c:22–56`. -/
def pipealloc (k : Kernel) (s : State) : Except String (Option (Fin NFILE × Fin NFILE) × State) :=
  match filealloc s with
  | (none, s) => .ok (none, s)
  | (some f0, s) =>
    match filealloc s with
    | (none, s) => do
      let s ← fileclose k s f0
      return (none, s)
    | (some f1, s) =>
      match kalloc s.mem with
      | (none, m) => do
        let s ← fileclose k { s with mem := m } f0
        let s ← fileclose k s f1
        return (none, s)
      | (some pi, m) =>
        let pipes := Function.update s.pipes pi { readopen := true, writeopen := true }
        let s := { s with mem := m, pipes := pipes }
        let s := s.setFile f0
          { s.files f0 with type := .FD_PIPE pi, readable := true, writable := false }
        let s := s.setFile f1
          { s.files f1 with type := .FD_PIPE pi, readable := false, writable := true }
        .ok (some (f0, f1), s)

/-- The descriptor that `fdalloc` takes; `kernel/sysfile.c:39–52`. -/
def freeFd (pr : Proc) : Option (Fin NOFILE) :=
  (List.finRange NOFILE).find? (fun fd ↦ decide (pr.ofile fd = none))

def Proc.setFd (pr : Proc) (fd : Fin NOFILE) (f : Option (Fin NFILE)) : Proc :=
  { pr with ofile := Function.update pr.ofile fd f }

/-- Close the two files of a pipe. -/
def closeBoth (k : Kernel) (s : State) (rf wf : Fin NFILE) : Except String State := do
  let s ← fileclose k s rf
  fileclose k s wf

/-- The four bytes of a descriptor. -/
def fdBytes (fd : Fin NOFILE) : List UInt8 := [UInt8.ofNat fd, 0, 0, 0]

/-- `sys_pipe` with the address of the array; `kernel/sysfile.c:477–505`. -/
def sysPipe (k : Kernel) (s : State) (p : Slot) (fdarray : Nat) : Except String State := do
  let (files, s) ← pipealloc k s
  match files with
  | none => return s
  | some (rf, wf) =>
    let pr := s.procs p
    match freeFd pr with
    | none => closeBoth k s rf wf
    | some fd0 =>
      let pr := pr.setFd fd0 (some rf)
      match freeFd pr with
      | none => closeBoth k (s.setProc p (pr.setFd fd0 none)) rf wf
      | some fd1 =>
        let pr := pr.setFd fd1 (some wf)
        let s := s.setProc p pr
        let (ok, m) := copyout s.mem pr.pagetable fdarray (fdBytes fd0)
        let (ok, m) := if ok then copyout m pr.pagetable ((fdarray + 4) % 2 ^ 64) (fdBytes fd1)
          else (false, m)
        let s := { s with mem := m }
        if ok then return s
        else closeBoth k (s.setProc p ((pr.setFd fd0 none).setFd fd1 none)) rf wf

theorem fd_lt {fd : Int} (h : 0 ≤ fd ∧ fd < NOFILE) : fd.toNat < NOFILE := by omega

/-- `sys_close`; `kernel/sysfile.c:97–108`. -/
def sysClose (k : Kernel) (s : State) (p : Slot) (fd : Int) : Except String State :=
  if h : 0 ≤ fd ∧ fd < NOFILE then
    let fd : Fin NOFILE := ⟨fd.toNat, fd_lt h⟩
    match (s.procs p).ofile fd with
    | none => .ok s
    | some f => fileclose k (s.setProc p ((s.procs p).setFd fd none)) f
  else .ok s

/-! ### System calls -/

/-- The loop of `fork` over the parent's descriptors; `kernel/proc.c:310–312`. -/
def dupFiles (s : State) (pr : Proc) : List (Fin NOFILE) → Except String State
  | [] => .ok s
  | fd :: fds =>
    match pr.ofile fd with
    | none => dupFiles s pr fds
    | some f => do
      let s ← filedup s f
      dupFiles s pr fds

/-- `fork`: the child's pid, or `none` for -1; `kernel/proc.c:280–333`. -/
def fork (k : Kernel) (s : State) (p : Slot) : Except String (Option Nat × State) :=
  let pr := s.procs p
  match freeSlot s with
  | none => .ok (none, s)
  | some q => do
    let (ok, np, m) ← allocproc k s.mem (s.procs q) s.nextpid
    let s := { s with nextpid := s.nextpid + 1 }
    if ok then
      let (ok, m) ← uvmcopy k m pr.pagetable np.pagetable pr.sz
      if ok then
        let m := (m.copyRegs np.trapframe pr.trapframe).setReg np.trapframe regA0 0
        let s ← dupFiles { s with mem := m } pr (List.finRange NOFILE)
        match pr.cwd with
        | none => throw "kerneltrap"
        | some ip =>
          let np := { np with
            sz := pr.sz, trace_mask := pr.trace_mask,
            ofile := fun fd ↦ (pr.ofile fd).or (np.ofile fd), cwd := some ip,
            name := pr.name, parent := some p, state := .RUNNABLE }
          return (some np.pid, { s.setProc q np with inodes := s.inodes.iget ip })
      else
        let m ← freeproc k m np
        return (none, { s.setProc q np.freed with mem := m })
    else return (none, { s.setProc q np with mem := m })

/-- `sys_sbrk`; `kernel/sysproc.c:39–50`. -/
def sysSbrk (k : Kernel) (s : State) (p : Slot) (n : Int) : Except String State := do
  let (sz, m) ← growproc k s.mem (s.procs p) n
  let s := { s with mem := m }
  match sz with
  | none => return s
  | some sz => return s.setProc p { s.procs p with sz := sz }

/-- `fetchaddr`; `kernel/syscall.c:11–20`. -/
def fetchaddr (m : Mem) (pr : Proc) (addr : Nat) : Option Nat :=
  if pr.sz ≤ addr ∨ pr.sz < (addr + 8) % 2 ^ 64 then none
  else match copyin m pr.pagetable addr 8 with
  | (false, _) => none
  | (true, bs) => some (field bs 0 8)

/-- `strlen` of the string in a buffer; `kernel/string.c:99–106`. -/
def strlen (buf : List UInt8) : Nat := buf.idxOf 0

/-- `fetchstr`, with the bytes it stored in the buffer; `kernel/syscall.c:24–31`. -/
def fetchstr (m : Mem) (pr : Proc) (addr max : Nat) : Int × List UInt8 :=
  match copyinstr m pr.pagetable addr max with
  | (false, buf) => (-1, buf)
  | (true, buf) => (strlen buf, buf)

/-- `argraw`; `kernel/syscall.c:33–53`. -/
def argraw (m : Mem) (pr : Proc) (n : Nat) : Except String Nat :=
  if n ≤ 5 then .ok (Ram.pte m.cells pr.trapframe (regA0 + n)) else .error "argraw"

/-- `argstr`; `kernel/syscall.c:74–80`. -/
def argstr (m : Mem) (pr : Proc) (n max : Nat) : Except String (Int × List UInt8) := do
  let addr ← argraw m pr n
  return fetchstr m pr addr max

/-- The loop of `sys_exec` over the arguments, with the pages it has allocated; `i` starts as 0
and `n` as `MAXARG`. `kernel/sysfile.c:446–462`. -/
def fetchArgs (pr : Proc) (uargv : Nat) : Nat → Mem → Nat → List Nat → Bool × List Nat × Mem
  | 0, m, _, argv => (false, argv, m)
  | n + 1, m, i, argv =>
    match fetchaddr m pr ((uargv + 8 * i) % 2 ^ 64) with
    | none => (false, argv, m)
    | some uarg =>
      if uarg = 0 then (true, argv, m)
      else match kalloc m with
      | (none, m) => (false, argv, m)
      | (some page, m) =>
        let (ok, bs) := copyinstr m pr.pagetable uarg PGSIZE
        let m := m.write page 0 bs
        if ok then fetchArgs pr uargv n m (i + 1) (argv ++ [page]) else (false, argv ++ [page], m)

/-- The loops of `sys_exec` that free the arguments; `kernel/sysfile.c:466–473`. -/
def freeArgs (k : Kernel) : List Nat → Mem → Except String Mem
  | [], m => .ok m
  | page :: argv, m => do
    let m ← kfree k m page
    freeArgs k argv m

/-- The last element of a path, cut to `sizeof(p->name)`; `kernel/exec.c:118–121`. -/
def progName (path : List UInt8) : List UInt8 :=
  let path := path.takeWhile (· ≠ 0)
  ((path.reverse.takeWhile (· ≠ 47)).reverse).take 15

/-- `sys_exec` with its two addresses; `fs` is the file that a path leads to. It returns the number
of arguments, or `none` for -1. `kernel/sysfile.c:434–475`. -/
def sysExec (k : Kernel) (s : State) (p : Slot) (upath uargv : Nat)
    (fs : List UInt8 → Option (Nat × List UInt8)) : Except String (Option Nat × State) :=
  let pr := s.procs p
  match copyinstr s.mem pr.pagetable upath MAXPATH with
  | (false, _) => .ok (none, s)
  | (true, path) =>
    let (ok, argv, m) := fetchArgs pr uargv MAXARG s.mem 0 []
    if ok then do
      let (r, it, m) ← exec k m s.inodes pr.pagetable pr.sz pr.trapframe (fs path) argv
      let m ← freeArgs k argv m
      let s := { s with mem := m, inodes := it }
      match r with
      | none => return (none, s)
      | some (pagetable, sz, argc) =>
        let pr := { pr with pagetable := pagetable, sz := sz, name := progName path }
        return (some argc, s.setProc p pr)
    else do
      let m ← freeArgs k argv m
      return (none, { s with mem := m })

/-- The loop of `exit` over the descriptors; `kernel/proc.c:359–365`. -/
def closeFiles (k : Kernel) (p : Slot) : List (Fin NOFILE) → State → Except String State
  | [], s => .ok s
  | fd :: fds, s =>
    match (s.procs p).ofile fd with
    | none => closeFiles k p fds s
    | some f => do
      let s ← fileclose k s f
      closeFiles k p fds (s.setProc p ((s.procs p).setFd fd none))

/-- `reparent`; `kernel/proc.c:334–346`. -/
def reparent (s : State) (p : Slot) : State :=
  { s with procs := fun q ↦
      if (s.procs q).parent = some p then { s.procs q with parent := some initSlot }
      else s.procs q }

/-- `exit`; `kernel/proc.c:350–393`. -/
def sysExit (k : Kernel) (s : State) (p : Slot) (status : Nat) : Except String State :=
  if p = initSlot then .error "init exiting"
  else do
    let s ← closeFiles k p (List.finRange NOFILE) s
    match (s.procs p).cwd with
    | none => throw "kerneltrap"
    | some ip =>
      let s := { s with inodes := (s.inodes.begin_op.iput ip).end_op }
      let s := reparent (s.setProc p { s.procs p with cwd := none }) p
      return s.setProc p { s.procs p with xstate := status, state := .ZOMBIE }

/-- The child that `wait` finds; `kernel/proc.c:406–412`. -/
def zombieChild (s : State) (p : Slot) : Option Slot :=
  (List.finRange NPROC).find? (fun q ↦
    (s.procs q).parent = some p ∧ (s.procs q).state = .ZOMBIE)

/-- `havekids`. -/
def haveKids (s : State) (p : Slot) : Bool :=
  (List.finRange NPROC).any (fun q ↦ (s.procs q).parent = some p)

/-- The four bytes of an `int`. -/
def intBytes (n : Nat) : List UInt8 := (List.range 4).map (fun i ↦ UInt8.ofNat (n / 256 ^ i))

/-- `wait`, when it does not sleep; `kernel/proc.c:395–440`. -/
def sysWait (k : Kernel) (s : State) (p : Slot) (addr : Nat) : Except String State :=
  match zombieChild s p with
  | none => .ok s
  | some q =>
    let pp := s.procs q
    let (ok, m) := if addr ≠ 0 then copyout s.mem (s.procs p).pagetable addr (intBytes pp.xstate)
      else (true, s.mem)
    if ok then do
      let m ← freeproc k m pp
      return { s.setProc q pp.freed with mem := m }
    else .ok { s with mem := m }

/-- A store of the running program; the hardware checks the entry. -/
def userStore (m : Mem) (pagetable va : Nat) (b : UInt8) : Option Mem :=
  if MAXVA ≤ va then none
  else match (walkLoop m va false 2 pagetable).1 with
  | none => none
  | some (page, i) =>
    let pte := Ram.pte m.cells page i
    if Valid pte ∧ pte &&& PTE_U ≠ 0 ∧ pte &&& PTE_W ≠ 0 then
      some (m.write (PTE2PA pte) (va % PGSIZE) [b])
    else none

/-! ### Runs -/

/-- A system call of the process in slot `p` with its arguments, or a store of its program. Calls
that allocate come with the failures of `kalloc`, and `sys_exec` with what paths lead to. -/
inductive Call where
  | fork (p : Slot) (fails : List Bool)
  | exec (p : Slot) (upath uargv : Nat) (fs : List UInt8 → Option (Nat × List UInt8))
    (fails : List Bool)
  | sbrk (p : Slot) (n : Int) (fails : List Bool)
  | pipe (p : Slot) (fdarray : Nat) (fails : List Bool)
  | close (p : Slot) (fd : Int)
  | exit (p : Slot) (status : Nat)
  | wait (p : Slot) (addr : Nat) (killed : Bool)
  | store (p : Slot) (va : Nat) (b : UInt8)

/-- The calling process. -/
def Call.slot : Call → Slot
  | .fork p .. => p
  | .exec p .. => p
  | .sbrk p .. => p
  | .pipe p .. => p
  | .close p .. => p
  | .exit p .. => p
  | .wait p .. => p
  | .store p .. => p

/-- The allocations from now on fail as the list says. -/
def State.failing (s : State) (fails : List Bool) : State :=
  { s with mem := { s.mem with fails := fails } }

/-- Does the call go on? `wait` sleeps while no child has exited, `init` never exits, and a store
that the hardware refuses is a trap. -/
def Call.ready (s : State) : Call → Bool
  | .wait p _ killed => (zombieChild s p).isSome || !haveKids s p || killed
  | .exit p _ => p ≠ initSlot
  | .store p va b => (userStore s.mem (s.procs p).pagetable va b).isSome
  | _ => true

/-- Perform a call. -/
def Call.perform (k : Kernel) (s : State) : Call → Except String State
  | .fork p fails => (·.2) <$> Vm.fork k (s.failing fails) p
  | .exec p upath uargv fs fails => (·.2) <$> sysExec k (s.failing fails) p upath uargv fs
  | .sbrk p n fails => sysSbrk k (s.failing fails) p n
  | .pipe p fdarray fails => sysPipe k (s.failing fails) p fdarray
  | .close p fd => sysClose k s p fd
  | .exit p status => sysExit k s p status
  | .wait p addr _ => sysWait k s p addr
  | .store p va b =>
    match userStore s.mem (s.procs p).pagetable va b with
    | none => .error "usertrap"
    | some m => .ok { s with mem := m }

/-- Can the process make this call now? -/
def Call.enabled (s : State) (c : Call) : Bool :=
  (s.procs c.slot).state = .RUNNABLE && c.ready s

/-- One completed call of a process; `none` if it is not enabled, or does not complete. -/
def step (k : Kernel) (s : State) (c : Call) : Option State :=
  if c.enabled s then (c.perform k s).toOption else none

/-- The state before `userinit`, after `n` pages were allocated for the kernel. -/
def beforeUserinit (k : Kernel) (n : Nat) : State where
  mem := { cells := fun _ _ ↦ 1, free := (kinit k).drop n, fails := [] }
  procs := fun _ ↦ Proc.unused
  nextpid := 1
  files := fun _ ↦ { ref := 0, type := .FD_NONE, readable := false, writable := false }
  pipes := fun _ ↦ { readopen := false, writeopen := false }
  inodes := { ref := fun _ ↦ 0, locked := fun _ ↦ false, ops := 0 }
  early := (kinit k).take n

end Xv6.Vm
