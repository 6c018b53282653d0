import Xv6.Tree.Calls

/-!
# Files and pipes

The file table and the descriptors of all processes, with pipes: `kernel/file.c:26–84`,
`kernel/pipe.c:22–74` and the system calls of `kernel/sysfile.c` with `fork`, `exec`, `exit` and
`wait`. The calls on paths are those of the tree; `fileclose` and the calls that use it also close
pipes. A call runs to its end without interruption, and a `panic` is an error with its text.
-/

namespace Xv6.Fd

open Xv6.Lib

/-- `struct pipe` without its data. `frees` counts the calls of `kfree` with its page. -/
structure Pipe where
  readopen : Bool
  writeopen : Bool
  frees : Nat
  deriving DecidableEq, Repr

/-- The state of the tree, and the pipes. A file is of type `FD_PIPE` if `pipe` has its pipe. The
pipes are numbered in the order in which `pipealloc` made them. -/
structure State extends Tree.State where
  pipe : Fin NFILE → Option Nat
  pipes : Nat → Pipe
  npipes : Nat

/-- Replace the part of the state that the tree has. -/
def State.withTree (s : State) (t : Tree.State) : State := { s with toState := t }

def State.setTables (s : State) (t : Tree.Tables) : State := { s with toTables := t }

/-- `pipeclose` of one end; `kernel/pipe.c:58–74`. -/
def Pipe.close (pi : Pipe) (writable : Bool) : Pipe :=
  let pi := if writable then { pi with writeopen := false } else { pi with readopen := false }
  if pi.readopen = false ∧ pi.writeopen = false then { pi with frees := pi.frees + 1 } else pi

def pipeclose (s : State) (pi : Nat) (writable : Bool) : State :=
  { s with pipes := Function.update s.pipes pi ((s.pipes pi).close writable) }

/-- `fileclose`; `kernel/file.c:59–84`. -/
def fileclose (s : State) (f : Fin NFILE) : Except String State :=
  let ff := s.files f
  if ff.ref < 1 then .error "fileclose"
  else if ff.ref - 1 > 0 then .ok (s.setTables (s.toTables.unref f))
  else
    let s' := { s.setTables (s.toTables.unref f) with pipe := Function.update s.pipe f none }
    match s.pipe f, ff.target.ip with
    | some pi, _ => .ok (pipeclose s' pi ff.writable)
    | none, some ip => .ok (s'.withTree (Tree.iput s'.toState ip))
    | none, none => .ok s'

/-- `filealloc`; `kernel/file.c:29–44`. -/
def filealloc (s : State) : Option (Fin NFILE × State) :=
  (Tree.freeFile s.toTables).map (fun f ↦
    (f, { s with files := Function.update s.files f { s.files f with ref := 1 } }))

/-- The two files of a new pipe; `kernel/pipe.c:34–46`. -/
def openPipe (s : State) (f0 f1 : Fin NFILE) : State :=
  let files := Function.update s.files f0
    { ref := (s.files f0).ref, target := .none, readable := true, writable := false }
  { s with
    files := Function.update files f1
      { ref := (files f1).ref, target := .none, readable := false, writable := true }
    pipe := Function.update (Function.update s.pipe f0 (some s.npipes)) f1 (some s.npipes)
    pipes := Function.update s.pipes s.npipes ⟨true, true, 0⟩
    npipes := s.npipes + 1 }

/-- `pipealloc`; `kalloc` says whether a page is free. `kernel/pipe.c:22–56`. -/
def pipealloc (s : State) (kalloc : Bool) :
    Except String (Option (Fin NFILE × Fin NFILE) × State) :=
  match filealloc s with
  | none => .ok (none, s)
  | some (f0, s) =>
    match filealloc s with
    | none => do
      let s ← fileclose s f0
      return (none, s)
    | some (f1, s) =>
      if kalloc then .ok (some (f0, f1), openPipe s f0 f1)
      else do
        let s ← fileclose s f0
        let s ← fileclose s f1
        return (none, s)

/-- The end of `sys_pipe` on an error: close both files. -/
def closeBoth (s : State) (rf wf : Fin NFILE) : Except String (Int × State) := do
  let s ← fileclose s rf
  let s ← fileclose s wf
  return (-1, s)

/-- `p->ofile[fd] = f`, as the fields of the process. -/
def ofile (pr : Tree.Proc) (fd : Fin NOFILE) (f : Option (Fin NFILE)) : Tree.Proc :=
  { pr with ofile := Function.update pr.ofile fd f }

/-- `sys_pipe`; `copyout` says whether the descriptors can be stored. `kernel/sysfile.c:477–506`. -/
def sysPipe (s : State) (p : Tree.Slot) (pr : Tree.Proc) (kalloc copyout : Bool) :
    Except String (Int × State) := do
  let (r, s) ← pipealloc s kalloc
  match r with
  | none => return (-1, s)
  | some (rf, wf) =>
    match Tree.freeFd pr with
    | none => closeBoth s rf wf
    | some fd0 =>
      let s := s.setTables (s.toTables.setFd p pr fd0 (some rf))
      let pr := ofile pr fd0 (some rf)
      match Tree.freeFd pr with
      | none => closeBoth (s.setTables (s.toTables.setFd p pr fd0 none)) rf wf
      | some fd1 =>
        let s := s.setTables (s.toTables.setFd p pr fd1 (some wf))
        let pr := ofile pr fd1 (some wf)
        if copyout then return (0, s)
        else
          let s := s.setTables (s.toTables.setFd p pr fd0 none)
          let pr := ofile pr fd0 none
          closeBoth (s.setTables (s.toTables.setFd p pr fd1 none)) rf wf

/-- `sys_close`; `kernel/sysfile.c:97–108`. -/
def sysClose (s : State) (p : Tree.Slot) (pr : Tree.Proc) (fd : Int) :
    Except String (Int × State) :=
  match Tree.argfd pr fd with
  | none => .ok (-1, s)
  | some (fd, f) => do
    let s ← fileclose (s.setTables (s.toTables.setFd p pr fd none)) f
    return (0, s)

/-- `exec` and `sys_exec`: the inode of the program is looked up, locked, and put again when it has
been read or found unfit; `kernel/exec.c:36–71, 133–140`. -/
def sysExec (s : State) (pr : Tree.Proc) (path : Option Tree.Path) : Except String State :=
  match path with
  | none => .ok s
  | some path => do
    let (r, t) ← Tree.namex s.toState pr false path
    match r with
    | none => return s.withTree t
    | some (ip, _) =>
      let t ← Tree.ilock t ip
      return s.withTree (Tree.iput t ip)

/-- The loop of `exit` over the descriptors; `kernel/proc.c:359–365`. -/
def closeFiles (p : Tree.Slot) : List (Fin NOFILE) → State → Tree.Proc → Except String State
  | [], s, _ => .ok s
  | fd :: fds, s, pr =>
    match pr.ofile fd with
    | none => closeFiles p fds s pr
    | some f => do
      let s ← fileclose s f
      closeFiles p fds (s.setTables (s.toTables.setFd p pr fd none)) (ofile pr fd none)

/-- `exit`; `kernel/proc.c:350–393`. -/
def sysExit (s : State) (p : Tree.Slot) (pr : Tree.Proc) : Except String State := do
  let s ← closeFiles p (List.finRange NOFILE) s pr
  let s := s.withTree (Tree.iput s.toState pr.cwd)
  return s.setTables { s.toTables with procs := Function.update s.procs p none }

/-- A system call of the process in slot `p`, with its arguments and what it finds free. A `fork`
that fails, for want of a slot or of memory, has no slot for the child; a path is `none` if it, or
for `exec` the arguments, cannot be fetched. -/
inductive Call where
  | sysOpen (p : Tree.Slot) (path : Option Tree.Path) (omode : UInt32) (space : Nat → Bool)
  | sysDup (p : Tree.Slot) (fd : Int)
  | sysClose (p : Tree.Slot) (fd : Int)
  | sysPipe (p : Tree.Slot) (kalloc copyout : Bool)
  | sysFork (p : Tree.Slot) (q : Option Tree.Slot)
  | sysExec (p : Tree.Slot) (path : Option Tree.Path)
  | sysChdir (p : Tree.Slot) (path : Option Tree.Path)
  | sysLink (p : Tree.Slot) (old new : Option Tree.Path) (space : Nat → Bool)
  | sysUnlink (p : Tree.Slot) (path : Option Tree.Path)
  | sysMkdir (p : Tree.Slot) (path : Option Tree.Path) (space : Nat → Bool)
  | sysMknod (p : Tree.Slot) (path : Option Tree.Path) (major : Int) (space : Nat → Bool)
  | sysExit (p : Tree.Slot)
  | sysWait (p : Tree.Slot)

/-- The calling process. -/
def Call.slot : Call → Tree.Slot
  | .sysOpen p .. | .sysDup p _ | .sysClose p _ | .sysPipe p .. | .sysFork p _ | .sysExec p _
  | .sysChdir p _ | .sysLink p .. | .sysUnlink p _ | .sysMkdir p .. | .sysMknod p .. | .sysExit p
  | .sysWait p => p

/-- A call on the tree. -/
def State.lift (s : State) (r : Except String (Int × Tree.State)) : Except String State :=
  r.map (fun r ↦ s.withTree r.2)

/-- Perform a call of the process `pr`. The child that `wait` finds has no files and no directory
any more. -/
def Call.exec (s : State) (pr : Tree.Proc) : Call → Except String State
  | .sysOpen p path omode space => s.lift (Tree.sysOpen s.toState p pr space path omode)
  | .sysDup p fd => s.lift (Tree.sysDup s.toState p pr fd)
  | .sysClose p fd => (Fd.sysClose s p pr fd).map (·.2)
  | .sysPipe p kalloc copyout => (Fd.sysPipe s p pr kalloc copyout).map (·.2)
  | .sysFork _ none => .ok s
  | .sysFork _ (some q) =>
    if (s.procs q).isSome then .error "no free slot"
    else (Tree.sysFork s.toState pr q).map s.withTree
  | .sysExec _ path => Fd.sysExec s pr path
  | .sysChdir p path => s.lift (Tree.sysChdir s.toState p pr path)
  | .sysLink _ old new space => s.lift (Tree.sysLink s.toState pr space old new)
  | .sysUnlink _ path => s.lift (Tree.sysUnlink s.toState pr path)
  | .sysMkdir _ path space => s.lift (Tree.sysMkdir s.toState pr space path)
  | .sysMknod _ path major space => s.lift (Tree.sysMknod s.toState pr space path major)
  | .sysExit p => if p = Tree.initSlot then .error "init exiting" else Fd.sysExit s p pr
  | .sysWait _ => .ok s

/-- One completed system call of a running process; `none` if it does not complete. -/
def step (s : State) (c : Call) : Option State :=
  match s.procs c.slot with
  | none => none
  | some pr => (c.exec s pr).toOption

/-- The state after `userinit`, without pipes. -/
def boot (im : Tree.Image) : State where
  toState := Tree.boot im
  pipe := fun _ ↦ none
  pipes := fun _ ↦ ⟨false, false, 0⟩
  npipes := 0

end Xv6.Fd
