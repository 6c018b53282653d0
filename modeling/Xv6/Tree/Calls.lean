import Xv6.Lib.Run
import Xv6.Tree.Model

/-!
# File system calls

The system calls of `kernel/sysfile.c` that change the tree or the references to it, and the
parts of `fork` and `exit` that do. A path argument is `none` when `argstr` fails to fetch it.
`space` says, for each directory, whether the disk has room for another block of it.
-/

namespace Xv6.Tree

open Xv6.Lib

/-- Open modes; `kernel/fcntl.h`. -/
def O_RDONLY : UInt32 := 0x000

def O_WRONLY : UInt32 := 0x001

def O_RDWR : UInt32 := 0x002

def O_CREATE : UInt32 := 0x200

/-- The conversion of an `int` to a `short`. -/
def toShort (n : Int) : Int := short (n % 2 ^ 16).toNat

/-! ### Creating -/

/-- The entries `.` and `..` of the new directory `ip`; `kernel/sysfile.c:278`. -/
def createDots (s : State) (space : Bool) (dp ip : Nat) : Except String (Bool × State) := do
  let (ok, s) ← dirlink s space ip dot ip
  if ok then dirlink s space ip dotdot dp else return (false, s)

/-- The entries that `create` makes for the new inode `ip`; `kernel/sysfile.c:276–283`. -/
def createLinks (s : State) (space : Nat → Bool) (dp ip : Nat) (name : Name) (type : FileType) :
    Except String (Bool × State) :=
  if type = .dir then do
    let (ok, s) ← createDots s (space ip) dp ip
    if ok then dirlink s (space dp) dp name ip else return (false, s)
  else dirlink s (space dp) dp name ip

/-- `create` after the name was not found in `dp`; `kernel/sysfile.c:265–302`. -/
def createNew (s : State) (space : Nat → Bool) (dp : Nat) (name : Name) (type : FileType)
    (major : Int) : Except String (Option Nat × State) := do
  let (r, s) ← ialloc s type
  match r with
  | none => return (none, iput s dp)
  | some ip =>
    let s ← ilock s ip
    let s := s.setInode ip { s.inodes ip with major := major, nlink := 1 }
    let (ok, s) ← createLinks s space dp ip name type
    if ok then
      let s := if type = .dir then s.setInode dp (s.inodes dp).incLink else s
      return (some ip, iput s dp)
    else
      let s := s.setInode ip { s.inodes ip with nlink := 0 }
      return (none, iput (iput s ip) dp)

/-- `create`; `kernel/sysfile.c:245–302`. -/
def create (s : State) (pr : Proc) (space : Nat → Bool) (path : Path) (type : FileType)
    (major : Int) : Except String (Option Nat × State) := do
  let (r, s) ← namex s pr true path
  match r with
  | none => return (none, s)
  | some (dp, name) =>
    let s ← ilock s dp
    let (r, s) ← dirlookup s dp name
    match r with
    | some (_, ip) =>
      let s ← ilock (iput s dp) ip
      let i := s.inodes ip
      if type = .file ∧ (i.type = .file ∨ i.type = .device) then return (some ip, s)
      else return (none, iput s ip)
    | none => createNew s space dp name type major

/-- The inode that `sys_open` opens, locked; `kernel/sysfile.c:319–336`. -/
def openInode (s : State) (pr : Proc) (space : Nat → Bool) (path : Path) (omode : UInt32) :
    Except String (Option Nat × State) :=
  if omode &&& O_CREATE ≠ 0 then create s pr space path .file 0
  else do
    let (r, s) ← namex s pr false path
    match r with
    | none => return (none, s)
    | some (ip, _) =>
      let s ← ilock s ip
      if (s.inodes ip).type = .dir ∧ omode ≠ O_RDONLY then return (none, iput s ip)
      else return (some ip, s)

/-- The fields of a file opened on inode `ip`; `kernel/sysfile.c:352–361`. -/
def opened (ip : Nat) (i : Inode) (omode : UInt32) : File where
  ref := 1
  target := if i.type = .device then .device ip i.major else .inode ip
  readable := omode &&& O_WRONLY = 0
  writable := omode &&& O_WRONLY ≠ 0 ∨ omode &&& O_RDWR ≠ 0

/-- The file and the descriptor that `sys_open` makes; `kernel/sysfile.c:344–371`. -/
def openFile (s : State) (p : Slot) (pr : Proc) (ip : Nat) (omode : UInt32) :
    Except String (Int × State) :=
  match freeFile s.toTables with
  | none => .ok (-1, iput s ip)
  | some f =>
    match freeFd pr with
    | none => do
      let s := { s with files := Function.update s.files f { s.files f with ref := 1 } }
      let s ← fileclose s f
      return (-1, iput s ip)
    | some fd =>
      let t := s.toTables.setFd p pr fd (some f)
      let files := Function.update t.files f (opened ip (s.inodes ip) omode)
      .ok (fd, { s with toTables := { t with files := files } })

/-- `sys_open`; `kernel/sysfile.c:304–371`. -/
def sysOpen (s : State) (p : Slot) (pr : Proc) (space : Nat → Bool) (path : Option Path)
    (omode : UInt32) : Except String (Int × State) :=
  match path with
  | none => .ok (-1, s)
  | some path => do
    let (r, s) ← openInode s pr space path omode
    match r with
    | none => return (-1, s)
    | some ip =>
      let i := s.inodes ip
      if i.type = .device ∧ (i.major < 0 ∨ NDEV ≤ i.major) then return (-1, iput s ip)
      else openFile s p pr ip omode

/-- The calls that create an inode and put it right away. -/
def createAndPut (s : State) (pr : Proc) (space : Nat → Bool) (path : Option Path)
    (type : FileType) (major : Int) : Except String (Int × State) :=
  match path with
  | none => .ok (-1, s)
  | some path => do
    let (r, s) ← create s pr space path type major
    match r with
    | none => return (-1, s)
    | some ip => return (0, iput s ip)

/-- `sys_mkdir`; `kernel/sysfile.c:373–387`. -/
def sysMkdir (s : State) (pr : Proc) (space : Nat → Bool) (path : Option Path) :
    Except String (Int × State) :=
  createAndPut s pr space path .dir 0

/-- `sys_mknod`; `kernel/sysfile.c:389–407`. -/
def sysMknod (s : State) (pr : Proc) (space : Nat → Bool) (path : Option Path) (major : Int) :
    Except String (Int × State) :=
  createAndPut s pr space path .device (toShort major)

/-! ### Links -/

/-- The end of `sys_link` when the new entry could not be made; `kernel/sysfile.c:163–169`. -/
def linkBad (s : State) (ip : Nat) : Except String (Int × State) := do
  let s ← ilock s ip
  return (-1, iput (s.setInode ip (s.inodes ip).decLink) ip)

/-- `sys_link` of the inode `ip`, referenced, to the path `new`; `kernel/sysfile.c:138–170`. -/
def linkInode (s : State) (pr : Proc) (space : Nat → Bool) (ip : Nat) (new : Path) :
    Except String (Int × State) := do
  let s ← ilock s ip
  if (s.inodes ip).type = .dir then return (-1, iput s ip)
  else
    let s := s.setInode ip (s.inodes ip).incLink
    let (r, s) ← namex s pr true new
    match r with
    | none => linkBad s ip
    | some (dp, name) =>
      let s ← ilock s dp
      let (ok, s) ← dirlink s (space dp) dp name ip
      if ok then return (0, iput (iput s dp) ip) else linkBad (iput s dp) ip

/-- `sys_link`; `kernel/sysfile.c:123–170`. -/
def sysLink (s : State) (pr : Proc) (space : Nat → Bool) (old new : Option Path) :
    Except String (Int × State) :=
  match old, new with
  | some old, some new => do
    let (r, s) ← namex s pr false old
    match r with
    | none => return (-1, s)
    | some (ip, _) => linkInode s pr space ip new
  | _, _ => .ok (-1, s)

/-- `sys_unlink` of entry `k` of `dp`, which names `ip`; both are referenced and `dp` is locked;
`kernel/sysfile.c:213–242`. -/
def unlinkEntry (s : State) (dp k ip : Nat) : Except String (Int × State) := do
  let s ← ilock s ip
  let i := s.inodes ip
  if short i.nlink < 1 then throw "unlink: nlink < 1"
  else if i.type = .dir ∧ !isdirempty i then return (-1, iput (iput s ip) dp)
  else
    let d := s.inodes dp
    let d := { d with entries := d.entries.set k ⟨0, []⟩ }
    let s := iput (s.setInode dp (if i.type = .dir then d.decLink else d)) dp
    return (0, iput (s.setInode ip (s.inodes ip).decLink) ip)

/-- `sys_unlink`; `kernel/sysfile.c:188–243`. -/
def sysUnlink (s : State) (pr : Proc) (path : Option Path) : Except String (Int × State) :=
  match path with
  | none => .ok (-1, s)
  | some path => do
    let (r, s) ← namex s pr true path
    match r with
    | none => return (-1, s)
    | some (dp, name) =>
      let s ← ilock s dp
      if name = dot ∨ name = dotdot then return (-1, iput s dp)
      else
        let (r, s) ← dirlookup s dp name
        match r with
        | none => return (-1, iput s dp)
        | some (k, ip) => unlinkEntry s dp k ip

/-! ### References -/

/-- `sys_chdir`; `kernel/sysfile.c:409–432`. -/
def sysChdir (s : State) (p : Slot) (pr : Proc) (path : Option Path) :
    Except String (Int × State) :=
  match path with
  | none => .ok (-1, s)
  | some path => do
    let (r, s) ← namex s pr false path
    match r with
    | none => return (-1, s)
    | some (ip, _) =>
      let s ← ilock s ip
      if (s.inodes ip).type ≠ .dir then return (-1, iput s ip)
      else
        let s := iput s pr.cwd
        return (0, { s with toTables := s.toTables.setCwd p pr ip })

/-- `sys_close`; `kernel/sysfile.c:97–108`. -/
def sysClose (s : State) (p : Slot) (pr : Proc) (fd : Int) : Except String (Int × State) :=
  match argfd pr fd with
  | none => .ok (-1, s)
  | some (fd, f) => do
    let s ← fileclose { s with toTables := s.toTables.setFd p pr fd none } f
    return (0, s)

/-- `sys_dup`; `kernel/sysfile.c:54–66`. -/
def sysDup (s : State) (p : Slot) (pr : Proc) (fd : Int) : Except String (Int × State) :=
  match argfd pr fd with
  | none => .ok (-1, s)
  | some (_, f) =>
    match freeFd pr with
    | none => .ok (-1, s)
    | some new => do
      let s ← filedup { s with toTables := s.toTables.setFd p pr new (some f) } f
      return (new, s)

/-- The loop of `fork` over the parent's descriptors; `kernel/proc.c:310–312`. -/
def dupFiles (s : State) (pr : Proc) : List (Fin NOFILE) → Except String State
  | [] => .ok s
  | fd :: fds =>
    match pr.ofile fd with
    | none => dupFiles s pr fds
    | some f => do
      let s ← filedup s f
      dupFiles s pr fds

/-- `fork` into the free slot `q`; `kernel/proc.c:280–333`. -/
def sysFork (s : State) (pr : Proc) (q : Slot) : Except String State := do
  let s ← dupFiles s pr (List.finRange NOFILE)
  let s := idup s pr.cwd
  return { s with procs := Function.update s.procs q (some pr) }

/-- The loop of `exit` over the descriptors; `kernel/proc.c:359–365`. -/
def closeFiles (p : Slot) : List (Fin NOFILE) → State → Proc → Except String State
  | [], s, _ => .ok s
  | fd :: fds, s, pr =>
    match pr.ofile fd with
    | none => closeFiles p fds s pr
    | some f => do
      let s ← fileclose s f
      let pr' := { pr with ofile := Function.update pr.ofile fd none }
      closeFiles p fds { s with toTables := s.toTables.setFd p pr fd none } pr'

/-- `exit`; `kernel/proc.c:350–393`. -/
def sysExit (s : State) (p : Slot) (pr : Proc) : Except String State := do
  let s ← closeFiles p (List.finRange NOFILE) s pr
  let s := iput s pr.cwd
  return { s with procs := Function.update s.procs p none }

/-! ### Runs -/

/-- A system call of the process in slot `p` with its arguments, and what it finds free. -/
inductive Call where
  | sysOpen (p : Slot) (path : Option Path) (omode : UInt32) (space : Nat → Bool)
  | sysMkdir (p : Slot) (path : Option Path) (space : Nat → Bool)
  | sysMknod (p : Slot) (path : Option Path) (major : Int) (space : Nat → Bool)
  | sysLink (p : Slot) (old new : Option Path) (space : Nat → Bool)
  | sysUnlink (p : Slot) (path : Option Path)
  | sysChdir (p : Slot) (path : Option Path)
  | sysClose (p : Slot) (fd : Int)
  | sysDup (p : Slot) (fd : Int)
  | sysFork (p q : Slot)
  | sysExit (p : Slot)

/-- The calling process. -/
def Call.slot : Call → Slot
  | .sysOpen p .. => p
  | .sysMkdir p .. => p
  | .sysMknod p .. => p
  | .sysLink p .. => p
  | .sysUnlink p .. => p
  | .sysChdir p .. => p
  | .sysClose p .. => p
  | .sysDup p .. => p
  | .sysFork p .. => p
  | .sysExit p => p

/-- The slot of `initproc`. -/
def initSlot : Slot := 0

/-- Perform a call of the process `pr`. -/
def Call.exec (s : State) (pr : Proc) : Call → Except String State
  | .sysOpen p path omode space => (Tree.sysOpen s p pr space path omode).map (·.2)
  | .sysMkdir _ path space => (Tree.sysMkdir s pr space path).map (·.2)
  | .sysMknod _ path major space => (Tree.sysMknod s pr space path major).map (·.2)
  | .sysLink _ old new space => (Tree.sysLink s pr space old new).map (·.2)
  | .sysUnlink _ path => (Tree.sysUnlink s pr path).map (·.2)
  | .sysChdir p path => (Tree.sysChdir s p pr path).map (·.2)
  | .sysClose p fd => (Tree.sysClose s p pr fd).map (·.2)
  | .sysDup p fd => (Tree.sysDup s p pr fd).map (·.2)
  | .sysFork _ q => if (s.procs q).isSome then .error "no free slot" else Tree.sysFork s pr q
  | .sysExit p => if p = initSlot then .error "init exiting" else Tree.sysExit s p pr

/-- One completed system call of a running process; `none` if it does not complete. -/
def step (s : State) (c : Call) : Option State :=
  match s.procs c.slot with
  | none => none
  | some pr => (c.exec s pr).toOption

/-! ### The first state -/

/-- What `mkfs` is given: the names of the files of the root directory. -/
structure Image where
  names : List Name
  count : names.length + 2 ≤ NINODES
  dots : ∀ name ∈ names, name.take DIRSIZ ≠ dot ∧ name.take DIRSIZ ≠ dotdot

/-- The entries of the root directory, to the end of a block; `mkfs/mkfs.c:117–168`. -/
def Image.rootEntries (im : Image) : List Dirent :=
  let es := ⟨ROOTINO, dot⟩ :: ⟨ROOTINO, dotdot⟩ ::
    im.names.mapIdx (fun i name ↦ ⟨i + 2, name.take DIRSIZ⟩)
  es ++ List.replicate ((es.length / DPB + 1) * DPB - es.length) ⟨0, []⟩

/-- The inodes of the image; `mkfs/mkfs.c:220–232`. -/
def Image.inodes (im : Image) (x : Nat) : Inode :=
  if x = ROOTINO then { type := .dir, major := 0, nlink := 1, entries := im.rootEntries }
  else if 2 ≤ x ∧ x < im.names.length + 2 then
    { type := .file, major := 0, nlink := 1, entries := [] }
  else { type := .free, major := 0, nlink := 0, entries := [] }

/-- The state after `userinit` (`kernel/proc.c:233–256`): one process, in the root directory. -/
def boot (im : Image) : State where
  inodes := im.inodes
  ref := Function.update (fun _ ↦ 0) ROOTINO 1
  valid := fun _ ↦ false
  files := fun _ ↦ { ref := 0, target := .none, readable := false, writable := false }
  procs := Function.update (fun _ ↦ none) initSlot (some { ofile := fun _ ↦ none, cwd := ROOTINO })

end Xv6.Tree
