import Mathlib.Logic.Function.Basic
import Xv6.Base.Param
import Xv6.Fs.Layout
import Xv6.Lib.Search

/-!
# The directory tree and the system calls that change it

Inodes with their type, link count and directory entries, the reference counts of the inode
table (`kernel/fs.c:243–370`), directories and paths (`kernel/fs.c:541–699`), the file table
(`kernel/file.c`) and the system calls of `kernel/sysfile.c` on them, with `fork` and `exit`
(`kernel/proc.c`). A call runs to its end without interruption. A `panic` is an error with its
text.

The in-memory copy of an inode is written back by `iupdate` whenever it changes, so a state
has one copy of each inode. The contents of files are left out: the blocks of a directory are
its list of entries, and whether the disk has room for another one is an input of the call.
-/

namespace Xv6.Tree

open Xv6.Lib

/-- Number of inodes that `mkfs` makes; `mkfs/mkfs.c:18`. -/
def NINODES : Nat := 200

/-- The inode number of the root directory; `kernel/fs.h:5`. -/
def ROOTINO : Nat := 1

/-- Length of a name in a directory entry; `kernel/fs.h:54`. -/
def DIRSIZ : Nat := 14

/-- Directory entries per block; `mkfs/mkfs.c` asserts that they fill it. -/
def DPB : Nat := BSIZE / 16

/-- File types; `kernel/stat.h`. A free inode has type 0. -/
inductive FileType where
  | free
  | dir
  | file
  | device
  deriving DecidableEq, Repr

/-- The bytes of a name before its first NUL, at most `DIRSIZ` of them. -/
abbrev Name := List UInt8

/-- The bytes of a string before its NUL. -/
abbrev Path := List UInt8

/-- The name `.`. -/
def dot : Name := [46]

/-- The name `..`. -/
def dotdot : Name := [46, 46]

/-- `struct dirent`; entry number 0 marks a free slot. `kernel/fs.h:56–59`. -/
structure Dirent where
  inum : Nat
  name : Name
  deriving DecidableEq, Repr

/-- An inode; a directory's contents are its entries. `nlink` holds the 16 bits of the `short`.
`kernel/fs.h:32–39`. -/
structure Inode where
  type : FileType
  major : Int
  nlink : Nat
  entries : List Dirent
  deriving DecidableEq, Repr

/-- What `f->type` says and the fields it selects; `kernel/file.h:2–9`. -/
inductive Target where
  | none
  | inode (ip : Nat)
  | device (ip : Nat) (major : Int)
  deriving DecidableEq, Repr

/-- The inode a file refers to. -/
def Target.ip : Target → Option Nat
  | .none => Option.none
  | .inode ip => some ip
  | .device ip _ => some ip

/-- `struct file`. -/
structure File where
  ref : Nat
  target : Target
  readable : Bool
  writable : Bool
  deriving DecidableEq, Repr

/-- The part of `struct proc` that refers to files. -/
structure Proc where
  ofile : Fin NOFILE → Option (Fin NFILE)
  cwd : Nat

/-- A slot of the process table. -/
abbrev Slot := Fin NPROC

/-- The file table and the process table; `none` is a slot without a running process. -/
structure Tables where
  files : Fin NFILE → File
  procs : Slot → Option Proc

/-- Inodes, the inode table's `ref` and `valid` by inode number, and the other tables. -/
structure State extends Tables where
  inodes : Nat → Inode
  ref : Nat → Nat
  valid : Nat → Bool

/-! ### Inodes in memory -/

/-- Number of slots of the inode table in use. -/
def State.inUse (s : State) : Nat := (List.range NINODES).countP (fun x ↦ decide (0 < s.ref x))

/-- `iget`; `kernel/fs.c:246–277`. -/
def iget (s : State) (x : Nat) : Except String State :=
  if 0 < s.ref x then .ok { s with ref := Function.update s.ref x (s.ref x + 1) }
  else if NINODE ≤ s.inUse then .error "iget: no inodes"
  else .ok { s with
    ref := Function.update s.ref x 1
    valid := Function.update s.valid x false }

/-- `idup`; `kernel/fs.c:281–288`. -/
def idup (s : State) (x : Nat) : State := { s with ref := Function.update s.ref x (s.ref x + 1) }

/-- `ilock`; `kernel/fs.c:292–317`. -/
def ilock (s : State) (x : Nat) : Except String State :=
  if s.ref x < 1 then .error "ilock"
  else if s.valid x then .ok s
  else if (s.inodes x).type = .free then .error "ilock: no type"
  else .ok { s with valid := Function.update s.valid x true }

/-- Store the fields of inode `x`, in memory and on disk. -/
def State.setInode (s : State) (x : Nat) (ip : Inode) : State :=
  { s with inodes := Function.update s.inodes x ip }

/-- An inode after `itrunc` and `ip->type = 0`. -/
def Inode.freed (ip : Inode) : Inode := { ip with type := .free, entries := [] }

/-- `iput`; `kernel/fs.c:336–362`. -/
def iput (s : State) (x : Nat) : State :=
  if s.ref x = 1 ∧ s.valid x = true ∧ (s.inodes x).nlink = 0 then
    { s with
      inodes := Function.update s.inodes x (s.inodes x).freed
      valid := Function.update s.valid x false
      ref := Function.update s.ref x 0 }
  else { s with ref := Function.update s.ref x (s.ref x - 1) }

/-- `ip->nlink++` on a `short`. -/
def Inode.incLink (ip : Inode) : Inode := { ip with nlink := (ip.nlink + 1) % 2 ^ 16 }

/-- `ip->nlink--` on a `short`. -/
def Inode.decLink (ip : Inode) : Inode :=
  { ip with nlink := if ip.nlink = 0 then 2 ^ 16 - 1 else ip.nlink - 1 }

/-- The value of the 16 bits as a `short`. -/
def short (n : Nat) : Int := if n < 2 ^ 15 then n else n - 2 ^ 16

/-- The free inode that `ialloc` takes; `kernel/fs.c:205–216`. -/
def freeInode (m : Nat → Inode) : Option Nat :=
  firstFrom (fun x ↦ decide ((m x).type = .free)) 1 (NINODES - 1)

/-- `ialloc`; `kernel/fs.c:198–219`. -/
def ialloc (s : State) (type : FileType) : Except String (Option Nat × State) :=
  match freeInode s.inodes with
  | some x => do
    let s ← iget (s.setInode x { type := type, major := 0, nlink := 0, entries := [] }) x
    return (some x, s)
  | none => .ok (none, s)

/-! ### Directories -/

/-- The loop of `dirlookup`: the first entry in use with this name, as its index and its inode
number; `kernel/fs.c:560–573`. -/
def scan (name : Name) : Nat → List Dirent → Option (Nat × Nat)
  | _, [] => none
  | k, e :: es => if e.inum ≠ 0 ∧ e.name = name then some (k, e.inum) else scan name (k + 1) es

/-- `dirlookup`: the index of the entry and its inode, which it references;
`kernel/fs.c:551–575`. -/
def dirlookup (s : State) (dp : Nat) (name : Name) : Except String (Option (Nat × Nat) × State) :=
  if (s.inodes dp).type ≠ .dir then .error "dirlookup not DIR"
  else match scan name 0 (s.inodes dp).entries with
  | none => .ok (none, s)
  | some (k, x) => do
    let s ← iget s x
    return (some (k, x), s)

/-- Write an entry into the first free slot, or else at the end; `kernel/fs.c:592–603`. -/
def put (e : Dirent) : List Dirent → List Dirent
  | [] => [e]
  | d :: es => if d.inum = 0 then e :: es else d :: put e es

/-- Does the write of `dirlink` succeed? A new entry at the end has to stay within the maximum
size of a file, and the first one of a block needs space on the disk. -/
def fits (space : Bool) (es : List Dirent) : Bool :=
  es.any (fun e ↦ decide (e.inum = 0)) ||
    (decide (es.length < Fs.MAXFILE * DPB) && (decide (es.length % DPB ≠ 0) || space))

/-- `dirlink`; `kernel/fs.c:579–606`. -/
def dirlink (s : State) (space : Bool) (dp : Nat) (name : Name) (inum : Nat) :
    Except String (Bool × State) := do
  let (found, s) ← dirlookup s dp name
  match found with
  | some (_, ip) => return (false, iput s ip)
  | none =>
    let d := s.inodes dp
    if fits space d.entries then
      return (true, s.setInode dp { d with entries := put ⟨inum, name⟩ d.entries })
    else return (false, s)

/-- `isdirempty`; `kernel/sysfile.c:173–186`. -/
def isdirempty (dp : Inode) : Bool := (dp.entries.drop 2).all (fun e ↦ decide (e.inum = 0))

/-! ### Paths -/

/-- `skipelem`: the next element of the path, cut to `DIRSIZ` bytes, and the rest;
`kernel/fs.c:622–645`. -/
def skipelem (path : Path) : Option (Name × Path) :=
  let path := path.dropWhile (· == 47)
  if path = [] then none
  else some ((path.takeWhile (· != 47)).take DIRSIZ,
    (path.dropWhile (· != 47)).dropWhile (· == 47))

/-- The end of `namex`, when no element is left; `kernel/fs.c:679–683`. -/
def namexEnd (parent : Bool) (s : State) (ip : Nat) : Option (Nat × Name) × State :=
  if parent then (none, iput s ip) else (some (ip, []), s)

/-- The loop of `namex`; `kernel/fs.c:661–678`. Each iteration takes a byte of the path at
least, so that a path is at its end when `fuel`, which starts as its length, is used up. -/
def namexLoop (parent : Bool) : Nat → State → Nat → Path →
    Except String (Option (Nat × Name) × State)
  | 0, s, ip, _ => .ok (namexEnd parent s ip)
  | fuel + 1, s, ip, path =>
    match skipelem path with
    | none => .ok (namexEnd parent s ip)
    | some (name, rest) => do
      let s ← ilock s ip
      if (s.inodes ip).type ≠ .dir then return (none, iput s ip)
      else if parent ∧ rest = [] then return (some (ip, name), s)
      else
        let (next, s) ← dirlookup s ip name
        match next with
        | none => return (none, iput s ip)
        | some (_, next) => namexLoop parent fuel (iput s ip) next rest

/-- `namex` of process `pr`: the inode, referenced, and for `nameiparent` the last element of the
path; `kernel/fs.c:651–684`. -/
def namex (s : State) (pr : Proc) (parent : Bool) (path : Path) :
    Except String (Option (Nat × Name) × State) :=
  if path.head? = some 47 then do
    let s ← iget s ROOTINO
    namexLoop parent path.length s ROOTINO path
  else namexLoop parent path.length (idup s pr.cwd) pr.cwd path

/-! ### Files -/

/-- `fileclose` on the tables; `kernel/file.c:65–74`. -/
def Tables.unref (t : Tables) (f : Fin NFILE) : Tables :=
  let ff := t.files f
  let ff := if ff.ref - 1 > 0 then { ff with ref := ff.ref - 1 }
    else { ff with ref := 0, target := .none }
  { t with files := Function.update t.files f ff }

/-- The inode that `fileclose` puts: that of the file, if this was its last reference. -/
def Tables.lastIp (t : Tables) (f : Fin NFILE) : Option Nat :=
  if (t.files f).ref - 1 > 0 then none else (t.files f).target.ip

/-- `fileclose`; `kernel/file.c:60–84`. -/
def fileclose (s : State) (f : Fin NFILE) : Except String State :=
  if (s.files f).ref < 1 then .error "fileclose"
  else
    let s' := { s with toTables := s.toTables.unref f }
    match s.toTables.lastIp f with
    | none => .ok s'
    | some ip => .ok (iput s' ip)

/-- `filedup`; `kernel/file.c:47–56`. -/
def filedup (s : State) (f : Fin NFILE) : Except String State :=
  if (s.files f).ref < 1 then .error "filedup"
  else .ok { s with
    files := Function.update s.files f { s.files f with ref := (s.files f).ref + 1 } }

/-- The file that `filealloc` takes; `kernel/file.c:29–44`. -/
def freeFile (t : Tables) : Option (Fin NFILE) :=
  (List.finRange NFILE).find? (fun f ↦ decide ((t.files f).ref = 0))

/-- The descriptor that `fdalloc` takes; `kernel/sysfile.c:39–52`. -/
def freeFd (pr : Proc) : Option (Fin NOFILE) :=
  (List.finRange NOFILE).find? (fun fd ↦ decide (pr.ofile fd = none))

/-- `p->ofile[fd] = f` for the process `pr` in slot `p`. -/
def Tables.setFd (t : Tables) (p : Slot) (pr : Proc) (fd : Fin NOFILE) (f : Option (Fin NFILE)) :
    Tables :=
  let pr := { pr with ofile := Function.update pr.ofile fd f }
  { t with procs := Function.update t.procs p (some pr) }

/-- `p->cwd = ip` for the process `pr` in slot `p`. -/
def Tables.setCwd (t : Tables) (p : Slot) (pr : Proc) (ip : Nat) : Tables :=
  let pr := { pr with cwd := ip }
  { t with procs := Function.update t.procs p (some pr) }

/-- `argfd`; `kernel/sysfile.c:21–35`. -/
def argfd (pr : Proc) (fd : Int) : Option (Fin NOFILE × Fin NFILE) :=
  if h : 0 ≤ fd ∧ fd < NOFILE then
    let fd : Fin NOFILE := ⟨fd.toNat, by omega⟩
    (pr.ofile fd).map (fun f ↦ (fd, f))
  else none

end Xv6.Tree
