import Xv6.Base.Param
import Xv6.Dir.Path

/-!
# Making directory entries, on the blocks of the disk

`create` and `sys_link` of `kernel/sysfile.c` with what they call: the table of in-memory inodes
(`kernel/fs.c:196–370`), directories and paths (`kernel/fs.c:541–699`), down to the blocks. A call
runs to its end without interruption. A `panic` is an error with its text; a process that waits for
a lock that it holds itself never returns, which is an error, too. All inodes are on one device.
-/

namespace Xv6.Sysfile

open Xv6.Lib Xv6.Fs Xv6.Dir

/-- Inode type of files; `kernel/stat.h:2`. -/
def T_FILE : Nat := 2

/-- Inode type of devices; `kernel/stat.h:3`. -/
def T_DEVICE : Nat := 3

/-- The inode number of the root directory; `kernel/fs.h:5`. -/
def ROOTINO : Nat := 1

/-- The disk and the table of inodes, which is by inode number: `ip` holds the fields of `struct
inode` that are copies of those on the disk. -/
structure State where
  disk : Disk
  ip : Nat → Dinode
  ref : Nat → Nat
  valid : Nat → Bool
  locked : Nat → Bool

/-! ### Inodes in memory -/

/-- Number of slots of the inode table in use. -/
def State.inUse (sb : Super) (s : State) : Nat :=
  (List.range sb.ninodes).countP (fun x ↦ decide (0 < s.ref x))

/-- `iget`; `kernel/fs.c:246–277`. -/
def iget (sb : Super) (x : Nat) (s : State) : Except String State :=
  if 0 < s.ref x then .ok { s with ref := Function.update s.ref x (s.ref x + 1) }
  else if NINODE ≤ s.inUse sb then .error "iget: no inodes"
  else .ok { s with
    ref := Function.update s.ref x 1
    valid := Function.update s.valid x false }

/-- `idup`; `kernel/fs.c:281–288`. -/
def idup (x : Nat) (s : State) : State := { s with ref := Function.update s.ref x (s.ref x + 1) }

/-- `ilock`; `kernel/fs.c:292–317`. -/
def ilock (sb : Super) (x : Nat) (s : State) : Except String State :=
  if s.ref x < 1 then .error "ilock"
  else if s.locked x then .error "acquiresleep"
  else if s.valid x then .ok { s with locked := Function.update s.locked x true }
  else if (dinode sb s.disk x).type = 0 then .error "ilock: no type"
  else .ok { s with
    locked := Function.update s.locked x true
    ip := Function.update s.ip x (dinode sb s.disk x)
    valid := Function.update s.valid x true }

/-- `iunlock`; `kernel/fs.c:320–327`. -/
def iunlock (x : Nat) (s : State) : Except String State :=
  if s.locked x = false ∨ s.ref x < 1 then .error "iunlock"
  else .ok { s with locked := Function.update s.locked x false }

/-- `iput`; `kernel/fs.c:336–362`. -/
def iput (sb : Super) (x : Nat) (s : State) : Except String State :=
  if s.ref x = 1 ∧ s.valid x = true ∧ (s.ip x).nlink = 0 then
    if s.locked x then .error "acquiresleep"
    else do
      let (ip, d) ← itrunc sb x (s.ip x) s.disk
      let ip := { ip with type := 0 }
      return { s with
        disk := iupdate sb x ip d
        ip := Function.update s.ip x ip
        valid := Function.update s.valid x false
        ref := Function.update s.ref x 0 }
  else .ok { s with ref := Function.update s.ref x (s.ref x - 1) }

/-- `iunlockput`; `kernel/fs.c:365–370`. -/
def iunlockput (sb : Super) (x : Nat) (s : State) : Except String State := do
  let s ← iunlock x s
  iput sb x s

/-- Fields of an inode are set, and `iupdate` writes it back. -/
def setFields (sb : Super) (x : Nat) (ip : Dinode) (s : State) : State :=
  { s with ip := Function.update s.ip x ip, disk := iupdate sb x ip s.disk }

/-- `ialloc`; `kernel/fs.c:198–219`. -/
def ialloc (sb : Super) (type : Nat) (s : State) : Except String (Option Nat × State) :=
  match Fs.ialloc sb type s.disk with
  | (some x, d) => do
    let s ← iget sb x { s with disk := d }
    return (some x, s)
  | (none, _) => .ok (none, s)

/-! ### Directories and paths -/

/-- `dirlookup` in directory `x`, which references the inode it finds; `kernel/fs.c:551–575`. -/
def dirlookup (sb : Super) (x : Nat) (name : Name) (s : State) :
    Except String (Option Nat × State) := do
  let (found, dp, d) ← Dir.dirlookup sb name (s.ip x) s.disk
  let s := { s with ip := Function.update s.ip x dp, disk := d }
  match found with
  | none => return (none, s)
  | some (inum, _) =>
    let s ← iget sb inum s
    return (some inum, s)

/-- `dirlink` in directory `x`: did it succeed? `kernel/fs.c:579–606`. -/
def dirlink (sb : Super) (x : Nat) (name : Name) (inum : Nat) (s : State) :
    Except String (Bool × State) := do
  let (found, s) ← dirlookup sb x name s
  match found with
  | some ip =>
    let s ← iput sb ip s
    return (false, s)
  | none =>
    let (off, dp, d) ← emptyLoop sb (s.ip x).size 0 (s.ip x) s.disk
    let de := makeDirent inum (strncpyFrom name 0 DIRSIZ)
    let (r, dp, d) ← writei sb x dp (fun k ↦ de[k]?) off DESIZE d
    return (decide (r = some DESIZE), { s with ip := Function.update s.ip x dp, disk := d })

/-- The loop of `namex` at inode `x`; each iteration takes a byte of the path at least, so that
`fuel`, which starts as its length, lasts until no element is left; `kernel/fs.c:661–684`. -/
def namexLoop (sb : Super) (parent : Bool) : Nat → List UInt8 → Name → Nat → State →
    Except String (Option (Nat × Name) × State)
  | fuel, path, buf, x, s =>
    match skipelem path buf with
    | none => do
      if parent then
        let s ← iput sb x s
        return (none, s)
      return (some (x, buf), s)
    | some (rest, name) =>
      match fuel with
      | 0 => .ok (none, s)
      | fuel + 1 => do
        let s ← ilock sb x s
        if (s.ip x).type ≠ T_DIR then
          let s ← iunlockput sb x s
          return (none, s)
        else if parent ∧ rest = [] then
          let s ← iunlock x s
          return (some (x, name), s)
        else
          let (next, s) ← dirlookup sb x name s
          let s ← iunlockput sb x s
          match next with
          | none => return (none, s)
          | some next => namexLoop sb parent fuel rest name next s

/-- `namex`, with the current directory of the process and the bytes that the buffer `name` holds;
`kernel/fs.c:651–684`. -/
def namex (sb : Super) (cwd : Nat) (parent : Bool) (path : List UInt8) (buf : Name) (s : State) :
    Except String (Option (Nat × Name) × State) :=
  if path.head? = some slash then do
    let s ← iget sb ROOTINO s
    namexLoop sb parent path.length path buf ROOTINO s
  else namexLoop sb parent path.length path buf cwd (idup cwd s)

/-! ### `create` -/

/-- The string ".". -/
def dot : Name := Function.update (fun _ ↦ 0) 0 46

/-- The string "..". -/
def dotdot : Name := Function.update dot 1 46

/-- The entries that the new inode gets if it is a directory; `kernel/sysfile.c:276–280`. -/
def dotEntries (sb : Super) (ip dp type : Nat) (s : State) : Except String (Bool × State) :=
  if type = T_DIR then do
    let (ok, s) ← dirlink sb ip dot ip s
    if ok then dirlink sb ip dotdot dp s else return (false, s)
  else .ok (true, s)

/-- The end of `create` at `fail`; `kernel/sysfile.c:296–301`. -/
def createFail (sb : Super) (ip dp : Nat) (s : State) : Except String (Option Nat × State) := do
  let s := setFields sb ip { s.ip ip with nlink := 0 } s
  let s ← iunlockput sb ip s
  let s ← iunlockput sb dp s
  return (none, s)

/-- `create` from the first `ilock` of the new inode `ip` on; `kernel/sysfile.c:270–301`. -/
def createLink (sb : Super) (dp : Nat) (name : Name) (ip type major minor : Nat) (s : State) :
    Except String (Option Nat × State) := do
  let s ← ilock sb ip s
  let s := setFields sb ip { s.ip ip with major := major, minor := minor, nlink := 1 } s
  let (ok, s) ← dotEntries sb ip dp type s
  if ok = false then createFail sb ip dp s
  else
    let (ok, s) ← dirlink sb dp name ip s
    if ok = false then createFail sb ip dp s
    else
      let s :=
        if type = T_DIR then setFields sb dp
          { s.ip dp with nlink := ((s.ip dp).nlink + 1) % 2 ^ 16 } s
        else s
      let s ← iunlockput sb dp s
      return (some ip, s)

/-- `create`: the new inode, or the one found, locked and referenced; `kernel/sysfile.c:245–302`. -/
def create (sb : Super) (cwd : Nat) (path : List UInt8) (type major minor : Nat) (buf : Name)
    (s : State) : Except String (Option Nat × State) := do
  let (found, s) ← namex sb cwd true path buf s
  match found with
  | none => return (none, s)
  | some (dp, name) =>
    let s ← ilock sb dp s
    let (found, s) ← dirlookup sb dp name s
    match found with
    | some ip =>
      let s ← iunlockput sb dp s
      let s ← ilock sb ip s
      if type = T_FILE ∧ ((s.ip ip).type = T_FILE ∨ (s.ip ip).type = T_DEVICE) then
        return (some ip, s)
      else
        let s ← iunlockput sb ip s
        return (none, s)
    | none =>
      let (new, s) ← ialloc sb type s
      match new with
      | none =>
        let s ← iunlockput sb dp s
        return (none, s)
      | some ip => createLink sb dp name ip type major minor s

/-! ### `sys_link` -/

/-- The end of `sys_link` at `bad`; `kernel/sysfile.c:163–169`. -/
def linkBad (sb : Super) (ip : Nat) (s : State) : Except String (Bool × State) := do
  let s ← ilock sb ip s
  let s := setFields sb ip { s.ip ip with nlink := ((s.ip ip).nlink + (2 ^ 16 - 1)) % 2 ^ 16 } s
  let s ← iunlockput sb ip s
  return (false, s)

/-- `sys_link` from the `nameiparent` on; `kernel/sysfile.c:148–169`. -/
def linkNew (sb : Super) (cwd ip : Nat) (new : List UInt8) (buf : Name) (s : State) :
    Except String (Bool × State) := do
  let (parent, s) ← namex sb cwd true new buf s
  match parent with
  | none => linkBad sb ip s
  | some (dp, name) =>
    let s ← ilock sb dp s
    let (ok, s) ← dirlink sb dp name ip s
    let s ← iunlockput sb dp s
    if ok then
      let s ← iput sb ip s
      return (true, s)
    else linkBad sb ip s

/-- `sys_link` with the arguments that `argstr` fetches, `none` where it fails: did it succeed?
`kernel/sysfile.c:123–170`. -/
def sysLink (sb : Super) (cwd : Nat) (old new : Option (List UInt8)) (buf : Name) (s : State) :
    Except String (Bool × State) :=
  match old, new with
  | some old, some new => do
    let (found, s) ← namex sb cwd false old buf s
    match found with
    | none => return (false, s)
    | some (ip, _) =>
      let s ← ilock sb ip s
      if (s.ip ip).type = T_DIR then
        let s ← iunlockput sb ip s
        return (false, s)
      else
        let s := setFields sb ip { s.ip ip with nlink := ((s.ip ip).nlink + 1) % 2 ^ 16 } s
        let s ← iunlock ip s
        linkNew sb cwd ip new buf s
  | _, _ => .ok (false, s)

end Xv6.Sysfile
