import Xv6.Dir.Names
import Xv6.Fs.Filewrite

/-!
# Directories

`dirlookup` and `dirlink` (`kernel/fs.c:549–606`) and the removal of an entry by `sys_unlink`
(`kernel/sysfile.c:207–228`), on one locked directory inode, through `readi` and `writei`. The
inode that `dirlookup` returns is given by its number; `dirlink` drops it at once.
-/

namespace Xv6.Dir

open Xv6.Lib Xv6.Fs

/-- Inode type of directories; `kernel/stat.h:1`. -/
def T_DIR : Nat := 1

/-- `sizeof(struct dirent)`. -/
def DESIZE : Nat := 16

/-- `de.inum` of the bytes of a `struct dirent`. -/
def direntInum (de : List UInt8) : Nat := (de.getD 0 0).toNat + 256 * (de.getD 1 0).toNat

/-- `de.name`. -/
def direntName (de : List UInt8) : Name := fun k ↦ de.getD (2 + k) 0

/-- A `struct dirent` with the stored name; `de.inum` is a `ushort`. -/
def makeDirent (inum : Nat) (name : List UInt8) : List UInt8 :=
  UInt8.ofNat inum :: UInt8.ofNat (inum / 256) :: name

/-- The loop of `dirlookup`; `kernel/fs.c:560–572`. -/
def dirlookupLoop (sb : Super) (name : Name) : Nat → Nat → Dinode → Disk →
    Except String (Option (Nat × Nat) × Dinode × Disk)
  | 0, _, dp, d => .ok (none, dp, d)
  | fuel + 1, off, dp, d =>
    if off < dp.size then do
      let (r, de, dp, d) ← readi sb dp (fun _ ↦ true) off DESIZE d
      if r ≠ some DESIZE then throw "dirlookup read"
      if direntInum de = 0 then dirlookupLoop sb name fuel (off + DESIZE) dp d
      else if namecmp name (direntName de) = 0 then return (some (direntInum de, off), dp, d)
      else dirlookupLoop sb name fuel (off + DESIZE) dp d
    else .ok (none, dp, d)

/-- `dirlookup`: the inode number and the offset of the entry; `kernel/fs.c:551–575`. -/
def dirlookup (sb : Super) (name : Name) (dp : Dinode) (d : Disk) :
    Except String (Option (Nat × Nat) × Dinode × Disk) :=
  if dp.type ≠ T_DIR then .error "dirlookup not DIR" else dirlookupLoop sb name dp.size 0 dp d

/-- The search of `dirlink` for an empty entry; `kernel/fs.c:593–598`. -/
def emptyLoop (sb : Super) : Nat → Nat → Dinode → Disk → Except String (Nat × Dinode × Disk)
  | 0, off, dp, d => .ok (off, dp, d)
  | fuel + 1, off, dp, d =>
    if off < dp.size then do
      let (r, de, dp, d) ← readi sb dp (fun _ ↦ true) off DESIZE d
      if r ≠ some DESIZE then throw "dirlink read"
      if direntInum de = 0 then return (off, dp, d)
      else emptyLoop sb fuel (off + DESIZE) dp d
    else .ok (off, dp, d)

/-- `dirlink` on directory `i`: did it succeed? `kernel/fs.c:579–606`. -/
def dirlink (sb : Super) (i : Nat) (name : Name) (inum : Nat) (dp : Dinode) (d : Disk) :
    Except String (Bool × Dinode × Disk) := do
  let (found, dp, d) ← dirlookup sb name dp d
  if found.isSome then return (false, dp, d)
  let (off, dp, d) ← emptyLoop sb dp.size 0 dp d
  let de := makeDirent inum (strncpyFrom name 0 DIRSIZ)
  let (r, dp, d) ← writei sb i dp (fun k ↦ de[k]?) off DESIZE d
  return (decide (r = some DESIZE), dp, d)

/-- The part of `sys_unlink` that removes the entry from directory `i`: was there one?
`kernel/sysfile.c:211–224`. -/
def unlinkEntry (sb : Super) (i : Nat) (name : Name) (dp : Dinode) (d : Disk) :
    Except String (Bool × Dinode × Disk) := do
  let (found, dp, d) ← dirlookup sb name dp d
  match found with
  | none => return (false, dp, d)
  | some (_, off) =>
    let (r, dp, d) ← writei sb i dp (fun k ↦ (List.replicate DESIZE 0)[k]?) off DESIZE d
    if r ≠ some DESIZE then throw "unlink: writei"
    return (true, dp, d)

end Xv6.Dir
