import Xv6.Base.Param
import Xv6.Dir.Model

/-!
# The image builder

`mkfs/mkfs.c`, on a little-endian host: it writes an image of `FSSIZE` blocks that holds a root
directory and the files it is given. Inode and block numbers come from two counters. A run that
does not reach `exit(0)` ends in a failure; the host stores what it is told to store.
-/

namespace Xv6.Mkfs

open Xv6.Lib Xv6.Fs Xv6.Dir

/-- Number of inodes; `mkfs/mkfs.c:18`. -/
def NINODES : Nat := 200

/-- Root inode number; `kernel/fs.h:5`. -/
def ROOTINO : Nat := 1

/-- Inode type of files; `kernel/stat.h:2`. -/
def T_FILE : Nat := 2

/-- `mkfs/mkfs.c:23`. -/
def nbitmap : Nat := FSSIZE / (BSIZE * 8) + 1

/-- `mkfs/mkfs.c:24`. -/
def ninodeblocks : Nat := NINODES / IPB + 1

/-- `mkfs/mkfs.c:25`. -/
def nlog : Nat := LOGSIZE

/-- Number of metadata blocks; `mkfs/mkfs.c:93`. -/
def nmeta : Nat := 2 + nlog + ninodeblocks + nbitmap

/-- Number of data blocks; `mkfs/mkfs.c:94`. -/
def nblocks : Nat := FSSIZE - nmeta

/-- `xshort`: the bytes of `x` from the least significant on, loaded by the host;
`mkfs/mkfs.c:46–54`. -/
def xshort (x : Nat) : Nat := readLE (writeLE (fun _ ↦ 0) 0 2 x) 0 2

/-- `xint`; `mkfs/mkfs.c:56–66`. -/
def xint (x : Nat) : Nat := readLE (writeLE (fun _ ↦ 0) 0 4 x) 0 4

theorem xshort_eq {x : Nat} (h : x < 2 ^ 16) : xshort x = x := readLE_writeLE _ 0 h

theorem xint_eq {x : Nat} (h : x < 2 ^ 32) : xint x = x := readLE_writeLE _ 0 h

/-! ### The superblock -/

/-- `struct superblock`; `kernel/fs.h:14–23`. -/
structure Superblock where
  magic : Nat
  size : Nat
  nblocks : Nat
  ninodes : Nat
  nlog : Nat
  logstart : Nat
  inodestart : Nat
  bmapstart : Nat
  deriving DecidableEq

/-- `kernel/fs.h:25`. -/
def FSMAGIC : Nat := 0x10203040

/-- The global `sb`, once `main` has set it; `mkfs/mkfs.c:96–103`. -/
def superblock : Superblock where
  magic := FSMAGIC
  size := xint FSSIZE
  nblocks := xint nblocks
  ninodes := xint NINODES
  nlog := xint nlog
  logstart := xint 2
  inodestart := xint (2 + nlog)
  bmapstart := xint (2 + nlog + ninodeblocks)

/-- `memmove(buf, &sb, sizeof(sb))` to a zeroed buffer. -/
def Superblock.store (s : Superblock) : Block :=
  writeWords zeroBlock 4 0
    [s.magic, s.size, s.nblocks, s.ninodes, s.nlog, s.logstart, s.inodestart, s.bmapstart]

/-- `readsb` of the kernel; `kernel/fs.c:31–39`. -/
def readsb (d : Disk) : Superblock where
  magic := readLE (d 1) 0 4
  size := readLE (d 1) 4 4
  nblocks := readLE (d 1) 8 4
  ninodes := readLE (d 1) 12 4
  nlog := readLE (d 1) 16 4
  logstart := readLE (d 1) 20 4
  inodestart := readLE (d 1) 24 4
  bmapstart := readLE (d 1) 28 4

/-- The layout that the superblock describes. -/
def sb : Super where
  size := superblock.size
  nblocks := superblock.nblocks
  ninodes := superblock.ninodes
  inodestart := superblock.inodestart
  bmapstart := superblock.bmapstart
  boot := by decide +kernel
  inodes := by decide +kernel
  bitmap := by decide +kernel
  fits := by decide +kernel
  ninodes_lt := by decide +kernel

/-! ### Sectors and inodes -/

/-- The image file, with its length in sectors, and the counters. Both counters stay below
`FSSIZE * IPB`: a sector or an inode block beyond the image is read before the next one is handed
out, and that fails. -/
structure State where
  nsect : Nat
  sect : Disk
  freeinode : Nat
  freeblock : Nat

/-- How a run fails: by `die` on a host call or on a file, or by an assertion. -/
inductive Failure where
  | die (s : String)
  | dieFile (arg : List UInt8)
  | assertion (text : String)
  deriving DecidableEq

/-- The sector at the position `sec * BSIZE`, which is a `uint`. -/
def position (sec : Nat) : Nat := sec * BSIZE % 2 ^ 32 / BSIZE

/-- `wsect`: writing beyond the end makes the image longer; `mkfs/mkfs.c:175–182`. -/
def wsect (sec : Nat) (buf : Block) (st : State) : State :=
  { st with
    nsect := max st.nsect (position sec + 1)
    sect := Function.update st.sect (position sec) buf }

/-- `rsect`: reading beyond the end fails; `mkfs/mkfs.c:211–218`. -/
def rsect (sec : Nat) (st : State) : Except Failure Block :=
  if position sec < st.nsect then .ok (st.sect (position sec)) else .error (.die "read")

/-- `winode`; `mkfs/mkfs.c:184–196`. -/
def winode (inum : Nat) (ip : Dinode) (st : State) : Except Failure State := do
  let buf ← rsect (sb.iblock inum) st
  return wsect (sb.iblock inum) (setDinode buf (inum % IPB * 64) ip) st

/-- `rinode`; `mkfs/mkfs.c:198–209`. -/
def rinode (inum : Nat) (st : State) : Except Failure Dinode := do
  let buf ← rsect (sb.iblock inum) st
  return getDinode buf (inum % IPB * 64)

/-- The fields that `ialloc` sets. -/
def newInode (type : Nat) : Dinode where
  type := xshort type
  major := 0
  minor := 0
  nlink := xshort 1
  size := xint 0
  addrs := fun _ ↦ 0

/-- `ialloc`; `mkfs/mkfs.c:220–232`. -/
def ialloc (type : Nat) (st : State) : Except Failure (Nat × State) := do
  let inum := st.freeinode
  let st ← winode inum (newInode type) { st with freeinode := st.freeinode + 1 }
  return (inum, st)

/-- The bits that the loop of `balloc` sets in a zeroed buffer; `mkfs/mkfs.c:242–245`. -/
def firstBits (used : Nat) : Block := (List.range used).foldl markBit zeroBlock

/-- `balloc`; `mkfs/mkfs.c:234–248`. -/
def balloc (used : Nat) (st : State) : Except Failure State :=
  if used < BSIZE * 8 then .ok (wsect sb.bmapstart (firstBits used) st)
  else .error (.assertion "used < BSIZE*8")

/-! ### Appending to a file -/

/-- `xint(freeblock++)`. -/
def takeBlock (st : State) : Nat × State :=
  (xint st.freeblock, { st with freeblock := st.freeblock + 1 })

/-- The direct block of index `k`; `mkfs/mkfs.c:269–272`. -/
def iappendDirect (din : Dinode) (k : Fin NDIRECT) (st : State) : Nat × Dinode × State :=
  if xint (din.addrs k.castSucc) = 0 then
    let (b, st) := takeBlock st
    let din := din.setAddr k.castSucc b
    (xint (din.addrs k.castSucc), din, st)
  else (xint (din.addrs k.castSucc), din, st)

/-- The indirect block, for which a number is taken if there is none; `mkfs/mkfs.c:274–276`. -/
def iappendIndirect (din : Dinode) (st : State) : Dinode × State :=
  if xint din.indirect = 0 then
    let (b, st) := takeBlock st
    (din.setAddr (Fin.last NDIRECT) b, st)
  else (din, st)

/-- Entry `j` of the indirect block `ind`; `mkfs/mkfs.c:277–282`. -/
def iappendEntry (ind j : Nat) (st : State) : Except Failure (Nat × State) := do
  let indirect ← rsect ind st
  if word indirect j = 0 then
    let (b, st) := takeBlock st
    let indirect := setWord indirect j b
    return (xint (word indirect j), wsect ind indirect st)
  else return (xint (word indirect j), st)

/-- The block of index `fbn`; `mkfs/mkfs.c:268–283`. -/
def iappendBlock (din : Dinode) (fbn : Nat) (st : State) : Except Failure (Nat × Dinode × State) :=
  if h : fbn < NDIRECT then .ok (iappendDirect din ⟨fbn, h⟩ st)
  else do
    let (din, st) := iappendIndirect din st
    let (x, st) ← iappendEntry (xint din.indirect) (fbn - NDIRECT) st
    return (x, din, st)

/-- The loop of `iappend` on the bytes that are left; at most `fuel` more iterations, each of which
moves a byte at least; `mkfs/mkfs.c:265–291`. -/
def iappendLoop : Nat → List UInt8 → Nat → Dinode → State → Except Failure (Nat × Dinode × State)
  | 0, _, off, din, st => .ok (off, din, st)
  | fuel + 1, p, off, din, st =>
    if 0 < p.length then do
      let fbn := off / BSIZE
      if ¬ fbn < MAXFILE then throw (.assertion "fbn < MAXFILE")
      let (x, din, st) ← iappendBlock din fbn st
      let n1 := min p.length ((fbn + 1) * BSIZE - off)
      let buf ← rsect x st
      let st := wsect x (overlay buf (off - fbn * BSIZE) (p.take n1)) st
      iappendLoop fuel (p.drop n1) (off + n1) din st
    else .ok (off, din, st)

/-- `iappend`; `mkfs/mkfs.c:252–294`. -/
def iappend (inum : Nat) (p : List UInt8) (st : State) : Except Failure State := do
  let din ← rinode inum st
  let (off, din, st) ← iappendLoop p.length p (xint din.size) din st
  winode inum { din with size := xint off } st

/-! ### The program -/

/-- The C string of a list of bytes. -/
def cstring (s : List UInt8) : Name := fun k ↦ s.getD k 0

/-- A zeroed `struct dirent` with its two fields set; `mkfs/mkfs.c:120–122`. -/
def dirent (inum : Nat) (name : List UInt8) : List UInt8 :=
  makeDirent (xshort inum) (strncpyFrom (cstring name) 0 DIRSIZ)

/-- What one `read` of a file delivers. -/
abbrev Chunk := { c : List UInt8 // c ≠ [] ∧ c.length ≤ BSIZE }

/-- An argument, and what the host does with it: `open` fails, or `read` delivers the chunks before
it returns 0 or an error. -/
structure HostFile where
  arg : List UInt8
  noNul : ∀ x ∈ arg, x ≠ 0
  reads : Option (List Chunk)

/-- The text `user/`. -/
def userDir : List UInt8 := [117, 115, 101, 114, 47]

/-- The argument without `user/`; `mkfs/mkfs.c:133–136`. -/
def shortname (arg : List UInt8) : List UInt8 := if arg.take 5 = userDir then arg.drop 5 else arg

/-- `if(shortname[0] == '_') shortname += 1`; `mkfs/mkfs.c:147–148`. -/
def skipUnderscore (s : List UInt8) : List UInt8 := if s.head? = some 95 then s.tail else s

/-- The name of the file in the image. -/
def HostFile.name (f : HostFile) : List UInt8 := skipUnderscore (shortname f.arg)

/-- The contents of the file, as far as it can be read. -/
def HostFile.bytes (f : HostFile) : List UInt8 := ((f.reads.getD []).map Subtype.val).flatten

/-- The loop that copies a file; `mkfs/mkfs.c:157–158`. -/
def copyLoop (inum : Nat) : List Chunk → State → Except Failure State
  | [], st => .ok st
  | c :: cs, st => do
    let st ← iappend inum c.val st
    copyLoop inum cs st

/-- One iteration of the loop over the arguments; `mkfs/mkfs.c:131–160`. -/
def addFile (f : HostFile) (st : State) : Except Failure State := do
  if slash ∈ shortname f.arg then throw (.assertion "index(shortname, '/') == 0")
  match f.reads with
  | none => throw (.dieFile f.arg)
  | some cs =>
    let (inum, st) ← ialloc T_FILE st
    let st ← iappend ROOTINO (dirent inum f.name) st
    copyLoop inum cs st

/-- The loop over the arguments; `mkfs/mkfs.c:130–161`. -/
def addFiles : List HostFile → State → Except Failure State
  | [], st => .ok st
  | f :: fs, st => do
    let st ← addFile f st
    addFiles fs st

/-- The empty image file. -/
def created : State where
  nsect := 0
  sect := fun _ ↦ zeroBlock
  freeinode := 1
  freeblock := nmeta

/-- The zeroed image with its superblock; `mkfs/mkfs.c:108–115`. -/
def formatted : State :=
  wsect 1 superblock.store ((List.range FSSIZE).foldl (fun st i ↦ wsect i zeroBlock st) created)

/-- The root directory with `.` and `..`; `mkfs/mkfs.c:117–128`. -/
def makeRoot (st : State) : Except Failure State := do
  let (rootino, st) ← ialloc T_DIR st
  if ¬ rootino = ROOTINO then throw (.assertion "rootino == ROOTINO")
  let st ← iappend rootino (dirent rootino [46]) st
  iappend rootino (dirent rootino [46, 46]) st

/-- `off = ((off/BSIZE) + 1) * BSIZE`. -/
def roundUp (off : Nat) : Nat := (off / BSIZE + 1) * BSIZE

/-- The size of the root directory is rounded up, and the free map written;
`mkfs/mkfs.c:163–170`. -/
def finish (st : State) : Except Failure State := do
  let din ← rinode ROOTINO st
  let st ← winode ROOTINO { din with size := xint (roundUp (xint din.size)) } st
  balloc st.freeblock st

/-- `main` for an image that can be opened and the files that follow it: what is left when it
reaches `exit(0)`; `mkfs/mkfs.c:68–173`. -/
def main (files : List HostFile) : Except Failure State := do
  let st ← makeRoot formatted
  let st ← addFiles files st
  finish st

end Xv6.Mkfs
