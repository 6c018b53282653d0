import Xv6.Fs.Bitmap

/-!
# Inodes and their contents

`ialloc`, `iupdate`, `bmap`, `itrunc`, `readi`, `writei` and the freeing branch of `iput`
(`kernel/fs.c:196–539`), on the fields of one inode and the disk. A `panic` is an error with
its text. An inode is locked while its in-memory fields may differ from the disk.
-/

namespace Xv6.Fs

open Xv6.Lib

/-- The on-disk inode `i`. -/
def dinode (sb : Super) (d : Disk) (i : Nat) : Dinode := getDinode (d (sb.iblock i)) (i % IPB * 64)

/-- `iupdate`: write the fields of inode `i` back; `kernel/fs.c:225–240`. -/
def iupdate (sb : Super) (i : Nat) (ip : Dinode) (d : Disk) : Disk :=
  Function.update d (sb.iblock i) (setDinode (d (sb.iblock i)) (i % IPB * 64) ip)

/-- The first fields of a new inode: all zero but the type. -/
def newDinode (type : Nat) : Dinode where
  type := type
  major := 0
  minor := 0
  nlink := 0
  size := 0
  addrs := fun _ ↦ 0

/-- `ialloc`: the number of a new inode, or `none` if all are in use; `kernel/fs.c:196–219`. -/
def ialloc (sb : Super) (type : Nat) (d : Disk) : Option Nat × Disk :=
  match firstFrom (fun i ↦ (dinode sb d i).type == 0) 1 (sb.ninodes - 1) with
  | some i => (some i, iupdate sb i (newDinode type) d)
  | none => (none, d)

/-- `ilock` of an inode whose fields are not in memory; `kernel/fs.c:303–315`. -/
def ilock (sb : Super) (i : Nat) (d : Disk) : Except String Dinode :=
  let ip := dinode sb d i
  if ip.type = 0 then .error "ilock: no type" else .ok ip

/-- `ip->addrs[k] = addr`. -/
def Dinode.setAddr (ip : Dinode) (k : Fin (NDIRECT + 1)) (addr : Nat) : Dinode :=
  { ip with addrs := Function.update ip.addrs k addr }

/-- `ip->addrs[NDIRECT]`, the indirect block. -/
def Dinode.indirect (ip : Dinode) : Nat := ip.addrs (Fin.last NDIRECT)

/-- `bmap` for a direct block; `kernel/fs.c:388–396`. -/
def bmapDirect (sb : Super) (ip : Dinode) (k : Fin NDIRECT) (d : Disk) : Nat × Dinode × Disk :=
  let addr := ip.addrs k.castSucc
  if addr = 0 then
    let (addr, d) := balloc sb d
    if addr = 0 then (0, ip, d) else (addr, ip.setAddr k.castSucc addr, d)
  else (addr, ip, d)

/-- The indirect block of an inode, allocated if necessary; `kernel/fs.c:401–406`. -/
def bmapIndirect (sb : Super) (ip : Dinode) (d : Disk) : Nat × Dinode × Disk :=
  if ip.indirect = 0 then
    let (addr, d) := balloc sb d
    if addr = 0 then (0, ip, d) else (addr, ip.setAddr (Fin.last NDIRECT) addr, d)
  else (ip.indirect, ip, d)

/-- Entry `j` of the indirect block `ind`, allocated if necessary; `kernel/fs.c:407–417`. -/
def bmapEntry (sb : Super) (ind j : Nat) (d : Disk) : Nat × Disk :=
  let addr := word (d ind) j
  if addr = 0 then
    let (addr, d) := balloc sb d
    if addr = 0 then (0, d) else (addr, Function.update d ind (setWord (d ind) j addr))
  else (addr, d)

/-- `bmap`: the disk block of the `bn`th block of the inode, allocated if necessary, or 0 if
the disk is full; `kernel/fs.c:382–421`. -/
def bmap (sb : Super) (ip : Dinode) (bn : Nat) (d : Disk) : Except String (Nat × Dinode × Disk) :=
  if h : bn < NDIRECT then .ok (bmapDirect sb ip ⟨bn, h⟩ d)
  else if bn - NDIRECT < NINDIRECT then
    let (ind, ip, d) := bmapIndirect sb ip d
    if ind = 0 then .ok (0, ip, d)
    else
      let (addr, d) := bmapEntry sb ind (bn - NDIRECT) d
      .ok (addr, ip, d)
  else .error "bmap: out of range"

/-- Free the non-zero block numbers of a list. -/
def freeAll (sb : Super) : List Nat → Disk → Except String Disk
  | [], d => .ok d
  | b :: bs, d => if b ≠ 0 then (bfree sb b d).bind (freeAll sb bs) else freeAll sb bs d

/-- The direct block numbers, in the order of the loops. -/
def Dinode.direct (ip : Dinode) : List Nat := List.ofFn (fun k : Fin NDIRECT ↦ ip.addrs k.castSucc)

/-- The block numbers in an indirect block. -/
def entries (blk : Block) : List Nat := List.ofFn (fun j : Fin NINDIRECT ↦ word blk j)

/-- `itrunc`: free all blocks of inode `i`; `kernel/fs.c:425–453`. -/
def itrunc (sb : Super) (i : Nat) (ip : Dinode) (d : Disk) : Except String (Dinode × Disk) := do
  let d ← freeAll sb ip.direct d
  let d ←
    if ip.indirect ≠ 0 then (freeAll sb (entries (d ip.indirect)) d).bind (bfree sb ip.indirect)
    else .ok d
  let ip := { ip with addrs := fun _ ↦ 0, size := 0 }
  return (ip, iupdate sb i ip d)

/-- `iput` of the last reference to inode `i`: free it if it has no links;
`kernel/fs.c:340–356`. -/
def iput (sb : Super) (i : Nat) (ip : Dinode) (d : Disk) : Except String Disk :=
  if ip.nlink = 0 then do
    let (ip, d) ← itrunc sb i ip d
    return iupdate sb i { ip with type := 0 } d
  else .ok d

/-! ### Contents -/

/-- `either_copyin` of `m` bytes from byte `k` of the source on, `none` being a byte of an
unmapped page: the bytes copied, and whether it succeeded. -/
def eitherCopyin (src : Nat → Option UInt8) (k : Nat) : Nat → List UInt8 × Bool
  | 0 => ([], true)
  | m + 1 =>
    match src k with
    | none => ([], false)
    | some x =>
      let (xs, ok) := eitherCopyin src (k + 1) m
      (x :: xs, ok)

/-- `either_copyout` of bytes to byte `k` of the destination on, which may be unmapped: the
bytes delivered, and whether it succeeded. -/
def eitherCopyout (dst : Nat → Bool) (k : Nat) : List UInt8 → List UInt8 × Bool
  | [] => ([], true)
  | x :: xs =>
    if dst k then
      let (ys, ok) := eitherCopyout dst (k + 1) xs
      (x :: ys, ok)
    else ([], false)

/-- `memmove` of bytes into a buffer at offset `o`. -/
def overlay (blk : Block) (o : Nat) (xs : List UInt8) : Block := fun i ↦
  if i < o then blk i else (xs[i - o]?).getD (blk i)

/-- The `m` bytes of a buffer from offset `o` on. -/
def slice (blk : Block) (o m : Nat) : List UInt8 := (List.range m).map (fun k ↦ blk (o + k))

/-- The loop of `readi`; at most `fuel` more iterations, each of which moves a byte at least.
`none` is the `-1` of a failed copy; `kernel/fs.c:481–494`. -/
def readLoop (sb : Super) (dst : Nat → Bool) (n : Nat) : Nat → Nat → Nat → Dinode → Disk →
    Except String (Option Nat × List UInt8 × Dinode × Disk)
  | 0, tot, _, ip, d => .ok (some tot, [], ip, d)
  | fuel + 1, tot, off, ip, d =>
    if tot < n then do
      let (addr, ip, d) ← bmap sb ip (off / BSIZE) d
      if addr = 0 then return (some tot, [], ip, d)
      let m := min (n - tot) (BSIZE - off % BSIZE)
      let (xs, ok) := eitherCopyout dst tot (slice (d addr) (off % BSIZE) m)
      if ok then
        let (r, ys, ip, d) ← readLoop sb dst n fuel (tot + m) (off + m) ip d
        return (r, xs ++ ys, ip, d)
      else return (none, xs, ip, d)
    else .ok (some tot, [], ip, d)

/-- `readi`: the value it returns, with `none` for `-1`, and the bytes it delivers;
`kernel/fs.c:470–496`. -/
def readi (sb : Super) (ip : Dinode) (dst : Nat → Bool) (off n : Nat) (d : Disk) :
    Except String (Option Nat × List UInt8 × Dinode × Disk) :=
  if off > ip.size ∨ (off + n) % 2 ^ 32 < off then .ok (some 0, [], ip, d)
  else
    let n := if off + n > ip.size then ip.size - off else n
    readLoop sb dst n n 0 off ip d

/-- The loop of `writei`: bytes written and the offset reached. A copy that fails half-way
leaves the bytes it copied in the buffer; `kernel/fs.c:518–529`. -/
def writeLoop (sb : Super) (src : Nat → Option UInt8) (n : Nat) : Nat → Nat → Nat → Dinode → Disk →
    Except String (Nat × Nat × Dinode × Disk)
  | 0, tot, off, ip, d => .ok (tot, off, ip, d)
  | fuel + 1, tot, off, ip, d =>
    if tot < n then do
      let (addr, ip, d) ← bmap sb ip (off / BSIZE) d
      if addr = 0 then return (tot, off, ip, d)
      let m := min (n - tot) (BSIZE - off % BSIZE)
      let (xs, ok) := eitherCopyin src tot m
      let d := Function.update d addr (overlay (d addr) (off % BSIZE) xs)
      if ok then writeLoop sb src n fuel (tot + m) (off + m) ip d
      else return (tot, off, ip, d)
    else .ok (tot, off, ip, d)

/-- `writei` on inode `i`: the value it returns, with `none` for `-1`;
`kernel/fs.c:505–539`. -/
def writei (sb : Super) (i : Nat) (ip : Dinode) (src : Nat → Option UInt8) (off n : Nat)
    (d : Disk) : Except String (Option Nat × Dinode × Disk) :=
  if off > ip.size ∨ (off + n) % 2 ^ 32 < off then .ok (none, ip, d)
  else if off + n > MAXFILE * BSIZE then .ok (none, ip, d)
  else do
    let (tot, off, ip, d) ← writeLoop sb src n n 0 off ip d
    let ip := if off > ip.size then { ip with size := off } else ip
    return (some tot, ip, iupdate sb i ip d)

end Xv6.Fs
