import Mathlib.Data.Nat.Bitwise
import Xv6.Base.Block

/-!
# The on-disk format

The constants and structures of `kernel/fs.h`, as bytes of disk blocks: the superblock (its
layout fields), `struct dinode` in inode blocks, the bits of the free map, and the block
numbers of an indirect block. Each store changes the field it stores and no other.
-/

namespace Xv6.Fs

open Xv6.Lib

/-- Number of direct blocks of an inode; `kernel/fs.h:27`. -/
def NDIRECT : Nat := 12

/-- Number of block numbers in an indirect block; `kernel/fs.h:28`. -/
def NINDIRECT : Nat := BSIZE / 4

/-- Maximum number of blocks of a file; `kernel/fs.h:29`. -/
def MAXFILE : Nat := NDIRECT + NINDIRECT

/-- Inodes per block; `kernel/fs.h:42`. -/
def IPB : Nat := BSIZE / 64

/-- Bitmap bits per block; `kernel/fs.h:48`. -/
def BPB : Nat := BSIZE * 8

/-- The layout that the superblock describes, and how its parts lie on the disk: boot block
and log, inode blocks, free map, data blocks. Block and inode numbers fit an `int`, which the
loops of `balloc` and `ialloc` count with. -/
structure Super where
  size : Nat
  nblocks : Nat
  ninodes : Nat
  inodestart : Nat
  bmapstart : Nat
  boot : 0 < inodestart
  inodes : inodestart + (ninodes + IPB - 1) / IPB ≤ bmapstart
  bitmap : bmapstart + (size + BPB - 1) / BPB ≤ size - nblocks
  fits : size + BPB ≤ 2 ^ 31
  ninodes_lt : ninodes < 2 ^ 31

namespace Super

/-- The number of metadata blocks; the blocks from here on are data blocks. -/
def nmeta (sb : Super) : Nat := sb.size - sb.nblocks

/-- Block containing inode `i`; `IBLOCK` of `kernel/fs.h:45`. -/
def iblock (sb : Super) (i : Nat) : Nat := i / IPB + sb.inodestart

/-- Block of the free map containing the bit for block `b`; `BBLOCK` of `kernel/fs.h:51`. -/
def bblock (sb : Super) (b : Nat) : Nat := b / BPB + sb.bmapstart

/-- A data block. -/
def IsData (sb : Super) (b : Nat) : Prop := sb.nmeta ≤ b ∧ b < sb.size

instance (sb : Super) (b : Nat) : Decidable (sb.IsData b) := inferInstanceAs (Decidable (_ ∧ _))

theorem iblock_lt (sb : Super) {i : Nat} (hi : i < sb.ninodes) : sb.iblock i < sb.bmapstart := by
  have h := sb.inodes
  simp only [iblock, IPB, BSIZE] at h ⊢
  omega

theorem bblock_lt (sb : Super) {b : Nat} (hb : b < sb.size) : sb.bblock b < sb.nmeta := by
  have h := sb.bitmap
  simp only [bblock, nmeta, BPB, BSIZE] at h ⊢
  omega

theorem bmapstart_le (sb : Super) (b : Nat) : sb.bmapstart ≤ sb.bblock b := by
  simp only [bblock]
  exact Nat.le_add_left _ _

theorem nmeta_le (sb : Super) : sb.nmeta ≤ sb.size := by
  simp only [nmeta]
  omega

theorem bmapstart_lt_nmeta (sb : Super) : sb.bmapstart ≤ sb.nmeta := by
  have h := sb.bitmap
  simp only [nmeta]
  exact le_trans (Nat.le_add_right _ _) h

theorem nmeta_pos (sb : Super) : 0 < sb.nmeta := by
  have h := le_trans (Nat.le_add_right _ _) sb.inodes
  have hb := sb.boot
  have hm := sb.bmapstart_lt_nmeta
  omega

theorem IsData.ne_zero {sb : Super} {b : Nat} (h : sb.IsData b) : b ≠ 0 := by
  have := sb.nmeta_pos
  have := h.1
  omega

/-- Data blocks are neither inode blocks nor blocks of the free map. -/
theorem IsData.ne_iblock {sb : Super} {b i : Nat} (h : sb.IsData b) (hi : i < sb.ninodes) :
    b ≠ sb.iblock i := by
  have h1 := sb.iblock_lt hi
  have h2 := sb.bmapstart_lt_nmeta
  have h3 := h.1
  omega

theorem IsData.ne_bblock {sb : Super} {b b' : Nat} (h : sb.IsData b) (hb : b' < sb.size) :
    b ≠ sb.bblock b' := by
  have h1 := sb.bblock_lt hb
  have h2 := h.1
  omega

theorem iblock_ne_bblock (sb : Super) {i : Nat} (hi : i < sb.ninodes) (b : Nat) :
    sb.iblock i ≠ sb.bblock b := by
  have h1 := sb.iblock_lt hi
  have h2 := sb.bmapstart_le b
  omega

end Super

/-! ### Inodes -/

/-- `struct dinode`, and the copy of its fields in `struct inode`. -/
structure Dinode where
  type : Nat
  major : Nat
  minor : Nat
  nlink : Nat
  size : Nat
  addrs : Fin (NDIRECT + 1) → Nat

/-- The fields fit their types: four of 16 bits, the others of 32. -/
structure Dinode.Valid (ip : Dinode) : Prop where
  type : ip.type < 2 ^ 16
  major : ip.major < 2 ^ 16
  minor : ip.minor < 2 ^ 16
  nlink : ip.nlink < 2 ^ 16
  size : ip.size < 2 ^ 32
  addrs : ∀ i, ip.addrs i < 2 ^ 32

/-- The `struct dinode` at offset `off` of a block. -/
def getDinode (blk : Block) (off : Nat) : Dinode where
  type := readLE blk off 2
  major := readLE blk (off + 2) 2
  minor := readLE blk (off + 4) 2
  nlink := readLE blk (off + 6) 2
  size := readLE blk (off + 8) 4
  addrs := fun i ↦ readLE blk (off + 12 + 4 * i) 4

/-- Store a `struct dinode` at offset `off` of a block. -/
def setDinode (blk : Block) (off : Nat) (ip : Dinode) : Block :=
  let blk := writeLE blk off 2 ip.type
  let blk := writeLE blk (off + 2) 2 ip.major
  let blk := writeLE blk (off + 4) 2 ip.minor
  let blk := writeLE blk (off + 6) 2 ip.nlink
  let blk := writeLE blk (off + 8) 4 ip.size
  writeWords blk 4 (off + 12) (List.ofFn ip.addrs)

theorem getDinode_valid (blk : Block) (off : Nat) : (getDinode blk off).Valid where
  type := readLE_lt blk off 2
  major := readLE_lt blk (off + 2) 2
  minor := readLE_lt blk (off + 4) 2
  nlink := readLE_lt blk (off + 6) 2
  size := readLE_lt blk (off + 8) 4
  addrs := fun i ↦ readLE_lt blk (off + 12 + 4 * i) 4

/-- A stored inode reads back. -/
theorem getDinode_setDinode (blk : Block) (off : Nat) {ip : Dinode} (h : ip.Valid) :
    getDinode (setDinode blk off ip) off = ip := by
  have hlow {off' w : Nat} (hle : off' + w ≤ off + 12) (blk : Block) :
      readLE (writeWords blk 4 (off + 12) (List.ofFn ip.addrs)) off' w = readLE blk off' w :=
    readLE_writeWords _ _ hle
  have haddrs : (getDinode (setDinode blk off ip) off).addrs = ip.addrs := by
    funext i
    have hi : i.val < (List.ofFn ip.addrs).length := by
      rw [List.length_ofFn]
      exact i.isLt
    have hget : (List.ofFn ip.addrs)[i.val] = ip.addrs i := List.getElem_ofFn hi
    simp only [getDinode, setDinode]
    rw [readLE_writeWords_get _ hi (by rw [hget]; exact h.addrs i), hget]
  cases ip with
  | mk type major minor nlink size addrs =>
    simp only [getDinode, setDinode, Dinode.mk.injEq] at haddrs hlow ⊢
    refine ⟨?_, ?_, ?_, ?_, ?_, haddrs⟩
    · rw [hlow (by omega), readLE_writeLE_of_disjoint _ _ (by omega),
        readLE_writeLE_of_disjoint _ _ (by omega), readLE_writeLE_of_disjoint _ _ (by omega),
        readLE_writeLE_of_disjoint _ _ (by omega)]
      exact readLE_writeLE _ _ h.type
    · rw [hlow (by omega), readLE_writeLE_of_disjoint _ _ (by omega),
        readLE_writeLE_of_disjoint _ _ (by omega), readLE_writeLE_of_disjoint _ _ (by omega)]
      exact readLE_writeLE _ _ h.major
    · rw [hlow (by omega), readLE_writeLE_of_disjoint _ _ (by omega),
        readLE_writeLE_of_disjoint _ _ (by omega)]
      exact readLE_writeLE _ _ h.minor
    · rw [hlow (by omega), readLE_writeLE_of_disjoint _ _ (by omega)]
      exact readLE_writeLE _ _ h.nlink
    · rw [hlow (by omega)]
      exact readLE_writeLE _ _ h.size

/-- Storing an inode touches its 64 bytes only. -/
theorem setDinode_apply_of_notMem {off i : Nat} (blk : Block) (ip : Dinode)
    (h : i < off ∨ off + 64 ≤ i) : setDinode blk off ip i = blk i := by
  have hlen : (List.ofFn ip.addrs).length = 13 := List.length_ofFn
  simp only [setDinode]
  rw [writeWords_apply_of_notMem _ _ (by rw [hlen]; omega),
    writeLE_apply_of_notMem _ _ (by omega), writeLE_apply_of_notMem _ _ (by omega),
    writeLE_apply_of_notMem _ _ (by omega), writeLE_apply_of_notMem _ _ (by omega),
    writeLE_apply_of_notMem _ _ (by omega)]

theorem getDinode_congr {blk blk' : Block} {off : Nat}
    (h : ∀ i, off ≤ i → i < off + 64 → blk i = blk' i) :
    getDinode blk off = getDinode blk' off := by
  have hread {o w : Nat} (hlo : off ≤ o) (hhi : o + w ≤ off + 64) :
      readLE blk o w = readLE blk' o w := by
    apply readLE_congr
    intro i h1 h2
    exact h i (by omega) (by omega)
  have haddrs : (getDinode blk off).addrs = (getDinode blk' off).addrs := by
    funext i
    have hi : i.val < 13 := i.isLt
    exact hread (by omega) (by omega)
  simp only [getDinode, Dinode.mk.injEq] at haddrs ⊢
  exact ⟨hread (by omega) (by omega), hread (by omega) (by omega), hread (by omega) (by omega),
    hread (by omega) (by omega), hread (by omega) (by omega), haddrs⟩

/-! ### The free map -/

/-- Is the bit `bi` of a block of the free map set? `kernel/fs.c:76–77`. -/
def usedBit (blk : Block) (bi : Nat) : Bool := (blk (bi / 8)).toNat &&& (1 <<< (bi % 8)) != 0

/-- `bp->data[bi/8] |= m`; `kernel/fs.c:78`. -/
def markBit (blk : Block) (bi : Nat) : Block :=
  Function.update blk (bi / 8) (UInt8.ofNat ((blk (bi / 8)).toNat ||| (1 <<< (bi % 8))))

/-- `bp->data[bi/8] &= ~m`; `kernel/fs.c:102`. -/
def clearBit (blk : Block) (bi : Nat) : Block :=
  Function.update blk (bi / 8)
    (UInt8.ofNat ((blk (bi / 8)).toNat &&& (255 ^^^ (1 <<< (bi % 8)))))

theorem usedBit_eq_testBit (blk : Block) (bi : Nat) :
    usedBit blk bi = (blk (bi / 8)).toNat.testBit (bi % 8) := by
  rw [usedBit, Nat.one_shiftLeft, Nat.and_two_pow]
  cases (blk (bi / 8)).toNat.testBit (bi % 8) <;> simp

/-- Two bits of the same byte are the same bit or have different places in it. -/
theorem mod_eight_ne {bi bi' : Nat} (h : bi ≠ bi') (hdiv : bi / 8 = bi' / 8) :
    bi % 8 ≠ bi' % 8 := by
  omega

theorem usedBit_markBit (blk : Block) (bi bi' : Nat) :
    usedBit (markBit blk bi) bi' = if bi' = bi then true else usedBit blk bi' := by
  rw [usedBit_eq_testBit, usedBit_eq_testBit, markBit]
  by_cases hdiv : bi' / 8 = bi / 8
  · have hlt : (blk (bi / 8)).toNat ||| (1 <<< (bi % 8)) < 2 ^ 8 := by
      apply Nat.or_lt_two_pow (UInt8.toNat_lt _)
      rw [Nat.one_shiftLeft]
      exact Nat.pow_lt_pow_right (by omega) (by omega)
    rw [hdiv, Function.update_self, UInt8.toNat_ofNat_of_lt' hlt, Nat.testBit_or,
      Nat.one_shiftLeft, Nat.testBit_two_pow]
    by_cases heq : bi' = bi
    · simp [heq]
    · have hne := mod_eight_ne heq hdiv
      simp [heq, hne.symm]
  · have heq : bi' ≠ bi := by
      rintro rfl
      exact hdiv rfl
    rw [Function.update_of_ne hdiv, if_neg heq]

theorem usedBit_clearBit (blk : Block) (bi bi' : Nat) :
    usedBit (clearBit blk bi) bi' = if bi' = bi then false else usedBit blk bi' := by
  rw [usedBit_eq_testBit, usedBit_eq_testBit, clearBit]
  by_cases hdiv : bi' / 8 = bi / 8
  · have hlt : (blk (bi / 8)).toNat &&& (255 ^^^ (1 <<< (bi % 8))) < 2 ^ 8 :=
      lt_of_le_of_lt Nat.and_le_left (UInt8.toNat_lt _)
    have h255 : (255 : Nat).testBit (bi' % 8) = true := by
      rw [show (255 : Nat) = 2 ^ 8 - 1 from rfl, Nat.testBit_two_pow_sub_one]
      simp only [decide_eq_true_eq]
      omega
    rw [hdiv, Function.update_self, UInt8.toNat_ofNat_of_lt' hlt, Nat.testBit_and,
      Nat.testBit_xor, h255, Nat.one_shiftLeft, Nat.testBit_two_pow]
    by_cases heq : bi' = bi
    · simp [heq]
    · have hne := mod_eight_ne heq hdiv
      simp [heq, hne.symm]
  · have heq : bi' ≠ bi := by
      rintro rfl
      exact hdiv rfl
    rw [Function.update_of_ne hdiv, if_neg heq]

/-! ### Indirect blocks -/

/-- `((uint*)bp->data)[j]`. -/
def word (blk : Block) (j : Nat) : Nat := readLE blk (4 * j) 4

/-- `((uint*)bp->data)[j] = v`. -/
def setWord (blk : Block) (j v : Nat) : Block := writeLE blk (4 * j) 4 v

theorem word_setWord (blk : Block) {v : Nat} (hv : v < 2 ^ 32) (j j' : Nat) :
    word (setWord blk j v) j' = if j' = j then v else word blk j' := by
  rw [word, setWord]
  split
  · next heq =>
    rw [heq]
    exact readLE_writeLE blk (4 * j) hv
  · next hne => exact readLE_writeLE_of_disjoint blk v (by omega)

theorem word_lt (blk : Block) (j : Nat) : word blk j < 2 ^ 32 := readLE_lt blk (4 * j) 4

/-- A zeroed block; `memset(bp->data, 0, BSIZE)`. -/
def zeroBlock : Block := fun _ ↦ 0

theorem word_zeroBlock (j : Nat) : word zeroBlock j = 0 := by
  simp [word, zeroBlock, readLE]

end Xv6.Fs
