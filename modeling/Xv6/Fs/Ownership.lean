import Xv6.Fs.Inode
import Xv6.Lib.Sum

/-!
# Who owns a block

For a block, the number of pointers to it from all allocated inodes: direct blocks, indirect
block, entries of the indirect block. The invariant says that this number is one for the data
blocks that are marked in the free map and zero for all others. Inside an operation the fields
of one inode are in memory, and one block may be marked but not yet pointed to; the invariant
is stated for such states too.
-/

namespace Xv6.Fs

open Xv6.Lib

/-- The pointers of an inode to data: direct blocks and entries of the indirect block. -/
def dataRefs (d : Disk) (ip : Dinode) (b : Nat) : Nat :=
  hits (fun k : Fin NDIRECT ↦ ip.addrs k.castSucc) b +
    if ip.indirect = 0 then 0 else hits (fun j : Fin NINDIRECT ↦ word (d ip.indirect) j) b

/-- All pointers of an inode to a block. -/
def refs (d : Disk) (ip : Dinode) (b : Nat) : Nat :=
  dataRefs d ip b + if ip.indirect = b then 1 else 0

/-- The pointers of an inode to a block, if the inode is allocated. -/
def liveRefs (d : Disk) (ip : Dinode) (b : Nat) : Nat := if ip.type = 0 then 0 else refs d ip b

/-- The pointers of all allocated inodes to a block. -/
def totalRefs (sb : Super) (d : Disk) (inode : Nat → Dinode) (b : Nat) : Nat :=
  ∑ i : Fin sb.ninodes, liveRefs d (inode i) b

/-- The block of an inode at an index, or 0 if there is none. -/
def lookup (d : Disk) (ip : Dinode) (k : Nat) : Nat :=
  if h : k < NDIRECT then ip.addrs (Fin.castSucc ⟨k, h⟩)
  else if k - NDIRECT < NINDIRECT ∧ ip.indirect ≠ 0 then word (d ip.indirect) (k - NDIRECT)
  else 0

/-- The blocks that are marked and pointed to, with the inodes given by `inode`; `pending` is
a block marked for an owner that does not point to it yet, or 0. -/
structure Owned (sb : Super) (d : Disk) (inode : Nat → Dinode) (pending : Nat) : Prop where
  refs : ∀ b, b ≠ 0 → totalRefs sb d inode b + (if b = pending then 1 else 0) =
    if sb.IsData b ∧ used sb d b = true then 1 else 0
  metadata : ∀ b, b < sb.nmeta → used sb d b = true
  valid : ∀ i, (inode i).Valid

/-- No index below the size of an allocated inode is a hole. -/
def Filled (sb : Super) (d : Disk) (inode : Nat → Dinode) : Prop :=
  ∀ i, i < sb.ninodes → (inode i).type ≠ 0 → ∀ k, k * BSIZE < (inode i).size →
    lookup d (inode i) k ≠ 0

/-- Allocated inodes keep their fields but the block pointers, and their blocks. -/
def Extends (sb : Super) (d : Disk) (inode : Nat → Dinode) (d' : Disk)
    (inode' : Nat → Dinode) : Prop :=
  ∀ i, i < sb.ninodes → (inode i).type ≠ 0 →
    (inode' i).type = (inode i).type ∧ (inode' i).nlink = (inode i).nlink ∧
    (inode' i).size = (inode i).size ∧
    ∀ k, lookup d (inode i) k ≠ 0 → lookup d' (inode' i) k = lookup d (inode i) k

variable {sb : Super} {d d' : Disk} {inode : Nat → Dinode} {pending : Nat}

/-! ### Pointers and blocks -/

theorem refs_congr {ip : Dinode} (h : ip.indirect ≠ 0 → d' ip.indirect = d ip.indirect) (b : Nat) :
    refs d' ip b = refs d ip b := by
  unfold refs dataRefs
  split
  · rfl
  · next hne => rw [h hne]

theorem lookup_congr {ip : Dinode} (h : ip.indirect ≠ 0 → d' ip.indirect = d ip.indirect)
    (k : Nat) : lookup d' ip k = lookup d ip k := by
  unfold lookup
  split
  · rfl
  · split
    · next hk => rw [h hk.2]
    · rfl

/-- Only indices that a file can have lead to a block. -/
theorem lt_maxfile {ip : Dinode} {k : Nat} (h : lookup d ip k ≠ 0) : k < MAXFILE := by
  by_contra hge
  apply h
  simp only [MAXFILE, NINDIRECT, NDIRECT] at hge
  rw [lookup, dif_neg (by simp only [NDIRECT]; omega),
    if_neg (by simp only [NINDIRECT, NDIRECT]; omega)]

/-- The block at an index is pointed to as data. -/
theorem dataRefs_lookup {ip : Dinode} {k : Nat} (h : lookup d ip k ≠ 0) :
    0 < dataRefs d ip (lookup d ip k) := by
  unfold dataRefs
  by_cases hk : k < NDIRECT
  · have hl : lookup d ip k = ip.addrs (Fin.castSucc ⟨k, hk⟩) := by
      rw [lookup, dif_pos hk]
    have := hits_pos_iff.mpr (⟨⟨k, hk⟩, hl.symm⟩ : ∃ i : Fin NDIRECT, ip.addrs i.castSucc = _)
    omega
  · rw [lookup, dif_neg hk] at h
    split at h
    · next hj =>
      have hl : lookup d ip k = word (d ip.indirect) (k - NDIRECT) := by
        rw [lookup, dif_neg hk, if_pos hj]
      have := hits_pos_iff.mpr
        (⟨⟨k - NDIRECT, hj.1⟩, hl.symm⟩ : ∃ j : Fin NINDIRECT, word (d ip.indirect) j = _)
      rw [if_neg hj.2]
      omega
    · exact (h rfl).elim

theorem le_totalRefs (d : Disk) (inode : Nat → Dinode) {i : Nat} (hi : i < sb.ninodes) (b : Nat) :
    liveRefs d (inode i) b ≤ totalRefs sb d inode b :=
  le_sum (fun i : Fin sb.ninodes ↦ liveRefs d (inode i) b) ⟨i, hi⟩

/-- Two different inodes have their pointers in the total. -/
theorem add_le_totalRefs (d : Disk) (inode : Nat → Dinode) {i j : Nat} (hi : i < sb.ninodes)
    (hj : j < sb.ninodes) (hne : i ≠ j) (b : Nat) :
    liveRefs d (inode i) b + liveRefs d (inode j) b ≤ totalRefs sb d inode b := by
  have hfin : (⟨i, hi⟩ : Fin sb.ninodes) ≠ ⟨j, hj⟩ := by
    intro h
    exact hne (Fin.mk.inj h)
  rw [totalRefs, ← Finset.sum_pair (f := fun i : Fin sb.ninodes ↦ liveRefs d (inode i) b) hfin]
  exact Finset.sum_le_sum_of_subset (Finset.subset_univ _)

namespace Owned

/-- A block that is pointed to is a marked data block. -/
theorem isData (h : Owned sb d inode pending) {b : Nat} (hb : b ≠ 0)
    (hr : 0 < totalRefs sb d inode b) : sb.IsData b ∧ used sb d b = true := by
  have := h.refs b hb
  by_contra hn
  rw [if_neg hn] at this
  omega

theorem le_one (h : Owned sb d inode pending) {b : Nat} (hb : b ≠ 0) :
    totalRefs sb d inode b ≤ 1 := by
  have := h.refs b hb
  split at this <;> split at this <;> omega

/-- The indirect block of an allocated inode is a data block. -/
theorem indirect_isData (h : Owned sb d inode pending) {i : Nat} (hi : i < sb.ninodes)
    (ht : (inode i).type ≠ 0) (hind : (inode i).indirect ≠ 0) :
    sb.IsData (inode i).indirect ∧ 0 < totalRefs sb d inode (inode i).indirect := by
  have hpos : 0 < totalRefs sb d inode (inode i).indirect := by
    have hle := le_totalRefs d inode hi (inode i).indirect
    rw [liveRefs, if_neg ht, Xv6.Fs.refs, if_pos rfl] at hle
    omega
  exact ⟨(h.isData hind hpos).1, hpos⟩

/-- Blocks of an allocated inode are data blocks. -/
theorem lookup_isData (h : Owned sb d inode pending) {i k : Nat} (hi : i < sb.ninodes)
    (ht : (inode i).type ≠ 0) (hk : lookup d (inode i) k ≠ 0) :
    sb.IsData (lookup d (inode i) k) := by
  have hdata := dataRefs_lookup hk
  have hle := le_totalRefs d inode hi (lookup d (inode i) k)
  rw [liveRefs, if_neg ht, Xv6.Fs.refs] at hle
  exact (h.isData hk (by omega)).1

/-- A block that is pointed to as data is nobody's indirect block. -/
theorem ne_indirect (h : Owned sb d inode pending) {i j b : Nat} (hi : i < sb.ninodes)
    (hti : (inode i).type ≠ 0) (hj : j < sb.ninodes) (htj : (inode j).type ≠ 0) (hb : b ≠ 0)
    (hdata : 0 < dataRefs d (inode i) b) : (inode j).indirect ≠ b := by
  intro hind
  have hone := h.le_one hb
  by_cases hij : i = j
  · subst hij
    have hle := le_totalRefs d inode hi b
    rw [liveRefs, if_neg hti, Xv6.Fs.refs, if_pos hind] at hle
    omega
  · have hle := add_le_totalRefs d inode hi hj hij b
    rw [liveRefs, if_neg hti, liveRefs, if_neg htj, Xv6.Fs.refs, Xv6.Fs.refs, if_pos hind] at hle
    omega

/-- Two allocated inodes do not share an indirect block. -/
theorem indirect_ne (h : Owned sb d inode pending) {i j : Nat} (hi : i < sb.ninodes)
    (hti : (inode i).type ≠ 0) (hj : j < sb.ninodes) (htj : (inode j).type ≠ 0) (hij : j ≠ i)
    (hind : (inode i).indirect ≠ 0) : (inode j).indirect ≠ (inode i).indirect := by
  intro heq
  have hone := h.le_one hind
  have hle := add_le_totalRefs d inode hi hj hij.symm (inode i).indirect
  rw [liveRefs, if_neg hti, liveRefs, if_neg htj, Xv6.Fs.refs, Xv6.Fs.refs, if_pos rfl,
    if_pos heq] at hle
  omega

theorem dataRefs_le_one (h : Owned sb d inode pending) {i b : Nat} (hi : i < sb.ninodes)
    (ht : (inode i).type ≠ 0) (hb : b ≠ 0) : dataRefs d (inode i) b ≤ 1 := by
  have hone := h.le_one hb
  have hle := le_totalRefs d inode hi b
  rw [liveRefs, if_neg ht, Xv6.Fs.refs] at hle
  omega

/-- An inode has different blocks at different indices. -/
theorem lookup_inj (h : Owned sb d inode pending) {i k k' : Nat} (hi : i < sb.ninodes)
    (ht : (inode i).type ≠ 0) (hk : lookup d (inode i) k ≠ 0)
    (heq : lookup d (inode i) k' = lookup d (inode i) k) : k' = k := by
  have hone := h.dataRefs_le_one hi ht hk
  unfold dataRefs at hone
  have hdirect {q : Nat} (hq : q < NDIRECT) (hb : lookup d (inode i) q = lookup d (inode i) k) :
      (inode i).addrs (Fin.castSucc ⟨q, hq⟩) = lookup d (inode i) k := by
    rwa [lookup, dif_pos hq] at hb
  have hentry {q : Nat} (hq : ¬ q < NDIRECT) (hb : lookup d (inode i) q = lookup d (inode i) k) :
      ∃ hj : q - NDIRECT < NINDIRECT, (inode i).indirect ≠ 0 ∧
        word (d (inode i).indirect) (⟨q - NDIRECT, hj⟩ : Fin NINDIRECT) = lookup d (inode i) k := by
    rw [lookup, dif_neg hq] at hb
    split at hb
    · next hj => exact ⟨hj.1, hj.2, hb⟩
    · exact (hk hb.symm).elim
  by_cases hlt : k < NDIRECT
  · by_cases hlt' : k' < NDIRECT
    · have hle :
          hits (fun q : Fin NDIRECT ↦ (inode i).addrs q.castSucc) (lookup d (inode i) k) ≤ 1 := by
        omega
      exact congrArg Fin.val (eq_of_hits_le_one hle (hdirect hlt' heq) (hdirect hlt rfl))
    · obtain ⟨hj, hind, hw⟩ := hentry hlt' heq
      have h₁ : 0 < hits (fun q : Fin NDIRECT ↦ (inode i).addrs q.castSucc)
          (lookup d (inode i) k) :=
        hits_pos_iff.mpr ⟨⟨k, hlt⟩, hdirect hlt rfl⟩
      have h₂ : 0 < hits (fun q : Fin NINDIRECT ↦ word (d (inode i).indirect) q)
          (lookup d (inode i) k) := hits_pos_iff.mpr ⟨⟨k' - NDIRECT, hj⟩, hw⟩
      rw [if_neg hind] at hone
      omega
  · obtain ⟨hj, hind, hw⟩ := hentry hlt rfl
    rw [if_neg hind] at hone
    by_cases hlt' : k' < NDIRECT
    · have h₁ : 0 < hits (fun q : Fin NDIRECT ↦ (inode i).addrs q.castSucc)
          (lookup d (inode i) k) :=
        hits_pos_iff.mpr ⟨⟨k', hlt'⟩, hdirect hlt' heq⟩
      have h₂ : 0 < hits (fun q : Fin NINDIRECT ↦ word (d (inode i).indirect) q)
          (lookup d (inode i) k) := hits_pos_iff.mpr ⟨⟨k - NDIRECT, hj⟩, hw⟩
      omega
    · obtain ⟨hj', -, hw'⟩ := hentry hlt' heq
      have hle : hits (fun q : Fin NINDIRECT ↦ word (d (inode i).indirect) q)
          (lookup d (inode i) k) ≤ 1 := by
        omega
      have := congrArg Fin.val (eq_of_hits_le_one hle hw' hw)
      dsimp only at this
      omega

/-- Two allocated inodes have different blocks. -/
theorem lookup_ne (h : Owned sb d inode pending) {i j k k' : Nat} (hi : i < sb.ninodes)
    (hti : (inode i).type ≠ 0) (hj : j < sb.ninodes) (htj : (inode j).type ≠ 0) (hij : i ≠ j)
    (hk : lookup d (inode i) k ≠ 0) : lookup d (inode j) k' ≠ lookup d (inode i) k := by
  intro heq
  have hone := h.le_one hk
  have hle := add_le_totalRefs d inode hi hj hij (lookup d (inode i) k)
  have h₁ := dataRefs_lookup hk
  have h₂ : 0 < dataRefs d (inode j) (lookup d (inode i) k) := by
    rw [← heq]
    exact dataRefs_lookup (by rw [heq]; exact hk)
  rw [liveRefs, if_neg hti, liveRefs, if_neg htj, Xv6.Fs.refs, Xv6.Fs.refs] at hle
  omega

end Owned

/-- Disks that agree on all indirect blocks have the same pointers. -/
theorem totalRefs_congr (h : ∀ i, i < sb.ninodes → (inode i).type ≠ 0 → (inode i).indirect ≠ 0 →
    d' (inode i).indirect = d (inode i).indirect) (b : Nat) :
    totalRefs sb d' inode b = totalRefs sb d inode b := by
  apply Finset.sum_congr rfl
  intro i _
  unfold liveRefs
  split
  · rfl
  · next ht => exact refs_congr (h i i.isLt ht) b

/-- The total after one inode changed. -/
theorem totalRefs_update (d : Disk) (inode : Nat → Dinode) {i : Nat} (hi : i < sb.ninodes)
    (ip : Dinode) (b : Nat) :
    totalRefs sb d (Function.update inode i ip) b + liveRefs d (inode i) b =
      totalRefs sb d inode b + liveRefs d ip b := by
  have h := sum_add_of_eq_off
    (f := fun j : Fin sb.ninodes ↦ liveRefs d (Function.update inode i ip j) b)
    (g := fun j : Fin sb.ninodes ↦ liveRefs d (inode j) b) ⟨i, hi⟩
    (by
      intro j hj
      have hne : j.val ≠ i := fun h ↦ hj (Fin.ext h)
      rw [Function.update_of_ne hne])
  simpa only [totalRefs, Function.update_self] using h

end Xv6.Fs
