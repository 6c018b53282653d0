import Xv6.Fs.Itrunc

/-!
# File operations keep block ownership

`ialloc`, `writei`, `readi`, `itrunc` and `iput` on any inodes, in any order, whether they
succeed, run out of space, or are cut short by a failing copy.
-/

namespace Xv6.Fs

open Xv6.Lib

variable {sb : Super} {d : Disk} {inode : Nat → Dinode} {i : Nat}

/-! ### Reading and writing -/

/-- The loop of `readi` below the size allocates nothing. -/
theorem readLoop_same (h : Owned sb d inode 0) (hf : Filled sb d inode) (hi : i < sb.ninodes)
    (ht : (inode i).type ≠ 0) (dst : Nat → Bool) {n fuel tot off : Nat} (hfuel : n ≤ fuel + tot)
    (hoff : off + (n - tot) ≤ (inode i).size) :
    ∃ r xs, readLoop sb dst n fuel tot off (inode i) d = .ok (r, xs, inode i, d) := by
  induction fuel generalizing tot off with
  | zero => exact ⟨_, _, rfl⟩
  | succ fuel ih =>
    rw [readLoop]
    split
    · next hlt =>
      have hidx : off / BSIZE * BSIZE < (inode i).size := by
        have := Nat.div_mul_le_self off BSIZE
        omega
      have hne := hf i hi ht _ hidx
      obtain ⟨addr, ip, d', hmap, hm⟩ := bmap_mapped h hi ht (lt_maxfile hne)
      obtain ⟨haddr, hip, hd⟩ := hm.same hne
      rw [hmap, haddr, hip, hd]
      simp only [bind, Except.bind, hne, if_false]
      have hm : 0 < min (n - tot) (BSIZE - off % BSIZE) := by
        have := Nat.mod_lt off (show 0 < BSIZE by decide)
        omega
      split
      · have hnext : n ≤ fuel + (tot + min (n - tot) (BSIZE - off % BSIZE)) := by omega
        have hbelow : off + min (n - tot) (BSIZE - off % BSIZE) +
            (n - (tot + min (n - tot) (BSIZE - off % BSIZE))) ≤ (inode i).size := by omega
        obtain ⟨r, ys, hr⟩ := ih hnext hbelow
        rw [hr]
        exact ⟨_, _, rfl⟩
      · exact ⟨_, _, rfl⟩
    · exact ⟨_, _, rfl⟩

/-- `readi` leaves the inode and the disk as they are. -/
theorem readi_same (h : Owned sb d inode 0) (hf : Filled sb d inode) (hi : i < sb.ninodes)
    (ht : (inode i).type ≠ 0) (dst : Nat → Bool) (off n : Nat) :
    ∃ r xs, readi sb (inode i) dst off n d = .ok (r, xs, inode i, d) := by
  unfold readi
  split
  · exact ⟨_, _, rfl⟩
  · next hle =>
    apply readLoop_same h hf hi ht dst
    · omega
    · split <;> omega

/-- The blocks of inode `i` from the one that holds offset `lo` up to offset `off` exist. -/
def Covered (d : Disk) (ip : Dinode) (lo off : Nat) : Prop :=
  ∀ k, lo / BSIZE ≤ k → k * BSIZE < off → lookup d ip k ≠ 0

/-- Inside the loop of `writei` on inode `i`, which began with the inodes `inode₀` and the disk
`d₀`: the fields of the inode are in memory, and nothing was lost. -/
structure Writing (sb : Super) (d₀ : Disk) (inode₀ : Nat → Dinode) (i : Nat) (ip : Dinode)
    (d : Disk) : Prop where
  owned : Owned sb d (Function.update inode₀ i ip) 0
  extend : Extends sb d₀ inode₀ d (Function.update inode₀ i ip)
  inodes : ∀ j, j < sb.ninodes → d (sb.iblock j) = d₀ (sb.iblock j)

section
variable {inode₀ : Nat → Dinode} {d₀ : Disk} {ip : Dinode}

theorem Writing.start (h : Owned sb d inode 0) (i : Nat) : Writing sb d inode i (inode i) d := by
  have hup : Function.update inode i (inode i) = inode := Function.update_eq_self i _
  refine ⟨?_, ?_, fun _ _ ↦ rfl⟩
  · rw [hup]
    exact h
  · rw [hup]
    exact Extends.refl sb d _

theorem Writing.type (h : Writing sb d₀ inode₀ i ip d) (hi : i < sb.ninodes)
    (ht : (inode₀ i).type ≠ 0) : (Function.update inode₀ i ip i).type ≠ 0 := by
  rw [(h.extend i hi ht).1]
  exact ht

/-- `bmap` inside the loop. -/
theorem Writing.bmap (h : Writing sb d₀ inode₀ i ip d) (hi : i < sb.ninodes)
    (ht : (inode₀ i).type ≠ 0) {bn : Nat} (hbn : bn < MAXFILE) :
    ∃ addr ip' d', bmap sb ip bn d = .ok (addr, ip', d') ∧ Writing sb d₀ inode₀ i ip' d' ∧
      Mapped sb d (Function.update inode₀ i ip) i bn addr ip' d' := by
  obtain ⟨addr, ip', d', hmap, hm⟩ := bmap_mapped h.owned hi (h.type hi ht) hbn
  rw [Function.update_self] at hmap
  have hup : Function.update (Function.update inode₀ i ip) i ip' = Function.update inode₀ i ip' :=
    Function.update_idem ..
  have hown := hm.owned
  have hext := h.extend.trans hm.extend
  rw [hup] at hown hext
  refine ⟨addr, ip', d', hmap, ⟨hown, hext, ?_⟩, hm⟩
  intro j hj
  rw [hm.inodes j hj, h.inodes j hj]

/-- Storing in a block of the inode. -/
theorem Writing.store (h : Writing sb d₀ inode₀ i ip d) (hi : i < sb.ninodes)
    (ht : (inode₀ i).type ≠ 0) {k : Nat} (hk : lookup d ip k ≠ 0) (blk : Block) :
    Writing sb d₀ inode₀ i ip (Function.update d (lookup d ip k) blk) ∧
      ∀ k', lookup (Function.update d (lookup d ip k) blk) ip k' = lookup d ip k' := by
  have hself : Function.update inode₀ i ip i = ip := Function.update_self _ _ _
  -- the block is pointed to as data, so that storing in it changes no pointer
  have hdata : 0 < dataRefs d (Function.update inode₀ i ip i) (lookup d ip k) := by
    rw [hself]
    exact dataRefs_lookup hk
  obtain ⟨hown, hext, hino⟩ := owned_store h.owned hi (h.type hi ht) hk hdata blk
  refine ⟨⟨hown, h.extend.trans hext, ?_⟩, ?_⟩
  · intro j hj
    rw [hino j hj, h.inodes j hj]
  · intro k'
    apply lookup_congr
    intro _
    have hne := h.owned.ne_indirect hi (h.type hi ht) hi (h.type hi ht) hk hdata
    rw [hself] at hne
    exact Function.update_of_ne hne _ _

/-- The loop of `writei` keeps the invariant and leaves no hole behind. -/
theorem writeLoop_ok (hi : i < sb.ninodes) (ht : (inode₀ i).type ≠ 0) (src : Nat → Option UInt8)
    {n fuel tot lo off : Nat} (h : Writing sb d₀ inode₀ i ip d) (hcov : Covered d ip lo off)
    (hlo : lo ≤ off) (hmax : off + (n - tot) ≤ MAXFILE * BSIZE) :
    ∃ tot' off' ip' d', writeLoop sb src n fuel tot off ip d = .ok (tot', off', ip', d') ∧
      Writing sb d₀ inode₀ i ip' d' ∧ Covered d' ip' lo off' ∧ off' ≤ MAXFILE * BSIZE := by
  induction fuel generalizing tot off ip d with
  | zero => exact ⟨_, _, _, _, rfl, h, hcov, by omega⟩
  | succ fuel ih =>
    rw [writeLoop]
    split
    · next hlt =>
      have hidx : off / BSIZE < MAXFILE := by
        apply (Nat.div_lt_iff_lt_mul (show 0 < BSIZE by decide)).mpr
        omega
      obtain ⟨addr, ip₁, d₁, hmap, h₁, hm⟩ := h.bmap hi ht hidx
      have hcov₁ : Covered d₁ ip₁ lo off := by
        intro k hk hko
        have hold := hcov k hk hko
        have hkeep := (hm.extend i hi (h.type hi ht)).2.2.2 k
        rw [Function.update_self, Function.update_self] at hkeep
        rw [hkeep hold]
        exact hold
      rw [hmap]
      simp only [bind, Except.bind]
      split
      · exact ⟨_, _, _, _, rfl, h₁, hcov₁, by omega⟩
      · next haddr =>
        have hfound := hm.found
        obtain ⟨h₂, hlookup⟩ := h₁.store hi ht (by rw [hfound]; exact haddr)
          (overlay (d₁ addr) (off % BSIZE)
            (eitherCopyin src tot (min (n - tot) (BSIZE - off % BSIZE))).1)
        rw [hfound] at h₂ hlookup
        generalize Function.update d₁ addr (overlay (d₁ addr) (off % BSIZE)
          (eitherCopyin src tot (min (n - tot) (BSIZE - off % BSIZE))).1) = d₂ at h₂ hlookup ⊢
        have hcov₂ : Covered d₂ ip₁ lo off := by
          intro k hk hko
          rw [hlookup k]
          exact hcov₁ k hk hko
        split
        · have hcov₃ : Covered d₂ ip₁ lo (off + min (n - tot) (BSIZE - off % BSIZE)) := by
            intro k hk hko
            by_cases hlast : k = off / BSIZE
            · rw [hlast, hlookup, hfound]
              exact haddr
            · apply hcov₂ k hk
              simp only [BSIZE] at hko hlast ⊢
              omega
          exact ih h₂ hcov₃ (by omega) (by omega)
        · exact ⟨_, _, _, _, rfl, h₂, hcov₂, by omega⟩
    · exact ⟨_, _, _, _, rfl, h, hcov, by omega⟩

end

/-- The size of an inode is no pointer. -/
theorem owned_setSize {ip : Dinode} {size : Nat} (h : Owned sb d (Function.update inode i ip) 0)
    (hsize : size < 2 ^ 32) : Owned sb d (Function.update inode i { ip with size := size }) 0 := by
  have hlive (j b : Nat) : liveRefs d (Function.update inode i { ip with size := size } j) b =
      liveRefs d (Function.update inode i ip j) b := by
    by_cases hji : j = i
    · rw [hji, Function.update_self, Function.update_self]
      rfl
    · rw [Function.update_of_ne hji, Function.update_of_ne hji]
  refine ⟨?_, h.metadata, ?_⟩
  · intro b hb
    have htotal : totalRefs sb d (Function.update inode i { ip with size := size }) b =
        totalRefs sb d (Function.update inode i ip) b :=
      Finset.sum_congr rfl (fun j _ ↦ hlive j b)
    rw [htotal]
    exact h.refs b hb
  · intro j
    have hv := h.valid j
    by_cases hji : j = i
    · rw [hji, Function.update_self] at hv ⊢
      exact { hv with size := hsize }
    · rw [Function.update_of_ne hji] at hv ⊢
      exact hv

/-- `writei` keeps the invariant, whatever cuts it short. -/
theorem writei_ok (h : Owned sb d (dinode sb d) 0) (hf : Filled sb d (dinode sb d))
    (hi : i < sb.ninodes) (ht : (dinode sb d i).type ≠ 0) (src : Nat → Option UInt8)
    (off n : Nat) :
    ∃ r ip d', writei sb i (dinode sb d i) src off n d = .ok (r, ip, d') ∧
      Owned sb d' (dinode sb d') 0 ∧ Filled sb d' (dinode sb d') := by
  unfold writei
  split
  · exact ⟨_, _, _, rfl, h, hf⟩
  next hle =>
  split
  · exact ⟨_, _, _, rfl, h, hf⟩
  next hmax =>
  have hstart : Covered d (dinode sb d i) off off :=
    fun k _ hk ↦ hf i hi ht k (by omega)
  have hfit : off + (n - 0) ≤ MAXFILE * BSIZE := by omega
  obtain ⟨tot, off', ip, d', hloop, ⟨hown, hext, hino⟩, hcov, hoff⟩ :=
    writeLoop_ok hi ht src (Writing.start h i) hstart (le_refl _) hfit
  rw [hloop]
  have hinode (j : Nat) (hj : j < sb.ninodes) : dinode sb d j = dinode sb d' j :=
    (dinode_congr (hino j hj)).symm
  have htype (j : Nat) (hj : j < sb.ninodes)
      (htj : (Function.update (dinode sb d) i ip j).type ≠ 0) : (dinode sb d j).type ≠ 0 := by
    by_cases hji : j = i
    · rw [hji]
      exact ht
    · rw [Function.update_of_ne hji] at htj
      exact htj
  have hfill := hext.filled hf htype
  have hsize : ip.size = (dinode sb d i).size := by
    have := (hext i hi ht).2.2.1
    rwa [Function.update_self] at this
  refine ⟨_, _, _, rfl, ?_⟩
  split
  · next hgrow =>
    -- the size grows to the offset that the loop reached
    have hlt : off' < 2 ^ 32 := by
      simp only [MAXFILE, NDIRECT, NINDIRECT, BSIZE] at hoff
      omega
    refine owned_iupdate hi (owned_setSize hown hlt) ?_ hinode
    intro j hj htj k hk
    by_cases hji : j = i
    · subst hji
      rw [Function.update_self] at hk ⊢
      change lookup d' ip k ≠ 0
      by_cases hbelow : k * BSIZE < ip.size
      · have := hfill j hj
          (by rw [Function.update_self]; rw [Function.update_self] at htj; exact htj)
          k (by rw [Function.update_self]; exact hbelow)
        rwa [Function.update_self] at this
      · refine hcov k ?_ hk
        apply Nat.le_of_lt_succ
        apply (Nat.div_lt_iff_lt_mul (show 0 < BSIZE by decide)).mpr
        simp only [BSIZE] at hbelow ⊢
        omega
    · rw [Function.update_of_ne hji] at htj hk ⊢
      have := hfill j hj (by rw [Function.update_of_ne hji]; exact htj) k
        (by rw [Function.update_of_ne hji]; exact hk)
      rwa [Function.update_of_ne hji] at this
  · exact owned_iupdate hi hown hfill hinode

/-! ### Sequences of operations -/

/-- An operation on inodes. Copies get a source or a destination whose pages may be missing. -/
inductive Op (sb : Super) where
  | ialloc (type : UInt16)
  | writei (i : Fin sb.ninodes) (src : Nat → Option UInt8) (off n : UInt32)
  | readi (i : Fin sb.ninodes) (dst : Nat → Bool) (off n : UInt32)
  | itrunc (i : Fin sb.ninodes)
  | iput (i : Fin sb.ninodes)

/-- Perform an operation; those on an inode lock it first. -/
def Op.exec (sb : Super) (d : Disk) : Op sb → Except String Disk
  | .ialloc type => .ok (Fs.ialloc sb type.toNat d).2
  | .writei i src off n => do
    let ip ← ilock sb i d
    let (_, _, d) ← Fs.writei sb i ip src off.toNat n.toNat d
    return d
  | .readi i dst off n => do
    let ip ← ilock sb i d
    let (_, _, _, d) ← Fs.readi sb ip dst off.toNat n.toNat d
    return d
  | .itrunc i => do
    let ip ← ilock sb i d
    let (_, d) ← Fs.itrunc sb i ip d
    return d
  | .iput i => do
    let ip ← ilock sb i d
    Fs.iput sb i ip d

/-- Perform operations one after the other. -/
def execAll (sb : Super) : Disk → List (Op sb) → Except String Disk
  | d, [] => .ok d
  | d, op :: ops => (op.exec sb d).bind (fun d ↦ execAll sb d ops)

/-- Block ownership: every pointer of an allocated inode leads to a marked data block, no block
is pointed to twice, the metadata blocks are marked, every marked data block is pointed to, and
no index below the size of an inode is a hole. -/
structure BlockOwnership (sb : Super) (d : Disk) : Prop where
  pointers : ∀ b, b ≠ 0 → 0 < totalRefs sb d (dinode sb d) b → sb.IsData b ∧ used sb d b = true
  once : ∀ b, b ≠ 0 → totalRefs sb d (dinode sb d) b ≤ 1
  metadata : ∀ b, b < sb.nmeta → used sb d b = true
  marked : ∀ b, sb.IsData b → used sb d b = true → totalRefs sb d (dinode sb d) b = 1
  filled : Filled sb d (dinode sb d)

theorem blockOwnership_iff :
    BlockOwnership sb d ↔ Owned sb d (dinode sb d) 0 ∧ Filled sb d (dinode sb d) := by
  constructor
  · intro h
    refine ⟨⟨?_, h.metadata, dinode_valid sb d⟩, h.filled⟩
    intro b hb
    rw [if_neg hb, Nat.add_zero]
    split
    · next hm => exact h.marked b hm.1 hm.2
    · next hn =>
      apply Nat.eq_zero_of_not_pos
      exact fun hpos ↦ hn (h.pointers b hb hpos)
  · rintro ⟨h, hf⟩
    refine ⟨fun b hb hpos ↦ h.isData hb hpos, fun b hb ↦ h.le_one hb, h.metadata, ?_, hf⟩
    intro b hd hu
    have := h.refs b hd.ne_zero
    rwa [if_neg hd.ne_zero, if_pos ⟨hd, hu⟩] at this

theorem BlockOwnership.size_le (h : BlockOwnership sb d) (hi : i < sb.ninodes)
    (ht : (dinode sb d i).type ≠ 0) : (dinode sb d i).size ≤ MAXFILE * BSIZE := by
  by_contra hgt
  have hne := h.filled i hi ht MAXFILE (by omega)
  exact Nat.lt_irrefl _ (lt_maxfile hne)

/-- Every operation on allocated inodes runs to its end and keeps block ownership; `ilock`
stops the one on a free inode. -/
theorem exec_ok (h : BlockOwnership sb d) (op : Op sb) :
    (∃ d', op.exec sb d = .ok d' ∧ BlockOwnership sb d') ∨
      op.exec sb d = .error "ilock: no type" := by
  obtain ⟨hown, hf⟩ := blockOwnership_iff.mp h
  have hlock (i : Nat) : (dinode sb d i).type ≠ 0 ∧ ilock sb i d = .ok (dinode sb d i) ∨
      ilock sb i d = .error "ilock: no type" := by
    unfold ilock
    by_cases ht : (dinode sb d i).type = 0
    · exact Or.inr (if_pos ht)
    · exact Or.inl ⟨ht, if_neg ht⟩
  cases op with
  | ialloc type =>
    exact Or.inl ⟨_, rfl, blockOwnership_iff.mpr (ialloc_ok hown hf type.toNat_lt)⟩
  | writei i src off n =>
    rcases hlock i with ⟨ht, hl⟩ | hl
    · obtain ⟨r, ip, d', hw, hok⟩ := writei_ok hown hf i.isLt ht src off.toNat n.toNat
      refine Or.inl ⟨d', ?_, blockOwnership_iff.mpr hok⟩
      simp only [Op.exec, bind, Except.bind, hl, hw]
      rfl
    · exact Or.inr (by simp only [Op.exec, bind, Except.bind, hl])
  | readi i dst off n =>
    rcases hlock i with ⟨ht, hl⟩ | hl
    · obtain ⟨r, xs, hr⟩ := readi_same hown hf i.isLt ht dst off.toNat n.toNat
      refine Or.inl ⟨d, ?_, h⟩
      simp only [Op.exec, bind, Except.bind, hl, hr]
      rfl
    · exact Or.inr (by simp only [Op.exec, bind, Except.bind, hl])
  | itrunc i =>
    rcases hlock i with ⟨ht, hl⟩ | hl
    · obtain ⟨d', ht', hown', hf', -⟩ := itrunc_ok hown hf i.isLt ht
      refine Or.inl ⟨d', ?_, blockOwnership_iff.mpr ⟨hown', hf'⟩⟩
      simp only [Op.exec, bind, Except.bind, hl, ht']
      rfl
    · exact Or.inr (by simp only [Op.exec, bind, Except.bind, hl])
  | iput i =>
    rcases hlock i with ⟨ht, hl⟩ | hl
    · obtain ⟨d', hp, hok⟩ := iput_ok hown hf i.isLt ht
      refine Or.inl ⟨d', ?_, blockOwnership_iff.mpr hok⟩
      simp only [Op.exec, bind, Except.bind, hl, hp]
    · exact Or.inr (by simp only [Op.exec, bind, Except.bind, hl])

/-- From a disk with block ownership, every sequence of operations ends in one, unless it names
a free inode: neither `bfree` nor `bmap` panics. In the states reached, `readi` of an allocated
inode leaves the inode and the disk as they are. -/
theorem ops_keep_blockOwnership (h : BlockOwnership sb d) (ops : List (Op sb)) :
    execAll sb d ops = .error "ilock: no type" ∨
    ∃ d', execAll sb d ops = .ok d' ∧ BlockOwnership sb d' ∧
      ∀ (i : Fin sb.ninodes) (dst : Nat → Bool) (off n : UInt32), (dinode sb d' i).type ≠ 0 →
        ∃ r xs, readi sb (dinode sb d' i) dst off.toNat n.toNat d' =
          .ok (r, xs, dinode sb d' i, d') := by
  induction ops generalizing d with
  | nil =>
    obtain ⟨hown, hf⟩ := blockOwnership_iff.mp h
    exact Or.inr ⟨d, rfl, h, fun i dst off n ht ↦ readi_same hown hf i.isLt ht dst _ _⟩
  | cons op ops ih =>
    rcases exec_ok h op with ⟨d₁, hd₁, hok⟩ | herr
    · rw [execAll, hd₁]
      exact ih hok
    · exact Or.inl (by rw [execAll, herr]; rfl)

/-- A file system of eight blocks with two inode numbers. -/
def tinySuper : Super where
  size := 8
  nblocks := 4
  ninodes := 2
  inodestart := 2
  bmapstart := 3
  boot := by decide
  inodes := by decide
  bitmap := by decide
  fits := by decide
  ninodes_lt := by decide

/-- Its disk without files: the four metadata blocks are marked. -/
def tinyDisk : Disk := Function.update (fun _ ↦ zeroBlock) 3 (Function.update zeroBlock 0 15)

theorem blockOwnership_tinyDisk : BlockOwnership tinySuper tinyDisk := by
  have htype : ∀ i < 2, (dinode tinySuper tinyDisk i).type = 0 := by decide
  have hzero (b : Nat) : totalRefs tinySuper tinyDisk (dinode tinySuper tinyDisk) b = 0 := by
    apply Finset.sum_eq_zero
    intro i _
    exact if_pos (htype i i.isLt)
  have hfree : ∀ b < 8, 4 ≤ b → used tinySuper tinyDisk b = false := by decide
  have hmeta : ∀ b < 4, used tinySuper tinyDisk b = true := by decide
  refine ⟨?_, ?_, hmeta, ?_, ?_⟩
  · intro b _ hpos
    rw [hzero] at hpos
    omega
  · intro b _
    rw [hzero]
    omega
  · rintro b ⟨hlo, hhi⟩ hu
    rw [hfree b hhi hlo] at hu
    cases hu
  · intro i hi ht
    exact (ht (htype i hi)).elim

/-- A file is made, written, read back and truncated. -/
def writeReadTrunc : List (Op tinySuper) :=
  let i : Fin tinySuper.ninodes := ⟨1, by decide⟩
  [.ialloc 2, .writei i (fun _ ↦ some 7) 0 3, .readi i (fun _ ↦ true) 0 3, .itrunc i]

theorem ops_keep_blockOwnership_writeReadTrunc :
    ∃ d', execAll tinySuper tinyDisk writeReadTrunc = .ok d' ∧ BlockOwnership tinySuper d' := by
  have hok : (execAll tinySuper tinyDisk writeReadTrunc).isOk = true := by decide +kernel
  rcases ops_keep_blockOwnership blockOwnership_tinyDisk writeReadTrunc with herr | ⟨d', hd', h, -⟩
  · rw [herr] at hok
    cases hok
  · exact ⟨d', hd', h⟩

end Xv6.Fs
