import Xv6.Fs.Files

/-!
# Files as byte arrays

The content of a file is a list of bytes, spread over the blocks of its inode. `readi` delivers a
part of it, and `writei` replaces a part of it and may make it longer; neither touches another file.
-/

namespace Xv6.Fs

open Xv6.Lib

/-- Byte `k` of an inode's data. -/
def fileByte (d : Disk) (ip : Dinode) (k : Nat) : UInt8 := d (lookup d ip (k / BSIZE)) (k % BSIZE)

/-- The `n` bytes of an inode's data from offset `off` on. -/
def fileBytes (d : Disk) (ip : Dinode) (off n : Nat) : List UInt8 :=
  (List.range n).map (fun k ↦ fileByte d ip (off + k))

/-- The content of a file. -/
def content (sb : Super) (d : Disk) (i : Nat) : List UInt8 :=
  fileBytes d (dinode sb d i) 0 (dinode sb d i).size

/-- The bytes `xs` in place of those from offset `off` on, as far as there are any. -/
def splice (c : List UInt8) (off : Nat) (xs : List UInt8) : List UInt8 :=
  c.take off ++ xs ++ c.drop (off + xs.length)

/-- The blocks that a write to the indices from `lo` up to `hi` of an inode has to allocate. -/
def missing (d : Disk) (ip : Dinode) (lo hi : Nat) : Nat :=
  (List.range' lo (hi - lo)).countP (fun k ↦ lookup d ip k = 0) +
    if ip.indirect = 0 ∧ NDIRECT < hi then 1 else 0

/-- There are enough free blocks to write `n` bytes at offset `off`. -/
def Enough (sb : Super) (d : Disk) (ip : Dinode) (off n : Nat) : Prop :=
  missing d ip (off / BSIZE) ((off + n + BSIZE - 1) / BSIZE) ≤ freeBlocks sb d

instance (sb : Super) (d : Disk) (ip : Dinode) (off n : Nat) : Decidable (Enough sb d ip off n) :=
  inferInstanceAs (Decidable (_ ≤ _))

variable {sb : Super} {d d' : Disk} {inode : Nat → Dinode} {i : Nat}

/-! ### Bytes and blocks -/

theorem length_fileBytes (d : Disk) (ip : Dinode) (off n : Nat) :
    (fileBytes d ip off n).length = n := by
  rw [fileBytes, List.length_map, List.length_range]

theorem getElem?_fileBytes (d : Disk) (ip : Dinode) (off n k : Nat) :
    (fileBytes d ip off n)[k]? = if k < n then some (fileByte d ip (off + k)) else none := by
  rw [fileBytes, List.getElem?_map]
  split
  · next hk => rw [List.getElem?_range hk]; rfl
  · next hk => rw [List.getElem?_eq_none (by rw [List.length_range]; omega)]; rfl

theorem length_content (sb : Super) (d : Disk) (i : Nat) :
    (content sb d i).length = (dinode sb d i).size :=
  length_fileBytes d _ 0 _

theorem getElem?_content (sb : Super) (d : Disk) (i k : Nat) : (content sb d i)[k]? =
    if k < (dinode sb d i).size then some (fileByte d (dinode sb d i) k) else none := by
  rw [content, getElem?_fileBytes, Nat.zero_add]

theorem fileBytes_add (d : Disk) (ip : Dinode) (off m n : Nat) :
    fileBytes d ip off (m + n) = fileBytes d ip off m ++ fileBytes d ip (off + m) n := by
  simp only [fileBytes, List.range_add, List.map_append, List.map_map, List.append_cancel_left_eq]
  apply List.map_congr_left
  intro k _
  simp only [Function.comp_apply, Nat.add_assoc]

/-- Bytes of one block. -/
theorem slice_eq {ip : Dinode} {off m : Nat} (hm : off % BSIZE + m ≤ BSIZE) :
    slice (d (lookup d ip (off / BSIZE))) (off % BSIZE) m = fileBytes d ip off m := by
  apply List.map_congr_left
  intro k hk
  have hlt := List.mem_range.mp hk
  have hdiv : (off + k) / BSIZE = off / BSIZE := by
    simp only [BSIZE] at hm ⊢
    omega
  have hmod : (off + k) % BSIZE = off % BSIZE + k := by
    simp only [BSIZE] at hm ⊢
    omega
  rw [fileByte, hdiv, hmod]

theorem eitherCopyout_ok {dst : Nat → Bool} {k : Nat} {xs : List UInt8}
    (h : ∀ j, k ≤ j → j < k + xs.length → dst j = true) : eitherCopyout dst k xs = (xs, true) := by
  induction xs generalizing k with
  | nil => rfl
  | cons x xs ih =>
    rw [List.length_cons] at h
    rw [eitherCopyout, if_pos (h k (le_refl _) (by omega)),
      ih (fun j hlo hhi ↦ h j (by omega) (by omega))]

/-- Byte `k` of a source, where it can be read. -/
def byteOf (src : Nat → Option UInt8) (k : Nat) : UInt8 := (src k).getD 0

/-- `either_copyin` moves the bytes up to the first that cannot be read. -/
theorem eitherCopyin_cases (src : Nat → Option UInt8) (k m : Nat) :
    ∃ c, c ≤ m ∧ (∀ j, j < c → (src (k + j)).isSome = true) ∧ (c < m → src (k + c) = none) ∧
      eitherCopyin src k m = ((List.range c).map (fun j ↦ byteOf src (k + j)), decide (c = m)) := by
  induction m generalizing k with
  | zero => exact ⟨0, le_refl _, fun j hj ↦ by omega, fun h ↦ by omega, rfl⟩
  | succ m ih =>
    rw [eitherCopyin]
    cases hk : src k with
    | none =>
      refine ⟨0, Nat.zero_le _, fun j hj ↦ by omega, fun _ ↦ hk, ?_⟩
      rw [decide_eq_false (by omega)]
      rfl
    | some x =>
      obtain ⟨c, hle, hsome, hnone, hcopy⟩ := ih (k + 1)
      refine ⟨c + 1, by omega, ?_, ?_, ?_⟩
      · intro j hj
        cases j with
        | zero =>
          rw [Nat.add_zero, hk]
          rfl
        | succ j =>
          rw [show k + (j + 1) = k + 1 + j by omega]
          exact hsome j (by omega)
      · intro hlt
        rw [show k + (c + 1) = k + 1 + c by omega]
        exact hnone (by omega)
      · have hx : x = byteOf src (k + 0) := by
          rw [Nat.add_zero, byteOf, hk]
          rfl
        have hrest : (List.range c).map (fun j ↦ byteOf src (k + 1 + j)) =
            ((List.range c).map Nat.succ).map (fun j ↦ byteOf src (k + j)) := by
          rw [List.map_map]
          apply List.map_congr_left
          intro j _
          rw [Function.comp_apply, show k + j.succ = k + 1 + j by omega]
        rw [hcopy, List.range_succ_eq_map, List.map_cons, ← hx]
        dsimp only
        rw [hrest, decide_eq_decide.mpr (show c = m ↔ c + 1 = m + 1 by omega)]

/-! ### Reading -/

/-- The loop of `readi` where there are blocks delivers the bytes of the file. -/
theorem readLoop_eq (h : Owned sb d inode 0) (hi : i < sb.ninodes) (ht : (inode i).type ≠ 0)
    {dst : Nat → Bool} {n fuel tot off : Nat}
    (hfill : ∀ k, k * BSIZE < off + (n - tot) → lookup d (inode i) k ≠ 0) (hfuel : n ≤ fuel + tot)
    (htot : tot ≤ n) (hdst : ∀ k, k < n → dst k = true) :
    readLoop sb dst n fuel tot off (inode i) d =
      .ok (some n, fileBytes d (inode i) off (n - tot), inode i, d) := by
  induction fuel generalizing tot off with
  | zero =>
    have htot' : n - tot = 0 := by omega
    rw [readLoop, htot', show tot = n by omega]
    rfl
  | succ fuel ih =>
    rw [readLoop]
    split
    · next hlt =>
      have hne : lookup d (inode i) (off / BSIZE) ≠ 0 := by
        apply hfill
        have := Nat.div_mul_le_self off BSIZE
        omega
      obtain ⟨addr, ip, d', hmap, hm⟩ := bmap_mapped h hi ht (lt_maxfile hne)
      obtain ⟨haddr, hip, hd⟩ := hm.same hne
      have hmod := Nat.mod_lt off (show 0 < BSIZE by decide)
      generalize hlen : min (n - tot) (BSIZE - off % BSIZE) = m
      rw [hmap, haddr, hip, hd]
      simp only [bind, Except.bind, hne, if_false]
      rw [slice_eq (by omega), eitherCopyout_ok (by
        rw [length_fileBytes]
        exact fun j _ hj ↦ hdst j (by omega))]
      dsimp only
      rw [if_pos rfl, ih (fun k hk ↦ hfill k (by omega)) (by omega) (by omega)]
      dsimp only
      rw [show n - tot = m + (n - (tot + m)) by omega, fileBytes_add]
      rfl
    · next hge =>
      rw [show n - tot = 0 by omega, show tot = n by omega]
      rfl

theorem take_drop_content (sb : Super) (d : Disk) (i off n : Nat) :
    ((content sb d i).drop off).take n =
      fileBytes d (dinode sb d i) off (min n ((dinode sb d i).size - off)) := by
  apply List.ext_getElem?
  intro k
  rw [getElem?_fileBytes, List.getElem?_take]
  split
  · rw [List.getElem?_drop, getElem?_content]
    by_cases hk : off + k < (dinode sb d i).size
    · rw [if_pos hk, if_pos (by omega)]
    · rw [if_neg hk, if_neg (by omega)]
  · rw [if_neg (by omega)]

/-- `readi` of a range that has blocks, to a destination that can be written. -/
theorem readi_of_filled (h : Owned sb d inode 0) (hi : i < sb.ninodes) (ht : (inode i).type ≠ 0)
    {dst : Nat → Bool} {off n : Nat} (hlt : off + n < 2 ^ 32)
    (hfill : ∀ k, k * BSIZE < min (off + n) (inode i).size → lookup d (inode i) k ≠ 0)
    (hdst : ∀ k, k < min n ((inode i).size - off) → dst k = true) :
    readi sb (inode i) dst off n d = .ok (some (min n ((inode i).size - off)),
      fileBytes d (inode i) off (min n ((inode i).size - off)), inode i, d) := by
  unfold readi
  split
  · next hout =>
    rw [Nat.mod_eq_of_lt hlt] at hout
    rw [show min n ((inode i).size - off) = 0 by omega]
    rfl
  · next hin =>
    have hn : (if off + n > (inode i).size then (inode i).size - off else n) =
        min n ((inode i).size - off) := by
      split <;> omega
    dsimp only
    rw [hn, readLoop_eq h hi ht (fun k hk ↦ hfill k (by omega)) (by omega) (Nat.zero_le _) hdst]
    rfl

/-- `readi` to a destination that can be written. -/
theorem readi_eq (h : BlockOwnership sb d) (hi : i < sb.ninodes) (ht : (dinode sb d i).type ≠ 0)
    {dst : Nat → Bool} {off n : Nat} (hlt : off + n < 2 ^ 32)
    (hdst : ∀ k, k < min n ((dinode sb d i).size - off) → dst k = true) :
    readi sb (dinode sb d i) dst off n d = .ok (some (min n ((dinode sb d i).size - off)),
      ((content sb d i).drop off).take n, dinode sb d i, d) := by
  obtain ⟨hown, hf⟩ := blockOwnership_iff.mp h
  rw [take_drop_content]
  exact readi_of_filled hown hi ht hlt (fun k hk ↦ hf i hi ht k (by omega)) hdst

/-! ### Free blocks -/

theorem missing_pos {ip : Dinode} {lo hi k : Nat} (hlo : lo ≤ k) (hhi : k < hi)
    (hk : lookup d ip k = 0) : 0 < missing d ip lo hi := by
  have hmem : k ∈ List.range' lo (hi - lo) := by
    rw [List.mem_range'_1]
    omega
  have hpos : 0 < (List.range' lo (hi - lo)).countP (fun k ↦ lookup d ip k = 0) :=
    List.countP_pos_iff.mpr ⟨k, hmem, decide_eq_true hk⟩
  unfold missing
  omega

/-- Nothing is missing where all blocks are there. -/
theorem missing_eq_zero {ip : Dinode} {lo hi : Nat} (hlt : lo < hi)
    (h : ∀ k, lo ≤ k → k < hi → lookup d ip k ≠ 0) : missing d ip lo hi = 0 := by
  have hcount : (List.range' lo (hi - lo)).countP (fun k ↦ lookup d ip k = 0) = 0 := by
    apply List.countP_eq_zero.mpr
    intro k hk
    rw [List.mem_range'_1] at hk
    rw [decide_eq_true_eq]
    exact h k hk.1 (by omega)
  have hind : ¬ (ip.indirect = 0 ∧ NDIRECT < hi) := by
    intro hc
    apply h (hi - 1) (by omega) (by omega)
    rw [lookup, dif_neg (by omega), if_neg (fun hi ↦ hi.2 hc.1)]
  rw [missing, hcount, if_neg hind]

/-- `bmap` takes the blocks that it finds missing. -/
theorem Mapped.missing {bn addr : Nat} {ip : Dinode} (hm : Mapped sb d inode i bn addr ip d')
    {lo hi : Nat} (hlo : lo ≤ bn) (hhi : bn < hi) :
    freeBlocks sb d + missing d' ip lo hi = freeBlocks sb d' + missing d (inode i) lo hi := by
  have hmem : bn ∈ List.range' lo (hi - lo) := by
    rw [List.mem_range'_1]
    omega
  have hcost := hm.cost
  unfold nulls at hcost
  have hind : (if ip.indirect = 0 ∧ NDIRECT < hi then 1 else 0) +
      (if (inode i).indirect = 0 then 1 else 0) =
      (if (inode i).indirect = 0 ∧ NDIRECT < hi then 1 else 0) +
        if ip.indirect = 0 then 1 else 0 := by
    by_cases hdirect : bn < NDIRECT
    · rw [hm.indirect hdirect]
    · simp only [show NDIRECT < hi by omega, and_true]
      omega
  have hcount : (List.range' lo (hi - lo)).countP (fun k ↦ lookup d' ip k = 0) +
      (if lookup d (inode i) bn = 0 then 1 else 0) =
      (List.range' lo (hi - lo)).countP (fun k ↦ lookup d (inode i) k = 0) +
        if lookup d' ip bn = 0 then 1 else 0 := by
    have hoff (k : Nat) (hk : k ≠ bn) :
        decide (lookup d (inode i) k = 0) = decide (lookup d' ip k = 0) := by
      rw [hm.others k hk]
    by_cases hold : lookup d (inode i) bn = 0
    · by_cases hnew : lookup d' ip bn = 0
      · have hall :
            (fun k ↦ decide (lookup d' ip k = 0)) = fun k ↦ decide (lookup d (inode i) k = 0) := by
          funext k
          by_cases hk : k = bn
          · rw [hk, hold, hnew]
          · rw [hoff k hk]
        rw [hall, if_pos hold, if_pos hnew]
      · rw [if_pos hold, if_neg hnew, Nat.add_zero]
        exact (countP_eq_add_one (q := fun k ↦ decide (lookup d' ip k = 0)) (decide_eq_true hold)
          (decide_eq_false hnew) hoff List.nodup_range' hmem).symm
    · obtain ⟨-, hip, hd⟩ := hm.same hold
      rw [hip, hd]
  unfold Fs.missing
  omega

/-! ### Writing -/

/-- A write that began at offset `lo` has reached offset `off`: the bytes between are the new ones,
and the others of the file are as before. -/
structure Stored (d₀ : Disk) (ip₀ : Dinode) (lo off : Nat) (byte : Nat → UInt8) (d : Disk)
    (ip : Dinode) : Prop where
  new : ∀ k, lo ≤ k → k < off → lookup d ip (k / BSIZE) ≠ 0 ∧ fileByte d ip k = byte (k - lo)
  old : ∀ k, k < lo ∨ off ≤ k → lookup d₀ ip₀ (k / BSIZE) ≠ 0 →
    lookup d ip (k / BSIZE) ≠ 0 ∧ fileByte d ip k = fileByte d₀ ip₀ k

/-- The blocks that a write added hold zeros where it wrote nothing. -/
def Blank (d₀ : Disk) (ip₀ : Dinode) (lo off : Nat) (d : Disk) (ip : Dinode) : Prop :=
  ∀ k, k < lo ∨ off ≤ k → lookup d₀ ip₀ (k / BSIZE) = 0 → lookup d ip (k / BSIZE) ≠ 0 →
    fileByte d ip k = 0

/-- The files other than `i` keep their blocks and what is in them. -/
def Apart (sb : Super) (d₀ : Disk) (inode₀ : Nat → Dinode) (i : Nat) (d : Disk) : Prop :=
  ∀ j, j < sb.ninodes → j ≠ i → (inode₀ j).type ≠ 0 → ∀ k, lookup d₀ (inode₀ j) (k / BSIZE) ≠ 0 →
    lookup d (inode₀ j) (k / BSIZE) ≠ 0 ∧ fileByte d (inode₀ j) k = fileByte d₀ (inode₀ j) k

/-- The bytes of a buffer after `memmove`. -/
theorem overlay_map (blk : Block) (o m : Nat) (byte : Nat → UInt8) (r : Nat) :
    overlay blk o ((List.range m).map byte) r =
      if o ≤ r ∧ r < o + m then byte (r - o) else blk r := by
  unfold overlay
  by_cases hlo : r < o
  · rw [if_pos hlo, if_neg (by omega)]
  · rw [if_neg hlo, List.getElem?_map]
    by_cases hhi : r < o + m
    · rw [List.getElem?_range (by omega), if_pos ⟨by omega, hhi⟩]
      rfl
    · rw [List.getElem?_eq_none (by rw [List.length_range]; omega), if_neg (by omega)]
      rfl

/-- The bytes that were there stay when `bmap` adds blocks. -/
theorem Mapped.fileByte {bn addr : Nat} {ip : Dinode} (hm : Mapped sb d inode i bn addr ip d')
    {j k : Nat} (hj : j < sb.ninodes) (ht : (inode j).type ≠ 0)
    (hk : lookup d (inode j) (k / BSIZE) ≠ 0) :
    lookup d' (Function.update inode i ip j) (k / BSIZE) ≠ 0 ∧
      fileByte d' (Function.update inode i ip j) k = fileByte d (inode j) k := by
  have hl := (hm.extend j hj ht).2.2.2 _ hk
  refine ⟨?_, ?_⟩
  · rw [hl]
    exact hk
  · rw [Fs.fileByte, hl, hm.kept j _ hj ht hk]
    rfl

section
variable {inode₀ : Nat → Dinode} {d₀ : Disk} {ip ip' : Dinode} {lo off : Nat} {byte : Nat → UInt8}

theorem Stored.mapped (h : Stored d₀ (inode₀ i) lo off byte d ip) (hw : Writing sb d₀ inode₀ i ip d)
    (hi : i < sb.ninodes) (ht : (inode₀ i).type ≠ 0) {bn addr : Nat}
    (hm : Mapped sb d (Function.update inode₀ i ip) i bn addr ip' d') :
    Stored d₀ (inode₀ i) lo off byte d' ip' := by
  have hkeep (k : Nat) (hk : lookup d ip (k / BSIZE) ≠ 0) :
      lookup d' ip' (k / BSIZE) ≠ 0 ∧ fileByte d' ip' k = fileByte d ip k := by
    have := hm.fileByte hi (hw.type hi ht) (k := k)
    rw [Function.update_self, Function.update_self] at this
    exact this hk
  refine ⟨?_, ?_⟩
  · intro k hlo hhi
    obtain ⟨hl, hb⟩ := h.new k hlo hhi
    exact ⟨(hkeep k hl).1, (hkeep k hl).2.trans hb⟩
  · intro k hk hold
    obtain ⟨hl, hb⟩ := h.old k hk hold
    exact ⟨(hkeep k hl).1, (hkeep k hl).2.trans hb⟩

theorem Blank.mapped (h : Blank d₀ (inode₀ i) lo off d ip) (hw : Writing sb d₀ inode₀ i ip d)
    (hi : i < sb.ninodes) (ht : (inode₀ i).type ≠ 0) {bn addr : Nat}
    (hmap : bmap sb ip bn d = .ok (addr, ip', d'))
    (hm : Mapped sb d (Function.update inode₀ i ip) i bn addr ip' d') :
    Blank d₀ (inode₀ i) lo off d' ip' := by
  intro k hk hnull hsome
  by_cases hold : lookup d ip (k / BSIZE) = 0
  · -- the block is the one that `bmap` allocated
    have hothers := hm.others (k / BSIZE)
    rw [Function.update_self] at hothers
    have hbn : k / BSIZE = bn := by
      by_contra hne
      exact hsome ((hothers hne).trans hold)
    have hfound : lookup d' ip' (k / BSIZE) = addr := by
      rw [hbn]
      exact hm.found
    have hti : (Function.update (Function.update inode₀ i ip) i ip' i).type ≠ 0 := by
      rw [(hm.extend i hi (hw.type hi ht)).1]
      exact hw.type hi ht
    have hind := hm.owned.ne_indirect hi hti hi hti hsome (by
      rw [Function.update_self]
      exact dataRefs_lookup hsome)
    rw [Function.update_self, hfound] at hind
    rw [fileByte, hfound, bmap_zero hmap (by rw [← hbn]; exact hold)
      (by rw [← hfound]; exact hsome) hind]
    rfl
  · have hkeep := hm.fileByte hi (hw.type hi ht) (k := k)
    rw [Function.update_self, Function.update_self] at hkeep
    rw [(hkeep hold).2]
    exact h k hk hnull hold

theorem Apart.mapped (h : Apart sb d₀ inode₀ i d) {bn addr : Nat}
    (hm : Mapped sb d (Function.update inode₀ i ip) i bn addr ip' d') :
    Apart sb d₀ inode₀ i d' := by
  intro j hj hji htj k hk
  obtain ⟨hl, hb⟩ := h j hj hji htj k hk
  have := hm.fileByte hj (by rw [Function.update_of_ne hji]; exact htj) (k := k)
  simp only [Function.update_of_ne hji] at this
  exact ⟨(this hl).1, (this hl).2.trans hb⟩

/-- Storing in the block at an index of the inode changes the bytes of that block. -/
theorem fileByte_store (hw : Writing sb d₀ inode₀ i ip d) (hi : i < sb.ninodes)
    (ht : (inode₀ i).type ≠ 0) {bn : Nat} (hbn : lookup d ip bn ≠ 0) (blk : Block) (k : Nat) :
    fileByte (Function.update d (lookup d ip bn) blk) ip k =
      if k / BSIZE = bn then blk (k % BSIZE) else fileByte d ip k := by
  rw [fileByte, (hw.store hi ht hbn blk).2]
  split
  · next hk => rw [hk, Function.update_self]
  · next hk =>
    rw [Function.update_of_ne]
    · rfl
    · intro heq
      have hself : Function.update inode₀ i ip i = ip := Function.update_self ..
      apply hk
      apply hw.owned.lookup_inj hi (hw.type hi ht)
      · rw [hself]
        exact hbn
      · rw [hself]
        exact heq

theorem Apart.store (h : Apart sb d₀ inode₀ i d) (hw : Writing sb d₀ inode₀ i ip d)
    (hi : i < sb.ninodes) (ht : (inode₀ i).type ≠ 0) {bn : Nat} (hbn : lookup d ip bn ≠ 0)
    (blk : Block) : Apart sb d₀ inode₀ i (Function.update d (lookup d ip bn) blk) := by
  have hti := hw.type hi ht
  intro j hj hji htj k hk
  obtain ⟨hl, hb⟩ := h j hj hji htj k hk
  have htj' : (Function.update inode₀ i ip j).type ≠ 0 := by
    rw [Function.update_of_ne hji]
    exact htj
  have hbn' : lookup d (Function.update inode₀ i ip i) bn ≠ 0 := by
    rw [Function.update_self]
    exact hbn
  have hind := hw.owned.ne_indirect hi hti hj htj' hbn' (dataRefs_lookup hbn')
  have hne : lookup d (Function.update inode₀ i ip j) (k / BSIZE) ≠ lookup d
      (Function.update inode₀ i ip i) bn :=
    hw.owned.lookup_ne hi hti hj htj' hji.symm hbn'
  rw [Function.update_of_ne hji, Function.update_self] at hind hne
  have hlookup : lookup (Function.update d (lookup d ip bn) blk) (inode₀ j) (k / BSIZE) =
      lookup d (inode₀ j) (k / BSIZE) := lookup_congr (fun _ ↦ Function.update_of_ne hind _ _) _
  refine ⟨?_, ?_⟩
  · rw [hlookup]
    exact hl
  · rw [fileByte, hlookup, Function.update_of_ne hne]
    exact hb

/-- The bytes of a file after `memmove` into one of its blocks. -/
theorem fileByte_overlay (hw : Writing sb d₀ inode₀ i ip d) (hi : i < sb.ninodes)
    (ht : (inode₀ i).type ≠ 0) (hbn : lookup d ip (off / BSIZE) ≠ 0) {m : Nat}
    (hm : off % BSIZE + m ≤ BSIZE) (byte : Nat → UInt8) (k : Nat) :
    fileByte (Function.update d (lookup d ip (off / BSIZE)) (overlay (d (lookup d ip (off / BSIZE)))
        (off % BSIZE) ((List.range m).map byte))) ip k =
      if off ≤ k ∧ k < off + m then byte (k - off) else fileByte d ip k := by
  rw [fileByte_store hw hi ht hbn, overlay_map]
  by_cases hin : off ≤ k ∧ k < off + m
  · have hdiv : k / BSIZE = off / BSIZE := by
      simp only [BSIZE] at hm ⊢
      omega
    have hmod : k % BSIZE = off % BSIZE + (k - off) := by
      simp only [BSIZE] at hm hdiv ⊢
      omega
    rw [if_pos hdiv, if_pos hin, if_pos (by omega), hmod, Nat.add_sub_cancel_left]
  · rw [if_neg hin]
    split
    · next hdiv =>
      rw [if_neg, fileByte, hdiv]
      intro hmod
      apply hin
      simp only [BSIZE] at hdiv hmod
      omega
    · rfl

/-- One iteration stores the bytes up to the end of the write or of the block. -/
theorem Stored.store (h : Stored d₀ (inode₀ i) lo off byte d ip) (hw : Writing sb d₀ inode₀ i ip d)
    (hi : i < sb.ninodes) (ht : (inode₀ i).type ≠ 0) (hbn : lookup d ip (off / BSIZE) ≠ 0) {m : Nat}
    (hlo : lo ≤ off) (hm : off % BSIZE + m ≤ BSIZE) :
    Stored d₀ (inode₀ i) lo (off + m) byte
      (Function.update d (lookup d ip (off / BSIZE)) (overlay (d (lookup d ip (off / BSIZE)))
        (off % BSIZE) ((List.range m).map (fun k ↦ byte (off - lo + k))))) ip := by
  have hlookup := (hw.store hi ht hbn (overlay (d (lookup d ip (off / BSIZE)))
        (off % BSIZE) ((List.range m).map (fun k ↦ byte (off - lo + k))))).2
  have hbyte := fileByte_overlay hw hi ht hbn hm (fun k ↦ byte (off - lo + k))
  refine ⟨?_, ?_⟩
  · intro k hk hko
    rw [hlookup, hbyte]
    by_cases hin : k < off
    · rw [if_neg (by omega)]
      exact h.new k hk hin
    · rw [if_pos (by omega), show off - lo + (k - off) = k - lo by omega]
      refine ⟨?_, rfl⟩
      have hdiv : k / BSIZE = off / BSIZE := by
        simp only [BSIZE] at hm ⊢
        omega
      rw [hdiv]
      exact hbn
  · intro k hk hold
    rw [hlookup, hbyte, if_neg (by omega)]
    exact h.old k (by omega) hold

theorem Blank.store (h : Blank d₀ (inode₀ i) lo off d ip) (hw : Writing sb d₀ inode₀ i ip d)
    (hi : i < sb.ninodes) (ht : (inode₀ i).type ≠ 0) (hbn : lookup d ip (off / BSIZE) ≠ 0) {m : Nat}
    (hlo : lo ≤ off) (hm : off % BSIZE + m ≤ BSIZE) (byte : Nat → UInt8) :
    Blank d₀ (inode₀ i) lo (off + m)
      (Function.update d (lookup d ip (off / BSIZE)) (overlay (d (lookup d ip (off / BSIZE)))
        (off % BSIZE) ((List.range m).map byte))) ip := by
  intro k hk hnull hsome
  rw [(hw.store hi ht hbn _).2] at hsome
  rw [fileByte_overlay hw hi ht hbn hm byte, if_neg (by omega)]
  exact h k (by omega) hnull hsome

/-- The free blocks and those that a write to the indices from `lo` up to `hi` needs go down
together. -/
def Paid (sb : Super) (lo hi : Nat) (d₀ : Disk) (ip₀ : Dinode) (d : Disk) (ip : Dinode) : Prop :=
  freeBlocks sb d₀ + missing d ip lo hi = freeBlocks sb d + missing d₀ ip₀ lo hi

theorem Paid.trans {lo hi : Nat} {d₁ d₂ d₃ : Disk} {ip₁ ip₂ ip₃ : Dinode}
    (h : Paid sb lo hi d₁ ip₁ d₂ ip₂) (h' : Paid sb lo hi d₂ ip₂ d₃ ip₃) :
    Paid sb lo hi d₁ ip₁ d₃ ip₃ := by
  unfold Paid at h h' ⊢
  omega

/-- The disk may change where no block number and no mark is. -/
theorem Paid.of_congr {lo hi : Nat} (hlookup : ∀ k, lookup d' ip k = lookup d ip k)
    (hfree : freeBlocks sb d' = freeBlocks sb d) : Paid sb lo hi d ip d' ip := by
  unfold Paid missing
  simp only [hlookup, hfree]

theorem freeBlocks_store (hw : Writing sb d₀ inode₀ i ip d) (hi : i < sb.ninodes)
    (ht : (inode₀ i).type ≠ 0) {bn : Nat} (hbn : lookup d ip bn ≠ 0) (blk : Block) :
    freeBlocks sb (Function.update d (lookup d ip bn) blk) = freeBlocks sb d := by
  have hdata := hw.owned.lookup_isData hi (hw.type hi ht) (k := bn)
  rw [Function.update_self] at hdata
  apply freeBlocks_congr
  intro b hb
  exact used_congr (Function.update_of_ne ((hdata hbn).ne_bblock hb).symm _ _)

/-- Where a write ended: at its end, or where a block was needed and none was free. -/
structure Ended (sb : Super) (lo n tot : Nat) (d : Disk) (ip : Dinode) : Prop where
  le : tot ≤ n
  free : tot < n → freeBlocks sb d = 0
  hole : tot < n → lookup d ip ((lo + tot) / BSIZE) = 0
  edge : tot < n → tot = 0 ∨ (lo + tot) % BSIZE = 0

/-- Where the loop of `writei` ended, `more` bytes after the last chunk that it copied: at the end
of the write, where a block was needed and none was free, or at a byte that cannot be read. -/
structure Stopped (sb : Super) (src : Nat → Option UInt8) (lo n tot more : Nat) (d : Disk)
    (ip : Dinode) : Prop where
  le : tot + more ≤ n
  readable : ∀ k, k < tot + more → (src k).isSome = true
  edge : tot < n → tot = 0 ∨ (lo + tot) % BSIZE = 0
  cause : tot = n ∨ (more = 0 ∧ freeBlocks sb d = 0 ∧ lookup d ip ((lo + tot) / BSIZE) = 0) ∨
    (tot + more < n ∧ src (tot + more) = none ∧ (lo + (tot + more)) / BSIZE = (lo + tot) / BSIZE ∧
      lookup d ip ((lo + tot) / BSIZE) ≠ 0)

/-- The loop of `writei`, whatever it reads. -/
theorem writeLoop_stopped (hi : i < sb.ninodes) (ht : (inode₀ i).type ≠ 0)
    {src : Nat → Option UInt8} {n fuel tot : Nat} (hw : Writing sb d₀ inode₀ i ip d)
    (hs : Stored d₀ (inode₀ i) lo (lo + tot) (byteOf src) d ip)
    (hz : Blank d₀ (inode₀ i) lo (lo + tot) d ip) (ha : Apart sb d₀ inode₀ i d) (htot : tot ≤ n)
    (hfuel : n ≤ fuel + tot) (hmax : lo + n ≤ MAXFILE * BSIZE)
    (hedge : tot < n → tot = 0 ∨ (lo + tot) % BSIZE = 0)
    (hread : ∀ k, k < tot → (src k).isSome = true) :
    ∃ tot' more ip' d', writeLoop sb src n fuel tot (lo + tot) ip d =
      .ok (tot', lo + tot', ip', d') ∧
      tot ≤ tot' ∧ Writing sb d₀ inode₀ i ip' d' ∧
      Stored d₀ (inode₀ i) lo (lo + (tot' + more)) (byteOf src) d' ip' ∧
      Blank d₀ (inode₀ i) lo (lo + (tot' + more)) d' ip' ∧
      Apart sb d₀ inode₀ i d' ∧ Stopped sb src lo n tot' more d' ip' ∧
      ∀ a b, a ≤ lo / BSIZE → lo + tot' ≤ b * BSIZE → (tot' < n → (lo + tot') / BSIZE < b) →
        Paid sb a b d ip d' ip' := by
  induction fuel generalizing tot ip d with
  | zero =>
    exact ⟨tot, 0, ip, d, rfl, le_refl _, hw, hs, hz, ha, ⟨htot, hread, hedge, Or.inl (by omega)⟩,
      fun _ _ _ _ _ ↦ rfl⟩
  | succ fuel ih =>
    rw [writeLoop]
    split
    · next hlt =>
      have hidx : (lo + tot) / BSIZE < MAXFILE := by
        apply (Nat.div_lt_iff_lt_mul (show 0 < BSIZE by decide)).mpr
        omega
      obtain ⟨addr, ip₁, d₁, hmap, hw₁, hm⟩ := hw.bmap hi ht hidx
      have hs₁ := hs.mapped hw hi ht hm
      have hz₁ := hz.mapped hw hi ht hmap hm
      have ha₁ := ha.mapped hm
      have hpaid₁ (a b : Nat) (ha : a ≤ lo / BSIZE) (hb : (lo + tot) / BSIZE < b) :
          Paid sb a b d ip d₁ ip₁ := by
        have hle : a ≤ (lo + tot) / BSIZE := by
          simp only [BSIZE] at ha ⊢
          omega
        have := hm.missing hle hb
        rwa [Function.update_self] at this
      rw [hmap]
      simp only [bind, Except.bind]
      have hfound := hm.found
      split
      · next haddr =>
        refine ⟨tot, 0, ip₁, d₁, rfl, le_refl _, hw₁, hs₁, hz₁, ha₁,
          ⟨htot, hread, hedge, Or.inr (Or.inl ⟨rfl, hm.full haddr, ?_⟩)⟩, ?_⟩
        · rw [hfound]
          exact haddr
        · exact fun a b hlo _ hb ↦ hpaid₁ a b hlo (hb hlt)
      · next haddr =>
        have hbn : lookup d₁ ip₁ ((lo + tot) / BSIZE) ≠ 0 := by
          rw [hfound]
          exact haddr
        have hmod := Nat.mod_lt (lo + tot) (show 0 < BSIZE by decide)
        have hlast : min (n - tot) (BSIZE - (lo + tot) % BSIZE) = n - tot ∨
            (lo + tot + min (n - tot) (BSIZE - (lo + tot) % BSIZE)) % BSIZE = 0 := by
          simp only [BSIZE]
          omega
        generalize hlen : min (n - tot) (BSIZE - (lo + tot) % BSIZE) = m at hlast
        obtain ⟨c, hcm, hcread, hcnone, hcopy⟩ := eitherCopyin_cases src tot m
        have hfit : (lo + tot) % BSIZE + c ≤ BSIZE := by omega
        have hread₂ (k : Nat) (hk : k < tot + c) : (src k).isSome = true := by
          by_cases hkt : k < tot
          · exact hread k hkt
          · have := hcread (k - tot) (by omega)
            rwa [Nat.add_sub_cancel' (by omega)] at this
        have hs₂ := hs₁.store hw₁ hi ht hbn (by omega) hfit
        have hz₂ := hz₁.store hw₁ hi ht hbn (by omega) hfit (fun j ↦ byteOf src (tot + j))
        have hlook₂ := hw₁.store hi ht hbn (overlay (d₁ (lookup d₁ ip₁ ((lo + tot) / BSIZE)))
          ((lo + tot) % BSIZE) ((List.range c).map (fun j ↦ byteOf src (tot + j))))
        have ha₂ := ha₁.store hw₁ hi ht hbn (overlay (d₁ (lookup d₁ ip₁ ((lo + tot) / BSIZE)))
          ((lo + tot) % BSIZE) ((List.range c).map (fun j ↦ byteOf src (tot + j))))
        have hfree₂ :=
          freeBlocks_store hw₁ hi ht hbn (overlay (d₁ (lookup d₁ ip₁ ((lo + tot) / BSIZE)))
          ((lo + tot) % BSIZE) ((List.range c).map (fun j ↦ byteOf src (tot + j))))
        rw [Nat.add_sub_cancel_left] at hs₂
        rw [hfound, Nat.add_assoc] at hs₂ hz₂
        rw [hfound] at hlook₂ ha₂ hfree₂
        rw [hcopy]
        dsimp only
        generalize Function.update d₁ addr (overlay (d₁ addr) ((lo + tot) % BSIZE)
          ((List.range c).map (fun j ↦ byteOf src (tot + j)))) = d₂ at hs₂ hz₂ hlook₂ ha₂ hfree₂ ⊢
        have hpaid₂ (a b : Nat) (ha : a ≤ lo / BSIZE) (hb : (lo + tot) / BSIZE < b) :
            Paid sb a b d ip d₂ ip₁ :=
          (hpaid₁ a b ha hb).trans (Paid.of_congr hlook₂.2 hfree₂)
        by_cases hwhole : c = m
        · rw [if_pos (decide_eq_true hwhole), ← hwhole, Nat.add_assoc]
          rw [← hwhole, Nat.add_assoc] at hlast
          rw [← hwhole] at hlen
          obtain ⟨tot', more, ip', d', hloop, hle, hw', hs', hz', ha', hend, hpaid⟩ :=
            ih hlook₂.1 hs₂ hz₂ ha₂ (by omega) (by omega) (by omega) hread₂
          refine ⟨tot', more, ip', d', hloop, by omega, hw', hs', hz', ha', hend, ?_⟩
          intro a b hlo hhi hb
          refine (hpaid₂ a b hlo ?_).trans (hpaid a b hlo hhi hb)
          apply (Nat.div_lt_iff_lt_mul (show 0 < BSIZE by decide)).mpr
          omega
        · have hsame : (lo + (tot + c)) / BSIZE = (lo + tot) / BSIZE := by
            simp only [BSIZE] at hlen ⊢
            omega
          rw [if_neg (by rw [decide_eq_true_eq]; exact hwhole)]
          refine ⟨tot, c, ip₁, d₂, rfl, le_refl _, hlook₂.1, hs₂, hz₂, ha₂,
            ⟨by omega, hread₂, hedge, Or.inr (Or.inr ⟨by omega, hcnone (by omega), hsame, ?_⟩)⟩, ?_⟩
          · rw [hlook₂.2]
            exact hbn
          · exact fun a b hlo _ hb ↦ hpaid₂ a b hlo (hb hlt)
    · next hge =>
      exact ⟨tot, 0, ip, d, rfl, le_refl _, hw, hs, hz, ha, ⟨htot, hread, hedge, Or.inl (by omega)⟩,
        fun _ _ _ _ _ ↦ rfl⟩

end

/-! ### `writei` -/

theorem lookup_iupdate (h : Owned sb d inode 0) (hi : i < sb.ninodes) {j : Nat}
    (hj : j < sb.ninodes) (ht : (inode j).type ≠ 0) (ip : Dinode) (k : Nat) :
    lookup (iupdate sb i ip d) (inode j) k = lookup d (inode j) k := by
  apply lookup_congr
  intro hind
  exact Function.update_of_ne ((h.indirect_isData hj ht hind).1.ne_iblock hi) _ _

theorem fileByte_iupdate (h : Owned sb d inode 0) (hi : i < sb.ninodes) {j : Nat}
    (hj : j < sb.ninodes) (ht : (inode j).type ≠ 0) (ip : Dinode) {k : Nat}
    (hk : lookup d (inode j) (k / BSIZE) ≠ 0) :
    fileByte (iupdate sb i ip d) (inode j) k = fileByte d (inode j) k := by
  rw [fileByte, lookup_iupdate h hi hj ht, iupdate,
    Function.update_of_ne ((h.lookup_isData hj ht hk).ne_iblock hi)]
  rfl

theorem freeBlocks_iupdate (hi : i < sb.ninodes) (ip : Dinode) (d : Disk) :
    freeBlocks sb (iupdate sb i ip d) = freeBlocks sb d := by
  apply freeBlocks_congr
  intro b _
  exact used_congr (Function.update_of_ne (sb.iblock_ne_bblock hi b).symm _ _)

theorem length_splice {c xs : List UInt8} {off : Nat} (hoff : off ≤ c.length) :
    (splice c off xs).length = max c.length (off + xs.length) := by
  rw [splice, List.length_append, List.length_append, List.length_take, List.length_drop]
  omega

theorem getElem?_splice {bs xs : List UInt8} {off : Nat} (hoff : off ≤ bs.length) (k : Nat) :
    (splice bs off xs)[k]? = if off ≤ k ∧ k < off + xs.length then xs[k - off]? else bs[k]? := by
  have htake : (bs.take off).length = off := by
    rw [List.length_take]
    omega
  unfold splice
  by_cases hlo : k < off
  · rw [List.append_assoc, List.getElem?_append_left (by omega), List.getElem?_take_of_lt hlo,
      if_neg (by omega)]
  · by_cases hhi : k < off + xs.length
    · rw [List.append_assoc, List.getElem?_append_right (by omega), htake,
        List.getElem?_append_left (by omega), if_pos ⟨by omega, hhi⟩]
    · rw [List.getElem?_append_right (by rw [List.length_append]; omega), List.length_append, htake,
        List.getElem?_drop, if_neg (by omega)]
      congr 1
      omega

/-- Files that agree in size and in the bytes below it have the same content. -/
theorem content_congr {j : Nat} (hsize : (dinode sb d' j).size = (dinode sb d j).size)
    (hbyte : ∀ k, k < (dinode sb d j).size →
      fileByte d' (dinode sb d' j) k = fileByte d (dinode sb d j) k) :
    content sb d' j = content sb d j := by
  apply List.ext_getElem?
  intro k
  rw [getElem?_content, getElem?_content, hsize]
  split
  · next hk => rw [hbyte k hk]
  · rfl

/-- What a write of the bytes `xs` at offset `off` of inode `i` leaves behind. -/
structure Written (sb : Super) (d : Disk) (i off : Nat) (xs : List UInt8) (d' : Disk) : Prop where
  ownership : BlockOwnership sb d'
  content : content sb d' i = splice (content sb d i) off xs
  size : (dinode sb d' i).size = max (dinode sb d i).size (off + xs.length)
  type : (dinode sb d' i).type = (dinode sb d i).type
  nlink : (dinode sb d' i).nlink = (dinode sb d i).nlink
  others : ∀ j, j < sb.ninodes → j ≠ i → dinode sb d' j = dinode sb d j ∧
    ((dinode sb d j).type ≠ 0 → Fs.content sb d' j = Fs.content sb d j)

theorem Filled.lookup_ne_zero (h : Filled sb d inode) (hi : i < sb.ninodes)
    (ht : (inode i).type ≠ 0) {k : Nat} (hk : k < (inode i).size) :
    lookup d (inode i) (k / BSIZE) ≠ 0 := by
  apply h i hi ht
  exact lt_of_le_of_lt (Nat.div_mul_le_self k BSIZE) hk

/-- What `writei` leaves behind when it returns `tot`, having copied `more` bytes after them. -/
structure Wrote (sb : Super) (d : Disk) (i : Nat) (src : Nat → Option UInt8) (off n tot more : Nat)
    (d' : Disk) : Prop where
  ownership : BlockOwnership sb d'
  size : (dinode sb d' i).size = max (dinode sb d i).size (off + tot)
  type : (dinode sb d' i).type = (dinode sb d i).type
  nlink : (dinode sb d' i).nlink = (dinode sb d i).nlink
  stored : Stored d (dinode sb d i) off (off + (tot + more)) (byteOf src) d' (dinode sb d' i)
  blank : Blank d (dinode sb d i) off (off + (tot + more)) d' (dinode sb d' i)
  others : ∀ j, j < sb.ninodes → j ≠ i → dinode sb d' j = dinode sb d j ∧
    ((dinode sb d j).type ≠ 0 → Fs.content sb d' j = Fs.content sb d j)
  stopped : Stopped sb src off n tot more d' (dinode sb d' i)
  paid : ∀ a b, a ≤ off / BSIZE → off + tot ≤ b * BSIZE → (tot < n → (off + tot) / BSIZE < b) →
    Paid sb a b d (dinode sb d i) d' (dinode sb d' i)

/-- The end of `writei`: the size grows to the offset reached, and the inode goes to the disk. -/
theorem writei_eq {src : Nat → Option UInt8} {off n tot : Nat} {ip₀ ip : Dinode} {d₁ : Disk}
    (hoff : off ≤ ip₀.size) (hmax : off + n ≤ MAXFILE * BSIZE)
    (hloop : writeLoop sb src n n 0 off ip₀ d = .ok (tot, off + tot, ip, d₁)) :
    writei sb i ip₀ src off n d = .ok (some tot, { ip with size := max ip.size (off + tot) },
      iupdate sb i { ip with size := max ip.size (off + tot) } d₁) := by
  have hlt : off + n < 2 ^ 32 := by
    simp only [MAXFILE, NDIRECT, NINDIRECT, BSIZE] at hmax
    omega
  have hgrow : (if off + tot > ip.size then { ip with size := off + tot } else ip) =
      { ip with size := max ip.size (off + tot) } := by
    split
    · next hgt => rw [Nat.max_eq_right (by omega)]
    · next hle => rw [Nat.max_eq_left (by omega)]
  unfold writei
  rw [if_neg (by rw [Nat.mod_eq_of_lt hlt]; omega), if_neg (by omega), ← hgrow, hloop]
  rfl

/-- `writei` inside a file or at its end, whatever it reads. -/
theorem writei_stopped (h : BlockOwnership sb d) (hi : i < sb.ninodes)
    (ht : (dinode sb d i).type ≠ 0) (src : Nat → Option UInt8) {off n : Nat}
    (hoff : off ≤ (dinode sb d i).size) (hmax : off + n ≤ MAXFILE * BSIZE) :
    ∃ tot more d', writei sb i (dinode sb d i) src off n d = .ok (some tot, dinode sb d' i, d') ∧
      Wrote sb d i src off n tot more d' := by
  obtain ⟨hown, hf⟩ := blockOwnership_iff.mp h
  have hstart : Stored d (dinode sb d i) off (off + 0) (byteOf src) d (dinode sb d i) :=
    ⟨fun k hlo hhi ↦ by omega, fun k _ hk ↦ ⟨hk, rfl⟩⟩
  have hblank : Blank d (dinode sb d i) off (off + 0) d (dinode sb d i) :=
    fun k _ hnull hsome ↦ (hsome hnull).elim
  obtain ⟨tot, more, ip, d₁, hloop, -, hw, hs, hz, ha, hend, hpaid⟩ := writeLoop_stopped hi ht
    (Writing.start hown i) hstart hblank (fun j _ _ _ k hk ↦ ⟨hk, rfl⟩) (Nat.zero_le n)
    (le_refl n) hmax
    (fun _ ↦ Or.inl rfl) (fun k hk ↦ by omega)
  rw [Nat.add_zero] at hloop
  have hwi := writei_eq (i := i) hoff hmax hloop
  obtain ⟨r, ip', d', hwi', hok⟩ := writei_ok hown hf hi ht src off n
  rw [hwi] at hwi'
  cases hwi'
  obtain ⟨htype, hnlink, hsize, -⟩ := hw.extend i hi ht
  rw [Function.update_self] at htype hnlink hsize
  have hv : ({ ip with size := max ip.size (off + tot) } : Dinode).Valid := by
    have hvalid := hw.owned.valid i
    rw [Function.update_self] at hvalid
    refine { hvalid with size := ?_ }
    have := hvalid.size
    have := hend.le
    simp only [MAXFILE, NDIRECT, NINDIRECT, BSIZE] at hmax
    change max ip.size (off + tot) < 2 ^ 32
    omega
  have hdinode (j : Nat) :
      dinode sb (iupdate sb i { ip with size := max ip.size (off + tot) } d₁) j =
      if j = i then { ip with size := max ip.size (off + tot) } else dinode sb d₁ j :=
    dinode_iupdate hv i j d₁
  have hself : dinode sb (iupdate sb i { ip with size := max ip.size (off + tot) } d₁) i =
      { ip with size := max ip.size (off + tot) } := by
    rw [hdinode, if_pos rfl]
  have hti : (Function.update (dinode sb d) i ip i).type ≠ 0 := hw.type hi ht
  have hlookup (k : Nat) : lookup (iupdate sb i { ip with size := max ip.size (off + tot) } d₁)
      { ip with size := max ip.size (off + tot) } k = lookup d₁ ip k := by
    have := lookup_iupdate hw.owned hi hi hti { ip with size := max ip.size (off + tot) } k
    rwa [Function.update_self] at this
  have hbyte (k : Nat) (hk : lookup d₁ ip (k / BSIZE) ≠ 0) :
      fileByte (iupdate sb i { ip with size := max ip.size (off + tot) } d₁)
        { ip with size := max ip.size (off + tot) } k = fileByte d₁ ip k := by
    have := fileByte_iupdate hw.owned hi hi hti { ip with size := max ip.size (off + tot) } (k := k)
    rw [Function.update_self] at this
    exact this hk
  refine ⟨tot, more, _, by rw [hwi, hself], blockOwnership_iff.mpr hok, ?_, ?_, ?_, ⟨?_, ?_⟩, ?_,
    ?_, ?_, ?_⟩
  · rw [hself, ← hsize]
  · rw [hself]
    exact htype
  · rw [hself]
    exact hnlink
  · intro k hlo hhi
    obtain ⟨hl, hb⟩ := hs.new k hlo hhi
    rw [hself, hlookup, hbyte k hl]
    exact ⟨hl, hb⟩
  · intro k hk hold
    obtain ⟨hl, hb⟩ := hs.old k hk hold
    rw [hself, hlookup, hbyte k hl]
    exact ⟨hl, hb⟩
  · intro k hk hnull hsome
    rw [hself, hlookup] at hsome
    rw [hself, hbyte k hsome]
    exact hz k hk hnull hsome
  · intro j hj hji
    have hdj : dinode sb (iupdate sb i { ip with size := max ip.size (off + tot) } d₁) j =
        dinode sb d j := by
      rw [hdinode, if_neg hji]
      exact dinode_congr (hw.inodes j hj)
    refine ⟨hdj, ?_⟩
    intro htj
    apply content_congr (by rw [hdj])
    intro k hk
    obtain ⟨hl, hb⟩ := ha j hj hji htj k (hf.lookup_ne_zero hj htj hk)
    have := fileByte_iupdate hw.owned hi hj (by rw [Function.update_of_ne hji]; exact htj)
      { ip with size := max ip.size (off + tot) } (k := k)
    rw [Function.update_of_ne hji] at this
    rw [hdj, this hl, hb]
  · rw [hself]
    refine ⟨hend.le, hend.readable, hend.edge, ?_⟩
    rw [freeBlocks_iupdate hi, hlookup]
    exact hend.cause
  · intro a b hlo hhi hb
    rw [hself]
    refine (hpaid a b hlo hhi hb).trans ?_
    unfold Paid missing
    simp only [hlookup, freeBlocks_iupdate hi]
    rfl

/-- The content after a write that copied no byte beyond those that it counts. -/
theorem Wrote.content {src : Nat → Option UInt8} {off n tot : Nat}
    (hw : Wrote sb d i src off n tot 0 d') (h : BlockOwnership sb d) (hi : i < sb.ninodes)
    (ht : (dinode sb d i).type ≠ 0) (hoff : off ≤ (dinode sb d i).size) {xs : List UInt8}
    (hlen : xs.length = tot) (hxs : ∀ k, k < tot → xs[k]? = some (byteOf src k)) :
    content sb d' i = splice (content sb d i) off xs := by
  have hfill := (blockOwnership_iff.mp h).2
  apply List.ext_getElem?
  intro k
  rw [getElem?_content, getElem?_splice (by rw [length_content]; exact hoff), hw.size,
    getElem?_content, hlen]
  by_cases hin : off ≤ k ∧ k < off + tot
  · obtain ⟨-, hb⟩ := hw.stored.new k hin.1 hin.2
    rw [if_pos (by omega), if_pos hin, hb, hxs (k - off) (by omega)]
  · rw [if_neg hin]
    by_cases hk : k < (dinode sb d i).size
    · obtain ⟨-, hb⟩ := hw.stored.old k (by omega) (hfill.lookup_ne_zero hi ht hk)
      rw [if_pos (by omega), if_pos hk, hb]
    · rw [if_neg (by omega), if_neg hk]

/-- `writei` inside a file or at its end, from a source that can be read: it writes all bytes, or as
many as there are blocks for. -/
theorem writei_written (h : BlockOwnership sb d) (hi : i < sb.ninodes)
    (ht : (dinode sb d i).type ≠ 0) {src : Nat → Option UInt8} {off : Nat} {xs : List UInt8}
    (hoff : off ≤ (dinode sb d i).size) (hmax : off + xs.length ≤ MAXFILE * BSIZE)
    (hsrc : ∀ k, k < xs.length → src k = xs[k]?) :
    ∃ tot d', writei sb i (dinode sb d i) src off xs.length d = .ok (some tot, dinode sb d' i, d') ∧
      Written sb d i off (xs.take tot) d' ∧ Ended sb off xs.length tot d' (dinode sb d' i) ∧
      ∀ a b, a ≤ off / BSIZE → (off + xs.length + BSIZE - 1) / BSIZE ≤ b →
        Paid sb a b d (dinode sb d i) d' (dinode sb d' i) := by
  obtain ⟨tot, more, d', hwi, hw⟩ := writei_stopped h hi ht src hoff hmax
  have hend := hw.stopped
  have hle := hend.le
  have hbyte (k : Nat) (hk : k < xs.length) : xs[k]? = some (byteOf src k) := by
    rw [byteOf, hsrc k hk, List.getElem?_eq_getElem hk]
    rfl
  have hcause : more = 0 ∧ (tot < xs.length →
      freeBlocks sb d' = 0 ∧ lookup d' (dinode sb d' i) ((off + tot) / BSIZE) = 0) := by
    rcases hend.cause with hall | ⟨hmore, hfree, hhole⟩ | ⟨hlt, hnone, -⟩
    · exact ⟨by omega, fun hlt ↦ by omega⟩
    · exact ⟨hmore, fun _ ↦ ⟨hfree, hhole⟩⟩
    · rw [hsrc _ hlt, hbyte _ hlt] at hnone
      cases hnone
  obtain ⟨rfl, hcause⟩ := hcause
  have hlen : (xs.take tot).length = tot := by
    rw [List.length_take]
    omega
  refine ⟨tot, d', hwi, ⟨hw.ownership, ?_, ?_, hw.type, hw.nlink, hw.others⟩,
    ⟨by omega, fun hlt ↦ (hcause hlt).1, fun hlt ↦ (hcause hlt).2, hend.edge⟩, ?_⟩
  · apply hw.content h hi ht hoff hlen
    intro k hk
    rw [List.getElem?_take_of_lt hk]
    exact hbyte k (by omega)
  · rw [hlen]
    exact hw.size
  · intro a b hlo hhi
    have hb : off + xs.length ≤ b * BSIZE := by
      simp only [BSIZE] at hhi ⊢
      omega
    apply hw.paid a b hlo (by omega)
    intro hlt
    apply (Nat.div_lt_iff_lt_mul (show 0 < BSIZE by decide)).mpr
    omega

end Xv6.Fs
