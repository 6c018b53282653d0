import Xv6.Mkfs.Model

/-!
# The image builder and the kernel allocate alike

Give an unfinished image the free map that `balloc` of `mkfs` would write now. On that disk, taking
the next block number is what `balloc` of the kernel does, and an iteration of `iappend` is one of
the loop of `writei`. What is proved about the kernel's functions holds of the image builder's.
-/

namespace Xv6.Mkfs

open Xv6.Lib Xv6.Fs Xv6.Dir

@[simp] theorem sb_size : sb.size = 2000 := by decide +kernel
@[simp] theorem sb_ninodes : sb.ninodes = 200 := by decide +kernel
@[simp] theorem sb_inodestart : sb.inodestart = 32 := by decide +kernel
@[simp] theorem sb_bmapstart : sb.bmapstart = 45 := by decide +kernel
@[simp] theorem sb_nmeta : sb.nmeta = 46 := by decide +kernel
@[simp] theorem nmeta_eq : nmeta = 46 := by decide +kernel

theorem isData_iff {b : Nat} : sb.IsData b ↔ 46 ≤ b ∧ b < 2000 := by
  rw [Super.IsData, sb_nmeta, sb_size]

theorem position_eq {sec : Nat} (h : sec < 2 ^ 22) : position sec = sec := by
  simp only [position, BSIZE]
  omega

/-! ### The free map -/

theorem firstBits_succ (n : Nat) : firstBits (n + 1) = markBit (firstBits n) n := by
  rw [firstBits, List.range_succ, List.foldl_append]
  rfl

theorem usedBit_firstBits (n b : Nat) : usedBit (firstBits n) b = decide (b < n) := by
  induction n with
  | zero => simp [firstBits, usedBit, zeroBlock]
  | succ n ih =>
    rw [firstBits_succ, usedBit_markBit, ih]
    split
    · next heq =>
      rw [heq]
      simp
    · next hne =>
      apply decide_eq_decide.mpr
      omega

/-- The image with the free map of the blocks that are taken. -/
def marked (st : State) : Disk := Function.update st.sect sb.bmapstart (firstBits st.freeblock)

/-- The blocks that are taken. -/
def Taken (st : State) (b : Nat) : Prop := 46 ≤ b ∧ b < st.freeblock

/-- An image under construction: it has its length and its superblock, and the blocks that are not
taken are zero. -/
structure Laid (st : State) : Prop where
  nsect : st.nsect = FSSIZE
  lo : 46 ≤ st.freeblock
  hi : st.freeblock ≤ FSSIZE
  super : st.sect 1 = superblock.store
  zero : ∀ b, st.freeblock ≤ b → b < FSSIZE → st.sect b = zeroBlock

variable {st st' : State} {inode : Nat → Dinode}

theorem marked_of_ne {b : Nat} (h : b ≠ 45) : marked st b = st.sect b :=
  Function.update_of_ne (by rw [sb_bmapstart]; exact h) _ _

theorem used_marked {b : Nat} (hb : b < 8192) :
    used sb (marked st) b = decide (b < st.freeblock) := by
  have hblk : sb.bblock b = sb.bmapstart := by
    simp only [Super.bblock, BPB, BSIZE]
    omega
  have hmod : b % BPB = b := Nat.mod_eq_of_lt (by simp only [BPB, BSIZE]; omega)
  rw [used, hblk, marked, Function.update_self, hmod, usedBit_firstBits]

/-- A block that an inode points to is taken. -/
theorem taken_of_used {b : Nat} (h : sb.IsData b ∧ used sb (marked st) b = true) : Taken st b := by
  obtain ⟨hlo, hhi⟩ := isData_iff.mp h.1
  rw [used_marked (by omega)] at h
  exact ⟨hlo, of_decide_eq_true h.2⟩

theorem rsect_ok (h : Laid st) {b : Nat} (hb : b < FSSIZE) : rsect b st = .ok (st.sect b) := by
  have hpos : position b = b := position_eq (by simp only [FSSIZE] at hb; omega)
  rw [rsect, hpos, h.nsect, if_pos hb]

theorem rsect_error (hn : st.nsect = FSSIZE) {b : Nat} (hlo : FSSIZE ≤ b) (hhi : b < 2 ^ 22) :
    rsect b st = .error (.die "read") := by
  rw [rsect, position_eq hhi, hn, if_neg (by omega)]

/-- Storing in a block that is taken. -/
theorem Laid.store (h : Laid st) {b : Nat} (hb : Taken st b) (blk : Block) :
    Laid (wsect b blk st) ∧ marked (wsect b blk st) = Function.update (marked st) b blk := by
  have hlt := lt_of_lt_of_le hb.2 h.hi
  have hlo := hb.1
  have hpos : position b = b := position_eq (by simp only [FSSIZE] at hlt; omega)
  refine ⟨⟨?_, h.lo, h.hi, ?_, ?_⟩, ?_⟩
  · change max st.nsect (position b + 1) = FSSIZE
    rw [hpos, h.nsect]
    omega
  · change Function.update st.sect (position b) blk 1 = _
    rw [hpos, Function.update_of_ne (by omega)]
    exact h.super
  · intro b' hge hlt'
    have := hb.2
    change Function.update st.sect (position b) blk b' = _
    change st.freeblock ≤ b' at hge
    rw [hpos, Function.update_of_ne (by omega)]
    exact h.zero b' hge hlt'
  · change Function.update (Function.update st.sect (position b) blk) _ _ = _
    rw [hpos, marked, Function.update_comm (by rw [sb_bmapstart]; omega)]
    rfl

/-- Taking a block. -/
theorem Laid.take (h : Laid st) (hlt : st.freeblock < FSSIZE) :
    takeBlock st = (st.freeblock, { st with freeblock := st.freeblock + 1 }) ∧
      Laid { st with freeblock := st.freeblock + 1 } ∧
      Fs.balloc sb (marked st) =
        (st.freeblock, marked { st with freeblock := st.freeblock + 1 }) := by
  have hlo := h.lo
  have hsize : st.freeblock < 2000 := hlt
  have hx : xint st.freeblock = st.freeblock := xint_eq (by omega)
  have hlaid : Laid { st with freeblock := st.freeblock + 1 } := by
    refine ⟨h.nsect, ?_, hlt, h.super, ?_⟩
    · exact Nat.le_succ_of_le hlo
    · intro b hge hb
      exact h.zero b (Nat.le_of_succ_le hge) hb
  refine ⟨by rw [takeBlock, hx], hlaid, ?_⟩
  have hmeta (b : Nat) (hb : b < sb.nmeta) : used sb (marked st) b = true := by
    rw [sb_nmeta] at hb
    rw [used_marked (by omega)]
    exact decide_eq_true (by omega)
  rcases balloc_cases hmeta with ⟨-, hall⟩ | ⟨b, hb, hdata, hfree, hbefore⟩
  · have := hall st.freeblock (by rw [sb_size]; exact hlt)
    rw [used_marked (by omega)] at this
    simp at this
  · -- the least block that is not marked is the next one
    have heq : b = st.freeblock := by
      have hlt' := (isData_iff.mp hdata).2
      rw [used_marked (by omega)] at hfree
      have hge := of_decide_eq_false hfree
      by_contra hne
      have := hbefore st.freeblock (by omega)
      rw [used_marked (by omega)] at this
      simp at this
    rw [hb, heq]
    have hblk : sb.bblock st.freeblock = sb.bmapstart := by
      simp only [Super.bblock, BPB, BSIZE]
      omega
    have hmod : st.freeblock % BPB = st.freeblock :=
      Nat.mod_eq_of_lt (by simp only [BPB, BSIZE]; omega)
    have hmark :
        mark sb st.freeblock (marked st) = marked { st with freeblock := st.freeblock + 1 } := by
      rw [mark, hblk, hmod, marked, Function.update_self, Function.update_idem, marked,
        firstBits_succ]
    have hzero : marked { st with freeblock := st.freeblock + 1 } st.freeblock = zeroBlock := by
      rw [marked_of_ne (by omega)]
      exact h.zero _ (le_refl _) hlt
    rw [hmark, bzero, Function.update_eq_self_iff.mpr hzero.symm]

/-! ### The block of an index -/

/-- Some blocks more are taken, `n` at most. -/
structure Grown (n : Nat) (st st' : State) : Prop where
  laid : Laid st'
  inum : st'.freeinode = st.freeinode
  lo : st.freeblock ≤ st'.freeblock
  hi : st'.freeblock ≤ st.freeblock + n

theorem Grown.trans {m n : Nat} {st₁ st₂ st₃ : State} (h : Grown m st₁ st₂) (h' : Grown n st₂ st₃) :
    Grown (m + n) st₁ st₃ where
  laid := h'.laid
  inum := h'.inum.trans h.inum
  lo := le_trans h.lo h'.lo
  hi := by
    have := h.hi
    have := h'.hi
    omega

theorem Laid.grown (h : Laid st) (n : Nat) : Grown n st st :=
  ⟨h, rfl, le_refl _, Nat.le_add_right _ _⟩

theorem xint_fssize : xint FSSIZE = FSSIZE := xint_eq (by decide)

/-- The number beyond the last block. -/
theorem takeBlock_full (h : st.freeblock = FSSIZE) :
    takeBlock st = (FSSIZE, { st with freeblock := FSSIZE + 1 }) := by
  rw [takeBlock, h, xint_fssize]

section
variable {din : Dinode}

theorem iappendDirect_cases (h : Laid st) (hv : din.Valid) (k : Fin NDIRECT) :
    (∃ x din' st', iappendDirect din k st = (x, din', st') ∧
      bmapDirect sb din k (marked st) = (x, din', marked st') ∧ x ≠ 0 ∧ Grown 2 st st') ∨
    st.freeblock = FSSIZE ∧ ∃ din' st', iappendDirect din k st = (FSSIZE, din', st') ∧
      st'.nsect = FSSIZE := by
  have hx : xint (din.addrs k.castSucc) = din.addrs k.castSucc := xint_eq (hv.addrs _)
  rw [iappendDirect, bmapDirect, hx]
  by_cases hz : din.addrs k.castSucc = 0
  · have hset (b : Nat) : (din.setAddr k.castSucc b).addrs k.castSucc = b :=
      Function.update_self _ _ _
    rw [if_pos hz, if_pos hz]
    by_cases hfull : st.freeblock = FSSIZE
    · refine Or.inr ⟨hfull, din.setAddr k.castSucc FSSIZE, { st with freeblock := FSSIZE + 1 }, ?_,
        h.nsect⟩
      simp only [takeBlock_full hfull, hset, xint_fssize]
    · obtain ⟨htake, hlaid, hballoc⟩ := h.take (lt_of_le_of_ne h.hi hfull)
      have hlo := h.lo
      have hhi := h.hi
      have hfb : xint st.freeblock = st.freeblock :=
        xint_eq (by simp only [FSSIZE] at hhi; omega)
      refine Or.inl
        ⟨st.freeblock, din.setAddr k.castSucc st.freeblock, _, ?_, ?_, by omega, hlaid, rfl,
          Nat.le_succ _, ?_⟩
      · simp only [htake, hset, hfb]
      · simp only [hballoc]
        rw [if_neg (by omega)]
      · exact Nat.add_le_add_left (by decide) _
  · rw [if_neg hz, if_neg hz]
    exact Or.inl ⟨_, _, _, rfl, rfl, hz, h.grown 2⟩

theorem iappendIndirect_cases (h : Laid st) (hv : din.Valid)
    (hind : din.indirect ≠ 0 → Taken st din.indirect) :
    (∃ din' st', iappendIndirect din st = (din', st') ∧
      bmapIndirect sb din (marked st) = (din'.indirect, din', marked st') ∧
      Taken st' din'.indirect ∧
      Grown 1 st st') ∨
    st.freeblock = FSSIZE ∧ ∃ din' st', iappendIndirect din st = (din', st') ∧
      xint din'.indirect = FSSIZE ∧ st'.nsect = FSSIZE := by
  have hx : xint din.indirect = din.indirect := xint_eq (hv.addrs _)
  rw [iappendIndirect, bmapIndirect, hx]
  by_cases hz : din.indirect = 0
  · have hset (b : Nat) : (din.setAddr (Fin.last NDIRECT) b).indirect = b := by
      simp only [Dinode.indirect, Dinode.setAddr, Function.update_self]
    rw [if_pos hz, if_pos hz]
    by_cases hfull : st.freeblock = FSSIZE
    · rw [takeBlock_full hfull]
      refine Or.inr ⟨hfull, _, _, rfl, ?_, h.nsect⟩
      rw [hset, xint_fssize]
    · obtain ⟨htake, hlaid, hballoc⟩ := h.take (lt_of_le_of_ne h.hi hfull)
      have hlo := h.lo
      refine Or.inl ⟨din.setAddr (Fin.last NDIRECT) st.freeblock, _, ?_, ?_, ?_, hlaid, rfl,
        Nat.le_succ _, le_refl _⟩
      · simp only [htake]
      · simp only [hballoc, hset]
        rw [if_neg (by omega)]
      · rw [hset]
        exact ⟨hlo, Nat.lt_succ_self _⟩
  · rw [if_neg hz, if_neg hz]
    exact Or.inl ⟨_, _, rfl, rfl, hind hz, h.grown 1⟩

theorem iappendEntry_cases (h : Laid st) {ind : Nat} (hind : Taken st ind) (j : Nat) :
    (∃ x st', iappendEntry ind j st = .ok (x, st') ∧
      bmapEntry sb ind j (marked st) = (x, marked st') ∧ x ≠ 0 ∧ Grown 1 st st') ∨
    st.freeblock = FSSIZE ∧ ∃ st', iappendEntry ind j st = .ok (FSSIZE, st') ∧
    st'.nsect = FSSIZE := by
  have hlt := lt_of_lt_of_le hind.2 h.hi
  have hne : ind ≠ 45 := by
    have := hind.1
    omega
  have hx : xint (word (st.sect ind) j) = word (st.sect ind) j := xint_eq (word_lt _ _)
  have hset {v : Nat} (hv : v < 2 ^ 32) : word (setWord (st.sect ind) j v) j = v := by
    rw [word_setWord _ hv, if_pos rfl]
  rw [iappendEntry, rsect_ok h hlt, bmapEntry, marked_of_ne hne]
  simp only [bind, Except.bind]
  by_cases hz : word (st.sect ind) j = 0
  · rw [if_pos hz, if_pos hz]
    by_cases hfull : st.freeblock = FSSIZE
    · have hfits : FSSIZE < 2 ^ 32 := by decide
      rw [takeBlock_full hfull]
      simp only [hset hfits, xint_fssize]
      refine Or.inr ⟨hfull, _, rfl, ?_⟩
      · change max st.nsect (position ind + 1) = FSSIZE
        rw [h.nsect, position_eq (by simp only [FSSIZE] at hlt; omega)]
        omega
    · have hfb : st.freeblock < FSSIZE := lt_of_le_of_ne h.hi hfull
      have hlo := h.lo
      have hsmall : st.freeblock < 2 ^ 32 := by
        simp only [FSSIZE] at hfb
        omega
      obtain ⟨htake, hlaid, hballoc⟩ := h.take hfb
      obtain ⟨hstore, hmarked⟩ := hlaid.store (b := ind) ⟨hind.1, Nat.lt_succ_of_lt hind.2⟩
        (setWord (st.sect ind) j st.freeblock)
      refine Or.inl ⟨st.freeblock, _, ?_, ?_, by omega, hstore, rfl, Nat.le_succ _, le_refl _⟩
      · simp only [htake]
        rw [hset hsmall, xint_eq hsmall]
        rfl
      · simp only [hballoc]
        rw [if_neg (by omega), hmarked, marked_of_ne hne]
  · rw [if_neg hz, if_neg hz, hx]
    exact Or.inl ⟨_, _, rfl, rfl, hz, h.grown 1⟩

/-- The block of an index is the one that `bmap` gives; if there is none left, reading it fails. -/
theorem iappendBlock_cases (h : Laid st) (hv : din.Valid)
    (hind : din.indirect ≠ 0 → Taken st din.indirect) {fbn : Nat} (hfbn : fbn < MAXFILE) :
    (∃ x din' st', iappendBlock din fbn st = .ok (x, din', st') ∧
      bmap sb din fbn (marked st) = .ok (x, din', marked st') ∧ x ≠ 0 ∧ Grown 2 st st') ∨
    FSSIZE < st.freeblock + 2 ∧ ((∃ e, iappendBlock din fbn st = .error e) ∨
      ∃ din' st', iappendBlock din fbn st = .ok (FSSIZE, din', st') ∧ st'.nsect = FSSIZE) := by
  unfold iappendBlock bmap
  split
  · next hlt =>
    rcases iappendDirect_cases h hv ⟨fbn, hlt⟩ with
      ⟨x, din', st', hi, hb, hx, hg⟩ | ⟨hfull, din', st', hi, hn⟩
    · rw [hi, hb]
      exact Or.inl ⟨x, din', st', rfl, rfl, hx, hg⟩
    · rw [hi]
      exact Or.inr ⟨by omega, Or.inr ⟨din', st', rfl, hn⟩⟩
  · next hge =>
    have hj : fbn - NDIRECT < NINDIRECT := by
      simp only [MAXFILE] at hfbn
      omega
    rw [if_pos hj]
    rcases iappendIndirect_cases h hv hind with
      ⟨din', st', hi, hb, ht, hg⟩ | ⟨hfull, din', st', hi, hx, hn⟩
    · have hlt := lt_of_lt_of_le ht.2 hg.laid.hi
      have hx : xint din'.indirect = din'.indirect :=
        xint_eq (by simp only [FSSIZE] at hlt; omega)
      have hne : din'.indirect ≠ 0 := by
        have := ht.1
        omega
      simp only [hi, hb, hx]
      rw [if_neg hne]
      rcases iappendEntry_cases hg.laid ht (fbn - NDIRECT) with
        ⟨x, st₂, he, hbe, hx', hg'⟩ | ⟨hfull, st₂, he, hn⟩
      · rw [he, hbe]
        exact Or.inl ⟨x, din', st₂, rfl, rfl, hx', hg.trans hg'⟩
      · rw [he]
        have := hg.hi
        exact Or.inr ⟨by omega, Or.inr ⟨din', st₂, rfl, hn⟩⟩
    · refine Or.inr ⟨by omega, Or.inl ⟨.die "read", ?_⟩⟩
      simp only [hi, hx, iappendEntry]
      rw [rsect_error hn (le_refl _) (by decide)]
      rfl

end

/-! ### Appending -/

theorem taken_lookup (h : Owned sb (marked st) inode 0) {i k : Nat} (hi : i < sb.ninodes)
    (ht : (inode i).type ≠ 0) (hk : lookup (marked st) (inode i) k ≠ 0) :
    Taken st (lookup (marked st) (inode i) k) := by
  have hdata := dataRefs_lookup hk
  have hle := le_totalRefs (marked st) inode hi (lookup (marked st) (inode i) k)
  rw [liveRefs, if_neg ht, refs] at hle
  exact taken_of_used (h.isData hk (by omega))

theorem taken_indirect (h : Owned sb (marked st) inode 0) {i : Nat} (hi : i < sb.ninodes)
    (ht : (inode i).type ≠ 0) (hind : (inode i).indirect ≠ 0) : Taken st (inode i).indirect :=
  taken_of_used (h.isData hind (h.indirect_isData hi ht hind).2)

/-- The bytes that `either_copyin` takes from a buffer. -/
theorem eitherCopyin_list (xs : List UInt8) {tot m : Nat} (h : tot + m ≤ xs.length) :
    eitherCopyin (fun k ↦ xs[k]?) tot m = ((xs.drop tot).take m, true) := by
  induction m generalizing tot with
  | zero => rfl
  | succ m ih =>
    have hlt : tot < xs.length := by omega
    rw [eitherCopyin, List.getElem?_eq_getElem hlt]
    dsimp only
    rw [ih (by omega), List.drop_eq_getElem_cons hlt, List.take_succ_cons]

/-- The number of blocks that `n` bytes from offset `off` on touch. -/
def touched (off n : Nat) : Nat := if n = 0 then 0 else (off + n - 1) / BSIZE - off / BSIZE + 1

theorem touched_step {off n m : Nat} (hm : m = min n (BSIZE - off % BSIZE)) (hn : 0 < n) :
    1 + touched (off + m) (n - m) = touched off n := by
  simp only [touched, BSIZE] at hm ⊢
  rw [if_neg (show n ≠ 0 by omega)]
  split <;> omega

section
variable {d₀ : Disk} {inode₀ : Nat → Dinode} {i : Nat} {din : Dinode}

/-- The loop of `iappend` does what the loop of `writei` does, or fails for lack of blocks or
because the file is too large. -/
theorem iappendLoop_cases (hi : i < sb.ninodes) (ht : (inode₀ i).type ≠ 0) (xs : List UInt8)
    {fuel tot off : Nat} (hw : Writing sb d₀ inode₀ i din (marked st)) (h : Laid st)
    (hfuel : xs.length ≤ fuel + tot) (htot : tot ≤ xs.length) (hoff : off ≤ MAXFILE * BSIZE) :
    (∃ din' st', iappendLoop fuel (xs.drop tot) off din st =
      .ok (off + (xs.length - tot), din', st') ∧
      writeLoop sb (fun k ↦ xs[k]?) xs.length fuel tot off din (marked st) =
        .ok (xs.length, off + (xs.length - tot), din', marked st') ∧
      Writing sb d₀ inode₀ i din' (marked st') ∧ off + (xs.length - tot) ≤ MAXFILE * BSIZE ∧
      (∀ k, off + (xs.length - tot) ≤ k * BSIZE →
        lookup (marked st') din' k = lookup (marked st) din k) ∧
      Grown (2 * touched off (xs.length - tot)) st st') ∨
    (∃ e, iappendLoop fuel (xs.drop tot) off din st = .error e) ∧
      (MAXFILE * BSIZE < off + (xs.length - tot) ∨
        FSSIZE < st.freeblock + 2 * touched off (xs.length - tot)) := by
  induction fuel generalizing tot off din st with
  | zero =>
    have hend : xs.length - tot = 0 := by omega
    rw [hend, Nat.add_zero, show tot = xs.length by omega]
    exact Or.inl ⟨din, st, rfl, rfl, hw, hoff, fun _ _ ↦ rfl, h.grown _⟩
  | succ fuel ih =>
    rw [iappendLoop, writeLoop, List.length_drop]
    by_cases hlt : tot < xs.length
    · have hself : Function.update inode₀ i din i = din := Function.update_self _ _ _
      have hmod : off - off / BSIZE * BSIZE = off % BSIZE ∧
          (off / BSIZE + 1) * BSIZE - off = BSIZE - off % BSIZE := by
        simp only [BSIZE]
        omega
      rw [if_pos (show 0 < xs.length - tot by omega), if_pos hlt]
      simp only [hmod.1, hmod.2]
      generalize hn1 : min (xs.length - tot) (BSIZE - off % BSIZE) = n1
      have hstep := touched_step hn1.symm (show 0 < xs.length - tot by omega)
      have hpos : off % BSIZE < BSIZE := Nat.mod_lt _ (by decide)
      have hrest : xs.length - tot - n1 = xs.length - (tot + n1) := by omega
      rw [hrest] at hstep
      by_cases hfbn : off / BSIZE < MAXFILE
      · have hnot : ¬ ¬ off / BSIZE < MAXFILE := not_not.mpr hfbn
        rw [if_neg hnot]
        have hv : din.Valid := by
          have := hw.owned.valid i
          rwa [hself] at this
        have hind (hne : din.indirect ≠ 0) : Taken st din.indirect := by
          have := taken_indirect hw.owned hi (hw.type hi ht)
          rw [hself] at this
          exact this hne
        rcases iappendBlock_cases h hv hind hfbn with
          ⟨x, din₁, st₁, hblk, hmap, hx, hg⟩ | ⟨hfull, hfail⟩
        · obtain ⟨addr, ip', d', hmap', hw₁, hm⟩ := hw.bmap hi ht hfbn
          rw [hmap] at hmap'
          cases hmap'
          have hself₁ : Function.update inode₀ i din₁ i = din₁ := Function.update_self _ _ _
          have hfound := hm.found
          have hx' : lookup (marked st₁) din₁ (off / BSIZE) ≠ 0 := by
            rw [hfound]
            exact hx
          have htaken : Taken st₁ x := by
            have := taken_lookup hw₁.owned hi (hw₁.type hi ht) (k := off / BSIZE)
            rw [hself₁, hfound] at this
            exact this hx
          have hread := rsect_ok hg.laid (lt_of_lt_of_le htaken.2 hg.laid.hi)
          have hne : x ≠ 45 := by
            have := htaken.1
            omega
          obtain ⟨hlaid₂, hmarked₂⟩ := hg.laid.store htaken
            (overlay (st₁.sect x) (off % BSIZE) ((xs.drop tot).take n1))
          obtain ⟨hw₂, hlookup⟩ := hw₁.store hi ht hx'
            (overlay (st₁.sect x) (off % BSIZE) ((xs.drop tot).take n1))
          rw [hfound, ← hmarked₂] at hw₂ hlookup
          have hothers := hm.others
          rw [hself] at hothers
          have hfit : off + n1 ≤ MAXFILE * BSIZE := by
            have := Nat.div_add_mod off BSIZE
            have hle : (off / BSIZE + 1) * BSIZE ≤ MAXFILE * BSIZE := Nat.mul_le_mul_right _ hfbn
            rw [Nat.add_mul, Nat.mul_comm, Nat.one_mul] at hle
            omega
          have hcopy := eitherCopyin_list xs (show tot + n1 ≤ xs.length by omega)
          rw [hblk, hmap]
          simp only [bind, Except.bind, hread, hx, if_false, hcopy, if_true,
            marked_of_ne hne, ← hmarked₂, pure, Except.pure, List.drop_drop]
          generalize hst₂ :
            wsect x (overlay (st₁.sect x) (off % BSIZE) ((xs.drop tot).take n1)) st₁ = st₂ at *
          have hg₂ : Grown 2 st st₂ := by
            rw [← hst₂]
            exact ⟨by rw [hst₂]; exact hlaid₂, hg.inum, hg.lo, hg.hi⟩
          have hnext := ih hw₂ hlaid₂ (show xs.length ≤ fuel + (tot + n1) by omega) (by omega) hfit
          rw [show off + n1 + (xs.length - (tot + n1)) = off + (xs.length - tot) by omega] at hnext
          rcases hnext with ⟨din', st', hloop, hwrite, hw', hmax, hbeyond, hg'⟩ | ⟨herr, hwhy⟩
          · refine Or.inl ⟨din', st', hloop, hwrite, hw', hmax, ?_, ?_⟩
            · intro k hk
              rw [hbeyond k hk, hlookup k, hothers k]
              simp only [BSIZE] at hk ⊢
              omega
            have := hg₂.trans hg'
            rwa [show 2 + 2 * touched (off + n1) (xs.length - (tot + n1)) =
              2 * touched off (xs.length - tot) by omega] at this
          · refine Or.inr ⟨herr, ?_⟩
            have := hg₂.hi
            omega
        · refine Or.inr ⟨?_, Or.inr (by omega)⟩
          rcases hfail with ⟨e, he⟩ | ⟨din₁, st₁, he, hn⟩
          · exact ⟨e, by rw [he]; rfl⟩
          · refine ⟨.die "read", ?_⟩
            rw [he]
            simp only [bind, Except.bind, rsect_error hn (le_refl _)
              (show FSSIZE < 2 ^ 22 by decide)]
      · rw [if_pos hfbn]
        refine Or.inr ⟨⟨_, rfl⟩, Or.inl ?_⟩
        have := Nat.div_add_mod off BSIZE
        have hle : MAXFILE * BSIZE ≤ off / BSIZE * BSIZE :=
          Nat.mul_le_mul_right _ (Nat.le_of_not_lt hfbn)
        rw [Nat.mul_comm (off / BSIZE)] at hle
        omega
    · have hend : xs.length - tot = 0 := by omega
      rw [hend, Nat.add_zero, if_neg (by omega), if_neg hlt, show tot = xs.length by omega]
      exact Or.inl ⟨din, st, rfl, rfl, hw, hoff, fun _ _ ↦ rfl, h.grown _⟩

end

end Xv6.Mkfs
