import Xv6.Mkfs.Simulation

/-!
# What an image holds

An image under construction holds a list of files: inode `i + 1` is the `i`th of them, with its type
and its content. `ialloc` adds an empty file to the list and `iappend` adds bytes to one of them.
They fail for lack of blocks or because a file is too large, and for no other reason.
-/

namespace Xv6.Mkfs

open Xv6.Lib Xv6.Fs Xv6.Dir

/-- The type and the content of a file. -/
structure FileImage where
  type : Nat
  bytes : List UInt8

/-- `iappend` to the file at index `i`. -/
def appendAt (cs : List FileImage) (i : Nat) (xs : List UInt8) : List FileImage :=
  cs.modify i (fun c ↦ { c with bytes := c.bytes ++ xs })

/-- There are no direct blocks beyond the size. -/
def Trim (ip : Dinode) : Prop := ∀ k : Fin NDIRECT, ip.size ≤ k * BSIZE → ip.addrs k.castSucc = 0

/-- The image holds the files `cs`, and has inode numbers for them. -/
structure Holds (st : State) (cs : List FileImage) : Prop where
  laid : Laid st
  ownership : BlockOwnership sb (marked st)
  count : st.freeinode = cs.length + 1
  room : cs.length < 200
  types : ∀ c ∈ cs, c.type ≠ 0
  inodes : ∀ i (hi : i < cs.length), (dinode sb (marked st) (i + 1)).type = cs[i].type ∧
    (dinode sb (marked st) (i + 1)).nlink = 1 ∧ content sb (marked st) (i + 1) = cs[i].bytes
  trim : ∀ i, i < cs.length → Trim (dinode sb (marked st) (i + 1))
  free : ∀ i, i < 200 → i = 0 ∨ cs.length < i → (dinode sb (marked st) i).type = 0

variable {st st' : State} {cs : List FileImage}

/-! ### Inodes -/

theorem iblock_bounds {inum : Nat} (h : inum < 200) :
    32 ≤ sb.iblock inum ∧ sb.iblock inum < 45 := by
  simp only [Super.iblock, IPB, BSIZE, sb_inodestart]
  omega

theorem Laid.rinode (h : Laid st) {inum : Nat} (hi : inum < 200) :
    rinode inum st = .ok (dinode sb (marked st) inum) := by
  have hb := iblock_bounds hi
  rw [Mkfs.rinode, rsect_ok h (by simp only [FSSIZE]; omega), dinode, marked_of_ne (by omega)]
  rfl

theorem Laid.winode (h : Laid st) {inum : Nat} (hi : inum < 200) (ip : Dinode) :
    ∃ st', winode inum ip st = .ok st' ∧ Laid st' ∧ st'.freeinode = st.freeinode ∧
      st'.freeblock = st.freeblock ∧ marked st' = iupdate sb inum ip (marked st) := by
  have hb := iblock_bounds hi
  have hlo := h.lo
  have hpos : position (sb.iblock inum) = sb.iblock inum := position_eq (by omega)
  refine ⟨wsect (sb.iblock inum) (setDinode (st.sect (sb.iblock inum)) (inum % IPB * 64) ip) st, ?_,
    ⟨?_, h.lo, h.hi, ?_, ?_⟩, rfl, rfl, ?_⟩
  · rw [Mkfs.winode, rsect_ok h (by simp only [FSSIZE]; omega)]
    rfl
  · change max st.nsect (position (sb.iblock inum) + 1) = FSSIZE
    rw [hpos, h.nsect]
    simp only [FSSIZE]
    omega
  · simp only [wsect, hpos]
    rw [Function.update_of_ne (by omega)]
    exact h.super
  · intro b hge hlt
    simp only [wsect, hpos] at hge ⊢
    rw [Function.update_of_ne (by omega)]
    exact h.zero b hge hlt
  · rw [iupdate, marked_of_ne (by omega)]
    simp only [marked, wsect, hpos]
    rw [Function.update_comm]
    rw [sb_bmapstart]
    omega

/-- Replacing an inode leaves the files of the others as they are. -/
theorem content_iupdate {d : Disk} (h : BlockOwnership sb d) {i j : Nat} (hi : i < sb.ninodes)
    (hj : j < sb.ninodes) (hji : j ≠ i) (ht : (dinode sb d j).type ≠ 0) {ip : Dinode}
    (hv : ip.Valid) :
    content sb (iupdate sb i ip d) j = content sb d j := by
  obtain ⟨hown, hfill⟩ := blockOwnership_iff.mp h
  have hd : dinode sb (iupdate sb i ip d) j = dinode sb d j := by rw [dinode_iupdate hv, if_neg hji]
  apply content_congr (by rw [hd])
  intro k hk
  rw [hd]
  exact fileByte_iupdate hown hi hj ht ip (hfill.lookup_ne_zero hj ht hk)

theorem newInode_eq {type : Nat} (ht : type < 2 ^ 16) :
    newInode type = ⟨type, 0, 0, 1, 0, fun _ ↦ 0⟩ := by
  have h₁ : xshort 1 = 1 := xshort_eq (by decide)
  have h₀ : xint 0 = 0 := xint_eq (by decide)
  rw [newInode, xshort_eq ht, h₁, h₀]

theorem newInode_valid {type : Nat} (ht : type < 2 ^ 16) : (newInode type).Valid := by
  rw [newInode_eq ht]
  exact ⟨ht, by simp, by simp, by simp, by simp, fun _ ↦ by simp⟩

/-- `ialloc` adds an empty file. -/
theorem Holds.ialloc (h : Holds st cs) (hroom : cs.length + 1 < 200) {type : Nat} (hne : type ≠ 0)
    (ht : type < 2 ^ 16) :
    ∃ st', ialloc type st = .ok (cs.length + 1, st') ∧ Holds st' (cs ++ [⟨type, []⟩]) ∧
      st'.freeblock = st.freeblock := by
  have hlaid : Laid { st with freeinode := st.freeinode + 1 } :=
    ⟨h.laid.nsect, h.laid.lo, h.laid.hi, h.laid.super, h.laid.zero⟩
  obtain ⟨st', hst', hlaid', hino, hblk, hmarked⟩ := hlaid.winode hroom (newInode type)
  have hmarked' : marked st' = iupdate sb (cs.length + 1) (newInode type) (marked st) := hmarked
  have hv := newInode_valid ht
  have hi : cs.length + 1 < sb.ninodes := by
    rw [sb_ninodes]
    exact hroom
  have hfree := h.free (cs.length + 1) hroom (Or.inr (Nat.lt_succ_self _))
  have hsize : (newInode type).size = 0 := xint_eq (by decide)
  obtain ⟨hown, hfill⟩ := blockOwnership_iff.mp h.ownership
  have hnew := owned_replace hown hfill hi hv (fun _ _ ↦ if_pos hfree) (by
    intro b hb
    rw [liveRefs]
    split
    · rfl
    · exact refs_of_null (fun _ ↦ rfl) hb) hsize
  have hd (j : Nat) : dinode sb (marked st') j =
      if j = cs.length + 1 then newInode type else dinode sb (marked st) j := by
    rw [hmarked', dinode_iupdate hv]
  refine ⟨st', ?_, ⟨hlaid', ?_, ?_, ?_, ?_, ?_, ?_, ?_⟩, hblk⟩
  · rw [Mkfs.ialloc, h.count] at *
    simp only [bind, Except.bind, hst']
    rfl
  · rw [hmarked']
    exact blockOwnership_iff.mpr hnew
  · rw [hino, List.length_append]
    change st.freeinode + 1 = _
    rw [h.count]
    rfl
  · rw [List.length_append]
    exact hroom
  · intro c hc
    rcases List.mem_append.mp hc with hc | hc
    · exact h.types c hc
    · rw [List.mem_singleton.mp hc]
      exact hne
  · intro i hi'
    rw [List.length_append, List.length_singleton] at hi'
    rw [hd]
    by_cases hlast : i = cs.length
    · subst hlast
      rw [if_pos rfl, List.getElem_append_right (le_refl _)]
      refine ⟨?_, ?_, ?_⟩
      · simp only [newInode, xshort_eq ht, Nat.sub_self, List.getElem_cons_zero]
      · exact xshort_eq (by decide)
      · have hlen := length_content sb (marked st') (cs.length + 1)
        rw [hd, if_pos rfl, hsize] at hlen
        rw [List.length_eq_zero_iff.mp hlen]
        simp
    · have hlt : i < cs.length := by omega
      obtain ⟨htype, hnlink, hcontent⟩ := h.inodes i hlt
      rw [if_neg (by omega), List.getElem_append_left hlt]
      refine ⟨htype, hnlink, ?_⟩
      rw [hmarked', content_iupdate h.ownership hi (by rw [sb_ninodes]; omega) (by omega) _ hv]
      · exact hcontent
      · rw [htype]
        exact h.types _ (List.getElem_mem hlt)
  · intro i hi'
    rw [List.length_append, List.length_singleton] at hi'
    rw [hd]
    split
    · exact fun _ _ ↦ rfl
    · exact h.trim i (by omega)
  · intro i hi' hout
    rw [List.length_append, List.length_singleton] at hout
    rw [hd, if_neg (by omega)]
    exact h.free i hi' (by omega)

/-! ### Appending -/

theorem splice_end (c xs : List UInt8) : splice c c.length xs = c ++ xs := by
  rw [splice, List.take_length, List.drop_of_length_le (Nat.le_add_right _ _), List.append_nil]

theorem length_appendAt (cs : List FileImage) (i : Nat) (xs : List UInt8) :
    (appendAt cs i xs).length = cs.length := List.length_modify _ _ _

theorem getElem_appendAt {i j : Nat} {xs : List UInt8} (hj : j < (appendAt cs i xs).length)
    (hj' : j < cs.length) : (appendAt cs i xs)[j] =
      if i = j then { cs[j] with bytes := cs[j].bytes ++ xs } else cs[j] :=
  List.getElem_modify _ _ _ _ hj

theorem size_le_max (h : Holds st cs) {i : Nat} (hi : i < cs.length) :
    (dinode sb (marked st) (i + 1)).size = cs[i].bytes.length ∧
      cs[i].bytes.length ≤ MAXFILE * BSIZE := by
  obtain ⟨htype, -, hcontent⟩ := h.inodes i hi
  have hlen := length_content sb (marked st) (i + 1)
  rw [hcontent] at hlen
  refine ⟨hlen.symm, ?_⟩
  by_contra hgt
  have hroom := h.room
  -- a file of more bytes has a block at an index that no file has
  have hne := (blockOwnership_iff.mp h.ownership).2 (i + 1) (by rw [sb_ninodes]; omega)
    (by rw [htype]; exact h.types _ (List.getElem_mem hi)) MAXFILE (by omega)
  exact absurd (lt_maxfile hne) (lt_irrefl _)

/-- What is left after a write to the file at index `i`. -/
theorem Holds.written (h : Holds st cs) {i : Nat} (hi : i < cs.length) {xs : List UInt8}
    (hlaid : Laid st') (hino : st'.freeinode = st.freeinode)
    (hw : Written sb (marked st) (i + 1) (dinode sb (marked st) (i + 1)).size xs (marked st'))
    (htrim : Trim (dinode sb (marked st') (i + 1))) : Holds st' (appendAt cs i xs) := by
  have hroom := h.room
  have hlen := length_appendAt cs i xs
  refine ⟨hlaid, hw.ownership, ?_, ?_, ?_, ?_, ?_, ?_⟩
  · rw [hino, hlen, h.count]
  · rw [hlen]
    exact hroom
  · intro c hc
    obtain ⟨j, hj, rfl⟩ := List.getElem_of_mem hc
    have hj' : j < cs.length := by
      rw [← hlen]
      exact hj
    rw [getElem_appendAt hj hj']
    have hne := h.types _ (List.getElem_mem hj')
    split
    · exact hne
    · exact hne
  · intro j hj
    have hj' : j < cs.length := by
      rw [← hlen]
      exact hj
    obtain ⟨htype, hnlink, hcontent⟩ := h.inodes j hj'
    rw [getElem_appendAt hj hj']
    by_cases hij : i = j
    · subst hij
      rw [if_pos rfl]
      refine ⟨hw.type.trans htype, hw.nlink.trans hnlink, ?_⟩
      rw [hw.content, ← length_content, splice_end, hcontent]
    · rw [if_neg hij]
      obtain ⟨hd, hc⟩ := hw.others (j + 1) (by rw [sb_ninodes]; omega) (by omega)
      refine ⟨by rw [hd]; exact htype, by rw [hd]; exact hnlink, ?_⟩
      rw [hc (by rw [htype]; exact h.types _ (List.getElem_mem hj'))]
      exact hcontent
  · intro j hj
    rw [hlen] at hj
    by_cases hij : i = j
    · rw [← hij]
      exact htrim
    · rw [(hw.others (j + 1) (by rw [sb_ninodes]; omega) (by omega)).1]
      exact h.trim j hj
  · intro j hj hout
    rw [hlen] at hout
    rw [(hw.others j (by rw [sb_ninodes]; exact hj) (by omega)).1]
    exact h.free j hj hout

/-- `iappend` adds bytes to a file, or fails because it would be too large or for lack of blocks. -/
theorem Holds.iappend (h : Holds st cs) {i : Nat} (hi : i < cs.length) (xs : List UInt8) :
    (∃ st', iappend (i + 1) xs st = .ok st' ∧ Holds st' (appendAt cs i xs) ∧
      st'.freeblock ≤ st.freeblock + 2 * touched cs[i].bytes.length xs.length) ∨
    (∃ e, iappend (i + 1) xs st = .error e) ∧ (MAXFILE * BSIZE < cs[i].bytes.length + xs.length ∨
      FSSIZE < st.freeblock + 2 * touched cs[i].bytes.length xs.length) := by
  have hroom := h.room
  have hi' : i + 1 < sb.ninodes := by
    rw [sb_ninodes]
    omega
  have ht : (dinode sb (marked st) (i + 1)).type ≠ 0 := by
    rw [(h.inodes i hi).1]
    exact h.types _ (List.getElem_mem hi)
  obtain ⟨hsize, hmax⟩ := size_le_max h hi
  have hx {n : Nat} (hn : n ≤ MAXFILE * BSIZE) : xint n = n := by
    apply xint_eq
    simp only [MAXFILE, NDIRECT, NINDIRECT, BSIZE] at hn
    omega
  have hown := (blockOwnership_iff.mp h.ownership).1
  have hloop := iappendLoop_cases hi' ht xs (Writing.start hown (i + 1)) h.laid
    (show xs.length ≤ xs.length + 0 from le_refl _) (Nat.zero_le _) hmax
  rw [List.drop_zero, Nat.sub_zero] at hloop
  rw [Mkfs.iappend, h.laid.rinode (by omega)]
  simp only [bind, Except.bind, hsize, hx hmax]
  rcases hloop with ⟨din, st₁, hloop, hwrite, hw, hfit, hbeyond, hg⟩ | ⟨⟨e, he⟩, hwhy⟩
  · obtain ⟨st₂, hst₂, hlaid₂, hino₂, hblk₂, hmarked₂⟩ := hg.laid.winode (show i + 1 < 200 by omega)
      { din with size := cs[i].bytes.length + xs.length }
    have hdin : din.size = cs[i].bytes.length := by
      have := (hw.extend (i + 1) hi' ht).2.2.1
      rwa [Function.update_self, hsize] at this
    have hend : (if cs[i].bytes.length + xs.length > din.size then
        { din with size := cs[i].bytes.length + xs.length } else din) =
        { din with size := cs[i].bytes.length + xs.length } := by
      split
      · rfl
      · next hle =>
        have heq : cs[i].bytes.length + xs.length = din.size := by omega
        rw [heq]
    -- `writei` of the kernel leaves the same disk
    have hwritei :
        writei sb (i + 1) (dinode sb (marked st) (i + 1)) (fun k ↦ xs[k]?) cs[i].bytes.length
        xs.length (marked st) =
        .ok (some xs.length, { din with size := cs[i].bytes.length + xs.length }, marked st₂) := by
      have hlt : cs[i].bytes.length + xs.length < 2 ^ 32 := by
        simp only [MAXFILE, NDIRECT, NINDIRECT, BSIZE] at hfit
        omega
      rw [writei, if_neg (by rw [Nat.mod_eq_of_lt hlt, hsize]; omega), if_neg (by omega), hwrite]
      simp only [bind, Except.bind, hend, hmarked₂]
      rfl
    have hsrc (k : Nat) (_ : k < xs.length) : (fun k ↦ xs[k]?) k = xs[k]? := rfl
    obtain ⟨tot, d', hwi, hwritten, -, -⟩ :=
      writei_written h.ownership hi' ht (le_of_eq hsize.symm) hfit hsrc
    rw [hwritei] at hwi
    simp only [Except.ok.injEq, Prod.mk.injEq, Option.some.injEq] at hwi
    obtain ⟨htot, hdin', hd'⟩ := hwi
    rw [← htot, List.take_length, ← hd', ← hsize] at hwritten
    have htrim : Trim (dinode sb (marked st₂) (i + 1)) := by
      rw [hd', ← hdin']
      intro k hk
      have hdirect (d : Disk) (ip : Dinode) : lookup d ip k = ip.addrs k.castSucc := dif_pos k.isLt
      have hnull := h.trim i hi k
      have := hbeyond k hk
      rw [hdirect, hdirect] at this
      change din.addrs k.castSucc = 0
      rw [this]
      apply hnull
      rw [hsize]
      exact le_trans (Nat.le_add_right _ _) hk
    refine Or.inl ⟨st₂, ?_, h.written hi hlaid₂ (hino₂.trans hg.inum) hwritten htrim, ?_⟩
    · simp only [hloop, hx hfit, hst₂]
    · rw [hblk₂]
      exact hg.hi
  · exact Or.inr ⟨⟨e, by simp only [he]⟩, hwhy⟩

end Xv6.Mkfs
