import Xv6.Fs.Ownership

/-!
# `bmap` keeps block ownership

`balloc` leaves one block marked and pointed to by nobody; each place of `bmap` that calls it
stores the pointer before anything else happens.
-/

namespace Xv6.Fs

open Xv6.Lib

variable {sb : Super} {d d' : Disk} {inode : Nat → Dinode} {b i : Nat}

theorem Extends.refl (sb : Super) (d : Disk) (inode : Nat → Dinode) : Extends sb d inode d inode :=
  fun _ _ _ ↦ ⟨rfl, rfl, rfl, fun _ _ ↦ rfl⟩

theorem Extends.trans {d₁ d₂ d₃ : Disk} {m₁ m₂ m₃ : Nat → Dinode} (h : Extends sb d₁ m₁ d₂ m₂)
    (h' : Extends sb d₂ m₂ d₃ m₃) : Extends sb d₁ m₁ d₃ m₃ := by
  intro i hi ht
  obtain ⟨ht₂, hl₂, hs₂, hk₂⟩ := h i hi ht
  obtain ⟨ht₃, hl₃, hs₃, hk₃⟩ := h' i hi (by rw [ht₂]; exact ht)
  refine ⟨ht₃.trans ht₂, hl₃.trans hl₂, hs₃.trans hs₂, ?_⟩
  intro k hk
  rw [hk₃ k (by rw [hk₂ k hk]; exact hk), hk₂ k hk]

/-- Larger files stay without holes. -/
theorem Extends.filled {inode' : Nat → Dinode} (h : Extends sb d inode d' inode')
    (hf : Filled sb d inode) (htype : ∀ i, i < sb.ninodes → (inode' i).type ≠ 0 →
      (inode i).type ≠ 0) : Filled sb d' inode' := by
  intro i hi ht k hk
  have hti := htype i hi ht
  obtain ⟨-, -, hs, hl⟩ := h i hi hti
  rw [hs] at hk
  have hne := hf i hi hti k hk
  rw [hl k hne]
  exact hne

/-- `balloc` has given out block `b`, which nobody points to yet. -/
structure Fresh (sb : Super) (d : Disk) (inode : Nat → Dinode) (b : Nat) (d' : Disk) : Prop where
  data : sb.IsData b
  zero : d' b = zeroBlock
  free : totalRefs sb d inode b = 0
  owned : Owned sb d' inode b
  other : ∀ x, sb.IsData x → x ≠ b → d' x = d x
  count : freeBlocks sb d = freeBlocks sb d' + 1
  inodes : ∀ j, j < sb.ninodes → d' (sb.iblock j) = d (sb.iblock j)

/-- `balloc` under the ownership invariant. -/
theorem balloc_fresh (h : Owned sb d inode 0) :
    (balloc sb d = (0, d) ∧ freeBlocks sb d = 0) ∨
      ∃ b d', balloc sb d = (b, d') ∧ Fresh sb d inode b d' := by
  rcases balloc_cases h.metadata with ⟨hz, hall⟩ | ⟨b, hb, hdata, hfree, -⟩
  · exact Or.inl ⟨hz, freeBlocks_eq_zero hall⟩
  refine Or.inr ⟨b, _, hb, ?_⟩
  have hne := hdata.ne_zero
  have htotal : totalRefs sb d inode b = 0 := by
    have := h.refs b hne
    rw [if_neg hne, if_neg (by simp [hfree])] at this
    exact this
  have hother (x : Nat) (hx : sb.IsData x) (hxb : x ≠ b) : bzero b (mark sb b d) x = d x := by
    rw [bzero, Function.update_of_ne hxb, mark, Function.update_of_ne (hx.ne_bblock hdata.2)]
  -- the new block is no indirect block, so that zeroing it changes no pointer
  have hrefs (b' : Nat) : totalRefs sb (bzero b (mark sb b d)) inode b' =
      totalRefs sb d inode b' := by
    apply totalRefs_congr
    intro i hi ht hind
    obtain ⟨hd, hpos⟩ := h.indirect_isData hi ht hind
    apply hother _ hd
    intro heq
    rw [heq] at hpos
    omega
  refine ⟨hdata, Function.update_self _ _ _, htotal, ⟨?_, ?_, h.valid⟩, hother,
    freeBlocks_balloc hdata hfree, ?_⟩
  · intro b' hb'
    rw [hrefs]
    have hold := h.refs b' hb'
    by_cases hbb : b' = b
    · rw [hbb, htotal, if_pos rfl, if_pos ⟨hdata, by rw [used_balloc hdata hdata.2, if_pos rfl]⟩]
    · have hmark : (sb.IsData b' ∧ used sb (bzero b (mark sb b d)) b' = true) ↔
          (sb.IsData b' ∧ used sb d b' = true) := by
        apply and_congr_right
        intro hd
        rw [used_balloc hdata hd.2, if_neg hbb]
      rw [if_neg hbb]
      simp only [hmark]
      rw [if_neg hb'] at hold
      exact hold
  · intro b' hb'
    have hlt : b' < sb.size := lt_of_lt_of_le hb' sb.nmeta_le
    rw [used_balloc hdata hlt]
    split
    · rfl
    · exact h.metadata b' hb'
  · intro j hj
    rw [bzero, Function.update_of_ne (hdata.ne_iblock hj).symm, mark,
      Function.update_of_ne (sb.iblock_ne_bblock hj b)]

namespace Fresh

variable (h : Fresh sb d inode b d')

include h

theorem ne_zero : b ≠ 0 := h.data.ne_zero

theorem lt : b < 2 ^ 32 := by
  have h1 := h.data.2
  have h2 := sb.fits
  omega

/-- The indirect blocks are untouched. -/
theorem indirect (hown : Owned sb d inode 0) {j : Nat} (hj : j < sb.ninodes)
    (ht : (inode j).type ≠ 0) (hind : (inode j).indirect ≠ 0) :
    d' (inode j).indirect = d (inode j).indirect := by
  obtain ⟨hd, hpos⟩ := hown.indirect_isData hj ht hind
  apply h.other _ hd
  intro heq
  rw [heq, h.free] at hpos
  omega

theorem lookup_eq (hown : Owned sb d inode 0) {j : Nat} (hj : j < sb.ninodes)
    (ht : (inode j).type ≠ 0) (k : Nat) : lookup d' (inode j) k = lookup d (inode j) k :=
  lookup_congr (h.indirect hown hj ht) k

/-- The contents of files are untouched. -/
theorem kept (hown : Owned sb d inode 0) {j k : Nat} (hj : j < sb.ninodes) (ht : (inode j).type ≠ 0)
    (hk : lookup d (inode j) k ≠ 0) : d' (lookup d (inode j) k) = d (lookup d (inode j) k) := by
  apply h.other _ (hown.lookup_isData hj ht hk)
  intro heq
  have hle := le_totalRefs d inode hj b
  have hdata := dataRefs_lookup hk
  rw [liveRefs, if_neg ht, refs, h.free, ← heq] at hle
  omega

end Fresh

/-! ### Storing the pointer -/

/-- The pending block gets its pointer in inode `i`, which had none there. -/
theorem owned_setAddr (h : Owned sb d inode b) (hi : i < sb.ninodes) (ht : (inode i).type ≠ 0)
    (hb : b < 2 ^ 32) (k : Fin (NDIRECT + 1))
    (hrefs : ∀ b', b' ≠ 0 → refs d ((inode i).setAddr k b) b' =
      refs d (inode i) b' + if b' = b then 1 else 0) :
    Owned sb d (Function.update inode i ((inode i).setAddr k b)) 0 := by
  refine ⟨?_, h.metadata, ?_⟩
  · intro b' hb'
    have hsum := totalRefs_update d inode hi ((inode i).setAddr k b) b'
    have hlive : liveRefs d ((inode i).setAddr k b) b' =
        liveRefs d (inode i) b' + if b' = b then 1 else 0 := by
      rw [liveRefs, liveRefs, if_neg ht, if_neg (show ((inode i).setAddr k b).type ≠ 0 from ht)]
      exact hrefs b' hb'
    rw [if_neg hb', ← h.refs b' hb']
    omega
  · intro j
    by_cases hj : j = i
    · rw [hj, Function.update_self]
      have hv := h.valid i
      refine { hv with addrs := ?_ }
      intro k'
      change Function.update (inode i).addrs k b k' < 2 ^ 32
      by_cases hk : k' = k
      · rw [hk, Function.update_self]
        exact hb
      · rw [Function.update_of_ne hk]
        exact hv.addrs k'
    · rw [Function.update_of_ne hj]
      exact h.valid j

/-- A direct pointer is set. -/
theorem refs_setAddr_direct {ip : Dinode} {k : Fin NDIRECT} (hk : ip.addrs k.castSucc = 0)
    {b' : Nat} (hb' : b' ≠ 0) : refs d (ip.setAddr k.castSucc b) b' =
      refs d ip b' + if b' = b then 1 else 0 := by
  have hne : Fin.last NDIRECT ≠ k.castSucc := (Fin.castSucc_lt_last k).ne'
  have hind : (ip.setAddr k.castSucc b).indirect = ip.indirect :=
    Function.update_of_ne hne _ _
  have hhits :=
    hits_of_eq_off (f := fun q : Fin NDIRECT ↦ (ip.setAddr k.castSucc b).addrs q.castSucc)
    (g := fun q : Fin NDIRECT ↦ ip.addrs q.castSucc) k
    (by
      intro q hq
      apply Function.update_of_ne
      intro h
      exact hq (Fin.castSucc_injective _ h)) b'
  have hself : (ip.setAddr k.castSucc b).addrs k.castSucc = b := Function.update_self _ _ _
  rw [hk, hself, if_neg hb'.symm] at hhits
  unfold refs dataRefs
  rw [hind]
  simp only [eq_comm (a := b') (b := b)]
  omega

/-- The pointer to a zeroed indirect block is set. -/
theorem refs_setAddr_indirect {ip : Dinode} (hk : ip.indirect = 0) (hb : b ≠ 0)
    (hzero : d b = zeroBlock) {b' : Nat} (hb' : b' ≠ 0) :
    refs d (ip.setAddr (Fin.last NDIRECT) b) b' = refs d ip b' + if b' = b then 1 else 0 := by
  have hind : (ip.setAddr (Fin.last NDIRECT) b).indirect = b := by
    simp [Dinode.indirect, Dinode.setAddr]
  have hdirect : (fun q : Fin NDIRECT ↦ (ip.setAddr (Fin.last NDIRECT) b).addrs q.castSucc) =
      fun q : Fin NDIRECT ↦ ip.addrs q.castSucc := by
    funext q
    exact Function.update_of_ne (Fin.castSucc_lt_last q).ne _ _
  have hwords : hits (fun j : Fin NINDIRECT ↦ word (d b) j) b' = 0 := by
    apply hits_eq_zero
    intro j
    rw [hzero, word_zeroBlock]
    exact hb'.symm
  unfold refs dataRefs
  rw [hind, hdirect, hk, hwords, if_neg hb, if_pos rfl, if_neg hb'.symm]
  simp only [eq_comm (a := b') (b := b)]

/-- The pending block gets its entry in the indirect block of inode `i`. -/
theorem owned_setWord (h : Owned sb d inode b) (hi : i < sb.ninodes) (ht : (inode i).type ≠ 0)
    (hind : (inode i).indirect ≠ 0) {j : Nat} (hj : j < NINDIRECT)
    (hzero : word (d (inode i).indirect) j = 0) (hb : b < 2 ^ 32) :
    Owned sb (Function.update d (inode i).indirect (setWord (d (inode i).indirect) j b))
      inode 0 := by
  have hdata := (h.indirect_isData hi ht hind).1
  generalize hd' : Function.update d (inode i).indirect (setWord (d (inode i).indirect) j b) = d'
  have hused {b' : Nat} (hb' : b' < sb.size) : used sb d' b' = used sb d b' := by
    apply used_congr
    rw [← hd']
    exact Function.update_of_ne (hdata.ne_bblock hb').symm _ _
  -- the other inodes have other indirect blocks
  have hother (q : Fin sb.ninodes) (hq : q ≠ ⟨i, hi⟩) (b' : Nat) :
      liveRefs d' (inode q) b' = liveRefs d (inode q) b' := by
    unfold liveRefs
    split
    · rfl
    · next htq =>
      apply refs_congr
      intro _
      rw [← hd']
      apply Function.update_of_ne
      exact h.indirect_ne hi ht q.isLt htq (fun hqi ↦ hq (Fin.ext hqi)) hind
  have hself {b' : Nat} (hb' : b' ≠ 0) :
      liveRefs d' (inode i) b' = liveRefs d (inode i) b' + if b' = b then 1 else 0 := by
    have hhits := hits_of_eq_off (f := fun q : Fin NINDIRECT ↦ word (d' (inode i).indirect) q)
      (g := fun q : Fin NINDIRECT ↦ word (d (inode i).indirect) q) ⟨j, hj⟩
      (by
        intro q hq
        rw [← hd', Function.update_self, word_setWord _ hb, if_neg]
        exact fun hqj ↦ hq (Fin.ext hqj)) b'
    have hnew : word (d' (inode i).indirect) j = b := by
      rw [← hd', Function.update_self, word_setWord _ hb, if_pos rfl]
    dsimp only at hhits
    rw [hzero, hnew, if_neg hb'.symm] at hhits
    unfold liveRefs refs dataRefs
    rw [if_neg ht, if_neg ht, if_neg hind, if_neg hind]
    simp only [eq_comm (a := b') (b := b)]
    omega
  refine ⟨?_, ?_, h.valid⟩
  · intro b' hb'
    have hsum : totalRefs sb d' inode b' + liveRefs d (inode i) b' =
        totalRefs sb d inode b' + liveRefs d' (inode i) b' :=
      sum_add_of_eq_off (f := fun q : Fin sb.ninodes ↦ liveRefs d' (inode q) b')
        (g := fun q : Fin sb.ninodes ↦ liveRefs d (inode q) b') ⟨i, hi⟩
        (fun q hq ↦ hother q hq b')
    have hold := h.refs b' hb'
    have hmark : (sb.IsData b' ∧ used sb d' b' = true) ↔ (sb.IsData b' ∧ used sb d b' = true) := by
      apply and_congr_right
      intro hd
      rw [hused hd.2]
    simp only [hmark]
    rw [if_neg hb', ← hold]
    rw [hself hb'] at hsum
    omega
  · intro b' hb'
    rw [hused (lt_of_lt_of_le hb' sb.nmeta_le)]
    exact h.metadata b' hb'

/-- Storing file contents in a block that is pointed to as data. -/
theorem owned_store (h : Owned sb d inode 0) (hi : i < sb.ninodes) (ht : (inode i).type ≠ 0)
    (hb : b ≠ 0) (hdata : 0 < dataRefs d (inode i) b) (blk : Block) :
    Owned sb (Function.update d b blk) inode 0 ∧
      Extends sb d inode (Function.update d b blk) inode ∧
      ∀ j, j < sb.ninodes → Function.update d b blk (sb.iblock j) = d (sb.iblock j) := by
  have hpos : 0 < totalRefs sb d inode b := by
    have hle := le_totalRefs d inode hi b
    rw [liveRefs, if_neg ht, refs] at hle
    omega
  have hisData := (h.isData hb hpos).1
  have hind {j : Nat} (hj : j < sb.ninodes) (htj : (inode j).type ≠ 0) :
      Function.update d b blk (inode j).indirect = d (inode j).indirect :=
    Function.update_of_ne (h.ne_indirect hi ht hj htj hb hdata) _ _
  have hused {b' : Nat} (hb' : b' < sb.size) :
      used sb (Function.update d b blk) b' = used sb d b' :=
    used_congr (Function.update_of_ne (hisData.ne_bblock hb').symm _ _)
  refine ⟨⟨?_, ?_, h.valid⟩, ?_, ?_⟩
  · intro b' hb'
    have hmark : (sb.IsData b' ∧ used sb (Function.update d b blk) b' = true) ↔
        (sb.IsData b' ∧ used sb d b' = true) := by
      apply and_congr_right
      intro hd
      rw [hused hd.2]
    simp only [hmark]
    rw [totalRefs_congr (fun j hj htj _ ↦ hind hj htj)]
    exact h.refs b' hb'
  · intro b' hb'
    rw [hused (lt_of_lt_of_le hb' sb.nmeta_le)]
    exact h.metadata b' hb'
  · exact fun j hj htj ↦ ⟨rfl, rfl, rfl, fun k _ ↦ lookup_congr (fun _ ↦ hind hj htj) k⟩
  · exact fun j hj ↦ Function.update_of_ne (hisData.ne_iblock hj).symm _ _

/-! ### The cases of `bmap` -/

/-- The pointers that `bmap` of index `bn` needs and that are null. -/
def nulls (d : Disk) (ip : Dinode) (bn : Nat) : Nat :=
  (if lookup d ip bn = 0 then 1 else 0) + if ip.indirect = 0 then 1 else 0

/-- The blocks of files keep their contents. -/
def Kept (sb : Super) (d : Disk) (inode : Nat → Dinode) (d' : Disk) : Prop :=
  ∀ j k, j < sb.ninodes → (inode j).type ≠ 0 → lookup d (inode j) k ≠ 0 →
    d' (lookup d (inode j) k) = d (lookup d (inode j) k)

/-- What `bmap` of index `bn` of inode `i` does: it returns the block at the index, and adds
blocks only where there were none. -/
structure Mapped (sb : Super) (d : Disk) (inode : Nat → Dinode) (i bn addr : Nat) (ip : Dinode)
    (d' : Disk) : Prop where
  owned : Owned sb d' (Function.update inode i ip) 0
  extend : Extends sb d inode d' (Function.update inode i ip)
  found : lookup d' ip bn = addr
  inodes : ∀ j, j < sb.ninodes → d' (sb.iblock j) = d (sb.iblock j)
  same : lookup d (inode i) bn ≠ 0 → addr = lookup d (inode i) bn ∧ ip = inode i ∧ d' = d
  others : ∀ k, k ≠ bn → lookup d' ip k = lookup d (inode i) k
  kept : Kept sb d inode d'
  indirect : bn < NDIRECT → ip.indirect = (inode i).indirect
  cost : freeBlocks sb d + nulls d' ip bn = freeBlocks sb d' + nulls d (inode i) bn
  full : addr = 0 → freeBlocks sb d' = 0

/-- Nothing was allocated. -/
theorem Mapped.of_same (h : Owned sb d inode 0) {bn addr : Nat}
    (hfound : lookup d (inode i) bn = addr) (hfull : addr = 0 → freeBlocks sb d = 0) :
    Mapped sb d inode i bn addr (inode i) d := by
  have hup : Function.update inode i (inode i) = inode := Function.update_eq_self i inode
  refine ⟨?_, ?_, hfound, fun _ _ ↦ rfl, fun _ ↦ ⟨hfound.symm, rfl, rfl⟩, fun _ _ ↦ rfl,
    fun _ _ _ _ _ ↦ rfl, fun _ ↦ rfl, rfl, hfull⟩
  · rw [hup]
    exact h
  · rw [hup]
    exact Extends.refl sb d inode

/-- A new pointer extends the inode it is stored in, and no other inode changes. -/
theorem extends_setAddr (hown : Owned sb d inode 0) (hf : Fresh sb d inode b d')
    {k : Fin (NDIRECT + 1)}
    (hk : ∀ k', lookup d (inode i) k' ≠ 0 →
      lookup d' ((inode i).setAddr k b) k' = lookup d (inode i) k') :
    Extends sb d inode d' (Function.update inode i ((inode i).setAddr k b)) := by
  intro j hj ht
  by_cases hji : j = i
  · subst hji
    rw [Function.update_self]
    exact ⟨rfl, rfl, rfl, hk⟩
  · rw [Function.update_of_ne hji]
    exact ⟨rfl, rfl, rfl, fun k' _ ↦ hf.lookup_eq hown hj ht k'⟩

theorem bmapDirect_mapped (h : Owned sb d inode 0) (hi : i < sb.ninodes)
    (ht : (inode i).type ≠ 0) (k : Fin NDIRECT) :
    Mapped sb d inode i k (bmapDirect sb (inode i) k d).1 (bmapDirect sb (inode i) k d).2.1
      (bmapDirect sb (inode i) k d).2.2 := by
  have hlookup (ip : Dinode) (d : Disk) : lookup d ip k = ip.addrs k.castSucc := by
    rw [lookup, dif_pos k.isLt]
  unfold bmapDirect
  dsimp only
  split
  · next hzero =>
    rcases balloc_fresh h with ⟨hz, hfull⟩ | ⟨b, d', hb, hf⟩
    · rw [hz]
      exact Mapped.of_same h ((hlookup _ _).trans hzero) (fun _ ↦ hfull)
    · rw [hb]
      dsimp only
      rw [if_neg hf.ne_zero]
      have hown := owned_setAddr hf.owned hi ht hf.lt k.castSucc
        (fun b' hb' ↦ refs_setAddr_direct hzero hb')
      have hind : ((inode i).setAddr k.castSucc b).indirect = (inode i).indirect :=
        Function.update_of_ne (Fin.castSucc_lt_last k).ne' _ _
      have hfound : lookup d' ((inode i).setAddr k.castSucc b) k = b := by
        rw [hlookup]
        exact Function.update_self _ _ _
      -- the pointers other than the new one are those of the inode before
      have hothers (k' : Nat) (hne : k' ≠ k) :
          lookup d' ((inode i).setAddr k.castSucc b) k' = lookup d (inode i) k' := by
        rw [← hf.lookup_eq h hi ht]
        unfold lookup
        split
        · next hlt =>
          apply Function.update_of_ne
          intro heq
          exact hne (congrArg Fin.val (Fin.castSucc_injective _ heq))
        · rw [hind]
      refine ⟨hown, extends_setAddr h hf ?_, hfound, hf.inodes, ?_, hothers,
        fun j k' hj htj hk' ↦ hf.kept h hj htj hk', fun _ ↦ hind, ?_, fun hz ↦ (hf.ne_zero hz).elim⟩
      · intro k' hk'
        apply hothers
        rintro rfl
        rw [hlookup] at hk'
        exact hk' hzero
      · rw [hlookup]
        exact fun hne ↦ (hne hzero).elim
      · dsimp only
        rw [nulls, nulls, hfound, hlookup, if_neg hf.ne_zero, if_pos hzero, hind, hf.count]
        omega
  · next hne =>
    exact Mapped.of_same h (hlookup _ _) (fun hz ↦ (hne hz).elim)

/-- The indirect block that `bmap` uses. -/
structure Located (sb : Super) (d : Disk) (inode : Nat → Dinode) (i ind : Nat) (ip : Dinode)
    (d' : Disk) : Prop where
  owned : Owned sb d' (Function.update inode i ip) 0
  extend : Extends sb d inode d' (Function.update inode i ip)
  found : ip.indirect = ind
  inodes : ∀ j, j < sb.ninodes → d' (sb.iblock j) = d (sb.iblock j)
  same : (inode i).indirect ≠ 0 → ind = (inode i).indirect ∧ ip = inode i ∧ d' = d
  lookups : ∀ k, lookup d' ip k = lookup d (inode i) k
  kept : Kept sb d inode d'
  cost : freeBlocks sb d + (if ip.indirect = 0 then 1 else 0) =
    freeBlocks sb d' + if (inode i).indirect = 0 then 1 else 0
  full : ind = 0 → freeBlocks sb d' = 0

theorem bmapIndirect_located (h : Owned sb d inode 0) (hi : i < sb.ninodes)
    (ht : (inode i).type ≠ 0) :
    Located sb d inode i (bmapIndirect sb (inode i) d).1 (bmapIndirect sb (inode i) d).2.1
      (bmapIndirect sb (inode i) d).2.2 := by
  have hsame {ind : Nat} (hind : (inode i).indirect = ind) (hfull : ind = 0 → freeBlocks sb d = 0) :
      Located sb d inode i ind (inode i) d := by
    have hup : Function.update inode i (inode i) = inode := Function.update_eq_self i inode
    refine ⟨?_, ?_, hind, fun _ _ ↦ rfl, fun _ ↦ ⟨hind.symm, rfl, rfl⟩, fun _ ↦ rfl,
      fun _ _ _ _ _ ↦ rfl, rfl, hfull⟩
    · rw [hup]
      exact h
    · rw [hup]
      exact Extends.refl sb d inode
  unfold bmapIndirect
  split
  · next hzero =>
    rcases balloc_fresh h with ⟨hz, hfull⟩ | ⟨b, d', hb, hf⟩
    · rw [hz]
      exact hsame hzero (fun _ ↦ hfull)
    · rw [hb]
      dsimp only
      rw [if_neg hf.ne_zero]
      have hown := owned_setAddr hf.owned hi ht hf.lt (Fin.last NDIRECT)
        (fun b' hb' ↦ refs_setAddr_indirect hzero hf.ne_zero hf.zero hb')
      have hind : ((inode i).setAddr (Fin.last NDIRECT) b).indirect = b := by
        simp [Dinode.indirect, Dinode.setAddr]
      -- the new indirect block is zeroed, so that it has no block at any index
      have hlookups (k : Nat) :
          lookup d' ((inode i).setAddr (Fin.last NDIRECT) b) k = lookup d (inode i) k := by
        unfold lookup
        split
        · exact Function.update_of_ne (Fin.castSucc_lt_last _).ne _ _
        · rw [hind, hf.zero, word_zeroBlock, ite_self, if_neg (fun hc ↦ hc.2 hzero)]
      refine ⟨hown, extends_setAddr h hf (fun k _ ↦ hlookups k), hind, hf.inodes,
        fun hne ↦ (hne hzero).elim, hlookups, fun j k' hj htj hk' ↦ hf.kept h hj htj hk', ?_,
        fun hz ↦ (hf.ne_zero hz).elim⟩
      rw [hind, if_neg hf.ne_zero, if_pos hzero, hf.count]
  · next hne => exact hsame rfl (fun hz ↦ (hne hz).elim)

/-- The entry of the indirect block that `bmap` uses. -/
structure Entry (sb : Super) (d : Disk) (inode : Nat → Dinode) (ind j addr : Nat)
    (d' : Disk) : Prop where
  owned : Owned sb d' inode 0
  extend : Extends sb d inode d' inode
  found : word (d' ind) j = addr
  inodes : ∀ q, q < sb.ninodes → d' (sb.iblock q) = d (sb.iblock q)
  same : word (d ind) j ≠ 0 → addr = word (d ind) j ∧ d' = d
  others : ∀ j', j' ≠ j → word (d' ind) j' = word (d ind) j'
  kept : Kept sb d inode d'
  cost : freeBlocks sb d + (if word (d' ind) j = 0 then 1 else 0) =
    freeBlocks sb d' + if word (d ind) j = 0 then 1 else 0
  full : addr = 0 → freeBlocks sb d' = 0

theorem bmapEntry_entry (h : Owned sb d inode 0) (hi : i < sb.ninodes)
    (ht : (inode i).type ≠ 0) (hind : (inode i).indirect ≠ 0) {j : Nat} (hj : j < NINDIRECT) :
    Entry sb d inode (inode i).indirect j (bmapEntry sb (inode i).indirect j d).1
      (bmapEntry sb (inode i).indirect j d).2 := by
  unfold bmapEntry
  dsimp only
  split
  · next hzero =>
    rcases balloc_fresh h with ⟨hz, hfull⟩ | ⟨b, d', hb, hf⟩
    · rw [hz]
      exact ⟨h, Extends.refl sb d inode, hzero, fun _ _ ↦ rfl, fun hne ↦ (hne hzero).elim,
        fun _ _ ↦ rfl, fun _ _ _ _ _ ↦ rfl, rfl, fun _ ↦ hfull⟩
    · rw [hb]
      dsimp only
      rw [if_neg hf.ne_zero]
      dsimp only
      have hblk := hf.indirect h hi ht hind
      have hdata := (h.indirect_isData hi ht hind).1
      have hown := owned_setWord hf.owned hi ht hind hj (by rw [hblk]; exact hzero) hf.lt
      have hword (j' : Nat) : word (Function.update d' (inode i).indirect
          (setWord (d' (inode i).indirect) j b) (inode i).indirect) j' =
          if j' = j then b else word (d (inode i).indirect) j' := by
        rw [Function.update_self, word_setWord _ hf.lt, hblk]
      have hcount : freeBlocks sb (Function.update d' (inode i).indirect
          (setWord (d' (inode i).indirect) j b)) = freeBlocks sb d' := by
        apply freeBlocks_congr
        intro b' hb'
        exact used_congr (Function.update_of_ne (hdata.ne_bblock hb').symm _ _)
      refine ⟨hown, ?_, ?_, ?_, fun hne ↦ (hne hzero).elim, ?_, ?_, ?_,
        fun hz ↦ (hf.ne_zero hz).elim⟩
      · intro q hq htq
        refine ⟨rfl, rfl, rfl, ?_⟩
        intro k hk
        by_cases hqi : q = i
        · subst hqi
          rw [← hf.lookup_eq h hq htq] at hk ⊢
          unfold lookup at hk ⊢
          split
          · rfl
          · next hlt =>
            rw [dif_neg hlt] at hk
            split
            · next hkj =>
              rw [if_pos hkj] at hk
              have hne : k - NDIRECT ≠ j := by
                intro heq
                rw [heq, hblk] at hk
                exact hk hzero
              rw [Function.update_self, word_setWord _ hf.lt, if_neg hne]
            · rfl
        · rw [← hf.lookup_eq h hq htq]
          apply lookup_congr
          intro _
          exact Function.update_of_ne (h.indirect_ne hi ht hq htq hqi hind) _ _
      · rw [hword, if_pos rfl]
      · intro q hq
        rw [Function.update_of_ne (hdata.ne_iblock hq).symm]
        exact hf.inodes q hq
      · intro j' hj'
        rw [hword, if_neg hj']
      · intro q k hq htq hk
        have hne : lookup d (inode q) k ≠ (inode i).indirect :=
          (h.ne_indirect hq htq hi ht hk (dataRefs_lookup hk)).symm
        rw [Function.update_of_ne hne]
        exact hf.kept h hq htq hk
      · rw [hcount, hword, if_pos rfl, if_neg hf.ne_zero, if_pos hzero, hf.count]
  · next hne =>
    exact ⟨h, Extends.refl sb d inode, rfl, fun _ _ ↦ rfl, fun _ ↦ ⟨rfl, rfl⟩, fun _ _ ↦ rfl,
      fun _ _ _ _ _ ↦ rfl, rfl, fun hz ↦ (hne hz).elim⟩

/-- `bmap` of an index that an inode can have does not panic. -/
theorem bmap_mapped (h : Owned sb d inode 0) (hi : i < sb.ninodes) (ht : (inode i).type ≠ 0)
    {bn : Nat} (hbn : bn < MAXFILE) :
    ∃ addr ip d', bmap sb (inode i) bn d = .ok (addr, ip, d') ∧
      Mapped sb d inode i bn addr ip d' := by
  unfold bmap
  split
  · next hlt => exact ⟨_, _, _, rfl, bmapDirect_mapped h hi ht ⟨bn, hlt⟩⟩
  · next hlt =>
    have hj : bn - NDIRECT < NINDIRECT := by
      simp only [MAXFILE] at hbn
      omega
    have hl := bmapIndirect_located h hi ht
    rw [if_pos hj]
    generalize bmapIndirect sb (inode i) d = r at hl
    obtain ⟨ind, ip, d₁⟩ := r
    dsimp only at hl ⊢
    have hself : Function.update inode i ip i = ip := Function.update_self _ _ _
    have hlookup (d : Disk) (ip : Dinode) (hne : ip.indirect ≠ 0) :
        lookup d ip bn = word (d ip.indirect) (bn - NDIRECT) := by
      rw [lookup, dif_neg hlt, if_pos ⟨hj, hne⟩]
    have hnone (hz : (inode i).indirect = 0) : lookup d (inode i) bn = 0 := by
      rw [lookup, dif_neg hlt, if_neg (by simp [hz])]
    split
    · next hz =>
      have hind : (inode i).indirect = 0 := by
        by_contra hne
        obtain ⟨hind, -, -⟩ := hl.same hne
        exact hne (hind ▸ hz)
      have hfound : lookup d₁ ip bn = 0 := (hl.lookups bn).trans (hnone hind)
      refine ⟨_, _, _, rfl, hl.owned, hl.extend, hfound, hl.inodes,
        fun hne ↦ (hne (hnone hind)).elim, fun k _ ↦ hl.lookups k, hl.kept,
        fun hlt' ↦ (hlt hlt').elim, ?_, fun _ ↦ hl.full hz⟩
      have hcost := hl.cost
      rw [nulls, nulls, hfound, hnone hind]
      omega
    · next hne =>
      have hind := hl.found
      have hne' : ip.indirect ≠ 0 := by
        rw [hind]
        exact hne
      have ht' : (Function.update inode i ip i).type ≠ 0 := by
        rw [(hl.extend i hi ht).1]
        exact ht
      have he := bmapEntry_entry hl.owned hi ht' (by rw [hself]; exact hne') hj
      rw [hself, hind] at he
      generalize bmapEntry sb ind (bn - NDIRECT) d₁ = r at he
      obtain ⟨addr, d₂⟩ := r
      dsimp only at he ⊢
      have hfound : lookup d₂ ip bn = addr := by
        rw [hlookup d₂ ip hne', hind]
        exact he.found
      refine ⟨_, _, _, rfl, he.owned, hl.extend.trans he.extend, hfound, ?_, ?_, ?_, ?_,
        fun hlt' ↦ (hlt hlt').elim, ?_, he.full⟩
      · intro q hq
        rw [he.inodes q hq, hl.inodes q hq]
      · intro hold
        have hne'' : (inode i).indirect ≠ 0 := fun hz ↦ hold (hnone hz)
        obtain ⟨hi1, hi2, hi3⟩ := hl.same hne''
        rw [hlookup d (inode i) hne'', ← hi1] at hold ⊢
        rw [hi3] at he
        obtain ⟨ha, hd⟩ := he.same hold
        exact ⟨ha, hi2, hd⟩
      · intro k hk
        rw [← hl.lookups k]
        unfold lookup
        split
        · rfl
        · next hkd =>
          rw [hind, he.others (k - NDIRECT) (by omega)]
      · intro q k hq htq hk
        obtain ⟨htq₁, -, -, hk₁⟩ := hl.extend q hq htq
        have hkept := he.kept q k hq (by rw [htq₁]; exact htq) (by rw [hk₁ k hk]; exact hk)
        rw [hk₁ k hk] at hkept
        rw [hkept]
        exact hl.kept q k hq htq hk
      · have hcost := hl.cost
        have hentry := he.cost
        have hold : word (d₁ ind) (bn - NDIRECT) = lookup d (inode i) bn := by
          rw [← hl.lookups bn, hlookup d₁ ip hne', hind]
        rw [hold, he.found] at hentry
        rw [nulls, nulls, hfound]
        omega

theorem balloc_zero {sb : Super} {d d' : Disk} {b : Nat} (h : balloc sb d = (b, d')) (hb : b ≠ 0) :
    d' b = zeroBlock := by
  rw [balloc] at h
  split at h
  · cases h
    exact Function.update_self ..
  · cases h
    exact (hb rfl).elim

/-- The indirect block that `bmap` uses is the inode's, and a new one is zeroed. -/
theorem bmapIndirect_indirect {sb : Super} {d d' : Disk} {ip ip' : Dinode} {ind : Nat}
    (h : bmapIndirect sb ip d = (ind, ip', d')) (hne : ind ≠ 0) :
    ip'.indirect = ind ∧ (ip.indirect ≠ 0 → ind = ip.indirect ∧ d' = d) ∧
      (ip.indirect = 0 → d' ind = zeroBlock) := by
  rw [bmapIndirect] at h
  split at h
  · next hnull =>
    dsimp only at h
    split at h
    · cases h
      exact (hne rfl).elim
    · cases h
      refine ⟨?_, fun hsome ↦ (hsome hnull).elim, fun _ ↦ balloc_zero rfl hne⟩
      change Function.update ip.addrs (Fin.last NDIRECT) (balloc sb d).1 (Fin.last NDIRECT) = _
      rw [Function.update_self]
  · next hsome =>
    cases h
    exact ⟨rfl, fun _ ↦ ⟨rfl, rfl⟩, fun hnull ↦ (hsome hnull).elim⟩

/-- A block that `bmap` allocates for data is zeroed. -/
theorem bmap_zero {sb : Super} {d d' : Disk} {ip ip' : Dinode} {bn addr : Nat}
    (h : bmap sb ip bn d = .ok (addr, ip', d')) (hnull : lookup d ip bn = 0) (haddr : addr ≠ 0)
    (hind : ip'.indirect ≠ addr) : d' addr = zeroBlock := by
  rw [bmap] at h
  split at h
  · next hlt =>
    rw [lookup, dif_pos hlt] at hnull
    rw [bmapDirect] at h
    dsimp only at h
    rw [if_pos hnull] at h
    split at h
    · cases h
      exact (haddr rfl).elim
    · cases h
      exact balloc_zero rfl haddr
  · next hlt =>
    split at h
    · next hj =>
      cases hloc : bmapIndirect sb ip d with
      | mk ind q =>
        obtain ⟨ip₁, d₁⟩ := q
        rw [hloc] at h
        dsimp only at h
        split at h
        · cases h
          exact (haddr rfl).elim
        · next hne =>
          obtain ⟨hown, hsame, hnew⟩ := bmapIndirect_indirect hloc hne
          have hword : word (d₁ ind) (bn - NDIRECT) = 0 := by
            by_cases hsome : ip.indirect = 0
            · rw [hnew hsome, word_zeroBlock]
            · rw [lookup, dif_neg hlt, if_pos ⟨hj, hsome⟩] at hnull
              rw [(hsame hsome).1, (hsame hsome).2]
              exact hnull
          rw [bmapEntry] at h
          dsimp only at h
          rw [if_pos hword] at h
          split at h
          · cases h
            exact (haddr rfl).elim
          · cases h
            rw [hown] at hind
            dsimp only at hind haddr ⊢
            rw [Function.update_of_ne (Ne.symm hind)]
            exact balloc_zero rfl haddr
    · cases h

end Xv6.Fs
