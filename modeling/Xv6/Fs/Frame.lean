import Xv6.Fs.Filewrite

/-!
# What the operations on an inode leave to the others

`iupdate`, `bmap`, `writei` and `iput` on an inode keep every other file: its inode, its contents
and its indirect block, hence all its pointers. A write that gets no block for its first byte keeps
the file itself, but for an indirect block that it may have added.
-/

namespace Xv6.Fs

open Xv6.Lib

variable {sb : Super} {d d' d₁ : Disk} {inode : Nat → Dinode} {i j : Nat} {ip ip' : Dinode}

/-- File `j` is the same on both disks. -/
structure Keeps (sb : Super) (d d' : Disk) (j : Nat) : Prop where
  inode : dinode sb d' j = dinode sb d j
  content : (dinode sb d j).type ≠ 0 → content sb d' j = content sb d j
  indirect : (dinode sb d j).type ≠ 0 → (dinode sb d j).indirect ≠ 0 →
    d' (dinode sb d j).indirect = d (dinode sb d j).indirect

namespace Keeps

theorem refl (sb : Super) (d : Disk) (j : Nat) : Keeps sb d d j := ⟨rfl, fun _ ↦ rfl, fun _ _ ↦ rfl⟩

theorem trans (h : Keeps sb d d₁ j) (h' : Keeps sb d₁ d' j) : Keeps sb d d' j := by
  have hinode := h'.inode
  have hcontent := h'.content
  have hindirect := h'.indirect
  rw [h.inode] at hinode hcontent hindirect
  exact ⟨hinode, fun ht ↦ (hcontent ht).trans (h.content ht),
    fun ht hne ↦ (hindirect ht hne).trans (h.indirect ht hne)⟩

/-- A file that is kept has the same pointers. -/
theorem liveRefs (h : Keeps sb d d' j) (b : Nat) :
    liveRefs d' (dinode sb d' j) b = liveRefs d (dinode sb d j) b := by
  rw [h.inode, Fs.liveRefs, Fs.liveRefs]
  split
  · rfl
  · next ht => exact refs_congr (h.indirect ht) b

end Keeps

/-- A file is kept when its inode and all data blocks are. -/
theorem keeps_of_data (h : BlockOwnership sb d) (hj : j < sb.ninodes)
    (hinode : dinode sb d' j = dinode sb d j) (hdata : ∀ x, sb.IsData x → d' x = d x) :
    Keeps sb d d' j := by
  obtain ⟨hown, hf⟩ := blockOwnership_iff.mp h
  have hind (ht : (dinode sb d j).type ≠ 0) (hne : (dinode sb d j).indirect ≠ 0) :
      d' (dinode sb d j).indirect = d (dinode sb d j).indirect :=
    hdata _ (hown.indirect_isData hj ht hne).1
  refine ⟨hinode, ?_, hind⟩
  intro ht
  apply content_congr
  · rw [hinode]
  · intro k hk
    have hne := hf.lookup_ne_zero hj ht hk
    rw [hinode, fileByte, fileByte, lookup_congr (hind ht), hdata _ (hown.lookup_isData hj ht hne)]

/-! ### `iupdate` -/

theorem iupdate_keeps (h : BlockOwnership sb d) (hi : i < sb.ninodes) (hv : ip.Valid)
    (hj : j < sb.ninodes) (hne : j ≠ i) : Keeps sb d (iupdate sb i ip d) j := by
  apply keeps_of_data h hj
  · rw [dinode_iupdate hv, if_neg hne]
  · intro x hx
    exact Function.update_of_ne (hx.ne_iblock hi) _ _

/-- The inode gets other fields, with the same type, size and blocks. -/
structure Relabels (ip ip' : Dinode) : Prop where
  valid : ip'.Valid
  type : ip'.type = ip.type
  size : ip'.size = ip.size
  addrs : ip'.addrs = ip.addrs

theorem Relabels.lookup (h : Relabels ip ip') (d : Disk) (k : Nat) :
    lookup d ip' k = lookup d ip k := by
  unfold Fs.lookup Dinode.indirect
  rw [h.addrs]

theorem Relabels.liveRefs (h : Relabels ip ip') (d : Disk) (b : Nat) :
    liveRefs d ip' b = liveRefs d ip b := by
  unfold Fs.liveRefs refs dataRefs Dinode.indirect
  rw [h.type, h.addrs]

theorem ownership_relabel (h : BlockOwnership sb d) (hi : i < sb.ninodes)
    (hr : Relabels (dinode sb d i) ip) : BlockOwnership sb (iupdate sb i ip d) := by
  obtain ⟨hown, hf⟩ := blockOwnership_iff.mp h
  rw [blockOwnership_iff]
  refine owned_iupdate hi ⟨?_, hown.metadata, ?_⟩ ?_ (fun _ _ ↦ rfl)
  · intro b hb
    have hsum := totalRefs_update d (dinode sb d) hi ip b
    rw [hr.liveRefs] at hsum
    rw [← hown.refs b hb]
    omega
  · intro q
    by_cases hqi : q = i
    · rw [hqi, Function.update_self]
      exact hr.valid
    · rw [Function.update_of_ne hqi]
      exact hown.valid q
  · intro q hq htq k hk
    by_cases hqi : q = i
    · rw [hqi, Function.update_self] at htq hk ⊢
      rw [hr.size] at hk
      rw [hr.type] at htq
      rw [hr.lookup]
      exact hf i hi htq k hk
    · rw [Function.update_of_ne hqi] at htq hk ⊢
      exact hf q hq htq k hk

theorem content_relabel (h : BlockOwnership sb d) (hi : i < sb.ninodes)
    (ht : (dinode sb d i).type ≠ 0) (hr : Relabels (dinode sb d i) ip) :
    content sb (iupdate sb i ip d) i = content sb d i := by
  obtain ⟨hown, hf⟩ := blockOwnership_iff.mp h
  have hself : dinode sb (iupdate sb i ip d) i = ip := by
    rw [dinode_iupdate hr.valid, if_pos rfl]
  apply content_congr
  · rw [hself, hr.size]
  · intro k hk
    have hind (hne : (dinode sb d i).indirect ≠ 0) :
        iupdate sb i ip d (dinode sb d i).indirect = d (dinode sb d i).indirect :=
      hown.indirect_iupdate hi ip hi ht hne
    have hlookup :
        lookup (iupdate sb i ip d) ip (k / BSIZE) = lookup d (dinode sb d i) (k / BSIZE) := by
      rw [hr.lookup, lookup_congr hind]
    have hne := hf.lookup_ne_zero hi ht hk
    rw [hself, fileByte, fileByte, hlookup]
    exact congrFun (Function.update_of_ne ((hown.lookup_isData hi ht hne).ne_iblock hi) _ _) _

/-! ### `bmap` -/

/-- `bmap` leaves the indirect blocks of the other inodes alone. -/
theorem bmap_foreign (h : Owned sb d inode 0) (hi : i < sb.ninodes) (ht : (inode i).type ≠ 0)
    {bn addr : Nat} (hmap : bmap sb (inode i) bn d = .ok (addr, ip, d')) (hj : j < sb.ninodes)
    (hji : j ≠ i) (htj : (inode j).type ≠ 0) (hind : (inode j).indirect ≠ 0) :
    d' (inode j).indirect = d (inode j).indirect := by
  unfold bmap at hmap
  split at hmap
  · rw [Except.ok.injEq, bmapDirect] at hmap
    split at hmap
    · rcases balloc_fresh h with ⟨hz, -⟩ | ⟨b, d₁, hb, hf⟩
      · rw [hz] at hmap
        cases hmap
        rfl
      · rw [hb] at hmap
        simp only [if_neg hf.ne_zero] at hmap
        cases hmap
        exact hf.indirect h hj htj hind
    · cases hmap
      rfl
  · split at hmap
    · next hbn =>
      have hloc := bmapIndirect_located h hi ht
      have hfirst :
          (bmapIndirect sb (inode i) d).2.2 (inode j).indirect = d (inode j).indirect := by
        rw [bmapIndirect]
        split
        · rcases balloc_fresh h with ⟨hz, -⟩ | ⟨b, d₁, hb, hf⟩
          · rw [hz]
            rfl
          · rw [hb]
            simp only [if_neg hf.ne_zero]
            exact hf.indirect h hj htj hind
        · rfl
      generalize bmapIndirect sb (inode i) d = r at hmap hloc hfirst
      obtain ⟨ind, ip₁, d₁⟩ := r
      simp only at hmap hloc hfirst
      split at hmap
      · cases hmap
        exact hfirst
      · next hne =>
        cases hmap
        -- in the middle `bmap` works with inode `i` in memory
        have hown := hloc.owned
        have hself : Function.update inode i ip i = ip := Function.update_self _ _ _
        have hother : Function.update inode i ip j = inode j := Function.update_of_ne hji _ _
        have hti : (Function.update inode i ip i).type ≠ 0 := by
          rw [(hloc.extend i hi ht).1]
          exact ht
        have hdiff : (inode j).indirect ≠ ind := by
          have := hown.indirect_ne hi hti hj (by rw [hother]; exact htj) hji
            (by rw [hself, hloc.found]; exact hne)
          rwa [hother, hself, hloc.found] at this
        rw [← hfirst, bmapEntry]
        split
        · rcases balloc_fresh hown with ⟨hz, -⟩ | ⟨b, d₂, hb, hf⟩
          · rw [hz]
            rfl
          · rw [hb]
            simp only [if_neg hf.ne_zero]
            rw [Function.update_of_ne hdiff]
            have := hf.indirect hown hj (by rw [hother]; exact htj) (by rw [hother]; exact hind)
            rwa [hother] at this
        · rfl
    · cases hmap

/-- `bmap` that gets no block changes nothing, but for an indirect block that it may have added. -/
theorem bmap_full (h : Owned sb d inode 0) (hi : i < sb.ninodes) (ht : (inode i).type ≠ 0)
    {bn : Nat} (hmap : bmap sb (inode i) bn d = .ok (0, ip, d')) :
    (ip = inode i ∧ d' = d) ∨ ∃ b, (inode i).indirect = 0 ∧
      ip = (inode i).setAddr (Fin.last NDIRECT) b ∧ Fresh sb d inode b d' := by
  unfold bmap at hmap
  split at hmap
  · rw [Except.ok.injEq, bmapDirect] at hmap
    split at hmap
    · rcases balloc_fresh h with ⟨hz, -⟩ | ⟨b, d₁, hb, hf⟩
      · rw [hz] at hmap
        cases hmap
        exact Or.inl ⟨rfl, rfl⟩
      · rw [hb] at hmap
        simp only [if_neg hf.ne_zero] at hmap
        cases hmap
        exact absurd rfl hf.ne_zero
    · next hne => exact absurd (Prod.mk.inj hmap).1 hne
  · split at hmap
    · next hbn =>
      have hloc := bmapIndirect_located h hi ht
      have hcases :
          ((bmapIndirect sb (inode i) d).2.1 = inode i ∧ (bmapIndirect sb (inode i) d).2.2 = d) ∨
          ∃ b, (inode i).indirect = 0 ∧
            (bmapIndirect sb (inode i) d).2.1 = (inode i).setAddr (Fin.last NDIRECT) b ∧
            Fresh sb d inode b (bmapIndirect sb (inode i) d).2.2 := by
        rw [bmapIndirect]
        split
        · next hzero =>
          rcases balloc_fresh h with ⟨hz, -⟩ | ⟨b, d₁, hb, hf⟩
          · rw [hz]
            exact Or.inl ⟨rfl, rfl⟩
          · rw [hb]
            simp only [if_neg hf.ne_zero]
            exact Or.inr ⟨b, hzero, rfl, hf⟩
        · exact Or.inl ⟨rfl, rfl⟩
      generalize bmapIndirect sb (inode i) d = r at hmap hloc hcases
      obtain ⟨ind, ip₁, d₁⟩ := r
      simp only at hmap hloc hcases
      split at hmap
      · cases hmap
        exact hcases
      · -- no entry of the indirect block was added either
        have hentry : (bmapEntry sb ind (bn - NDIRECT) d₁).1 = 0 →
            (bmapEntry sb ind (bn - NDIRECT) d₁).2 = d₁ := by
          rw [bmapEntry]
          split
          · rcases balloc_fresh hloc.owned with ⟨hz, -⟩ | ⟨b, d₂, hb, hf⟩
            · rw [hz]
              exact fun _ ↦ rfl
            · rw [hb]
              simp only [if_neg hf.ne_zero]
              exact fun he ↦ absurd he hf.ne_zero
          · exact fun _ ↦ rfl
        rw [Except.ok.injEq, Prod.mk.injEq, Prod.mk.injEq] at hmap
        obtain ⟨haddr, rfl, rfl⟩ := hmap
        rw [hentry haddr]
        exact hcases
    · cases hmap

/-! ### `writei` in one block -/

section
variable {xs : List UInt8} {off : Nat}

theorem eitherCopyin_list (xs : List UInt8) :
    (eitherCopyin (fun k ↦ xs[k]?) 0 xs.length).2 = true := by
  obtain ⟨c, hle, -, hstop, heq⟩ := eitherCopyin_cases (fun k ↦ xs[k]?) 0 xs.length
  rw [heq]
  apply decide_eq_true
  by_contra hne
  have hnone := hstop (by omega)
  rw [Nat.zero_add, List.getElem?_eq_none_iff] at hnone
  omega

/-- The loop of `writei` for bytes of one block has one iteration. -/
theorem writeLoop_one (hn : 0 < xs.length) (hfit : off % BSIZE + xs.length ≤ BSIZE) {addr : Nat}
    (hmap : bmap sb ip (off / BSIZE) d = .ok (addr, ip', d₁)) :
    writeLoop sb (fun k ↦ xs[k]?) xs.length xs.length 0 off ip d =
      if addr = 0 then .ok (0, off, ip', d₁)
      else .ok (xs.length, off + xs.length, ip', Function.update d₁ addr
        (overlay (d₁ addr) (off % BSIZE) (eitherCopyin (fun k ↦ xs[k]?) 0 xs.length).1)) := by
  have hmin : min (xs.length - 0) (BSIZE - off % BSIZE) = xs.length := by omega
  have hend (fuel : Nat) (ip : Dinode) (d : Disk) : writeLoop sb (fun k ↦ xs[k]?) xs.length fuel
      (0 + xs.length) (off + xs.length) ip d = .ok (xs.length, off + xs.length, ip, d) := by
    rw [Nat.zero_add]
    cases fuel with
    | zero => rfl
    | succ fuel => rw [writeLoop, if_neg (Nat.lt_irrefl _)]
  have hfuel : xs.length = xs.length - 1 + 1 := by omega
  nth_rewrite 2 [hfuel]
  rw [writeLoop, if_pos hn, hmap]
  simp only [bind, Except.bind]
  split
  · rfl
  · rw [hmin, if_pos (eitherCopyin_list xs), hend]

/-- A file that may have got an indirect block, and is the same otherwise. -/
structure Grown (sb : Super) (d d' : Disk) (i : Nat) : Prop where
  inode : ∃ b, dinode sb d' i = (dinode sb d i).setAddr (Fin.last NDIRECT) b ∧
    ((dinode sb d i).indirect ≠ 0 → b = (dinode sb d i).indirect)
  content : content sb d' i = content sb d i
  refs : ∀ b, b ≠ 0 → liveRefs d' (dinode sb d' i) b = liveRefs d (dinode sb d i) b +
    if (dinode sb d i).indirect = 0 ∧ (dinode sb d' i).indirect = b then 1 else 0

theorem setAddr_indirect (ip : Dinode) : ip.setAddr (Fin.last NDIRECT) ip.indirect = ip := by
  have haddrs : Function.update ip.addrs (Fin.last NDIRECT) ip.indirect = ip.addrs :=
    Function.update_eq_self _ _
  rw [Dinode.setAddr, haddrs]

theorem indirect_setAddr_self (ip : Dinode) (b : Nat) :
    (ip.setAddr (Fin.last NDIRECT) b).indirect = b := by
  simp [Dinode.indirect, Dinode.setAddr]

theorem Grown.refl (sb : Super) (d : Disk) (i : Nat) : Grown sb d d i := by
  refine ⟨⟨_, (setAddr_indirect _).symm, fun _ ↦ rfl⟩, rfl, ?_⟩
  intro b hb
  rw [if_neg]
  · rfl
  · rintro ⟨hz, he⟩
    exact hb (he.symm.trans hz)

theorem Keeps.then_grown (h : Keeps sb d d₁ i) (h' : Grown sb d₁ d' i)
    (ht : (dinode sb d i).type ≠ 0) : Grown sb d d' i := by
  have hinode := h'.inode
  have hrefs := h'.refs
  rw [h.inode] at hinode
  refine ⟨hinode, h'.content.trans (h.content ht), ?_⟩
  intro b hb
  rw [hrefs b hb, h.liveRefs, h.inode]

theorem Grown.then_keeps (h : Grown sb d d₁ i) (h' : Keeps sb d₁ d' i)
    (ht : (dinode sb d i).type ≠ 0) : Grown sb d d' i := by
  obtain ⟨b, hinode, hb⟩ := h.inode
  have ht₁ : (dinode sb d₁ i).type ≠ 0 := by
    rw [hinode]
    exact ht
  refine ⟨⟨b, h'.inode.trans hinode, hb⟩, (h'.content ht₁).trans h.content, ?_⟩
  intro b' hb'
  rw [h'.liveRefs, h.refs b' hb', h'.inode]

theorem Keeps.grown (h : Keeps sb d d' i) (ht : (dinode sb d i).type ≠ 0) : Grown sb d d' i :=
  h.then_grown (Grown.refl sb d' i) ht

/-- `iupdate` after a `bmap` that got no block. -/
theorem grown_iupdate (h : BlockOwnership sb d) (hi : i < sb.ninodes)
    (ht : (dinode sb d i).type ≠ 0) {bn : Nat}
    (hmap : bmap sb (dinode sb d i) bn d = .ok (0, ip, d₁)) (hv : ip.Valid)
    (hcontent : content sb (iupdate sb i ip d₁) i = content sb d i) :
    Grown sb d (iupdate sb i ip d₁) i := by
  obtain ⟨hown, -⟩ := blockOwnership_iff.mp h
  have hself : dinode sb (iupdate sb i ip d₁) i = ip := by rw [dinode_iupdate hv, if_pos rfl]
  rcases bmap_full hown hi ht hmap with ⟨rfl, rfl⟩ | ⟨b, hzero, rfl, hf⟩
  · refine ⟨⟨_, hself.trans (setAddr_indirect _).symm, fun _ ↦ rfl⟩, hcontent, ?_⟩
    intro b hb
    have hrefs := refs_congr (hown.indirect_iupdate hi (dinode sb d₁ i) hi ht) b
    rw [hself, liveRefs, liveRefs, if_neg ht, if_neg ht, hrefs, if_neg]
    · exact (Nat.add_zero _).symm
    · rintro ⟨hz, he⟩
      exact hb (he.symm.trans hz)
  · refine ⟨⟨b, hself, fun hne ↦ absurd hzero hne⟩, hcontent, ?_⟩
    intro b' hb'
    have hblock : iupdate sb i ((dinode sb d i).setAddr (Fin.last NDIRECT) b) d₁ b = d₁ b :=
      Function.update_of_ne (hf.data.ne_iblock hi) _ _
    have hnew : refs (iupdate sb i ((dinode sb d i).setAddr (Fin.last NDIRECT) b) d₁)
        ((dinode sb d i).setAddr (Fin.last NDIRECT) b) b' =
        refs d₁ ((dinode sb d i).setAddr (Fin.last NDIRECT) b) b' := by
      apply refs_congr
      intro _
      rw [indirect_setAddr_self]
      exact hblock
    have hold : refs d₁ (dinode sb d i) b' = refs d (dinode sb d i) b' :=
      refs_congr (fun hne ↦ absurd hzero hne) b'
    have htype : ((dinode sb d i).setAddr (Fin.last NDIRECT) b).type ≠ 0 := ht
    rw [hself, liveRefs, liveRefs, if_neg ht, if_neg htype, hnew,
      refs_setAddr_indirect hzero hf.ne_zero hf.zero hb', hold, indirect_setAddr_self]
    simp only [hzero, true_and, eq_comm (a := b') (b := b)]

variable (h : BlockOwnership sb d) (hi : i < sb.ninodes) (ht : (dinode sb d i).type ≠ 0)
  (hoff : off ≤ (dinode sb d i).size) (hmax : off + xs.length ≤ MAXFILE * BSIZE)
  (hn : 0 < xs.length)
  (hfit : off % BSIZE + xs.length ≤ BSIZE)

include h hi ht hoff hmax hn hfit

/-- `writei` for bytes of one block: all of them are written, or none because no block is left. -/
theorem writei_one : ∃ r d', writei sb i (dinode sb d i) (fun k ↦ xs[k]?) off xs.length d =
      .ok (some r, dinode sb d' i, d') ∧ (r = 0 ∨ r = xs.length) ∧ BlockOwnership sb d' ∧
      (dinode sb d' i).type = (dinode sb d i).type ∧
      (dinode sb d' i).nlink = (dinode sb d i).nlink ∧
      (∀ j, j < sb.ninodes → j ≠ i → Keeps sb d d' j) ∧ (r = 0 → Grown sb d d' i) := by
  obtain ⟨hown, -⟩ := blockOwnership_iff.mp h
  obtain ⟨r, d', hwi, hw, -, -⟩ :=
    writei_written h hi ht hoff hmax (fun k _ ↦ (rfl : (fun k ↦ xs[k]?) k = _))
  have hbn : off / BSIZE < MAXFILE := by
    apply (Nat.div_lt_iff_lt_mul (show 0 < BSIZE by decide)).mpr
    omega
  obtain ⟨addr, ip, d₁, hmap, hm⟩ := bmap_mapped hown hi ht hbn
  have hloop := writeLoop_one hn hfit hmap
  have hforeign {j : Nat} (hj : j < sb.ninodes) (hji : j ≠ i) (htj : (dinode sb d j).type ≠ 0)
      (hne : (dinode sb d j).indirect ≠ 0) := bmap_foreign hown hi ht hmap hj hji htj hne
  have hsize : ip.size = (dinode sb d i).size := by
    have := (hm.extend i hi ht).2.2.1
    rwa [Function.update_self] at this
  have htype : ip.type = (dinode sb d i).type := by
    have := (hm.extend i hi ht).1
    rwa [Function.update_self] at this
  have hvalid : ip.Valid := by
    have := hm.owned.valid i
    rwa [Function.update_self] at this
  by_cases haddr : addr = 0
  · rw [haddr] at hmap
    rw [if_pos haddr] at hloop
    have heq := writei_eq (i := i) hoff hmax (by rw [Nat.add_zero]; exact hloop)
    have hsame : { ip with size := max ip.size (off + 0) } = ip := by
      rw [Nat.max_eq_left (by omega)]
    rw [hsame, hwi, Except.ok.injEq, Prod.mk.injEq, Prod.mk.injEq] at heq
    obtain rfl : r = 0 := Option.some.inj heq.1
    obtain rfl := heq.2.2
    refine ⟨0, _, hwi, Or.inl rfl, hw.ownership, hw.type, hw.nlink, ?_, ?_⟩
    · intro j hj hji
      obtain ⟨hinode, hcontent⟩ := hw.others j hj hji
      refine ⟨hinode, hcontent, ?_⟩
      intro htj hne
      rw [← hforeign hj hji htj hne]
      exact Function.update_of_ne ((hown.indirect_isData hj htj hne).1.ne_iblock hi) _ _
    · intro _
      have hcontent := hw.content
      rw [List.take_zero, splice_nil] at hcontent
      exact grown_iupdate h hi ht hmap hvalid hcontent
  · rw [if_neg haddr] at hloop
    have heq := writei_eq (i := i) hoff hmax hloop
    rw [hwi, Except.ok.injEq, Prod.mk.injEq, Prod.mk.injEq] at heq
    have hr : r = xs.length := Option.some.inj heq.1
    refine ⟨r, d', hwi, Or.inr hr, hw.ownership, hw.type, hw.nlink, ?_, ?_⟩
    · intro j hj hji
      obtain ⟨hinode, hcontent⟩ := hw.others j hj hji
      refine ⟨hinode, hcontent, ?_⟩
      intro htj hne
      -- the bytes went to a data block of inode `i`
      have hself : Function.update (dinode sb d) i ip i = ip := Function.update_self _ _ _
      have hother : Function.update (dinode sb d) i ip j = dinode sb d j :=
        Function.update_of_ne hji _ _
      have hdata : 0 < dataRefs d₁ (Function.update (dinode sb d) i ip i) addr := by
        rw [hself, ← hm.found]
        exact dataRefs_lookup (by rw [hm.found]; exact haddr)
      have hdiff := hm.owned.ne_indirect hi (by rw [hself, htype]; exact ht) hj
        (by rw [hother]; exact htj) haddr hdata
      rw [hother] at hdiff
      rw [heq.2.2, ← hforeign hj hji htj hne]
      refine (Function.update_of_ne ((hown.indirect_isData hj htj hne).1.ne_iblock hi) _ _).trans ?_
      exact Function.update_of_ne hdiff _ _
    · intro hz
      omega

end

/-! ### `iput` -/

/-- The last reference to an inode without links is dropped: the inode is freed. -/
theorem itrunc_free (h : BlockOwnership sb d) (hi : i < sb.ninodes)
    (ht : (dinode sb d i).type ≠ 0) :
    ∃ ip d₁, itrunc sb i (dinode sb d i) d = .ok (ip, d₁) ∧ ip = (dinode sb d i).truncated ∧
      BlockOwnership sb (iupdate sb i { ip with type := 0 } d₁) ∧
      dinode sb (iupdate sb i { ip with type := 0 } d₁) i = { ip with type := 0 } ∧
      ∀ j, j < sb.ninodes → j ≠ i → Keeps sb d (iupdate sb i { ip with type := 0 } d₁) j := by
  obtain ⟨hown, hf⟩ := blockOwnership_iff.mp h
  obtain ⟨d₁, htrunc, hframe, -⟩ := itrunc_freed hown hi ht
  have hv := truncated_valid (dinode_valid sb d i)
  have hv' : ({ (dinode sb d i).truncated with type := 0 } : Dinode).Valid :=
    { hv with type := by simp }
  obtain ⟨d₂, htrunc₂, hown₂, hf₂, hself₂⟩ := itrunc_ok hown hf hi ht
  obtain rfl : d₂ = iupdate sb i (dinode sb d i).truncated d₁ := by
    rw [htrunc] at htrunc₂
    cases htrunc₂
    rfl
  have hfree := owned_replace hown₂ hf₂ hi hv' (fun b hb ↦ by
    rw [hself₂, liveRefs]
    split
    · rfl
    · exact refs_truncated _ hb) (fun _ _ ↦ if_pos rfl) rfl
  refine ⟨_, _, htrunc, rfl, blockOwnership_iff.mpr hfree, ?_, ?_⟩
  · rw [dinode_iupdate hv', if_pos rfl]
  · intro j hj hji
    apply keeps_of_data h hj
    · rw [dinode_iupdate hv', if_neg hji, dinode_iupdate hv, if_neg hji]
      exact dinode_congr (hframe _ (fun b _ ↦ sb.iblock_ne_bblock hj b))
    · intro x hx
      have hne := hx.ne_iblock hi
      refine (Function.update_of_ne hne _ _).trans ((Function.update_of_ne hne _ _).trans ?_)
      exact hframe x (fun b hb ↦ hx.ne_bblock hb)

end Xv6.Fs
