import Xv6.Sysfile.Dirlink

/-!
# Calls that fail leave the tree as it was

`create` that returns 0 and `sys_link` that returns -1 have given back what they took: the inode
that was made is free again, with its blocks, the link count is what it was, and no reference or
lock is left. What may stay is an indirect block in the parent directory.
-/

namespace Xv6.Sysfile

open Xv6.Lib Xv6.Fs Xv6.Dir

variable {sb : Super} {d d₁ d' : Disk} {s s' : State} {ref : Nat → Nat} {held : Multiset Nat}
variable {locks : List Nat} {x : Nat} {parent : Option Nat}

/-! ### The disk before and after -/

/-- The files, directories and blocks of two disks are the same, but for an indirect block of
directory `parent`. -/
structure Undone (sb : Super) (parent : Option Nat) (d d' : Disk) : Prop where
  types : ∀ x, x < sb.ninodes → (dinode sb d' x).type = (dinode sb d x).type
  fields : ∀ x, x < sb.ninodes → (dinode sb d x).type ≠ 0 →
    (dinode sb d' x).major = (dinode sb d x).major ∧
    (dinode sb d' x).minor = (dinode sb d x).minor ∧
    (dinode sb d' x).nlink = (dinode sb d x).nlink ∧ (dinode sb d' x).size = (dinode sb d x).size
  contents : ∀ x, x < sb.ninodes → (dinode sb d x).type ≠ 0 → content sb d' x = content sb d x
  maps : ∀ x, x < sb.ninodes → (dinode sb d x).type = T_DIR →
    dirMap (content sb d' x) = dirMap (content sb d x)
  pointers : ∀ x, x < sb.ninodes → (dinode sb d x).type ≠ 0 → ∀ k,
    (dinode sb d' x).addrs k = (dinode sb d x).addrs k ∨
      parent = some x ∧ k = Fin.last NDIRECT ∧ (dinode sb d x).addrs k = 0
  blocks : ∀ b, b < sb.size → used sb d' b = used sb d b ∨
    ∃ x, parent = some x ∧ x < sb.ninodes ∧ (dinode sb d x).indirect = 0 ∧
    (dinode sb d' x).indirect = b

theorem T_DIR_ne : T_DIR ≠ 0 := by decide

/-- The blocks in use follow from the pointers. -/
theorem undone_of (h : BlockOwnership sb d) (h' : BlockOwnership sb d')
    (hfree : ∀ x, x < sb.ninodes → (dinode sb d x).type = 0 → (dinode sb d' x).type = 0)
    (hgrown : ∀ x, x < sb.ninodes → (dinode sb d x).type ≠ 0 → Grown sb d d' x)
    (hkept : ∀ x, x < sb.ninodes → (dinode sb d x).type ≠ 0 → parent ≠ some x →
      dinode sb d' x = dinode sb d x) : Undone sb parent d d' := by
  have hfields (x : Nat) (hx : x < sb.ninodes) (ht : (dinode sb d x).type ≠ 0) :
      ∃ b, dinode sb d' x = (dinode sb d x).setAddr (Fin.last NDIRECT) b ∧
        ((dinode sb d x).indirect ≠ 0 → b = (dinode sb d x).indirect) := (hgrown x hx ht).inode
  refine ⟨?_, ?_, fun x hx ht ↦ (hgrown x hx ht).content, ?_, ?_, ?_⟩
  · intro x hx
    by_cases ht : (dinode sb d x).type = 0
    · rw [ht, hfree x hx ht]
    · obtain ⟨b, hb, -⟩ := hfields x hx ht
      rw [hb]
      rfl
  · intro x hx ht
    obtain ⟨b, hb, -⟩ := hfields x hx ht
    rw [hb]
    exact ⟨rfl, rfl, rfl, rfl⟩
  · intro x hx ht
    rw [(hgrown x hx (by rw [ht]; exact T_DIR_ne)).content]
  · intro x hx ht k
    by_cases hp : parent = some x
    · obtain ⟨b, hb, hsame⟩ := hfields x hx ht
      by_cases hk : k = Fin.last NDIRECT
      · by_cases hz : (dinode sb d x).indirect = 0
        · exact Or.inr ⟨hp, hk, by rw [hk]; exact hz⟩
        · left
          rw [hb, hsame hz, setAddr_indirect]
      · left
        rw [hb]
        exact Function.update_of_ne hk _ _
    · left
      rw [hkept x hx ht hp]
  · intro b hb
    by_cases hnew : ∃ x, x < sb.ninodes ∧ (dinode sb d x).type ≠ 0 ∧ (dinode sb d x).indirect = 0 ∧
        (dinode sb d' x).indirect = b ∧ b ≠ 0
    · obtain ⟨x, hx, ht, hz, hi, hne⟩ := hnew
      refine Or.inr ⟨x, ?_, hx, hz, hi⟩
      by_contra hp
      rw [hkept x hx ht hp, hz] at hi
      exact hne hi.symm
    · left
      by_cases hmeta : b < sb.nmeta
      · rw [h.metadata b hmeta, h'.metadata b hmeta]
      · have hdata : sb.IsData b := ⟨by omega, hb⟩
        have hne := hdata.ne_zero
        -- each inode has the same pointers to the block
        have htotal : totalRefs sb d' (dinode sb d') b = totalRefs sb d (dinode sb d) b := by
          apply Finset.sum_congr rfl
          intro x _
          by_cases ht : (dinode sb d x).type = 0
          · rw [liveRefs, liveRefs, if_pos ht, if_pos (hfree x x.isLt ht)]
          · rw [(hgrown x x.isLt ht).refs b hne, if_neg, Nat.add_zero]
            rintro ⟨hz, hi⟩
            exact hnew ⟨x, x.isLt, ht, hz, hi, hne⟩
        have hiff {d : Disk} (h : BlockOwnership sb d) :
            used sb d b = true ↔ totalRefs sb d (dinode sb d) b = 1 := by
          constructor
          · exact h.marked b hdata
          · intro hone
            exact (h.pointers b hne (by omega)).2
        rw [Bool.eq_iff_iff, hiff h, hiff h', htotal]

theorem Undone.refl (h : BlockOwnership sb d) : Undone sb parent d d :=
  undone_of h h (fun _ _ ht ↦ ht) (fun x _ _ ↦ Grown.refl sb d x) (fun _ _ _ _ ↦ rfl)

/-! ### Fields that are set -/

theorem relabels_nlink (sb : Super) (d : Disk) (x : Nat) {nlink : Nat} (hn : nlink < 2 ^ 16) :
    Relabels (dinode sb d x) { dinode sb d x with nlink := nlink } :=
  ⟨{ dinode_valid sb d x with nlink := hn }, rfl, rfl, rfl⟩

section
variable {ip : Dinode} (hr : Relabels (dinode sb s.disk x) ip)

include hr

theorem dinode_setFields : dinode sb (setFields sb x ip s).disk x = ip := by
  change dinode sb (iupdate sb x ip s.disk) x = ip
  rw [dinode_iupdate hr.valid, if_pos rfl]

variable (hown : BlockOwnership sb s.disk) (hx : x < sb.ninodes)

include hown hx

theorem setFields_ownership : BlockOwnership sb (setFields sb x ip s).disk :=
  ownership_relabel hown hx hr

theorem setFields_keeps {y : Nat} (hy : y < sb.ninodes) (hne : y ≠ x) :
    Keeps sb s.disk (setFields sb x ip s).disk y := iupdate_keeps hown hx hr.valid hy hne

theorem setFields_uses (h : Uses sb ref held locks s) (ht : (dinode sb s.disk x).type ≠ 0) :
    Uses sb ref held locks (setFields sb x ip s) := by
  refine ⟨h.refs, h.locked, h.inodes, ?_⟩
  intro y hy hv
  by_cases hyx : y = x
  · rw [hyx, dinode_setFields hr, hr.type]
    exact ⟨Function.update_self _ _ _, ht⟩
  · rw [(setFields_keeps hr hown hx (h.inodes y hy) hyx).inode]
    obtain ⟨hip, hty⟩ := h.fields y hy hv
    exact ⟨(Function.update_of_ne hyx _ _).trans hip, hty⟩

end

/-! ### The end of `create` at `fail` -/

/-- `iput` of the only reference to an inode without links frees it. -/
theorem iput_frees (h : Uses sb ref (x ::ₘ held) locks s) (hown : BlockOwnership sb s.disk)
    (href : ref x = 0) (hx : x ∉ held) (hlock : x ∉ locks) (hv : s.valid x = true)
    (hzero : (dinode sb s.disk x).nlink = 0) (heq : iput sb x s = .ok s') :
    Uses sb ref held locks s' ∧ BlockOwnership sb s'.disk ∧ (dinode sb s'.disk x).type = 0 ∧
      ∀ y, y < sb.ninodes → y ≠ x → Keeps sb s.disk s'.disk y := by
  have hpos := h.ref_pos (Multiset.mem_cons_self x held)
  have hone : s.ref x = 1 := by
    rw [h.refs, href, Multiset.count_cons_self, Multiset.count_eq_zero_of_notMem hx]
  obtain ⟨hip, ht⟩ := h.fields x hpos hv
  have hin := h.inodes x hpos
  obtain ⟨ip, d, htrunc, -, hown', hself, hkeeps⟩ := itrunc_free hown hin ht
  have hfree : s.locked x = false := by
    rw [h.locked]
    exact decide_eq_false hlock
  rw [iput, if_pos ⟨hone, hv, by rw [hip]; exact hzero⟩, hfree, hip] at heq
  simp only [Bool.false_eq_true, if_false, htrunc] at heq
  cases heq
  have hkept {y : Nat} (hy : 0 < Function.update s.ref x 0 y) : y ≠ x ∧ 0 < s.ref y := by
    rw [Function.update_apply] at hy
    split at hy
    · omega
    · next hyx => exact ⟨hyx, hy⟩
  have hrefs (y : Nat) : Function.update s.ref x 0 y = ref y + held.count y := by
    rw [Function.update_apply]
    split
    · next hy => rw [hy, href, Multiset.count_eq_zero_of_notMem hx]
    · next hy => rw [h.refs, Multiset.count_cons_of_ne hy]
  refine ⟨⟨hrefs, h.locked, fun y hy ↦ h.inodes y (hkept hy).2, ?_⟩, hown', by rw [hself], hkeeps⟩
  intro y hy hvy
  obtain ⟨hyx, hy⟩ := hkept hy
  have hvy' : s.valid y = true := (Function.update_of_ne hyx _ _).symm.trans hvy
  obtain ⟨hipy, hty⟩ := h.fields y hy hvy'
  rw [(hkeeps y (h.inodes y hy) hyx).inode]
  exact ⟨(Function.update_of_ne hyx _ _).trans hipy, hty⟩

section
variable {ip dp : Nat}

/-- `fail`: the new inode is free again, and both inodes are unlocked and given back. -/
theorem createFail_frees (h : Uses sb ref (ip ::ₘ {dp}) [ip, dp] s)
    (hown : BlockOwnership sb s.disk) (hne : ip ≠ dp) (href : ref ip = 0) (hv : s.valid ip = true)
    (hl : Linked sb ref s.disk dp) {r : Option Nat} (heq : createFail sb ip dp s = .ok (r, s')) :
    Uses sb ref 0 [] s' ∧ BlockOwnership sb s'.disk ∧ (dinode sb s'.disk ip).type = 0 ∧
      ∀ y, y < sb.ninodes → y ≠ ip → Keeps sb s.disk s'.disk y := by
  have hpos := h.ref_pos (Multiset.mem_cons_self ip {dp})
  have hin := h.inodes ip hpos
  obtain ⟨hip, ht⟩ := h.fields ip hpos hv
  have hrel := relabels_nlink sb s.disk ip (show 0 < 2 ^ 16 by decide)
  have hnotin : ip ∉ [dp] := fun hm ↦ hne (List.mem_singleton.mp hm)
  -- `ip->nlink = 0` and `iupdate`
  obtain ⟨s₂, hput₁, heq⟩ := bind_ok heq
  rw [hip] at hput₁
  have h₁ := setFields_uses hrel hown hin h ht
  have hown₁ := setFields_ownership hrel hown hin
  have hself₁ := dinode_setFields hrel
  have hkeeps₁ {y : Nat} := setFields_keeps hrel hown hin (y := y)
  have hv₁ : (setFields sb ip { dinode sb s.disk ip with nlink := 0 } s).valid ip = true := hv
  generalize setFields sb ip { dinode sb s.disk ip with nlink := 0 } s =
    s₁ at hput₁ h₁ hown₁ hself₁ hkeeps₁ hv₁
  -- `iunlockput(ip)` frees the inode
  obtain ⟨s', hunlock, hfree⟩ := bind_ok hput₁
  obtain ⟨h', hd', -, -, hv'⟩ := h₁.iunlock hnotin hunlock
  obtain ⟨h₂, hown₂, htype₂, hkeeps₂⟩ := iput_frees h' (by rw [hd']; exact hown₁) href
    (fun hm ↦ hne (Multiset.mem_singleton.mp hm)) hnotin (by rw [hv']; exact hv₁)
    (by rw [hd', hself₁]) hfree
  rw [hd'] at hkeeps₂
  have hkeeps {y : Nat} (hy : y < sb.ninodes) (hyip : y ≠ ip) : Keeps sb s.disk s₂.disk y :=
    (hkeeps₁ hy hyip).trans (hkeeps₂ y hy hyip)
  -- `iunlockput(dp)`
  obtain ⟨s₃, hput₂, hend⟩ := bind_ok heq
  cases hend
  have hdp : dp < sb.ninodes :=
    h.inodes dp (h.ref_pos (Multiset.mem_cons_of_mem (Multiset.mem_singleton_self dp)))
  have hl₂ : Linked sb ref s₂.disk dp := by
    unfold Linked
    rw [(hkeeps hdp hne.symm).inode]
    exact hl
  have h₂' : Uses sb ref (dp ::ₘ 0) [dp] s₂ := h₂
  obtain ⟨h₃, hd₃⟩ := h₂'.iunlockput List.not_mem_nil hl₂ hput₂
  rw [hd₃]
  exact ⟨h₃, hown₂, htype₂, fun y hy hyip ↦ hkeeps hy hyip⟩

/-! ### `create` -/

/-- Inside `create`, with the new inode and the parent directory locked; the other files are as they
were on the disk `d` before. -/
structure Making (sb : Super) (ref : Nat → Nat) (ip dp : Nat) (d : Disk) (s : State) : Prop where
  uses : Uses sb ref (ip ::ₘ {dp}) [ip, dp] s
  ownership : BlockOwnership sb s.disk
  valid : s.valid ip = true
  validParent : s.valid dp = true
  keeps : ∀ y, y < sb.ninodes → y ≠ ip → Keeps sb d s.disk y

namespace Making
variable (h : Making sb ref ip dp d s)

include h

theorem pos : 0 < s.ref ip := h.uses.ref_pos (Multiset.mem_cons_self ip {dp})

theorem posParent : 0 < s.ref dp :=
  h.uses.ref_pos (Multiset.mem_cons_of_mem (Multiset.mem_singleton_self dp))

theorem fields : s.ip ip = dinode sb s.disk ip ∧ (dinode sb s.disk ip).type ≠ 0 :=
  h.uses.fields ip h.pos h.valid

theorem lt : ip < sb.ninodes := h.uses.inodes ip h.pos

/-- An entry of the new directory. -/
theorem dirlink {name : Name} {inum : Nat} {ok : Bool}
    (heq : Sysfile.dirlink sb ip name inum s = .ok (ok, s')) : Making sb ref ip dp d s' := by
  obtain ⟨hip, ht⟩ := h.fields
  have hl := dirlink_linking h.ownership h.lt hip ht heq
  refine ⟨hl.uses h.uses ht, hl.ownership, ?_, ?_, ?_⟩
  · rw [hl.valid ip h.pos]
    exact h.valid
  · rw [hl.valid dp h.posParent]
    exact h.validParent
  · intro y hy hne
    exact (h.keeps y hy hne).trans (hl.keeps y hy hne)

theorem dotEntries {type : Nat} {ok : Bool}
    (heq : Sysfile.dotEntries sb ip dp type s = .ok (ok, s')) :
    Making sb ref ip dp d s' := by
  unfold Sysfile.dotEntries at heq
  split at heq
  · obtain ⟨⟨ok₁, s₁⟩, hdot, heq⟩ := bind_ok heq
    have h₁ := h.dirlink hdot
    simp only at heq
    split at heq
    · exact h₁.dirlink heq
    · cases heq
      exact h₁
  · cases heq
    exact h

end Making

/-- `fail` after the last file that changed besides the new inode was the parent directory. -/
theorem fail_undone {r : Option Nat} (hd : BlockOwnership sb d)
    (h : Uses sb ref (ip ::ₘ {dp}) [ip, dp] s) (hown : BlockOwnership sb s.disk) (hne : ip ≠ dp)
    (hfree : (dinode sb d ip).type = 0) (href : ref ip = 0) (hv : s.valid ip = true)
    (hdp : (dinode sb d dp).type ≠ 0) (hl : Linked sb ref d dp)
    (hkeeps : ∀ y, y < sb.ninodes → y ≠ ip → y ≠ dp → Keeps sb d s.disk y)
    (hgrown : Grown sb d s.disk dp) (heq : createFail sb ip dp s = .ok (r, s')) :
    Uses sb ref 0 [] s' ∧ Undone sb (some dp) d s'.disk := by
  have hl' : Linked sb ref s.disk dp := by
    obtain ⟨b, hb, -⟩ := hgrown.inode
    unfold Linked
    rw [hb]
    exact hl
  obtain ⟨h', hown', htype', hkeeps'⟩ := createFail_frees h hown hne href hv hl' heq
  have hall (y : Nat) (hy : y < sb.ninodes) (hyip : y ≠ ip) (hydp : y ≠ dp) :
      Keeps sb d s'.disk y :=
    (hkeeps y hy hyip hydp).trans (hkeeps' y hy hyip)
  have hnot {y : Nat} (ht : (dinode sb d y).type ≠ 0) : y ≠ ip := by
    rintro rfl
    exact ht hfree
  have hdplt : dp < sb.ninodes :=
    h.inodes dp (h.ref_pos (Multiset.mem_cons_of_mem (Multiset.mem_singleton_self dp)))
  refine ⟨h', undone_of hd hown' ?_ ?_ ?_⟩
  · intro y hy ht
    by_cases hyip : y = ip
    · rw [hyip]
      exact htype'
    · have hydp : y ≠ dp := by
        rintro rfl
        exact hdp ht
      rw [(hall y hy hyip hydp).inode]
      exact ht
  · intro y hy ht
    by_cases hydp : y = dp
    · rw [hydp]
      exact hgrown.then_keeps (hkeeps' dp hdplt hne.symm) hdp
    · exact (hall y hy (hnot ht) hydp).grown ht
  · intro y hy ht hp
    exact (hall y hy (hnot ht) (fun he ↦ hp (congrArg some he.symm))).inode

/-- The new inode gets its first fields. -/
theorem Making.start {major minor : Nat} (hmajor : major < 2 ^ 16) (hminor : minor < 2 ^ 16)
    (h : Uses sb ref (ip ::ₘ {dp}) [ip, dp] s) (hown : BlockOwnership sb s.disk)
    (hv : s.valid ip = true) (hvdp : s.valid dp = true)
    (hkeeps : ∀ y, y < sb.ninodes → y ≠ ip → Keeps sb d s.disk y) :
    Making sb ref ip dp d
      (setFields sb ip { s.ip ip with major := major, minor := minor, nlink := 1 } s) := by
  have hpos := h.ref_pos (Multiset.mem_cons_self ip {dp})
  obtain ⟨hip, ht⟩ := h.fields ip hpos hv
  have hin := h.inodes ip hpos
  have hrel : Relabels (dinode sb s.disk ip)
      { dinode sb s.disk ip with major := major, minor := minor, nlink := 1 } :=
    ⟨{ dinode_valid sb s.disk ip with
        major := hmajor, minor := hminor, nlink := Nat.one_lt_two_pow (by decide) }, rfl, rfl, rfl⟩
  rw [hip]
  refine ⟨setFields_uses hrel hown hin h ht, setFields_ownership hrel hown hin, hv, hvdp, ?_⟩
  intro y hy hne
  exact (hkeeps y hy hne).trans (setFields_keeps hrel hown hin hy hne)

/-- `create` from the `ilock` of the new inode on, when it fails. -/
theorem createLink_undone {name : Name} {type major minor : Nat} (hmajor : major < 2 ^ 16)
    (hminor : minor < 2 ^ 16) (hd : BlockOwnership sb d) (h : Uses sb ref (ip ::ₘ {dp}) [dp] s)
    (hown : BlockOwnership sb s.disk) (hfree : (dinode sb d ip).type = 0) (href : ref ip = 0)
    (hdp : (dinode sb d dp).type ≠ 0) (hvdp : s.valid dp = true) (hl : Linked sb ref d dp)
    (hkeeps : ∀ y, y < sb.ninodes → y ≠ ip → Keeps sb d s.disk y)
    (heq : createLink sb dp name ip type major minor s = .ok (none, s')) :
    Uses sb ref 0 [] s' ∧ Undone sb (some dp) d s'.disk := by
  have hne : ip ≠ dp := by
    rintro rfl
    exact hdp hfree
  obtain ⟨s₁, hlock, hrest⟩ := bind_ok heq
  obtain ⟨h₁, hd₁, -, -, -, -, -, hv₁, hvother⟩ := h.ilock hlock
  rw [← hd₁] at hown hkeeps
  have hmake :=
    Making.start hmajor hminor h₁ hown hv₁ (by rw [hvother dp hne.symm]; exact hvdp) hkeeps
  generalize setFields sb ip { s₁.ip ip with major := major, minor := minor, nlink := 1 } s₁ =
    s₂ at hrest hmake
  obtain ⟨⟨ok, s₃⟩, hdots, hrest'⟩ := bind_ok hrest
  have hmake₃ := hmake.dotEntries hdots
  have hdplt : dp < sb.ninodes := hmake₃.uses.inodes dp hmake₃.posParent
  have hkeepdp := hmake₃.keeps dp hdplt hne.symm
  simp only at hrest'
  split at hrest'
  · exact fail_undone hd hmake₃.uses hmake₃.ownership hne hfree href hmake₃.valid hdp hl
      (fun y hy hyip _ ↦ hmake₃.keeps y hy hyip) (hkeepdp.grown hdp) hrest'
  · obtain ⟨⟨ok', s₄⟩, hlink, hend⟩ := bind_ok hrest'
    obtain ⟨hipdp, htdp⟩ := hmake₃.uses.fields dp hmake₃.posParent hmake₃.validParent
    have hlinking := dirlink_linking hmake₃.ownership hdplt hipdp htdp hlink
    simp only at hend
    split at hend
    · next hfail =>
      refine fail_undone hd (hlinking.uses hmake₃.uses htdp) hlinking.ownership hne hfree href ?_
        hdp hl ?_
        (hkeepdp.then_grown (hlinking.grown hfail) hdp) hend
      · rw [hlinking.valid ip hmake₃.pos]
        exact hmake₃.valid
      · intro y hy hyip hydp
        exact (hmake₃.keeps y hy hyip).trans (hlinking.keeps y hy hydp)
    · obtain ⟨s₅, -, hend⟩ := bind_ok hend
      cases hend

end

theorem newDinode_valid {type : Nat} (htype : type < 2 ^ 16) : (newDinode type).Valid := by
  constructor
  · exact htype
  all_goals simp [newDinode]

/-- `ialloc` that finds a free inode. -/
theorem ialloc_new (h : Uses sb ref held locks s) (hown : BlockOwnership sb s.disk)
    (hfree : ∀ y, 0 < s.ref y → (dinode sb s.disk y).type ≠ 0) {type : Nat} (htype : type < 2 ^ 16)
    (heq : ialloc sb type s = .ok (some x, s')) :
    x < sb.ninodes ∧ (dinode sb s.disk x).type = 0 ∧ Uses sb ref (x ::ₘ held) locks s' ∧
      BlockOwnership sb s'.disk ∧ s.ref x = 0 ∧ (∀ y, y ≠ x → s'.valid y = s.valid y) ∧
      ∀ y, y < sb.ninodes → y ≠ x → Keeps sb s.disk s'.disk y := by
  have hok := ialloc_ok (blockOwnership_iff.mp hown).1 (blockOwnership_iff.mp hown).2 htype
  unfold ialloc at heq
  split at heq
  · next y d hnew =>
    obtain ⟨s₁, hget, hend⟩ := bind_ok heq
    cases hend
    rw [hnew] at hok
    unfold Fs.ialloc at hnew
    split at hnew
    · next z hfind =>
      cases hnew
      obtain ⟨hlo, hhi, hz, -⟩ := firstFrom_eq_some hfind
      have hzero : (dinode sb s.disk x).type = 0 := by simpa using hz
      have hx : x < sb.ninodes := by omega
      have href : s.ref x = 0 := by
        apply Nat.eq_zero_of_not_pos
        intro hpos
        exact hfree x hpos hzero
      have hkeeps {y : Nat} (hy : y < sb.ninodes) (hne : y ≠ x) :
          Keeps sb s.disk (iupdate sb x (newDinode type) s.disk) y :=
        iupdate_keeps hown hx (newDinode_valid htype) hy hne
      have h₀ : Uses sb ref held locks { s with disk := iupdate sb x (newDinode type) s.disk } := by
        refine ⟨h.refs, h.locked, h.inodes, ?_⟩
        intro y hy hv
        have hne : y ≠ x := by
          rintro rfl
          exact absurd hy (by simp only; omega)
        rw [(hkeeps (h.inodes y hy) hne).inode]
        exact h.fields y hy hv
      obtain ⟨h₁, hd₁⟩ := h₀.iget hx hget
      obtain ⟨-, -, -, -, hvalid⟩ := iget_spec hget
      refine ⟨hx, hzero, h₁, ?_, href, ?_, ?_⟩
      · rw [hd₁]
        exact blockOwnership_iff.mpr hok
      · intro y hy
        rw [hvalid, if_neg (fun hc ↦ hy hc.1)]
      · intro y hy hne
        rw [hd₁]
        exact hkeeps hy hne
    · cases hnew
  · cases heq

/-- `ialloc` that finds none. -/
theorem ialloc_none {type : Nat} (heq : ialloc sb type s = .ok (none, s')) : s' = s := by
  unfold ialloc at heq
  split at heq
  · obtain ⟨s₁, -, hend⟩ := bind_ok heq
    cases hend
  · cases heq
    rfl

/-! ### States between system calls -/

/-- The entries of directory `y` that count as links to inode `x`: its own "." does not. -/
def entriesTo (sb : Super) (d : Disk) (x y : Nat) : Nat :=
  (List.range (slots (content sb d y))).countP (fun q ↦
    decide (slotInum (content sb d y) q = x ∧ ¬ (y = x ∧ slotKey (content sb d y) q = [46])))

/-- The links to inode `x` from directories whose own link count, a `short`, is positive. -/
def linkCount (sb : Super) (d : Disk) (x : Nat) : Nat :=
  ∑ y : Fin sb.ninodes,
    if (dinode sb d y).type = T_DIR ∧ 0 < (dinode sb d y).nlink ∧
    (dinode sb d y).nlink < 2 ^ 15 then
      entriesTo sb d x y
    else 0

/-- Link counts are exact, and an inode that nothing names or references is free. -/
structure LinkCounts (sb : Super) (s : State) : Prop where
  exact : ∀ x, x < sb.ninodes → (dinode sb s.disk x).type ≠ 0 →
    (dinode sb s.disk x).nlink = linkCount sb s.disk x
  free : ∀ x, x < sb.ninodes → linkCount sb s.disk x = 0 → s.ref x = 0 →
    (dinode sb s.disk x).type = 0

/-- A file system between system calls: block ownership and the link counts hold, the entries of
directories and the inode table are about inodes of the disk, and no inode is locked. -/
structure Sound (sb : Super) (s : State) : Prop where
  ownership : BlockOwnership sb s.disk
  links : LinkCounts sb s
  entries : EntriesOk sb s.disk
  root : ROOTINO < sb.ninodes
  inodes : ∀ x, 0 < s.ref x → x < sb.ninodes ∧ (dinode sb s.disk x).type ≠ 0
  fields : ∀ x, 0 < s.ref x → s.valid x = true → s.ip x = dinode sb s.disk x
  unlocked : ∀ x, s.locked x = false

theorem Sound.uses (h : Sound sb s) : Uses sb s.ref 0 [] s := by
  refine ⟨fun _ ↦ rfl, h.unlocked, fun y hy ↦ (h.inodes y hy).1, ?_⟩
  intro y hy hv
  exact ⟨h.fields y hy hv, (h.inodes y hy).2⟩

theorem Sound.linked (h : Sound sb s) (x : Nat) : Linked sb s.ref s.disk x := by
  intro hx ht
  by_contra hno
  rw [not_or, not_not] at hno
  apply ht
  apply h.links.free x hx
  · rw [← h.links.exact x hx ht]
    exact hno.1
  · omega

/-- What a call that failed leaves behind. -/
structure Restored (sb : Super) (parent : Option Nat) (s s' : State) : Prop where
  disk : Undone sb parent s.disk s'.disk
  refs : ∀ x, s'.ref x = s.ref x
  locked : ∀ x, s'.locked x = s.locked x
  fields : ∀ x, 0 < s'.ref x → s'.valid x = true → s'.ip x = dinode sb s'.disk x

theorem Restored.of_uses (h : Sound sb s) (hu : Uses sb s.ref 0 [] s')
    (hd : Undone sb parent s.disk s'.disk) : Restored sb parent s s' := by
  refine ⟨hd, hu.refs, ?_, fun x hx hv ↦ (hu.fields x hx hv).1⟩
  intro x
  rw [hu.locked, h.unlocked]
  rfl

theorem Restored.of_same (h : Sound sb s) (hu : Uses sb s.ref 0 [] s') (hd : s'.disk = s.disk) :
    Restored sb parent s s' := by
  apply Restored.of_uses h hu
  rw [hd]
  exact Undone.refl h.ownership

/-! ### The calls -/

/-- `create` that returns 0. -/
theorem create_restored (h : Sound sb s) {cwd : Nat} (hcwd : 0 < s.ref cwd) {path : List UInt8}
    {type major minor : Nat} (htype : type < 2 ^ 16) (hmajor : major < 2 ^ 16)
    (hminor : minor < 2 ^ 16) {buf : Name}
    (heq : create sb cwd path type major minor buf s = .ok (none, s')) :
    Restored sb (parentDir sb s.disk cwd path buf) s s' := by
  obtain ⟨⟨found, s₁⟩, hwalk, hrest⟩ := bind_ok heq
  have hw := namex_walked h.ownership h.linked h.entries h.root (fun _ _ _ ↦ rfl) h.uses hcwd hwalk
  have hd₁ := hw.disk
  have h₁ := hw.uses
  cases found with
  | none =>
    cases hrest
    exact Restored.of_same h h₁ hd₁
  | some q =>
    obtain ⟨dp, name⟩ := q
    obtain ⟨hparent, hdir⟩ := hw.dir rfl dp name rfl
    rw [hparent]
    have hdp : (dinode sb s.disk dp).type ≠ 0 := by
      rw [hdir]
      exact T_DIR_ne
    obtain ⟨s₂, hlock, hrest₂⟩ := bind_ok hrest
    obtain ⟨h₂, hd₂, -, -, hpos₂, hip₂, -, hv₂, -⟩ := h₁.ilock hlock
    rw [hd₁] at hd₂ hip₂
    have hin := h₁.inodes dp hpos₂
    have hlinked : Linked sb s.ref s₂.disk dp := by
      rw [hd₂]
      exact h.linked dp
    have h₂' : Uses sb s.ref (dp ::ₘ 0) [dp] s₂ := h₂
    obtain ⟨⟨found, s₃⟩, hlook, hrest₃⟩ := bind_ok hrest₂
    obtain ⟨-, hcases⟩ :=
      dirlookup_cases (by rw [hd₂]; exact h.ownership) hin (by rw [hd₂]; exact hip₂)
      (by rw [hd₂]; exact hdp) hlook
    rcases hcases with ⟨hnone, hs₃⟩ | ⟨y, hsome, hget, -, k, hk, hkey⟩
    · rw [hnone, hs₃] at hrest₃
      obtain ⟨⟨new, s₄⟩, halloc, hrest₄⟩ := bind_ok hrest₃
      cases new with
      | none =>
        obtain ⟨s₅, hput, hend⟩ := bind_ok hrest₄
        cases hend
        rw [ialloc_none halloc] at hput
        obtain ⟨h₅, hd₅⟩ := h₂'.iunlockput List.not_mem_nil hlinked hput
        exact Restored.of_same h h₅ (hd₅.trans hd₂)
      | some ip =>
        -- all inodes in the table are allocated, the parent directory included
        have hlive (y : Nat) (hy : 0 < s₂.ref y) : (dinode sb s₂.disk y).type ≠ 0 := by
          rw [hd₂]
          by_cases hydp : y = dp
          · rw [hydp]
            exact hdp
          · rw [h₂'.refs, Multiset.count_cons_of_ne hydp] at hy
            exact (h.inodes y hy).2
        obtain ⟨-, hzero, h₄, hown₄, href, hvalid, hkeeps⟩ :=
          ialloc_new h₂ (by rw [hd₂]; exact h.ownership)
          hlive htype halloc
        rw [hd₂] at hzero hkeeps
        have hbase : s.ref ip = 0 := by
          have := h₂.refs ip
          omega
        have hne : dp ≠ ip := by
          rintro rfl
          exact hdp hzero
        obtain ⟨h₅, hundone⟩ := createLink_undone hmajor hminor h.ownership h₄ hown₄ hzero hbase hdp
          (by rw [hvalid dp hne]; exact hv₂) (h.linked dp) hkeeps hrest₄
        exact Restored.of_uses h h₅ hundone
    · -- the name is bound already
      rw [hd₂] at hk hkey
      have hy : y < sb.ninodes := by
        rw [← hkey]
        exact h.entries dp hin hdir k hk
      obtain ⟨h₃, hd₃⟩ := h₂'.iget hy hget
      rw [Multiset.cons_swap] at h₃
      rw [hsome] at hrest₃
      obtain ⟨s₄, hput, hrest₄⟩ := bind_ok hrest₃
      obtain ⟨h₄, hd₄⟩ := h₃.iunlockput List.not_mem_nil (by rw [hd₃]; exact hlinked) hput
      obtain ⟨s₅, hlock₅, hrest₅⟩ := bind_ok hrest₄
      obtain ⟨h₅, hd₅, -⟩ := h₄.ilock hlock₅
      have hsame : s₅.disk = s.disk := by rw [hd₅, hd₄, hd₃, hd₂]
      split at hrest₅
      · cases hrest₅
      · obtain ⟨s₆, hput₆, hend⟩ := bind_ok hrest₅
        cases hend
        obtain ⟨h₆, hd₆⟩ := h₅.iunlockput List.not_mem_nil (by rw [hsame]; exact h.linked y) hput₆
        exact Restored.of_same h h₆ (hd₆.trans hsame)

end Xv6.Sysfile
