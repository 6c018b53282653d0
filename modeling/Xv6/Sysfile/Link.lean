import Xv6.Sysfile.Undo

/-!
# `sys_link` that fails

`sys_link` increments the link count before it looks for the new directory, and decrements it at
`bad`; in between the inode is unlocked, and the reference of the call keeps it.
-/

namespace Xv6.Sysfile

open Xv6.Lib Xv6.Fs Xv6.Dir

variable {sb : Super} {d d₁ : Disk} {s s' : State} {x : Nat} {parent : Option Nat}

/-- The link count of an inode is set, and set back: the inode is as before. -/
theorem relabel_back {ip ip' : Dinode} (h : BlockOwnership sb d) (hx : x < sb.ninodes)
    (ht : (dinode sb d x).type ≠ 0) (hr : Relabels (dinode sb d x) ip)
    (hmid : Keeps sb (iupdate sb x ip d) d₁ x) (h₁ : BlockOwnership sb d₁)
    (hr' : Relabels (dinode sb d₁ x) ip') (hback : ip' = dinode sb d x) :
    Keeps sb d (iupdate sb x ip' d₁) x := by
  obtain ⟨hown, -⟩ := blockOwnership_iff.mp h
  obtain ⟨hown₁, -⟩ := blockOwnership_iff.mp h₁
  have hself : dinode sb (iupdate sb x ip d) x = ip := by rw [dinode_iupdate hr.valid, if_pos rfl]
  have hself₁ : dinode sb d₁ x = ip := hmid.inode.trans hself
  have htype : (dinode sb (iupdate sb x ip d) x).type ≠ 0 := by
    rw [hself, hr.type]
    exact ht
  have htype₁ : (dinode sb d₁ x).type ≠ 0 := by
    rw [hmid.inode]
    exact htype
  refine ⟨?_, ?_, ?_⟩
  · rw [dinode_iupdate hr'.valid, if_pos rfl, hback]
  · intro _
    rw [content_relabel h₁ hx htype₁ hr', hmid.content htype, content_relabel h hx ht hr]
  · intro _ hne
    have hind : (dinode sb d₁ x).indirect = (dinode sb d x).indirect := by
      rw [hself₁, Dinode.indirect, Dinode.indirect, hr.addrs]
    have hind' : (dinode sb (iupdate sb x ip d) x).indirect = (dinode sb d x).indirect := by
      rw [hself, Dinode.indirect, Dinode.indirect, hr.addrs]
    have hlast := hown₁.indirect_iupdate hx ip' hx htype₁ (by rw [hind]; exact hne)
    have hmiddle := hmid.indirect htype (by rw [hind']; exact hne)
    rw [hind] at hlast
    rw [hind'] at hmiddle
    rw [hlast, hmiddle]
    exact hown.indirect_iupdate hx ip hx ht hne

/-- `bad`: the link count is what it was, and the reference is given back. -/
theorem linkBad_restored {ip : Nat} (h : Sound sb s) (hip : ip < sb.ninodes)
    (ht : (dinode sb s.disk ip).type ≠ 0) {s₁ : State} (h₁ : Uses sb s.ref (ip ::ₘ 0) [] s₁)
    (hown₁ : BlockOwnership sb s₁.disk)
    (hmid : Keeps sb (iupdate sb ip
      { dinode sb s.disk ip with nlink := ((dinode sb s.disk ip).nlink + 1) % 2 ^ 16 } s.disk)
        s₁.disk ip)
    (hothers : ∀ y, y < sb.ninodes → y ≠ ip → Keeps sb s.disk s₁.disk y ∨
      parent = some y ∧ (dinode sb s.disk y).type ≠ 0 ∧ Grown sb s.disk s₁.disk y) {r : Bool}
    (heq : linkBad sb ip s₁ = .ok (r, s')) : Restored sb parent s s' := by
  have hlt := (dinode_valid sb s.disk ip).nlink
  have hrel := relabels_nlink sb s.disk ip
    (Nat.mod_lt ((dinode sb s.disk ip).nlink + 1) (show 2 ^ 16 > 0 by decide))
  have hself : dinode sb s₁.disk ip =
      { dinode sb s.disk ip with nlink := ((dinode sb s.disk ip).nlink + 1) % 2 ^ 16 } := by
    rw [hmid.inode, dinode_iupdate hrel.valid, if_pos rfl]
  obtain ⟨s₂, hlock, hrest⟩ := bind_ok heq
  obtain ⟨h₂, hd₂, -, -, -, hip₂, ht₂, -⟩ := h₁.ilock hlock
  rw [← hd₂] at hmid hown₁ hothers hself hip₂ ht₂
  have hrel₂ := relabels_nlink sb s₂.disk ip
    (Nat.mod_lt ((dinode sb s₂.disk ip).nlink + (2 ^ 16 - 1)) (show 2 ^ 16 > 0 by decide))
  have hback : { dinode sb s₂.disk ip with
      nlink := ((dinode sb s₂.disk ip).nlink + (2 ^ 16 - 1)) % 2 ^ 16 } = dinode sb s.disk ip := by
    have hnlink : (((dinode sb s.disk ip).nlink + 1) % 2 ^ 16 + (2 ^ 16 - 1)) % 2 ^ 16 =
        (dinode sb s.disk ip).nlink := by omega
    rw [hself, hnlink]
  have hkeep := relabel_back h.ownership hip ht hrel hmid hown₁ hrel₂ hback
  rw [hip₂] at hrest
  have h₃ := setFields_uses hrel₂ hown₁ hip h₂ ht₂
  have hown₃ := setFields_ownership hrel₂ hown₁ hip
  have hkeeps₃ {y : Nat} := setFields_keeps hrel₂ hown₁ hip (y := y)
  have hkeep₃ : Keeps sb s.disk (setFields sb ip { dinode sb s₂.disk ip with
      nlink := ((dinode sb s₂.disk ip).nlink + (2 ^ 16 - 1)) % 2 ^ 16 } s₂).disk ip := hkeep
  generalize setFields sb ip { dinode sb s₂.disk ip with
      nlink := ((dinode sb s₂.disk ip).nlink + (2 ^ 16 - 1)) % 2 ^ 16 } s₂ =
        s₃ at hrest h₃ hown₃ hkeeps₃ hkeep₃
  obtain ⟨s₄, hput, hend⟩ := bind_ok hrest
  cases hend
  have hl : Linked sb s.ref s₃.disk ip := by
    unfold Linked
    rw [hkeep₃.inode]
    exact h.linked ip
  obtain ⟨h₄, hd₄⟩ := h₃.iunlockput List.not_mem_nil hl hput
  apply Restored.of_uses h h₄
  rw [hd₄]
  apply undone_of h.ownership hown₃
  · intro y hy hz
    by_cases hyip : y = ip
    · rw [hyip] at hz
      exact absurd hz ht
    · rcases hothers y hy hyip with hk | ⟨-, hty, -⟩
      · rw [(hk.trans (hkeeps₃ hy hyip)).inode]
        exact hz
      · exact absurd hz hty
  · intro y hy hty
    by_cases hyip : y = ip
    · rw [hyip]
      exact hkeep₃.grown ht
    · rcases hothers y hy hyip with hk | ⟨-, -, hg⟩
      · exact (hk.trans (hkeeps₃ hy hyip)).grown hty
      · exact hg.then_keeps (hkeeps₃ hy hyip) hty
  · intro y hy hty hp
    by_cases hyip : y = ip
    · rw [hyip]
      exact hkeep₃.inode
    · rcases hothers y hy hyip with hk | ⟨hpar, -, -⟩
      · exact (hk.trans (hkeeps₃ hy hyip)).inode
      · exact absurd hpar hp

/-- The `nameiparent` of `sys_link`, with the link count incremented and `ip` unlocked. -/
theorem linkNew_walked {ip cwd : Nat} (h : Sound sb s) (hcwd : 0 < s.ref cwd)
    (hip : ip < sb.ninodes)
    (ht : (dinode sb s.disk ip).type ≠ 0) {s₁ : State} (h₁ : Uses sb s.ref (ip ::ₘ 0) [] s₁)
    (hd₁ : s₁.disk = iupdate sb ip
      { dinode sb s.disk ip with nlink := ((dinode sb s.disk ip).nlink + 1) % 2 ^ 16 } s.disk)
    {new : List UInt8} {buf : Name} {found : Option (Nat × Name)} {s₂ : State}
    (hwalk : namex sb cwd true new buf s₁ = .ok (found, s₂)) :
    Walked sb s₁.ref true (parentDir sb s.disk cwd new buf) s₁ found s₂ ∧
      BlockOwnership sb s₁.disk ∧ (∀ y, y < sb.ninodes → y ≠ ip → Keeps sb s.disk s₁.disk y) ∧
      ∀ y, Linked sb s₁.ref s₁.disk y := by
  have hrel := relabels_nlink sb s.disk ip
    (Nat.mod_lt ((dinode sb s.disk ip).nlink + 1) (show 2 ^ 16 > 0 by decide))
  have hown₁ : BlockOwnership sb s₁.disk := by
    rw [hd₁]
    exact ownership_relabel h.ownership hip hrel
  have hkeeps (y : Nat) (hy : y < sb.ninodes) (hne : y ≠ ip) : Keeps sb s.disk s₁.disk y := by
    rw [hd₁]
    exact iupdate_keeps h.ownership hip hrel.valid hy hne
  have hself : dinode sb s₁.disk ip =
      { dinode sb s.disk ip with nlink := ((dinode sb s.disk ip).nlink + 1) % 2 ^ 16 } := by
    rw [hd₁, dinode_iupdate hrel.valid, if_pos rfl]
  have htypes (y : Nat) (hy : y < sb.ninodes) :
      (dinode sb s₁.disk y).type = (dinode sb s.disk y).type := by
    by_cases hne : y = ip
    · rw [hne, hself]
    · rw [(hkeeps y hy hne).inode]
  have hcontents (y : Nat) (hy : y < sb.ninodes) (hty : (dinode sb s₁.disk y).type ≠ 0) :
      content sb s₁.disk y = content sb s.disk y := by
    by_cases hne : y = ip
    · rw [hne, hd₁]
      exact content_relabel h.ownership hip ht hrel
    · rw [htypes y hy] at hty
      exact (hkeeps y hy hne).content hty
  have href (y : Nat) (hne : y ≠ ip) : s₁.ref y = s.ref y := by
    rw [h₁.refs, Multiset.count_cons_of_ne hne, Multiset.count_zero, Nat.add_zero]
  have hlinked (y : Nat) : Linked sb s₁.ref s₁.disk y := by
    by_cases hne : y = ip
    · intro _ _
      rw [hne]
      exact Or.inr (h₁.ref_pos (Multiset.mem_cons_self ip 0))
    · intro hy
      rw [(hkeeps y hy hne).inode, href y hne]
      exact h.linked y hy
  have hentries : EntriesOk sb s₁.disk := by
    intro y hy hdir q hq
    have hty : (dinode sb s₁.disk y).type ≠ 0 := by
      rw [hdir]
      exact T_DIR_ne
    rw [htypes y hy] at hdir
    rw [hcontents y hy hty] at hq ⊢
    exact h.entries y hy hdir q hq
  have hcwd₁ : 0 < s₁.ref cwd := by
    rw [h₁.refs]
    omega
  exact ⟨namex_walked hown₁ hlinked hentries h.root hcontents h₁.rebase hcwd₁ hwalk, hown₁, hkeeps,
    hlinked⟩

/-- `sys_link` from the `nameiparent` on, when it fails. -/
theorem linkNew_restored {ip cwd : Nat} (h : Sound sb s) (hcwd : 0 < s.ref cwd)
    (hin : ip < sb.ninodes)
    (ht : (dinode sb s.disk ip).type ≠ 0) (hfile : (dinode sb s.disk ip).type ≠ T_DIR) {s₄ : State}
    (h₄ : Uses sb s.ref (ip ::ₘ 0) [] s₄)
    (hd₄ : s₄.disk = iupdate sb ip
      { dinode sb s.disk ip with nlink := ((dinode sb s.disk ip).nlink + 1) % 2 ^ 16 } s.disk)
    {new : List UInt8} {buf : Name} (heq : linkNew sb cwd ip new buf s₄ = .ok (false, s')) :
    Restored sb (parentDir sb s.disk cwd new buf) s s' := by
  have hrel := relabels_nlink sb s.disk ip
    (Nat.mod_lt ((dinode sb s.disk ip).nlink + 1) (show 2 ^ 16 > 0 by decide))
  have htype₄ : (dinode sb s₄.disk ip).type = (dinode sb s.disk ip).type := by
    rw [hd₄, dinode_iupdate hrel.valid, if_pos rfl]
  obtain ⟨⟨parent, s₅⟩, hwalk₅, hrest₅⟩ := bind_ok heq
  obtain ⟨hw₅, hown₄, hkeeps, hlinked⟩ := linkNew_walked h hcwd hin ht h₄ hd₄ hwalk₅
  have hd₅ := hw₅.disk
  cases parent with
  | none =>
    have h₅ : Uses sb s₄.ref 0 [] s₅ := hw₅.uses
    refine linkBad_restored h hin ht (h₅.unbase h₄.refs) (by rw [hd₅]; exact hown₄) ?_ ?_ hrest₅
    · rw [hd₅, hd₄]
      exact Keeps.refl _ _ _
    · intro y hy hne
      rw [hd₅]
      exact Or.inl (hkeeps y hy hne)
  | some q =>
    obtain ⟨dp, name⟩ := q
    have h₅ : Uses sb s₄.ref (dp ::ₘ 0) [] s₅ := hw₅.uses
    obtain ⟨hparent, hdir⟩ := hw₅.dir rfl dp name rfl
    have hne : dp ≠ ip := by
      rintro rfl
      rw [htype₄] at hdir
      exact hfile hdir
    obtain ⟨s₆, hlock₆, hrest₆⟩ := bind_ok hrest₅
    obtain ⟨h₆, hd₆, -, -, hpos₆, hip₆, ht₆, -⟩ := h₅.ilock hlock₆
    have hdplt := h₅.inodes dp hpos₆
    rw [hd₅] at hd₆ hip₆ ht₆
    obtain ⟨⟨ok, s₇⟩, hlink, hrest₇⟩ := bind_ok hrest₆
    have hl := dirlink_linking (by rw [hd₆]; exact hown₄) hdplt (by rw [hd₆]; exact hip₆)
      (by rw [hd₆]; exact ht₆) hlink
    have h₇ := hl.uses h₆ (by rw [hd₆]; exact ht₆)
    obtain ⟨s₈, hput, hrest₈⟩ := bind_ok hrest₇
    have hlinked₇ : Linked sb s₄.ref s₇.disk dp := by
      unfold Linked
      rw [hl.type, hl.nlink, hd₆]
      exact hlinked dp
    obtain ⟨h₈, hd₈⟩ := h₇.iunlockput List.not_mem_nil hlinked₇ hput
    have hkeeps₈ (y : Nat) (hy : y < sb.ninodes) (hydp : y ≠ dp) : Keeps sb s₄.disk s₈.disk y := by
      rw [hd₈, ← hd₆]
      exact hl.keeps y hy hydp
    cases ok with
    | true =>
      obtain ⟨s₉, -, hend⟩ := bind_ok hrest₈
      cases hend
    | false =>
      refine linkBad_restored h hin ht (h₈.unbase h₄.refs)
        (by rw [hd₈]; exact hl.ownership) ?_ ?_ hrest₈
      · rw [← hd₄]
        exact hkeeps₈ ip hin hne.symm
      · intro y hy hyip
        by_cases hydp : y = dp
        · rw [hydp]
          have hkeep := hkeeps dp hdplt hne
          have htdp : (dinode sb s.disk dp).type ≠ 0 := by
            rw [← hkeep.inode]
            exact ht₆
          have hgrown := hl.grown rfl
          rw [hd₆, ← hd₈] at hgrown
          exact Or.inr ⟨hparent, htdp, hkeep.then_grown hgrown htdp⟩
        · exact Or.inl ((hkeeps y hy hyip).trans (hkeeps₈ y hy hydp))

/-- `sys_link` that returns -1. -/
theorem sysLink_restored (h : Sound sb s) {cwd : Nat} (hcwd : 0 < s.ref cwd)
    {old new : Option (List UInt8)} {buf : Name}
    (heq : sysLink sb cwd old new buf s = .ok (false, s')) :
    Restored sb (new.bind (fun path ↦ parentDir sb s.disk cwd path buf)) s s' := by
  unfold sysLink at heq
  split at heq
  · next old new =>
    obtain ⟨⟨found, s₁⟩, hwalk, hrest⟩ := bind_ok heq
    have hw := namex_walked h.ownership h.linked h.entries h.root
      (fun _ _ _ ↦ rfl) h.uses hcwd hwalk
    have hd₁ := hw.disk
    cases found with
    | none =>
      cases hrest
      exact Restored.of_same h hw.uses hd₁
    | some q =>
      obtain ⟨ip, name⟩ := q
      have h₁ : Uses sb s.ref (ip ::ₘ 0) [] s₁ := hw.uses
      obtain ⟨s₂, hlock, hrest₂⟩ := bind_ok hrest
      obtain ⟨h₂, hd₂, -, -, hpos, hip₂, ht, -⟩ := h₁.ilock hlock
      rw [hd₁] at hd₂ hip₂ ht
      have hin := h₁.inodes ip hpos
      split at hrest₂
      · obtain ⟨s₃, hput, hend⟩ := bind_ok hrest₂
        cases hend
        obtain ⟨h₃, hd₃⟩ := h₂.iunlockput List.not_mem_nil (by rw [hd₂]; exact h.linked ip) hput
        exact Restored.of_same h h₃ (hd₃.trans hd₂)
      · next hfile =>
        rw [hip₂] at hfile hrest₂
        -- `ip->nlink++`, `iupdate` and `iunlock`
        have hrel : Relabels (dinode sb s₂.disk ip)
            { dinode sb s.disk ip with nlink := ((dinode sb s.disk ip).nlink + 1) % 2 ^ 16 } := by
          rw [hd₂]
          exact relabels_nlink sb s.disk ip (Nat.mod_lt _ (by decide))
        have h₃ := setFields_uses hrel (by rw [hd₂]; exact h.ownership) hin h₂
          (by rw [hd₂]; exact ht)
        have hd₃ : (setFields sb ip
            { dinode sb s.disk ip with nlink := ((dinode sb s.disk ip).nlink + 1) % 2 ^ 16 }
            s₂).disk =
            iupdate sb ip
              { dinode sb s.disk ip with nlink := ((dinode sb s.disk ip).nlink + 1) % 2 ^ 16 }
              s.disk := by
          rw [← hd₂]
          rfl
        generalize setFields sb ip
          { dinode sb s.disk ip with nlink := ((dinode sb s.disk ip).nlink + 1) % 2 ^ 16 } s₂ = s₃
          at hrest₂ h₃ hd₃
        obtain ⟨s₄, hunlock, hrest₄⟩ := bind_ok hrest₂
        obtain ⟨h₄, hd₄, -⟩ := h₃.iunlock List.not_mem_nil hunlock
        rw [hd₃] at hd₄
        exact linkNew_restored h hcwd hin ht hfile h₄ hd₄ hrest₄
  · cases heq
    exact Restored.of_same h h.uses rfl

/-- `create` that returns 0 and `sys_link` that returns -1, for every path and wherever `ialloc` or
`balloc` runs out, leave all directories, inodes, contents, references and locks as they were; of
the blocks, only an indirect block of the parent directory may be new. -/
theorem failed_calls_restore (h : Sound sb s) {cwd : Nat} (hcwd : 0 < s.ref cwd) (buf : Name) :
    (∀ (path : List UInt8) (type major minor : UInt16) (s' : State),
      create sb cwd path type.toNat major.toNat minor.toNat buf s = .ok (none, s') →
      Restored sb (parentDir sb s.disk cwd path buf) s s') ∧
    ∀ (old new : Option (List UInt8)) (s' : State), sysLink sb cwd old new buf s = .ok (false, s') →
      Restored sb (new.bind (fun path ↦ parentDir sb s.disk cwd path buf)) s s' :=
  ⟨fun _ type major minor _ heq ↦
      create_restored h hcwd type.toNat_lt major.toNat_lt minor.toNat_lt heq,
    fun _ _ _ heq ↦ sysLink_restored h hcwd heq⟩

/-! ### A full disk -/

/-- A file system with three inodes and one data block. -/
def smallSuper : Super where
  size := 5
  nblocks := 1
  ninodes := 3
  inodestart := 2
  bmapstart := 3
  boot := Nat.two_pos
  inodes := by decide
  bitmap := by decide
  fits := by decide
  ninodes_lt := by decide

/-- The root directory, open, without entries. -/
def newRoot : State :=
  setFields smallSuper ROOTINO { newDinode T_DIR with nlink := 1 } {
    disk := (Fs.ialloc smallSuper T_DIR tinyDisk).2
    ip := fun _ ↦ newDinode T_DIR
    ref := fun x ↦ if x = ROOTINO then 1 else 0
    valid := fun x ↦ x = ROOTINO
    locked := fun _ ↦ false }

/-- The state after a `dirlink`. -/
def afterLink (r : Except String (Bool × State)) : State :=
  match r with
  | .ok (_, s) => s
  | .error _ => newRoot

/-- The root directory with its two entries, which take the only block. -/
def fullDisk : State :=
  afterLink (dirlink smallSuper ROOTINO dotdot ROOTINO (afterLink
    (dirlink smallSuper ROOTINO dot ROOTINO newRoot)))

theorem afterLink_eq {r : Except String (Bool × State)} (h : r.isOk = true) :
    ∃ ok, r = .ok (ok, afterLink r) := by
  cases r with
  | error e => cases h
  | ok q => exact ⟨q.1, rfl⟩

theorem blockOwnership_small : BlockOwnership smallSuper tinyDisk := by
  have htype : ∀ i < 3, (dinode smallSuper tinyDisk i).type = 0 := by decide
  have hzero (b : Nat) : totalRefs smallSuper tinyDisk (dinode smallSuper tinyDisk) b = 0 := by
    apply Finset.sum_eq_zero
    intro i _
    exact if_pos (htype i i.isLt)
  have hfree : ∀ b < 5, 4 ≤ b → used smallSuper tinyDisk b = false := by decide
  have hmeta : ∀ b < 4, used smallSuper tinyDisk b = true := by decide
  refine ⟨?_, ?_, hmeta, ?_, ?_⟩
  · intro b _ hpos
    rw [hzero] at hpos
    omega
  · intro b _
    rw [hzero]
    omega
  · rintro b ⟨hlo, hhi⟩ hu
    rw [hfree b hhi hlo] at hu
    cases hu
  · intro i hi ht
    exact (ht (htype i hi)).elim

theorem newRoot_relabels : Relabels
    (dinode smallSuper (Fs.ialloc smallSuper T_DIR tinyDisk).2 ROOTINO)
    { newDinode T_DIR with nlink := 1 } := by
  refine ⟨?_, ?_, ?_, ?_⟩
  · exact { newDinode_valid (show T_DIR < 2 ^ 16 by decide) with nlink := by decide }
  · decide +kernel
  · decide +kernel
  · decide +kernel

theorem newRoot_ownership : BlockOwnership smallSuper newRoot.disk := by
  obtain ⟨hown, hf⟩ := blockOwnership_iff.mp blockOwnership_small
  have hdisk := blockOwnership_iff.mpr (ialloc_ok hown hf (show T_DIR < 2 ^ 16 by decide))
  exact ownership_relabel hdisk (show ROOTINO < smallSuper.ninodes by decide) newRoot_relabels

theorem newRoot_fields : newRoot.ip ROOTINO = dinode smallSuper newRoot.disk ROOTINO := by
  refine Eq.trans ?_ (dinode_setFields newRoot_relabels).symm
  rfl

theorem newRoot_type : (dinode smallSuper newRoot.disk ROOTINO).type ≠ 0 := by decide +kernel

theorem newRoot_uses : Uses smallSuper newRoot.ref 0 [] newRoot := by
  have hroot {y : Nat} (hy : 0 < newRoot.ref y) : y = ROOTINO := by
    by_contra hne
    rw [show newRoot.ref y = 0 from if_neg hne] at hy
    omega
  refine ⟨fun _ ↦ rfl, fun _ ↦ rfl, ?_, ?_⟩
  · intro y hy
    rw [hroot hy]
    decide
  · intro y hy _
    rw [hroot hy]
    exact ⟨newRoot_fields, newRoot_type⟩

/-- The full disk meets the invariants. -/
theorem sound_fullDisk : Sound smallSuper fullDisk := by
  have hlt : ROOTINO < smallSuper.ninodes := by decide
  obtain ⟨ok, hdot⟩ := afterLink_eq (r := dirlink smallSuper ROOTINO dot ROOTINO newRoot)
    (by decide +kernel)
  obtain ⟨ok', hdotdot⟩ := afterLink_eq (r := dirlink smallSuper ROOTINO dotdot ROOTINO
    (afterLink (dirlink smallSuper ROOTINO dot ROOTINO newRoot))) (by decide +kernel)
  have h₁ := dirlink_linking newRoot_ownership hlt newRoot_fields newRoot_type hdot
  have htype₁ := newRoot_type
  rw [← h₁.type] at htype₁
  have h₂ := dirlink_linking h₁.ownership hlt h₁.self htype₁ hdotdot
  have hu := h₂.uses (h₁.uses newRoot_uses newRoot_type) htype₁
  have hexact : ∀ x < 3, (dinode smallSuper fullDisk.disk x).type ≠ 0 →
      (dinode smallSuper fullDisk.disk x).nlink = linkCount smallSuper fullDisk.disk x := by
    decide +kernel
  have hfree : ∀ x < 3, linkCount smallSuper fullDisk.disk x = 0 → fullDisk.ref x = 0 →
      (dinode smallSuper fullDisk.disk x).type = 0 := by decide +kernel
  have hentries : ∀ x < 3, (dinode smallSuper fullDisk.disk x).type = T_DIR →
      ∀ q, q < slots (content smallSuper fullDisk.disk x) →
        slotInum (content smallSuper fullDisk.disk x) q < 3 := by decide +kernel
  have hinodes : ∀ x < 3, 0 < fullDisk.ref x → (dinode smallSuper fullDisk.disk x).type ≠ 0 := by
    decide +kernel
  exact {
    ownership := h₂.ownership
    links := ⟨hexact, hfree⟩
    entries := hentries
    root := hlt
    inodes := fun x hx ↦ ⟨hu.inodes x hx, hinodes x (hu.inodes x hx) hx⟩
    fields := fun x hx hv ↦ (hu.fields x hx hv).1
    unlocked := hu.locked }

/-- `mkdir("a")` on the full disk finds a free inode and no block for its ".". -/
theorem failed_calls_restore_fullDisk : ∃ s',
    create smallSuper ROOTINO [97] T_DIR 0 0 dot fullDisk = .ok (none, s') ∧
      Restored smallSuper (some ROOTINO) fullDisk s' := by
  have hnone : (create smallSuper ROOTINO [97] T_DIR 0 0 dot fullDisk).toOption.map Prod.fst =
      some none := by decide +kernel
  have hparent : parentDir smallSuper fullDisk.disk ROOTINO [97] dot = some ROOTINO := by
    decide +kernel
  cases hcreate : create smallSuper ROOTINO [97] T_DIR 0 0 dot fullDisk with
  | error e =>
    rw [hcreate] at hnone
    cases hnone
  | ok q =>
    obtain ⟨r, s'⟩ := q
    rw [hcreate] at hnone
    cases hnone
    refine ⟨s', rfl, ?_⟩
    rw [← hparent]
    exact (failed_calls_restore sound_fullDisk (by decide +kernel) dot).1 [97] 1 0 0 s' hcreate

end Xv6.Sysfile
