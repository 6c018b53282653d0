import Xv6.Tree.Boot

/-!
# Link counts are exact

In every run from an image in which no call makes an entry in a removed directory, and no link
count grows beyond a `short`, every link count is the number of entries that name the inode. A
file made in a removed directory shows that the first condition is needed.
-/

namespace Xv6.Tree

open Xv6.Lib

/-- The tables' references are those of processes. -/
theorem referenced_of_refs {t : Tables} (hok : FilesOk t) {x : Nat} (h : 0 < t.refs x) :
    Referenced t x := by
  unfold Tables.refs at h
  by_cases hcwd : 0 < hits (fun p ↦ (t.procs p).map Proc.cwd) (some x)
  · obtain ⟨p, hp⟩ := hits_pos_iff.mp hcwd
    obtain ⟨pr, hpr, hx⟩ := Option.map_eq_some_iff.mp hp
    exact ⟨p, pr, hpr, Or.inl hx⟩
  · have hfile : 0 < hits (fun f ↦ (t.files f).target.ip) (some x) := by omega
    obtain ⟨f, hf⟩ := hits_pos_iff.mp hfile
    have hopen : (t.files f).ref ≠ 0 := by
      intro hzero
      rw [hok.closed f hzero] at hf
      cases hf
    -- a file with references is some process's
    have hpos : 0 < ∑ p, (t.procs p).elim 0 (fun pr ↦ hits pr.ofile (some f)) := by
      have := hok.ref f
      rw [Tables.fds] at this
      omega
    obtain ⟨p, -, hp⟩ := Finset.sum_pos_iff.mp hpos
    cases hpr : t.procs p with
    | none =>
      rw [hpr] at hp
      cases hp
    | some pr =>
      rw [hpr] at hp
      obtain ⟨fd, hfd⟩ := hits_pos_iff.mp hp
      exact ⟨p, pr, hpr, Or.inr ⟨fd, f, hfd, hf⟩⟩

/-- Exact link counts follow from the invariant. -/
theorem Good.linksExact {s : State} (hg : Good s) (hc : Counted s.inodes) : LinksExact s := by
  refine ⟨?_, ?_⟩
  · intro x hx
    obtain ⟨h1, h2⟩ := nlink_eq hg.shape hc hx
    rw [short, if_pos h2, h1]
  · intro x hzero hno
    apply Classical.byContradiction
    intro hx
    obtain ⟨h1, -⟩ := nlink_eq hg.shape hc hx
    have := (hg.held.orphan x hx (by rw [h1, hzero])).2
    rw [List.count_nil, Nat.add_zero] at this
    exact hno (referenced_of_refs hg.files this)

section
variable {s s' : State} {c : Call} {pr : Proc}

theorem Counted.noWrap {m : Graph} (hc : Counted m) (hs : Shape m) : NoWrap m pr c := by
  intro q _ hfree
  have := (nlink_eq hs hc hfree).2
  omega

/-- The change of a call keeps the link counts exact. -/
theorem Counted.edit (hc : Counted s.inodes) (hs : Shape s.inodes) (hk : KeepsLinks s c)
    (hp : s.procs c.slot = some pr) : Counted (edit s.inodes pr c) := by
  rcases edit_cases hs (hc.noWrap hs) with
    he | ⟨d, name, x, ino, hq, ha, hino, he⟩ | ⟨d, k, x, hd, he⟩
  · rw [he]
    exact hc
  · obtain ⟨hd, hmax⟩ := hk pr hp (d, name, x) hq
    rw [he]
    apply hc.attach hs ha hd
    intro hdir
    rcases hino with ⟨hfree, hone⟩ | ⟨hfree, rfl⟩
    · rw [linksTo_eq_zero (hs.names_of_free ha.ne_zero hfree), hone]
      decide
    · obtain ⟨h1, h2⟩ := hc.file x hfree hdir
      have h3 : (s.inodes x).nlink ≠ 2 ^ 15 - 1 := hmax hfree
      have h4 : (s.inodes x).incLink.nlink = (s.inodes x).nlink + 1 :=
        Nat.mod_eq_of_lt (by omega)
      exact ⟨by omega, by omega⟩
  · rw [he]
    exact hc.detach hs hd

/-- A completed call that meets the condition keeps the invariant and the counts. -/
theorem step_counted (hg : Good s) (hc : Counted s.inodes) (hk : KeepsLinks s c)
    (h : step s c = some s') : Good s' ∧ Counted s'.inodes := by
  obtain ⟨pr, hp, hdone⟩ := step_completed hg h
  have hw : NoWrap s.inodes pr c := hc.noWrap hg.shape
  exact ⟨hdone.good hg hw, (hc.edit hg.shape hk hp).freed (edit_shape hg.shape hw) hdone.freed⟩

end

/-- In every run from an image whose calls make no entry in a directory without links and none
for an inode that has as many links as a `short` counts, link counts are exact throughout. -/
theorem linksExact_always (im : Image) (cs : List Call)
    (hok : Along step KeepsLinks (boot im) cs) : Always step LinksExact (boot im) cs := by
  refine Along.always (J := fun s ↦ Good s ∧ Counted s.inodes) ?_ ?_
    ⟨good_boot im, counted_image im⟩ hok
  · exact fun s hs ↦ hs.1.linksExact hs.2
  · exact fun s c s' hs hk hstep ↦ step_counted hs.1 hs.2 hk hstep

/-- An image without files. -/
def emptyImage : Image where
  names := []
  count := by decide
  dots := by simp

/-- `/a` -/
def pathA : Path := [47, 97]

/-- `mkdir("/a"); open("/a/f", O_CREATE); link("/a/f", "/g"); unlink("/a/f"); close(0)` -/
def linkRun : List Call :=
  [.sysMkdir initSlot (some pathA) (fun _ ↦ true),
    .sysOpen initSlot (some (pathA ++ [47, 102])) O_CREATE (fun _ ↦ true),
    .sysLink initSlot (some (pathA ++ [47, 102])) (some [47, 103]) (fun _ ↦ true),
    .sysUnlink initSlot (some (pathA ++ [47, 102])),
    .sysClose initSlot 0]

theorem linksExact_always_linkRun :
    ∃ s, run step (boot emptyImage) linkRun = some s ∧ LinksExact s := by
  have hok : Along step KeepsLinks (boot emptyImage) linkRun := by decide +kernel
  have hsome : (run step (boot emptyImage) linkRun).isSome = true := by decide +kernel
  obtain ⟨s, hs⟩ := Option.isSome_iff_exists.mp hsome
  exact ⟨s, hs, (linksExact_always emptyImage linkRun hok).last hs⟩

/-- `mkdir("/a"); chdir("/a"); unlink("/a"); open("f", O_CREATE)` -/
def removedRun : List Call :=
  [.sysMkdir initSlot (some pathA) (fun _ ↦ true), .sysChdir initSlot (some pathA),
    .sysUnlink initSlot (some pathA), .sysOpen initSlot (some [102]) O_CREATE (fun _ ↦ true)]

/-- The file made in the removed directory has one link and no entry that counts. -/
theorem removed_directory_entry :
    ∃ s, run step (boot emptyImage) removedRun = some s ∧ ¬ LinksExact s := by
  have hrun : (run step (boot emptyImage) removedRun).any (fun s ↦
      (s.inodes 3).type == .file && short (s.inodes 3).nlink == 1 &&
        linkCount s.inodes 3 == 0) = true := by
    decide +kernel
  cases hs : run step (boot emptyImage) removedRun with
  | none =>
    rw [hs] at hrun
    cases hrun
  | some s =>
    rw [hs] at hrun
    simp only [Option.any_some, Bool.and_eq_true, beq_iff_eq] at hrun
    obtain ⟨⟨htype, hlink⟩, hcount⟩ := hrun
    refine ⟨s, rfl, ?_⟩
    intro h
    have := h.exact 3 (by rw [htype]; exact fun h ↦ nomatch h)
    rw [hlink, hcount] at this
    exact absurd this (by decide)

end Xv6.Tree
