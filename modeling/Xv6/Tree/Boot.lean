import Xv6.Tree.LinkCounts

/-!
# The invariant of every run

The state after boot from an image of `mkfs` has the invariant, and every completed call keeps
it, except for a `sys_link` that wraps a link count around to 0.
-/

namespace Xv6.Tree

open Xv6.Lib

/-- The call does not wrap the link count of an inode around. -/
def NoWrap (m : Graph) (pr : Proc) (c : Call) : Prop :=
  ∀ q ∈ c.newEntry m pr, (m q.2.2).type ≠ .free → (m q.2.2).nlink ≠ 2 ^ 16 - 1

/-! ### Completed calls -/

section
variable {m : Graph} {pr : Proc} {c : Call}

/-- The change of a call attaches an inode, detaches one, or is none. -/
theorem edit_cases (hs : Shape m) (hw : NoWrap m pr c) :
    edit m pr c = m ∨
    (∃ d name x ino, c.newEntry m pr = some (d, name, x) ∧ Attachable m d x name ino ∧
      ((m x).type = .free ∧ ino.nlink = 1 ∨ (m x).type ≠ .free ∧ ino = (m x).incLink) ∧
      edit m pr c = attach m d x name ino) ∨
    ∃ d k x, Detachable m d k x ∧ edit m pr c = detach m d k x := by
  have hcreate {space : Nat → Bool} {path : Path} {type : FileType} {major : Int}
      (hc : c.newEntry m pr = creates m pr space path type)
      (he : edit m pr c = createEdit m pr space path type major) (ht : type ≠ .free) :
      edit m pr c = m ∨ ∃ d name x ino, c.newEntry m pr = some (d, name, x) ∧
        Attachable m d x name ino ∧
        ((m x).type = .free ∧ ino.nlink = 1 ∨ (m x).type ≠ .free ∧ ino = (m x).incLink) ∧
        edit m pr c = attach m d x name ino := by
    cases hq : creates m pr space path type with
    | none =>
      left
      rw [he, createEdit, hq]
    | some q =>
      obtain ⟨d, name, x⟩ := q
      right
      refine ⟨d, name, x, newInode d x type major, by rw [hc, hq], attachable_new hs hq ht major,
        Or.inl ⟨(freeInode_some (creates_eq_some.mp hq).2.1).1, rfl⟩, ?_⟩
      rw [he, createEdit_some hq]
  have hor {a b d : Prop} (h : a ∨ b) : a ∨ b ∨ d := h.elim Or.inl (fun hb ↦ Or.inr (Or.inl hb))
  cases c with
  | sysOpen p path omode space =>
    cases path with
    | none => exact Or.inl rfl
    | some path =>
      by_cases hmode : omode &&& O_CREATE ≠ 0
      · exact hor (hcreate (if_pos hmode) (if_pos hmode) (by decide))
      · exact Or.inl (if_neg hmode)
  | sysMkdir p path space =>
    cases path with
    | none => exact Or.inl rfl
    | some path => exact hor (hcreate rfl rfl (by decide))
  | sysMknod p path major space =>
    cases path with
    | none => exact Or.inl rfl
    | some path => exact hor (hcreate rfl rfl (by decide))
  | sysLink p old new space =>
    cases old with
    | none => exact Or.inl rfl
    | some old =>
      cases new with
      | none => exact Or.inl rfl
      | some new =>
        cases hq : links m pr space old new with
        | none =>
          left
          rw [edit, linkEdit, hq]
        | some q =>
          obtain ⟨d, name, x⟩ := q
          right
          left
          have hfree : (m x).type ≠ .free := fun hf ↦ (links_eq_some.mp hq).2.1 (Or.inr hf)
          refine ⟨d, name, x, (m x).incLink, hq, attachable_link hs hq (hw (d, name, x) hq hfree),
            Or.inr ⟨hfree, rfl⟩, ?_⟩
          rw [edit, linkEdit_some hq]
  | sysUnlink p path =>
    cases path with
    | none => exact Or.inl rfl
    | some path =>
      cases hq : unlinks m pr path with
      | none =>
        left
        rw [edit, unlinkEdit, hq]
      | some q =>
        obtain ⟨d, k, x⟩ := q
        right
        right
        refine ⟨d, k, x, detachable hs hq, ?_⟩
        rw [edit, unlinkEdit_some hq]
  | sysChdir p path => exact Or.inl rfl
  | sysClose p fd => exact Or.inl rfl
  | sysDup p fd => exact Or.inl rfl
  | sysFork p q => exact Or.inl rfl
  | sysExit p => exact Or.inl rfl

theorem edit_shape (hs : Shape m) (hw : NoWrap m pr c) : Shape (edit m pr c) := by
  rcases edit_cases hs hw with he | ⟨d, name, x, ino, -, ha, -, he⟩ | ⟨d, k, x, hd, he⟩
  · rw [he]
    exact hs
  · rw [he]
    exact ha.shape hs
  · rw [he]
    exact hd.shape hs

/-- A completed call keeps the invariant. -/
theorem Completed.good {s s' : State} (hg : Good s) (h : Completed s s' pr c)
    (hw : NoWrap s.inodes pr c) : Good s' :=
  ⟨h.freed.shape (edit_shape hg.shape hw), h.held, h.files⟩

end

/-! ### The first state -/

theorem countP_mapIdx (l : List Name) {x : Nat} :
    (l.mapIdx (fun i name ↦ (⟨i + 2, name.take DIRSIZ⟩ : Dirent))).countP
        (fun e ↦ decide (e.inum = x)) = if 2 ≤ x ∧ x < l.length + 2 then 1 else 0 := by
  induction l using List.reverseRecOn with
  | nil =>
    rw [if_neg (by rw [List.length_nil]; omega)]
    rfl
  | append_singleton l a ih =>
    rw [List.mapIdx_concat, List.countP_append, ih, List.length_append, List.countP_singleton]
    simp only [decide_eq_true_eq, List.length_singleton]
    split <;> split <;> split <;> omega

variable (im : Image)

/-- The entries after the first two. -/
theorem rootEntries_eq : ∃ n, im.rootEntries = ⟨ROOTINO, dot⟩ :: ⟨ROOTINO, dotdot⟩ ::
    (im.names.mapIdx (fun i name ↦ (⟨i + 2, name.take DIRSIZ⟩ : Dirent)) ++
      List.replicate n ⟨0, []⟩) := ⟨_, rfl⟩

theorem names_rootEntries {x : Nat} (hx : x ≠ 0) :
    names im.rootEntries x = if 2 ≤ x ∧ x < im.names.length + 2 then 1 else 0 := by
  obtain ⟨n, hn⟩ := rootEntries_eq im
  have hzero : (List.replicate n (⟨0, []⟩ : Dirent)).countP (fun e ↦ decide (e.inum = x)) = 0 := by
    apply List.countP_eq_zero.mpr
    intro e he
    rw [List.eq_of_mem_replicate he]
    simpa using hx.symm
  rw [hn, names_dots, List.countP_append, hzero, Nat.add_zero]
  exact countP_mapIdx im.names

theorem image_root : im.inodes ROOTINO = ⟨.dir, 0, 1, im.rootEntries⟩ := if_pos rfl

theorem image_of_ne {x : Nat} (hx : x ≠ ROOTINO) :
    (im.inodes x).type ≠ .dir ∧ (im.inodes x).entries = [] ∧
      ((im.inodes x).type ≠ .free ↔ 2 ≤ x ∧ x < im.names.length + 2) ∧
      (im.inodes x).nlink = if 2 ≤ x ∧ x < im.names.length + 2 then 1 else 0 := by
  rw [Image.inodes, if_neg hx]
  split
  · next h => exact ⟨(fun h ↦ nomatch h), rfl, by simp [h], by simp⟩
  · next h => exact ⟨(fun h ↦ nomatch h), rfl, by simp [h], by simp⟩

theorem names_image (y : Nat) {x : Nat} (hx : x ≠ 0) :
    names (im.inodes y).entries x =
      if y = ROOTINO ∧ (2 ≤ x ∧ x < im.names.length + 2) then 1 else 0 := by
  by_cases hy : y = ROOTINO
  · rw [hy, image_root, names_rootEntries im hx]
    simp
  · rw [(image_of_ne im hy).2.1, if_neg (fun h ↦ hy h.1)]
    rfl

theorem linksTo_image {x : Nat} (hx : x ≠ 0) :
    linksTo im.inodes x = if 2 ≤ x ∧ x < im.names.length + 2 then 1 else 0 := by
  rw [linksTo, ← sum_at root_lt 1 (2 ≤ x ∧ x < im.names.length + 2)]
  exact Finset.sum_congr rfl (fun y _ ↦ names_image im y hx)

theorem subdirs_image (x : Nat) : subdirs im.inodes x = 0 := by
  apply Finset.sum_eq_zero
  intro z _
  split
  · next hz =>
    have hroot : (z : Nat) = ROOTINO := by
      apply Classical.byContradiction
      exact fun hne ↦ (image_of_ne im hne).1 hz
    have hz0 : (z : Nat) ≠ 0 := by
      rw [hroot]
      decide
    rw [names_image im x hz0, if_neg]
    rw [hroot]
    rintro ⟨-, h, -⟩
    exact absurd h (by decide)
  · rfl

theorem shape_image : Shape im.inodes where
  outside := by
    intro x hx
    have hcount := im.count
    have hroot : x ≠ ROOTINO := by
      rintro rfl
      rcases hx with hx | hx
      · exact absurd hx (by decide)
      · exact absurd hx (by decide)
    apply Classical.byContradiction
    intro hne
    have := (image_of_ne im hroot).2.2.1.mp hne
    omega
  root := by rw [image_root]
  rootParent := by
    obtain ⟨n, hn⟩ := rootEntries_eq im
    rw [parent, image_root, hn]
    rfl
  dots := by
    intro x hx
    have hroot : x = ROOTINO := by
      apply Classical.byContradiction
      exact fun hne ↦ (image_of_ne im hne).1 hx
    obtain ⟨n, hn⟩ := rootEntries_eq im
    rw [hroot, image_root, hn]
    refine ⟨ROOTINO, _, rfl, by decide, ?_⟩
    intro e he hne
    rcases List.mem_append.mp he with he | he
    · obtain ⟨i, hi, rfl⟩ := List.mem_mapIdx.mp he
      exact im.dots _ (List.getElem_mem hi)
    · rw [List.eq_of_mem_replicate he] at hne
      exact (hne rfl).elim
  empty := by
    intro x hx
    have hroot : x ≠ ROOTINO := by
      rintro rfl
      exact hx (by rw [image_root])
    exact (image_of_ne im hroot).2.1
  listed := by
    intro y x hx hpos
    rw [names_image im y hx] at hpos
    split at hpos
    · next h =>
      have hroot : x ≠ ROOTINO := by
        rintro rfl
        exact absurd h.2.1 (by decide)
      refine ⟨(image_of_ne im hroot).2.2.1.mpr h.2, hroot, by rw [h.1]; exact hroot, ?_⟩
      exact fun hd ↦ ((image_of_ne im hroot).1 hd).elim
    · exact absurd hpos (by decide)
  once := by
    intro x hx
    by_cases hx0 : x = 0
    · rw [hx0] at hx
      exact ((image_of_ne im (by decide)).1 hx).elim
    · rw [linksTo_image im hx0]
      split <;> omega
  fileLinks := by
    intro x hx hdir
    have hroot : x ≠ ROOTINO := by
      rintro rfl
      exact hdir (by rw [image_root])
    have h := image_of_ne im hroot
    have hlisted := h.2.2.1.mp hx
    rw [linksTo_image im (by omega), h.2.2.2]
  dirLinks := by
    intro x hx
    have hroot : x = ROOTINO := by
      apply Classical.byContradiction
      exact fun hne ↦ (image_of_ne im hne).1 hx
    rw [hroot, subdirs_image, linksTo_image im (by decide), image_root]
    rfl
  width := by
    intro x
    by_cases hroot : x = ROOTINO
    · rw [hroot, image_root]
      change 1 < 2 ^ 16
      decide
    · rw [(image_of_ne im hroot).2.2.2]
      split <;> decide

theorem counted_image : Counted im.inodes := by
  refine ⟨?_, ?_, ?_⟩
  · intro x hx hdir
    have hroot : x ≠ ROOTINO := by
      rintro rfl
      exact hdir (by rw [image_root])
    have h := image_of_ne im hroot
    have hlisted := h.2.2.1.mp hx
    rw [linksTo_image im (by omega), h.2.2.2, if_pos hlisted]
    decide
  · intro x hx hroot
    exact ((image_of_ne im hroot).1 hx).elim
  · intro x hx hl
    have hroot : x = ROOTINO := by
      apply Classical.byContradiction
      exact fun hne ↦ (image_of_ne im hne).1 hx
    rw [hroot, image_root] at hl
    exact absurd hl Nat.one_ne_zero

theorem boot_procs_init : (boot im).procs initSlot = some ⟨fun _ ↦ none, ROOTINO⟩ := by
  simp only [boot, Function.update_self]

theorem boot_procs_of_ne {p : Slot} (hp : p ≠ initSlot) : (boot im).procs p = none := by
  simp only [boot, Function.update_of_ne hp]

theorem refs_boot (x : Nat) : (boot im).refs x = if x = ROOTINO then 1 else 0 := by
  have h1 : hits (fun f ↦ ((boot im).files f).target.ip) (some x) = 0 :=
    hits_eq_zero (fun f h ↦ nomatch h)
  have h2 := hits_of_eq_off (f := fun p ↦ ((boot im).procs p).map Proc.cwd)
    (g := fun _ ↦ (none : Option Nat)) initSlot
    (fun p hp ↦ by rw [boot_procs_of_ne im hp]; rfl) (some x)
  have h3 : hits (fun _ : Slot ↦ (none : Option Nat)) (some x) = 0 :=
    hits_eq_zero (fun f h ↦ nomatch h)
  rw [h3, boot_procs_init] at h2
  simp only [reduceCtorEq, if_false, Option.map_some, Option.some.injEq, Nat.add_zero,
    Nat.zero_add, eq_comm (a := ROOTINO)] at h2
  rw [Tables.refs, h1, h2, Nat.zero_add]

theorem good_boot : Good (boot im) := by
  refine ⟨shape_image im, ⟨?_, ?_, ?_, ?_, ?_⟩, ⟨?_, ?_⟩⟩
  · intro x
    rw [refs_boot, List.count_nil, Nat.add_zero]
    simp only [boot, Function.update_apply]
  · intro x hx
    rw [refs_boot, List.count_nil, Nat.add_zero] at hx
    split at hx
    · next hroot =>
      rw [hroot]
      exact FileType.ne_free (shape_image im).root
    · exact absurd hx (by decide)
  · intro x hv
    cases hv
  · intro x hx
    cases hx
  · intro x hx hl
    change (im.inodes x).type ≠ .free at hx
    change (im.inodes x).nlink = 0 at hl
    have h := nlink_eq (shape_image im) (counted_image im) hx
    by_cases hroot : x = ROOTINO
    · rw [hroot, image_root] at hl
      exact absurd hl Nat.one_ne_zero
    · have himg := image_of_ne im hroot
      rw [himg.2.2.2, if_pos (himg.2.2.1.mp hx)] at hl
      exact absurd hl (by decide)
  · intro f
    symm
    apply Finset.sum_eq_zero
    intro p _
    by_cases hp : p = initSlot
    · rw [hp, boot_procs_init]
      exact hits_eq_zero (fun fd h ↦ nomatch h)
    · rw [boot_procs_of_ne im hp]
      rfl
  · intro f _
    rfl

end Xv6.Tree
