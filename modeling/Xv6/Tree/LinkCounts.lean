import Xv6.Tree.Steps

/-!
# Link counts

The link count of an inode is the number of entries that name it, in directories that are
themselves linked. This holds as long as no call makes an entry in a directory that was
removed while in use, and no link count grows beyond a `short`.
-/

namespace Xv6.Tree

open Xv6.Lib

/-- The entries of a directory that name `x`, its own `.` apart. -/
def namedBy (es : List Dirent) (x : Nat) : Nat :=
  es.countP (fun e ↦ decide (e.inum = x ∧ e.name ≠ dot))

/-- The entries that name `x`, in directories whose own link count is positive. -/
def linkCount (m : Graph) (x : Nat) : Nat :=
  ∑ y : Fin NINODES,
    if (m y).type = .dir ∧ 0 < short (m y).nlink then namedBy (m y).entries x else 0

/-- Some process has `x` as its current directory or open. -/
def Referenced (t : Tables) (x : Nat) : Prop :=
  ∃ p pr, t.procs p = some pr ∧
    (pr.cwd = x ∨ ∃ fd f, pr.ofile fd = some f ∧ (t.files f).target.ip = some x)

/-- Link counts are exact, and what is neither named nor referenced is free. -/
structure LinksExact (s : State) : Prop where
  exact : ∀ x, (s.inodes x).type ≠ .free → short (s.inodes x).nlink = linkCount s.inodes x
  free : ∀ x, linkCount s.inodes x = 0 → ¬ Referenced s.toTables x → (s.inodes x).type = .free

/-- The directory, the name and the inode of the entry that a call makes. -/
def Call.newEntry (m : Graph) (pr : Proc) : Call → Option (Nat × Name × Nat)
  | .sysOpen _ (some path) omode space =>
    if omode &&& O_CREATE ≠ 0 then creates m pr space path .file else none
  | .sysMkdir _ (some path) space => creates m pr space path .dir
  | .sysMknod _ (some path) _ space => creates m pr space path .device
  | .sysLink _ (some old) (some new) space => links m pr space old new
  | _ => none

/-- The call makes no entry in a directory without links, and none for an inode that has as many
links as a `short` counts. -/
def KeepsLinks (s : State) (c : Call) : Prop :=
  ∀ pr ∈ s.procs c.slot, ∀ q ∈ c.newEntry s.inodes pr,
    (s.inodes q.1).nlink ≠ 0 ∧
      ((s.inodes q.2.2).type ≠ .free → (s.inodes q.2.2).nlink ≠ 2 ^ 15 - 1)

instance (s : State) (c : Call) : Decidable (KeepsLinks s c) :=
  inferInstanceAs (Decidable (∀ pr ∈ s.procs c.slot, ∀ q ∈ c.newEntry s.inodes pr, _))

/-- What the link counts of the graph are made of. -/
structure Counted (m : Graph) : Prop where
  file : ∀ x, (m x).type ≠ .free → (m x).type ≠ .dir →
    (m x).nlink = linksTo m x ∧ (m x).nlink < 2 ^ 15
  dir : ∀ x, (m x).type = .dir → x ≠ ROOTINO → (m x).nlink ≠ 0 → linksTo m x = 1
  removed : ∀ x, (m x).type = .dir → (m x).nlink = 0 → ∀ z, z ≠ 0 → names (m x).entries z = 0

/-! ### The changes keep the counts -/

section
variable {m m' : Graph}

theorem Counted.attach (h : Counted m) (hs : Shape m) {d x : Nat} {name : Name} {ino : Inode}
    (ha : Attachable m d x name ino) (hd : (m d).nlink ≠ 0)
    (hino : ino.type ≠ .dir → ino.nlink = linksTo m x + 1 ∧ ino.nlink < 2 ^ 15) :
    Counted (attach m d x name ino) := by
  have hlinks {z : Nat} (hz : z ≠ 0) (hzx : z ≠ x) :
      linksTo (Tree.attach m d x name ino) z = linksTo m z := by
    rw [ha.attach_linksTo hs hz, if_neg hzx, Nat.add_zero]
  have hself : linksTo (Tree.attach m d x name ino) x = linksTo m x + 1 := by
    rw [ha.attach_linksTo hs ha.ne_zero]
    simp
  refine ⟨?_, ?_, ?_⟩
  · intro z hz hdir
    by_cases hzx : z = x
    · subst hzx
      rw [attach_self ha.ne] at hdir ⊢
      rw [hself]
      exact hino hdir
    · rw [attach_type hzx] at hz hdir
      rw [attach_of_ne (fun hzd ↦ hdir (by rw [hzd]; exact ha.dir)) hzx, hlinks (hs.ne_zero hz) hzx]
      exact h.file z hz hdir
  · intro z hdir hroot hl
    by_cases hzx : z = x
    · subst hzx
      have h1 := (ha.shape hs).once z hdir
      omega
    · rw [attach_type hzx] at hdir
      rw [hlinks (hs.ne_zero (FileType.ne_free hdir)) hzx]
      apply h.dir z hdir hroot
      by_cases hzd : z = d
      · rw [hzd]
        exact hd
      · rwa [attach_of_ne hzd hzx] at hl
  · intro z hdir hl y hy
    have hzx : z ≠ x := by
      rintro rfl
      rw [attach_self ha.ne] at hdir hl
      have := (ha.dirIno hdir).2
      omega
    have hzd : z ≠ d := by
      rintro rfl
      have hle := hs.dir_nlink_le ha.dir
      rw [attach_dir, Inode.addEntry_nlink _ _ (by simp only [NINODES] at hle; omega)] at hl
      omega
    rw [attach_of_ne hzd hzx] at hdir hl ⊢
    exact h.removed z hdir hl y hy

theorem subdirs_eq_zero {x : Nat} (hs : Shape m) (h : ∀ z, z ≠ 0 → names (m x).entries z = 0) :
    subdirs m x = 0 := by
  apply Finset.sum_eq_zero
  intro z _
  split
  · next hz => exact h z (hs.ne_zero (FileType.ne_free hz))
  · rfl

theorem Counted.detach (h : Counted m) (hs : Shape m) {d k x : Nat} (hd : Detachable m d k x) :
    Counted (detach m d k x) := by
  have hs' := hd.shape hs
  have hne := (hd.listed hs).2.2.1
  have hlinks {z : Nat} (hz : z ≠ 0) (hzx : z ≠ x) :
      linksTo (Tree.detach m d k x) z = linksTo m z := by
    have := hd.detach_linksTo hs hz
    rwa [if_neg hzx, Nat.add_zero] at this
  have hself : linksTo (Tree.detach m d k x) x + 1 = linksTo m x := by
    have := hd.detach_linksTo hs hd.ne_zero
    simpa using this
  -- the directory has links: one without lists nothing
  have hdlinks : (m d).nlink ≠ 0 := by
    intro hzero
    have := h.removed d hd.dir hzero x hd.ne_zero
    have := hd.names_pos
    omega
  refine ⟨?_, ?_, ?_⟩
  · intro z hz hdir
    rw [detach_type] at hz hdir
    by_cases hzx : z = x
    · subst hzx
      have h1 := h.file z hz hdir
      have h2 := Inode.decLink_nlink hd.linked
      rw [detach_self hne]
      omega
    · rw [detach_of_ne (fun hzd ↦ hdir (by rw [hzd]; exact hd.dir)) hzx, hlinks (hs.ne_zero hz) hzx]
      exact h.file z hz hdir
  · intro z hdir hroot hl
    have hdir' := hdir
    rw [detach_type] at hdir
    have hz0 := hs.ne_zero (FileType.ne_free hdir)
    by_cases hzx : z = x
    · subst hzx
      have h1 := hs'.dirLinks z hdir'
      have h2 := hs.once z hdir
      have h3 : subdirs (Tree.detach m d k z) z = 0 := by
        apply subdirs_eq_zero hs'
        intro y hy
        rw [detach_entries hne]
        exact hd.noEntries hdir y hy
      rw [if_neg hroot] at h1
      omega
    · rw [hlinks hz0 hzx]
      apply h.dir z hdir hroot
      by_cases hzd : z = d
      · rw [hzd]
        exact hdlinks
      · rwa [detach_of_ne hzd hzx] at hl
  · intro z hdir hl y hy
    have hdir' := hdir
    rw [detach_type] at hdir
    by_cases hzd : z = d
    · subst hzd
      have h1 := hs'.dirLinks z hdir'
      by_cases hroot : z = ROOTINO
      · rw [if_pos hroot] at h1
        omega
      · have h2 := h.dir z hdir hroot hdlinks
        have h3 := hlinks (hs.ne_zero (FileType.ne_free hdir)) hne.symm
        omega
    · rw [detach_entries hzd]
      by_cases hzx : z = x
      · rw [hzx] at hdir ⊢
        exact hd.noEntries hdir y hy
      · rw [detach_of_ne hzd hzx] at hl
        exact h.removed z hdir hl y hy

theorem Counted.freed (h : Counted m) (hs : Shape m) (hf : Freed m m') : Counted m' := by
  have hnames (y : Nat) {z : Nat} (hz : z ≠ 0) :
      names (m' y).entries z = names (m y).entries z := by
    rcases hf y with he | ⟨hgone, -, hnil, -⟩
    · rw [he]
    · rw [hnil, names_nil]
      by_cases hdir : (m y).type = .dir
      · rcases hgone with hfree | hl
        · exact (FileType.ne_free hdir hfree).elim
        · exact (h.removed y hdir hl z hz).symm
      · rw [hs.empty y hdir, names_nil]
  have hlinks {z : Nat} (hz : z ≠ 0) : linksTo m' z = linksTo m z :=
    Finset.sum_congr rfl (fun y _ ↦ hnames y hz)
  refine ⟨?_, ?_, ?_⟩
  · intro x hx hdir
    have he := hf.eq_of_ne_free hx
    rw [he] at hx hdir ⊢
    rw [hlinks (hs.ne_zero hx)]
    exact h.file x hx hdir
  · intro x hdir hroot hl
    have he := hf.eq_of_ne_free (FileType.ne_free hdir)
    rw [he] at hdir hl
    rw [hlinks (hs.ne_zero (FileType.ne_free hdir))]
    exact h.dir x hdir hroot hl
  · intro x hdir hl z hz
    have he := hf.eq_of_ne_free (FileType.ne_free hdir)
    rw [he] at hdir hl ⊢
    exact h.removed x hdir hl z hz

/-! ### The counts are the number of entries -/

theorem namedBy_dots {x y : Nat} (hx : x ≠ 0) {es : List Dirent} (h : Dots y es) :
    namedBy es x =
      names es x + if (es[1]?.map (·.inum)).getD 0 = x then 1 else 0 := by
  obtain ⟨p, rest, rfl, -, hrest⟩ := h
  have hcount : rest.countP (fun e ↦ decide (e.inum = x ∧ e.name ≠ dot)) =
      rest.countP (fun e ↦ decide (e.inum = x)) := by
    apply List.countP_congr
    intro e he
    simp only [decide_eq_true_eq]
    constructor
    · exact fun h ↦ h.1
    · intro hex
      exact ⟨hex, (hrest e he (by omega)).1⟩
  have hne : dotdot ≠ dot := by decide
  rw [namedBy, names_dots, List.countP_cons, List.countP_cons, hcount]
  simp [hne]

theorem short_pos_iff {n : Nat} (h : n < 2 ^ 15) : 0 < short n ↔ n ≠ 0 := by
  rw [short, if_pos h]
  omega

/-- Each directory's part of the count. -/
theorem part_eq (hs : Shape m) (h : Counted m) {x y : Nat} (hx : x ≠ 0) :
    (if (m y).type = .dir ∧ 0 < short (m y).nlink then namedBy (m y).entries x else 0) =
      names (m y).entries x +
        (if (m x).type = .dir then if (m y).type = .dir then names (m x).entries y else 0 else 0) +
        if y = ROOTINO ∧ x = ROOTINO then 1 else 0 := by
  by_cases hdir : (m y).type = .dir
  · have hy0 := hs.ne_zero (FileType.ne_free hdir)
    have hle := hs.dir_nlink_le hdir
    have hshort : 0 < short (m y).nlink ↔ (m y).nlink ≠ 0 :=
      short_pos_iff (by simp only [NINODES] at hle; omega)
    by_cases hl : (m y).nlink = 0
    · have hroot : y ≠ ROOTINO := by
        rintro rfl
        have := hs.root_links
        omega
      have hlinks := hs.dirLinks y hdir
      have hzero : linksTo m y = 0 := by omega
      rw [if_neg (fun hc ↦ hshort.mp hc.2 hl), h.removed y hdir hl x hx, hs.names_eq_zero hzero x]
      simp [hroot]
    · rw [if_pos ⟨hdir, hshort.mpr hl⟩, namedBy_dots hx (hs.dots y hdir), Nat.add_assoc]
      congr 1
      change (if parent m y = x then 1 else 0) = _
      by_cases hroot : y = ROOTINO
      · subst hroot
        have hno : names (m x).entries ROOTINO = 0 := by
          apply Nat.eq_zero_of_not_pos
          exact fun hpos ↦ (hs.listed x ROOTINO hy0 hpos).2.1 rfl
        rw [hs.rootParent, hno]
        simp [eq_comm]
      · have hone := h.dir y hdir hroot hl
        have hiff : parent m y = x ↔ 0 < names (m x).entries y := by
          constructor
          · intro hp
            have hpos : 0 < ∑ w : Fin NINODES, names (m w).entries y := by
              rw [← linksTo, hone]
              decide
            obtain ⟨w, -, hw⟩ := Finset.sum_pos_iff.mp hpos
            have := (hs.listed w y hy0 hw).2.2.2 hdir
            rw [← hp, this]
            exact hw
          · exact fun hpos ↦ (hs.listed x y hy0 hpos).2.2.2 hdir
        have hle1 : (m x).type = .dir → names (m x).entries y ≤ 1 := by
          intro hxd
          have := names_le_linksTo m y (hs.lt_ninodes (FileType.ne_free hxd))
          omega
        by_cases hp : parent m y = x
        · have hpos := hiff.mp hp
          have hxd := hs.dir_of_names hpos
          have := hle1 hxd
          simp only [hp, hxd, hdir, hroot, if_true, false_and, if_false]
          omega
        · have hzero : names (m x).entries y = 0 :=
            Nat.eq_zero_of_not_pos (fun hpos ↦ hp (hiff.mpr hpos))
          simp [hp, hzero, hroot]
  · have hroot : y ≠ ROOTINO := fun hr ↦ hdir (by rw [hr]; exact hs.root)
    simp [hdir, hroot, hs.empty y hdir]

theorem root_lt : ROOTINO < NINODES := by decide

/-- The entries that count, by the kind of inode. -/
theorem linkCount_eq (hs : Shape m) (h : Counted m) {x : Nat} (hx : x ≠ 0) :
    linkCount m x = linksTo m x + (if (m x).type = .dir then subdirs m x else 0) +
      if x = ROOTINO then 1 else 0 := by
  have hparts : linkCount m x = ∑ y : Fin NINODES, (names (m y).entries x +
      (if (m x).type = .dir then if (m y).type = .dir then names (m x).entries y else 0 else 0) +
        if (y : Nat) = ROOTINO ∧ x = ROOTINO then 1 else 0) :=
    Finset.sum_congr rfl (fun y _ ↦ part_eq hs h hx)
  have hsub : (∑ y : Fin NINODES, if (m x).type = .dir then
      if (m y).type = .dir then names (m x).entries y else 0 else 0) =
        if (m x).type = .dir then subdirs m x else 0 := by
    split
    · rw [subdirs]
    · exact Finset.sum_const_zero
  rw [hparts, Finset.sum_add_distrib, Finset.sum_add_distrib, sum_at root_lt, hsub, linksTo]

theorem nlink_eq (hs : Shape m) (h : Counted m) {x : Nat} (hx : (m x).type ≠ .free) :
    (m x).nlink = linkCount m x ∧ (m x).nlink < 2 ^ 15 := by
  rw [linkCount_eq hs h (hs.ne_zero hx)]
  by_cases hdir : (m x).type = .dir
  · have hle := hs.dir_nlink_le hdir
    rw [if_pos hdir]
    exact ⟨hs.dirLinks x hdir, by simp only [NINODES] at hle; omega⟩
  · have hroot : x ≠ ROOTINO := fun hr ↦ hdir (by rw [hr]; exact hs.root)
    have := h.file x hx hdir
    rw [if_neg hdir, if_neg hroot]
    exact ⟨by omega, this.2⟩

end

end Xv6.Tree
