import Xv6.Tree.Graph

/-!
# Changes of the graph

What a system call does to the graph of entries: it attaches an inode to a directory, detaches
one, or frees inodes that have no links left.
-/

namespace Xv6.Tree

open Xv6.Lib

/-- A directory with an entry more, for an inode of the given type. -/
def Inode.addEntry (d : Inode) (e : Dirent) (type : FileType) : Inode :=
  let d := { d with entries := put e d.entries }
  if type = .dir then d.incLink else d

/-- A directory with entry `k`, for an inode of the given type, cleared. -/
def Inode.clearEntry (d : Inode) (k : Nat) (type : FileType) : Inode :=
  let d := { d with entries := d.entries.set k ⟨0, []⟩ }
  if type = .dir then d.decLink else d

@[simp] theorem Inode.incLink_type (ip : Inode) : ip.incLink.type = ip.type := rfl

@[simp] theorem Inode.incLink_entries (ip : Inode) : ip.incLink.entries = ip.entries := rfl

@[simp] theorem Inode.decLink_type (ip : Inode) : ip.decLink.type = ip.type := rfl

@[simp] theorem Inode.decLink_entries (ip : Inode) : ip.decLink.entries = ip.entries := rfl

@[simp] theorem Inode.addEntry_type (d : Inode) (e : Dirent) (type : FileType) :
    (d.addEntry e type).type = d.type := by
  unfold addEntry
  split <;> simp

@[simp] theorem Inode.addEntry_entries (d : Inode) (e : Dirent) (type : FileType) :
    (d.addEntry e type).entries = put e d.entries := by
  unfold addEntry
  split <;> simp

theorem Inode.addEntry_nlink {d : Inode} (e : Dirent) (type : FileType) (h : d.nlink + 1 < 2 ^ 16) :
    (d.addEntry e type).nlink = d.nlink + if type = .dir then 1 else 0 := by
  unfold addEntry
  split
  · exact Nat.mod_eq_of_lt h
  · exact (Nat.add_zero _).symm

@[simp] theorem Inode.clearEntry_type (d : Inode) (k : Nat) (type : FileType) :
    (d.clearEntry k type).type = d.type := by
  unfold clearEntry
  split <;> simp

@[simp] theorem Inode.clearEntry_entries (d : Inode) (k : Nat) (type : FileType) :
    (d.clearEntry k type).entries = d.entries.set k ⟨0, []⟩ := by
  unfold clearEntry
  split <;> simp

/-- `nlink--` of a count that is not 0. -/
theorem Inode.decLink_nlink {ip : Inode} (h : 0 < ip.nlink) : ip.decLink.nlink + 1 = ip.nlink := by
  have hne : ip.nlink ≠ 0 := by omega
  simp only [decLink, hne, if_false]
  omega

theorem Inode.clearEntry_nlink {d : Inode} (k : Nat) {type : FileType}
    (h : type = .dir → 0 < d.nlink) :
    (d.clearEntry k type).nlink + (if type = .dir then 1 else 0) = d.nlink := by
  unfold clearEntry
  split
  · next ht => exact Inode.decLink_nlink (h ht)
  · rfl

/-! ### Attaching -/

/-- The graph with an entry for `x` in directory `d`, and `ino` as the inode `x`. -/
def attach (m : Graph) (d x : Nat) (name : Name) (ino : Inode) : Graph :=
  Function.update (Function.update m x ino) d ((m d).addEntry ⟨x, name⟩ ino.type)

/-- The inode `x`, new or a file with one more link, can be attached to `d`. -/
structure Attachable (m : Graph) (d x : Nat) (name : Name) (ino : Inode) : Prop where
  dir : (m d).type = .dir
  ne_zero : x ≠ 0
  lt : x < NINODES
  notDir : (m x).type ≠ .dir
  name_ne : name ≠ dot ∧ name ≠ dotdot
  type : ino.type ≠ .free
  same : (m x).type = .free ∨ ino.type = (m x).type
  dirIno : ino.type = .dir → ino.entries = [⟨x, dot⟩, ⟨d, dotdot⟩] ∧ ino.nlink = 1
  fileIno : ino.type ≠ .dir → ino.entries = [] ∧ linksTo m x + 1 ≤ ino.nlink
  width : ino.nlink < 2 ^ 16

section
variable {m : Graph} {d x : Nat} {name : Name} {ino : Inode}

theorem attach_dir : attach m d x name ino d = (m d).addEntry ⟨x, name⟩ ino.type :=
  Function.update_self ..

theorem attach_self (h : x ≠ d) : attach m d x name ino x = ino := by
  rw [attach, Function.update_of_ne h, Function.update_self]

theorem attach_of_ne {y : Nat} (hd : y ≠ d) (hx : y ≠ x) : attach m d x name ino y = m y := by
  rw [attach, Function.update_of_ne hd, Function.update_of_ne hx]

theorem attach_type {y : Nat} (hy : y ≠ x) : (attach m d x name ino y).type = (m y).type := by
  by_cases hyd : y = d
  · rw [hyd, attach_dir, Inode.addEntry_type]
  · rw [attach_of_ne hyd hy]

namespace Attachable

variable (h : Attachable m d x name ino)
include h

theorem ne : x ≠ d := fun he ↦ h.notDir (he ▸ h.dir)

variable (hs : Shape m)
include hs

theorem notRoot : x ≠ ROOTINO := fun he ↦ h.notDir (he ▸ hs.root)

theorem d_ne_zero : d ≠ 0 := hs.ne_zero (FileType.ne_free h.dir)

theorem d_lt : d < NINODES := hs.lt_ninodes (FileType.ne_free h.dir)

theorem attach_names (y : Nat) {z : Nat} (hz : z ≠ 0) :
    names (attach m d x name ino y).entries z =
      names (m y).entries z + if y = d ∧ z = x then 1 else 0 := by
  by_cases hyd : y = d
  · rw [hyd, attach_dir, Inode.addEntry_entries, names_put (hs.dots d h.dir) (h.d_ne_zero hs) _ hz]
    simp [eq_comm]
  · rw [if_neg (fun hy ↦ hyd hy.1)]
    by_cases hyx : y = x
    · rw [hyx, attach_self h.ne, hs.empty x h.notDir]
      by_cases hdir : ino.type = .dir
      · rw [(h.dirIno hdir).1]
        rfl
      · rw [(h.fileIno hdir).1]
        rfl
    · rw [attach_of_ne hyd hyx]
      rfl

theorem attach_linksTo {z : Nat} (hz : z ≠ 0) :
    linksTo (attach m d x name ino) z = linksTo m z + if z = x then 1 else 0 := by
  have := linksTo_edit (m := m) (g := attach m d x name ino) (d := d) (x := x) (a := 0) (b := 1)
    (h.d_lt hs) (z := z) (by
      intro y
      rw [h.attach_names hs y hz]
      simp)
  simpa using this

/-- A new directory is a subdirectory more. -/
theorem attach_subdirs (w : Nat) :
    subdirs (attach m d x name ino) w =
      subdirs m w + if w = d ∧ ino.type = .dir then 1 else 0 := by
  have := subdirs_edit (m := m) (g := attach m d x name ino) (d := d) (x := x) (a := 0)
    (b := if ino.type = .dir then 1 else 0) h.lt (w := w) (by
      intro z
      by_cases hzx : (z : Nat) = x
      · rw [hzx, attach_self h.ne, if_neg h.notDir, h.attach_names hs w h.ne_zero]
        by_cases hdir : ino.type = .dir
        · have hfree : (m x).type = .free := by
            rcases h.same with hf | ht
            · exact hf
            · exact (h.notDir (ht ▸ hdir)).elim
          rw [hs.names_of_free h.ne_zero hfree]
          simp [hdir]
        · simp [hdir]
      · rw [attach_type hzx]
        by_cases hz : (z : Nat) = 0
        · simp [FileType.ne_dir (hs.outside z (Or.inl hz)), hzx]
        · rw [h.attach_names hs w hz]
          simp [hzx])
  by_cases hw : w = d <;> simpa [hw] using this

theorem attach_parent {y : Nat} (hy : y ≠ x) :
    parent (attach m d x name ino) y = parent m y := by
  by_cases hyd : y = d
  · obtain ⟨p, rest, he, hput⟩ := (hs.dots d h.dir).self_ne_zero (h.d_ne_zero hs) ⟨x, name⟩
    rw [hyd, parent, attach_dir, Inode.addEntry_entries, hput, parent, he]
    rfl
  · rw [parent, attach_of_ne hyd hy, parent]

/-- Attaching an inode keeps the shape of the graph. -/
theorem shape : Shape (attach m d x name ino) where
  outside := by
    intro y hy
    have hyx : y ≠ x := by
      have := h.lt
      have := h.ne_zero
      omega
    rw [attach_type hyx]
    exact hs.outside y hy
  root := by
    rw [attach_type (h.notRoot hs).symm]
    exact hs.root
  rootParent := by
    rw [h.attach_parent hs (h.notRoot hs).symm]
    exact hs.rootParent
  dots := by
    intro y hy
    by_cases hyx : y = x
    · rw [hyx, attach_self h.ne] at hy ⊢
      refine ⟨d, [], (h.dirIno hy).1, h.d_ne_zero hs, ?_⟩
      intro e he
      cases he
    · rw [attach_type hyx] at hy
      by_cases hyd : y = d
      · subst hyd
        rw [attach_dir, Inode.addEntry_entries]
        exact (hs.dots y hy).put (h.d_ne_zero hs) h.name_ne
      · rw [attach_of_ne hyd hyx]
        exact hs.dots y hy
  empty := by
    intro y hy
    by_cases hyx : y = x
    · rw [hyx, attach_self h.ne] at hy ⊢
      exact (h.fileIno hy).1
    · rw [attach_type hyx] at hy
      rw [attach_of_ne (fun hyd ↦ hy (by rw [hyd]; exact h.dir)) hyx]
      exact hs.empty y hy
  listed := by
    intro y z hz hpos
    rw [h.attach_names hs y hz] at hpos
    by_cases hyz : y = d ∧ z = x
    · obtain ⟨rfl, rfl⟩ := hyz
      rw [attach_self h.ne]
      refine ⟨h.type, h.notRoot hs, h.ne, ?_⟩
      intro hdir
      rw [parent, attach_self h.ne, (h.dirIno hdir).1]
      rfl
    · rw [if_neg hyz] at hpos
      obtain ⟨h1, h2, h3, h4⟩ := hs.listed y z hz hpos
      by_cases hzx : z = x
      · subst hzx
        rw [attach_self h.ne]
        refine ⟨h.type, h2, h3, ?_⟩
        intro hdir
        rcases h.same with hf | ht
        · exact (h1 hf).elim
        · exact (h.notDir (ht ▸ hdir)).elim
      · rw [attach_type hzx, h.attach_parent hs hzx]
        exact ⟨h1, h2, h3, h4⟩
  once := by
    intro z hz
    by_cases hzx : z = x
    · subst hzx
      rw [attach_self h.ne] at hz
      have hfree : (m z).type = .free := by
        rcases h.same with hf | ht
        · exact hf
        · exact (h.notDir (ht ▸ hz)).elim
      rw [h.attach_linksTo hs h.ne_zero, linksTo_eq_zero (hs.names_of_free h.ne_zero hfree)]
      simp
    · rw [attach_type hzx] at hz
      have hz0 := hs.ne_zero (FileType.ne_free hz)
      rw [h.attach_linksTo hs hz0, if_neg hzx, Nat.add_zero]
      exact hs.once z hz
  fileLinks := by
    intro z hz hdir
    by_cases hzx : z = x
    · subst hzx
      rw [attach_self h.ne] at hz hdir ⊢
      have := (h.fileIno hdir).2
      rw [h.attach_linksTo hs h.ne_zero]
      simpa using this
    · rw [attach_type hzx] at hz hdir
      rw [h.attach_linksTo hs (hs.ne_zero hz), if_neg hzx, Nat.add_zero,
        attach_of_ne (fun hzd ↦ hdir (by rw [hzd]; exact h.dir)) hzx]
      exact hs.fileLinks z hz hdir
  dirLinks := by
    intro z hz
    rw [h.attach_subdirs hs]
    by_cases hzx : z = x
    · subst hzx
      have hroot := h.notRoot hs
      rw [attach_self h.ne] at hz ⊢
      have hfree : (m z).type = .free := by
        rcases h.same with hf | ht
        · exact hf
        · exact (h.notDir (ht ▸ hz)).elim
      have hsub : subdirs m z = 0 := by
        apply Finset.sum_eq_zero
        intro w _
        rw [hs.empty z h.notDir]
        simp
      rw [h.attach_linksTo hs h.ne_zero, linksTo_eq_zero (hs.names_of_free h.ne_zero hfree), hsub,
        (h.dirIno hz).2]
      simp [h.ne, hroot]
    · rw [attach_type hzx] at hz
      have hz0 := hs.ne_zero (FileType.ne_free hz)
      have hlinks := hs.dirLinks z hz
      have hle := hs.dir_nlink_le hz
      rw [h.attach_linksTo hs hz0, if_neg hzx]
      by_cases hzd : z = d
      · subst hzd
        rw [attach_dir, Inode.addEntry_nlink _ _ (by simp only [NINODES] at hle; omega)]
        simp only [true_and]
        omega
      · rw [attach_of_ne hzd hzx, if_neg (fun hd ↦ hzd hd.1)]
        omega
  width := by
    intro y
    by_cases hyx : y = x
    · rw [hyx, attach_self h.ne]
      exact h.width
    · by_cases hyd : y = d
      · have hle := hs.dir_nlink_le h.dir
        rw [hyd, attach_dir, Inode.addEntry_nlink _ _ (by simp only [NINODES] at hle; omega)]
        simp only [NINODES] at hle
        split <;> omega
      · rw [attach_of_ne hyd hyx]
        exact hs.width y

end Attachable

end

/-! ### Detaching -/

/-- The graph with entry `k` of directory `d` cleared, and a link of `x`, which it named, less. -/
def detach (m : Graph) (d k x : Nat) : Graph :=
  Function.update (Function.update m x (m x).decLink) d ((m d).clearEntry k (m x).type)

/-- Entry `k` of `d` names `x`, which has links and, if it is a directory, no entries. -/
structure Detachable (m : Graph) (d k x : Nat) : Prop where
  dir : (m d).type = .dir
  slot : 2 ≤ k
  ne_zero : x ≠ 0
  entry : ∃ name, (m d).entries[k]? = some ⟨x, name⟩
  linked : 0 < (m x).nlink
  noEntries : (m x).type = .dir → ∀ z, z ≠ 0 → names (m x).entries z = 0

section
variable {m : Graph} {d k x : Nat}

theorem detach_dir : detach m d k x d = (m d).clearEntry k (m x).type := Function.update_self ..

theorem detach_self (h : x ≠ d) : detach m d k x x = (m x).decLink := by
  rw [detach, Function.update_of_ne h, Function.update_self]

theorem detach_of_ne {y : Nat} (hd : y ≠ d) (hx : y ≠ x) : detach m d k x y = m y := by
  rw [detach, Function.update_of_ne hd, Function.update_of_ne hx]

theorem detach_type (y : Nat) : (detach m d k x y).type = (m y).type := by
  by_cases hyd : y = d
  · rw [hyd, detach_dir, Inode.clearEntry_type]
  · by_cases hyx : y = x
    · rw [hyx, detach_self (hyx ▸ hyd), Inode.decLink_type]
    · rw [detach_of_ne hyd hyx]

theorem detach_entries {y : Nat} (hyd : y ≠ d) : (detach m d k x y).entries = (m y).entries := by
  by_cases hyx : y = x
  · rw [hyx, detach_self (hyx ▸ hyd), Inode.decLink_entries]
  · rw [detach_of_ne hyd hyx]

namespace Detachable

variable (h : Detachable m d k x) (hs : Shape m)
include h

theorem names_pos : 0 < names (m d).entries x := by
  obtain ⟨name, he⟩ := h.entry
  exact names_pos_of_getElem h.slot he

include hs

theorem listed : (m x).type ≠ .free ∧ x ≠ ROOTINO ∧ x ≠ d ∧ ((m x).type = .dir → parent m x = d) :=
  hs.listed d x h.ne_zero h.names_pos

theorem d_lt : d < NINODES := hs.lt_ninodes (FileType.ne_free h.dir)

theorem x_lt : x < NINODES := hs.lt_ninodes (h.listed hs).1

theorem detach_names (y : Nat) {z : Nat} (hz : z ≠ 0) :
    names (detach m d k x y).entries z + (if y = d ∧ z = x then 1 else 0) =
      names (m y).entries z := by
  by_cases hyd : y = d
  · obtain ⟨name, he⟩ := h.entry
    have := names_clear (hs.dots d h.dir) h.slot he hz
    rw [hyd, detach_dir, Inode.clearEntry_entries, ← this]
    simp [eq_comm]
  · rw [detach_entries hyd, if_neg (fun hy ↦ hyd hy.1), Nat.add_zero]

theorem detach_linksTo {z : Nat} (hz : z ≠ 0) :
    linksTo (detach m d k x) z + (if z = x then 1 else 0) = linksTo m z := by
  have := linksTo_edit (m := m) (g := detach m d k x) (d := d) (x := x) (a := 1) (b := 0)
    (h.d_lt hs) (z := z) (by
      intro y
      rw [h.detach_names hs y hz]
      simp)
  simpa using this

theorem detach_subdirs (w : Nat) :
    subdirs (detach m d k x) w + (if w = d ∧ (m x).type = .dir then 1 else 0) = subdirs m w := by
  have := subdirs_edit (m := m) (g := detach m d k x) (d := d) (x := x)
    (a := if (m x).type = .dir then 1 else 0) (b := 0) (h.x_lt hs) (w := w) (by
      intro z
      rw [detach_type]
      by_cases hz : (z : Nat) = 0
      · have hne : (z : Nat) ≠ x := fun hzx ↦ h.ne_zero (hzx.symm.trans hz)
        simp [FileType.ne_dir (hs.outside z (Or.inl hz)), hne]
      · have hn := h.detach_names hs w hz
        by_cases hzx : (z : Nat) = x
        · rw [hzx] at hn ⊢
          by_cases hdir : (m x).type = .dir
          · simpa [hdir] using hn
          · simp [hdir]
        · simp only [hzx, and_false, if_false, false_and, Nat.add_zero] at hn ⊢
          rw [hn])
  by_cases hw : w = d <;> simpa [hw] using this

theorem detach_parent (y : Nat) : parent (detach m d k x) y = parent m y := by
  by_cases hyd : y = d
  · obtain ⟨p, rest, he, -⟩ := hs.dots d h.dir
    obtain ⟨j, rfl⟩ : ∃ j, k = j + 2 := ⟨k - 2, by have := h.slot; omega⟩
    rw [hyd, parent, detach_dir, Inode.clearEntry_entries, parent, he]
    rfl
  · rw [parent, detach_entries hyd, parent]

theorem clearEntry_nlink :
    ((m d).clearEntry k (m x).type).nlink + (if (m x).type = .dir then 1 else 0) =
      (m d).nlink := by
  apply Inode.clearEntry_nlink
  intro hdir
  have hlinks := hs.dirLinks d h.dir
  have hsub := h.detach_subdirs hs d
  simp only [hdir, and_self, if_true] at hsub
  omega

/-- Detaching an inode keeps the shape of the graph. -/
theorem shape : Shape (detach m d k x) where
  outside := by
    intro y hy
    rw [detach_type]
    exact hs.outside y hy
  root := by
    rw [detach_type]
    exact hs.root
  rootParent := by
    rw [h.detach_parent hs]
    exact hs.rootParent
  dots := by
    intro y hy
    rw [detach_type] at hy
    by_cases hyd : y = d
    · rw [hyd] at hy ⊢
      rw [detach_dir, Inode.clearEntry_entries]
      exact (hs.dots d hy).clear h.slot
    · rw [detach_entries hyd]
      exact hs.dots y hy
  empty := by
    intro y hy
    rw [detach_type] at hy
    rw [detach_entries (fun hyd ↦ hy (by rw [hyd]; exact h.dir))]
    exact hs.empty y hy
  listed := by
    intro y z hz hpos
    rw [detach_type, h.detach_parent hs]
    apply hs.listed y z hz
    have := h.detach_names hs y hz
    omega
  once := by
    intro z hz
    rw [detach_type] at hz
    have h1 := hs.once z hz
    have h2 := h.detach_linksTo hs (hs.ne_zero (FileType.ne_free hz))
    omega
  fileLinks := by
    intro z hz hdir
    rw [detach_type] at hz hdir
    have h1 := hs.fileLinks z hz hdir
    have h2 := h.detach_linksTo hs (hs.ne_zero hz)
    by_cases hzx : z = x
    · rw [hzx] at h1 h2 ⊢
      have h3 := Inode.decLink_nlink h.linked
      rw [detach_self (h.listed hs).2.2.1]
      simp only [if_true] at h2
      omega
    · rw [detach_of_ne (fun hzd ↦ hdir (by rw [hzd]; exact h.dir)) hzx]
      omega
  dirLinks := by
    intro z hz
    rw [detach_type] at hz
    have h1 := hs.dirLinks z hz
    have h2 := h.detach_linksTo hs (hs.ne_zero (FileType.ne_free hz))
    have h3 := h.detach_subdirs hs z
    by_cases hzd : z = d
    · subst hzd
      have h4 := h.clearEntry_nlink hs
      have hne : z ≠ x := (h.listed hs).2.2.1.symm
      rw [detach_dir]
      simp only [hne, if_false, true_and] at h2 h3
      omega
    · by_cases hzx : z = x
      · subst hzx
        have h4 := Inode.decLink_nlink h.linked
        rw [detach_self hzd]
        simp only [hzd, if_true, false_and, if_false] at h2 h3
        omega
      · rw [detach_of_ne hzd hzx]
        simp only [hzx, hzd, if_false, false_and] at h2 h3
        omega
  width := by
    intro y
    by_cases hyd : y = d
    · have h4 := h.clearEntry_nlink hs
      have := hs.width d
      rw [hyd, detach_dir]
      omega
    · by_cases hyx : y = x
      · have h4 := Inode.decLink_nlink h.linked
        have := hs.width x
        rw [hyx, detach_self (hyx ▸ hyd)]
        omega
      · rw [detach_of_ne hyd hyx]
        exact hs.width y

end Detachable

end

/-! ### Freeing -/

/-- Inodes without links are freed, and free inodes may be overwritten. -/
def Freed (m m' : Graph) : Prop := ∀ y, m' y = m y ∨
  ((m y).type = .free ∨ (m y).nlink = 0) ∧
    (m' y).type = .free ∧ (m' y).entries = [] ∧ (m' y).nlink < 2 ^ 16

theorem Freed.refl (m : Graph) : Freed m m := fun _ ↦ Or.inl rfl

theorem Freed.trans {m m' m'' : Graph} (h : Freed m m') (h' : Freed m' m'') : Freed m m'' := by
  intro y
  rcases h' y with hy | ⟨hy, hfree⟩
  · rw [hy]
    exact h y
  · rcases h y with hy' | ⟨hy', -⟩
    · rw [hy'] at hy
      exact Or.inr ⟨hy, hfree⟩
    · exact Or.inr ⟨hy', hfree⟩

namespace Freed

variable {m m' : Graph} (h : Freed m m')
include h

theorem eq_of_ne_free {y : Nat} (hy : (m' y).type ≠ .free) : m' y = m y := by
  rcases h y with he | ⟨-, hf, -⟩
  · exact he
  · exact (hy hf).elim

theorem eq_of_linked {y : Nat} (ht : (m y).type ≠ .free) (hl : (m y).nlink ≠ 0) : m' y = m y := by
  rcases h y with he | ⟨hf | hf, -⟩
  · exact he
  · exact (ht hf).elim
  · exact (hl hf).elim

theorem names_le (y z : Nat) : names (m' y).entries z ≤ names (m y).entries z := by
  rcases h y with he | ⟨-, -, hnil, -⟩
  · rw [he]
  · rw [hnil]
    exact Nat.zero_le _

variable (hs : Shape m)
include hs

/-- The freed inodes were not listed. -/
theorem linksTo_eq_zero {y : Nat} (hy : m' y ≠ m y) (hne : y ≠ 0) : linksTo m y = 0 := by
  rcases h y with he | ⟨hf | hf, -⟩
  · exact (hy he).elim
  · exact Tree.linksTo_eq_zero (hs.names_of_free hne hf)
  · by_cases hfree : (m y).type = .free
    · exact Tree.linksTo_eq_zero (hs.names_of_free hne hfree)
    · by_cases hdir : (m y).type = .dir
      · have := hs.dirLinks y hdir
        omega
      · have := hs.fileLinks y hfree hdir
        omega

/-- The freed directories listed no directories. -/
theorem names_dir {y z : Nat} (hy : m' y ≠ m y) (hz : (m z).type = .dir) :
    names (m y).entries z = 0 := by
  by_cases hdir : (m y).type = .dir
  · have hlinks := hs.dirLinks y hdir
    have hzero : (m y).nlink = 0 := by
      rcases h y with he | ⟨hf | hf, -⟩
      · exact (hy he).elim
      · exact (FileType.ne_free hdir hf).elim
      · exact hf
    have hle := le_sum
      (fun z : Fin NINODES ↦ if (m z).type = .dir then names (m y).entries z else 0)
      ⟨z, hs.lt_ninodes (FileType.ne_free hz)⟩
    have hsub : subdirs m y = 0 := by omega
    rw [subdirs] at hsub
    simp only [hz, if_true] at hle
    omega
  · rw [hs.empty y hdir]
    rfl

theorem names_eq {y z : Nat} (hz : (m' z).type = .dir) :
    names (m' y).entries z = names (m y).entries z := by
  by_cases hy : m' y = m y
  · rw [hy]
  · have hz' : (m z).type = .dir := by
      rw [← h.eq_of_ne_free (FileType.ne_free hz)]
      exact hz
    have h1 := h.names_dir hs hy hz'
    have h2 := h.names_le y z
    omega

theorem linksTo_eq {z : Nat} (hz : (m' z).type = .dir) : linksTo m' z = linksTo m z :=
  Finset.sum_congr rfl (fun _ _ ↦ h.names_eq hs hz)

theorem subdirs_eq {w : Nat} (hw : m' w = m w) : subdirs m' w = subdirs m w := by
  apply Finset.sum_congr rfl
  intro z _
  rw [hw]
  by_cases hz : m' z = m z
  · rw [hz]
  · by_cases hz0 : (z : Nat) = 0
    · have hout := hs.outside z (Or.inl hz0)
      have hout' : (m' z).type = .free := by
        rcases h z with he | ⟨-, hf, -⟩
        · rw [he]
          exact hout
        · exact hf
      rw [if_neg (FileType.ne_dir hout), if_neg (FileType.ne_dir hout')]
    · have hzero := hs.names_eq_zero (h.linksTo_eq_zero hs hz hz0) w
      simp [hzero]

/-- Freeing inodes keeps the shape of the graph. -/
theorem shape : Shape m' where
  outside := by
    intro y hy
    rcases h y with he | ⟨-, hf, -⟩
    · rw [he]
      exact hs.outside y hy
    · exact hf
  root := by
    rw [h.eq_of_linked (FileType.ne_free hs.root) (Nat.ne_of_gt hs.root_links)]
    exact hs.root
  rootParent := by
    rw [parent, h.eq_of_linked (FileType.ne_free hs.root) (Nat.ne_of_gt hs.root_links)]
    exact hs.rootParent
  dots := by
    intro y hy
    have he := h.eq_of_ne_free (FileType.ne_free hy)
    rw [he] at hy ⊢
    exact hs.dots y hy
  empty := by
    intro y hy
    rcases h y with he | ⟨-, -, hnil, -⟩
    · rw [he] at hy ⊢
      exact hs.empty y hy
    · exact hnil
  listed := by
    intro y z hz hpos
    obtain ⟨h1, h2, h3, h4⟩ := hs.listed y z hz (Nat.lt_of_lt_of_le hpos (h.names_le y z))
    have he : m' z = m z := by
      apply Classical.byContradiction
      intro hne
      have hzero := hs.names_eq_zero (h.linksTo_eq_zero hs hne hz) y
      have := h.names_le y z
      omega
    rw [parent, he]
    exact ⟨h1, h2, h3, h4⟩
  once := by
    intro z hz
    rw [h.linksTo_eq hs hz]
    apply hs.once z
    rw [← h.eq_of_ne_free (FileType.ne_free hz)]
    exact hz
  fileLinks := by
    intro z hz hdir
    have he := h.eq_of_ne_free hz
    have hle : linksTo m' z ≤ linksTo m z := Finset.sum_le_sum (fun y _ ↦ h.names_le y z)
    rw [he] at hz hdir ⊢
    exact Nat.le_trans hle (hs.fileLinks z hz hdir)
  dirLinks := by
    intro z hz
    have he := h.eq_of_ne_free (FileType.ne_free hz)
    rw [h.linksTo_eq hs hz, h.subdirs_eq hs he, he]
    rw [he] at hz
    exact hs.dirLinks z hz
  width := by
    intro y
    rcases h y with he | ⟨-, -, -, hw⟩
    · rw [he]
      exact hs.width y
    · exact hw

end Freed

end Xv6.Tree
