import Xv6.Tree.Exact

/-!
# Entries do not dangle

Every entry of a directory in use names an allocated inode, `..` included, and `namex` never
locks a free inode. This holds as long as no call gives up the last hold on a removed directory
that is still the parent of another one in use. `sys_unlink` does not prevent that: a removed
subdirectory that is still a current directory is no longer an entry of its parent.
-/

namespace Xv6.Tree

open Xv6.Lib

/-- Entries of directories in use name allocated inodes, and no path leads `namex` to a free
inode. -/
structure NoDangling (s : State) : Prop where
  entries : ∀ y, Live s.inodes s.toTables y → (s.inodes y).type = .dir →
    ∀ e ∈ (s.inodes y).entries, e.inum ≠ 0 → (s.inodes e.inum).type ≠ .free
  namex : ∀ p pr, s.procs p = some pr → ∀ parent path,
    Tree.namex s pr parent path ≠ .error "ilock: no type"

/-- A directory without links and references. -/
def Unused (m : Graph) (t : Tables) (x : Nat) : Prop :=
  (m x).type = .dir ∧ (m x).nlink = 0 ∧ t.refs x = 0

instance (m : Graph) (t : Tables) (x : Nat) : Decidable (Unused m t x) :=
  inferInstanceAs (Decidable (_ ∧ _))

/-- The call does not wrap a link count around, and no directory that it leaves without links and
references is the parent of another one that is still in use. -/
def KeepsParents (s : State) (c : Call) : Prop :=
  ∀ pr, s.procs c.slot = some pr → NoWrap s.inodes pr c ∧
    ∀ x < NINODES, Unused (edit s.inodes pr c) (c.tables s pr) x →
      ∀ z < NINODES, z ≠ x → (edit s.inodes pr c z).type = .dir →
        Live (edit s.inodes pr c) (c.tables s pr) z → parent (edit s.inodes pr c) z ≠ x

/-- The parents of directories in use are directories. -/
def Parents (m : Graph) (t : Tables) : Prop :=
  ∀ z, Live m t z → (m z).type = .dir → (m (parent m z)).type = .dir

/-! ### Paths from a state with the invariant -/

section
variable {s : State}

theorem Parents.entries {m : Graph} {t : Tables} (h : Parents m t) (hs : Shape m) {y : Nat}
    (hy : Live m t y) {e : Dirent} (he : e ∈ (m y).entries) (hne : e.inum ≠ 0) :
    (m e.inum).type ≠ .free := by
  have hdir : (m y).type = .dir := by
    apply Classical.byContradiction
    intro hn
    rw [hs.empty y hn] at he
    cases he
  have hparent := h y hy hdir
  obtain ⟨p, rest, hes, -⟩ := hs.dots y hdir
  have hp : parent m y = p := by
    rw [parent, hes]
    rfl
  rw [hes] at he
  rcases List.mem_cons.mp he with rfl | he
  · exact FileType.ne_free hdir
  · rcases List.mem_cons.mp he with rfl | he
    · rw [hp] at hparent
      exact FileType.ne_free hparent
    · have hpos : 0 < names (m y).entries e.inum := by
        rw [hes, names_dots]
        exact List.countP_pos_iff.mpr ⟨e, he, by simp⟩
      exact (hs.listed y e.inum hne hpos).1

theorem Live.allocated (hg : Good s) (hp : Parents s.inodes s.toTables) {x : Nat}
    (h : Live s.inodes s.toTables x) : (s.inodes x).type ≠ .free := by
  cases h with
  | root => exact FileType.ne_free hg.shape.root
  | held hx => exact hg.held.alloc x (Nat.add_pos_left hx _)
  | entry hy he hne => exact hp.entries hg.shape hy he hne

theorem iget_error {e : String} {x : Nat} (h : iget s x = .error e) : e = "iget: no inodes" := by
  unfold iget at h
  split at h
  · cases h
  · split at h
    · cases h
      rfl
    · cases h

theorem dirlookup_error {e : String} {d : Nat} {name : Name} (h : dirlookup s d name = .error e)
    (hd : (s.inodes d).type = .dir) : e = "iget: no inodes" := by
  rw [dirlookup, if_neg (not_not_intro hd)] at h
  split at h
  · cases h
  · next k x _ =>
    cases hi : iget s x with
    | error e' =>
      rw [hi] at h
      cases h
      exact iget_error hi
    | ok s₁ =>
      rw [hi] at h
      cases h

/-- `ilock` returns when the inode is referenced and allocated. -/
theorem ilock_ok {x : Nat} (href : 0 < s.ref x) (hx : (s.inodes x).type ≠ .free) :
    ∃ t, ilock s x = .ok t := by
  rw [ilock, if_neg (by omega), if_neg hx]
  split
  · exact ⟨_, rfl⟩
  · exact ⟨_, rfl⟩

/-- The loop of `namex` fails in `iget` only. -/
theorem namexLoop_error {kept own : List Nat} {t : Tables}
    (hlive : ∀ x, Live s.inodes t x → (s.inodes x).type ≠ .free) {parent : Bool} {fuel ip : Nat}
    {path : Path} (h : Held s kept (ip :: own)) (hip : Live s.inodes t ip) {e : String}
    (he : namexLoop parent fuel s ip path = .error e) : e = "iget: no inodes" := by
  induction fuel generalizing s ip path with
  | zero => cases he
  | succ fuel ih =>
    rw [namexLoop] at he
    cases hsk : skipelem path with
    | none =>
      rw [hsk] at he
      cases he
    | some q =>
      obtain ⟨name, rest⟩ := q
      have hcount := h.count ip
      rw [List.count_cons_self] at hcount
      obtain ⟨s₁, hlock⟩ := ilock_ok (by omega) (hlive ip hip)
      obtain ⟨hs₁, hh₁, -, -⟩ := ilock_spec hlock h
      rw [hsk] at he
      simp only [hlock, bind, Except.bind] at he
      split at he
      · cases he
      · next hdir =>
        split at he
        · cases he
        · cases hlook : dirlookup s₁ ip name with
          | error e' =>
            rw [hlook] at he
            cases he
            exact dirlookup_error hlook (Classical.not_not.mp hdir)
          | ok q =>
            obtain ⟨next, s₂⟩ := q
            obtain ⟨-, hr, hs₂, hh₂, -⟩ := dirlookup_spec hlook hh₁
            rw [hlook] at he
            cases next with
            | none => cases he
            | some q =>
              obtain ⟨k, x⟩ := q
              obtain ⟨hs₃, hh₃⟩ := iput_own ((hh₂ k x rfl).perm (List.Perm.swap ip x own))
              have hino : (iput s₂ ip).inodes = s.inodes :=
                ((hs₁.trans hs₂).trans hs₃).inodes
              rw [hs₁.inodes] at hr
              obtain ⟨hent, hne⟩ := scan_entry hr.symm
              apply ih _ hh₃ _ he
              · rw [hino]
                exact hlive
              · rw [hino]
                exact Live.entry hip (List.mem_of_getElem? hent) hne

/-- `namex` fails in `iget` only. -/
theorem namex_error {kept own : List Nat} (h : Held s kept own)
    (hlive : ∀ x, Live s.inodes s.toTables x → (s.inodes x).type ≠ .free) {p : Slot} {pr : Proc}
    (hp : s.procs p = some pr) {parent : Bool} {path : Path} {e : String}
    (he : namex s pr parent path = .error e) : e = "iget: no inodes" := by
  unfold namex at he
  split at he
  · cases hi : iget s ROOTINO with
    | error e' =>
      rw [hi] at he
      cases he
      exact iget_error hi
    | ok s₁ =>
      obtain ⟨hs₁, hh₁⟩ := iget_spec hi h
      rw [hi] at he
      refine namexLoop_error (t := s.toTables) ?_ hh₁ Live.root he
      rw [hs₁.inodes]
      exact hlive
  · obtain ⟨hs₁, hh₁⟩ := idup_spec h (Tables.refs_cwd hp)
    refine namexLoop_error (t := s.toTables) ?_ hh₁ ?_ he
    · rw [hs₁.inodes]
      exact hlive
    · rw [hs₁.inodes]
      exact Live.held (Tables.refs_cwd hp)

theorem Good.noDangling (hg : Good s) (hp : Parents s.inodes s.toTables) : NoDangling s :=
  ⟨fun _ hy _ _ he hne ↦ hp.entries hg.shape hy he hne, fun _ _ hpr _ _ he ↦
    absurd (namex_error hg.held (fun _ hx ↦ hx.allocated hg hp) hpr he) (by decide)⟩

end

/-! ### Calls -/

section
variable {s s' : State} {pr : Proc} {p : Slot}

theorem refs_closeTables (fds : List (Fin NOFILE)) {t : Tables} (hp : t.procs p = some pr)
    (x : Nat) :
    (closeTables p fds t pr).refs x ≤ t.refs x ∧
      ∃ pr', (closeTables p fds t pr).procs p = some pr' := by
  induction fds generalizing t pr with
  | nil => exact ⟨Nat.le_refl _, pr, hp⟩
  | cons fd fds ih =>
    rw [closeTables]
    split
    · exact ih hp
    · next f _ =>
      have hself : ((t.unref f).setFd p pr fd none).procs p =
          some { pr with ofile := Function.update pr.ofile fd none } := Function.update_self ..
      have h1 := refs_unref t f x
      have hp' : (t.unref f).procs p = some pr := hp
      have h2 := refs_setFd hp' fd none x
      have h3 := ih hself
      exact ⟨by omega, h3.2⟩

/-- The references that a call leaves are to inodes in use. -/
theorem tables_live {c : Call} (hp : s.procs c.slot = some pr) {x : Nat}
    (h : 0 < (c.tables s pr).refs x) : Live s.inodes s.toTables x := by
  cases c with
  | sysChdir q path =>
    cases path with
    | none => exact Live.held h
    | some path =>
      rw [Call.tables] at h
      cases hr : resolve s.inodes pr false path with
      | none =>
        rw [hr] at h
        exact Live.held h
      | some r =>
        obtain ⟨y, n⟩ := r
        rw [hr] at h
        simp only at h
        split at h
        · have h1 : (s.toTables.setCwd q pr y).refs x + _ = _ := refs_setCwd hp y x
          by_cases hx : x = y
          · rw [hx]
            exact resolve_live hp hr
          · rw [if_neg hx, Nat.add_zero] at h1
            exact Live.held (by omega)
        · exact Live.held h
  | sysClose q fd =>
    rw [Call.tables] at h
    cases hfd : argfd pr fd with
    | none =>
      rw [hfd] at h
      exact Live.held h
    | some r =>
      obtain ⟨fd', f⟩ := r
      rw [hfd] at h
      have h1 := refs_unref (s.toTables.setFd q pr fd' none) f x
      have h2 : (s.toTables.setFd q pr fd' none).refs x = s.toTables.refs x :=
        refs_setFd hp fd' none x
      simp only at h
      exact Live.held (by omega)
  | sysExit q =>
    have hp' : s.procs q = some pr := hp
    obtain ⟨hle, -⟩ := refs_closeTables (List.finRange NOFILE) hp' x
    have h1 := refs_update_proc (closeTables q (List.finRange NOFILE) s.toTables pr) q none x
    simp only [Option.map_none, reduceCtorEq, if_false, Nat.add_zero] at h1
    have h2 : 0 < (s.toTables.exit q pr).refs x := h
    rw [Tables.exit] at h2
    exact Live.held (by omega)
  | sysOpen q path omode space => exact Live.held h
  | sysMkdir q path space => exact Live.held h
  | sysMknod q path major space => exact Live.held h
  | sysLink q old new space => exact Live.held h
  | sysUnlink q path => exact Live.held h
  | sysDup q fd => exact Live.held h
  | sysFork q q' => exact Live.held h

/-- A new entry is made in the directory that some path leads to. -/
theorem newEntry_resolve {m : Graph} {c : Call} {d x : Nat} {name : Name}
    (h : c.newEntry m pr = some (d, name, x)) :
    ∃ path, resolve m pr true path = some (d, name) := by
  match c with
  | .sysOpen _ (some path) omode space =>
    rw [Call.newEntry] at h
    split at h
    · exact ⟨path, (creates_eq_some.mp h).1⟩
    · cases h
  | .sysMkdir _ (some path) _ => exact ⟨path, (creates_eq_some.mp h).1⟩
  | .sysMknod _ (some path) _ _ => exact ⟨path, (creates_eq_some.mp h).1⟩
  | .sysLink _ (some _) (some new) _ => exact ⟨new, (links_eq_some.mp h).2.2.1⟩

/-- Attaching an inode makes only that inode live. -/
theorem Live.of_attach {m : Graph} {t t' : Tables} (hs : Shape m) {d x : Nat} {name : Name}
    {ino : Inode} (ha : Attachable m d x name ino) (hd : Live m t d)
    (ht : ∀ z, 0 < t'.refs z → Live m t z) {z : Nat} (h : Live (attach m d x name ino) t' z) :
    Live m t z ∨ z = x := by
  induction h with
  | root => exact Or.inl Live.root
  | held hx => exact Or.inl (ht _ hx)
  | @entry y e _ he hne ih =>
    by_cases hyd : y = d
    · rw [hyd, attach_dir, Inode.addEntry_entries] at he
      rcases mem_put he with he | rfl
      · exact Or.inl (Live.entry hd he hne)
      · exact Or.inr rfl
    · by_cases hyx : y = x
      · rw [hyx] at he
        by_cases hdir : ino.type = .dir
        · rw [attach_self ha.ne, (ha.dirIno hdir).1] at he
          rcases List.mem_pair.mp he with rfl | rfl
          · exact Or.inr rfl
          · exact Or.inl hd
        · rw [(ha.shape hs).empty x (by rw [attach_self ha.ne]; exact hdir)] at he
          cases he
      · rw [attach_of_ne hyd hyx] at he
        exact Or.inl (Live.entry (ih.resolve_right hyx) he hne)

theorem Live.of_detach {m : Graph} {t t' : Tables} {d k x : Nat}
    (ht : ∀ z, 0 < t'.refs z → Live m t z) {z : Nat} (h : Live (detach m d k x) t' z) :
    Live m t z := by
  apply h.mono ht
  intro y e he hne
  by_cases hyd : y = d
  · rw [hyd, detach_dir, Inode.clearEntry_entries] at he
    rw [hyd]
    rcases List.mem_or_eq_of_mem_set he with he | rfl
    · exact he
    · exact (hne rfl).elim
  · rwa [detach_entries hyd] at he

/-- The change of a call keeps the parents of directories in use. -/
theorem Parents.edit {c : Call} (h : Parents s.inodes s.toTables) (hs : Shape s.inodes)
    (hw : NoWrap s.inodes pr c) (hp : s.procs c.slot = some pr) :
    Parents (edit s.inodes pr c) (c.tables s pr) := by
  have ht (z : Nat) (hz : 0 < (c.tables s pr).refs z) := tables_live hp hz
  rcases edit_cases hs hw with he | ⟨d, name, x, ino, hq, ha, -, he⟩ | ⟨d, k, x, hd, he⟩
  · rw [he]
    intro z hz
    exact h z (hz.mono ht (fun _ _ hmem _ ↦ hmem))
  · rw [he]
    obtain ⟨path, hres⟩ := newEntry_resolve hq
    intro z hz hdir
    by_cases hzx : z = x
    · rw [hzx, attach_self ha.ne] at hdir
      have hpar : parent (attach s.inodes d x name ino) x = d := by
        rw [parent, attach_self ha.ne, (ha.dirIno hdir).1]
        rfl
      rw [hzx, hpar, attach_type ha.ne.symm]
      exact ha.dir
    · have hz' := (Live.of_attach hs ha (resolve_live hp hres) ht hz).resolve_right hzx
      rw [attach_type hzx] at hdir
      have hpar := h z hz' hdir
      rw [ha.attach_parent hs hzx, attach_type (fun hx ↦ ha.notDir (by rw [← hx]; exact hpar))]
      exact hpar
  · rw [he]
    intro z hz hdir
    rw [detach_type] at hdir
    rw [hd.detach_parent hs, detach_type]
    exact h z (hz.of_detach ht) hdir

/-- A completed call that meets the condition keeps the invariant and the parents. -/
theorem step_parents {c : Call} (hg : Good s) (hpar : Parents s.inodes s.toTables)
    (hk : KeepsParents s c) (h : step s c = some s') :
    Good s' ∧ Parents s'.inodes s'.toTables := by
  obtain ⟨pr, hp, hdone⟩ := step_completed hg h
  obtain ⟨hw, hkept⟩ := hk pr hp
  have hedit := hpar.edit hg.shape hw hp
  refine ⟨hdone.good hg hw, ?_⟩
  intro z hz hdir
  have heq := hdone.freed.eq_of_ne_free (FileType.ne_free hdir)
  have hz' : Live (edit s.inodes pr c) (c.tables s pr) z := by
    apply hz.mono hdone.new
    intro y e he hne
    rcases hdone.freed y with hy | ⟨-, -, hnil, -⟩
    · rwa [hy] at he
    · rw [hnil] at he
      cases he
  have hpz : parent s'.inodes z = parent (edit s.inodes pr c) z := by rw [parent, heq, parent]
  rw [heq] at hdir
  have hx := hedit z hz' hdir
  rw [hpz]
  rcases hdone.freed (parent (edit s.inodes pr c) z) with hsame | ⟨hlinks, hfree, -, -⟩
  · rw [hsame]
    exact hx
  · -- the parent was freed: it had no links and no references left
    have hzero := hlinks.resolve_left (FileType.ne_free hx)
    have hrefs : (c.tables s pr).refs (parent (edit s.inodes pr c) z) = 0 := by
      apply Nat.eq_zero_of_not_pos
      exact fun hpos ↦ hdone.held.alloc _ (Nat.add_pos_left (hdone.kept _ hpos) _) hfree
    by_cases hself : z = parent (edit s.inodes pr c) z
    · rw [← hself, heq] at hfree
      exact (FileType.ne_free hdir hfree).elim
    · have hs' := edit_shape hg.shape hw
      exact (hkept _ (hs'.lt_ninodes (FileType.ne_free hx)) ⟨hx, hzero, hrefs⟩ z
        (hs'.lt_ninodes (FileType.ne_free hdir)) hself hdir hz' rfl).elim

end

theorem parents_boot (im : Image) : Parents (boot im).inodes (boot im).toTables := by
  intro z _ hdir
  have hroot : z = ROOTINO := by
    apply Classical.byContradiction
    exact fun hne ↦ (image_of_ne im hne).1 hdir
  have hs := shape_image im
  rw [hroot]
  change (im.inodes (parent im.inodes ROOTINO)).type = .dir
  rw [hs.rootParent]
  exact hs.root

/-- In every run from an image whose calls leave no directory without links and references that
is the parent of another one in use, and wrap no link count around, entries never dangle. -/
theorem noDangling_always (im : Image) (cs : List Call)
    (hok : Along step KeepsParents (boot im) cs) : Always step NoDangling (boot im) cs := by
  refine Along.always (J := fun s ↦ Good s ∧ Parents s.inodes s.toTables) ?_ ?_
    ⟨good_boot im, parents_boot im⟩ hok
  · exact fun s hs ↦ hs.1.noDangling hs.2
  · exact fun s c s' hs hk hstep ↦ step_parents hs.1 hs.2 hk hstep

instance (m : Graph) (pr : Proc) (c : Call) : Decidable (NoWrap m pr c) :=
  inferInstanceAs (Decidable (∀ q ∈ c.newEntry m pr, _))

/-- Some other directory has `x` as its parent. -/
def HasChild (m : Graph) (x : Nat) : Prop :=
  ∃ z < NINODES, z ≠ x ∧ (m z).type = .dir ∧ parent m z = x

instance (m : Graph) (x : Nat) : Decidable (HasChild m x) :=
  inferInstanceAs (Decidable (∃ z < NINODES, _))

/-- The condition without regard to which directories are in use. -/
def NoOrphans (s : State) (c : Call) : Prop :=
  ∀ pr ∈ s.procs c.slot, NoWrap s.inodes pr c ∧
    ∀ x < NINODES, Unused (edit s.inodes pr c) (c.tables s pr) x →
      ¬ HasChild (edit s.inodes pr c) x

instance (s : State) (c : Call) : Decidable (NoOrphans s c) :=
  inferInstanceAs (Decidable (∀ pr ∈ s.procs c.slot, _))

theorem NoOrphans.keepsParents {s : State} {c : Call} (h : NoOrphans s c) : KeepsParents s c := by
  intro pr hp
  obtain ⟨hw, hkeep⟩ := h pr hp
  refine ⟨hw, ?_⟩
  intro x hx hunused z hz hne hdir _ hparent
  exact hkeep x hx hunused ⟨z, hz, hne, hdir, hparent⟩

/-- `/a/b` -/
def pathAB : Path := [47, 97, 47, 98]

/-- `mkdir("/a"); mkdir("/a/b"); chdir("/a/b"); unlink("/a/b"); chdir("/"); unlink("/a")` -/
def nestedRun : List Call :=
  [.sysMkdir initSlot (some [47, 97]) (fun _ ↦ true),
    .sysMkdir initSlot (some pathAB) (fun _ ↦ true), .sysChdir initSlot (some pathAB),
    .sysUnlink initSlot (some pathAB), .sysChdir initSlot (some [47]),
    .sysUnlink initSlot (some [47, 97])]

theorem noDangling_always_nestedRun :
    ∃ s, run step (boot emptyImage) nestedRun = some s ∧ NoDangling s := by
  have hno : Along step NoOrphans (boot emptyImage) nestedRun := by decide +kernel
  have hsome : (run step (boot emptyImage) nestedRun).isSome = true := by decide +kernel
  obtain ⟨s, hs⟩ := Option.isSome_iff_exists.mp hsome
  have hok := hno.mono (fun _ _ h ↦ h.keepsParents)
  exact ⟨s, hs, (noDangling_always emptyImage nestedRun hok).last hs⟩

/-- `mkdir("/a"); mkdir("/a/b"); chdir("/a/b"); unlink("/a/b"); unlink("/a")` -/
def danglingRun : List Call :=
  [.sysMkdir initSlot (some [47, 97]) (fun _ ↦ true),
    .sysMkdir initSlot (some pathAB) (fun _ ↦ true), .sysChdir initSlot (some pathAB),
    .sysUnlink initSlot (some pathAB), .sysUnlink initSlot (some [47, 97])]

/-- `../x` -/
def pathUpX : Path := [46, 46, 47, 120]

/-- The current directory's `..` names a free inode, and the path `../x` locks it. -/
theorem danglingRun_ends : ∃ s pr, run step (boot emptyImage) danglingRun = some s ∧
    s.procs initSlot = some pr ∧ namex s pr false pathUpX = .error "ilock: no type" := by
  have hrun : (run step (boot emptyImage) danglingRun).any (fun s ↦
      (s.procs initSlot).any (fun pr ↦
        match namex s pr false pathUpX with
        | .error e => e == "ilock: no type"
        | .ok _ => false)) = true := by
    decide +kernel
  cases hs : run step (boot emptyImage) danglingRun with
  | none =>
    rw [hs] at hrun
    cases hrun
  | some s =>
    rw [hs, Option.any_some] at hrun
    cases hp : s.procs initSlot with
    | none =>
      rw [hp] at hrun
      cases hrun
    | some pr =>
      rw [hp, Option.any_some] at hrun
      refine ⟨s, pr, rfl, hp, ?_⟩
      split at hrun
      · next e he => rw [he, beq_iff_eq.mp hrun]
      · cases hrun

/-- After this run paths lead to a free inode. -/
theorem dangling_parent :
    ∃ s, run step (boot emptyImage) danglingRun = some s ∧ ¬ NoDangling s := by
  obtain ⟨s, pr, hs, hp, hname⟩ := danglingRun_ends
  refine ⟨s, hs, ?_⟩
  intro h
  exact h.namex initSlot pr hp false pathUpX hname

end Xv6.Tree
