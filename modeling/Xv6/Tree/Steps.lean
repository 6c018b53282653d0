import Xv6.Tree.Tables

/-!
# What a completed call does

The graph after a call is the one `edit` names with inodes left without links and references
freed, and the references that remain are those of `Call.tables` and new ones to inodes that
the caller could reach. The invariant of the tables is kept.
-/

namespace Xv6.Tree

open Xv6.Lib

/-- The inodes that a path can lead to from the root or from a reference. -/
inductive Live (m : Graph) (t : Tables) : Nat → Prop
  | root : Live m t ROOTINO
  | held {x : Nat} : 0 < t.refs x → Live m t x
  | entry {y : Nat} {e : Dirent} : Live m t y → e ∈ (m y).entries → e.inum ≠ 0 → Live m t e.inum

/-- The invariant between system calls. -/
structure Good (s : State) : Prop where
  shape : Shape s.inodes
  held : Held s [] []
  files : FilesOk s.toTables

/-- The change that a call makes in the graph. -/
def edit (m : Graph) (pr : Proc) : Call → Graph
  | .sysOpen _ (some path) omode space =>
    if omode &&& O_CREATE ≠ 0 then createEdit m pr space path .file 0 else m
  | .sysMkdir _ (some path) space => createEdit m pr space path .dir 0
  | .sysMknod _ (some path) major space => createEdit m pr space path .device (toShort major)
  | .sysLink _ (some old) (some new) space => linkEdit m pr space old new
  | .sysUnlink _ (some path) => unlinkEdit m pr path
  | _ => m

/-- The tables after a call that gives references up. -/
def Call.tables (s : State) (pr : Proc) : Call → Tables
  | .sysChdir p (some path) =>
    match resolve s.inodes pr false path with
    | some (x, _) => if (s.inodes x).type = .dir then s.toTables.setCwd p pr x else s.toTables
    | none => s.toTables
  | .sysClose p fd =>
    match argfd pr fd with
    | some (fd, f) => (s.toTables.setFd p pr fd none).unref f
    | none => s.toTables
  | .sysExit p => s.toTables.exit p pr
  | _ => s.toTables

/-- What holds after a completed call. -/
structure Completed (s s' : State) (pr : Proc) (c : Call) : Prop where
  freed : Freed (edit s.inodes pr c) s'.inodes
  held : Held s' [] []
  files : FilesOk s'.toTables
  kept : ∀ x, 0 < (c.tables s pr).refs x → 0 < s'.refs x
  new : ∀ x, 0 < s'.refs x → Live (edit s.inodes pr c) (c.tables s pr) x

section
variable {s s' : State} {p : Slot} {pr : Proc}

/-- A call after which the tables are those of `Call.tables`. -/
theorem Completed.of_tables {c : Call} (hf : Freed (edit s.inodes pr c) s'.inodes)
    (hh : Held s' [] []) (ht : s'.toTables = c.tables s pr) (hok : FilesOk s'.toTables) :
    Completed s s' pr c := by
  refine ⟨hf, hh, hok, ?_, ?_⟩
  · intro x hx
    rw [ht]
    exact hx
  · intro x hx
    rw [ht] at hx
    exact Live.held hx

/-! ### Live inodes -/

theorem walk_live {m : Graph} {t : Tables} {parent : Bool} {fuel ip : Nat} {path : Path} {x : Nat}
    {n : Name} (h : walk m parent fuel ip path = some (x, n)) (hip : Live m t ip) : Live m t x := by
  have hend {o : Option (Nat × Name)} (ho : (if parent then none else some (ip, [])) = o)
      (hx : o = some (x, n)) : Live m t x := by
    rw [hx] at ho
    split at ho
    · cases ho
    · cases ho
      exact hip
  induction fuel generalizing ip path with
  | zero => exact hend rfl h
  | succ fuel ih =>
    rw [walk] at h
    cases hsk : skipelem path with
    | none =>
      rw [hsk] at h
      exact hend rfl h
    | some q =>
      rw [hsk] at h
      simp only at h
      split at h
      · cases h
      · split at h
        · cases h
          exact hip
        · cases hsc : scan q.1 0 (m ip).entries with
          | none =>
            rw [hsc] at h
            cases h
          | some q' =>
            rw [hsc] at h
            obtain ⟨he, hne⟩ := scan_entry hsc
            have hnext : Live m t q'.2 := Live.entry hip (List.mem_of_getElem? he) hne
            apply ih h hnext
            intro o ho hx
            rw [hx] at ho
            split at ho
            · cases ho
            · cases ho
              exact hnext

theorem start_live (hp : s.procs p = some pr) (m : Graph) (path : Path) :
    Live m s.toTables (start pr path) := by
  unfold start
  split
  · exact Live.root
  · exact Live.held (Tables.refs_cwd hp)

/-- What a path resolves to is live. -/
theorem resolve_live (hp : s.procs p = some pr) {m : Graph} {parent : Bool} {path : Path} {x : Nat}
    {n : Name} (h : resolve m pr parent path = some (x, n)) : Live m s.toTables x :=
  walk_live h (start_live hp m path)

theorem Live.mono {m m' : Graph} {t t' : Tables} (ht : ∀ x, 0 < t.refs x → Live m' t' x)
    (he : ∀ y, ∀ e ∈ (m y).entries, e.inum ≠ 0 → e ∈ (m' y).entries) {x : Nat} (h : Live m t x) :
    Live m' t' x := by
  induction h with
  | root => exact Live.root
  | held hx => exact ht _ hx
  | entry _ hmem hne ih => exact Live.entry ih (he _ _ hmem hne) hne

theorem mem_put_self (e : Dirent) (es : List Dirent) : e ∈ put e es := by
  induction es with
  | nil => exact List.mem_singleton_self e
  | cons d es ih =>
    rw [put]
    split
    · exact List.mem_cons_self
    · exact List.mem_cons_of_mem _ ih

theorem mem_put_of_mem {e e' : Dirent} {es : List Dirent} (h : e' ∈ es) (hne : e'.inum ≠ 0) :
    e' ∈ put e es := by
  induction es with
  | nil => cases h
  | cons d es ih =>
    rw [put]
    split
    · next hd =>
      rcases List.mem_cons.mp h with rfl | h
      · exact (hne hd).elim
      · exact List.mem_cons_of_mem _ h
    · rcases List.mem_cons.mp h with rfl | h
      · exact List.mem_cons_self
      · exact List.mem_cons_of_mem _ (ih h)

/-- An attached inode is live if the directory was. -/
theorem attach_live {m : Graph} {t : Tables} {d x : Nat} {name : Name} {ino : Inode} (hs : Shape m)
    (ha : Attachable m d x name ino) (hd : Live m t d) : Live (attach m d x name ino) t x := by
  have hd' : Live (attach m d x name ino) t d := by
    refine hd.mono (fun y hy ↦ Live.held hy) ?_
    intro y e he hne
    by_cases hyd : y = d
    · rw [hyd] at he ⊢
      rw [attach_dir, Inode.addEntry_entries]
      exact mem_put_of_mem he hne
    · by_cases hyx : y = x
      · rw [hyx, hs.empty x ha.notDir] at he
        cases he
      · rw [attach_of_ne hyd hyx]
        exact he
  have hmem : (⟨x, name⟩ : Dirent) ∈ (attach m d x name ino d).entries := by
    rw [attach_dir, Inode.addEntry_entries]
    exact mem_put_self _ _
  exact Live.entry hd' hmem ha.ne_zero

/-- What `create` makes can be attached. -/
theorem attachable_new {m : Graph} (hs : Shape m) {space : Nat → Bool} {path : Path}
    {type : FileType} {d x : Nat} {name : Name}
    (h : creates m pr space path type = some (d, name, x)) (ht : type ≠ .free) (major : Int) :
    Attachable m d x name (newInode d x type major) := by
  obtain ⟨hres, hfree, hscan, -⟩ := creates_eq_some.mp h
  obtain ⟨hx, hx0, hlt⟩ := freeInode_some hfree
  have hdir : (m d).type = .dir := walk_parent_dir hres
  refine ⟨hdir, hx0, hlt, FileType.ne_dir hx, ?_, ht, Or.inl hx, ?_, ?_, ?_⟩
  · exact scan_none_ne (hs.dots d hdir) (hs.ne_zero (FileType.ne_free hdir)) hscan
  · intro hd
    exact ⟨if_pos hd, rfl⟩
  · intro hd
    refine ⟨if_neg hd, ?_⟩
    rw [linksTo_eq_zero (hs.names_of_free hx0 hx)]
    exact Nat.le_refl 1
  · change 1 < 2 ^ 16
    decide

/-- What `sys_link` links can be attached, unless its link count wraps around. -/
theorem attachable_link {m : Graph} (hs : Shape m) {space : Nat → Bool} {old new : Path} {d x : Nat}
    {name : Name} (h : links m pr space old new = some (d, name, x))
    (hmax : (m x).nlink ≠ 2 ^ 16 - 1) : Attachable m d x name (m x).incLink := by
  obtain ⟨-, htype, hres, hscan, -⟩ := links_eq_some.mp h
  have hdirx : (m x).type ≠ .dir := fun hd ↦ htype (Or.inl hd)
  have ht : (m x).type ≠ .free := fun hf ↦ htype (Or.inr hf)
  have hdir : (m d).type = .dir := walk_parent_dir hres
  have hw := hs.width x
  have hinc : (m x).incLink.nlink = (m x).nlink + 1 := Nat.mod_eq_of_lt (by omega)
  refine ⟨hdir, hs.ne_zero ht, hs.lt_ninodes ht, hdirx, ?_, ht, Or.inr rfl, ?_, ?_, ?_⟩
  · exact scan_none_ne (hs.dots d hdir) (hs.ne_zero (FileType.ne_free hdir)) hscan
  · exact fun hd ↦ (hdirx hd).elim
  · intro hd
    refine ⟨hs.empty x hdirx, ?_⟩
    rw [hinc]
    exact Nat.succ_le_succ (hs.fileLinks x ht hdirx)
  · rw [hinc]
    omega

/-! ### The calls -/

/-- The inode that `sys_open` opens. -/
theorem openInode_spec (hg : Good s) (hp : s.procs p = some pr) {space : Nat → Bool} {path : Path}
    {omode : UInt32} {r : Option Nat} (hl : openInode s pr space path omode = .ok (r, s')) :
    s'.toTables = s.toTables ∧ Held s' r.toList [] ∧
      Freed (edit s.inodes pr (.sysOpen p (some path) omode space)) s'.inodes ∧
      ∀ x, r = some x → Live (edit s.inodes pr (.sysOpen p (some path) omode space)) s.toTables
      x := by
  unfold openInode at hl
  rw [edit]
  split at hl
  · next hmode =>
    rw [if_pos hmode]
    obtain ⟨ht, hh, hf, hr⟩ := create_spec hp hl hg.held (fun h ↦ nomatch h)
    refine ⟨ht, hh, hf, ?_⟩
    intro x hx
    rcases hr x hx with ⟨d, name, hc⟩ | ⟨d, name, k, hres, hscan⟩
    · rw [createEdit_some hc]
      apply attach_live hg.shape (attachable_new hg.shape hc (fun h ↦ nomatch h) 0)
      exact resolve_live hp (creates_eq_some.mp hc).1
    · rw [createEdit_none]
      · obtain ⟨he, hne⟩ := scan_entry hscan
        exact Live.entry (resolve_live hp hres) (List.mem_of_getElem? he) hne
      · intro d' name' x' hc
        obtain ⟨hres', -, hscan', -⟩ := creates_eq_some.mp hc
        rw [hres] at hres'
        cases hres'
        rw [hscan] at hscan'
        cases hscan'
  · next hmode =>
    rw [if_neg hmode]
    obtain ⟨⟨r₁, s₁⟩, hname, hl⟩ := bind_ok hl
    obtain ⟨hr₁, hs₁, hh₁⟩ := namex_spec hp hname hg.held
    cases r₁ with
    | none =>
      cases hl
      rw [hs₁.inodes]
      exact ⟨hs₁.tables, hh₁, Freed.refl _, fun x hx ↦ nomatch hx⟩
    | some q =>
      obtain ⟨ip, n⟩ := q
      obtain ⟨s₂, hlock, hl⟩ := bind_ok hl
      obtain ⟨hs₂, hh₂, hv₂, -⟩ := ilock_spec hlock hh₁
      have hs := hs₁.trans hs₂
      split at hl
      · cases hl
        obtain ⟨hs₃, hh₃⟩ := iput_own hh₂
        have hs' := hs.trans hs₃
        rw [hs'.inodes]
        exact ⟨hs'.tables, hh₃, Freed.refl _, fun x hx ↦ nomatch hx⟩
      · cases hl
        rw [hs.inodes]
        refine ⟨hs.tables, hh₂.keep hv₂, Freed.refl _, ?_⟩
        intro x hx
        cases hx
        exact resolve_live hp hr₁.symm

theorem freeFile_some {t : Tables} {f : Fin NFILE} (h : freeFile t = some f) :
    (t.files f).ref = 0 := by
  simpa using List.find?_some h

theorem freeFd_some {fd : Fin NOFILE} (h : freeFd pr = some fd) : pr.ofile fd = none := by
  simpa using List.find?_some h

theorem opened_ip (x : Nat) (i : Inode) (omode : UInt32) :
    (opened x i omode).target.ip = some x := by
  simp only [opened]
  split <;> rfl

/-- The tables with a new file `ff` and a descriptor of it. -/
def Tables.addFile (t : Tables) (p : Slot) (pr : Proc) (fd : Fin NOFILE) (f : Fin NFILE)
    (ff : File) :
    Tables :=
  { t.setFd p pr fd (some f) with files := Function.update t.files f ff }

theorem refs_addFile {t : Tables} (hok : FilesOk t) (hp : t.procs p = some pr) (fd : Fin NOFILE)
    {f : Fin NFILE} (href : (t.files f).ref = 0) {ff : File} {x : Nat} (hx : ff.target.ip = some x)
    (y : Nat) : (t.addFile p pr fd f ff).refs y = t.refs y + if y = x then 1 else 0 := by
  have h1 := refs_update_file (t.setFd p pr fd (some f)) f ff y
  have h2 : ((t.setFd p pr fd (some f)).files f).target.ip = none := by
    change (t.files f).target.ip = none
    rw [hok.closed f href]
    rfl
  rw [refs_setFd hp, hx, h2] at h1
  simp only [reduceCtorEq, if_false, Nat.add_zero, Option.some.injEq, eq_comm (a := x)] at h1
  exact h1

theorem FilesOk.addFile {t : Tables} (hok : FilesOk t) (hp : t.procs p = some pr)
    {fd : Fin NOFILE} (hfd : pr.ofile fd = none) {f : Fin NFILE} (href : (t.files f).ref = 0)
    {ff : File} (hone : ff.ref = 1) : FilesOk (t.addFile p pr fd f ff) := by
  have hcount (g : Fin NFILE) : (t.addFile p pr fd f ff).fds g =
      t.fds g + if f = g then 1 else 0 := by
    have := fds_setFd hp fd (some f) g
    rw [hfd] at this
    simp only [reduceCtorEq, if_false, Nat.add_zero, Option.some.injEq] at this
    exact this
  have hself : (t.addFile p pr fd f ff).files f = ff := Function.update_self ..
  have hother (g : Fin NFILE) (hg : g ≠ f) : (t.addFile p pr fd f ff).files g = t.files g :=
    Function.update_of_ne hg ..
  refine ⟨?_, ?_⟩
  · intro g
    have hg := hok.ref g
    rw [hcount]
    by_cases hgf : g = f
    · rw [hgf] at hg ⊢
      simp only [hself, if_true]
      omega
    · rw [hother g hgf, if_neg (Ne.symm hgf), Nat.add_zero]
      exact hg
  · intro g hzero
    by_cases hgf : g = f
    · rw [hgf, hself] at hzero
      omega
    · rw [hother g hgf] at hzero ⊢
      exact hok.closed g hzero

/-- A file that was allocated and is closed before it is used. -/
theorem fileclose_new {f : Fin NFILE} (hok : FilesOk s.toTables) (href : (s.files f).ref = 0)
    (hl : fileclose { s with files := Function.update s.files f { s.files f with ref := 1 } } f =
      .ok s') : s' = s := by
  have hclosed := hok.closed f href
  have hfile : File.mk 0 .none (s.files f).readable (s.files f).writable = s.files f := by
    cases hff : s.files f with
    | mk ref target readable writable =>
      rw [hff] at href hclosed
      simp only at href hclosed
      rw [href, hclosed]
  unfold fileclose at hl
  simp only [Function.update_self, Tables.lastIp, Tables.unref] at hl
  rw [if_neg (by decide)] at hl
  simp only [Nat.sub_self, gt_iff_lt, Nat.lt_irrefl, if_false, hclosed, Target.ip,
    Function.update_idem] at hl
  cases hl
  rw [hfile, Function.update_eq_self]

/-- The file that `sys_open` makes for an inode in hand. -/
theorem openFile_spec (hok : FilesOk s.toTables) (hp : s.procs p = some pr) {x : Nat}
    {omode : UInt32} {r : Int} (hl : openFile s p pr x omode = .ok (r, s')) (h : Held s [x] []) :
    Freed s.inodes s'.inodes ∧ Held s' [] [] ∧ FilesOk s'.toTables ∧
      (∀ y, 0 < s.refs y → 0 < s'.refs y) ∧ ∀ y, 0 < s'.refs y → 0 < s.refs y ∨ y = x := by
  have hput : Freed s.inodes (iput s x).inodes ∧ Held (iput s x) [] [] ∧
      FilesOk (iput s x).toTables ∧ (∀ y, 0 < s.refs y → 0 < (iput s x).refs y) ∧
      ∀ y, 0 < (iput s x).refs y → 0 < s.refs y ∨ y = x := by
    obtain ⟨ht, hf, hh⟩ := iput_kept h
    rw [ht]
    exact ⟨hf, hh, hok, fun _ hy ↦ hy, fun _ hy ↦ Or.inl hy⟩
  unfold openFile at hl
  split at hl
  · cases hl
    exact hput
  · next f hf =>
    have href := freeFile_some hf
    split at hl
    · obtain ⟨s₁, hclose, hl⟩ := bind_ok hl
      cases fileclose_new hok href hclose
      cases hl
      exact hput
    · next fd hfd =>
      have hs' : { s with toTables :=
          s.toTables.addFile p pr fd f (opened x (s.inodes x) omode) } = s' :=
        (Prod.mk.inj (Except.ok.inj hl)).2
      rw [← hs']
      have hrefs := refs_addFile hok hp fd href (opened_ip x (s.inodes x) omode)
      refine ⟨Freed.refl _, ?_, hok.addFile hp (freeFd_some hfd) href rfl, ?_, ?_⟩
      · apply h.retable
        · intro y
          rw [hrefs, List.count_singleton, List.count_nil]
          simp only [beq_iff_eq, eq_comm (a := x), Nat.add_zero]
        · intro y hy
          cases hy
      · intro y hy
        rw [hrefs]
        omega
      · intro y hy
        rw [hrefs] at hy
        by_cases hyx : y = x
        · exact Or.inr hyx
        · rw [if_neg hyx, Nat.add_zero] at hy
          exact Or.inl hy

theorem sysOpen_completed (hg : Good s) (hp : s.procs p = some pr) {space : Nat → Bool}
    {path : Option Path} {omode : UInt32} {r : Int}
    (hl : sysOpen s p pr space path omode = .ok (r, s')) :
    Completed s s' pr (.sysOpen p path omode space) := by
  cases path with
  | none =>
    cases hl
    exact Completed.of_tables (Freed.refl _) hg.held rfl hg.files
  | some path =>
    obtain ⟨⟨r₁, s₁⟩, hopen, hl⟩ := bind_ok hl
    obtain ⟨ht₁, hh₁, hf₁, hlive⟩ := openInode_spec hg hp hopen
    have hok₁ : FilesOk s₁.toTables := by
      rw [ht₁]
      exact hg.files
    cases r₁ with
    | none =>
      cases hl
      exact Completed.of_tables hf₁ hh₁ ht₁ hok₁
    | some x =>
      simp only at hl
      split at hl
      · cases hl
        obtain ⟨ht₂, hf₂, hh₂⟩ := iput_kept hh₁
        apply Completed.of_tables (hf₁.trans hf₂) hh₂ (ht₂.trans ht₁)
        rw [ht₂]
        exact hok₁
      · have hp₁ : s₁.procs p = some pr := by
          rw [ht₁]
          exact hp
        obtain ⟨hf₂, hh₂, hok₂, hkept, hnew⟩ := openFile_spec hok₁ hp₁ hl hh₁
        refine ⟨hf₁.trans hf₂, hh₂, hok₂, ?_, ?_⟩
        · intro y hy
          apply hkept y
          rw [ht₁]
          exact hy
        · intro y hy
          rcases hnew y hy with hy | rfl
          · rw [ht₁] at hy
            exact Live.held hy
          · exact hlive y rfl

/-- The calls that create an inode and put it. -/
theorem createAndPut_spec (hg : Good s) (hp : s.procs p = some pr) {space : Nat → Bool}
    {path : Path} {type : FileType} {major : Int} {r : Int}
    (hl : createAndPut s pr space (some path) type major = .ok (r, s')) (ht : type ≠ .free) :
    Freed (createEdit s.inodes pr space path type major) s'.inodes ∧ Held s' [] [] ∧
      s'.toTables = s.toTables := by
  obtain ⟨⟨r₁, s₁⟩, hcreate, hl⟩ := bind_ok hl
  obtain ⟨ht₁, hh₁, hf₁, -⟩ := create_spec hp hcreate hg.held ht
  cases r₁ with
  | none =>
    cases hl
    exact ⟨hf₁, hh₁, ht₁⟩
  | some x =>
    cases hl
    obtain ⟨ht₂, hf₂, hh₂⟩ := iput_kept hh₁
    exact ⟨hf₁.trans hf₂, hh₂, ht₂.trans ht₁⟩

theorem sysMkdir_completed (hg : Good s) (hp : s.procs p = some pr) {space : Nat → Bool}
    {path : Option Path} {r : Int} (hl : sysMkdir s pr space path = .ok (r, s')) :
    Completed s s' pr (.sysMkdir p path space) := by
  cases path with
  | none =>
    cases hl
    exact Completed.of_tables (Freed.refl _) hg.held rfl hg.files
  | some path =>
    obtain ⟨hf, hh, ht⟩ := createAndPut_spec hg hp hl (fun h ↦ nomatch h)
    exact Completed.of_tables hf hh ht (ht ▸ hg.files)

theorem sysMknod_completed (hg : Good s) (hp : s.procs p = some pr) {space : Nat → Bool}
    {path : Option Path} {major : Int} {r : Int}
    (hl : sysMknod s pr space path major = .ok (r, s')) :
    Completed s s' pr (.sysMknod p path major space) := by
  cases path with
  | none =>
    cases hl
    exact Completed.of_tables (Freed.refl _) hg.held rfl hg.files
  | some path =>
    obtain ⟨hf, hh, ht⟩ := createAndPut_spec hg hp hl (fun h ↦ nomatch h)
    exact Completed.of_tables hf hh ht (ht ▸ hg.files)

theorem sysLink_completed (hg : Good s) (hp : s.procs p = some pr) {space : Nat → Bool}
    {old new : Option Path} {r : Int} (hl : sysLink s pr space old new = .ok (r, s')) :
    Completed s s' pr (.sysLink p old new space) := by
  have hfail (h : s' = s) (he : edit s.inodes pr (.sysLink p old new space) = s.inodes) :
      Completed s s' pr (.sysLink p old new space) := by
    rw [h]
    exact Completed.of_tables (by rw [he]; exact Freed.refl _) hg.held rfl hg.files
  match old, new with
  | some old, some new =>
    obtain ⟨ht, hf, hh⟩ := sysLink_spec hp hl hg.held hg.shape.width
    exact Completed.of_tables hf hh ht (ht ▸ hg.files)
  | none, _ =>
    cases hl
    exact hfail rfl rfl
  | some old, none =>
    cases hl
    exact hfail rfl rfl

theorem sysUnlink_completed (hg : Good s) (hp : s.procs p = some pr) {path : Option Path} {r : Int}
    (hl : sysUnlink s pr path = .ok (r, s')) : Completed s s' pr (.sysUnlink p path) := by
  cases path with
  | none =>
    cases hl
    exact Completed.of_tables (Freed.refl _) hg.held rfl hg.files
  | some path =>
    obtain ⟨ht, hf, hh⟩ := sysUnlink_spec hp hl hg.held hg.shape
    exact Completed.of_tables hf hh ht (ht ▸ hg.files)

theorem fds_setCwd {t : Tables} (hp : t.procs p = some pr) (x : Nat) (f : Fin NFILE) :
    (t.setCwd p pr x).fds f = t.fds f := by
  have := fds_update_proc t p (some { pr with cwd := x }) f
  rw [hp] at this
  exact Nat.add_right_cancel this

theorem sysChdir_completed (hg : Good s) (hp : s.procs p = some pr) {path : Option Path} {r : Int}
    (hl : sysChdir s p pr path = .ok (r, s')) : Completed s s' pr (.sysChdir p path) := by
  cases path with
  | none =>
    cases hl
    exact Completed.of_tables (Freed.refl _) hg.held rfl hg.files
  | some path =>
    obtain ⟨⟨r₁, s₁⟩, hname, hl⟩ := bind_ok hl
    obtain ⟨hr₁, hs₁, hh₁⟩ := namex_spec hp hname hg.held
    cases r₁ with
    | none =>
      cases hl
      have ht : s'.toTables = Call.tables s pr (.sysChdir p (some path)) := by
        rw [Call.tables, ← hr₁]
        exact hs₁.tables
      apply Completed.of_tables ?_ hh₁ ht (hs₁.tables ▸ hg.files)
      rw [hs₁.inodes]
      exact Freed.refl _
    | some q =>
      obtain ⟨x, n⟩ := q
      obtain ⟨s₂, hlock, hl⟩ := bind_ok hl
      obtain ⟨hs₂, hh₂, hv₂, -⟩ := ilock_spec hlock hh₁
      have hs := hs₁.trans hs₂
      rw [hs.inodes] at hl
      split at hl
      · next hdir =>
        cases hl
        obtain ⟨hs₃, hh₃⟩ := iput_own hh₂
        have hs' := hs.trans hs₃
        have ht : (iput s₂ x).toTables = Call.tables s pr (.sysChdir p (some path)) := by
          rw [Call.tables, ← hr₁]
          simp only [hdir, if_false]
          exact hs'.tables
        apply Completed.of_tables ?_ hh₃ ht (hs'.tables ▸ hg.files)
        rw [hs'.inodes]
        exact Freed.refl _
      · next hdir =>
        have hdir' : (s.inodes x).type = .dir := Decidable.not_not.mp hdir
        have htab : (iput s₂ pr.cwd).toTables = s.toTables := by
          have : (iput s₂ pr.cwd).toTables = s₂.toTables := by
            unfold iput
            split <;> rfl
          rw [this, hs.tables]
        cases hl
        rw [htab, iput_tables]
        have hmoved (y : Nat) : (s.toTables.setCwd p pr x).refs y + ([] : List Nat).count y +
            (if y = pr.cwd then 1 else 0) = s₂.refs y + [x].count y := by
          have := refs_setCwd hp x y
          rw [hs.tables, List.count_singleton, List.count_nil, Nat.add_zero]
          simp only [beq_iff_eq, eq_comm (a := x)]
          exact this
        obtain ⟨ht₃, hf₃, hh₃⟩ := (hh₂.keep hv₂).release hmoved (fun y hy ↦ nomatch hy)
        have ht : (iput { s₂ with toTables := s.toTables.setCwd p pr x } pr.cwd).toTables =
            Call.tables s pr (.sysChdir p (some path)) := by
          rw [Call.tables, ← hr₁]
          simp only [hdir', if_true]
          exact ht₃
        apply Completed.of_tables ?_ hh₃ ht
        · rw [ht₃]
          refine ⟨?_, hg.files.closed⟩
          intro f
          rw [fds_setCwd hp]
          exact hg.files.ref f
        · have hedit : edit s.inodes pr (.sysChdir p (some path)) = s₂.inodes := hs.inodes.symm
          rw [hedit]
          exact hf₃

theorem argfd_some {fd : Int} {q : Fin NOFILE} {f : Fin NFILE} (h : argfd pr fd = some (q, f)) :
    pr.ofile q = some f := by
  unfold argfd at h
  split at h
  · simp only [Option.map_eq_some_iff] at h
    obtain ⟨g, hg, hq⟩ := h
    cases hq
    exact hg
  · cases h

theorem sysClose_completed (hg : Good s) (hp : s.procs p = some pr) {fd : Int} {r : Int}
    (hl : sysClose s p pr fd = .ok (r, s')) : Completed s s' pr (.sysClose p fd) := by
  unfold sysClose at hl
  cases hfd : argfd pr fd with
  | none =>
    rw [hfd] at hl
    cases hl
    apply Completed.of_tables (Freed.refl _) hg.held ?_ hg.files
    rw [Call.tables, hfd]
  | some q =>
    obtain ⟨fd', f⟩ := q
    rw [hfd] at hl
    obtain ⟨s₁, hclose, hl⟩ := bind_ok hl
    cases hl
    obtain ⟨ht, hf, hh⟩ := fileclose_spec hg.held hp hclose
    have ht' : s'.toTables = Call.tables s pr (.sysClose p fd) := by
      rw [Call.tables, hfd]
      exact ht
    refine Completed.of_tables (c := .sysClose p fd) hf hh ht' ?_
    rw [ht]
    exact hg.files.close hp (argfd_some hfd)

/-! ### Descriptors -/

theorem filedup_spec {f : Fin NFILE} (hl : filedup s f = .ok s') :
    0 < (s.files f).ref ∧ s' = { s with
      files := Function.update s.files f { s.files f with ref := (s.files f).ref + 1 } } := by
  unfold filedup at hl
  split at hl
  · cases hl
  · cases hl
    exact ⟨by omega, rfl⟩

theorem refs_of_targets {t t' : Tables} (hf : ∀ f, (t'.files f).target = (t.files f).target)
    (hp : t'.procs = t.procs) (x : Nat) : t'.refs x = t.refs x := by
  have : (fun f ↦ (t'.files f).target.ip) = fun f ↦ (t.files f).target.ip := by
    funext f
    rw [hf]
  rw [Tables.refs, Tables.refs, this, hp]

/-- The tables with one more descriptor of file `f`. -/
def Tables.dupFd (t : Tables) (p : Slot) (pr : Proc) (fd : Fin NOFILE) (f : Fin NFILE) : Tables :=
  { t.setFd p pr fd (some f) with
    files := Function.update t.files f { t.files f with ref := (t.files f).ref + 1 } }

theorem dupFd_self (t : Tables) (fd : Fin NOFILE) (f : Fin NFILE) :
    (t.dupFd p pr fd f).files f = { t.files f with ref := (t.files f).ref + 1 } :=
  Function.update_self ..

theorem dupFd_of_ne (t : Tables) (fd : Fin NOFILE) {f g : Fin NFILE} (h : g ≠ f) :
    (t.dupFd p pr fd f).files g = t.files g := Function.update_of_ne h ..

theorem refs_dupFd {t : Tables} (hp : t.procs p = some pr) (fd : Fin NOFILE) (f : Fin NFILE)
    (x : Nat) : (t.dupFd p pr fd f).refs x = t.refs x := by
  rw [← refs_setFd hp fd (some f)]
  apply refs_of_targets
  · intro g
    change _ = (t.files g).target
    by_cases hgf : g = f
    · rw [hgf, dupFd_self]
    · rw [dupFd_of_ne _ _ hgf]
  · rfl

theorem FilesOk.dupFd {t : Tables} (h : FilesOk t) (hp : t.procs p = some pr) {fd : Fin NOFILE}
    (hfd : pr.ofile fd = none) (f : Fin NFILE) : FilesOk (t.dupFd p pr fd f) := by
  have hcount (g : Fin NFILE) : (t.dupFd p pr fd f).fds g = t.fds g + if f = g then 1 else 0 := by
    have := fds_setFd hp fd (some f) g
    rw [hfd] at this
    simp only [reduceCtorEq, if_false, Nat.add_zero, Option.some.injEq] at this
    exact this
  refine ⟨?_, ?_⟩
  · intro g
    have hg := h.ref g
    rw [hcount]
    by_cases hgf : g = f
    · rw [hgf] at hg ⊢
      simp only [dupFd_self, if_true]
      omega
    · rw [dupFd_of_ne _ _ hgf, if_neg (Ne.symm hgf), Nat.add_zero]
      exact hg
  · intro g hzero
    by_cases hgf : g = f
    · rw [hgf, dupFd_self] at hzero
      exact (Nat.succ_ne_zero _ hzero).elim
    · rw [dupFd_of_ne _ _ hgf] at hzero ⊢
      exact h.closed g hzero

theorem sysDup_completed (hg : Good s) (hp : s.procs p = some pr) {fd : Int} {r : Int}
    (hl : sysDup s p pr fd = .ok (r, s')) : Completed s s' pr (.sysDup p fd) := by
  unfold sysDup at hl
  split at hl
  · cases hl
    exact Completed.of_tables (Freed.refl _) hg.held rfl hg.files
  · next f _ =>
    split at hl
    · cases hl
      exact Completed.of_tables (Freed.refl _) hg.held rfl hg.files
    · next new hnew =>
      obtain ⟨s₁, hdup, hl⟩ := bind_ok hl
      have hs' : { s with toTables := s.toTables.dupFd p pr new f } = s' := by
        rw [← (Prod.mk.inj (Except.ok.inj hl)).2, (filedup_spec hdup).2]
        rfl
      rw [← hs']
      have hrefs := refs_dupFd hp new f
      refine ⟨Freed.refl _, ?_, hg.files.dupFd hp (freeFd_some hnew) f, ?_, ?_⟩
      · apply hg.held.retable
        · intro x
          rw [hrefs]
        · intro x hx
          cases hx
      · intro x hx
        rw [hrefs]
        exact hx
      · intro x hx
        rw [hrefs] at hx
        exact Live.held hx

/-- The loop of `fork` adds a reference for each descriptor and changes nothing else. -/
theorem dupFiles_spec {fds : List (Fin NOFILE)} (hl : dupFiles s pr fds = .ok s') :
    s'.inodes = s.inodes ∧ s'.ref = s.ref ∧ s'.valid = s.valid ∧ s'.procs = s.procs ∧
      ∀ f, (s'.files f).target = (s.files f).target ∧ (s'.files f).ref =
        (s.files f).ref + fds.countP (fun fd ↦ decide (pr.ofile fd = some f)) := by
  induction fds generalizing s with
  | nil =>
    cases hl
    exact ⟨rfl, rfl, rfl, rfl, fun f ↦ ⟨rfl, rfl⟩⟩
  | cons fd fds ih =>
    rw [dupFiles] at hl
    cases hfd : pr.ofile fd with
    | none =>
      rw [hfd] at hl
      obtain ⟨h1, h2, h3, h4, h5⟩ := ih hl
      refine ⟨h1, h2, h3, h4, ?_⟩
      intro f
      rw [List.countP_cons_of_neg (by simp [hfd])]
      exact h5 f
    | some g =>
      rw [hfd] at hl
      obtain ⟨s₁, hdup, hl⟩ := bind_ok hl
      obtain ⟨hpos, rfl⟩ := filedup_spec hdup
      obtain ⟨h1, h2, h3, h4, h5⟩ := ih hl
      refine ⟨h1, h2, h3, h4, ?_⟩
      intro f
      obtain ⟨h6, h7⟩ := h5 f
      by_cases hfg : f = g
      · subst hfg
        simp only [Function.update_self] at h6 h7
        rw [List.countP_cons_of_pos (by simp [hfd])]
        exact ⟨h6, by omega⟩
      · simp only [Function.update_of_ne hfg] at h6 h7
        rw [List.countP_cons_of_neg (by simpa [hfd] using Ne.symm hfg)]
        exact ⟨h6, h7⟩

/-- The tables with the process `pr` in the free slot `q`. -/
def Tables.addProc (t : Tables) (q : Slot) (pr : Proc) : Tables :=
  { t with procs := Function.update t.procs q (some pr) }

theorem refs_addProc {t : Tables} {q : Slot} (hq : t.procs q = none) (pr : Proc) (x : Nat) :
    (t.addProc q pr).refs x = t.refs x + if x = pr.cwd then 1 else 0 := by
  have h := refs_update_proc t q (some pr) x
  rw [hq] at h
  simp only [Option.map_none, Option.map_some, reduceCtorEq, if_false, Nat.add_zero,
    Option.some.injEq, eq_comm (a := pr.cwd)] at h
  exact h

theorem fds_addProc {t : Tables} {q : Slot} (hq : t.procs q = none) (pr : Proc) (f : Fin NFILE) :
    (t.addProc q pr).fds f = t.fds f + hits pr.ofile (some f) := by
  have h := fds_update_proc t q (some pr) f
  rw [hq] at h
  simp only [Option.elim_none, Option.elim_some, Nat.add_zero] at h
  exact h

/-- A reference of the call becomes one of the tables. -/
theorem Held.adopt {kept own : List Nat} {y : Nat} (h : Held s kept (y :: own)) {t : Tables}
    (hsum : ∀ x, t.refs x = s.refs x + if x = y then 1 else 0) (hy : (s.inodes y).type ≠ .free) :
    Held { s with toTables := t } kept own := by
  refine ⟨?_, ?_, h.valid, h.keptValid, ?_⟩
  · intro x
    have hc := h.count x
    rw [List.count_cons] at hc
    simp only [beq_iff_eq, eq_comm (a := y)] at hc
    change s.ref x = t.refs x + _ + _
    rw [hsum]
    omega
  · intro x hx
    change 0 < t.refs x + _ at hx
    rw [hsum] at hx
    by_cases hxy : x = y
    · rw [hxy]
      exact hy
    · rw [if_neg hxy, Nat.add_zero] at hx
      exact h.alloc x hx
  · intro x ht hl
    have ho := h.orphan x ht hl
    change _ ∧ 0 < t.refs x + _
    rw [hsum]
    exact ⟨ho.1, by omega⟩

theorem Held.congr {kept own : List Nat} (h : Held s kept own) (hi : s'.inodes = s.inodes)
    (hr : s'.ref = s.ref) (hv : s'.valid = s.valid) (ht : ∀ x, s'.refs x = s.refs x) :
    Held s' kept own := by
  refine ⟨?_, ?_, ?_, ?_, ?_⟩
  · intro x
    rw [hr, ht]
    exact h.count x
  · intro x
    rw [hi, ht]
    exact h.alloc x
  · intro x
    rw [hv, hr, hi]
    exact h.valid x
  · intro x
    rw [hv]
    exact h.keptValid x
  · intro x
    rw [hi, hv, ht]
    exact h.orphan x

theorem sysFork_completed (hg : Good s) (hp : s.procs p = some pr) {q : Slot}
    (hq : s.procs q = none) (hl : sysFork s pr q = .ok s') : Completed s s' pr (.sysFork p q) := by
  obtain ⟨s₁, hdup, hl⟩ := bind_ok hl
  obtain ⟨h1, h2, h3, h4, h5⟩ := dupFiles_spec hdup
  have hs' : { idup s₁ pr.cwd with toTables := s₁.toTables.addProc q pr } = s' := Except.ok.inj hl
  have hrefs₁ := refs_of_targets (fun f ↦ (h5 f).1) h4
  have hheld₁ := hg.held.congr h1 h2 h3 hrefs₁
  have hq₁ : s₁.procs q = none := by
    rw [h4]
    exact hq
  have hcwd := Tables.refs_cwd hp
  have hcwd₁ : 0 < s₁.refs pr.cwd := by
    rw [hrefs₁]
    exact hcwd
  have hrefs (x : Nat) : (s₁.toTables.addProc q pr).refs x =
      s.refs x + if x = pr.cwd then 1 else 0 := by
    rw [refs_addProc hq₁, hrefs₁]
  rw [← hs']
  refine ⟨?_, ?_, ⟨?_, ?_⟩, ?_, ?_⟩
  · change Freed s.inodes s₁.inodes
    rw [h1]
    exact Freed.refl _
  · apply (idup_spec hheld₁ hcwd₁).2.adopt
    · exact refs_addProc hq₁ pr
    · exact hheld₁.alloc _ (Nat.add_pos_left hcwd₁ _)
  · intro f
    have hfds : s₁.toTables.fds f = s.toTables.fds f := by
      rw [Tables.fds, Tables.fds, h4]
    rw [fds_addProc hq₁, hfds]
    change (s₁.files f).ref = _
    rw [(h5 f).2, countP_finRange, hg.files.ref f]
  · intro f hzero
    change (s₁.files f).ref = 0 at hzero
    change (s₁.files f).target = .none
    rw [(h5 f).1]
    apply hg.files.closed f
    have := (h5 f).2
    omega
  · intro x hx
    rw [hrefs]
    exact Nat.add_pos_left hx _
  · intro x hx
    rw [hrefs] at hx
    by_cases hxc : x = pr.cwd
    · rw [hxc]
      exact Live.held hcwd
    · rw [if_neg hxc, Nat.add_zero] at hx
      exact Live.held hx

/-! ### `exit` -/

/-- `fileclose` does not look at the descriptor that goes away with it. -/
theorem fileclose_setFd (fd : Fin NOFILE) {f : Fin NFILE} (hl : fileclose s f = .ok s') :
    fileclose { s with toTables := s.toTables.setFd p pr fd none } f =
      .ok { s' with toTables := s'.toTables.setFd p pr fd none } := by
  unfold fileclose at hl ⊢
  have hfile : (s.toTables.setFd p pr fd none).files f = s.files f := rfl
  have hlast : (s.toTables.setFd p pr fd none).lastIp f = s.toTables.lastIp f := rfl
  simp only [hfile, hlast]
  split at hl
  · cases hl
  · next hpos =>
    rw [if_neg hpos]
    simp only at hl
    split at hl
    · cases hl
      rfl
    · next ip _ =>
      cases hl
      simp only [iput_tables]
      congr 2
      have : (iput { s with toTables := s.toTables.unref f } ip).toTables = s.toTables.unref f := by
        unfold iput
        split <;> rfl
      rw [this]
      rfl

/-- The loop of `exit` closes the descriptors. -/
theorem closeFiles_spec {fds : List (Fin NOFILE)} (hl : closeFiles p fds s pr = .ok s')
    (h : Held s [] []) (hok : FilesOk s.toTables) (hp : s.procs p = some pr) :
    s'.toTables = closeTables p fds s.toTables pr ∧ Freed s.inodes s'.inodes ∧ Held s' [] [] ∧
      FilesOk s'.toTables ∧ ∃ pr', s'.procs p = some pr' ∧ pr'.cwd = pr.cwd ∧
        ∀ fd, (fd ∈ fds ∨ pr.ofile fd = none) → pr'.ofile fd = none := by
  induction fds generalizing s pr with
  | nil =>
    cases hl
    refine ⟨rfl, Freed.refl _, h, hok, pr, hp, rfl, ?_⟩
    rintro fd (hfd | hfd)
    · cases hfd
    · exact hfd
  | cons fd fds ih =>
    rw [closeFiles] at hl
    rw [closeTables]
    cases hfd : pr.ofile fd with
    | none =>
      rw [hfd] at hl
      obtain ⟨h1, h2, h3, h4, pr', h5, h6, h7⟩ := ih hl h hok hp
      refine ⟨h1, h2, h3, h4, pr', h5, h6, ?_⟩
      rintro fd' (hmem | hnone)
      · rcases List.mem_cons.mp hmem with rfl | hmem
        · exact h7 fd' (Or.inr hfd)
        · exact h7 fd' (Or.inl hmem)
      · exact h7 fd' (Or.inr hnone)
    | some f =>
      rw [hfd] at hl
      obtain ⟨s₁, hclose, hl⟩ := bind_ok hl
      obtain ⟨ht₁, hf₁, hh₁⟩ := fileclose_spec h hp (fileclose_setFd fd hclose)
      have hok₁ := hok.close hp hfd
      rw [← ht₁] at hok₁
      have hp₁ : (s₁.toTables.setFd p pr fd none).procs p =
          some { pr with ofile := Function.update pr.ofile fd none } := Function.update_self ..
      obtain ⟨h1, h2, h3, h4, pr', h5, h6, h7⟩ := ih hl hh₁ hok₁ hp₁
      refine ⟨?_, hf₁.trans h2, h3, h4, pr', h5, h6, ?_⟩
      · rw [h1, ht₁]
        rfl
      · intro fd' hfd'
        apply h7 fd'
        by_cases heq : fd' = fd
        · rw [heq]
          exact Or.inr (Function.update_self ..)
        · rcases hfd' with hmem | hnone
          · rcases List.mem_cons.mp hmem with hmem | hmem
            · exact (heq hmem).elim
            · exact Or.inl hmem
          · right
            simp only [Function.update_of_ne heq]
            exact hnone

theorem sysExit_completed (hg : Good s) (hp : s.procs p = some pr) (hl : sysExit s p pr = .ok s') :
    Completed s s' pr (.sysExit p) := by
  obtain ⟨s₁, hclose, hl⟩ := bind_ok hl
  obtain ⟨ht₁, hf₁, hh₁, hok₁, pr', hp', hcwd, hnone⟩ :=
    closeFiles_spec hclose hg.held hg.files hp
  have htab : (iput s₁ pr.cwd).toTables = s₁.toTables := by
    unfold iput
    split <;> rfl
  have hs' : iput { s₁ with toTables := s.toTables.exit p pr } pr.cwd = s' := by
    rw [← Except.ok.inj hl, ← iput_tables, Tables.exit, ← ht₁, ← htab]
  have hexit : s.toTables.exit p pr =
      { s₁.toTables with procs := Function.update s₁.procs p none } := by
    rw [Tables.exit, ← ht₁]
  have hrefs (x : Nat) : (s.toTables.exit p pr).refs x + (if x = pr.cwd then 1 else 0) =
      s₁.refs x := by
    have := refs_update_proc s₁.toTables p none x
    rw [hp'] at this
    simp only [Option.map_none, Option.map_some, reduceCtorEq, if_false, Nat.add_zero, hcwd,
      Option.some.injEq, eq_comm (a := pr.cwd)] at this
    rw [hexit]
    exact this
  have hmoved (x : Nat) : (s.toTables.exit p pr).refs x + ([] : List Nat).count x +
      (if x = pr.cwd then 1 else 0) = s₁.refs x + ([] : List Nat).count x := by
    rw [List.count_nil, Nat.add_zero, Nat.add_zero]
    exact hrefs x
  obtain ⟨ht₂, hf₂, hh₂⟩ := hh₁.release hmoved
    (by
      intro x hx
      cases hx)
  rw [hs'] at ht₂ hf₂ hh₂
  refine Completed.of_tables (c := .sysExit p) (hf₁.trans hf₂) hh₂ ht₂ ?_
  rw [ht₂, hexit]
  refine ⟨?_, hok₁.closed⟩
  intro f
  have hfds := fds_update_proc s₁.toTables p none f
  have hzero : hits pr'.ofile (some f) = 0 := by
    apply hits_eq_zero
    intro fd hfd
    rw [hnone fd (Or.inl (List.mem_finRange fd))] at hfd
    cases hfd
  rw [hp'] at hfds
  simp only [Option.elim_none, Option.elim_some, hzero, Nat.add_zero] at hfds
  rw [hfds]
  exact hok₁.ref f

/-! ### Any call -/

theorem map_ok {α : Type} {e : Except String (α × State)} (h : e.map (·.2) = .ok s') :
    ∃ r, e = .ok (r, s') := by
  cases e with
  | error m => cases h
  | ok q =>
    cases h
    exact ⟨q.1, rfl⟩

/-- What one completed call does. -/
theorem step_completed (hg : Good s) {c : Call} (h : step s c = some s') :
    ∃ pr, s.procs c.slot = some pr ∧ Completed s s' pr c := by
  unfold step at h
  cases hp : s.procs c.slot with
  | none =>
    rw [hp] at h
    cases h
  | some pr =>
    rw [hp] at h
    simp only at h
    refine ⟨pr, rfl, ?_⟩
    have hexec : c.exec s pr = .ok s' := by
      cases he : c.exec s pr with
      | error m =>
        rw [he] at h
        cases h
      | ok t =>
        rw [he] at h
        cases h
        rfl
    cases c with
    | sysOpen q path omode space =>
      obtain ⟨r, hr⟩ := map_ok hexec
      exact sysOpen_completed hg hp hr
    | sysMkdir q path space =>
      obtain ⟨r, hr⟩ := map_ok hexec
      exact sysMkdir_completed hg hp hr
    | sysMknod q path major space =>
      obtain ⟨r, hr⟩ := map_ok hexec
      exact sysMknod_completed hg hp hr
    | sysLink q old new space =>
      obtain ⟨r, hr⟩ := map_ok hexec
      exact sysLink_completed hg hp hr
    | sysUnlink q path =>
      obtain ⟨r, hr⟩ := map_ok hexec
      exact sysUnlink_completed hg hp hr
    | sysChdir q path =>
      obtain ⟨r, hr⟩ := map_ok hexec
      exact sysChdir_completed hg hp hr
    | sysClose q fd =>
      obtain ⟨r, hr⟩ := map_ok hexec
      exact sysClose_completed hg hp hr
    | sysDup q fd =>
      obtain ⟨r, hr⟩ := map_ok hexec
      exact sysDup_completed hg hp hr
    | sysFork q q' =>
      simp only [Call.exec] at hexec
      split at hexec
      · cases hexec
      · next hfree => exact sysFork_completed hg hp (by simpa using hfree) hexec
    | sysExit q =>
      simp only [Call.exec] at hexec
      split at hexec
      · cases hexec
      · exact sysExit_completed hg hp hexec

end

end Xv6.Tree
