import Xv6.Fd.Invariant
import Xv6.Tree.Boot

/-!
# Reference counts between system calls

Every completed system call, whether it succeeds or fails, leaves all counts exact: those of files,
of inodes, and the flags of pipes.
-/

namespace Xv6.Fd

open Xv6.Lib

/-! ### Calls -/

section
variable {s₀ s s' : State} {held : Multiset (Fin NFILE)} {own : Multiset Nat} {p : Tree.Slot}
  {pr : Tree.Proc} {fd : Fin NOFILE} {f f0 f1 : Fin NFILE} {x : Nat}

/-- The last inode in hand is put. -/
theorem Ok.put {t : Tree.State} (h : Ok s₀ (s.withTree t) held {x}) :
    Ok s₀ (s.withTree (Tree.iput t x)) held 0 := by
  have h' : Ok s₀ (s.withTree t) held ({x} + 0) := h
  exact h'.moves (iput_moves t x)

/-- Closing a file that is no pipe is the same as it is in the tree. -/
theorem fileclose_tree (hpipe : s.pipe f = none) {t : Tree.State}
    (hl : Tree.fileclose s.toState f = .ok t) : fileclose s f = .ok (s.withTree t) := by
  rw [Tree.fileclose] at hl
  rw [fileclose]
  simp only at hl ⊢
  split at hl
  · cases hl
  · next hpos =>
    rw [if_neg hpos]
    have hsame : Function.update s.pipe f none = s.pipe :=
      Function.update_eq_self_iff.mpr hpipe.symm
    rw [hpipe, hsame]
    by_cases hmore : (s.files f).ref - 1 > 0
    · rw [if_pos hmore]
      rw [Tree.Tables.lastIp, if_pos hmore] at hl
      cases hl
      rfl
    · rw [if_neg hmore]
      rw [Tree.Tables.lastIp, if_neg hmore] at hl
      cases hip : (s.files f).target.ip with
      | none =>
        rw [hip] at hl
        cases hl
        rfl
      | some ip =>
        rw [hip] at hl
        cases hl
        rfl

/-- A file is opened on an inode that is in use, and is no directory if the file is writable. -/
theorem Since.openInode (h : Since s₀ s) {ff : Tree.File} (hx : ff.target.ip = some x)
    (hused : (s.inodes x).type ≠ .free)
    (hdir : ff.writable = true → (s.inodes x).type ≠ .dir)
    (htype : ∀ f₀, (s₀.files f₀).target.ip = some x → (s.inodes x).type = (s₀.inodes x).type) :
    Since s₀ (s.setFile f ff) := by
  have hself {y : Nat} (hy : ff.target.ip = some y) : y = x := Option.some.inj (hy.symm.trans hx)
  refine ⟨h.valid, ?_, ?_, ?_⟩
  · intro g y hg
    rw [setFile_files] at hg
    split at hg
    · rw [hself hg]
      exact hused
    · exact h.used g y hg
  · intro g y hg hw
    rw [setFile_files] at hg hw
    split at hg
    · next hgf =>
      rw [if_pos hgf] at hw
      rw [hself hg]
      exact hdir hw
    · next hgf =>
      rw [if_neg hgf] at hw
      exact h.readonly g y hg hw
  · intro g f₀ y hg hf₀
    rw [setFile_files] at hg
    split at hg
    · rw [hself hg] at hf₀ ⊢
      exact htype f₀ hf₀
    · exact h.type g f₀ y hg hf₀

/-- A file in hand is opened on an inode in hand. -/
theorem Ok.openInode (h : Ok s₀ s held (own + {x})) {ff : Tree.File} (hpipe : s.pipe f = none)
    (htarget : (s.files f).target = .none) (href : ff.ref = (s.files f).ref) (hpos : ff.ref ≠ 0)
    (hx : ff.target.ip = some x) (hsince : Since s₀ (s.setFile f ff)) :
    Ok s₀ (s.setFile f ff) held own := by
  refine ⟨h.piped.setFile ?_ ?_, h.counted.setFile ?_ ?_ ?_, hsince⟩
  · intro hf
    exact (hf hpipe).elim
  · intro hzero
    exact (hpos hzero).elim
  · rw [href]
  · intro g _
    rfl
  · intro y
    rw [hx, htarget, Multiset.count_add, Multiset.count_singleton]
    change _ = _ + if none = some y then 1 else 0
    simp only [Option.some.injEq, eq_comm (a := x), reduceCtorEq, if_false, Nat.add_zero]

/-- A file that is opened for reading only is not writable. -/
theorem opened_readonly (x : Nat) (i : Tree.Inode) :
    (Tree.opened x i Tree.O_RDONLY).writable = false := rfl

theorem openFile_ok {t t' : Tree.State} {omode : UInt32} {r : Int} (h : Ok s₀ (s.withTree t) 0 {x})
    (hp : t.procs p = some pr) (hused : (t.inodes x).type ≠ .free)
    (hdir : (t.inodes x).type = .dir → omode = Tree.O_RDONLY)
    (htype : ∀ f₀, (s₀.files f₀).target.ip = some x → (t.inodes x).type = (s₀.inodes x).type)
    (hl : Tree.openFile t p pr x omode = .ok (r, t')) : Ok s₀ (s.withTree t') 0 0 := by
  rw [Tree.openFile] at hl
  split at hl
  · cases hl
    exact h.put
  · next f hf =>
    have halloc : filealloc (s.withTree t) =
        some (f, (s.withTree t).setFile f { t.files f with ref := 1 }) := congrArg (Option.map _) hf
    obtain ⟨h₁, href, -⟩ := h.filealloc halloc
    have hclosed := h.piped.closed f href
    split at hl
    · obtain ⟨t₁, hclose, hl⟩ := bind_ok hl
      cases hl
      have hpipe : ((s.withTree t).setFile f { t.files f with ref := 1 }).pipe f = none := hclosed.2
      obtain ⟨h₂, -⟩ := h₁.fileclose (fileclose_tree hpipe hclose)
      exact Ok.put h₂
    · next fd hfd =>
      cases hl
      rw [← zero_add ({x} : Multiset Nat)] at h₁
      have hip := Tree.opened_ip x (t.inodes x) omode
      have hreadonly : (Tree.opened x (t.inodes x) omode).writable = true →
          (t.inodes x).type ≠ .dir := by
        intro hw hd
        rw [hdir hd, opened_readonly] at hw
        cases hw
      have hsince := h₁.since.openInode (f := f) hip hused hreadonly htype
      have h₂ := h₁.openInode (f := f) hclosed.2 ?_ ?_ Nat.one_ne_zero hip hsince
      · have h₃ := h₂.install hp (Tree.freeFd_some hfd)
        simp only [State.setFile, State.setTables, State.withTree, Function.update_idem] at h₃
        exact h₃
      · change (Function.update t.files f _ f).target = _
        rw [Function.update_self]
        exact hclosed.1
      · change _ = (Function.update t.files f _ f).ref
        rw [Function.update_self]
        rfl

theorem sysOpen_ok (h : Ok s s 0 0) (hp : s.procs p = some pr) {space : Nat → Bool}
    {path : Option Tree.Path} {omode : UInt32} {r : Int} {t : Tree.State}
    (hl : Tree.sysOpen s.toState p pr space path omode = .ok (r, t)) : Ok s (s.withTree t) 0 0 := by
  cases path with
  | none =>
    cases hl
    exact h
  | some path =>
    obtain ⟨⟨r₁, t₁⟩, hopen, hl⟩ := bind_ok hl
    have hm := openInode_moves hopen
    have h₁ := h.movesFrom hm
    cases r₁ with
    | none =>
      cases hl
      exact h₁
    | some ip =>
      have h₂ : Ok s (s.withTree t₁) 0 {ip} := h₁
      simp only at hl
      split at hl
      · cases hl
        exact h₂.put
      · have hp₁ : t₁.procs p = some pr := by
          rw [hm.tables]
          exact hp
        obtain ⟨hused, hdir⟩ := openInode_type hopen h.since.valid
        refine openFile_ok h₂ hp₁ hused hdir ?_ hl
        -- the file that had the inode at the start is still there
        intro f₀ hf₀
        refine h₂.since.type f₀ f₀ ip ?_ hf₀
        change (t₁.files f₀).target.ip = some ip
        rw [hm.tables]
        exact hf₀

theorem sysChdir_ok (h : Ok s₀ s 0 0) (hp : s.procs p = some pr) {path : Option Tree.Path} {r : Int}
    {t : Tree.State} (hl : Tree.sysChdir s.toState p pr path = .ok (r, t)) :
    Ok s₀ (s.withTree t) 0 0 := by
  cases path with
  | none =>
    cases hl
    exact h
  | some path =>
    obtain ⟨⟨r₁, t₁⟩, hname, hl⟩ := bind_ok hl
    have hm := namex_moves hname
    cases r₁ with
    | none =>
      cases hl
      exact h.movesFrom hm
    | some q =>
      obtain ⟨ip, name⟩ := q
      obtain ⟨t₂, hlock, hl⟩ := bind_ok hl
      have hm₂ : Moves s.toState t₂ 0 {ip} := hm.lock hlock
      have h₂ := h.movesFrom hm₂
      split at hl
      · cases hl
        exact h₂.put
      · cases hl
        have hp₂ : t₂.procs p = some pr := by
          rw [hm₂.tables]
          exact hp
        -- the call has the new directory in hand, and then the old one
        have h₃ : Ok s₀ (s.withTree { t₂ with toTables := t₂.toTables.setCwd p pr ip }) 0
            {pr.cwd} := by
          refine ⟨h₂.piped.setTables rfl, ⟨?_, ?_⟩, h₂.since.setTables rfl⟩
          · intro f
            change (t₂.files f).ref = (t₂.toTables.setCwd p pr ip).fds f + _
            rw [Tree.fds_setCwd hp₂]
            exact h₂.counted.files f
          · intro x
            have hx := h₂.counted.inodes x
            have hcwd := Tree.refs_setCwd hp₂ ip x
            rw [Multiset.count_singleton] at hx ⊢
            change t₂.ref x = t₂.toTables.refs x + _ at hx
            change t₂.ref x = (t₂.toTables.setCwd p pr ip).refs x + _
            omega
        have h₄ := h₃.put
        rw [← Tree.iput_tables] at h₄
        rw [iput_toTables]
        exact h₄

/-! ### Descriptors -/

theorem setFd_procs (s : State) (p : Tree.Slot) (pr : Tree.Proc) (fd : Fin NOFILE)
    (o : Option (Fin NFILE)) :
    (s.setTables (s.toTables.setFd p pr fd o)).procs p = some (ofile pr fd o) :=
  Function.update_self ..

theorem ofile_self (pr : Tree.Proc) (fd : Fin NOFILE) (o : Option (Fin NFILE)) :
    (ofile pr fd o).ofile fd = o := Function.update_self ..

theorem ofile_of_ne (pr : Tree.Proc) {fd fd' : Fin NOFILE} (hne : fd' ≠ fd)
    (o : Option (Fin NFILE)) : (ofile pr fd o).ofile fd' = pr.ofile fd' :=
  Function.update_of_ne hne ..

theorem sysDup_ok (h : Ok s₀ s 0 0) (hp : s.procs p = some pr) {n r : Int} {t : Tree.State}
    (hl : Tree.sysDup s.toState p pr n = .ok (r, t)) : Ok s₀ (s.withTree t) 0 0 := by
  rw [Tree.sysDup] at hl
  split at hl
  · cases hl
    exact h
  · next f hf =>
    split at hl
    · cases hl
      exact h
    · next fd hfd =>
      obtain ⟨t₁, hdup, hl⟩ := bind_ok hl
      cases hl
      obtain ⟨hpos, rfl⟩ := Tree.filedup_spec hdup
      -- the order of the descriptor and the reference does not matter
      have hdup' : Tree.filedup s.toState f = .ok { s.toState with
          files := Function.update s.files f { s.files f with ref := (s.files f).ref + 1 } } :=
        if_neg (Nat.not_lt.mpr hpos)
      exact (h.filedup hdup').1.install hp (Tree.freeFd_some hfd)

/-- Closing a descriptor. -/
theorem Ok.close (h : Ok s₀ s held own) (hp : s.procs p = some pr) (hfd : pr.ofile fd = some f)
    (hl : Fd.fileclose (s.setTables (s.toTables.setFd p pr fd none)) f = .ok s') :
    Ok s₀ s' held own ∧ s'.procs p = some (ofile pr fd none) := by
  obtain ⟨h₁, hprocs⟩ := (h.uninstall hp hfd).fileclose hl
  refine ⟨h₁, ?_⟩
  rw [hprocs]
  exact setFd_procs s p pr fd none

theorem sysClose_ok (h : Ok s₀ s 0 0) (hp : s.procs p = some pr) {n r : Int}
    (hl : sysClose s p pr n = .ok (r, s')) : Ok s₀ s' 0 0 := by
  rw [sysClose] at hl
  split at hl
  · cases hl
    exact h
  · next hf =>
    obtain ⟨s₁, hclose, hl⟩ := bind_ok hl
    cases hl
    exact (h.close hp (Tree.argfd_some hf) hclose).1

theorem closeBoth_ok (h : Ok s₀ s ({f0} + {f1}) own) {r : Int}
    (hl : closeBoth s f0 f1 = .ok (r, s')) : Ok s₀ s' 0 own := by
  obtain ⟨s₁, hclose0, hl⟩ := bind_ok hl
  obtain ⟨s₂, hclose1, hl⟩ := bind_ok hl
  cases hl
  have h₁ : Ok s₀ s₁ ({f1} + 0) own := (h.fileclose hclose0).1
  exact (h₁.fileclose hclose1).1

/-- The two closed files of `pipealloc` become the ends of a new pipe. -/
theorem Ok.openPipe (h : Ok s₀ s held own) (hne : f0 ≠ f1)
    (h0 : (s.files f0).ref ≠ 0 ∧ (s.files f0).target = .none ∧ s.pipe f0 = none)
    (h1 : (s.files f1).ref ≠ 0 ∧ (s.files f1).target = .none ∧ s.pipe f1 = none) :
    Ok s₀ (openPipe s f0 f1) held own := by
  have hsame (g : Fin NFILE) : ((Fd.openPipe s f0 f1).files g).ref = (s.files g).ref ∧
      ((Fd.openPipe s f0 f1).files g).target = (s.files g).target := by
    rw [openPipe_files s hne]
    split
    · next hg =>
      rw [hg]
      exact ⟨rfl, h1.2.1.symm⟩
    · split
      · next hg =>
        rw [hg]
        exact ⟨rfl, h0.2.1.symm⟩
      · exact ⟨rfl, rfl⟩
  have hsince : Since s₀ (Fd.openPipe s f0 f1) := by
    refine h.since.congr rfl rfl ?_
    intro g x hg
    rw [(hsame g).2] at hg
    refine ⟨hg, ?_⟩
    rw [openPipe_files s hne]
    split
    · next hg1 =>
      rw [hg1, h1.2.1] at hg
      cases hg
    · split
      · next hg0 =>
        rw [hg0, h0.2.1] at hg
        cases hg
      · rfl
  refine ⟨h.piped.openPipe hne h0.2.2 h1.2.2 h0.1 h1.1, ⟨?_, ?_⟩, hsince⟩
  · intro g
    rw [(hsame g).1]
    exact h.counted.files g
  · intro x
    have hrefs : (Fd.openPipe s f0 f1).toTables.refs x = s.toTables.refs x :=
      Tree.refs_of_targets (fun g ↦ (hsame g).2) rfl x
    rw [hrefs]
    exact h.counted.inodes x

/-- `pipealloc` gives both files or none. -/
theorem pipealloc_ok (h : Ok s₀ s 0 0) {kalloc : Bool} {r : Option (Fin NFILE × Fin NFILE)}
    (hl : pipealloc s kalloc = .ok (r, s')) :
    s'.procs = s.procs ∧ Ok s₀ s' (r.elim 0 (fun q ↦ {q.1} + {q.2})) 0 := by
  rw [pipealloc] at hl
  split at hl
  · cases hl
    exact ⟨rfl, h⟩
  · next f0 s₁ halloc0 =>
    obtain ⟨h₁, href0, hs₁⟩ := h.filealloc halloc0
    have hprocs₁ : s₁.procs = s.procs := by
      rw [hs₁]
      rfl
    split at hl
    · obtain ⟨s₂, hclose, hl⟩ := bind_ok hl
      cases hl
      obtain ⟨h₂, hprocs⟩ := h₁.fileclose hclose
      exact ⟨hprocs.trans hprocs₁, h₂⟩
    · next f1 s₂ halloc1 =>
      obtain ⟨h₂, href1, hs₂⟩ := h₁.filealloc halloc1
      have hprocs₂ : s₂.procs = s.procs := by
        rw [hs₂]
        exact hprocs₁
      have h₂' : Ok s₀ s₂ ({f0} + {f1}) 0 := by
        rw [add_zero, add_comm] at h₂
        exact h₂
      split at hl
      · cases hl
        refine ⟨hprocs₂, ?_⟩
        have hfile0 : s₁.files f0 = { s.files f0 with ref := 1 } := by
          rw [hs₁, setFile_files, if_pos rfl]
        have hne : f0 ≠ f1 := by
          rintro rfl
          rw [hfile0] at href1
          cases href1
        have hclosed0 := h.piped.closed f0 href0
        have hclosed1 := h₁.piped.closed f1 href1
        apply h₂'.openPipe hne
        · rw [hs₂, setFile_files, if_neg hne, hfile0]
          refine ⟨Nat.one_ne_zero, hclosed0.1, ?_⟩
          rw [hs₁]
          exact hclosed0.2
        · rw [hs₂, setFile_files, if_pos rfl]
          exact ⟨Nat.one_ne_zero, hclosed1.1, hclosed1.2⟩
      · obtain ⟨s₃, hclose0, hl⟩ := bind_ok hl
        obtain ⟨s₄, hclose1, hl⟩ := bind_ok hl
        cases hl
        obtain ⟨h₃, hprocs₃⟩ := h₂'.fileclose hclose0
        have h₃' : Ok s₀ s₃ ({f1} + 0) 0 := h₃
        obtain ⟨h₄, hprocs₄⟩ := h₃'.fileclose hclose1
        exact ⟨hprocs₄.trans (hprocs₃.trans hprocs₂), h₄⟩

theorem sysPipe_ok (h : Ok s₀ s 0 0) (hp : s.procs p = some pr) {kalloc copyout : Bool} {r : Int}
    (hl : sysPipe s p pr kalloc copyout = .ok (r, s')) : Ok s₀ s' 0 0 := by
  obtain ⟨⟨q, s₁⟩, halloc, hl⟩ := bind_ok hl
  obtain ⟨hprocs, h₁⟩ := pipealloc_ok h halloc
  cases q with
  | none =>
    cases hl
    exact h₁
  | some q =>
    obtain ⟨rf, wf⟩ := q
    have h₁ : Ok s₀ s₁ ({rf} + {wf}) 0 := h₁
    have hp₁ : s₁.procs p = some pr := by
      rw [hprocs]
      exact hp
    simp only at hl
    split at hl
    · exact closeBoth_ok h₁ hl
    · next fd0 hfd0 =>
      have h₂ := h₁.install hp₁ (Tree.freeFd_some hfd0)
      have hp₂ := setFd_procs s₁ p pr fd0 (some rf)
      have hof0 := ofile_self pr fd0 (some rf)
      split at hl
      · exact closeBoth_ok (h₂.uninstall hp₂ hof0) hl
      · next fd1 hfd1 =>
        have hfree1 := Tree.freeFd_some hfd1
        rw [← add_zero ({wf} : Multiset (Fin NFILE))] at h₂
        have h₃ := h₂.install hp₂ hfree1
        have hp₃ := setFd_procs (s₁.setTables (s₁.toTables.setFd p pr fd0 (some rf))) p
          (ofile pr fd0 (some rf)) fd1 (some wf)
        split at hl
        · cases hl
          exact h₃
        · have hne : fd0 ≠ fd1 := by
            rintro rfl
            rw [hof0] at hfree1
            cases hfree1
          have hof₃ : (ofile (ofile pr fd0 (some rf)) fd1 (some wf)).ofile fd0 = some rf := by
            rw [ofile_of_ne _ hne, hof0]
          have h₄ := h₃.uninstall hp₃ hof₃
          have hof₄ : (ofile (ofile (ofile pr fd0 (some rf)) fd1 (some wf)) fd0 none).ofile fd1 =
              some wf := by
            rw [ofile_of_ne _ (Ne.symm hne), ofile_self]
          have h₅ := h₄.uninstall (setFd_procs _ p _ fd0 none) hof₄
          rw [add_zero, add_comm] at h₅
          exact closeBoth_ok h₅ hl

/-! ### `fork` and `exit` -/

theorem dupFiles_ok {fds : List (Fin NOFILE)} {t : Tree.State} (h : Ok s₀ s held own)
    (hl : Tree.dupFiles s.toState pr fds = .ok t) :
    Ok s₀ (s.withTree t) (held + (fds.filterMap pr.ofile : List (Fin NFILE))) own ∧
      t.procs = s.procs := by
  induction fds generalizing s held with
  | nil =>
    cases hl
    rw [List.filterMap_nil, Multiset.coe_nil, add_zero]
    exact ⟨h, rfl⟩
  | cons fd fds ih =>
    rw [Tree.dupFiles] at hl
    split at hl
    · next hfd =>
      rw [List.filterMap_cons_none hfd]
      exact ih h hl
    · next f hfd =>
      obtain ⟨t₁, hdup, hl⟩ := bind_ok hl
      obtain ⟨h₁, hprocs₁⟩ := h.filedup hdup
      obtain ⟨h₂, hprocs₂⟩ := ih h₁ hl
      rw [List.filterMap_cons_some hfd, ← Multiset.cons_coe, ← Multiset.singleton_add, ← add_assoc,
        add_comm held]
      exact ⟨h₂, hprocs₂.trans hprocs₁⟩

theorem sysFork_ok (h : Ok s₀ s 0 0) {q : Tree.Slot} (hq : s.procs q = none) {t : Tree.State}
    (hl : Tree.sysFork s.toState pr q = .ok t) : Ok s₀ (s.withTree t) 0 0 := by
  obtain ⟨t₁, hdup, hl⟩ := bind_ok hl
  cases hl
  obtain ⟨h₁, hprocs⟩ := dupFiles_ok h hdup
  have h₂ := h₁.movesFrom (idup_moves t₁ pr.cwd)
  have hq₁ : t₁.procs q = none := by
    rw [hprocs]
    exact hq
  -- the child takes over the references of the call
  refine ⟨h₂.piped.setTables rfl, ⟨?_, ?_⟩, h₂.since.setTables rfl⟩
  · intro f
    have hf := h₂.counted.files f
    rw [zero_add, Multiset.coe_count, count_filterMap_finRange] at hf
    change (t₁.files f).ref = (t₁.toTables.addProc q pr).fds f + _
    rw [Tree.fds_addProc hq₁, Multiset.count_zero, Nat.add_zero]
    exact hf
  · intro x
    have hx := h₂.counted.inodes x
    rw [Multiset.count_singleton] at hx
    change (Tree.idup t₁ pr.cwd).ref x = (t₁.toTables.addProc q pr).refs x + _
    rw [Tree.refs_addProc hq₁, Multiset.count_zero, Nat.add_zero]
    exact hx

/-- `fileclose` does not look at the descriptor that `exit` takes away after it. -/
theorem fileclose_setFd (hl : fileclose s f = .ok s') :
    fileclose (s.setTables (s.toTables.setFd p pr fd none)) f =
      .ok (s'.setTables (s'.toTables.setFd p pr fd none)) := by
  rw [fileclose] at hl ⊢
  have hfile : (s.setTables (s.toTables.setFd p pr fd none)).files f = s.files f := rfl
  have hpipe : (s.setTables (s.toTables.setFd p pr fd none)).pipe f = s.pipe f := rfl
  simp only [hfile, hpipe] at hl ⊢
  split at hl
  · cases hl
  · next hpos =>
    rw [if_neg hpos]
    split at hl
    · next hmore =>
      cases hl
      rw [if_pos hmore]
      rfl
    · next hlast =>
      rw [if_neg hlast]
      cases hpi : s.pipe f with
      | some pi =>
        rw [hpi] at hl
        cases hl
        rfl
      | none =>
        rw [hpi] at hl
        cases hip : (s.files f).target.ip with
        | none =>
          rw [hip] at hl
          cases hl
          rfl
        | some ip =>
          rw [hip] at hl
          cases hl
          simp only [State.setTables, State.withTree, Tree.iput_tables, iput_toTables]
          rfl

theorem closeFiles_ok {fds : List (Fin NOFILE)} (h : Ok s₀ s held own) (hp : s.procs p = some pr)
    (hl : closeFiles p fds s pr = .ok s') :
    Ok s₀ s' held own ∧ ∃ pr', s'.procs p = some pr' ∧ pr'.cwd = pr.cwd ∧
      ∀ fd, (fd ∈ fds ∨ pr.ofile fd = none) → pr'.ofile fd = none := by
  induction fds generalizing s pr with
  | nil =>
    cases hl
    refine ⟨h, pr, hp, rfl, ?_⟩
    rintro fd (hfd | hfd)
    · cases hfd
    · exact hfd
  | cons fd fds ih =>
    rw [closeFiles] at hl
    split at hl
    · next hfd =>
      obtain ⟨h₁, pr', hp', hcwd, hnone⟩ := ih h hp hl
      refine ⟨h₁, pr', hp', hcwd, ?_⟩
      rintro fd' (hmem | hfd')
      · rcases List.mem_cons.mp hmem with rfl | hmem
        · exact hnone fd' (Or.inr hfd)
        · exact hnone fd' (Or.inl hmem)
      · exact hnone fd' (Or.inr hfd')
    · next f hfd =>
      obtain ⟨s₁, hclose, hl⟩ := bind_ok hl
      obtain ⟨h₁, hp₁⟩ := h.close hp hfd (fileclose_setFd hclose)
      obtain ⟨h₂, pr', hp', hcwd, hnone⟩ := ih h₁ hp₁ hl
      refine ⟨h₂, pr', hp', hcwd, ?_⟩
      intro fd' hfd'
      apply hnone fd'
      by_cases heq : fd' = fd
      · rw [heq]
        exact Or.inr (ofile_self pr fd none)
      · rcases hfd' with hmem | hfd'
        · exact Or.inl ((List.mem_cons.mp hmem).resolve_left heq)
        · rw [ofile_of_ne pr heq]
          exact Or.inr hfd'

theorem sysExit_ok (h : Ok s₀ s 0 0) (hp : s.procs p = some pr) (hl : sysExit s p pr = .ok s') :
    Ok s₀ s' 0 0 := by
  obtain ⟨s₁, hclose, hl⟩ := bind_ok hl
  cases hl
  obtain ⟨h₁, pr', hp', hcwd, hnone⟩ := closeFiles_ok h hp hclose
  -- the process goes with its directory in the hands of the call
  have h₂ : Ok s₀ (s₁.withTree { s₁.toState with procs := Function.update s₁.procs p none }) 0
      {pr.cwd} := by
    refine ⟨h₁.piped.setTables rfl, ⟨?_, ?_⟩, h₁.since.setTables rfl⟩
    · intro f
      have hf := h₁.counted.files f
      have hfds := Tree.fds_update_proc s₁.toTables p none f
      have hzero : hits pr'.ofile (some f) = 0 := by
        apply hits_eq_zero
        intro fd hfd
        rw [hnone fd (Or.inl (List.mem_finRange fd))] at hfd
        cases hfd
      rw [hp'] at hfds
      simp only [Option.elim_none, Option.elim_some, hzero, Nat.add_zero] at hfds
      change (s₁.files f).ref = ({ s₁.toTables with
        procs := Function.update s₁.procs p none } : Tree.Tables).fds f + _
      rw [hfds, hf]
    · intro x
      have hx := h₁.counted.inodes x
      have hrefs := Tree.refs_update_proc s₁.toTables p none x
      rw [hp'] at hrefs
      simp only [Option.map_none, Option.map_some, reduceCtorEq, if_false, Nat.add_zero, hcwd,
        Option.some.injEq, eq_comm (a := pr.cwd)] at hrefs
      rw [Multiset.count_singleton]
      change s₁.ref x = ({ s₁.toTables with
        procs := Function.update s₁.procs p none } : Tree.Tables).refs x + _
      rw [hrefs, hx, Multiset.count_zero, Nat.add_zero]
  have h₃ : Ok s₀ (s₁.withTree (Tree.iput { s₁.toState with toTables := { s₁.toTables with
      procs := Function.update s₁.procs p none } } pr.cwd)) 0 0 := h₂.put
  rw [← Tree.iput_tables] at h₃
  simp only [State.withTree, State.setTables, iput_toTables]
  exact h₃

end

/-! ### Runs -/

/-- All counts are exact: the count of each file is the number of descriptors of it, the count of
each inode is the number of files in use for it and of processes with it as their directory, an end
of a pipe is open if and only if a file in use is this end, and the page of a pipe has been freed
once if both ends are closed, and else not. -/
structure RefsExact (s : State) : Prop where
  file : ∀ f, (s.files f).ref =
    (Finset.univ.filter (fun q : Tree.Slot × Fin NOFILE ↦
      (s.procs q.1).bind (fun pr ↦ pr.ofile q.2) = some f)).card
  inode : ∀ x, s.ref x =
    (Finset.univ.filter (fun f : Fin NFILE ↦
      0 < (s.files f).ref ∧ (s.files f).target.ip = some x)).card +
    (Finset.univ.filter (fun p : Tree.Slot ↦ (s.procs p).map Tree.Proc.cwd = some x)).card
  readopen : ∀ pi < s.npipes, (s.pipes pi).readopen = true ↔
    ∃ f, 0 < (s.files f).ref ∧ s.IsEnd f pi false
  writeopen : ∀ pi < s.npipes, (s.pipes pi).writeopen = true ↔
    ∃ f, 0 < (s.files f).ref ∧ s.IsEnd f pi true
  frees : ∀ pi < s.npipes, (s.pipes pi).frees =
    if (s.pipes pi).readopen = false ∧ (s.pipes pi).writeopen = false then 1 else 0

section
variable {s₀ s s' : State}

theorem card_descriptors (t : Tree.Tables) (f : Fin NFILE) :
    (Finset.univ.filter (fun q : Tree.Slot × Fin NOFILE ↦
      (t.procs q.1).bind (fun pr ↦ pr.ofile q.2) = some f)).card = t.fds f := by
  rw [Finset.card_filter, Fintype.sum_prod_type, Tree.Tables.fds]
  apply Finset.sum_congr rfl
  intro p _
  simp only
  cases t.procs p with
  | none =>
    simp only [Option.bind_none, reduceCtorEq, if_false, Finset.sum_const_zero, Option.elim_none]
  | some pr => simp only [Option.bind_some, Option.elim_some, hits]

theorem Ok.refsExact (h : Ok s₀ s 0 0) : RefsExact s := by
  have hpos {f : Fin NFILE} {pi : Nat} {w : Bool} (hf : s.IsEnd f pi w) : 0 < (s.files f).ref := by
    apply Nat.pos_of_ne_zero
    intro hzero
    have := (h.piped.closed f hzero).2
    rw [hf.1] at this
    cases this
  have hopen (pi : Nat) (hpi : pi < s.npipes) (w : Bool) : (s.pipes pi).isOpen w = true ↔
      ∃ f, 0 < (s.files f).ref ∧ s.IsEnd f pi w := by
    rw [h.piped.isOpen pi hpi w]
    constructor
    · rintro ⟨f, hf⟩
      exact ⟨f, hpos hf, hf⟩
    · rintro ⟨f, -, hf⟩
      exact ⟨f, hf⟩
  refine ⟨?_, ?_, fun pi hpi ↦ hopen pi hpi false, fun pi hpi ↦ hopen pi hpi true, h.piped.frees⟩
  · intro f
    rw [card_descriptors, h.counted.files f, Multiset.count_zero, Nat.add_zero]
  · intro x
    have hfile (f : Fin NFILE) : 0 < (s.files f).ref ∧ (s.files f).target.ip = some x ↔
        (s.files f).target.ip = some x := by
      refine ⟨And.right, ?_⟩
      intro hx
      refine ⟨Nat.pos_of_ne_zero ?_, hx⟩
      intro hzero
      rw [(h.piped.closed f hzero).1] at hx
      cases hx
    simp only [hfile]
    rw [Finset.card_filter, Finset.card_filter, h.counted.inodes x, Multiset.count_zero,
      Nat.add_zero]
    rfl

theorem lift_ok {r : Except String (Int × Tree.State)} (h : s.lift r = .ok s') :
    ∃ n t, r = .ok (n, t) ∧ s' = s.withTree t := by
  cases r with
  | error e => cases h
  | ok q =>
    cases h
    exact ⟨q.1, q.2, rfl, rfl⟩

theorem map_snd_ok {r : Except String (Int × State)} (h : r.map (·.2) = .ok s') :
    ∃ n, r = .ok (n, s') := by
  cases r with
  | error e => cases h
  | ok q =>
    cases h
    exact ⟨q.1, rfl⟩

/-- Every completed call keeps the counts. -/
theorem step_ok {c : Call} (h : Ok s s 0 0) (hstep : step s c = some s') : Ok s s' 0 0 := by
  rw [step] at hstep
  split at hstep
  · cases hstep
  · next pr hp =>
    cases hexec : c.exec s pr with
    | error e =>
      rw [hexec] at hstep
      cases hstep
    | ok s₁ =>
      rw [hexec] at hstep
      cases hstep
      cases c with
      | sysOpen p path omode space =>
        obtain ⟨n, t, hl, rfl⟩ := lift_ok hexec
        exact sysOpen_ok h hp hl
      | sysDup p fd =>
        obtain ⟨n, t, hl, rfl⟩ := lift_ok hexec
        exact sysDup_ok h hp hl
      | sysClose p fd =>
        obtain ⟨n, hl⟩ := map_snd_ok hexec
        exact sysClose_ok h hp hl
      | sysPipe p kalloc copyout =>
        obtain ⟨n, hl⟩ := map_snd_ok hexec
        exact sysPipe_ok h hp hl
      | sysFork p q =>
        cases q with
        | none =>
          cases hexec
          exact h
        | some q =>
          rw [Call.exec] at hexec
          split at hexec
          · cases hexec
          · next hq =>
            cases hl : Tree.sysFork s.toState pr q with
            | error e =>
              rw [hl] at hexec
              cases hexec
            | ok t =>
              rw [hl] at hexec
              cases hexec
              exact sysFork_ok h (Option.not_isSome_iff_eq_none.mp hq) hl
      | sysExec p path =>
        obtain ⟨t, rfl, hm⟩ := sysExec_moves hexec
        exact h.movesFrom hm
      | sysChdir p path =>
        obtain ⟨n, t, hl, rfl⟩ := lift_ok hexec
        exact sysChdir_ok h hp hl
      | sysLink p old new space =>
        obtain ⟨n, t, hl, rfl⟩ := lift_ok hexec
        exact h.movesFrom (sysLink_moves hl)
      | sysUnlink p path =>
        obtain ⟨n, t, hl, rfl⟩ := lift_ok hexec
        exact h.movesFrom (sysUnlink_moves hl)
      | sysMkdir p path space =>
        obtain ⟨n, t, hl, rfl⟩ := lift_ok hexec
        exact h.movesFrom (createAndPut_moves hl)
      | sysMknod p path major space =>
        obtain ⟨n, t, hl, rfl⟩ := lift_ok hexec
        exact h.movesFrom (createAndPut_moves hl)
      | sysExit p =>
        rw [Call.exec] at hexec
        split at hexec
        · cases hexec
        · exact sysExit_ok h hp hexec
      | sysWait p =>
        cases hexec
        exact h

end

theorem boot_ok (im : Tree.Image) : Ok (boot im) (boot im) 0 0 := by
  have hgood := Tree.good_boot im
  refine ⟨⟨?_, ?_, ?_, ?_, ?_⟩, ⟨?_, ?_⟩, ⟨?_, ?_, ?_, ?_⟩⟩
  · intro f _
    exact ⟨rfl, rfl⟩
  · intro f pi hf
    cases hf
  · intro f g pi w hf _
    cases hf.1
  · intro pi hpi
    cases hpi
  · intro pi hpi
    cases hpi
  · intro f
    rw [Multiset.count_zero, Nat.add_zero]
    exact hgood.files.ref f
  · intro x
    have := hgood.held.count x
    rw [List.count_nil] at this
    rw [Multiset.count_zero]
    exact this
  · intro x hx
    cases hx
  · intro f x hx
    cases hx
  · intro f x hx
    cases hx
  · intro f _ x hx
    cases hx

/-- A call that ended is where the next one starts. -/
theorem Ok.restart {s₀ s : State} (h : Ok s₀ s 0 0) : Ok s s 0 0 :=
  ⟨h.piped, h.counted, h.since.valid, h.since.used, h.since.readonly, fun _ _ _ _ _ ↦ rfl⟩

/-- In every state between completed system calls, all reference counts are exact. -/
theorem refsExact_always (im : Tree.Image) (cs : List Call) : Always step RefsExact (boot im) cs :=
  always_of_invariant (fun _ h ↦ h.refsExact) (fun _ _ _ h hstep ↦ (step_ok h hstep).restart)
    (boot_ok im) cs

end Xv6.Fd
