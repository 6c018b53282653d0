import Xv6.Fd.Balance

/-!
# The counts while a call runs

`Ok s₀ s held own` says that all counts are right, if the call that runs holds one reference to each
file of `held` and one to each inode of `own`. Each part of a call moves references between these
and the tables; a system call starts and ends with none in hand. It also says what may have happened
to the inodes since the call started in `s₀`.
-/

namespace Xv6.Fd

open Xv6.Lib

/-- The flag of one end: `writeopen` or `readopen`. -/
def Pipe.isOpen (pi : Pipe) (writable : Bool) : Bool :=
  if writable then pi.writeopen else pi.readopen

/-- File `f` is the write end (the read end, if `writable` is `false`) of pipe `pi`. -/
def State.IsEnd (s : State) (f : Fin NFILE) (pi : Nat) (writable : Bool) : Prop :=
  s.pipe f = some pi ∧ (s.files f).writable = writable

/-- Each pipe has at most one file for each end, and its flags say which of them there are. -/
structure Piped (s : State) : Prop where
  closed : ∀ f, (s.files f).ref = 0 → (s.files f).target = .none ∧ s.pipe f = none
  target : ∀ f pi, s.pipe f = some pi → (s.files f).target = .none ∧ pi < s.npipes
  inj : ∀ f g pi w, s.IsEnd f pi w → s.IsEnd g pi w → f = g
  isOpen : ∀ pi < s.npipes, ∀ w, (s.pipes pi).isOpen w = true ↔ ∃ f, s.IsEnd f pi w
  frees : ∀ pi < s.npipes, (s.pipes pi).frees =
    if (s.pipes pi).readopen = false ∧ (s.pipes pi).writeopen = false then 1 else 0

/-- The counts of files and of inodes, with the references in hand. -/
structure Counted (s : Tree.State) (held : Multiset (Fin NFILE)) (own : Multiset Nat) : Prop where
  files : ∀ f, (s.files f).ref = s.toTables.fds f + held.count f
  inodes : ∀ x, s.ref x = s.toTables.refs x + own.count x

/-- What is true of the inodes, when a call that started in `s₀` has come to `s`: the inode of a
file is in use, it is no directory if the file is writable, and its type is still that of `s₀` if
there was a file for it then. -/
structure Since (s₀ s : State) : Prop where
  valid : ValidUsed s.toState
  used : ∀ f x, (s.files f).target.ip = some x → (s.inodes x).type ≠ .free
  readonly : ∀ f x, (s.files f).target.ip = some x → (s.files f).writable = true →
    (s.inodes x).type ≠ .dir
  type : ∀ f f₀ x, (s.files f).target.ip = some x → (s₀.files f₀).target.ip = some x →
    (s.inodes x).type = (s₀.inodes x).type

/-- What holds at every point of a call. -/
structure Ok (s₀ s : State) (held : Multiset (Fin NFILE)) (own : Multiset Nat) : Prop where
  piped : Piped s
  counted : Counted s.toState held own
  since : Since s₀ s

/-- Write one entry of the file table. -/
def State.setFile (s : State) (f : Fin NFILE) (ff : Tree.File) : State :=
  { s with files := Function.update s.files f ff }

theorem setFile_files (s : State) (f : Fin NFILE) (ff : Tree.File) (g : Fin NFILE) :
    (s.setFile f ff).files g = if g = f then ff else s.files g := Function.update_apply ..

/-! ### Pipes -/

section
variable {s s' : State} {f f0 f1 : Fin NFILE}

theorem isOpen_close (pi : Pipe) (w w' : Bool) :
    (pi.close w).isOpen w' = if w' = w then false else pi.isOpen w' := by
  cases pi with
  | mk readopen writeopen frees =>
    cases w <;> cases w' <;> cases readopen <;> cases writeopen <;> rfl

/-- The page is freed with the second end. -/
theorem frees_close {pi : Pipe} {w : Bool} (hw : pi.isOpen w = true)
    (h : pi.frees = if pi.readopen = false ∧ pi.writeopen = false then 1 else 0) :
    (pi.close w).frees =
      if (pi.close w).readopen = false ∧ (pi.close w).writeopen = false then 1 else 0 := by
  cases pi with
  | mk readopen writeopen frees =>
    cases w <;> cases readopen <;> cases writeopen <;> simp_all [Pipe.isOpen, Pipe.close]

/-- Steps that leave the pipes and their files alone. -/
theorem Piped.congr (h : Piped s) (hpipe : s'.pipe = s.pipe) (hpipes : s'.pipes = s.pipes)
    (hn : s'.npipes = s.npipes)
    (hends : ∀ f, s.pipe f ≠ none →
      (s'.files f).target = .none ∧ (s'.files f).writable = (s.files f).writable)
    (hclosed : ∀ f, (s'.files f).ref = 0 → (s'.files f).target = .none ∧ s.pipe f = none) :
    Piped s' := by
  have hend (f : Fin NFILE) (pi : Nat) (w : Bool) : s'.IsEnd f pi w ↔ s.IsEnd f pi w := by
    unfold State.IsEnd
    rw [hpipe]
    constructor
    · rintro ⟨hf, hw⟩
      rw [(hends f (by rw [hf]; exact Option.some_ne_none pi)).2] at hw
      exact ⟨hf, hw⟩
    · rintro ⟨hf, hw⟩
      rw [(hends f (by rw [hf]; exact Option.some_ne_none pi)).2]
      exact ⟨hf, hw⟩
  refine ⟨?_, ?_, ?_, ?_, ?_⟩
  · intro f hf
    rw [hpipe]
    exact hclosed f hf
  · intro f pi hf
    rw [hpipe] at hf
    rw [hn]
    exact ⟨(hends f (by rw [hf]; exact Option.some_ne_none pi)).1, (h.target f pi hf).2⟩
  · intro f g pi w hf hg
    exact h.inj f g pi w ((hend f pi w).mp hf) ((hend g pi w).mp hg)
  · intro pi hpi w
    rw [hn] at hpi
    rw [hpipes, h.isOpen pi hpi w]
    simp only [hend]
  · intro pi hpi
    rw [hn] at hpi
    rw [hpipes]
    exact h.frees pi hpi

/-- A change of one file that leaves the ends of pipes alone. -/
theorem Piped.setFile (h : Piped s) {ff : Tree.File}
    (hend : s.pipe f ≠ none → ff.target = .none ∧ ff.writable = (s.files f).writable)
    (hclosed : ff.ref = 0 → ff.target = .none ∧ s.pipe f = none) : Piped (s.setFile f ff) := by
  refine h.congr rfl rfl rfl ?_ ?_
  · intro g hg
    rw [setFile_files]
    split
    · next hgf =>
      rw [hgf] at hg ⊢
      exact hend hg
    · obtain ⟨pi, hpi⟩ := Option.ne_none_iff_exists'.mp hg
      exact ⟨(h.target g pi hpi).1, rfl⟩
  · intro g hg
    rw [setFile_files] at hg ⊢
    split at hg
    · next hgf =>
      rw [if_pos hgf, hgf]
      exact hclosed hg
    · next hgf =>
      rw [if_neg hgf]
      exact h.closed g hg

theorem openPipe_files (s : State) (hne : f0 ≠ f1) (g : Fin NFILE) : (openPipe s f0 f1).files g =
    if g = f1 then { ref := (s.files f1).ref, target := .none, readable := false, writable := true }
    else if g = f0 then
      { ref := (s.files f0).ref, target := .none, readable := true, writable := false }
    else s.files g := by
  simp only [openPipe, Function.update_apply, if_neg (Ne.symm hne)]

theorem openPipe_pipe (s : State) (g : Fin NFILE) :
    (openPipe s f0 f1).pipe g = if g = f1 ∨ g = f0 then some s.npipes else s.pipe g := by
  simp only [openPipe, Function.update_apply]
  by_cases h1 : g = f1 <;> by_cases h0 : g = f0 <;> simp [h1, h0]

theorem openPipe_pipes (s : State) (pi : Nat) :
    (openPipe s f0 f1).pipes pi = if pi = s.npipes then ⟨true, true, 0⟩ else s.pipes pi := by
  simp only [openPipe, Function.update_apply]

/-- The ends of the new pipe are its two files; those of the others stay as they are. -/
theorem openPipe_isEnd (h : Piped s) (hne : f0 ≠ f1) (h0 : s.pipe f0 = none) (h1 : s.pipe f1 = none)
    (g : Fin NFILE) (pi : Nat) (w : Bool) : (openPipe s f0 f1).IsEnd g pi w ↔
      if pi = s.npipes then g = (if w then f1 else f0) else s.IsEnd g pi w := by
  unfold State.IsEnd
  rw [openPipe_files s hne, openPipe_pipe]
  by_cases hg1 : g = f1
  · rw [hg1, if_pos (Or.inl rfl), if_pos rfl, h1]
    cases w <;> simp [eq_comm (a := pi), Ne.symm hne]
  · by_cases hg0 : g = f0
    · rw [hg0, if_pos (Or.inr rfl), if_neg hne, if_pos rfl, h0]
      cases w <;> simp [eq_comm (a := pi), hne]
    · rw [if_neg (not_or.mpr ⟨hg1, hg0⟩), if_neg hg1, if_neg hg0]
      split
      · next hpi =>
        constructor
        · intro hend
          have := (h.target g pi hend.1).2
          omega
        · intro hg
          cases w
          · exact (hg0 hg).elim
          · exact (hg1 hg).elim
      · rfl

/-- A new pipe with its two files. -/
theorem Piped.openPipe (h : Piped s) (hne : f0 ≠ f1) (h0 : s.pipe f0 = none) (h1 : s.pipe f1 = none)
    (hr0 : (s.files f0).ref ≠ 0) (hr1 : (s.files f1).ref ≠ 0) : Piped (openPipe s f0 f1) := by
  have hend := openPipe_isEnd h hne h0 h1
  have hlt {pi : Nat} (hpi : pi < (Fd.openPipe s f0 f1).npipes) (hn : pi ≠ s.npipes) :
      pi < s.npipes := by
    change pi < s.npipes + 1 at hpi
    omega
  refine ⟨?_, ?_, ?_, ?_, ?_⟩
  · intro g hg
    rw [openPipe_files s hne] at hg ⊢
    rw [openPipe_pipe]
    split at hg
    · exact (hr1 hg).elim
    · next hg1 =>
      split at hg
      · exact (hr0 hg).elim
      · next hg0 =>
        rw [if_neg hg1, if_neg hg0, if_neg (not_or.mpr ⟨hg1, hg0⟩)]
        exact h.closed g hg
  · intro g pi hg
    rw [openPipe_pipe] at hg
    rw [openPipe_files s hne]
    change _ ∧ pi < s.npipes + 1
    by_cases hnew : g = f1 ∨ g = f0
    · rw [if_pos hnew] at hg
      cases hg
      refine ⟨?_, Nat.lt_succ_self _⟩
      rcases hnew with rfl | rfl
      · rw [if_pos rfl]
      · rw [if_neg hne, if_pos rfl]
    · rw [if_neg hnew] at hg
      obtain ⟨hg1, hg0⟩ := not_or.mp hnew
      rw [if_neg hg1, if_neg hg0]
      have := h.target g pi hg
      exact ⟨this.1, by omega⟩
  · intro g g' pi w hg hg'
    rw [hend] at hg hg'
    split at hg
    · next hpi =>
      rw [if_pos hpi] at hg'
      rw [hg, hg']
    · next hpi =>
      rw [if_neg hpi] at hg'
      exact h.inj g g' pi w hg hg'
  · intro pi hpi w
    rw [openPipe_pipes]
    simp only [hend]
    split
    · simp only [exists_eq, iff_true]
      cases w <;> rfl
    · next hn => exact h.isOpen pi (hlt hpi hn) w
  · intro pi hpi
    rw [openPipe_pipes]
    split
    · rfl
    · next hn => exact h.frees pi (hlt hpi hn)

/-- The last `fileclose` of an end of a pipe. -/
theorem Piped.pipeclose (h : Piped s) {pi : Nat} (hf : s.pipe f = some pi) :
    Piped (pipeclose { s.setFile f { s.files f with ref := 0, target := .none } with
      pipe := Function.update s.pipe f none } pi (s.files f).writable) := by
  have hpi := (h.target f pi hf).2
  have hopen : (s.pipes pi).isOpen (s.files f).writable = true :=
    (h.isOpen pi hpi _).mpr ⟨f, hf, rfl⟩
  generalize hs' : Fd.pipeclose { s.setFile f { s.files f with ref := 0, target := .none } with
      pipe := Function.update s.pipe f none } pi (s.files f).writable = s'
  have hfiles (g : Fin NFILE) (hg : g ≠ f) : s'.files g = s.files g := by
    rw [← hs']
    exact Function.update_of_ne hg ..
  have hpipe (g : Fin NFILE) : s'.pipe g = if g = f then none else s.pipe g := by
    rw [← hs']
    exact Function.update_apply ..
  have hpipes (q : Nat) :
      s'.pipes q = if q = pi then (s.pipes pi).close (s.files f).writable else s.pipes q := by
    rw [← hs']
    exact Function.update_apply ..
  have hn : s'.npipes = s.npipes := by
    rw [← hs']
    rfl
  have hend (g : Fin NFILE) (q : Nat) (w : Bool) : s'.IsEnd g q w ↔ g ≠ f ∧ s.IsEnd g q w := by
    unfold State.IsEnd
    rw [hpipe]
    by_cases hg : g = f
    · simp [hg]
    · rw [if_neg hg, hfiles g hg]
      simp [hg]
  refine ⟨?_, ?_, ?_, ?_, ?_⟩
  · intro g hg
    rw [hpipe]
    by_cases hgf : g = f
    · rw [if_pos hgf, hgf, ← hs']
      refine ⟨?_, rfl⟩
      simp only [Fd.pipeclose, State.setFile, Function.update_self]
    · rw [hfiles g hgf] at hg ⊢
      rw [if_neg hgf]
      exact h.closed g hg
  · intro g q hg
    rw [hpipe] at hg
    split at hg
    · cases hg
    · next hgf =>
      rw [hfiles g hgf, hn]
      exact h.target g q hg
  · intro g g' q w hg hg'
    exact h.inj g g' q w ((hend g q w).mp hg).2 ((hend g' q w).mp hg').2
  · intro q hq w
    rw [hn] at hq
    rw [hpipes]
    simp only [hend]
    split
    · next hqp =>
      rw [hqp, isOpen_close]
      by_cases hw : w = (s.files f).writable
      · -- this end had no other file
        rw [if_pos hw]
        constructor
        · intro hfalse
          cases hfalse
        · rintro ⟨g, hgf, hg⟩
          exact (hgf (h.inj g f pi w hg ⟨hf, hw.symm⟩)).elim
      · rw [if_neg hw, h.isOpen pi hpi w]
        constructor
        · rintro ⟨g, hg⟩
          refine ⟨g, ?_, hg⟩
          rintro rfl
          exact hw hg.2.symm
        · rintro ⟨g, -, hg⟩
          exact ⟨g, hg⟩
    · next hqp =>
      rw [h.isOpen q hq w]
      constructor
      · rintro ⟨g, hg⟩
        refine ⟨g, ?_, hg⟩
        rintro rfl
        exact hqp (Option.some.inj (hg.1.symm.trans hf))
      · rintro ⟨g, -, hg⟩
        exact ⟨g, hg⟩
  · intro q hq
    rw [hn] at hq
    rw [hpipes]
    split
    · exact frees_close hopen (h.frees pi hpi)
    · exact h.frees q hq

end

/-! ### References in hand -/

section
variable {s₀ s s' : State} {held held' : Multiset (Fin NFILE)} {own own' give take : Multiset Nat}
  {p : Tree.Slot} {pr : Tree.Proc} {fd : Fin NOFILE} {f : Fin NFILE}

/-- The inodes stay as they are, and no file gets another one. -/
theorem Since.congr (h : Since s₀ s) (hinodes : s'.inodes = s.inodes) (hvalid : s'.valid = s.valid)
    (hfiles : ∀ f x, (s'.files f).target.ip = some x →
      (s.files f).target.ip = some x ∧ (s'.files f).writable = (s.files f).writable) :
    Since s₀ s' := by
  refine ⟨?_, ?_, ?_, ?_⟩
  · unfold ValidUsed
    rw [hvalid, hinodes]
    exact h.valid
  · intro f x hf
    rw [hinodes]
    exact h.used f x (hfiles f x hf).1
  · intro f x hf hw
    obtain ⟨hs, hsame⟩ := hfiles f x hf
    rw [hinodes]
    exact h.readonly f x hs (hsame.symm.trans hw)
  · intro f f₀ x hf hf₀
    rw [hinodes]
    exact h.type f f₀ x (hfiles f x hf).1 hf₀

/-- One file changes, to one without an inode or with the same as before. -/
theorem Since.setFile (h : Since s₀ s) {ff : Tree.File}
    (hff : ff.target = .none ∨
      ff.target = (s.files f).target ∧ ff.writable = (s.files f).writable) :
    Since s₀ (s.setFile f ff) := by
  refine h.congr rfl rfl ?_
  intro g x hg
  rw [setFile_files] at hg ⊢
  split at hg
  · next hgf =>
    rw [if_pos hgf, hgf]
    rcases hff with hnone | ⟨htarget, hw⟩
    · rw [hnone] at hg
      cases hg
    · rw [htarget] at hg
      exact ⟨hg, hw⟩
  · next hgf =>
    rw [if_neg hgf]
    exact ⟨hg, rfl⟩

/-- A file has a reference to its inode. -/
theorem refs_pos {x : Nat} (hf : (s.files f).target.ip = some x) : 0 < s.toTables.refs x := by
  have hpos : 0 < hits (fun f ↦ (s.files f).target.ip) (some x) := hits_pos_iff.mpr ⟨f, hf⟩
  unfold Tree.Tables.refs
  omega

/-- The part of a call on the tree keeps the types of the inodes of files. -/
theorem Since.moves (h : Since s₀ s) (hc : Counted s.toState held (give + own)) {t : Tree.State}
    (hm : Moves s.toState t give take) : Since s₀ (s.withTree t) := by
  have hfiles : t.files = s.files := congrArg Tree.Tables.files hm.tables
  have htype (f : Fin NFILE) (x : Nat) (hf : (t.files f).target.ip = some x) :
      (s.files f).target.ip = some x ∧ (t.inodes x).type = (s.inodes x).type := by
    rw [hfiles] at hf
    refine ⟨hf, hm.type s.toTables.refs ?_ x (refs_pos hf) (h.used f x hf)⟩
    intro y
    rw [hc.inodes, Multiset.count_add]
    omega
  refine ⟨hm.valid h.valid, ?_, ?_, ?_⟩
  · intro f x hf
    obtain ⟨hs, hsame⟩ := htype f x hf
    change (t.inodes x).type ≠ .free
    rw [hsame]
    exact h.used f x hs
  · intro f x hf hw
    obtain ⟨hs, hsame⟩ := htype f x hf
    change (t.files f).writable = true at hw
    change (t.inodes x).type ≠ .dir
    rw [hfiles] at hw
    rw [hsame]
    exact h.readonly f x hs hw
  · intro f f₀ x hf hf₀
    obtain ⟨hs, hsame⟩ := htype f x hf
    exact hsame.trans (h.type f f₀ x hs hf₀)

/-- The part of a call on the tree. -/
theorem Ok.moves (h : Ok s₀ s held (give + own)) {t : Tree.State}
    (hm : Moves s.toState t give take) :
    Ok s₀ (s.withTree t) held (take + own) := by
  have hfiles : t.files = s.files := congrArg Tree.Tables.files hm.tables
  refine ⟨?_, ⟨?_, ?_⟩, h.since.moves h.counted hm⟩
  · refine h.piped.congr rfl rfl rfl ?_ ?_
    · intro g hg
      obtain ⟨pi, hpi⟩ := Option.ne_none_iff_exists'.mp hg
      change (t.files g).target = _ ∧ (t.files g).writable = _
      rw [hfiles]
      exact ⟨(h.piped.target g pi hpi).1, rfl⟩
    · intro g
      change (t.files g).ref = 0 → (t.files g).target = _ ∧ _
      rw [hfiles]
      exact h.piped.closed g
  · intro g
    change (t.files g).ref = t.toTables.fds g + _
    rw [hfiles, hm.tables]
    exact h.counted.files g
  · intro x
    have hle (y : Nat) : give.count y ≤ s.ref y := by
      rw [h.counted.inodes, Multiset.count_add]
      omega
    have hx := hm.count hle x
    have := h.counted.inodes x
    change t.ref x = t.toTables.refs x + _
    rw [hm.tables, Multiset.count_add]
    rw [Multiset.count_add] at this
    omega

/-- The part of a call on the tree that starts with nothing in hand. -/
theorem Ok.movesFrom (h : Ok s₀ s held 0) {t : Tree.State} (hm : Moves s.toState t 0 take) :
    Ok s₀ (s.withTree t) held take := by
  have h0 : Ok s₀ s held (0 + 0) := h
  have := h0.moves hm
  rwa [add_zero] at this

/-- A file of the table changes. -/
theorem Counted.setFile (h : Counted s.toState held own) {ff : Tree.File}
    (hself : ff.ref + held.count f = (s.files f).ref + held'.count f)
    (hother : ∀ g ≠ f, held'.count g = held.count g)
    (hown : ∀ x, own'.count x + (if ff.target.ip = some x then 1 else 0) =
      own.count x + if (s.files f).target.ip = some x then 1 else 0) :
    Counted (s.setFile f ff).toState held' own' := by
  refine ⟨?_, ?_⟩
  · intro g
    have hg := h.files g
    rw [setFile_files]
    change _ = s.toTables.fds g + _
    split
    · next hgf =>
      rw [hgf] at hg ⊢
      omega
    · next hgf =>
      rw [hother g hgf]
      exact hg
  · intro x
    have h1 := h.inodes x
    have h2 : (s.setFile f ff).toTables.refs x + _ = s.toTables.refs x + _ :=
      Tree.refs_update_file s.toTables f ff x
    have h3 := hown x
    change s.ref x = (s.setFile f ff).toTables.refs x + _
    omega

theorem count_singleton_add_self (f : Fin NFILE) (held : Multiset (Fin NFILE)) :
    ({f} + held).count f = held.count f + 1 := by
  rw [Multiset.count_add, Multiset.count_singleton_self, Nat.add_comm]

theorem count_singleton_add_of_ne {g : Fin NFILE} (hg : g ≠ f) (held : Multiset (Fin NFILE)) :
    ({f} + held).count g = held.count g := by
  rw [Multiset.count_add, Multiset.count_singleton, if_neg hg, Nat.zero_add]

/-- A change of the count only, to more than 0. -/
theorem Ok.setRef (h : Ok s₀ s held own) {n : Nat} (hn : n ≠ 0)
    (hself : n + held.count f = (s.files f).ref + held'.count f)
    (hother : ∀ g ≠ f, held'.count g = held.count g) :
    Ok s₀ (s.setFile f { s.files f with ref := n }) held' own := by
  refine ⟨h.piped.setFile ?_ ?_, h.counted.setFile hself hother (fun _ ↦ rfl),
    h.since.setFile (Or.inr ⟨rfl, rfl⟩)⟩
  · intro hf
    obtain ⟨pi, hpi⟩ := Option.ne_none_iff_exists'.mp hf
    exact ⟨(h.piped.target f pi hpi).1, rfl⟩
  · intro hzero
    exact (hn hzero).elim

/-- `filealloc` hands out a closed file. -/
theorem Ok.filealloc (h : Ok s₀ s held own) (hl : filealloc s = some (f, s')) :
    Ok s₀ s' ({f} + held) own ∧ (s.files f).ref = 0 ∧
      s' = s.setFile f { s.files f with ref := 1 } := by
  rw [Fd.filealloc, Option.map_eq_some_iff] at hl
  obtain ⟨g, hg, hs'⟩ := hl
  cases hs'
  have href := Tree.freeFile_some hg
  refine ⟨?_, href, rfl⟩
  apply h.setRef Nat.one_ne_zero
  · rw [count_singleton_add_self]
    omega
  · intro g' hg'
    exact count_singleton_add_of_ne hg' held

/-- `filedup` adds a reference. -/
theorem Ok.filedup (h : Ok s₀ s held own) {t : Tree.State} (hl : Tree.filedup s.toState f = .ok t) :
    Ok s₀ (s.withTree t) ({f} + held) own ∧ t.procs = s.procs := by
  obtain ⟨hpos, rfl⟩ := Tree.filedup_spec hl
  refine ⟨?_, rfl⟩
  apply h.setRef (Nat.succ_ne_zero _)
  · rw [count_singleton_add_self]
    omega
  · intro g hg
    exact count_singleton_add_of_ne hg held

/-- The processes change, the files do not. -/
theorem Piped.setTables (h : Piped s) {t : Tree.Tables} (ht : t.files = s.files) :
    Piped (s.setTables t) := by
  refine h.congr rfl rfl rfl ?_ ?_
  · intro g hg
    obtain ⟨pi, hpi⟩ := Option.ne_none_iff_exists'.mp hg
    change (t.files g).target = _ ∧ (t.files g).writable = _
    rw [ht]
    exact ⟨(h.target g pi hpi).1, rfl⟩
  · intro g
    change (t.files g).ref = 0 → (t.files g).target = _ ∧ _
    rw [ht]
    exact h.closed g

theorem Since.setTables (h : Since s₀ s) {t : Tree.Tables} (ht : t.files = s.files) :
    Since s₀ (s.setTables t) := by
  refine h.congr rfl rfl ?_
  intro g x
  change (t.files g).target.ip = some x → _ ∧ (t.files g).writable = _
  rw [ht]
  exact fun hg ↦ ⟨hg, rfl⟩

/-- A descriptor for a file in hand. -/
theorem Ok.install (h : Ok s₀ s ({f} + held) own) (hp : s.procs p = some pr)
    (hfd : pr.ofile fd = none) :
    Ok s₀ (s.setTables (s.toTables.setFd p pr fd (some f))) held own := by
  refine ⟨h.piped.setTables rfl, ⟨?_, ?_⟩, h.since.setTables rfl⟩
  · intro g
    have hg := h.counted.files g
    have hfds := Tree.fds_setFd hp fd (some f) g
    rw [hfd] at hfds
    rw [Multiset.count_add, Multiset.count_singleton] at hg
    simp only [reduceCtorEq, if_false, Nat.add_zero, Option.some.injEq, eq_comm (a := f)] at hfds
    change (s.files g).ref = (s.toTables.setFd p pr fd (some f)).fds g + _
    omega
  · intro x
    change s.ref x = (s.toTables.setFd p pr fd (some f)).refs x + _
    rw [Tree.refs_setFd hp]
    exact h.counted.inodes x

/-- A descriptor is taken away; the call has its reference. -/
theorem Ok.uninstall (h : Ok s₀ s held own) (hp : s.procs p = some pr)
    (hfd : pr.ofile fd = some f) :
    Ok s₀ (s.setTables (s.toTables.setFd p pr fd none)) ({f} + held) own := by
  refine ⟨h.piped.setTables rfl, ⟨?_, ?_⟩, h.since.setTables rfl⟩
  · intro g
    have hg := h.counted.files g
    have hfds := Tree.fds_setFd hp fd none g
    rw [hfd] at hfds
    simp only [reduceCtorEq, if_false, Nat.add_zero, Option.some.injEq, eq_comm (a := f)] at hfds
    rw [Multiset.count_add, Multiset.count_singleton]
    change (s.files g).ref = (s.toTables.setFd p pr fd none).fds g + _
    omega
  · intro x
    change s.ref x = (s.toTables.setFd p pr fd none).refs x + _
    rw [Tree.refs_setFd hp]
    exact h.counted.inodes x

theorem count_gain (o : Option Nat) (x : Nat) :
    (gain o).count x = if o = some x then 1 else 0 := by
  cases o with
  | none => rfl
  | some y =>
    change ({y} : Multiset Nat).count x = _
    rw [Multiset.count_singleton]
    simp only [Option.some.injEq, eq_comm (a := y)]

/-- The last reference to a file goes back, and with it the reference to its inode. -/
theorem Counted.unrefLast (h : Counted s.toState ({f} + held) own) (hlast : (s.files f).ref = 1) :
    Counted (s.setFile f { s.files f with ref := 0, target := .none }).toState held
      (gain (s.files f).target.ip + own) := by
  refine h.setFile ?_ ?_ ?_
  · change 0 + _ = _
    rw [count_singleton_add_self, hlast]
    omega
  · intro g hg
    exact (count_singleton_add_of_ne hg held).symm
  · intro x
    rw [Multiset.count_add, count_gain]
    change _ + (if none = some x then 1 else 0) = _
    simp only [reduceCtorEq, if_false]
    omega

/-- Closing a file in hand. -/
theorem Ok.fileclose (h : Ok s₀ s ({f} + held) own) (hl : fileclose s f = .ok s') :
    Ok s₀ s' held own ∧ s'.procs = s.procs := by
  rw [Fd.fileclose] at hl
  simp only at hl
  split at hl
  · cases hl
  · next hpos =>
    split at hl
    · next hmore =>
      cases hl
      have hfile : s.setTables (s.toTables.unref f) =
          s.setFile f { s.files f with ref := (s.files f).ref - 1 } := by
        rw [Tree.Tables.unref]
        simp only [if_pos hmore]
        rfl
      rw [hfile]
      refine ⟨?_, rfl⟩
      apply h.setRef (by omega)
      · rw [count_singleton_add_self]
        omega
      · intro g hg
        exact (count_singleton_add_of_ne hg held).symm
    · next hlast =>
      have hfile : s.setTables (s.toTables.unref f) =
          s.setFile f { s.files f with ref := 0, target := .none } := by
        rw [Tree.Tables.unref]
        simp only [if_neg hlast]
        rfl
      have hcount := h.counted.unrefLast (by omega)
      -- a file that is no pipe
      have hput (hpipe : s.pipe f = none) :
          { s.setFile f { s.files f with ref := 0, target := .none } with
            pipe := Function.update s.pipe f none } =
          s.setFile f { s.files f with ref := 0, target := .none } ∧
          Ok s₀ (s.setFile f { s.files f with ref := 0, target := .none }) held
            (gain (s.files f).target.ip + own) := by
        refine ⟨?_, h.piped.setFile (fun hf ↦ (hf hpipe).elim) (fun _ ↦ ⟨rfl, hpipe⟩), hcount,
          h.since.setFile (Or.inl rfl)⟩
        rw [Function.update_eq_self_iff.mpr hpipe.symm]
        rfl
      rw [hfile] at hl
      split at hl
      · next pi hpi =>
        cases hl
        rw [(h.piped.target f pi hpi).1] at hcount
        have hsince : Since s₀ (s.setFile f { s.files f with ref := 0, target := .none }) :=
          h.since.setFile (Or.inl rfl)
        refine ⟨⟨h.piped.pipeclose hpi, ?_, hsince.congr rfl rfl (fun _ _ hg ↦ ⟨hg, rfl⟩)⟩, rfl⟩
        have hgain : gain Tree.Target.none.ip + own = own := zero_add own
        rw [hgain] at hcount
        exact ⟨hcount.files, hcount.inodes⟩
      · next ip hpipe hip =>
        cases hl
        obtain ⟨heq, hok⟩ := hput hpipe
        rw [heq]
        rw [hip] at hok
        have hok' := hok.moves (iput_moves _ ip)
        rw [zero_add] at hok'
        refine ⟨hok', ?_⟩
        change (Tree.iput _ ip).procs = s.procs
        rw [iput_toTables]
        rfl
      · next hpipe hip =>
        cases hl
        obtain ⟨heq, hok⟩ := hput hpipe
        rw [heq]
        rw [hip] at hok
        have hgain : gain none + own = own := zero_add own
        rw [hgain] at hok
        exact ⟨hok, rfl⟩

end

end Xv6.Fd
