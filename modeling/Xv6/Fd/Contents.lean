import Xv6.Fd.Exact

/-!
# What a call does to the contents of directories

The entries of a directory change by `dirlink` and by `sys_unlink`, one entry in a call. All other
parts of a call leave an inode alone or, in `iput`, free it. Nothing is assumed about link counts.
-/

namespace Xv6.Tree

/-- `dirlink` put an entry, or nothing happened. -/
def Linked (es es' : List Dirent) : Prop := es' = es ∨ ∃ e, es' = put e es

/-- `sys_unlink` cleared an entry, or nothing happened. -/
def Unlinked (es es' : List Dirent) : Prop := es' = es ∨ ∃ k, es' = es.set k ⟨0, []⟩

/-- An inode is freed, or keeps its type, with entries related by `E`. -/
def Fate (E : List Dirent → List Dirent → Prop) (i j : Inode) : Prop :=
  j.type = .free ∨ j.type = i.type ∧ E i.entries j.entries

section
variable {E : List Dirent → List Dirent → Prop} {i j l : Inode}

theorem Fate.trans (h : Fate E i j) (h' : Fate Eq j l) : Fate E i l := by
  rcases h' with h' | ⟨htype, hentries⟩
  · exact Or.inl h'
  · rcases h with h | ⟨htype', hentries'⟩
    · exact Or.inl (htype.trans h)
    · rw [hentries] at hentries'
      exact Or.inr ⟨htype.trans htype', hentries'⟩

theorem Fate.after (h : Fate Eq i j) (h' : Fate E j l) : Fate E i l := by
  rcases h' with h' | ⟨htype, hentries⟩
  · exact Or.inl h'
  · rcases h with h | ⟨htype', hentries'⟩
    · exact Or.inl (htype.trans h)
    · rw [← hentries'] at hentries
      exact Or.inr ⟨htype.trans htype', hentries⟩

theorem Fate.linked (h : Fate Eq i j) : Fate Linked i j :=
  h.imp id (And.imp id fun he ↦ Or.inl he.symm)

theorem Fate.unlinked (h : Fate Eq i j) : Fate Unlinked i j :=
  h.imp id (And.imp id fun he ↦ Or.inl he.symm)

end

theorem Freed.fate {m m' : Graph} (h : Freed m m') (x : Nat) : Fate Eq (m x) (m' x) := by
  rcases h x with hx | ⟨-, hx, -⟩
  · rw [hx]
    exact Or.inr ⟨rfl, rfl⟩
  · exact Or.inl hx

end Xv6.Tree

namespace Xv6.Fd

open Xv6.Lib Xv6.Tree

section
variable {s s' : Tree.State} {x : Nat}

/-! ### Parts that write no directory -/

theorem iput_freed (s : Tree.State) (x : Nat) : Freed s.inodes (Tree.iput s x).inodes := by
  intro y
  rw [iput_inodes]
  split
  · next h =>
    obtain ⟨rfl, -, -, hlinks⟩ := h
    refine Or.inr ⟨Or.inr hlinks, rfl, rfl, ?_⟩
    change (s.inodes y).nlink < 2 ^ 16
    rw [hlinks]
    decide
  · exact Or.inl rfl

theorem ilock_inodes (h : Tree.ilock s x = .ok s') : s'.inodes = s.inodes := by
  rw [Tree.ilock] at h
  split at h
  · cases h
  · split at h
    · cases h
      rfl
    · split at h
      · cases h
      · cases h
        rfl

theorem dirlookup_inodes {dp : Nat} {name : Name} {r : Option (Nat × Nat)}
    (h : Tree.dirlookup s dp name = .ok (r, s')) : s'.inodes = s.inodes := by
  rw [Tree.dirlookup] at h
  split at h
  · cases h
  · split at h
    · cases h
      rfl
    · obtain ⟨s₁, hget, h⟩ := bind_ok h
      cases h
      exact iget_inodes hget

theorem namexEnd_freed {parent : Bool} {ip : Nat} {r : Option (Nat × Name)}
    (h : Tree.namexEnd parent s ip = (r, s')) : Freed s.inodes s'.inodes := by
  rw [Tree.namexEnd] at h
  split at h
  · cases h
    exact iput_freed s ip
  · cases h
    exact Freed.refl _

theorem namexLoop_freed {parent : Bool} {fuel ip : Nat} {path : Path} {r : Option (Nat × Name)}
    (h : Tree.namexLoop parent fuel s ip path = .ok (r, s')) : Freed s.inodes s'.inodes := by
  induction fuel generalizing s ip path with
  | zero => exact namexEnd_freed (Except.ok.inj h)
  | succ fuel ih =>
    rw [Tree.namexLoop] at h
    split at h
    · exact namexEnd_freed (Except.ok.inj h)
    · next name rest _ =>
      obtain ⟨s₁, hlock, h⟩ := bind_ok h
      rw [← ilock_inodes hlock]
      split at h
      · cases h
        exact iput_freed s₁ ip
      · split at h
        · cases h
          exact Freed.refl _
        · obtain ⟨⟨next, s₂⟩, hlook, h⟩ := bind_ok h
          rw [← dirlookup_inodes hlook]
          cases next with
          | none =>
            cases h
            exact iput_freed s₂ ip
          | some q => exact (iput_freed s₂ ip).trans (ih h)

theorem namex_freed {pr : Tree.Proc} {parent : Bool} {path : Path} {r : Option (Nat × Name)}
    (h : Tree.namex s pr parent path = .ok (r, s')) : Freed s.inodes s'.inodes := by
  rw [Tree.namex] at h
  split at h
  · obtain ⟨s₁, hget, h⟩ := bind_ok h
    rw [← iget_inodes hget]
    exact namexLoop_freed h
  · have hloop := namexLoop_freed h
    exact hloop

/-! ### `dirlink` -/

theorem setInode_fate (x : Nat) (ip : Inode) (htype : ip.type = (s.inodes x).type)
    (hentries : ip.entries = (s.inodes x).entries) (y : Nat) :
    Fate Eq (s.inodes y) ((s.setInode x ip).inodes y) := by
  change Fate Eq (s.inodes y) (Function.update s.inodes x ip y)
  rw [Function.update_apply]
  split
  · next hy =>
    rw [hy]
    exact Or.inr ⟨htype, hentries.symm⟩
  · exact Or.inr ⟨rfl, rfl⟩

/-- `dirlink` puts one entry into the directory, and other inodes are freed at most. -/
theorem dirlink_fate {space : Bool} {dp inum : Nat} {name : Name} {ok : Bool}
    (h : Tree.dirlink s space dp name inum = .ok (ok, s')) (y : Nat) :
    Fate Linked (s.inodes y) (s'.inodes y) ∧ (y ≠ dp → Fate Eq (s.inodes y) (s'.inodes y)) := by
  obtain ⟨⟨r, s₁⟩, hlook, h⟩ := bind_ok h
  rw [← dirlookup_inodes hlook]
  cases r with
  | some q =>
    cases h
    have hput := (iput_freed s₁ q.2).fate y
    exact ⟨hput.linked, fun _ ↦ hput⟩
  | none =>
    simp only at h
    split at h
    · cases h
      change Fate Linked _ (Function.update s₁.inodes dp _ y) ∧
        (_ → Fate Eq _ (Function.update s₁.inodes dp _ y))
      rw [Function.update_apply]
      split
      · next hy =>
        rw [hy]
        exact ⟨Or.inr ⟨rfl, Or.inr ⟨_, rfl⟩⟩, fun hne ↦ (hne rfl).elim⟩
      · exact ⟨Or.inr ⟨rfl, Or.inl rfl⟩, fun _ ↦ Or.inr ⟨rfl, rfl⟩⟩
    · cases h
      exact ⟨Or.inr ⟨rfl, Or.inl rfl⟩, fun _ ↦ Or.inr ⟨rfl, rfl⟩⟩

theorem createDots_fate {space : Bool} {dp ip : Nat} {ok : Bool}
    (h : createDots s space dp ip = .ok (ok, s')) {y : Nat} (hy : y ≠ ip) :
    Fate Eq (s.inodes y) (s'.inodes y) := by
  obtain ⟨⟨ok₁, s₁⟩, hdot, h⟩ := bind_ok h
  have h₁ := (dirlink_fate hdot y).2 hy
  simp only at h
  split at h
  · exact h₁.trans ((dirlink_fate h y).2 hy)
  · cases h
    exact h₁

/-- The entries of a new inode and the one for it: only the last is in an older directory. -/
theorem createLinks_fate {space : Nat → Bool} {dp ip : Nat} {name : Name} {type : FileType}
    {ok : Bool} (h : createLinks s space dp ip name type = .ok (ok, s')) {y : Nat} (hy : y ≠ ip) :
    Fate Linked (s.inodes y) (s'.inodes y) := by
  rw [createLinks] at h
  split at h
  · obtain ⟨⟨ok₁, s₁⟩, hdots, h⟩ := bind_ok h
    have h₁ := createDots_fate hdots hy
    simp only at h
    split at h
    · exact h₁.after (dirlink_fate h y).1
    · cases h
      exact h₁.linked
  · exact (dirlink_fate h y).1

/-! ### Creating -/

/-- `ialloc` takes a free inode. -/
theorem ialloc_inodes {type : FileType} {r : Option Nat} (h : Tree.ialloc s type = .ok (r, s'))
    {y : Nat} (hy : (s.inodes y).type ≠ .free) : s'.inodes y = s.inodes y ∧ r ≠ some y := by
  rw [Tree.ialloc] at h
  split at h
  · next ip hip =>
    obtain ⟨s₁, hget, h⟩ := bind_ok h
    cases h
    have hne : y ≠ ip := by
      rintro rfl
      exact hy (freeInode_some hip).1
    rw [iget_inodes hget]
    refine ⟨Function.update_of_ne hne _ _, ?_⟩
    intro he
    exact hne (Option.some.inj he).symm
  · cases h
    exact ⟨rfl, fun he ↦ nomatch he⟩

/-- The inodes in use keep their entries while an inode is created, up to one new entry. -/
theorem createNew_fate {space : Nat → Bool} {dp : Nat} {name : Name} {type : FileType} {major : Int}
    {r : Option Nat} (h : createNew s space dp name type major = .ok (r, s')) {y : Nat}
    (hy : (s.inodes y).type ≠ .free) : Fate Linked (s.inodes y) (s'.inodes y) := by
  obtain ⟨⟨r₁, s₁⟩, halloc, h⟩ := bind_ok h
  obtain ⟨hsame, hne⟩ := ialloc_inodes halloc hy
  rw [← hsame]
  cases r₁ with
  | none =>
    cases h
    exact ((iput_freed s₁ dp).fate y).linked
  | some ip =>
    have hyip : y ≠ ip := fun he ↦ hne (congrArg some he.symm)
    obtain ⟨s₂, hlock, h⟩ := bind_ok h
    obtain ⟨⟨ok, s₃⟩, hlinks, h⟩ := bind_ok h
    have hset : (s₂.setInode ip { s₂.inodes ip with major := major, nlink := 1 }).inodes y =
        s₁.inodes y := by
      rw [← ilock_inodes hlock]
      exact Function.update_of_ne hyip _ _
    have h₁ := createLinks_fate hlinks hyip
    rw [hset] at h₁
    simp only at h
    split at h
    · cases h
      split
      · have hlink := setInode_fate dp (s₃.inodes dp).incLink rfl rfl y
        exact (h₁.trans hlink).trans ((iput_freed _ dp).fate y)
      · exact h₁.trans ((iput_freed s₃ dp).fate y)
    · cases h
      have hzero := setInode_fate ip { s₃.inodes ip with nlink := 0 } rfl rfl y
      exact (h₁.trans hzero).trans (((iput_freed _ ip).trans (iput_freed _ dp)).fate y)

/-- A directory that has a link, or that a file or a process refers to. -/
def InUse (s : Tree.State) (x : Nat) : Prop := (s.inodes x).nlink ≠ 0 ∨ 0 < s.toTables.refs x

/-- A part of a call that moves references does not free an inode in use. -/
theorem InUse.kept {take : Multiset Nat} (h : InUse s x) (hused : (s.inodes x).type ≠ .free)
    (hcount : ∀ y, s.toTables.refs y ≤ s.ref y) (hm : Moves s s' 0 take)
    (hf : Freed s.inodes s'.inodes) : s'.inodes x = s.inodes x := by
  rcases hf x with hx | ⟨hwas, hfree, -⟩
  · exact hx
  · rcases h with hlinks | hrefs
    · rcases hwas with hwas | hwas
      · exact (hused hwas).elim
      · exact (hlinks hwas).elim
    · have hkept := hm.type s.toTables.refs (fun y ↦ by simpa using hcount y) x hrefs hused
      rw [hkept] at hfree
      exact (hused hfree).elim

theorem create_fate {pr : Tree.Proc} {space : Nat → Bool} {path : Path} {type : FileType}
    {major : Int} {r : Option Nat} (h : create s pr space path type major = .ok (r, s'))
    (hcount : ∀ y, s.toTables.refs y ≤ s.ref y) (hx : InUse s x)
    (hused : (s.inodes x).type ≠ .free) : Fate Linked (s.inodes x) (s'.inodes x) := by
  obtain ⟨⟨r₁, s₁⟩, hname, h⟩ := bind_ok h
  have hkept := hx.kept hused hcount (namex_moves hname) (namex_freed hname)
  rw [← hkept] at hused ⊢
  cases r₁ with
  | none =>
    cases h
    exact Or.inr ⟨rfl, Or.inl rfl⟩
  | some q =>
    obtain ⟨dp, name⟩ := q
    obtain ⟨s₂, hlock, h⟩ := bind_ok h
    obtain ⟨⟨r₂, s₃⟩, hlook, h⟩ := bind_ok h
    have hsame : s₃.inodes = s₁.inodes := (dirlookup_inodes hlook).trans (ilock_inodes hlock)
    rw [← hsame] at hused ⊢
    cases r₂ with
    | some q =>
      obtain ⟨k, ip⟩ := q
      obtain ⟨s₄, hlock', h⟩ := bind_ok h
      have hput : Freed s₃.inodes s₄.inodes := by
        rw [ilock_inodes hlock']
        exact iput_freed s₃ dp
      simp only at h
      split at h
      · cases h
        exact (hput.fate x).linked
      · cases h
        exact ((hput.trans (iput_freed s₄ ip)).fate x).linked
    | none => exact createNew_fate h hused

theorem createAndPut_fate {pr : Tree.Proc} {space : Nat → Bool} {path : Option Path}
    {type : FileType} {major : Int} {r : Int}
    (h : createAndPut s pr space path type major = .ok (r, s'))
    (hcount : ∀ y, s.toTables.refs y ≤ s.ref y) (hx : InUse s x)
    (hused : (s.inodes x).type ≠ .free) : Fate Linked (s.inodes x) (s'.inodes x) := by
  cases path with
  | none =>
    cases h
    exact Or.inr ⟨rfl, Or.inl rfl⟩
  | some path =>
    obtain ⟨⟨r₁, s₁⟩, hcreate, h⟩ := bind_ok h
    have h₁ := create_fate hcreate hcount hx hused
    cases r₁ with
    | none =>
      cases h
      exact h₁
    | some ip =>
      cases h
      exact h₁.trans ((iput_freed s₁ ip).fate x)

/-! ### Links -/

theorem linkBad_fate {ip : Nat} {r : Int} (h : linkBad s ip = .ok (r, s')) (y : Nat) :
    Fate Eq (s.inodes y) (s'.inodes y) := by
  obtain ⟨s₁, hlock, h⟩ := bind_ok h
  rw [← ilock_inodes hlock]
  cases h
  exact (setInode_fate ip (s₁.inodes ip).decLink rfl rfl y).trans ((iput_freed _ ip).fate y)

theorem linkInode_fate {pr : Tree.Proc} {space : Nat → Bool} {ip : Nat} {new : Path} {r : Int}
    (h : linkInode s pr space ip new = .ok (r, s')) (y : Nat) :
    Fate Linked (s.inodes y) (s'.inodes y) := by
  obtain ⟨s₁, hlock, h⟩ := bind_ok h
  rw [← ilock_inodes hlock]
  split at h
  · cases h
    exact ((iput_freed s₁ ip).fate y).linked
  · obtain ⟨⟨r₂, s₂⟩, hname, h⟩ := bind_ok h
    have h₂ := (setInode_fate ip (s₁.inodes ip).incLink rfl rfl y).trans
      ((namex_freed hname).fate y)
    cases r₂ with
    | none => exact (h₂.trans (linkBad_fate h y)).linked
    | some q =>
      obtain ⟨dp, name⟩ := q
      obtain ⟨s₃, hlock', h⟩ := bind_ok h
      obtain ⟨⟨ok, s₄⟩, hlink, h⟩ := bind_ok h
      rw [← ilock_inodes hlock'] at h₂
      have h₃ := h₂.after (dirlink_fate hlink y).1
      simp only at h
      split at h
      · cases h
        exact h₃.trans (((iput_freed s₄ dp).trans (iput_freed _ ip)).fate y)
      · exact (h₃.trans ((iput_freed s₄ dp).fate y)).trans (linkBad_fate h y)

theorem sysLink_fate {pr : Tree.Proc} {space : Nat → Bool} {old new : Option Path} {r : Int}
    (h : sysLink s pr space old new = .ok (r, s')) (y : Nat) :
    Fate Linked (s.inodes y) (s'.inodes y) := by
  have hrefl : Fate Linked (s.inodes y) (s.inodes y) := Or.inr ⟨rfl, Or.inl rfl⟩
  cases old with
  | none =>
    cases h
    exact hrefl
  | some old =>
    cases new with
    | none =>
      cases h
      exact hrefl
    | some new =>
      obtain ⟨⟨r₁, s₁⟩, hname, h⟩ := bind_ok h
      have h₁ := (namex_freed hname).fate y
      cases r₁ with
      | none =>
        cases h
        exact h₁.linked
      | some q => exact h₁.after (linkInode_fate h y)

theorem unlinkEntry_fate {dp k ip : Nat} {r : Int} (h : unlinkEntry s dp k ip = .ok (r, s'))
    (y : Nat) : Fate Unlinked (s.inodes y) (s'.inodes y) := by
  obtain ⟨s₁, hlock, h⟩ := bind_ok h
  rw [← ilock_inodes hlock]
  simp only at h
  split at h
  · cases h
  · split at h
    · cases h
      exact (((iput_freed s₁ ip).trans (iput_freed _ dp)).fate y).unlinked
    · cases h
      generalize hd : (if (s₁.inodes ip).type = .dir then
        Inode.decLink { s₁.inodes dp with entries := (s₁.inodes dp).entries.set k ⟨0, []⟩ }
        else { s₁.inodes dp with entries := (s₁.inodes dp).entries.set k ⟨0, []⟩ }) = d
      have htype : d.type = (s₁.inodes dp).type := by
        rw [← hd]
        split <;> rfl
      have hentries : d.entries = (s₁.inodes dp).entries.set k ⟨0, []⟩ := by
        rw [← hd]
        split <;> rfl
      have h₁ : Fate Unlinked (s₁.inodes y) ((s₁.setInode dp d).inodes y) := by
        change Fate Unlinked _ (Function.update s₁.inodes dp d y)
        rw [Function.update_apply]
        split
        · next hy =>
          rw [hy]
          exact Or.inr ⟨htype, Or.inr ⟨k, hentries⟩⟩
        · exact Or.inr ⟨rfl, Or.inl rfl⟩
      generalize ht : Tree.iput (s₁.setInode dp d) dp = t
      have h₂ := h₁.trans ((iput_freed (s₁.setInode dp d) dp).fate y)
      rw [ht] at h₂
      have h₃ := h₂.trans (setInode_fate ip (t.inodes ip).decLink rfl rfl y)
      exact h₃.trans ((iput_freed _ ip).fate y)

theorem sysUnlink_fate {pr : Tree.Proc} {path : Option Path} {r : Int}
    (h : sysUnlink s pr path = .ok (r, s')) (y : Nat) :
    Fate Unlinked (s.inodes y) (s'.inodes y) := by
  cases path with
  | none =>
    cases h
    exact Or.inr ⟨rfl, Or.inl rfl⟩
  | some path =>
    obtain ⟨⟨r₁, s₁⟩, hname, h⟩ := bind_ok h
    have h₁ := (namex_freed hname).fate y
    cases r₁ with
    | none =>
      cases h
      exact h₁.unlinked
    | some q =>
      obtain ⟨dp, name⟩ := q
      obtain ⟨s₂, hlock, h⟩ := bind_ok h
      rw [← ilock_inodes hlock] at h₁
      simp only at h
      split at h
      · cases h
        exact (h₁.trans ((iput_freed s₂ dp).fate y)).unlinked
      · obtain ⟨⟨r₃, s₃⟩, hlook, h⟩ := bind_ok h
        rw [← dirlookup_inodes hlook] at h₁
        cases r₃ with
        | none =>
          cases h
          exact (h₁.trans ((iput_freed s₃ dp).fate y)).unlinked
        | some e => exact h₁.after (unlinkEntry_fate h y)

/-! ### Files and references -/

theorem tree_fileclose_freed {f : Fin NFILE} (h : Tree.fileclose s f = .ok s') :
    Freed s.inodes s'.inodes := by
  rw [Tree.fileclose] at h
  split at h
  · cases h
  · split at h
    · cases h
      exact Freed.refl _
    · cases h
      exact iput_freed _ _

theorem openFile_freed {p : Tree.Slot} {pr : Tree.Proc} {ip : Nat} {omode : UInt32} {r : Int}
    (h : openFile s p pr ip omode = .ok (r, s')) : Freed s.inodes s'.inodes := by
  rw [openFile] at h
  split at h
  · cases h
    exact iput_freed s ip
  · split at h
    · obtain ⟨s₁, hclose, h⟩ := bind_ok h
      cases h
      exact (tree_fileclose_freed hclose).trans (iput_freed s₁ ip)
    · cases h
      exact Freed.refl _

/-- `sys_open` makes at most one entry, and none without `O_CREATE`. -/
theorem openInode_fate {pr : Tree.Proc} {space : Nat → Bool} {path : Path} {omode : UInt32}
    {r : Option Nat} (h : openInode s pr space path omode = .ok (r, s'))
    (hcount : ∀ y, s.toTables.refs y ≤ s.ref y) (hx : InUse s x)
    (hused : (s.inodes x).type ≠ .free) :
    Fate (if omode &&& O_CREATE ≠ 0 then Linked else Eq) (s.inodes x) (s'.inodes x) := by
  rw [openInode] at h
  split at h
  · next hcreate =>
    rw [if_pos hcreate]
    exact create_fate h hcount hx hused
  · next hopen =>
    rw [if_neg hopen]
    obtain ⟨⟨r₁, s₁⟩, hname, h⟩ := bind_ok h
    have h₁ := namex_freed hname
    cases r₁ with
    | none =>
      cases h
      exact h₁.fate x
    | some q =>
      obtain ⟨s₂, hlock, h⟩ := bind_ok h
      rw [← ilock_inodes hlock] at h₁
      split at h
      · cases h
        exact (h₁.trans (iput_freed s₂ q.1)).fate x
      · cases h
        exact h₁.fate x

theorem sysOpen_fate {p : Tree.Slot} {pr : Tree.Proc} {space : Nat → Bool} {path : Option Path}
    {omode : UInt32} {r : Int} (h : sysOpen s p pr space path omode = .ok (r, s'))
    (hcount : ∀ y, s.toTables.refs y ≤ s.ref y) (hx : InUse s x)
    (hused : (s.inodes x).type ≠ .free) :
    Fate (if omode &&& O_CREATE ≠ 0 then Linked else Eq) (s.inodes x) (s'.inodes x) := by
  cases path with
  | none =>
    cases h
    have hsame := (Freed.refl s.inodes).fate x
    split
    · exact hsame.linked
    · exact hsame
  | some path =>
    obtain ⟨⟨r₁, s₁⟩, hopen, h⟩ := bind_ok h
    have h₁ := openInode_fate hopen hcount hx hused
    cases r₁ with
    | none =>
      cases h
      exact h₁
    | some ip =>
      simp only at h
      split at h
      · cases h
        exact h₁.trans ((iput_freed s₁ ip).fate x)
      · exact h₁.trans ((openFile_freed h).fate x)

theorem sysChdir_freed {p : Tree.Slot} {pr : Tree.Proc} {path : Option Path} {r : Int}
    (h : sysChdir s p pr path = .ok (r, s')) : Freed s.inodes s'.inodes := by
  cases path with
  | none =>
    cases h
    exact Freed.refl _
  | some path =>
    obtain ⟨⟨r₁, s₁⟩, hname, h⟩ := bind_ok h
    have h₁ := namex_freed hname
    cases r₁ with
    | none =>
      cases h
      exact h₁
    | some q =>
      obtain ⟨s₂, hlock, h⟩ := bind_ok h
      rw [← ilock_inodes hlock] at h₁
      split at h
      · cases h
        exact h₁.trans (iput_freed s₂ q.1)
      · cases h
        exact h₁.trans (iput_freed s₂ pr.cwd)

theorem filedup_inodes {f : Fin NFILE} (h : Tree.filedup s f = .ok s') : s'.inodes = s.inodes := by
  rw [Tree.filedup] at h
  split at h
  · cases h
  · cases h
    rfl

theorem sysDup_inodes {p : Tree.Slot} {pr : Tree.Proc} {fd r : Int}
    (h : Tree.sysDup s p pr fd = .ok (r, s')) : s'.inodes = s.inodes := by
  rw [Tree.sysDup] at h
  split at h
  · cases h
    rfl
  · split at h
    · cases h
      rfl
    · obtain ⟨s₁, hdup, h⟩ := bind_ok h
      have hsame := filedup_inodes hdup
      cases h
      exact hsame

theorem dupFiles_inodes {pr : Tree.Proc} {fds : List (Fin NOFILE)}
    (h : Tree.dupFiles s pr fds = .ok s') : s'.inodes = s.inodes := by
  induction fds generalizing s with
  | nil =>
    cases h
    rfl
  | cons fd fds ih =>
    rw [Tree.dupFiles] at h
    split at h
    · exact ih h
    · obtain ⟨s₁, hdup, h⟩ := bind_ok h
      exact (ih h).trans (filedup_inodes hdup)

theorem sysFork_inodes {pr : Tree.Proc} {q : Tree.Slot} (h : Tree.sysFork s pr q = .ok s') :
    s'.inodes = s.inodes := by
  obtain ⟨s₁, hdup, h⟩ := bind_ok h
  have hsame := dupFiles_inodes hdup
  cases h
  exact hsame

end

section
variable {s s' : State}

theorem fileclose_freed {f : Fin NFILE} (h : fileclose s f = .ok s') :
    Freed s.inodes s'.inodes := by
  rw [fileclose] at h
  dsimp only at h
  split at h
  · cases h
  · split at h
    · cases h
      exact Freed.refl _
    · split at h
      · cases h
        exact Freed.refl _
      · cases h
        exact iput_freed _ _
      · cases h
        exact Freed.refl _

theorem sysClose_freed {p : Tree.Slot} {pr : Tree.Proc} {fd r : Int}
    (h : sysClose s p pr fd = .ok (r, s')) : Freed s.inodes s'.inodes := by
  rw [sysClose] at h
  split at h
  · cases h
    exact Freed.refl _
  · obtain ⟨s₁, hclose, h⟩ := bind_ok h
    have hfreed := fileclose_freed hclose
    cases h
    exact hfreed

theorem closeBoth_freed {rf wf : Fin NFILE} {r : Int} (h : closeBoth s rf wf = .ok (r, s')) :
    Freed s.inodes s'.inodes := by
  obtain ⟨s₁, hr, h⟩ := bind_ok h
  obtain ⟨s₂, hw, h⟩ := bind_ok h
  cases h
  exact (fileclose_freed hr).trans (fileclose_freed hw)

theorem filealloc_inodes {f : Fin NFILE} (h : filealloc s = some (f, s')) :
    s'.inodes = s.inodes := by
  obtain ⟨g, -, heq⟩ := Option.map_eq_some_iff.mp h
  cases heq
  rfl

theorem pipealloc_freed {kalloc : Bool} {r : Option (Fin NFILE × Fin NFILE)}
    (h : pipealloc s kalloc = .ok (r, s')) : Freed s.inodes s'.inodes := by
  rw [pipealloc] at h
  split at h
  · cases h
    exact Freed.refl _
  · next f0 s₁ h0 =>
    rw [← filealloc_inodes h0]
    split at h
    · obtain ⟨s₂, hclose, h⟩ := bind_ok h
      cases h
      exact fileclose_freed hclose
    · next f1 s₂ h1 =>
      rw [← filealloc_inodes h1]
      split at h
      · cases h
        exact Freed.refl _
      · obtain ⟨s₃, hclose, h⟩ := bind_ok h
        obtain ⟨s₄, hclose', h⟩ := bind_ok h
        cases h
        exact (fileclose_freed hclose).trans (fileclose_freed hclose')

theorem sysPipe_freed {p : Tree.Slot} {pr : Tree.Proc} {kalloc copyout : Bool} {r : Int}
    (h : sysPipe s p pr kalloc copyout = .ok (r, s')) : Freed s.inodes s'.inodes := by
  obtain ⟨⟨r₁, s₁⟩, halloc, h⟩ := bind_ok h
  apply (pipealloc_freed halloc).trans
  cases r₁ with
  | none =>
    cases h
    exact Freed.refl _
  | some q =>
    simp only at h
    split at h
    · exact closeBoth_freed h
    · split at h
      · have hfreed := closeBoth_freed h
        exact hfreed
      · split at h
        · cases h
          exact Freed.refl _
        · have hfreed := closeBoth_freed h
          exact hfreed

theorem closeFiles_freed {p : Tree.Slot} {pr : Tree.Proc} {fds : List (Fin NOFILE)}
    (h : closeFiles p fds s pr = .ok s') : Freed s.inodes s'.inodes := by
  induction fds generalizing s pr with
  | nil =>
    cases h
    exact Freed.refl _
  | cons fd fds ih =>
    rw [closeFiles] at h
    split at h
    · exact ih h
    · obtain ⟨s₁, hclose, h⟩ := bind_ok h
      have hrest := ih h
      exact (fileclose_freed hclose).trans hrest

theorem sysExit_freed {p : Tree.Slot} {pr : Tree.Proc} (h : sysExit s p pr = .ok s') :
    Freed s.inodes s'.inodes := by
  obtain ⟨s₁, hclose, h⟩ := bind_ok h
  cases h
  exact (closeFiles_freed hclose).trans (iput_freed s₁.toState pr.cwd)

theorem sysExec_freed {pr : Tree.Proc} {path : Option Path} (h : sysExec s pr path = .ok s') :
    Freed s.inodes s'.inodes := by
  cases path with
  | none =>
    cases h
    exact Freed.refl _
  | some path =>
    obtain ⟨⟨r₁, t₁⟩, hname, h⟩ := bind_ok h
    have h₁ := namex_freed hname
    cases r₁ with
    | none =>
      cases h
      exact h₁
    | some q =>
      obtain ⟨t₂, hlock, h⟩ := bind_ok h
      cases h
      rw [← ilock_inodes hlock] at h₁
      exact h₁.trans (iput_freed t₂ q.1)

/-! ### Any call -/

/-- How a call may change the entries of a directory: the calls that create or link make one entry,
`unlink` clears one, and the others leave them as they are. -/
def Call.writes : Call → List Dirent → List Dirent → Prop
  | .sysOpen _ _ omode _ => if omode &&& O_CREATE ≠ 0 then Linked else Eq
  | .sysMkdir .. | .sysMknod .. | .sysLink .. => Linked
  | .sysUnlink .. => Unlinked
  | .sysDup .. | .sysClose .. | .sysPipe .. | .sysFork .. | .sysExec .. | .sysChdir .. | .sysExit _
  | .sysWait _ => Eq

theorem exec_fate {c : Call} {pr : Tree.Proc} (h : c.exec s pr = .ok s')
    (hcount : ∀ y, s.toTables.refs y ≤ s.ref y) {x : Nat} (hx : InUse s.toState x)
    (hused : (s.inodes x).type ≠ .free) : Fate c.writes (s.inodes x) (s'.inodes x) := by
  cases c with
  | sysOpen p path omode space =>
    obtain ⟨n, t, hr, rfl⟩ := lift_ok h
    exact sysOpen_fate hr hcount hx hused
  | sysMkdir p path space | sysMknod p path major space =>
    obtain ⟨n, t, hr, rfl⟩ := lift_ok h
    exact createAndPut_fate hr hcount hx hused
  | sysLink p old new space =>
    obtain ⟨n, t, hr, rfl⟩ := lift_ok h
    exact sysLink_fate hr x
  | sysUnlink p path =>
    obtain ⟨n, t, hr, rfl⟩ := lift_ok h
    exact sysUnlink_fate hr x
  | sysDup p fd =>
    obtain ⟨n, t, hr, rfl⟩ := lift_ok h
    have hsame : t.inodes = s.inodes := sysDup_inodes hr
    exact Or.inr ⟨congrArg Inode.type (congrFun hsame x),
      congrArg Inode.entries (congrFun hsame x).symm⟩
  | sysChdir p path =>
    obtain ⟨n, t, hr, rfl⟩ := lift_ok h
    exact (sysChdir_freed hr).fate x
  | sysClose p fd =>
    obtain ⟨n, hr⟩ := map_snd_ok h
    exact (sysClose_freed hr).fate x
  | sysPipe p kalloc copyout =>
    obtain ⟨n, hr⟩ := map_snd_ok h
    exact (sysPipe_freed hr).fate x
  | sysFork p q =>
    cases q with
    | none =>
      cases h
      exact (Freed.refl s.inodes).fate x
    | some q =>
      simp only [Call.exec] at h
      split at h
      · cases h
      · cases hr : Tree.sysFork s.toState pr q with
        | error e =>
          rw [hr] at h
          cases h
        | ok t =>
          rw [hr] at h
          cases h
          have hsame : t.inodes = s.inodes := sysFork_inodes hr
          exact Or.inr ⟨congrArg Inode.type (congrFun hsame x),
            congrArg Inode.entries (congrFun hsame x).symm⟩
  | sysExec p path => exact (sysExec_freed h).fate x
  | sysExit p =>
    simp only [Call.exec] at h
    split at h
    · cases h
    · exact (sysExit_freed h).fate x
  | sysWait p =>
    cases h
    exact (Freed.refl s.inodes).fate x

end

end Xv6.Fd
