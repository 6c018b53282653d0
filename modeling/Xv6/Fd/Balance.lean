import Mathlib.Data.Multiset.Count
import Xv6.Fd.Model
import Xv6.Tree.Steps

/-!
# References to inodes that a call holds

`Moves s s' give take` says that between two states a call gave back the references `give` and got
the references `take`, and that it left the tables alone. Whatever an `iput` frees, and whatever the
link counts say, each function takes one reference for each inode that it returns, and an inode to
which somebody else has a reference keeps its type.
-/

namespace Xv6.Fd

open Xv6.Lib

/-- The references that come with a result. -/
def gain (r : Option Nat) : Multiset Nat := r.elim 0 (fun x ↦ {x})

/-- Inodes that the table has read are in use. -/
def ValidUsed (s : Tree.State) : Prop := ∀ x, s.valid x = true → (s.inodes x).type ≠ .free

/-- A part of a call that turns the references `give` into the references `take`. An inode with
references besides `give` keeps its type. -/
structure Moves (s s' : Tree.State) (give take : Multiset Nat) : Prop where
  tables : s'.toTables = s.toTables
  count : (∀ x, give.count x ≤ s.ref x) → ∀ x, s'.ref x + give.count x = s.ref x + take.count x
  type : ∀ base : Nat → Nat, (∀ x, base x + give.count x ≤ s.ref x) → ∀ x, 0 < base x →
    (s.inodes x).type ≠ .free → (s'.inodes x).type = (s.inodes x).type
  valid : ValidUsed s → ValidUsed s'

section
variable {s s' s'' : Tree.State} {give take rest : Multiset Nat} {x : Nat}

theorem Moves.refl (s : Tree.State) : Moves s s 0 0 :=
  ⟨rfl, fun _ _ ↦ rfl, fun _ _ _ _ _ ↦ rfl, id⟩

theorem Moves.frame (h : Moves s s' give take) (rest : Multiset Nat) :
    Moves s s' (give + rest) (take + rest) := by
  refine ⟨h.tables, ?_, ?_, h.valid⟩
  · intro hle x
    have hgive (y : Nat) : give.count y ≤ s.ref y := by
      have := hle y
      rw [Multiset.count_add] at this
      omega
    have := h.count hgive x
    rw [Multiset.count_add, Multiset.count_add]
    omega
  · intro base hle x hx
    refine h.type (fun y ↦ base y + rest.count y) ?_ x (by omega)
    intro y
    have := hle y
    rw [Multiset.count_add] at this
    omega

theorem Moves.self (s : Tree.State) (give : Multiset Nat) : Moves s s give give := by
  have := (Moves.refl s).frame give
  rwa [zero_add] at this

theorem Moves.trans (h : Moves s s' give take) (h' : Moves s' s'' take rest) :
    Moves s s'' give rest := by
  refine ⟨h'.tables.trans h.tables, ?_, ?_, fun hv ↦ h'.valid (h.valid hv)⟩
  · intro hle
    have h₁ := h.count hle
    have hle' (x : Nat) : take.count x ≤ s'.ref x := by
      have := h₁ x
      have := hle x
      omega
    intro x
    have h₂ := h'.count hle' x
    have := h₁ x
    omega
  · intro base hle x hx hfree
    have hcount := h.count (fun y ↦ by have := hle y; omega)
    have hle' (y : Nat) : base y + take.count y ≤ s'.ref y := by
      have := hle y
      have := hcount y
      omega
    have htype := h.type base hle x hx hfree
    exact (h'.type base hle' x hx (by rw [htype]; exact hfree)).trans htype

/-- A part that takes no references, after one that did. -/
theorem Moves.then (h : Moves s s' give take) (h' : Moves s' s'' 0 rest) :
    Moves s s'' give (rest + take) := by
  apply h.trans
  have := h'.frame take
  rwa [zero_add] at this

/-- The inodes keep their types, and no reference is taken. -/
theorem Moves.of_ref (ht : s'.toTables = s.toTables) (hr : s'.ref = s.ref)
    (hi : ∀ x, (s'.inodes x).type = (s.inodes x).type)
    (hv : ∀ x, s'.valid x = true → s.valid x = true ∨ (s.inodes x).type ≠ .free) :
    Moves s s' 0 0 := by
  refine ⟨ht, ?_, fun _ _ x _ _ ↦ hi x, ?_⟩
  · intro _ x
    rw [hr]
  · intro hused x hx
    rw [hi x]
    rcases hv x hx with hs | hs
    · exact hused x hs
    · exact hs

theorem Moves.swap {a b : Multiset Nat} (h : Moves s s' give (a + b)) :
    Moves s s' give (b + a) := by
  rwa [add_comm]

/-- One inode changes, and keeps its type if it was in use. -/
theorem setInode_moves (s : Tree.State) (x : Nat) {ip : Tree.Inode}
    (htype : (s.inodes x).type ≠ .free → ip.type = (s.inodes x).type) :
    Moves s (s.setInode x ip) 0 0 := by
  have hinode (y : Nat) : (s.setInode x ip).inodes y = if y = x then ip else s.inodes y :=
    Function.update_apply ..
  refine ⟨rfl, fun _ _ ↦ rfl, ?_, ?_⟩
  · intro _ _ y _ hy
    rw [hinode]
    split
    · next hyx =>
      rw [hyx] at hy ⊢
      exact htype hy
    · rfl
  · intro hused y hy
    rw [hinode]
    split
    · next hyx =>
      rw [hyx] at hy
      have hin := hused x hy
      rw [htype hin]
      exact hin
    · exact hused y hy

theorem add_moves {valid : Nat → Bool} (x n : Nat) (hn : n = s.ref x + 1)
    (hv : ∀ y, valid y = true → s.valid y = true) :
    Moves s { s with ref := Function.update s.ref x n, valid := valid } 0 {x} := by
  refine ⟨rfl, ?_, fun _ _ _ _ _ ↦ rfl, fun hused y hy ↦ hused y (hv y hy)⟩
  intro _ y
  rw [Multiset.count_zero, Multiset.count_singleton]
  by_cases hy : y = x
  · rw [hy, if_pos rfl]
    simp only [Function.update_self]
    omega
  · rw [if_neg hy]
    simp only [Function.update_of_ne hy]

theorem iget_moves (h : Tree.iget s x = .ok s') : Moves s s' 0 {x} := by
  rw [Tree.iget] at h
  split at h
  · cases h
    exact add_moves x _ rfl (fun _ hy ↦ hy)
  · split at h
    · cases h
    · next hzero _ =>
      cases h
      refine add_moves x 1 (by omega) ?_
      intro y hy
      rw [Function.update_apply] at hy
      split at hy
      · cases hy
      · exact hy

theorem idup_moves (s : Tree.State) (x : Nat) : Moves s (Tree.idup s x) 0 {x} :=
  add_moves x _ rfl (fun _ hy ↦ hy)

theorem ilock_moves (h : Tree.ilock s x = .ok s') : Moves s s' 0 0 := by
  rw [Tree.ilock] at h
  split at h
  · cases h
  · split at h
    · cases h
      exact Moves.refl s
    · split at h
      · cases h
      · next hused =>
        cases h
        refine Moves.of_ref rfl rfl (fun _ ↦ rfl) ?_
        intro y hy
        simp only [Function.update_apply] at hy
        split at hy
        · next hyx =>
          rw [hyx]
          exact Or.inr hused
        · exact Or.inl hy

/-- A locked inode has been read. -/
theorem ilock_valid (h : Tree.ilock s x = .ok s') : s'.valid x = true := by
  rw [Tree.ilock] at h
  split at h
  · cases h
  · split at h
    · next hv =>
      cases h
      exact hv
    · split at h
      · cases h
      · cases h
        exact Function.update_self ..

theorem iput_ref (s : Tree.State) (x y : Nat) :
    (Tree.iput s x).ref y = if y = x then s.ref x - 1 else s.ref y := by
  rw [Tree.iput]
  split
  · next hlast =>
    simp only [Function.update_apply]
    split
    · omega
    · rfl
  · simp only [Function.update_apply]

theorem iput_toTables (s : Tree.State) (x : Nat) : (Tree.iput s x).toTables = s.toTables := by
  rw [Tree.iput]
  split <;> rfl

/-- What `iput` does to an inode: it may free the one it puts. -/
theorem iput_inodes (s : Tree.State) (x y : Nat) : (Tree.iput s x).inodes y =
    if y = x ∧ s.ref x = 1 ∧ s.valid x = true ∧ (s.inodes x).nlink = 0 then (s.inodes x).freed
    else s.inodes y := by
  rw [Tree.iput]
  split
  · next hlast =>
    simp only [Function.update_apply]
    by_cases hy : y = x
    · rw [if_pos hy, if_pos ⟨hy, hlast⟩]
    · rw [if_neg hy, if_neg (fun h ↦ hy h.1)]
  · next hlast => rw [if_neg (fun h ↦ hlast h.2)]

theorem iput_moves (s : Tree.State) (x : Nat) : Moves s (Tree.iput s x) {x} 0 := by
  refine ⟨iput_toTables s x, ?_, ?_, ?_⟩
  · intro hle y
    have hx := hle x
    rw [Multiset.count_singleton_self] at hx
    rw [iput_ref, Multiset.count_singleton, Multiset.count_zero]
    split
    · next hy =>
      rw [hy]
      omega
    · rfl
  · -- with another reference the count is at least 2
    intro base hle y hy _
    have hx := hle x
    rw [Multiset.count_singleton_self] at hx
    rw [iput_inodes, if_neg]
    rintro ⟨rfl, hone, -⟩
    omega
  · intro hused y
    rw [iput_inodes, Tree.iput]
    split
    · next hlast =>
      intro hy
      simp only [Function.update_apply] at hy
      split at hy
      · cases hy
      · next hyx =>
        rw [if_neg (fun h ↦ hyx h.1)]
        exact hused y hy
    · next hlast =>
      intro hy
      rw [if_neg (fun h ↦ hlast h.2)]
      exact hused y hy

/-- Give back the last reference taken. -/
theorem Moves.put (h : Moves s s' give ({x} + rest)) : Moves s (Tree.iput s' x) give rest := by
  have := h.trans ((iput_moves s' x).frame rest)
  rwa [zero_add] at this

theorem Moves.putLast (h : Moves s s' give {x}) : Moves s (Tree.iput s' x) give 0 :=
  h.trans (iput_moves s' x)

theorem Moves.lock (h : Moves s s' give take) (hl : Tree.ilock s' x = .ok s'') :
    Moves s s'' give take := by
  have := h.then (ilock_moves hl)
  rwa [zero_add] at this

theorem Moves.set (h : Moves s s' give take) (x : Nat) (ip : Tree.Inode)
    (htype : ip.type = (s'.inodes x).type) : Moves s (s'.setInode x ip) give take := by
  have := h.then (setInode_moves s' x (fun _ ↦ htype))
  rwa [zero_add] at this

/-! ### Directories and paths -/

theorem ialloc_moves {type : Tree.FileType} {r : Option Nat}
    (h : Tree.ialloc s type = .ok (r, s')) :
    Moves s s' 0 (gain r) := by
  rw [Tree.ialloc] at h
  split at h
  · next y hy =>
    obtain ⟨s₁, hget, h⟩ := bind_ok h
    cases h
    have hfree := (Tree.freeInode_some hy).1
    exact (setInode_moves s y (fun hused ↦ (hused hfree).elim)).trans (iget_moves hget)
  · cases h
    exact Moves.refl s

theorem dirlookup_moves {dp : Nat} {name : Tree.Name} {r : Option (Nat × Nat)}
    (h : Tree.dirlookup s dp name = .ok (r, s')) : Moves s s' 0 (gain (r.map Prod.snd)) := by
  rw [Tree.dirlookup] at h
  split at h
  · cases h
  · split at h
    · cases h
      exact Moves.refl s
    · obtain ⟨s₁, hget, h⟩ := bind_ok h
      cases h
      exact iget_moves hget

theorem dirlink_moves {space : Bool} {dp inum : Nat} {name : Tree.Name} {ok : Bool}
    (h : Tree.dirlink s space dp name inum = .ok (ok, s')) : Moves s s' 0 0 := by
  obtain ⟨⟨r, s₁⟩, hlook, h⟩ := bind_ok h
  have h₁ := dirlookup_moves hlook
  cases r with
  | some q =>
    cases h
    exact h₁.trans (iput_moves s₁ q.2)
  | none =>
    simp only at h
    split at h
    · cases h
      exact h₁.set dp _ rfl
    · cases h
      exact h₁

theorem namexEnd_moves {parent : Bool} {ip : Nat} {r : Option (Nat × Tree.Name)}
    (h : Tree.namexEnd parent s ip = (r, s')) : Moves s s' {ip} (gain (r.map Prod.fst)) := by
  rw [Tree.namexEnd] at h
  split at h
  · cases h
    exact iput_moves s ip
  · cases h
    exact Moves.self s {ip}

theorem namexLoop_moves {parent : Bool} {fuel ip : Nat} {path : Tree.Path}
    {r : Option (Nat × Tree.Name)} (h : Tree.namexLoop parent fuel s ip path = .ok (r, s')) :
    Moves s s' {ip} (gain (r.map Prod.fst)) := by
  induction fuel generalizing s ip path with
  | zero => exact namexEnd_moves (Except.ok.inj h)
  | succ fuel ih =>
    rw [Tree.namexLoop] at h
    split at h
    · exact namexEnd_moves (Except.ok.inj h)
    · next name rest _ =>
      obtain ⟨s₁, hlock, h⟩ := bind_ok h
      have h₁ := (Moves.self s {ip}).lock hlock
      split at h
      · cases h
        exact h₁.trans (iput_moves s₁ ip)
      · split at h
        · cases h
          exact h₁
        · obtain ⟨⟨next, s₂⟩, hlook, h⟩ := bind_ok h
          have h₂ := (h₁.then (dirlookup_moves hlook)).swap
          cases next with
          | none =>
            cases h
            exact h₂.put
          | some q =>
            exact h₂.put.trans (ih h)

theorem namex_moves {pr : Tree.Proc} {parent : Bool} {path : Tree.Path}
    {r : Option (Nat × Tree.Name)} (h : Tree.namex s pr parent path = .ok (r, s')) :
    Moves s s' 0 (gain (r.map Prod.fst)) := by
  rw [Tree.namex] at h
  split at h
  · obtain ⟨s₁, hget, h⟩ := bind_ok h
    exact (iget_moves hget).trans (namexLoop_moves h)
  · exact (idup_moves s pr.cwd).trans (namexLoop_moves h)

/-! ### Creating and linking -/

theorem Moves.link (h : Moves s s' give take) {space : Bool} {dp inum : Nat} {name : Tree.Name}
    {ok : Bool} (hl : Tree.dirlink s' space dp name inum = .ok (ok, s'')) :
    Moves s s'' give take := by
  have := h.then (dirlink_moves hl)
  rwa [zero_add] at this

theorem createDots_moves {space : Bool} {dp ip : Nat} {ok : Bool}
    (h : Tree.createDots s space dp ip = .ok (ok, s')) : Moves s s' 0 0 := by
  obtain ⟨⟨ok₁, s₁⟩, hdot, h⟩ := bind_ok h
  have h₁ := dirlink_moves hdot
  simp only at h
  split at h
  · exact h₁.link h
  · cases h
    exact h₁

theorem createLinks_moves {space : Nat → Bool} {dp ip : Nat} {name : Tree.Name}
    {type : Tree.FileType} {ok : Bool}
    (h : Tree.createLinks s space dp ip name type = .ok (ok, s')) : Moves s s' 0 0 := by
  rw [Tree.createLinks] at h
  split at h
  · obtain ⟨⟨ok₁, s₁⟩, hdots, h⟩ := bind_ok h
    have h₁ := createDots_moves hdots
    simp only at h
    split at h
    · exact h₁.link h
    · cases h
      exact h₁
  · exact dirlink_moves h

/-- After a `create` that succeeds allocated the inode, it gives the directory back. -/
theorem createNew_some {space : Nat → Bool} {dp ip : Nat} {name : Tree.Name} {type : Tree.FileType}
    {major : Int} (h : Tree.createNew s space dp name type major = .ok (some ip, s')) :
    ∃ s₁, Tree.ialloc s type = .ok (some ip, s₁) ∧ Moves s₁ s' {dp} 0 := by
  obtain ⟨⟨r₁, s₁⟩, halloc, h⟩ := bind_ok h
  cases r₁ with
  | none => cases h
  | some ip' =>
    obtain ⟨s₂, hlock, h⟩ := bind_ok h
    obtain ⟨⟨ok, s₃⟩, hlinks, h⟩ := bind_ok h
    have h₂ := (((Moves.self s₁ {dp}).lock hlock).set ip'
      { s₂.inodes ip' with major := major, nlink := 1 } rfl).then
      (createLinks_moves hlinks)
    rw [zero_add] at h₂
    simp only at h
    split at h
    · cases h
      refine ⟨s₁, halloc, ?_⟩
      split
      · exact (h₂.set dp (s₃.inodes dp).incLink rfl).putLast
      · exact h₂.putLast
    · cases h

/-- `create` gives the directory back and returns the new inode with a reference. -/
theorem createNew_moves {space : Nat → Bool} {dp : Nat} {name : Tree.Name} {type : Tree.FileType}
    {major : Int} {r : Option Nat} (h : Tree.createNew s space dp name type major = .ok (r, s')) :
    Moves s s' {dp} (gain r) := by
  cases r with
  | some ip =>
    obtain ⟨s₁, halloc, hm⟩ := createNew_some h
    have h₁ := (Moves.self s {dp}).then (ialloc_moves halloc)
    have h₂ := h₁.swap.trans (hm.frame {ip})
    rwa [zero_add] at h₂
  | none =>
    obtain ⟨⟨r₁, s₁⟩, halloc, h⟩ := bind_ok h
    have h₁ := (Moves.self s {dp}).then (ialloc_moves halloc)
    cases r₁ with
    | none =>
      cases h
      exact h₁.swap.put
    | some ip =>
      obtain ⟨s₂, hlock, h⟩ := bind_ok h
      obtain ⟨⟨ok, s₃⟩, hlinks, h⟩ := bind_ok h
      have h₂ := ((h₁.lock hlock).set ip { s₂.inodes ip with major := major, nlink := 1 } rfl).then
        (createLinks_moves hlinks)
      rw [zero_add] at h₂
      simp only at h
      split at h
      · cases h
      · cases h
        exact (h₂.set ip { s₃.inodes ip with nlink := 0 } rfl).put.putLast

theorem iget_inodes (h : Tree.iget s x = .ok s') : s'.inodes = s.inodes := by
  rw [Tree.iget] at h
  split at h
  · cases h
    rfl
  · split at h
    · cases h
    · cases h
      rfl

/-- The new inode has the type that was asked for. -/
theorem createNew_type {space : Nat → Bool} {dp ip : Nat} {name : Tree.Name} {type : Tree.FileType}
    {major : Int} (htype : type ≠ .free) (hle : ∀ x, ({dp} : Multiset Nat).count x ≤ s.ref x)
    (h : Tree.createNew s space dp name type major = .ok (some ip, s')) :
    (s'.inodes ip).type = type := by
  obtain ⟨s₁, halloc, hm⟩ := createNew_some h
  have hcount := (ialloc_moves halloc).count (fun x ↦ by rw [Multiset.count_zero]; omega)
  have hnew : (s₁.inodes ip).type = type := by
    rw [Tree.ialloc] at halloc
    split at halloc
    · obtain ⟨s₂, hget, halloc⟩ := bind_ok halloc
      cases halloc
      rw [iget_inodes hget, Tree.State.setInode]
      simp only [Function.update_self]
    · cases halloc
  rw [← hnew]
  -- `create` has a reference of its own to the new inode
  refine hm.type (fun y ↦ ({ip} : Multiset Nat).count y) ?_ ip ?_ (by rw [hnew]; exact htype)
  · intro y
    have h₁ := hcount y
    have h₂ := hle y
    rw [Multiset.count_zero] at h₁
    change s₁.ref y + 0 = s.ref y + ({ip} : Multiset Nat).count y at h₁
    omega
  · simp only [Multiset.count_singleton_self, Nat.zero_lt_one]

theorem create_moves {pr : Tree.Proc} {space : Nat → Bool} {path : Tree.Path} {type : Tree.FileType}
    {major : Int} {r : Option Nat} (h : Tree.create s pr space path type major = .ok (r, s')) :
    Moves s s' 0 (gain r) := by
  obtain ⟨⟨r₁, s₁⟩, hname, h⟩ := bind_ok h
  have h₁ := namex_moves hname
  cases r₁ with
  | none =>
    cases h
    exact h₁
  | some q =>
    obtain ⟨dp, name⟩ := q
    obtain ⟨s₂, hlock, h⟩ := bind_ok h
    obtain ⟨⟨r₂, s₃⟩, hlook, h⟩ := bind_ok h
    have h₂ := (h₁.lock hlock).then (dirlookup_moves hlook)
    cases r₂ with
    | some q =>
      obtain ⟨k, ip⟩ := q
      obtain ⟨s₄, hlock', h⟩ := bind_ok h
      have h₃ := h₂.swap.put.lock hlock'
      simp only at h
      split at h
      · cases h
        exact h₃
      · cases h
        exact h₃.putLast
    | none =>
      exact h₂.trans (createNew_moves h)

theorem openInode_moves {pr : Tree.Proc} {space : Nat → Bool} {path : Tree.Path} {omode : UInt32}
    {r : Option Nat} (h : Tree.openInode s pr space path omode = .ok (r, s')) :
    Moves s s' 0 (gain r) := by
  rw [Tree.openInode] at h
  split at h
  · exact create_moves h
  · obtain ⟨⟨r₁, s₁⟩, hname, h⟩ := bind_ok h
    have h₁ := namex_moves hname
    cases r₁ with
    | none =>
      cases h
      exact h₁
    | some q =>
      obtain ⟨s₂, hlock, h⟩ := bind_ok h
      have h₂ := h₁.lock hlock
      split at h
      · cases h
        exact h₂.putLast
      · cases h
        exact h₂

/-- `create` of a file returns a file or a device. -/
theorem create_type {pr : Tree.Proc} {space : Nat → Bool} {path : Tree.Path} {major : Int}
    (h : Tree.create s pr space path .file major = .ok (some x, s')) :
    (s'.inodes x).type = .file ∨ (s'.inodes x).type = .device := by
  obtain ⟨⟨r₁, s₁⟩, hname, h⟩ := bind_ok h
  have h₁ := namex_moves hname
  cases r₁ with
  | none => cases h
  | some q =>
    obtain ⟨dp, name⟩ := q
    obtain ⟨s₂, hlock, h⟩ := bind_ok h
    obtain ⟨⟨r₂, s₃⟩, hlook, h⟩ := bind_ok h
    have h₂ := (h₁.lock hlock).then (dirlookup_moves hlook)
    cases r₂ with
    | some q =>
      obtain ⟨k, ip⟩ := q
      obtain ⟨s₄, hlock', h⟩ := bind_ok h
      simp only at h
      split at h
      · next htype =>
        cases h
        exact htype.2
      · cases h
    | none =>
      refine Or.inl (createNew_type (fun hf ↦ nomatch hf) ?_ h)
      intro y
      have hcount := h₂.count (fun y ↦ by rw [Multiset.count_zero]; omega) y
      change s₃.ref y + 0 = s.ref y + (0 + ({dp} : Multiset Nat)).count y at hcount
      rw [zero_add] at hcount
      omega

/-- What `sys_open` goes on with is in use, and it is a directory only if it opens for reading. -/
theorem openInode_type {pr : Tree.Proc} {space : Nat → Bool} {path : Tree.Path} {omode : UInt32}
    (h : Tree.openInode s pr space path omode = .ok (some x, s')) (hused : ValidUsed s) :
    (s'.inodes x).type ≠ .free ∧ ((s'.inodes x).type = .dir → omode = Tree.O_RDONLY) := by
  have hm := openInode_moves h
  rw [Tree.openInode] at h
  split at h
  · rcases create_type h with htype | htype
    · rw [htype]
      exact ⟨(fun hf ↦ nomatch hf), (fun hf ↦ nomatch hf)⟩
    · rw [htype]
      exact ⟨(fun hf ↦ nomatch hf), (fun hf ↦ nomatch hf)⟩
  · obtain ⟨⟨r₁, s₁⟩, hname, h⟩ := bind_ok h
    cases r₁ with
    | none => cases h
    | some q =>
      obtain ⟨s₂, hlock, h⟩ := bind_ok h
      split at h
      · cases h
      · next hdir =>
        cases h
        refine ⟨hm.valid hused _ (ilock_valid hlock), ?_⟩
        intro hd
        by_contra hmode
        exact hdir ⟨hd, hmode⟩

theorem createAndPut_moves {pr : Tree.Proc} {space : Nat → Bool} {path : Option Tree.Path}
    {type : Tree.FileType} {major : Int} {r : Int}
    (h : Tree.createAndPut s pr space path type major = .ok (r, s')) : Moves s s' 0 0 := by
  cases path with
  | none =>
    cases h
    exact Moves.refl s
  | some path =>
    obtain ⟨⟨r₁, s₁⟩, hcreate, h⟩ := bind_ok h
    have h₁ := create_moves hcreate
    cases r₁ with
    | none =>
      cases h
      exact h₁
    | some ip =>
      cases h
      exact h₁.putLast

theorem linkBad_moves {ip : Nat} {r : Int} (h : Tree.linkBad s ip = .ok (r, s')) :
    Moves s s' {ip} 0 := by
  obtain ⟨s₁, hlock, h⟩ := bind_ok h
  cases h
  exact (((Moves.self s {ip}).lock hlock).set ip (s₁.inodes ip).decLink rfl).putLast

theorem linkInode_moves {pr : Tree.Proc} {space : Nat → Bool} {ip : Nat} {new : Tree.Path} {r : Int}
    (h : Tree.linkInode s pr space ip new = .ok (r, s')) : Moves s s' {ip} 0 := by
  obtain ⟨s₁, hlock, h⟩ := bind_ok h
  have h₁ := (Moves.self s {ip}).lock hlock
  split at h
  · cases h
    exact h₁.putLast
  · obtain ⟨⟨r₂, s₂⟩, hname, h⟩ := bind_ok h
    have h₂ := (h₁.set ip (s₁.inodes ip).incLink rfl).then (namex_moves hname)
    cases r₂ with
    | none => exact h₂.trans (linkBad_moves h)
    | some q =>
      obtain ⟨dp, name⟩ := q
      obtain ⟨s₃, hlock', h⟩ := bind_ok h
      obtain ⟨⟨ok, s₄⟩, hlink, h⟩ := bind_ok h
      have h₃ := ((h₂.lock hlock').link hlink).put
      simp only at h
      split at h
      · cases h
        exact h₃.putLast
      · exact h₃.trans (linkBad_moves h)

theorem sysLink_moves {pr : Tree.Proc} {space : Nat → Bool} {old new : Option Tree.Path} {r : Int}
    (h : Tree.sysLink s pr space old new = .ok (r, s')) : Moves s s' 0 0 := by
  cases old with
  | none =>
    cases h
    exact Moves.refl s
  | some old =>
    cases new with
    | none =>
      cases h
      exact Moves.refl s
    | some new =>
      obtain ⟨⟨r₁, s₁⟩, hname, h⟩ := bind_ok h
      have h₁ := namex_moves hname
      cases r₁ with
      | none =>
        cases h
        exact h₁
      | some q => exact h₁.trans (linkInode_moves h)

theorem unlinkEntry_moves {dp k ip : Nat} {r : Int} (h : Tree.unlinkEntry s dp k ip = .ok (r, s')) :
    Moves s s' ({ip} + {dp}) 0 := by
  obtain ⟨s₁, hlock, h⟩ := bind_ok h
  have h₁ := (Moves.self s ({ip} + {dp})).lock hlock
  simp only at h
  split at h
  · cases h
  · split at h
    · cases h
      exact h₁.put.putLast
    · cases h
      generalize hd : (if (s₁.inodes ip).type = .dir then
        Tree.Inode.decLink { s₁.inodes dp with entries := (s₁.inodes dp).entries.set k ⟨0, []⟩ }
        else { s₁.inodes dp with entries := (s₁.inodes dp).entries.set k ⟨0, []⟩ }) = d
      have htype : d.type = (s₁.inodes dp).type := by
        rw [← hd]
        split <;> rfl
      have h₂ := (h₁.swap.set dp d htype).put
      exact (h₂.set ip (((Tree.iput (s₁.setInode dp d) dp).inodes ip).decLink) rfl).putLast

theorem sysUnlink_moves {pr : Tree.Proc} {path : Option Tree.Path} {r : Int}
    (h : Tree.sysUnlink s pr path = .ok (r, s')) : Moves s s' 0 0 := by
  cases path with
  | none =>
    cases h
    exact Moves.refl s
  | some path =>
    obtain ⟨⟨r₁, s₁⟩, hname, h⟩ := bind_ok h
    have h₁ := namex_moves hname
    cases r₁ with
    | none =>
      cases h
      exact h₁
    | some q =>
      obtain ⟨dp, name⟩ := q
      obtain ⟨s₂, hlock, h⟩ := bind_ok h
      have h₂ := h₁.lock hlock
      simp only at h
      split at h
      · cases h
        exact h₂.putLast
      · obtain ⟨⟨r₃, s₃⟩, hlook, h⟩ := bind_ok h
        have h₃ := h₂.then (dirlookup_moves hlook)
        cases r₃ with
        | none =>
          cases h
          exact h₃.swap.put
        | some e => exact h₃.trans (unlinkEntry_moves h)

theorem sysExec_moves {s s' : State} {pr : Tree.Proc} {path : Option Tree.Path}
    (h : sysExec s pr path = .ok s') :
    ∃ t, s' = s.withTree t ∧ Moves s.toState t 0 0 := by
  cases path with
  | none =>
    cases h
    exact ⟨s.toState, rfl, Moves.refl _⟩
  | some path =>
    obtain ⟨⟨r₁, t₁⟩, hname, h⟩ := bind_ok h
    have h₁ := namex_moves hname
    cases r₁ with
    | none =>
      cases h
      exact ⟨t₁, rfl, h₁⟩
    | some q =>
      obtain ⟨t₂, hlock, h⟩ := bind_ok h
      cases h
      exact ⟨_, rfl, (h₁.lock hlock).putLast⟩

end

end Xv6.Fd
