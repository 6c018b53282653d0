import Xv6.Tree.Path

/-!
# The slots of the inode table

`iget` (`kernel/fs.c:246`) panics when an inode is not in the table and no slot is free. Whether a
call gets there can be told from the state before it: the inodes that it looks up one after the
other, with the one or two that it has in hand.
-/

namespace Xv6.Tree

open Xv6.Lib

/-- The number of inodes with references. -/
def slotsInUse (ref : Nat → Nat) : Nat := (List.range NINODES).countP (fun x ↦ decide (0 < ref x))

/-- `iget` of inode `x` finds a slot, in state `s` with the inodes `own` in hand as well. -/
def Finds (s : State) (own : List Nat) (x : Nat) : Prop :=
  0 < s.ref x + own.count x ∨ slotsInUse (fun y ↦ s.ref y + own.count y) < NINODE

instance (s : State) (own : List Nat) (x : Nat) : Decidable (Finds s own x) :=
  inferInstanceAs (Decidable (_ ∨ _))

/-- `namex` finds a slot for each inode that it looks up on the way from `ip`. -/
def WalkRoom (s : State) : Nat → List Name → Prop
  | _, [] => True
  | ip, name :: names =>
    (s.inodes ip).type = .dir → ∀ q ∈ scan name 0 (s.inodes ip).entries,
      Finds s [ip] q.2 ∧ WalkRoom s q.2 names

instance WalkRoom.decidable (s : State) : ∀ ip names, Decidable (WalkRoom s ip names)
  | _, [] => isTrue True.intro
  | ip, name :: names =>
    haveI (q : Nat × Nat) : Decidable (WalkRoom s q.2 names) := WalkRoom.decidable s q.2 names
    inferInstanceAs (Decidable ((s.inodes ip).type = .dir → ∀ q ∈ scan name 0 (s.inodes ip).entries,
      Finds s [ip] q.2 ∧ WalkRoom s q.2 names))

/-- The names that `namex` looks up. -/
def lookedUp (parent : Bool) (path : Path) : List Name :=
  if parent then (elems path).dropLast else elems path

/-- `namex` finds a slot for each inode that it needs. -/
def PathRoom (s : State) (pr : Proc) (parent : Bool) (path : Path) : Prop :=
  (path.head? = some 47 → Finds s [] ROOTINO) ∧ WalkRoom s (start pr path) (lookedUp parent path)

instance (s : State) (pr : Proc) (parent : Bool) (path : Path) :
    Decidable (PathRoom s pr parent path) :=
  inferInstanceAs (Decidable (_ ∧ _))

/-- The computation panics in `iget` only without `R`, and returns only with it. -/
def Needs (R : Prop) {α : Type} (x : Except String α) : Prop :=
  Ends (fun e ↦ e = "iget: no inodes" → ¬ R) x (fun _ ↦ R)

section
variable {α β : Type} {R R' : Prop} {x : Except String α}

theorem Needs.ok (hR : R) (a : α) : Needs R (Except.ok a : Except String α) := hR

theorem Needs.error {e : String} (he : e ≠ "iget: no inodes") :
    Needs R (Except.error e : Except String α) :=
  fun h ↦ (he h).elim

theorem Needs.imp (h : Needs R x) (hmp : R → R') (hmpr : R' → R) : Needs R' x := by
  apply Ends.imp h
  · exact fun e he hnone hR ↦ he hnone (hmpr hR)
  · exact fun _ hR ↦ hmp hR

/-- What the rest needs, once the first part returned. -/
theorem Needs.bind {f : α → Except String β} (h : Needs R x) (hR : R' → R)
    (hf : ∀ a, x = .ok a → R → Needs R' (f a)) : Needs R' (x >>= f) := by
  cases x with
  | error e => exact fun hnone hR' ↦ h hnone (hR hR')
  | ok a => exact hf a rfl h

theorem Needs.map {f : α → β} (h : Needs R x) : Needs R (x.map f) := by
  cases x with
  | error e => exact h
  | ok a => exact h

end

section
variable {s t t' : State} {kept own : List Nat}

/-- The references in hand add to those of the state before. -/
theorem Held.ref_eq {extra : List Nat} (hs : Held s kept own) (hsame : Same s t)
    (ht : Held t kept (extra ++ own)) (y : Nat) : t.ref y = s.ref y + extra.count y := by
  have h1 := hs.count y
  have h2 := ht.count y
  have htables : t.toTables.refs y = s.toTables.refs y := by rw [hsame.tables]
  rw [List.count_append] at h2
  omega

/-- `iget` panics exactly when it finds no slot. -/
theorem iget_cases {extra : List Nat} (href : ∀ y, t.ref y = s.ref y + extra.count y) (x : Nat) :
    Finds s extra x ∧ (∃ t', iget t x = .ok t') ∨ ¬ Finds s extra x ∧
      iget t x = .error "iget: no inodes" := by
  have hfun : t.ref = fun y ↦ s.ref y + extra.count y := funext href
  have huse : t.inUse = slotsInUse (fun y ↦ s.ref y + extra.count y) := by
    rw [← hfun]
    rfl
  rw [iget, href x, huse, Finds]
  split
  · next hpos => exact Or.inl ⟨Or.inl hpos, _, rfl⟩
  · next hpos =>
    split
    · next hfull => exact Or.inr ⟨by omega, rfl⟩
    · next hfull => exact Or.inl ⟨Or.inr (by omega), _, rfl⟩

theorem walkRoom_of_not_dir {ip : Nat} (h : (s.inodes ip).type ≠ .dir) (names : List Name) :
    WalkRoom s ip names := by
  cases names with
  | nil => exact True.intro
  | cons name names => exact fun hd ↦ (h hd).elim

theorem walkRoom_of_none {ip : Nat} {name : Name} (h : scan name 0 (s.inodes ip).entries = none)
    (names : List Name) : WalkRoom s ip (name :: names) := by
  intro _ q hq
  rw [h] at hq
  cases hq

theorem walkRoom_of_some {ip : Nat} {name : Name} {q : Nat × Nat} (hd : (s.inodes ip).type = .dir)
    (h : scan name 0 (s.inodes ip).entries = some q) (names : List Name) :
    WalkRoom s ip (name :: names) ↔ Finds s [ip] q.2 ∧ WalkRoom s q.2 names := by
  constructor
  · intro hw
    exact hw hd q h
  · intro hw _ q' hq'
    rw [h] at hq'
    cases hq'
    exact hw

theorem ilock_error_ne {e : String} {x : Nat} (h : ilock s x = .error e) :
    e ≠ "iget: no inodes" := by
  rw [ilock] at h
  split at h
  · cases h
    decide
  · split at h
    · cases h
    · split at h
      · cases h
        decide
      · cases h

/-- The names that are looked up, from the first on. -/
theorem lookedUp_some {parent : Bool} {path rest : Path} {name : Name}
    (h : skipelem path = some (name, rest)) :
    lookedUp parent path = if parent ∧ rest = [] then [] else name :: lookedUp parent rest := by
  obtain ⟨helems, -, hrest⟩ := skipelem_some h
  rw [lookedUp, lookedUp, helems]
  cases parent with
  | false => rw [if_neg Bool.false_ne_true, if_neg (fun h ↦ Bool.false_ne_true h.1),
      if_neg Bool.false_ne_true]
  | true =>
    rw [if_pos rfl]
    by_cases hnil : rest = []
    · rw [if_pos ⟨rfl, hnil⟩, hrest.mp hnil]
      rfl
    · rw [if_neg (fun h ↦ hnil h.2), if_pos rfl,
        List.dropLast_cons_of_ne_nil (fun h ↦ hnil (hrest.mpr h))]

theorem lookedUp_none {parent : Bool} {path : Path} (h : skipelem path = none) :
    lookedUp parent path = [] := by
  rw [lookedUp, skipelem_none h]
  cases parent <;> rfl

/-- The loop of `namex` returns only if there was room, and panics in `iget` only if there was
not. -/
theorem namexLoop_room {parent : Bool} {fuel ip : Nat} {path : Path} (hs : Held s kept own)
    (hsame : Same s t) (ht : Held t kept (ip :: own)) (hfuel : path.length ≤ fuel) :
    Needs (WalkRoom s ip (lookedUp parent path)) (namexLoop parent fuel t ip path) := by
  induction fuel generalizing t ip path with
  | zero =>
    have hnil : path = [] := List.length_eq_zero_iff.mp (Nat.le_zero.mp hfuel)
    have hnone : skipelem path = none := by
      rw [hnil]
      rfl
    rw [lookedUp_none hnone, namexLoop]
    exact True.intro
  | succ fuel ih =>
    rw [namexLoop]
    cases hsk : skipelem path with
    | none =>
      rw [lookedUp_none hsk]
      exact True.intro
    | some q =>
      obtain ⟨name, rest⟩ := q
      obtain ⟨-, hlen, -⟩ := skipelem_some hsk
      rw [lookedUp_some hsk]
      dsimp only
      cases hlock : ilock t ip with
      | error e => exact fun he ↦ (ilock_error_ne hlock he).elim
      | ok t₁ =>
        obtain ⟨hs₁, ht₁, -, -⟩ := ilock_spec hlock ht
        have hsame₁ := hsame.trans hs₁
        simp only [bind, Except.bind]
        rw [hsame₁.inodes]
        by_cases hdir : (s.inodes ip).type = .dir
        · rw [if_neg (not_not_intro hdir)]
          by_cases hlast : parent = true ∧ rest = []
          · rw [if_pos hlast, if_pos hlast]
            exact True.intro
          · rw [if_neg hlast, if_neg hlast, dirlookup, hsame₁.inodes, if_neg (not_not_intro hdir)]
            cases hscan : scan name 0 (s.inodes ip).entries with
            | none => exact walkRoom_of_none hscan _
            | some q =>
              obtain ⟨k, x⟩ := q
              have hiff := walkRoom_of_some hdir hscan (lookedUp parent rest)
              have href (y : Nat) : t₁.ref y = s.ref y + [ip].count y := hs.ref_eq hsame₁ ht₁ y
              dsimp only
              rcases iget_cases href x with ⟨hfinds, t₂, hi⟩ | ⟨hfull, hi⟩
              · rw [hi]
                obtain ⟨hs₂, ht₂⟩ := iget_spec hi ht₁
                obtain ⟨hs₃, ht₃⟩ := iput_own (ht₂.perm (List.Perm.swap ip x own))
                apply (ih ((hsame₁.trans hs₂).trans hs₃) ht₃ (by omega)).imp
                · exact fun hroom ↦ hiff.mpr ⟨hfinds, hroom⟩
                · exact fun hroom ↦ (hiff.mp hroom).2
              · rw [hi]
                exact fun _ hroom ↦ hfull (hiff.mp hroom).1
        · rw [if_pos hdir]
          exact walkRoom_of_not_dir hdir _

/-- `namex` returns only if there was room, and panics in `iget` only if there was not. -/
theorem namex_room {p : Slot} {pr : Proc} (hp : s.procs p = some pr) (hs : Held s kept own)
    (parent : Bool) (path : Path) : Needs (PathRoom s pr parent path) (namex s pr parent path) := by
  have hbase (y : Nat) : s.ref y = s.ref y + ([] : List Nat).count y := rfl
  rw [namex]
  by_cases hroot : path.head? = some 47
  · rw [if_pos hroot]
    have hstart : start pr path = ROOTINO := if_pos hroot
    rcases iget_cases hbase ROOTINO with ⟨hfinds, t, hi⟩ | ⟨hfull, hi⟩
    · rw [hi]
      obtain ⟨hsame, ht⟩ := iget_spec hi hs
      apply (namexLoop_room hs hsame ht (Nat.le_refl _)).imp
      · intro hwalk
        refine ⟨fun _ ↦ hfinds, ?_⟩
        rw [hstart]
        exact hwalk
      · intro hroom
        have hwalk := hroom.2
        rwa [hstart] at hwalk
    · rw [hi]
      exact fun _ hroom ↦ hfull (hroom.1 hroot)
  · rw [if_neg hroot]
    have hstart : start pr path = pr.cwd := if_neg hroot
    obtain ⟨hsame, ht⟩ := idup_spec hs (Tables.refs_cwd hp)
    apply (namexLoop_room hs hsame ht (Nat.le_refl _)).imp
    · intro hwalk
      refine ⟨fun h ↦ (hroot h).elim, ?_⟩
      rw [hstart]
      exact hwalk
    · intro hroom
      have hwalk := hroom.2
      rwa [hstart] at hwalk

/-! ### Calls -/

theorem ilock_needs {R : Prop} (hR : R) (t : State) (x : Nat) : Needs R (ilock t x) := by
  cases hl : ilock t x with
  | error e => exact Needs.error (ilock_error_ne hl)
  | ok t' => exact hR

/-- `dirlink` of a name that is not in the directory takes no slot. -/
theorem dirlink_needs {R : Prop} (hR : R) {space : Bool} {dp x : Nat} {name : Name}
    (hnone : scan name 0 (t.inodes dp).entries = none) : Needs R (dirlink t space dp name x) := by
  rw [dirlink, dirlookup, hnone]
  by_cases hdir : (t.inodes dp).type = .dir
  · rw [if_neg (not_not_intro hdir)]
    simp only [bind, Except.bind]
    split
    · exact hR
    · exact hR
  · rw [if_pos hdir]
    exact Needs.error (by decide)

theorem scan_dots (x : Nat) : scan dotdot 0 (put ⟨x, dot⟩ []) = none := by
  have hne : dot ≠ dotdot := by decide
  rw [put, scan, if_neg (fun h ↦ hne h.2), scan]

theorem createDots_needs {R : Prop} (hR : R) {space : Bool} {dp x : Nat} (ht : Held t kept own)
    (hnil : (t.inodes x).entries = []) : Needs R (createDots t space dp x) := by
  have hscan : scan dot 0 (t.inodes x).entries = none := by
    rw [hnil]
    rfl
  apply Needs.bind (dirlink_needs hR hscan) id
  rintro ⟨ok, t₁⟩ hok -
  obtain ⟨-, htrue, -⟩ := dirlink_spec hok ht
  cases ok with
  | false => exact hR
  | true =>
    apply dirlink_needs hR
    rw [htrue rfl, State.setInode_inodes, Function.update_self, hnil]
    exact scan_dots x

theorem createLinks_needs {R : Prop} (hR : R) {space : Nat → Bool} {dp x : Nat} {name : Name}
    {type : FileType} (ht : Held t kept []) (hx : x ≠ 0) (hxd : x ≠ dp)
    (hnil : (t.inodes x).entries = []) (hnone : scan name 0 (t.inodes dp).entries = none) :
    Needs R (createLinks t space dp x name type) := by
  rw [createLinks]
  split
  · apply Needs.bind (createDots_needs hR ht hnil) id
    rintro ⟨ok, t₁⟩ hok -
    obtain ⟨-, htrue, -⟩ := createDots_spec hok ht hx hnil
    cases ok with
    | false => exact hR
    | true =>
      apply dirlink_needs hR
      rw [htrue rfl, State.setInode_inodes, Function.update_of_ne (Ne.symm hxd)]
      exact hnone
  · exact dirlink_needs hR hnone

/-- `create` of a new inode takes a slot for it. -/
theorem createNew_needs {space : Nat → Bool} {dp : Nat} {name : Name} {type : FileType}
    {major : Int} (href : ∀ y, t.ref y = s.ref y + [dp].count y) (ht : Held t [dp] [])
    (hdir : (t.inodes dp).type = .dir) (hnone : scan name 0 (t.inodes dp).entries = none)
    (htype : type ≠ .free) :
    Needs (∀ x, freeInode t.inodes = some x → Finds s [dp] x)
      (createNew t space dp name type major) := by
  have halloc : Needs (∀ x, freeInode t.inodes = some x → Finds s [dp] x) (ialloc t type) := by
    rw [ialloc]
    cases hfree : freeInode t.inodes with
    | none =>
      intro x hx
      cases hx
    | some x =>
      have hset : ∀ y,
          (t.setInode x { type := type, major := 0, nlink := 0, entries := [] }).ref y =
            s.ref y + [dp].count y := href
      dsimp only
      rcases iget_cases hset x with ⟨hfinds, t', hi⟩ | ⟨hfull, hi⟩
      · rw [hi]
        intro y hy
        rwa [← Option.some.inj hy]
      · rw [hi]
        exact fun _ hroom ↦ hfull (hroom x rfl)
  apply Needs.bind halloc id
  rintro ⟨r, t₁⟩ hr hroom
  cases r with
  | none => exact hroom
  | some x =>
    apply Needs.bind (ilock_needs hroom t₁ x) id
    intro t₂ hlock _
    obtain ⟨hfree, -, hino, hheld⟩ := ialloc_spec hr hlock ht major
    obtain ⟨hx, hx0, -⟩ := freeInode_some hfree
    have hxd : x ≠ dp := by
      rintro rfl
      exact FileType.ne_free hdir hx
    have hlinks : Needs (∀ x, freeInode t.inodes = some x → Finds s [dp] x)
        (createLinks (t₂.setInode x { t₂.inodes x with major := major, nlink := 1 }) space dp x name
          type) := by
      apply createLinks_needs hroom (hheld htype) hx0 hxd
      · rw [State.setInode_inodes, hino, Function.update_self, Function.update_self]
      · rw [State.setInode_inodes, hino, Function.update_of_ne (Ne.symm hxd),
          Function.update_of_ne (Ne.symm hxd)]
        exact hnone
    apply Needs.bind hlinks id
    rintro ⟨ok, t₃⟩ - -
    cases ok with
    | false => exact hroom
    | true => exact hroom

end

/-- `create` finds a slot for the inode of the name in `dp`, or for a new one. -/
def EntryRoom (s : State) (dp : Nat) (name : Name) : Prop :=
  match scan name 0 (s.inodes dp).entries with
  | some q => Finds s [dp] q.2
  | none => ∀ x ∈ freeInode s.inodes, Finds s [dp] x

instance (s : State) (dp : Nat) (name : Name) : Decidable (EntryRoom s dp name) :=
  match h : scan name 0 (s.inodes dp).entries with
  | some q => decidable_of_iff (Finds s [dp] q.2) (by rw [EntryRoom, h])
  | none => decidable_of_iff (∀ x ∈ freeInode s.inodes, Finds s [dp] x) (by rw [EntryRoom, h])

/-- `create` finds a slot for each inode that it needs. -/
def CreateRoom (s : State) (pr : Proc) (path : Path) : Prop :=
  PathRoom s pr true path ∧ ∀ q ∈ resolve s.inodes pr true path, EntryRoom s q.1 q.2

instance (s : State) (pr : Proc) (path : Path) : Decidable (CreateRoom s pr path) :=
  inferInstanceAs (Decidable (_ ∧ ∀ q ∈ resolve s.inodes pr true path, _))

/-- `sys_open` finds a slot for each inode that it needs. -/
def OpenRoom (s : State) (pr : Proc) (path : Path) (omode : UInt32) : Prop :=
  if omode &&& O_CREATE ≠ 0 then CreateRoom s pr path else PathRoom s pr false path

instance (s : State) (pr : Proc) (path : Path) (omode : UInt32) :
    Decidable (OpenRoom s pr path omode) :=
  inferInstanceAs
    (Decidable (if omode &&& O_CREATE ≠ 0 then CreateRoom s pr path else PathRoom s pr false path))

/-- A call finds a slot for each inode that it needs. -/
def CallRoom (s : State) (pr : Proc) : Call → Prop
  | .sysOpen _ (some path) omode _ => OpenRoom s pr path omode
  | .sysMkdir _ (some path) _ => CreateRoom s pr path
  | .sysChdir _ (some path) => PathRoom s pr false path
  | _ => True

instance (s : State) (pr : Proc) : ∀ c, Decidable (CallRoom s pr c)
  | .sysOpen _ (some path) omode _ => inferInstanceAs (Decidable (OpenRoom s pr path omode))
  | .sysMkdir _ (some path) _ => inferInstanceAs (Decidable (CreateRoom s pr path))
  | .sysChdir _ (some path) => inferInstanceAs (Decidable (PathRoom s pr false path))
  | .sysOpen _ none .. => isTrue True.intro
  | .sysMkdir _ none _ => isTrue True.intro
  | .sysChdir _ none => isTrue True.intro
  | .sysMknod .. => isTrue True.intro
  | .sysLink .. => isTrue True.intro
  | .sysUnlink .. => isTrue True.intro
  | .sysClose .. => isTrue True.intro
  | .sysDup .. => isTrue True.intro
  | .sysFork .. => isTrue True.intro
  | .sysExit .. => isTrue True.intro

/-- The calling process finds a slot for each inode that its call needs. -/
def Room (s : State) (c : Call) : Prop := ∀ pr ∈ s.procs c.slot, CallRoom s pr c

instance (s : State) (c : Call) : Decidable (Room s c) :=
  inferInstanceAs (Decidable (∀ pr ∈ s.procs c.slot, _))

/-- The call does not end in the panic of `iget`. -/
def NoPanic (s : State) (c : Call) : Prop :=
  ∀ pr ∈ s.procs c.slot, c.exec s pr ≠ .error "iget: no inodes"

/-- The calls that name a file, fork and close. -/
def Call.opens : Call → Prop
  | .sysOpen .. => True
  | .sysMkdir .. => True
  | .sysChdir .. => True
  | .sysFork .. => True
  | .sysClose .. => True
  | _ => False

section
variable {s t : State} {p : Slot} {pr : Proc}

theorem create_needs (hg : Held s [] []) (hp : s.procs p = some pr) {space : Nat → Bool}
    {path : Path} {type : FileType} {major : Int} (htype : type ≠ .free) :
    Needs (CreateRoom s pr path) (create s pr space path type major) := by
  apply Needs.bind (namex_room hp hg true path) (fun h ↦ h.1)
  rintro ⟨r, s₁⟩ hname hpath
  obtain ⟨hr, hs₁, hh₁⟩ := namex_spec hp hname hg
  cases r with
  | none =>
    refine ⟨hpath, ?_⟩
    intro q hres
    rw [← hr] at hres
    cases hres
  | some q =>
    obtain ⟨dp, name⟩ := q
    -- what is left to find is the inode of the name, or a new one
    have hiff : CreateRoom s pr path ↔ EntryRoom s dp name := by
      constructor
      · exact fun h ↦ h.2 (dp, name) hr.symm
      · intro h
        refine ⟨hpath, ?_⟩
        intro q hres
        rw [← hr] at hres
        cases hres
        exact h
    have hdir : (s.inodes dp).type = .dir := by
      rw [resolve] at hr
      exact walk_parent_dir hr.symm
    apply Needs.bind (R := True) (ilock_needs True.intro s₁ dp) (fun _ ↦ True.intro)
    intro s₂ hlock _
    obtain ⟨hs₂, hh₂, hv₂, -⟩ := ilock_spec hlock hh₁
    have hs₁₂ := hs₁.trans hs₂
    have href (y : Nat) : s₂.ref y = s.ref y + [dp].count y := hg.ref_eq hs₁₂ hh₂ y
    apply Needs.imp ?_ hiff.mpr hiff.mp
    rw [EntryRoom, dirlookup, hs₁₂.inodes, if_neg (not_not_intro hdir)]
    cases hscan : scan name 0 (s.inodes dp).entries with
    | none =>
      have hnew : Needs (∀ x, freeInode s₂.inodes = some x → Finds s [dp] x)
          (createNew s₂ space dp name type major) := by
        apply createNew_needs href (hh₂.keep hv₂) _ _ htype
        · rw [hs₁₂.inodes]
          exact hdir
        · rw [hs₁₂.inodes]
          exact hscan
      rw [hs₁₂.inodes] at hnew
      exact hnew
    | some q =>
      obtain ⟨k, x⟩ := q
      dsimp only
      rcases iget_cases href x with ⟨hfinds, s₃, hi⟩ | ⟨hfull, hi⟩
      · rw [hi]
        apply Needs.bind (ilock_needs hfinds (iput s₃ dp) x) id
        intro s₄ _ _
        split
        · exact hfinds
        · exact hfinds
      · rw [hi]
        exact fun _ hroom ↦ hfull hroom

theorem fileclose_error_ne {f : Fin NFILE} {e : String} (h : fileclose s f = .error e) :
    e ≠ "iget: no inodes" := by
  rw [fileclose] at h
  split at h
  · cases h
    decide
  · dsimp only at h
    split at h
    · cases h
    · cases h

theorem fileclose_needs {R : Prop} (hR : R) (s : State) (f : Fin NFILE) :
    Needs R (fileclose s f) := by
  cases hl : fileclose s f with
  | error e => exact Needs.error (fileclose_error_ne hl)
  | ok t' => exact hR

theorem openFile_needs {R : Prop} (hR : R) (s : State) (p : Slot) (pr : Proc) (ip : Nat)
    (omode : UInt32) :
    Needs R (openFile s p pr ip omode) := by
  rw [openFile]
  split
  · exact hR
  · split
    · apply Needs.bind (fileclose_needs hR _ _) id
      exact fun _ _ _ ↦ hR
    · exact hR

theorem openInode_needs (hg : Held s [] []) (hp : s.procs p = some pr) (space : Nat → Bool)
    (path : Path) (omode : UInt32) :
    Needs (OpenRoom s pr path omode) (openInode s pr space path omode) := by
  rw [openInode, OpenRoom]
  by_cases hmode : omode &&& O_CREATE ≠ 0
  · rw [if_pos hmode, if_pos hmode]
    exact create_needs hg hp (fun h ↦ nomatch h)
  · rw [if_neg hmode, if_neg hmode]
    apply Needs.bind (namex_room hp hg false path) id
    rintro ⟨r, s₁⟩ - hroom
    cases r with
    | none => exact hroom
    | some q =>
      apply Needs.bind (ilock_needs hroom s₁ q.1) id
      intro s₂ _ _
      split
      · exact hroom
      · exact hroom

theorem sysOpen_needs (hg : Held s [] []) (hp : s.procs p = some pr) (space : Nat → Bool)
    (path : Path) (omode : UInt32) :
    Needs (OpenRoom s pr path omode) (sysOpen s p pr space (some path) omode) := by
  apply Needs.bind (openInode_needs hg hp space path omode) id
  rintro ⟨r, s₁⟩ - hroom
  cases r with
  | none => exact hroom
  | some ip =>
    dsimp only
    split
    · exact hroom
    · exact openFile_needs hroom s₁ p pr ip omode

theorem sysMkdir_needs (hg : Held s [] []) (hp : s.procs p = some pr) (space : Nat → Bool)
    (path : Path) :
    Needs (CreateRoom s pr path) (sysMkdir s pr space (some path)) := by
  have hcreate : Needs (CreateRoom s pr path) (create s pr space path .dir 0) :=
    create_needs hg hp (fun h ↦ nomatch h)
  apply Needs.bind hcreate id
  rintro ⟨r, s₁⟩ - hroom
  cases r with
  | none => exact hroom
  | some ip => exact hroom

theorem sysChdir_needs (hg : Held s [] []) (hp : s.procs p = some pr) (path : Path) :
    Needs (PathRoom s pr false path) (sysChdir s p pr (some path)) := by
  apply Needs.bind (namex_room hp hg false path) id
  rintro ⟨r, s₁⟩ - hroom
  cases r with
  | none => exact hroom
  | some q =>
    apply Needs.bind (ilock_needs hroom s₁ q.1) id
    intro s₂ _ _
    split
    · exact hroom
    · exact hroom

theorem sysClose_needs {R : Prop} (hR : R) (s : State) (p : Slot) (pr : Proc) (fd : Int) :
    Needs R (sysClose s p pr fd) := by
  rw [sysClose]
  split
  · exact hR
  · apply Needs.bind (fileclose_needs hR _ _) id
    exact fun _ _ _ ↦ hR

theorem dupFiles_needs {R : Prop} (hR : R) (s : State) (pr : Proc) (fds : List (Fin NOFILE)) :
    Needs R (dupFiles s pr fds) := by
  induction fds generalizing s with
  | nil => exact hR
  | cons fd fds ih =>
    rw [dupFiles]
    split
    · exact ih s
    · rw [filedup]
      split
      · exact Needs.error (by decide)
      · exact ih _

/-- A call of these panics in `iget` only without room, and completes only with room. -/
theorem Call.exec_needs (hg : Held s [] []) {c : Call} (hp : s.procs c.slot = some pr)
    (hc : c.opens) :
    Needs (CallRoom s pr c) (c.exec s pr) := by
  cases c with
  | sysOpen q path omode space =>
    apply Needs.map
    cases path with
    | none => exact True.intro
    | some path => exact sysOpen_needs hg hp space path omode
  | sysMkdir q path space =>
    apply Needs.map
    cases path with
    | none => exact True.intro
    | some path => exact sysMkdir_needs hg hp space path
  | sysChdir q path =>
    apply Needs.map
    cases path with
    | none => exact True.intro
    | some path => exact sysChdir_needs hg hp path
  | sysClose q fd => exact (sysClose_needs True.intro s q pr fd).map
  | sysFork q q' =>
    rw [Call.exec]
    split
    · exact Needs.error (by decide)
    · apply Needs.bind (dupFiles_needs True.intro s pr _) id
      exact fun _ _ _ ↦ True.intro
  | sysMknod q path major space => exact hc.elim
  | sysLink q old new space => exact hc.elim
  | sysUnlink q path => exact hc.elim
  | sysDup q fd => exact hc.elim
  | sysExit q => exact hc.elim

/-- These calls make entries for new inodes only. -/
theorem Call.opens_noWrap {m : Graph} {c : Call} (hc : c.opens) : NoWrap m pr c := by
  have hcreates {space : Nat → Bool} {path : Path} {type : FileType} {q : Nat × Name × Nat}
      (hq : creates m pr space path type = some q) : (m q.2.2).type = .free :=
    (freeInode_some (creates_eq_some.mp hq).2.1).1
  intro q hq hfree
  cases c with
  | sysOpen p path omode space =>
    cases path with
    | none => cases hq
    | some path =>
      rw [Call.newEntry] at hq
      split at hq
      · exact (hfree (hcreates hq)).elim
      · cases hq
  | sysMkdir p path space =>
    cases path with
    | none => cases hq
    | some path => exact (hfree (hcreates hq)).elim
  | sysChdir p path => cases hq
  | sysFork p q => cases hq
  | sysClose p fd => cases hq
  | sysMknod p path major space => exact hc.elim
  | sysLink p old new space => exact hc.elim
  | sysUnlink p path => exact hc.elim
  | sysDup p fd => exact hc.elim
  | sysExit p => exact hc.elim

theorem Call.opens_good {s' : State} {c : Call} (hg : Good s) (hc : c.opens)
    (h : step s c = some s') : Good s' := by
  obtain ⟨pr, -, hdone⟩ := step_completed hg h
  exact hdone.good hg (Call.opens_noWrap hc)

/-- Calls that find slots do not panic, and a call that completes found slots. -/
theorem Room.noPanic {c : Call} (hg : Good s) (hc : c.opens) (h : Room s c) : NoPanic s c := by
  intro pr hp he
  have hneeds := Call.exec_needs hg.held hp hc
  rw [he] at hneeds
  exact hneeds rfl (h pr hp)

theorem room_of_step {s' : State} {c : Call} (hg : Good s) (hc : c.opens) (h : step s c = some s') :
    Room s c := by
  intro pr hp
  have hneeds := Call.exec_needs hg.held hp hc
  rw [step, hp] at h
  dsimp only at h
  cases he : c.exec s pr with
  | error e =>
    rw [he] at h
    cases h
  | ok t =>
    rw [he] at hneeds
    exact hneeds

end

/-- In every run of these calls from an image, no call panics in `iget` as long as each finds a slot
for the inodes that it needs; a run that gets to its end did. -/
theorem iget_no_panic (im : Image) (cs : List Call) (hcs : ∀ c ∈ cs, c.opens) :
    (Along step Room (boot im) cs → Along step NoPanic (boot im) cs) ∧
      ((run step (boot im) cs).isSome = true → Along step Room (boot im) cs) := by
  have hgood := good_boot im
  generalize boot im = s at hgood
  induction cs generalizing s with
  | nil => exact ⟨fun _ ↦ True.intro, fun _ ↦ True.intro⟩
  | cons c cs ih =>
    have hc := hcs c List.mem_cons_self
    have hrest :=
      fun t ht ↦ ih (fun c hc ↦ hcs c (List.mem_cons_of_mem _ hc)) t (Call.opens_good hgood hc ht)
    constructor
    · intro h
      exact ⟨h.1.noPanic hgood hc, fun t ht ↦ (hrest t ht).1 (h.2 t ht)⟩
    · intro h
      obtain ⟨s', hs'⟩ := Option.isSome_iff_exists.mp h
      obtain ⟨u, hu, hrun⟩ := run_cons_eq_some.mp hs'
      refine ⟨room_of_step hgood hc hu, ?_⟩
      intro t ht
      rw [hu] at ht
      cases ht
      exact (hrest u hu).2 (Option.isSome_iff_exists.mpr ⟨s', hrun⟩)

/-- `fork(); mkdir("/a"); chdir("a"); open("f", O_CREATE); open("../a", O_RDONLY); close(1)` -/
def roomRun : List Call :=
  [.sysFork initSlot 1, .sysMkdir initSlot (some pathA) (fun _ ↦ true), .sysChdir 1 (some [97]),
    .sysOpen 1 (some [102]) O_CREATE (fun _ ↦ true),
    .sysOpen 1 (some [46, 46, 47, 97]) O_RDONLY (fun _ ↦ true), .sysClose 1 1]

theorem iget_no_panic_roomRun :
    (run step (boot emptyImage) roomRun).isSome = true ∧
      Along step NoPanic (boot emptyImage) roomRun := by
  have hcs : ∀ c ∈ roomRun, c.opens := by
    intro c hc
    simp only [roomRun, List.mem_cons, List.not_mem_nil, or_false] at hc
    rcases hc with rfl | rfl | rfl | rfl | rfl | rfl <;> exact True.intro
  have hroom : Along step Room (boot emptyImage) roomRun := by decide +kernel
  exact ⟨by decide +kernel, (iget_no_panic emptyImage roomRun hcs).1 hroom⟩

/-- The name of two letters with number `k`, in the root directory. -/
def numbered (k : Nat) : Path := [47, UInt8.ofNat (97 + k / NOFILE), UInt8.ofNat (97 + k % NOFILE)]

/-- Three forks, and 49 files opened by the four processes. -/
def crowdedRun : List Call :=
  [Call.sysFork initSlot 1, Call.sysFork initSlot 2, Call.sysFork initSlot 3] ++
    (List.range 49).map (fun k ↦
    Call.sysOpen (Fin.ofNat NPROC (k / NOFILE)) (some (numbered k)) O_CREATE (fun _ ↦ true))

/-- An image with one file, `a`. -/
def imageA : Image where
  names := [[97]]
  count := by decide
  dots := by decide

/-- The root directory and 49 open files take all slots; `/a` is in the tree and not in the
table. -/
theorem crowdedRun_ends : ∃ s pr, run step (boot imageA) crowdedRun = some s ∧ s.procs 3 = some pr ∧
    s.inUse = NINODE ∧ follow s.inodes (start pr pathA) (elems pathA) = some 2 ∧
    namex s pr false pathA = .error "iget: no inodes" := by
  have hrun : (run step (boot imageA) crowdedRun).any (fun s ↦ (s.procs 3).any (fun pr ↦
      s.inUse == NINODE && (follow s.inodes (start pr pathA) (elems pathA) == some 2 &&
        match namex s pr false pathA with
        | .error e => e == "iget: no inodes"
        | .ok _ => false))) = true := by
    decide +kernel
  cases hs : run step (boot imageA) crowdedRun with
  | none =>
    rw [hs] at hrun
    cases hrun
  | some s =>
    rw [hs, Option.any_some] at hrun
    cases hp : s.procs 3 with
    | none =>
      rw [hp] at hrun
      cases hrun
    | some pr =>
      rw [hp, Option.any_some, Bool.and_eq_true, Bool.and_eq_true, beq_iff_eq, beq_iff_eq] at hrun
      obtain ⟨huse, hfollow, hname⟩ := hrun
      refine ⟨s, pr, rfl, hp, huse, hfollow, ?_⟩
      cases he : namex s pr false pathA with
      | ok r =>
        rw [he] at hname
        cases hname
      | error e =>
        rw [he] at hname
        rw [beq_iff_eq.mp hname]

/-- With all slots in use, to open another file is a panic. -/
theorem open_panics_in_iget : (∀ c ∈ crowdedRun, c.opens) ∧ ∃ s pr,
    run step (boot imageA) crowdedRun = some s ∧ s.procs 3 = some pr ∧ s.inUse = NINODE ∧
      sysOpen s 3 pr (fun _ ↦ true) (some pathA) O_RDONLY = .error "iget: no inodes" := by
  constructor
  · intro c hc
    rw [crowdedRun] at hc
    simp only [List.mem_append, List.mem_cons, List.mem_map, List.not_mem_nil, or_false] at hc
    rcases hc with (rfl | rfl | rfl) | ⟨k, -, rfl⟩ <;> exact True.intro
  · obtain ⟨s, pr, hs, hp, huse, -, hname⟩ := crowdedRun_ends
    refine ⟨s, pr, hs, hp, huse, ?_⟩
    have hmode : ¬ O_RDONLY &&& O_CREATE ≠ 0 := by decide
    have hopen : openInode s pr (fun _ ↦ true) pathA O_RDONLY = .error "iget: no inodes" := by
      rw [openInode, if_neg hmode, hname]
      rfl
    rw [sysOpen, hopen]
    rfl

end Xv6.Tree
