import Xv6.Tree.Slots

/-!
# Paths and locks

`namei` and `nameiparent` (`kernel/fs.c:651–697`) with the sleep locks of the inodes. Both return,
with no lock held, what the elements of the path lead to, and keep one reference to it, exactly if
they find a slot for each inode on the way and look into no free inode.
-/

namespace Xv6.Tree

open Xv6.Lib

/-- A state with the inode locks that the process holds. No other process holds one. -/
structure Locking extends State where
  locked : Nat → Bool

/-- A state in which no lock is held. -/
def State.unlocked (s : State) : Locking := { s with locked := fun _ ↦ false }

/-- A state in which the lock of `x` is held. -/
def State.locking (s : State) (x : Nat) : Locking :=
  { s with locked := Function.update (fun _ ↦ false) x true }

namespace Locking

/-- `ilock`; `kernel/fs.c:292–317`. A process that waits for its own lock sleeps forever. -/
def ilock (s : Locking) (x : Nat) : Except String Locking :=
  if s.ref x < 1 then .error "ilock"
  else if s.locked x then .error "sleep"
  else do
    let t ← Tree.ilock s.toState x
    return { t with locked := Function.update s.locked x true }

/-- `iunlock`; `kernel/fs.c:320–327`. -/
def iunlock (s : Locking) (x : Nat) : Except String Locking :=
  if s.locked x = false ∨ s.ref x < 1 then .error "iunlock"
  else .ok { s with locked := Function.update s.locked x false }

/-- `iput`, which takes the lock of an inode that it frees; `kernel/fs.c:336–362`. -/
def iput (s : Locking) (x : Nat) : Except String Locking :=
  if s.ref x = 1 ∧ s.valid x = true ∧ (s.inodes x).nlink = 0 then
    if s.locked x then .error "sleep" else .ok { Tree.iput s.toState x with locked := s.locked }
  else .ok { Tree.iput s.toState x with locked := s.locked }

/-- `iunlockput`; `kernel/fs.c:365–370`. -/
def iunlockput (s : Locking) (x : Nat) : Except String Locking := do
  let s ← s.iunlock x
  s.iput x

/-- `dirlookup`; `kernel/fs.c:551–575`. -/
def dirlookup (s : Locking) (dp : Nat) (name : Name) :
    Except String (Option (Nat × Nat) × Locking) := do
  let (r, t) ← Tree.dirlookup s.toState dp name
  return (r, { t with locked := s.locked })

/-- The loop of `namex` and its end; `kernel/fs.c:661–683`. -/
def namexLoop (parent : Bool) (s : Locking) (ip : Nat) (path : Path) :
    Except String (Option (Nat × Name) × Locking) :=
  match _h : skipelem path with
  | none =>
    if parent then do
      let s ← s.iput ip
      return (none, s)
    else return (some (ip, []), s)
  | some (name, rest) => do
    let s ← s.ilock ip
    if (s.inodes ip).type ≠ .dir then
      let s ← s.iunlockput ip
      return (none, s)
    else if parent ∧ rest = [] then
      let s ← s.iunlock ip
      return (some (ip, name), s)
    else
      let (next, s) ← s.dirlookup ip name
      match next with
      | none =>
        let s ← s.iunlockput ip
        return (none, s)
      | some (_, next) =>
        let s ← s.iunlockput ip
        namexLoop parent s next rest
termination_by path.length
decreasing_by exact (skipelem_some _h).2.1

/-- `namex` of process `pr`; `kernel/fs.c:651–684`. -/
def namex (s : Locking) (pr : Proc) (parent : Bool) (path : Path) :
    Except String (Option (Nat × Name) × Locking) :=
  if path.head? = some 47 then do
    let t ← iget s.toState ROOTINO
    namexLoop parent { t with locked := s.locked } ROOTINO path
  else namexLoop parent { idup s.toState pr.cwd with locked := s.locked } pr.cwd path

/-- `namei`; `kernel/fs.c:686–691`. -/
def namei (s : Locking) (pr : Proc) (path : Path) : Except String (Option Nat × Locking) := do
  let (r, s) ← s.namex pr false path
  return (r.map Prod.fst, s)

/-- `nameiparent`; `kernel/fs.c:693–697`. -/
def nameiparent (s : Locking) (pr : Proc) (path : Path) :
    Except String (Option (Nat × Name) × Locking) :=
  s.namex pr true path

end Locking

/-! ### Locks do not get in the way -/

section
variable {s t : State} {x : Nat}

theorem ilock_unlocked (s : State) (x : Nat) :
    s.unlocked.ilock x = (ilock s x).map (fun t ↦ t.locking x) := by
  by_cases href : s.ref x < 1
  · have h : ilock s x = .error "ilock" := if_pos href
    have hlock : s.unlocked.ilock x = .error "ilock" := if_pos href
    rw [h, hlock]
    rfl
  · have hlock : s.unlocked.ilock x = ilock s x >>= fun t ↦ .ok (t.locking x) :=
      (if_neg href).trans (if_neg Bool.false_ne_true)
    rw [hlock]
    cases ilock s x with
    | error e => rfl
    | ok t => rfl

theorem ilock_ref (h : ilock s x = .ok t) : 0 < t.ref x := by
  rw [ilock] at h
  split at h
  · cases h
  · next href =>
    split at h
    · cases h
      omega
    · split at h
      · cases h
      · cases h
        exact Nat.pos_of_ne_zero (fun hzero ↦ href (by change s.ref x = 0 at hzero; omega))

theorem iunlock_locking (href : 0 < t.ref x) : (t.locking x).iunlock x = .ok t.unlocked := by
  have hheld : (t.locking x).locked x = true := by
    change Function.update (fun _ ↦ false) x true x = true
    exact Function.update_self ..
  have hfree : Function.update (t.locking x).locked x false = fun _ ↦ false := by
    funext y
    rw [State.locking, Function.update_idem]
    exact congrFun (Function.update_eq_self x (fun _ ↦ false)) y
  rw [Locking.iunlock, if_neg, hfree]
  · rfl
  · rw [hheld]
    change ¬ (true = false ∨ t.ref x < 1)
    rintro (h | h)
    · cases h
    · omega

theorem iput_unlocked (s : State) (x : Nat) : s.unlocked.iput x = .ok (iput s x).unlocked := by
  rw [Locking.iput]
  split
  · exact if_neg Bool.false_ne_true
  · rfl

theorem iunlockput_locking (href : 0 < t.ref x) :
    (t.locking x).iunlockput x = .ok (iput t x).unlocked := by
  rw [Locking.iunlockput, iunlock_locking href]
  exact iput_unlocked t x

theorem dirlookup_locking (t : State) (ip : Nat) (name : Name) :
    (t.locking ip).dirlookup ip name = (dirlookup t ip name).map
      (fun r ↦ (r.1, r.2.locking ip)) := by
  change dirlookup t ip name >>= _ = _
  cases dirlookup t ip name with
  | error e => rfl
  | ok r => rfl

theorem iget_ref {y : Nat} (h : iget s x = .ok t) (hy : 0 < s.ref y) : 0 < t.ref y := by
  have hle : ∀ n, s.ref x ≤ n → 0 < Function.update s.ref x n y := by
    intro n hn
    rw [Function.update_apply]
    split
    · next hyx =>
      rw [hyx] at hy
      omega
    · exact hy
  rw [iget] at h
  split at h
  · cases h
    exact hle _ (by omega)
  · next hpos =>
    split at h
    · cases h
    · cases h
      exact hle _ (by omega)

theorem dirlookup_ref {ip y : Nat} {name : Name} {r : Option (Nat × Nat)}
    (h : dirlookup s ip name = .ok (r, t)) (hy : 0 < s.ref y) : 0 < t.ref y := by
  rw [dirlookup] at h
  split at h
  · cases h
  · split at h
    · cases h
      exact hy
    · obtain ⟨t', hi, ht⟩ := bind_ok h
      cases ht
      exact iget_ref hi hy

/-- The end of a path. -/
theorem namexLoop_unlocked_none {parent : Bool} {ip : Nat} {path : Path}
    (h : skipelem path = none) :
    Locking.namexLoop parent s.unlocked ip path =
      .ok ((namexEnd parent s ip).1, (namexEnd parent s ip).2.unlocked) := by
  rw [Locking.namexLoop, namexEnd]
  split
  · rw [iput_unlocked]
    cases parent with
    | false => rfl
    | true => rfl
  · next hsome =>
    rw [h] at hsome
    cases hsome

/-- One element of a path. -/
theorem namexLoop_unlocked_some {parent : Bool} {ip : Nat} {path rest : Path} {name : Name}
    (h : skipelem path = some (name, rest)) :
    Locking.namexLoop parent s.unlocked ip path = (do
      let s ← ilock s ip
      if (s.inodes ip).type ≠ .dir then return (none, (iput s ip).unlocked)
      else if parent ∧ rest = [] then return (some (ip, name), s.unlocked)
      else
        let (next, s) ← dirlookup s ip name
        match next with
        | none => return (none, (iput s ip).unlocked)
        | some (_, next) => Locking.namexLoop parent (iput s ip).unlocked next rest) := by
  rw [Locking.namexLoop]
  split
  · next hnone =>
    rw [h] at hnone
    cases hnone
  · next name' rest' hsome =>
    rw [h] at hsome
    cases hsome
    rw [ilock_unlocked]
    cases hlock : ilock s ip with
    | error e => rfl
    | ok t =>
      have href := ilock_ref hlock
      simp only [Except.map, bind, Except.bind]
      rw [iunlockput_locking href, iunlock_locking href, dirlookup_locking]
      change (if (t.inodes ip).type ≠ .dir then _ else _) = _
      by_cases hdir : (t.inodes ip).type = .dir
      · rw [if_neg (not_not_intro hdir), if_neg (not_not_intro hdir)]
        by_cases hlast : parent = true ∧ rest = []
        · rw [if_pos hlast, if_pos hlast]
        · rw [if_neg hlast, if_neg hlast]
          cases hlook : dirlookup t ip name with
          | error e => rfl
          | ok r =>
            obtain ⟨next, u⟩ := r
            have href' := dirlookup_ref hlook href
            simp only [Except.map, iunlockput_locking href']
      · rw [if_pos hdir, if_pos hdir]

/-- Without locks the loop of `namex` takes and gives back one lock after the other. -/
theorem namexLoop_unlocked {parent : Bool} {fuel ip : Nat} {path : Path}
    (hfuel : path.length ≤ fuel) :
    Locking.namexLoop parent s.unlocked ip path =
      (namexLoop parent fuel s ip path).map (fun r ↦ (r.1, r.2.unlocked)) := by
  induction fuel generalizing s ip path with
  | zero =>
    have hnil : path = [] := List.length_eq_zero_iff.mp (Nat.le_zero.mp hfuel)
    apply namexLoop_unlocked_none
    rw [hnil]
    rfl
  | succ fuel ih =>
    rw [namexLoop]
    cases hsk : skipelem path with
    | none => exact namexLoop_unlocked_none hsk
    | some q =>
      obtain ⟨name, rest⟩ := q
      obtain ⟨-, hlen, -⟩ := skipelem_some hsk
      rw [namexLoop_unlocked_some hsk]
      dsimp only
      cases ilock s ip with
      | error e => rfl
      | ok t =>
        simp only [bind, Except.bind]
        split
        · rfl
        · split
          · rfl
          · cases dirlookup t ip name with
            | error e => rfl
            | ok r =>
              obtain ⟨next, u⟩ := r
              cases next with
              | none => rfl
              | some q => exact ih (by omega)

theorem namex_unlocked (s : State) (pr : Proc) (parent : Bool) (path : Path) :
    s.unlocked.namex pr parent path = (namex s pr parent path).map
      (fun r ↦ (r.1, r.2.unlocked)) := by
  rw [Locking.namex, namex]
  split
  · change iget s ROOTINO >>= _ = _
    cases iget s ROOTINO with
    | error e => rfl
    | ok t => exact namexLoop_unlocked (Nat.le_refl _)
  · exact namexLoop_unlocked (Nat.le_refl _)

/-! ### Free inodes on the way -/

/-- No inode is free that is looked into on the way from `ip`. -/
def WalkAllocated (m : Graph) : Nat → List Name → Prop
  | _, [] => True
  | ip, name :: names => (m ip).type ≠ .free ∧
    ((m ip).type = .dir → ∀ q ∈ scan name 0 (m ip).entries, WalkAllocated m q.2 names)

instance WalkAllocated.decidable (m : Graph) : ∀ ip names, Decidable (WalkAllocated m ip names)
  | _, [] => isTrue True.intro
  | ip, name :: names =>
    haveI (q : Nat × Nat) : Decidable (WalkAllocated m q.2 names) :=
      WalkAllocated.decidable m q.2 names
    inferInstanceAs (Decidable ((m ip).type ≠ .free ∧
      ((m ip).type = .dir → ∀ q ∈ scan name 0 (m ip).entries, WalkAllocated m q.2 names)))

/-- The computation panics elsewhere than in `iget` only without `R`, and returns only with it. -/
def Locks (R : Prop) {α : Type} (x : Except String α) : Prop :=
  Ends (fun e ↦ e ≠ "iget: no inodes" → ¬ R) x (fun _ ↦ R)

theorem Locks.imp {R R' : Prop} {α : Type} {x : Except String α} (h : Locks R x) (hiff : R ↔ R') :
    Locks R' x := by
  apply Ends.imp h
  · exact fun e he hne hR ↦ he hne (hiff.mpr hR)
  · exact fun _ hR ↦ hiff.mp hR

section
variable {s t : State} {kept own : List Nat}

theorem walkAllocated_of_some {m : Graph} {ip : Nat} {name : Name} {q : Nat × Nat}
    (hne : (m ip).type ≠ .free) (hd : (m ip).type = .dir) (h : scan name 0 (m ip).entries = some q)
    (names : List Name) : WalkAllocated m q.2 names ↔ WalkAllocated m ip (name :: names) := by
  constructor
  · intro hw
    refine ⟨hne, ?_⟩
    intro _ q' hq'
    rw [h] at hq'
    cases hq'
    exact hw
  · intro hw
    exact hw.2 hd q h

/-- The loop of `namex` returns only if it looks into no free inode, and panics in `ilock` only if
it does. -/
theorem namexLoop_locks {parent : Bool} {fuel ip : Nat} {path : Path} (hsame : Same s t)
    (ht : Held t kept (ip :: own)) (hfuel : path.length ≤ fuel) :
    Locks (WalkAllocated s.inodes ip (elems path)) (namexLoop parent fuel t ip path) := by
  induction fuel generalizing t ip path with
  | zero =>
    have hnil : path = [] := List.length_eq_zero_iff.mp (Nat.le_zero.mp hfuel)
    have hnone : skipelem path = none := by
      rw [hnil]
      rfl
    rw [skipelem_none hnone, namexLoop]
    exact True.intro
  | succ fuel ih =>
    rw [namexLoop]
    cases hsk : skipelem path with
    | none =>
      rw [skipelem_none hsk]
      exact True.intro
    | some q =>
      obtain ⟨name, rest⟩ := q
      obtain ⟨helems, hlen, hrest⟩ := skipelem_some hsk
      rw [helems]
      dsimp only
      cases hlock : ilock t ip with
      | error e =>
        -- the inode is referenced, so that `ilock` panics only if it is free
        intro _ hw
        have hcount := ht.count ip
        rw [List.count_cons_self] at hcount
        obtain ⟨t₁, hok⟩ :=
          ilock_ok (s := t) (x := ip) (by omega) (by rw [hsame.inodes]; exact hw.1)
        rw [hlock] at hok
        cases hok
      | ok t₁ =>
        obtain ⟨hs₁, ht₁, -, hne⟩ := ilock_spec hlock ht
        have hsame₁ := hsame.trans hs₁
        rw [hsame.inodes] at hne
        simp only [bind, Except.bind]
        rw [hsame₁.inodes]
        by_cases hdir : (s.inodes ip).type = .dir
        · rw [if_neg (not_not_intro hdir)]
          by_cases hlast : parent = true ∧ rest = []
          · rw [if_pos hlast, hrest.mp hlast.2]
            exact ⟨hne, fun _ _ _ ↦ True.intro⟩
          · rw [if_neg hlast, dirlookup, hsame₁.inodes, if_neg (not_not_intro hdir)]
            cases hscan : scan name 0 (s.inodes ip).entries with
            | none =>
              refine ⟨hne, ?_⟩
              intro _ q hq
              rw [hscan] at hq
              cases hq
            | some q =>
              obtain ⟨k, x⟩ := q
              dsimp only
              cases hi : iget t₁ x with
              | error e => exact fun he ↦ (he (iget_error hi)).elim
              | ok t₂ =>
                obtain ⟨hs₂, ht₂⟩ := iget_spec hi ht₁
                obtain ⟨hs₃, ht₃⟩ := iput_own (ht₂.perm (List.Perm.swap ip x own))
                apply (ih ((hsame₁.trans hs₂).trans hs₃) ht₃ (by omega)).imp
                exact walkAllocated_of_some hne hdir hscan (elems rest)
        · rw [if_pos hdir]
          exact ⟨hne, fun hd ↦ (hdir hd).elim⟩

/-- `namex` returns only if it looks into no free inode, and panics in `ilock` only if it does. -/
theorem namex_locks {p : Slot} {pr : Proc} (hp : s.procs p = some pr) (hs : Held s kept own)
    (parent : Bool) (path : Path) :
    Locks (WalkAllocated s.inodes (start pr path) (elems path)) (namex s pr parent path) := by
  rw [namex]
  by_cases hroot : path.head? = some 47
  · have hstart : start pr path = ROOTINO := if_pos hroot
    rw [if_pos hroot, hstart]
    cases hi : iget s ROOTINO with
    | error e => exact fun he ↦ (he (iget_error hi)).elim
    | ok t =>
      obtain ⟨hsame, ht⟩ := iget_spec hi hs
      exact namexLoop_locks hsame ht (Nat.le_refl _)
  · have hstart : start pr path = pr.cwd := if_neg hroot
    rw [if_neg hroot, hstart]
    obtain ⟨hsame, ht⟩ := idup_spec hs (Tables.refs_cwd hp)
    exact namexLoop_locks hsame ht (Nat.le_refl _)

end

/-! ### What a path leads to -/

/-- `namex` finds a slot for each inode that it needs, and looks into no free inode. -/
structure PathOk (s : State) (pr : Proc) (parent : Bool) (path : Path) : Prop where
  room : PathRoom s pr parent path
  allocated : WalkAllocated s.inodes (start pr path) (elems path)

theorem WalkRoom.dropLast {ip : Nat} {names : List Name} (h : WalkRoom s ip names) :
    WalkRoom s ip names.dropLast := by
  induction names generalizing ip with
  | nil => exact True.intro
  | cons name names ih =>
    cases names with
    | nil => exact True.intro
    | cons second names =>
      intro hdir q hq
      exact ⟨(h hdir q hq).1, ih (h hdir q hq).2⟩

/-- There is a slot for what the last element names. -/
theorem WalkRoom.last {ip dp : Nat} {names : List Name} {name : Name} (h : WalkRoom s ip names)
    (hparent : followParent s.inodes ip names = some (dp, name)) :
    ∀ q ∈ scan name 0 (s.inodes dp).entries, Finds s [dp] q.2 := by
  induction names generalizing ip with
  | nil => cases hparent
  | cons first names ih =>
    by_cases hnil : names = []
    · subst hnil
      rw [followParent_single] at hparent
      split at hparent
      · next hdir =>
        cases hparent
        exact fun q hq ↦ (h hdir q hq).1
      · cases hparent
    · rw [followParent_cons s.inodes ip first hnil] at hparent
      split at hparent
      · next hdir =>
        cases hscan : scan first 0 (s.inodes ip).entries with
        | none =>
          rw [lookup_none hscan] at hparent
          cases hparent
        | some q =>
          rw [lookup_some hscan, Option.bind_some] at hparent
          exact ih (h hdir q hscan).2 hparent
      · cases hparent

end

/-- No lock is held, and one reference is, to the inode that was returned. -/
structure Returned (s : State) (r : Option Nat) (t : Locking) : Prop where
  locked : ∀ x, t.locked x = false
  inodes : t.inodes = s.inodes
  tables : t.toTables = s.toTables
  ref : ∀ x, t.ref x = s.ref x + if r = some x then 1 else 0

/-- `namei` returns what the elements of the path lead to, `nameiparent` what all but the last lead
to, and the last is looked up in that. -/
structure FollowsPath (s : State) (pr : Proc) (path : Path) : Prop where
  namei : Returns (s.unlocked.namei pr path) (fun r ↦
    r.1 = follow s.inodes (start pr path) (elems path) ∧ Returned s r.1 r.2)
  nameiparent : Returns (s.unlocked.nameiparent pr path) (fun r ↦
    r.1 = followParent s.inodes (start pr path) (elems path) ∧ Returned s (r.1.map Prod.fst) r.2)
  last : ∀ dp name t, s.unlocked.nameiparent pr path = .ok (some (dp, name), t) →
    Returns (dirlookup t.toState dp name) (fun q ↦
      Returns (s.unlocked.namei pr path) (fun r ↦ r.1 = q.1.map Prod.snd))

section
variable {s : State} {p : Slot} {pr : Proc}

theorem count_holding (r : Option (Nat × Name)) (x : Nat) :
    (holding r).count x = if r.map Prod.fst = some x then 1 else 0 := by
  cases r with
  | none => rfl
  | some q =>
    rw [holding, Option.map_some, Option.toList_some, List.count_singleton]
    simp only [beq_iff_eq, Option.some.injEq]

/-- With room, and no free inode on the way, `namex` returns what `resolve` finds. -/
theorem namex_returns (hs : Held s [] []) (hp : s.procs p = some pr) {parent : Bool} {path : Path}
    (hok : PathOk s pr parent path) : Returns (s.unlocked.namex pr parent path) (fun r ↦
      r.1 = resolve s.inodes pr parent path ∧ Returned s (r.1.map Prod.fst) r.2) := by
  have hneeds := namex_room hp hs parent path
  have hlocks := namex_locks hp hs parent path
  rw [namex_unlocked]
  cases hname : namex s pr parent path with
  | error e =>
    rw [hname] at hneeds hlocks
    by_cases he : e = "iget: no inodes"
    · exact (hneeds he hok.room).elim
    · exact (hlocks he hok.allocated).elim
  | ok r =>
    obtain ⟨r, t⟩ := r
    obtain ⟨hr, hsame, ht⟩ := namex_spec hp hname hs
    refine ⟨(r, t.unlocked), rfl, hr, fun _ ↦ rfl, hsame.inodes, hsame.tables, ?_⟩
    intro x
    rw [← count_holding]
    exact hs.ref_eq hsame ht x

theorem PathOk.parent {path : Path} (h : PathOk s pr false path) : PathOk s pr true path :=
  ⟨⟨h.room.1, h.room.2.dropLast⟩, h.allocated⟩

theorem PathOk.namei {path : Path} (hs : Held s [] []) (hp : s.procs p = some pr)
    (h : PathOk s pr false path) : Returns (s.unlocked.namei pr path) (fun r ↦
      r.1 = follow s.inodes (start pr path) (elems path) ∧ Returned s r.1 r.2) := by
  apply (namex_returns hs hp h).bind
  rintro ⟨r, t⟩ ⟨hr, hret⟩
  refine Returns.pure ⟨?_, hret⟩
  dsimp only at hr ⊢
  rw [hr, resolve, walk_follow (Nat.le_refl _), Option.map_map]
  exact Option.map_id'

theorem PathOk.nameiparent {path : Path} (hs : Held s [] []) (hp : s.procs p = some pr)
    (h : PathOk s pr true path) : Returns (s.unlocked.nameiparent pr path) (fun r ↦
      r.1 = followParent s.inodes (start pr path) (elems path) ∧
        Returned s (r.1.map Prod.fst) r.2) := by
  apply (namex_returns hs hp h).mono
  rintro ⟨r, t⟩ ⟨hr, hret⟩
  refine ⟨?_, hret⟩
  rw [hr, resolve, walk_followParent (Nat.le_refl _)]

/-- The last element is looked up in what `nameiparent` returns. -/
theorem PathOk.last {path : Path} (hs : Held s [] []) (hp : s.procs p = some pr)
    (h : PathOk s pr false path) {dp : Nat} {name : Name} {t : Locking}
    (ht : s.unlocked.nameiparent pr path = .ok (some (dp, name), t)) :
    Returns (dirlookup t.toState dp name) (fun q ↦
      Returns (s.unlocked.namei pr path) (fun r ↦ r.1 = q.1.map Prod.snd)) := by
  obtain ⟨hparent, hret⟩ := (h.parent.nameiparent hs hp).elim ht
  have hfollow := follow_of_parent hparent.symm
  have hdir : (s.inodes dp).type = .dir := by
    rw [← walk_followParent (Nat.le_refl _)] at hparent
    exact walk_parent_dir hparent.symm
  have hlast (q : Option (Nat × Nat)) (hq : scan name 0 (s.inodes dp).entries = q) :
      Returns (s.unlocked.namei pr path) (fun r ↦ r.1 = q.map Prod.snd) := by
    apply (h.namei hs hp).mono
    rintro r ⟨hr, -⟩
    rw [hr, hfollow, lookup, hq]
  have href (y : Nat) : t.ref y = s.ref y + [dp].count y := by
    rw [hret.ref, List.count_singleton]
    simp only [Option.map_some, Option.some.injEq, beq_iff_eq]
  rw [dirlookup, hret.inodes, if_neg (not_not_intro hdir)]
  cases hscan : scan name 0 (s.inodes dp).entries with
  | none => exact Returns.ok (hlast none hscan)
  | some q =>
    rcases iget_cases href q.2 with ⟨-, u, hi⟩ | ⟨hfull, -⟩
    · dsimp only
      rw [hi]
      exact Returns.ok (hlast (some q) hscan)
    · exact (hfull (h.room.2.last hparent.symm q hscan)).elim

end

/-- Both follow the path exactly if there is a slot for each inode that `namei` needs and none that
it looks into is free. -/
theorem followsPath_iff {s : State} {p : Slot} {pr : Proc} (hs : Held s [] [])
    (hp : s.procs p = some pr) (path : Path) : FollowsPath s pr path ↔ PathOk s pr false path := by
  constructor
  · intro h
    obtain ⟨r, hr, -⟩ := h.namei
    obtain ⟨r', hr', -⟩ := bind_ok hr
    have hneeds := namex_room hp hs false path
    have hlocks := namex_locks hp hs false path
    rw [namex_unlocked] at hr'
    cases hname : namex s pr false path with
    | error e =>
      rw [hname] at hr'
      cases hr'
    | ok q =>
      rw [hname] at hneeds hlocks
      exact ⟨hneeds, hlocks⟩
  · intro h
    exact ⟨h.namei hs hp, h.parent.nameiparent hs hp, fun dp name t ht ↦ h.last hs hp ht⟩

theorem followsPath_iff_imageA :
    FollowsPath (boot imageA) ⟨fun _ ↦ none, ROOTINO⟩ pathA ∧
      follow (boot imageA).inodes ROOTINO (elems pathA) = some 2 := by
  have hok : PathOk (boot imageA) ⟨fun _ ↦ none, ROOTINO⟩ false pathA :=
    ⟨by decide +kernel, by decide +kernel⟩
  have hheld := (good_boot imageA).held
  exact ⟨(followsPath_iff hheld (boot_procs_init imageA) pathA).mpr hok, by decide +kernel⟩

/-- With all slots in use, `/a` names a file of the tree and `namei` panics. -/
theorem namei_panics_in_iget :
    ∃ s pr, run step (boot imageA) crowdedRun = some s ∧ s.procs 3 = some pr ∧
    follow s.inodes (start pr pathA) (elems pathA) = some 2 ∧
    s.unlocked.namei pr pathA = .error "iget: no inodes" := by
  obtain ⟨s, pr, hs, hp, -, hfollow, hname⟩ := crowdedRun_ends
  refine ⟨s, pr, hs, hp, hfollow, ?_⟩
  rw [Locking.namei, namex_unlocked, hname]
  rfl

/-- With a free inode on the way `namei` panics although there is room. -/
theorem namei_panics_in_ilock : ∃ s pr, run step (boot emptyImage) danglingRun = some s ∧
    s.procs initSlot = some pr ∧ s.unlocked.namei pr pathUpX = .error "ilock: no type" := by
  obtain ⟨s, pr, hs, hp, hname⟩ := danglingRun_ends
  refine ⟨s, pr, hs, hp, ?_⟩
  rw [Locking.namei, namex_unlocked, hname]
  rfl

end Xv6.Tree
