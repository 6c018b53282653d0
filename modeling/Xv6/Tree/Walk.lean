import Xv6.Tree.Refs

/-!
# Path resolution

What `namex` finds, as a function of the graph alone, and that `namex` computes it: it leaves
the graph and the tables as they were and holds one reference, to the inode it returns.
-/

namespace Xv6.Tree

open Xv6.Lib

/-- What the loop of `namex` finds from directory `ip` on. -/
def walk (m : Graph) (parent : Bool) : Nat → Nat → Path → Option (Nat × Name)
  | 0, ip, _ => if parent then none else some (ip, [])
  | fuel + 1, ip, path =>
    match skipelem path with
    | none => if parent then none else some (ip, [])
    | some (name, rest) =>
      if (m ip).type ≠ .dir then none
      else if parent ∧ rest = [] then some (ip, name)
      else match scan name 0 (m ip).entries with
        | none => none
        | some (_, next) => walk m parent fuel next rest

/-- Where the path starts. -/
def start (pr : Proc) (path : Path) : Nat := if path.head? = some 47 then ROOTINO else pr.cwd

/-- What `namex` finds. -/
def resolve (m : Graph) (pr : Proc) (parent : Bool) (path : Path) : Option (Nat × Name) :=
  walk m parent path.length (start pr path) path

/-- The inodes in hand after `namex` returned. -/
def holding (r : Option (Nat × Name)) : List Nat := (r.map Prod.fst).toList

/-! ### Lookups -/

theorem scan_some {name : Name} {es : List Dirent} {i k x : Nat}
    (h : scan name i es = some (k, x)) :
    ∃ j, k = i + j ∧ es[j]? = some ⟨x, name⟩ ∧ x ≠ 0 := by
  induction es generalizing i with
  | nil => cases h
  | cons e es ih =>
    rw [scan] at h
    split at h
    · next he =>
      cases h
      refine ⟨0, rfl, ?_, he.1⟩
      rw [← he.2]
      rfl
    · obtain ⟨j, hk, hj, hx⟩ := ih h
      exact ⟨j + 1, by omega, by simpa using hj, hx⟩

theorem scan_none {name : Name} {es : List Dirent} {i : Nat} (h : scan name i es = none) :
    ∀ e ∈ es, e.inum ≠ 0 → e.name ≠ name := by
  induction es generalizing i with
  | nil =>
    intro e he
    cases he
  | cons e es ih =>
    rw [scan] at h
    split at h
    · cases h
    · next he =>
      intro e' he' hne hname
      rcases List.mem_cons.mp he' with rfl | he'
      · exact he ⟨hne, hname⟩
      · exact ih h e' he' hne hname

/-- What a lookup finds is an entry in use with that name. -/
theorem scan_entry {name : Name} {es : List Dirent} {k x : Nat} (h : scan name 0 es = some (k, x)) :
    es[k]? = some ⟨x, name⟩ ∧ x ≠ 0 := by
  obtain ⟨j, rfl, hj, hx⟩ := scan_some h
  exact ⟨by simpa using hj, hx⟩

/-- A name that is not in a directory is neither `.` nor `..`. -/
theorem scan_none_ne {name : Name} {x : Nat} {es : List Dirent} (hd : Dots x es) (hx : x ≠ 0)
    (h : scan name 0 es = none) : name ≠ dot ∧ name ≠ dotdot := by
  obtain ⟨p, rest, rfl, hp, -⟩ := hd
  refine ⟨Ne.symm ?_, Ne.symm ?_⟩
  · exact scan_none h ⟨x, dot⟩ (by simp) hx
  · exact scan_none h ⟨p, dotdot⟩ (by simp) hp

section
variable {s s' : State} {kept own : List Nat}

theorem dirlookup_spec {d : Nat} {name : Name} {r : Option (Nat × Nat)}
    (hl : dirlookup s d name = .ok (r, s')) (h : Held s kept own) :
    (s.inodes d).type = .dir ∧ r = scan name 0 (s.inodes d).entries ∧ Same s s' ∧
      (∀ k x, r = some (k, x) → Held s' kept (x :: own)) ∧ (r = none → s' = s) := by
  rw [dirlookup] at hl
  split at hl
  · cases hl
  · next ht =>
    refine ⟨Decidable.not_not.mp ht, ?_⟩
    split at hl
    · next hn =>
      cases hl
      exact ⟨hn.symm, Same.refl s, (fun k x hx ↦ nomatch hx), fun _ ↦ rfl⟩
    · next k x hx =>
      obtain ⟨s₁, hi, hr⟩ := bind_ok hl
      cases hr
      obtain ⟨hsame, hheld⟩ := iget_spec hi h
      refine ⟨hx.symm, hsame, ?_, fun hn ↦ nomatch hn⟩
      intro k' x' he
      cases he
      exact hheld

/-- When `dirlink` succeeds, and that it then writes the entry and else changes nothing. -/
theorem dirlink_spec {space : Bool} {d : Nat} {name : Name} {x : Nat} {ok : Bool}
    (hl : dirlink s space d name x = .ok (ok, s')) (h : Held s kept own) :
    (ok = true ↔ scan name 0 (s.inodes d).entries = none ∧
      fits space (s.inodes d).entries = true) ∧
    (ok = true → s' = s.setInode d
      { s.inodes d with entries := put ⟨x, name⟩ (s.inodes d).entries }) ∧
    (ok = false → Same s s' ∧ Held s' kept own) := by
  obtain ⟨⟨r, s₁⟩, hlook, hl⟩ := bind_ok hl
  obtain ⟨ht, hr, hsame, hheld, hnone⟩ := dirlookup_spec hlook h
  cases r with
  | some q =>
    obtain ⟨k, y⟩ := q
    cases hl
    obtain ⟨hsame', hheld'⟩ := iput_own (hheld k y rfl)
    rw [← hr]
    exact ⟨by simp, (fun ho ↦ nomatch ho), fun _ ↦ ⟨hsame.trans hsame', hheld'⟩⟩
  | none =>
    cases hnone rfl
    simp only at hl
    rw [← hr]
    split at hl
    · next hf =>
      cases hl
      exact ⟨by simp [hf], fun _ ↦ rfl, fun ho ↦ nomatch ho⟩
    · next hf =>
      cases hl
      exact ⟨by simp [hf], (fun ho ↦ nomatch ho), fun _ ↦ ⟨Same.refl _, h⟩⟩

/-! ### Paths -/

theorem namexEnd_spec {parent : Bool} {ip : Nat} {r : Option (Nat × Name)}
    (hl : namexEnd parent s ip = (r, s')) (h : Held s kept (ip :: own)) :
    r = (if parent then none else some (ip, [])) ∧ Same s s' ∧
      Held s' kept (holding r ++ own) := by
  unfold namexEnd at hl
  split at hl
  · next hp =>
    cases hl
    obtain ⟨hsame, hheld⟩ := iput_own h
    exact ⟨(if_pos hp).symm, hsame, hheld⟩
  · next hp =>
    cases hl
    exact ⟨(if_neg hp).symm, Same.refl _, h⟩

/-- The loop of `namex` finds what `walk` does. -/
theorem namexLoop_spec {parent : Bool} {fuel ip : Nat} {path : Path} {r : Option (Nat × Name)}
    (hl : namexLoop parent fuel s ip path = .ok (r, s')) (h : Held s kept (ip :: own)) :
    r = walk s.inodes parent fuel ip path ∧ Same s s' ∧ Held s' kept (holding r ++ own) := by
  induction fuel generalizing s ip path with
  | zero =>
    rw [namexLoop] at hl
    exact namexEnd_spec (Except.ok.inj hl) h
  | succ fuel ih =>
    rw [namexLoop] at hl
    rw [walk]
    rcases hsk : skipelem path with _ | ⟨name, rest⟩
    · rw [hsk] at hl
      exact namexEnd_spec (Except.ok.inj hl) h
    · rw [hsk] at hl
      obtain ⟨s₁, hlock, hl⟩ := bind_ok hl
      obtain ⟨hs₁, hh₁, -, -⟩ := ilock_spec hlock h
      rw [hs₁.inodes] at hl
      simp only
      split at hl
      · next ht =>
        cases hl
        obtain ⟨hsame, hheld⟩ := iput_own hh₁
        exact ⟨(if_pos ht).symm, hs₁.trans hsame, hheld⟩
      · next ht =>
        rw [if_neg ht]
        split at hl
        · next hp =>
          cases hl
          exact ⟨(if_pos hp).symm, hs₁, hh₁⟩
        · next hp =>
          rw [if_neg hp]
          obtain ⟨⟨next, s₂⟩, hlook, hl⟩ := bind_ok hl
          obtain ⟨-, hr, hs₂, hh₂, hnone⟩ := dirlookup_spec hlook hh₁
          rw [hs₁.inodes] at hr
          cases next with
          | none =>
            cases hl
            cases hnone rfl
            obtain ⟨hsame, hheld⟩ := iput_own hh₁
            rw [← hr]
            exact ⟨rfl, hs₁.trans hsame, hheld⟩
          | some q =>
            obtain ⟨k, x⟩ := q
            have hswap := (hh₂ k x rfl).perm (List.Perm.swap ip x own)
            obtain ⟨hs₃, hh₃⟩ := iput_own hswap
            obtain ⟨hw, hsame, hheld⟩ := ih hl hh₃
            rw [← hr, hw, hs₃.inodes, hs₂.inodes, hs₁.inodes]
            rw [hw, hs₃.inodes, hs₂.inodes, hs₁.inodes] at hheld
            exact ⟨rfl, ((hs₁.trans hs₂).trans hs₃).trans hsame, hheld⟩

theorem Tables.refs_cwd {t : Tables} {p : Slot} {pr : Proc} (hp : t.procs p = some pr) :
    0 < t.refs pr.cwd := by
  have : 0 < hits (fun p ↦ (t.procs p).map Proc.cwd) (some pr.cwd) :=
    hits_pos_iff.mpr ⟨p, by rw [hp]; rfl⟩
  unfold Tables.refs
  omega

/-- `namex` finds what `resolve` says and holds a reference to it. -/
theorem namex_spec {p : Slot} {pr : Proc} (hp : s.procs p = some pr) {parent : Bool} {path : Path}
    {r : Option (Nat × Name)} (hl : namex s pr parent path = .ok (r, s')) (h : Held s kept own) :
    r = resolve s.inodes pr parent path ∧ Same s s' ∧ Held s' kept (holding r ++ own) := by
  rw [resolve, start]
  unfold namex at hl
  split at hl
  · next hroot =>
    rw [if_pos hroot]
    obtain ⟨s₁, hi, hl⟩ := bind_ok hl
    obtain ⟨hs₁, hh₁⟩ := iget_spec hi h
    obtain ⟨hr, hsame, hheld⟩ := namexLoop_spec hl hh₁
    exact ⟨by rw [hr, hs₁.inodes], hs₁.trans hsame, hheld⟩
  · next hroot =>
    rw [if_neg hroot]
    obtain ⟨hs₁, hh₁⟩ := idup_spec h (Tables.refs_cwd hp)
    obtain ⟨hr, hsame, hheld⟩ := namexLoop_spec hl hh₁
    exact ⟨by rw [hr, hs₁.inodes], hs₁.trans hsame, hheld⟩

/-- Resolution reads types and entries only. -/
theorem walk_congr {m m' : Graph} (ht : ∀ y, (m' y).type = (m y).type)
    (he : ∀ y, (m' y).entries = (m y).entries) (parent : Bool) (fuel ip : Nat) (path : Path) :
    walk m' parent fuel ip path = walk m parent fuel ip path := by
  induction fuel generalizing ip path with
  | zero => rfl
  | succ fuel ih =>
    rw [walk, walk]
    cases skipelem path with
    | none => rfl
    | some q =>
      simp only [ht, he]
      cases scan q.1 0 (m ip).entries with
      | none => rfl
      | some q' => simp only [ih]

/-- The inode that `nameiparent` returns is a directory. -/
theorem walk_parent_dir {m : Graph} {fuel ip : Nat} {path : Path} {d : Nat} {name : Name}
    (h : walk m true fuel ip path = some (d, name)) : (m d).type = .dir := by
  induction fuel generalizing ip path with
  | zero => cases h
  | succ fuel ih =>
    rw [walk] at h
    cases hsk : skipelem path with
    | none =>
      rw [hsk] at h
      cases h
    | some q =>
      rw [hsk] at h
      simp only at h
      split at h
      · cases h
      · next ht =>
        split at h
        · cases h
          exact Decidable.not_not.mp ht
        · cases hsc : scan q.1 0 (m ip).entries with
          | none =>
            rw [hsc] at h
            cases h
          | some q' =>
            rw [hsc] at h
            exact ih h

end

end Xv6.Tree
