import Xv6.Tree.Walk

/-!
# What the calls do to the graph

For `create`, `sys_link` and `sys_unlink`: which inode they attach to or detach from which
directory, as a function of the graph before the call, and that a completed call makes this
change and frees inodes left without links, nothing else.
-/

namespace Xv6.Tree

open Xv6.Lib

/-- The inode that `create` makes in directory `d`. -/
def newInode (d x : Nat) (type : FileType) (major : Int) : Inode where
  type := type
  major := major
  nlink := 1
  entries := if type = .dir then [⟨x, dot⟩, ⟨d, dotdot⟩] else []

/-- The directory, the name and the new inode of a `create` that makes one. -/
def creates (m : Graph) (pr : Proc) (space : Nat → Bool) (path : Path) (type : FileType) :
    Option (Nat × Name × Nat) :=
  match resolve m pr true path with
  | none => none
  | some (d, name) =>
    match freeInode m with
    | none => none
    | some x =>
      if scan name 0 (m d).entries = none ∧ fits (space d) (m d).entries = true ∧
        (type = .dir → space x = true) then some (d, name, x) else none

/-- The directory, the name and the inode of a `sys_link` that makes an entry. -/
def links (m : Graph) (pr : Proc) (space : Nat → Bool) (old new : Path) :
    Option (Nat × Name × Nat) :=
  match resolve m pr false old with
  | none => none
  | some (x, _) =>
    if (m x).type = .dir ∨ (m x).type = .free then none
    else match resolve m pr true new with
      | none => none
      | some (d, name) =>
        if scan name 0 (m d).entries = none ∧ fits (space d) (m d).entries = true then
          some (d, name, x)
        else none

/-- The directory, the entry and the inode of a `sys_unlink` that removes one. -/
def unlinks (m : Graph) (pr : Proc) (path : Path) : Option (Nat × Nat × Nat) :=
  match resolve m pr true path with
  | none => none
  | some (d, name) =>
    if name = dot ∨ name = dotdot then none
    else match scan name 0 (m d).entries with
      | none => none
      | some (k, x) =>
        if short (m x).nlink < 1 ∨ ((m x).type = .dir ∧ !isdirempty (m x)) then none
        else some (d, k, x)

/-- The change that `create` makes. -/
def createEdit (m : Graph) (pr : Proc) (space : Nat → Bool) (path : Path) (type : FileType)
    (major : Int) : Graph :=
  match creates m pr space path type with
  | none => m
  | some (d, name, x) => attach m d x name (newInode d x type major)

/-- The change that `sys_link` makes. -/
def linkEdit (m : Graph) (pr : Proc) (space : Nat → Bool) (old new : Path) : Graph :=
  match links m pr space old new with
  | none => m
  | some (d, name, x) => attach m d x name (m x).incLink

/-- The change that `sys_unlink` makes. -/
def unlinkEdit (m : Graph) (pr : Proc) (path : Path) : Graph :=
  match unlinks m pr path with
  | none => m
  | some (d, k, x) => detach m d k x

/-! ### `create` -/

section
variable {s s' : State} {kept : List Nat}

theorem freeInode_some {m : Graph} {x : Nat} (h : freeInode m = some x) :
    (m x).type = .free ∧ x ≠ 0 ∧ x < NINODES := by
  obtain ⟨hlo, hhi, hfree, -⟩ := firstFrom_eq_some h
  have hN : NINODES = 200 := rfl
  exact ⟨by simpa using hfree, by omega, by omega⟩

/-- `ialloc`, `ilock` and the stores of `create` put the new inode into place. -/
theorem ialloc_spec {type : FileType} {x : Nat} {s₁ s₂ : State}
    (ha : ialloc s type = .ok (some x, s₁)) (hl : ilock s₁ x = .ok s₂) (h : Held s kept [])
    (major : Int) :
    freeInode s.inodes = some x ∧ s₂.toTables = s.toTables ∧
      s₂.inodes = Function.update s.inodes x
        { type := type, major := 0, nlink := 0, entries := [] } ∧
      (type ≠ .free → Held
        (s₂.setInode x { s₂.inodes x with major := major, nlink := 1 }) (x :: kept) []) := by
  rw [ialloc] at ha
  split at ha
  · next hnew =>
    obtain ⟨s₁', hi, ha⟩ := bind_ok ha
    cases ha
    refine ⟨hnew, ?_⟩
    obtain ⟨hfree, -, -⟩ := freeInode_some hnew
    have hzero : s.refs x + kept.count x = 0 := by
      apply Nat.eq_zero_of_not_pos
      exact fun hpos ↦ h.alloc x hpos hfree
    have hcount := h.count x
    rw [List.count_nil] at hcount
    have href : s.ref x = 0 := by omega
    -- the inode is not in the table, so that `iget` takes a new slot and `ilock` reads it
    rw [iget, if_neg (by change ¬ 0 < s.ref x; omega)] at hi
    split at hi
    · cases hi
    · cases hi
      have hone : Function.update s.ref x 1 x = 1 := Function.update_self ..
      rw [ilock] at hl
      simp only [State.setInode, Function.update_self] at hl
      rw [if_neg (by decide), if_neg (by decide)] at hl
      split at hl
      · cases hl
      · next htype =>
        cases hl
        refine ⟨rfl, rfl, ?_⟩
        intro _
        have hmem {y : Nat} (hy : y ∈ kept) : y ≠ x := by
          rintro rfl
          have := List.count_pos_iff.mpr hy
          omega
        refine ⟨?_, ?_, ?_, ?_, ?_⟩
        · intro y
          have := h.count y
          by_cases hyx : y = x
          · subst hyx
            simp only [State.setInode, Function.update_self, List.count_cons_self, List.count_nil]
            change 1 = s.refs y + _ + 0
            omega
          · simp only [State.setInode, Function.update_of_ne hyx,
              List.count_cons_of_ne (Ne.symm hyx)]
            exact this
        · intro y hpos
          by_cases hyx : y = x
          · rw [hyx]
            simpa [State.setInode] using htype
          · simp only [State.setInode, Function.update_of_ne hyx,
              List.count_cons_of_ne (Ne.symm hyx)] at hpos ⊢
            exact h.alloc y hpos
        · intro y hv hr
          by_cases hyx : y = x
          · rw [hyx]
            simpa [State.setInode] using htype
          · simp only [State.setInode, Function.update_of_ne hyx] at hv hr ⊢
            exact h.valid y hv hr
        · intro y hy
          rcases List.mem_cons.mp hy with rfl | hy
          · simp [State.setInode]
          · simp only [State.setInode, Function.update_of_ne (hmem hy)]
            exact h.keptValid y hy
        · intro y hty hly
          by_cases hyx : y = x
          · rw [hyx] at hly
            simp [State.setInode] at hly
          · simp only [State.setInode, Function.update_of_ne hyx,
              List.count_cons_of_ne (Ne.symm hyx)] at hty hly ⊢
            exact h.orphan y hty hly
  · cases ha

theorem ialloc_none {type : FileType} {s₁ : State} (ha : ialloc s type = .ok (none, s₁)) :
    freeInode s.inodes = none ∧ s₁ = s := by
  rw [ialloc] at ha
  split at ha
  · obtain ⟨s₁', hi, ha⟩ := bind_ok ha
    cases ha
  · next hn =>
    cases ha
    exact ⟨hn, rfl⟩

theorem fits_nil (space : Bool) : fits space [] = space := by
  cases space <;> rfl

theorem fits_one (space : Bool) {e : Dirent} (he : e.inum ≠ 0) : fits space [e] = true := by
  have hany : [e].any (fun e ↦ decide (e.inum = 0)) = false := by simpa using he
  rw [fits, hany]
  cases space <;> rfl

/-- The entries `.` and `..` of a new directory. -/
theorem createDots_spec {space : Bool} {d x : Nat} {ok : Bool}
    (hl : createDots s space d x = .ok (ok, s')) (h : Held s kept []) (hx : x ≠ 0)
    (hnil : (s.inodes x).entries = []) :
    (ok = true ↔ space = true) ∧
    (ok = true → s' = s.setInode x { s.inodes x with entries := [⟨x, dot⟩, ⟨d, dotdot⟩] }) ∧
    (ok = false → s'.toTables = s.toTables ∧ Held s' kept [] ∧
      ∃ es, s'.inodes = Function.update s.inodes x { s.inodes x with entries := es }) := by
  obtain ⟨⟨ok₁, s₁⟩, h₁, hl⟩ := bind_ok hl
  obtain ⟨hok₁, htrue₁, hfalse₁⟩ := dirlink_spec h₁ h
  rw [hnil, fits_nil] at hok₁
  have hspace : ok₁ = true ↔ space = true := by
    rw [hok₁]
    simp [scan]
  cases ok₁ with
  | false =>
    obtain ⟨hsame, hheld⟩ := hfalse₁ rfl
    cases hl
    refine ⟨hspace, (by intro ho; cases ho), fun _ ↦
      ⟨hsame.tables, hheld, (s.inodes x).entries, ?_⟩⟩
    rw [hsame.inodes]
    exact (Function.update_eq_self x s.inodes).symm
  | true =>
    have hs₁ := htrue₁ rfl
    rw [hnil] at hs₁
    have hheld₁ : Held s₁ kept [] := by
      rw [hs₁]
      exact h.setInode rfl Or.inl
    simp only [if_true] at hl
    obtain ⟨hok₂, htrue₂, hfalse₂⟩ := dirlink_spec hl hheld₁
    have hes : (s₁.inodes x).entries = [⟨x, dot⟩] := by
      rw [hs₁, State.setInode_inodes, Function.update_self]
      rfl
    have hok : ok = true := by
      rw [hok₂, hes, fits_one space hx]
      exact ⟨by simp [scan, dot, dotdot], rfl⟩
    subst hok
    refine ⟨by simpa using hspace, ?_, (by intro ho; cases ho)⟩
    intro _
    have hput : put ⟨d, dotdot⟩ [(⟨x, dot⟩ : Dirent)] = [⟨x, dot⟩, ⟨d, dotdot⟩] := by
      rw [put, if_neg hx]
      rfl
    rw [htrue₂ rfl, hes, hput, hs₁]
    simp [State.setInode]

/-- The entries that `create` makes. -/
theorem createLinks_spec {space : Nat → Bool} {d x : Nat} {name : Name} {type : FileType}
    {major : Int} {ok : Bool} (hl : createLinks s space d x name type = .ok (ok, s'))
    (h : Held s [x, d] []) (hx : x ≠ 0) (hxd : x ≠ d)
    (hnew : s.inodes x = { type := type, major := major, nlink := 1, entries := [] })
    (hscan : scan name 0 (s.inodes d).entries = none) :
    s'.toTables = s.toTables ∧ Held s' [x, d] [] ∧
    (ok = true ↔ fits (space d) (s.inodes d).entries = true ∧ (type = .dir → space x = true)) ∧
    (ok = true → s'.inodes = Function.update (Function.update s.inodes x (newInode d x type major))
      d { s.inodes d with entries := put ⟨x, name⟩ (s.inodes d).entries }) ∧
    (ok = false → ∃ es, s'.inodes = Function.update s.inodes x
      { s.inodes x with entries := es }) := by
  have hself : Function.update s.inodes x { s.inodes x with entries := [] } = s.inodes := by
    rw [hnew, ← hnew]
    exact Function.update_eq_self x s.inodes
  unfold createLinks at hl
  split at hl
  · next hdir =>
    obtain ⟨⟨ok₁, s₁⟩, h₁, hl⟩ := bind_ok hl
    obtain ⟨hok₁, htrue₁, hfalse₁⟩ := createDots_spec h₁ h hx (by rw [hnew])
    cases ok₁ with
    | false =>
      cases hl
      obtain ⟨ht, hheld, hes⟩ := hfalse₁ rfl
      have hspace : ¬ space x = true := fun hsp ↦ nomatch hok₁.mpr hsp
      exact ⟨ht, hheld, by simp [hdir, hspace], (fun ho ↦ nomatch ho), fun _ ↦ hes⟩
    | true =>
      have hs₁ := htrue₁ rfl
      have hspace := hok₁.mp rfl
      have hheld₁ : Held s₁ [x, d] [] := by
        rw [hs₁]
        exact h.setInode rfl Or.inl
      have hd : s₁.inodes d = s.inodes d := by
        rw [hs₁]
        exact Function.update_of_ne (Ne.symm hxd) ..
      simp only [if_true] at hl
      obtain ⟨hok, htrue, hfalse⟩ := dirlink_spec hl hheld₁
      rw [hd] at hok htrue
      have hino : s₁.inodes = Function.update s.inodes x (newInode d x type major) := by
        rw [hs₁, State.setInode_inodes, hnew]
        simp [newInode, hdir]
      refine ⟨?_, ?_, by rw [hok]; simp [hscan, hspace], ?_, ?_⟩
      · cases ok with
        | true => rw [htrue rfl, State.setInode_tables, hs₁, State.setInode_tables]
        | false => rw [(hfalse rfl).1.tables, hs₁, State.setInode_tables]
      · cases ok with
        | true =>
          rw [htrue rfl]
          exact hheld₁.setInode (by rw [hd]) (by rw [hd]; exact Or.inl)
        | false => exact (hfalse rfl).2
      · intro ho
        rw [htrue ho, State.setInode_inodes, hino]
      · intro ho
        exact ⟨[⟨x, dot⟩, ⟨d, dotdot⟩], by rw [(hfalse ho).1.inodes, hs₁]; rfl⟩
  · next hdir =>
    obtain ⟨hok, htrue, hfalse⟩ := dirlink_spec hl h
    have hino : Function.update s.inodes x (newInode d x type major) = s.inodes := by
      rw [newInode, if_neg hdir, ← hnew]
      exact Function.update_eq_self x s.inodes
    refine ⟨?_, ?_, by rw [hok]; simp [hscan, hdir], ?_, ?_⟩
    · cases ok with
      | true => rw [htrue rfl, State.setInode_tables]
      | false => exact (hfalse rfl).1.tables
    · cases ok with
      | true =>
        rw [htrue rfl]
        exact h.setInode rfl Or.inl
      | false => exact (hfalse rfl).2
    · intro ho
      rw [htrue ho, State.setInode_inodes, hino]
    · intro ho
      exact ⟨[], by rw [(hfalse ho).1.inodes, hself]⟩

/-- An inode that was allocated and freed again. -/
theorem Freed.of_update {m m' : Graph} {x : Nat} {ip : Inode}
    (h : Freed (Function.update m x ip) m') (hx : (m x).type = .free) (hip : ip.type ≠ .free)
    (hf : (m' x).type = .free) : Freed m m' := by
  intro y
  by_cases hyx : y = x
  · subst hyx
    right
    rcases h y with he | ⟨-, hfree⟩
    · rw [Function.update_self] at he
      exact (hip (he ▸ hf)).elim
    · exact ⟨Or.inl hx, hfree⟩
  · have := h y
    rwa [Function.update_of_ne hyx] at this

/-- The end of a `create` that fails frees the new inode. -/
theorem create_fail {m : Graph} {d x : Nat} {ip : Inode} (h : Held s [x, d] [])
    (hm : s.inodes = Function.update m x ip) (hx : (m x).type = .free) (hip : ip.type ≠ .free)
    (hxd : x ≠ d) (hrefs : s.refs x = 0) :
    let s₁ := s.setInode x { s.inodes x with nlink := 0 }
    (iput (iput s₁ x) d).toTables = s.toTables ∧ Freed m (iput (iput s₁ x) d).inodes ∧
      Held (iput (iput s₁ x) d) [] [] := by
  intro s₁
  have h₁ : Held s₁ [x, d] [] := h.setInode rfl (fun _ ↦ Or.inr List.mem_cons_self)
  have hm₁ : s₁.inodes = Function.update m x { ip with nlink := 0 } := by
    change Function.update s.inodes x { s.inodes x with nlink := 0 } = _
    rw [hm, Function.update_self, Function.update_idem]
  obtain ⟨ht₂, hf₂, h₂⟩ := iput_kept h₁
  obtain ⟨ht₃, hf₃, h₃⟩ := iput_kept h₂
  refine ⟨ht₃.trans ht₂, Freed.trans ?_ hf₃, h₃⟩
  rw [hm₁] at hf₂
  apply hf₂.of_update hx hip
  apply Classical.byContradiction
  intro hne
  have heq := hf₂.eq_of_ne_free hne
  rw [Function.update_self] at heq
  have hpos := (h₂.orphan x hne (by rw [heq])).2
  rw [List.count_singleton, if_neg (by simpa using Ne.symm hxd)] at hpos
  change 0 < (iput s₁ x).toTables.refs x + 0 at hpos
  rw [ht₂] at hpos
  change 0 < s.refs x + 0 at hpos
  omega

/-- `create` after the name was not found. -/
theorem createNew_spec {space : Nat → Bool} {d : Nat} {name : Name} {type : FileType} {major : Int}
    {r : Option Nat} (hl : createNew s space d name type major = .ok (r, s')) (h : Held s [d] [])
    (hdir : (s.inodes d).type = .dir) (hscan : scan name 0 (s.inodes d).entries = none)
    (htype : type ≠ .free) :
    s'.toTables = s.toTables ∧ Held s' r.toList [] ∧
    ((∃ x, freeInode s.inodes = some x ∧ fits (space d) (s.inodes d).entries = true ∧
        (type = .dir → space x = true) ∧ r = some x ∧
        Freed (attach s.inodes d x name (newInode d x type major)) s'.inodes) ∨
      (∀ x, freeInode s.inodes = some x →
        ¬ (fits (space d) (s.inodes d).entries = true ∧ (type = .dir → space x = true))) ∧
        r = none ∧ Freed s.inodes s'.inodes) := by
  obtain ⟨⟨r₁, s₁⟩, halloc, hl⟩ := bind_ok hl
  cases r₁ with
  | none =>
    cases hl
    obtain ⟨hnone, rfl⟩ := ialloc_none halloc
    obtain ⟨ht, hf, hheld⟩ := iput_kept h
    refine ⟨ht, hheld, Or.inr ⟨?_, rfl, hf⟩⟩
    intro x hx
    rw [hnone] at hx
    cases hx
  | some x =>
    obtain ⟨s₂, hlock, hl⟩ := bind_ok hl
    obtain ⟨hfree, htab, hino, hheld⟩ := ialloc_spec halloc hlock h major
    obtain ⟨hx, hx0, -⟩ := freeInode_some hfree
    have hxd : x ≠ d := by
      rintro rfl
      exact FileType.ne_free hdir hx
    have hd₂ : s₂.inodes d = s.inodes d := by
      rw [hino]
      exact Function.update_of_ne (Ne.symm hxd) ..
    obtain ⟨⟨ok, s₃⟩, hlinks, hl⟩ := bind_ok hl
    have hm₂ : (s₂.setInode x { s₂.inodes x with major := major, nlink := 1 }).inodes =
        Function.update s.inodes x { type := type, major := major, nlink := 1, entries := [] } := by
      rw [State.setInode_inodes, hino, Function.update_self, Function.update_idem]
    have hd₃ : (s₂.setInode x { s₂.inodes x with major := major, nlink := 1 }).inodes d =
        s.inodes d := by
      rw [hm₂]
      exact Function.update_of_ne (Ne.symm hxd) ..
    obtain ⟨ht₃, hh₃, hok, htrue, hfalse⟩ := createLinks_spec hlinks (hheld htype) hx0 hxd
      (by rw [hm₂, Function.update_self]) (by rw [hd₃]; exact hscan)
    rw [hd₃, hm₂, Function.update_idem] at htrue
    rw [hd₃] at hok
    simp only [hm₂, Function.update_self, Function.update_idem] at hfalse
    have ht : s₃.toTables = s.toTables := ht₃.trans htab
    cases ok with
    | true =>
      simp only [if_true] at hl
      have hmod : (if type = .dir then s₃.setInode d (s₃.inodes d).incLink else s₃).inodes =
          attach s.inodes d x name (newInode d x type major) := by
        rw [attach, Inode.addEntry]
        change _ = Function.update _ d (if type = .dir then _ else _)
        split
        · rw [State.setInode_inodes, htrue rfl, Function.update_self, Function.update_idem]
        · exact htrue rfl
      have hheld₄ : Held (if type = .dir then s₃.setInode d (s₃.inodes d).incLink else s₃)
          [d, x] [] := by
        have hswap := hh₃.permKept (List.Perm.swap d x [])
        split
        · exact hswap.setInode rfl (fun _ ↦ Or.inr List.mem_cons_self)
        · exact hswap
      have htab₄ : (if type = .dir then s₃.setInode d (s₃.inodes d).incLink else s₃).toTables =
          s.toTables := by
        split
        · exact ht
        · exact ht
      obtain ⟨ht₅, hf₅, hh₅⟩ := iput_kept hheld₄
      cases hl
      rw [hmod] at hf₅
      exact ⟨ht₅.trans htab₄, hh₅, Or.inl ⟨x, hfree, (hok.mp rfl).1, (hok.mp rfl).2, rfl, hf₅⟩⟩
    | false =>
      obtain ⟨es, hes⟩ := hfalse rfl
      have hrefs : s₃.refs x = 0 := by
        apply Nat.eq_zero_of_not_pos
        intro hpos
        change 0 < s₃.toTables.refs x at hpos
        rw [ht] at hpos
        exact h.alloc x (by omega) hx
      obtain ⟨ht₅, hf₅, hh₅⟩ := create_fail hh₃ hes hx htype hxd hrefs
      cases hl
      refine ⟨ht₅.trans ht, hh₅, Or.inr ⟨?_, rfl, hf₅⟩⟩
      intro y hy hcond
      rw [hfree] at hy
      cases hy
      cases hok.mpr hcond

theorem creates_eq_some {m : Graph} {pr : Proc} {space : Nat → Bool} {path : Path} {type : FileType}
    {d x : Nat} {name : Name} :
    creates m pr space path type = some (d, name, x) ↔
      resolve m pr true path = some (d, name) ∧ freeInode m = some x ∧
        scan name 0 (m d).entries = none ∧ fits (space d) (m d).entries = true ∧
        (type = .dir → space x = true) := by
  unfold creates
  cases resolve m pr true path with
  | none => simp
  | some q =>
    obtain ⟨d', name'⟩ := q
    cases freeInode m with
    | none => simp
    | some x' =>
      simp only [Option.some.injEq, Prod.mk.injEq]
      constructor
      · intro h
        split at h
        · next hc =>
          cases h
          exact ⟨⟨rfl, rfl⟩, rfl, hc⟩
        · cases h
      · rintro ⟨⟨rfl, rfl⟩, rfl, hc⟩
        rw [if_pos hc]

theorem createEdit_some {m : Graph} {pr : Proc} {space : Nat → Bool} {path : Path}
    {type : FileType} {major : Int} {d x : Nat} {name : Name}
    (h : creates m pr space path type = some (d, name, x)) :
    createEdit m pr space path type major = attach m d x name (newInode d x type major) := by
  simp only [createEdit, h]

theorem createEdit_none {m : Graph} {pr : Proc} {space : Nat → Bool} {path : Path} {type : FileType}
    {major : Int} (h : ∀ d name x, creates m pr space path type ≠ some (d, name, x)) :
    createEdit m pr space path type major = m := by
  cases hc : creates m pr space path type with
  | none => simp only [createEdit, hc]
  | some q => exact (h q.1 q.2.1 q.2.2 hc).elim

/-- `create` makes the change that `createEdit` says, or returns a file that was there. -/
theorem create_spec {p : Slot} {pr : Proc} (hp : s.procs p = some pr) {space : Nat → Bool}
    {path : Path} {type : FileType} {major : Int} {r : Option Nat}
    (hl : create s pr space path type major = .ok (r, s')) (h : Held s [] [])
    (htype : type ≠ .free) :
    s'.toTables = s.toTables ∧ Held s' r.toList [] ∧
    Freed (createEdit s.inodes pr space path type major) s'.inodes ∧
    (∀ x, r = some x → (∃ d name, creates s.inodes pr space path type = some (d, name, x)) ∨
      ∃ d name k, resolve s.inodes pr true path = some (d, name) ∧
        scan name 0 (s.inodes d).entries = some (k, x)) := by
  obtain ⟨⟨r₁, s₁⟩, hname, hl⟩ := bind_ok hl
  obtain ⟨hr₁, hs₁, hh₁⟩ := namex_spec hp hname h
  cases r₁ with
  | none =>
    cases hl
    have hedit : createEdit s.inodes pr space path type major = s.inodes := by
      apply createEdit_none
      intro d name x hc
      rw [creates_eq_some, ← hr₁] at hc
      exact nomatch hc.1
    rw [hedit, hs₁.inodes]
    exact ⟨hs₁.tables, hh₁, Freed.refl _, fun x hx ↦ nomatch hx⟩
  | some q =>
    obtain ⟨d, name⟩ := q
    obtain ⟨s₂, hlock, hl⟩ := bind_ok hl
    obtain ⟨hs₂, hh₂, hv₂, -⟩ := ilock_spec hlock hh₁
    obtain ⟨⟨r₃, s₃⟩, hlook, hl⟩ := bind_ok hl
    obtain ⟨hdir, hr₃, hs₃, hh₃, hnone⟩ := dirlookup_spec hlook hh₂
    have hs₁₂ := hs₁.trans hs₂
    rw [hs₁₂.inodes] at hdir hr₃
    cases r₃ with
    | some q =>
      obtain ⟨k, x⟩ := q
      have hedit : createEdit s.inodes pr space path type major = s.inodes := by
        apply createEdit_none
        intro d' name' x' hc
        rw [creates_eq_some, ← hr₁] at hc
        obtain ⟨hq, -, hscan, -⟩ := hc
        cases hq
        rw [← hr₃] at hscan
        cases hscan
      have hswap := (hh₃ k x rfl).perm (List.Perm.swap d x [])
      obtain ⟨hs₄, hh₄⟩ := iput_own hswap
      obtain ⟨s₅, hlock₅, hl⟩ := bind_ok hl
      obtain ⟨hs₅, hh₅, hv₅, -⟩ := ilock_spec hlock₅ hh₄
      have hs := ((hs₁₂.trans hs₃).trans hs₄).trans hs₅
      rw [hedit]
      simp only at hl
      split at hl
      · cases hl
        rw [hs.inodes]
        refine ⟨hs.tables, hh₅.keep hv₅, Freed.refl _, ?_⟩
        intro y hy
        cases hy
        exact Or.inr ⟨d, name, k, hr₁.symm, hr₃.symm⟩
      · cases hl
        obtain ⟨hs₆, hh₆⟩ := iput_own hh₅
        have hs' := hs.trans hs₆
        rw [hs'.inodes]
        exact ⟨hs'.tables, hh₆, Freed.refl _, fun y hy ↦ nomatch hy⟩
    | none =>
      cases hnone rfl
      obtain ⟨ht, hheld, hcase⟩ :=
        createNew_spec hl (hh₂.keep hv₂) (by rw [hs₁₂.inodes]; exact hdir)
        (by rw [hs₁₂.inodes]; exact hr₃.symm) htype
      rw [hs₁₂.inodes] at hcase
      refine ⟨ht.trans hs₁₂.tables, hheld, ?_⟩
      rcases hcase with ⟨x, hfree, hfits, hspace, hr, hf⟩ | ⟨hno, hr, hf⟩
      · have hc := creates_eq_some.mpr ⟨hr₁.symm, hfree, hr₃.symm, hfits, hspace⟩
        rw [createEdit_some hc]
        refine ⟨hf, ?_⟩
        intro y hy
        rw [hr] at hy
        cases hy
        exact Or.inl ⟨d, name, hc⟩
      · rw [createEdit_none]
        · refine ⟨hf, ?_⟩
          intro y hy
          rw [hr] at hy
          cases hy
        · intro d' name' x hc
          rw [creates_eq_some, ← hr₁] at hc
          obtain ⟨hq, hfree, -, hfits, hspace⟩ := hc
          cases hq
          exact hno x hfree ⟨hfits, hspace⟩

end

end Xv6.Tree
