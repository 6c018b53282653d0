import Xv6.Tree.Effects

/-!
# `sys_link` and `sys_unlink`

A completed `sys_link` or `sys_unlink` makes the change that `linkEdit` and `unlinkEdit` say,
and frees inodes left without links.
-/

namespace Xv6.Tree

open Xv6.Lib

section
variable {s s' : State} {kept : List Nat}

/-! ### `sys_link` -/

theorem links_eq_some {m : Graph} {pr : Proc} {space : Nat → Bool} {old new : Path} {d x : Nat}
    {name : Name} :
    links m pr space old new = some (d, name, x) ↔
      (∃ n, resolve m pr false old = some (x, n)) ∧ ¬((m x).type = .dir ∨ (m x).type = .free) ∧
        resolve m pr true new = some (d, name) ∧ scan name 0 (m d).entries = none ∧
        fits (space d) (m d).entries = true := by
  unfold links
  cases resolve m pr false old with
  | none => simp
  | some q =>
    obtain ⟨x', n'⟩ := q
    simp only [Option.some.injEq, Prod.mk.injEq]
    by_cases ht : (m x').type = .dir ∨ (m x').type = .free
    · rw [if_pos ht]
      constructor
      · exact fun h ↦ nomatch h
      · rintro ⟨⟨n, rfl, rfl⟩, hn, -⟩
        exact (hn ht).elim
    · rw [if_neg ht]
      cases resolve m pr true new with
      | none => simp
      | some q =>
        obtain ⟨d', name'⟩ := q
        simp only [Option.some.injEq, Prod.mk.injEq]
        constructor
        · intro h
          split at h
          · next hc =>
            cases h
            exact ⟨⟨n', rfl, rfl⟩, ht, ⟨rfl, rfl⟩, hc⟩
          · cases h
        · rintro ⟨⟨n, rfl, rfl⟩, -, ⟨rfl, rfl⟩, hc⟩
          rw [if_pos hc]

theorem linkEdit_none {m : Graph} {pr : Proc} {space : Nat → Bool} {old new : Path}
    (h : ∀ d name x, links m pr space old new ≠ some (d, name, x)) :
    linkEdit m pr space old new = m := by
  cases hc : links m pr space old new with
  | none => simp only [linkEdit, hc]
  | some q => exact (h q.1 q.2.1 q.2.2 hc).elim

theorem linkEdit_some {m : Graph} {pr : Proc} {space : Nat → Bool} {old new : Path} {d x : Nat}
    {name : Name} (h : links m pr space old new = some (d, name, x)) :
    linkEdit m pr space old new = attach m d x name (m x).incLink := by
  simp only [linkEdit, h]

/-- Undoing `ip->nlink++`, also when it wrapped around. -/
theorem decLink_incLink {ip : Inode} (h : ip.nlink < 2 ^ 16) : ip.incLink.decLink = ip := by
  have hn : ip.incLink.decLink.nlink = ip.nlink := by
    change (if (ip.nlink + 1) % 2 ^ 16 = 0 then 2 ^ 16 - 1 else (ip.nlink + 1) % 2 ^ 16 - 1) =
      ip.nlink
    split <;> omega
  have heta : ip.incLink.decLink = { ip with nlink := ip.incLink.decLink.nlink } := rfl
  rw [heta, hn]

/-- The end of a `sys_link` that fails takes the link back. -/
theorem linkBad_spec {m : Graph} {x : Nat} {r : Int} (hl : linkBad s x = .ok (r, s'))
    (h : Held s [x] []) (hm : s.inodes = Function.update m x (m x).incLink)
    (hw : (m x).nlink < 2 ^ 16) :
    s'.toTables = s.toTables ∧ Freed m s'.inodes ∧ Held s' [] [] := by
  obtain ⟨s₁, hlock, hl⟩ := bind_ok hl
  obtain ⟨hs₁, hh₁, -, -⟩ := ilock_spec hlock h
  cases hl
  have hh₂ : Held (s₁.setInode x (s₁.inodes x).decLink) [x] [] :=
    hh₁.setInode rfl (fun _ ↦ Or.inr List.mem_cons_self)
  obtain ⟨ht, hf, hheld⟩ := iput_kept hh₂
  have hback : (s₁.setInode x (s₁.inodes x).decLink).inodes = m := by
    rw [State.setInode_inodes, hs₁.inodes, hm, Function.update_self, Function.update_idem,
      decLink_incLink hw]
    exact Function.update_eq_self x m
  rw [hback] at hf
  exact ⟨ht.trans hs₁.tables, hf, hheld⟩

/-- The `sys_link` of an inode that was found. -/
theorem linkInode_spec {p : Slot} {pr : Proc} (hp : s.procs p = some pr) {space : Nat → Bool}
    {old new : Path} {x : Nat} {n : Name} {r : Int}
    (hl : linkInode s pr space x new = .ok (r, s')) (h : Held s [] [x])
    (hold : resolve s.inodes pr false old = some (x, n)) (hw : (s.inodes x).nlink < 2 ^ 16) :
    s'.toTables = s.toTables ∧ Freed (linkEdit s.inodes pr space old new) s'.inodes ∧
      Held s' [] [] := by
  obtain ⟨s₁, hlock, hl⟩ := bind_ok hl
  obtain ⟨hs₁, hh₁, hv₁, hfree⟩ := ilock_spec hlock h
  rw [hs₁.inodes] at hl
  split at hl
  · next hdir =>
    cases hl
    obtain ⟨hs₂, hh₂⟩ := iput_own hh₁
    rw [linkEdit_none, (hs₁.trans hs₂).inodes]
    · exact ⟨(hs₁.trans hs₂).tables, Freed.refl _, hh₂⟩
    · intro d name y hc
      rw [links_eq_some, hold] at hc
      obtain ⟨⟨_, hy⟩, hnd, -⟩ := hc
      cases hy
      exact hnd (Or.inl hdir)
  · next hdir =>
    obtain ⟨⟨r₂, s₂⟩, hname, hl⟩ := bind_ok hl
    have hh : Held (s₁.setInode x (s.inodes x).incLink) [x] [] := by
      apply (hh₁.keep hv₁).setInode
      · rw [hs₁.inodes]
        rfl
      · exact fun _ ↦ Or.inr List.mem_cons_self
    have hm : (s₁.setInode x (s.inodes x).incLink).inodes =
        Function.update s.inodes x (s.inodes x).incLink := by
      rw [State.setInode_inodes, hs₁.inodes]
    have hp₁ : (s₁.setInode x (s.inodes x).incLink).procs p = some pr := by
      change s₁.toTables.procs p = some pr
      rw [hs₁.tables]
      exact hp
    obtain ⟨hr₂, hs₂, hh₂⟩ := namex_spec hp₁ hname hh
    -- the link count does not matter for the path
    have hsee (y : Nat) : (Function.update s.inodes x (s.inodes x).incLink y).type =
          (s.inodes y).type ∧
        (Function.update s.inodes x (s.inodes x).incLink y).entries = (s.inodes y).entries := by
      by_cases hyx : y = x
      · rw [hyx, Function.update_self]
        exact ⟨rfl, rfl⟩
      · rw [Function.update_of_ne hyx]
        exact ⟨rfl, rfl⟩
    rw [hm, resolve, walk_congr (fun y ↦ (hsee y).1) (fun y ↦ (hsee y).2), ← resolve] at hr₂
    have hm₂ : s₂.inodes = Function.update s.inodes x (s.inodes x).incLink := hs₂.inodes.trans hm
    have ht₂ : s₂.toTables = s.toTables := hs₂.tables.trans hs₁.tables
    cases r₂ with
    | none =>
      obtain ⟨ht, hf, hheld⟩ := linkBad_spec hl hh₂ hm₂ hw
      rw [linkEdit_none]
      · exact ⟨ht.trans ht₂, hf, hheld⟩
      · intro d name y hc
        rw [links_eq_some, ← hr₂] at hc
        cases hc.2.2.1
    | some q =>
      obtain ⟨d, name⟩ := q
      have hd : (s.inodes d).type = .dir := walk_parent_dir hr₂.symm
      have hxd : d ≠ x := by
        rintro rfl
        exact hdir hd
      obtain ⟨s₃, hlock₃, hl⟩ := bind_ok hl
      obtain ⟨hs₃, hh₃, hv₃, -⟩ := ilock_spec hlock₃ hh₂
      obtain ⟨⟨ok, s₄⟩, hdirlink, hl⟩ := bind_ok hl
      obtain ⟨hok, htrue, hfalse⟩ := dirlink_spec hdirlink hh₃
      have hm₃ : s₃.inodes = Function.update s.inodes x (s.inodes x).incLink :=
        hs₃.inodes.trans hm₂
      have hd₃ : s₃.inodes d = s.inodes d := by
        rw [hm₃]
        exact Function.update_of_ne hxd ..
      have ht₃ : s₃.toTables = s.toTables := hs₃.tables.trans ht₂
      rw [hd₃] at hok htrue
      cases ok with
      | true =>
        cases hl
        have hc : links s.inodes pr space old new = some (d, name, x) :=
          links_eq_some.mpr
            ⟨⟨n, hold⟩, fun ht ↦ ht.elim hdir hfree, hr₂.symm, hok.mp rfl⟩
        have hh₄ : Held s₄ [x] [d] := by
          rw [htrue rfl]
          exact hh₃.setInode (by rw [hd₃]) (by rw [hd₃]; exact Or.inl)
        obtain ⟨hs₅, hh₅⟩ := iput_own hh₄
        obtain ⟨ht₆, hf₆, hh₆⟩ := iput_kept hh₅
        have hm₄ : s₄.inodes = attach s.inodes d x name (s.inodes x).incLink := by
          rw [htrue rfl, State.setInode_inodes, hm₃, attach, Inode.addEntry, Inode.incLink_type,
            if_neg hdir]
        have ht₄ : s₄.toTables = s.toTables := by
          rw [htrue rfl]
          exact ht₃
        rw [linkEdit_some hc, ← hm₄, ← hs₅.inodes]
        exact ⟨(ht₆.trans hs₅.tables).trans ht₄, hf₆, hh₆⟩
      | false =>
        obtain ⟨hs₄, hh₄⟩ := hfalse rfl
        obtain ⟨hs₅, hh₅⟩ := iput_own hh₄
        have hm₅ : (iput s₄ d).inodes = Function.update s.inodes x (s.inodes x).incLink :=
          (hs₅.inodes.trans hs₄.inodes).trans hm₃
        obtain ⟨ht, hf, hheld⟩ := linkBad_spec hl hh₅ hm₅ hw
        rw [linkEdit_none]
        · exact ⟨((ht.trans hs₅.tables).trans hs₄.tables).trans ht₃, hf, hheld⟩
        · intro d' name' y hc
          rw [links_eq_some, ← hr₂] at hc
          obtain ⟨-, -, hq, hcond⟩ := hc
          cases hq
          cases hok.mpr hcond

/-- `sys_link` makes the change that `linkEdit` says. -/
theorem sysLink_spec {p : Slot} {pr : Proc} (hp : s.procs p = some pr) {space : Nat → Bool}
    {old new : Path} {r : Int} (hl : sysLink s pr space (some old) (some new) = .ok (r, s'))
    (h : Held s [] []) (hw : ∀ x, (s.inodes x).nlink < 2 ^ 16) :
    s'.toTables = s.toTables ∧ Freed (linkEdit s.inodes pr space old new) s'.inodes ∧
      Held s' [] [] := by
  obtain ⟨⟨r₁, s₁⟩, hname, hl⟩ := bind_ok hl
  obtain ⟨hr₁, hs₁, hh₁⟩ := namex_spec hp hname h
  cases r₁ with
  | none =>
    cases hl
    have hno (d : Nat) (name : Name) (x : Nat) :
        links s.inodes pr space old new ≠ some (d, name, x) := by
      rw [Ne, links_eq_some, ← hr₁]
      rintro ⟨⟨n, hn⟩, -⟩
      cases hn
    rw [linkEdit_none hno, hs₁.inodes]
    exact ⟨hs₁.tables, Freed.refl _, hh₁⟩
  | some q =>
    obtain ⟨x, n⟩ := q
    have hp₁ : s₁.procs p = some pr := by
      rw [hs₁.tables]
      exact hp
    obtain ⟨ht, hf, hheld⟩ := linkInode_spec hp₁ hl hh₁
      (by rw [hs₁.inodes]; exact hr₁.symm) (by rw [hs₁.inodes]; exact hw x)
    rw [hs₁.inodes] at hf
    exact ⟨ht.trans hs₁.tables, hf, hheld⟩

/-! ### `sys_unlink` -/

theorem unlinks_eq_some {m : Graph} {pr : Proc} {path : Path} {d k x : Nat} :
    unlinks m pr path = some (d, k, x) ↔
      ∃ name, resolve m pr true path = some (d, name) ∧ ¬(name = dot ∨ name = dotdot) ∧
        scan name 0 (m d).entries = some (k, x) ∧ 1 ≤ short (m x).nlink ∧
        ((m x).type = .dir → isdirempty (m x) = true) := by
  unfold unlinks
  cases resolve m pr true path with
  | none => simp
  | some q =>
    obtain ⟨d', name⟩ := q
    simp only [Option.some.injEq, Prod.mk.injEq]
    by_cases hdots : name = dot ∨ name = dotdot
    · rw [if_pos hdots]
      constructor
      · exact fun h ↦ nomatch h
      · rintro ⟨name', ⟨rfl, rfl⟩, hn, -⟩
        exact (hn hdots).elim
    · rw [if_neg hdots]
      cases hscan : scan name 0 (m d').entries with
      | none =>
        constructor
        · exact fun h ↦ nomatch h
        · rintro ⟨name', ⟨rfl, rfl⟩, -, hq, -⟩
          rw [hscan] at hq
          cases hq
      | some q =>
        obtain ⟨k', x'⟩ := q
        simp only
        constructor
        · intro h
          split at h
          · cases h
          · next hc =>
            cases h
            refine ⟨name, ⟨rfl, rfl⟩, hdots, hscan, ?_, ?_⟩
            · exact Int.not_lt.mp (fun hlt ↦ hc (Or.inl hlt))
            · intro hdir
              cases he : isdirempty (m x) with
              | true => rfl
              | false => exact (hc (Or.inr ⟨hdir, by rw [he]; rfl⟩)).elim
        · rintro ⟨name', ⟨rfl, rfl⟩, -, hq, hlink, hempty⟩
          rw [hscan] at hq
          cases hq
          rw [if_neg]
          rintro (hlt | ⟨hdir, hne⟩)
          · omega
          · rw [hempty hdir] at hne
            cases hne

theorem unlinkEdit_none {m : Graph} {pr : Proc} {path : Path}
    (h : ∀ d k x, unlinks m pr path ≠ some (d, k, x)) : unlinkEdit m pr path = m := by
  cases hc : unlinks m pr path with
  | none => simp only [unlinkEdit, hc]
  | some q => exact (h q.1 q.2.1 q.2.2 hc).elim

theorem unlinkEdit_some {m : Graph} {pr : Proc} {path : Path} {d k x : Nat}
    (h : unlinks m pr path = some (d, k, x)) : unlinkEdit m pr path = detach m d k x := by
  simp only [unlinkEdit, h]

theorem short_pos {n : Nat} (h : 1 ≤ short n) : 0 < n := by
  unfold short at h
  split at h <;> omega

/-- An entry with another name than `.` and `..` comes after these. -/
theorem two_le_of_scan {es : List Dirent} {name : Name} {d k x : Nat} (hd : Dots d es)
    (hdots : ¬(name = dot ∨ name = dotdot)) (hscan : scan name 0 es = some (k, x)) : 2 ≤ k := by
  obtain ⟨p, rest, rfl, -⟩ := hd
  have hk := (scan_entry hscan).1
  match k, hk with
  | 0, hk =>
    cases hk
    exact (hdots (Or.inl rfl)).elim
  | 1, hk =>
    cases hk
    exact (hdots (Or.inr rfl)).elim
  | k + 2, _ => omega

/-- What `sys_unlink` removes can be detached. -/
theorem detachable {m : Graph} (hs : Shape m) {pr : Proc} {path : Path} {d k x : Nat}
    (h : unlinks m pr path = some (d, k, x)) : Detachable m d k x := by
  obtain ⟨name, hres, hdots, hscan, hlink, hempty⟩ := unlinks_eq_some.mp h
  have hdir : (m d).type = .dir := walk_parent_dir hres
  obtain ⟨hk, hx⟩ := scan_entry hscan
  exact ⟨hdir, two_le_of_scan (hs.dots d hdir) hdots hscan, hx, ⟨name, hk⟩, short_pos hlink,
    fun ht ↦ isdirempty_iff.mp (hempty ht)⟩

theorem Freed.update {m m' : Graph} (h : Freed m m') (x : Nat) (ip : Inode) :
    Freed (Function.update m x ip) (Function.update m' x ip) := by
  intro y
  by_cases hyx : y = x
  · rw [hyx, Function.update_self, Function.update_self]
    exact Or.inl rfl
  · rw [Function.update_of_ne hyx, Function.update_of_ne hyx]
    exact h y

/-- The removal of an entry that was found. -/
theorem unlinkEntry_spec {d k x : Nat} {r : Int} (hl : unlinkEntry s d k x = .ok (r, s'))
    (h : Held s [d] [x]) (hxd : x ≠ d) :
    s'.toTables = s.toTables ∧ Held s' [] [] ∧ 1 ≤ short (s.inodes x).nlink ∧
      if (s.inodes x).type = .dir ∧ isdirempty (s.inodes x) = false then
        Freed s.inodes s'.inodes
      else Freed (detach s.inodes d k x) s'.inodes := by
  obtain ⟨s₁, hlock, hl⟩ := bind_ok hl
  obtain ⟨hs₁, hh₁, hv₁, hfree⟩ := ilock_spec hlock h
  have hh := hh₁.keep hv₁
  simp only [hs₁.inodes] at hl
  split at hl
  · cases hl
  · next hlink =>
    have hlink' : 1 ≤ short (s.inodes x).nlink := Int.not_lt.mp hlink
    split at hl
    · next hne =>
      cases hl
      obtain ⟨ht₂, hf₂, hh₂⟩ := iput_kept hh
      obtain ⟨ht₃, hf₃, hh₃⟩ := iput_kept hh₂
      refine ⟨(ht₃.trans ht₂).trans hs₁.tables, hh₃, hlink', ?_⟩
      rw [if_pos (by simpa using hne), ← hs₁.inodes]
      exact hf₂.trans hf₃
    · next hne =>
      have hs' : iput
          ((iput (s₁.setInode d ((s.inodes d).clearEntry k (s.inodes x).type)) d).setInode x
            ((iput (s₁.setInode d ((s.inodes d).clearEntry k (s.inodes x).type)) d).inodes
              x).decLink)
          x = s' := (Prod.mk.inj (Except.ok.inj hl)).2
      have hh₂ : Held (s₁.setInode d ((s.inodes d).clearEntry k (s.inodes x).type)) [d, x] [] := by
        apply (hh.permKept (List.Perm.swap d x [])).setInode
        · rw [hs₁.inodes, Inode.clearEntry_type]
        · exact fun _ ↦ Or.inr List.mem_cons_self
      obtain ⟨ht₃, hf₃, hh₃⟩ := iput_kept hh₂
      have hx₃ : (iput (s₁.setInode d ((s.inodes d).clearEntry k (s.inodes x).type)) d).inodes x =
          s.inodes x := by
        have hx₂ : (s₁.setInode d ((s.inodes d).clearEntry k (s.inodes x).type)).inodes x =
            s.inodes x := by
          rw [State.setInode_inodes, Function.update_of_ne hxd, hs₁.inodes]
        have := short_pos hlink'
        rw [hf₃.eq_of_linked (by rw [hx₂]; exact hfree) (by rw [hx₂]; omega), hx₂]
      have hsame : (s.inodes x).decLink.type =
          ((iput (s₁.setInode d ((s.inodes d).clearEntry k (s.inodes x).type)) d).inodes
            x).type := by
        rw [hx₃, Inode.decLink_type]
      have hh₄ := hh₃.setInode hsame (fun _ ↦ Or.inr List.mem_cons_self)
      obtain ⟨ht₅, hf₅, hh₅⟩ := iput_kept hh₄
      have hedit : Freed (detach s.inodes d k x)
          ((iput (s₁.setInode d ((s.inodes d).clearEntry k (s.inodes x).type)) d).setInode x
            (s.inodes x).decLink).inodes := by
        rw [detach, Function.update_comm hxd]
        have := hf₃.update x (s.inodes x).decLink
        rwa [State.setInode_inodes, hs₁.inodes] at this
      rw [hx₃] at hs'
      rw [← hs', if_neg (by simpa using hne)]
      exact ⟨(ht₅.trans ht₃).trans hs₁.tables, hh₅, hlink', hedit.trans hf₅⟩

/-- `sys_unlink` makes the change that `unlinkEdit` says. -/
theorem sysUnlink_spec {p : Slot} {pr : Proc} (hp : s.procs p = some pr) {path : Path} {r : Int}
    (hl : sysUnlink s pr (some path) = .ok (r, s')) (h : Held s [] []) (hsh : Shape s.inodes) :
    s'.toTables = s.toTables ∧ Freed (unlinkEdit s.inodes pr path) s'.inodes ∧ Held s' [] [] := by
  obtain ⟨⟨r₁, s₁⟩, hname, hl⟩ := bind_ok hl
  obtain ⟨hr₁, hs₁, hh₁⟩ := namex_spec hp hname h
  cases r₁ with
  | none =>
    cases hl
    rw [unlinkEdit_none, hs₁.inodes]
    · exact ⟨hs₁.tables, Freed.refl _, hh₁⟩
    · intro d k x hc
      obtain ⟨name, hres, -⟩ := unlinks_eq_some.mp hc
      rw [← hr₁] at hres
      cases hres
  | some q =>
    obtain ⟨d, name⟩ := q
    obtain ⟨s₂, hlock, hl⟩ := bind_ok hl
    obtain ⟨hs₂, hh₂, hv₂, -⟩ := ilock_spec hlock hh₁
    have hs₁₂ := hs₁.trans hs₂
    simp only at hl
    split at hl
    · next hdots =>
      cases hl
      obtain ⟨hs₃, hh₃⟩ := iput_own hh₂
      have hs := hs₁₂.trans hs₃
      rw [unlinkEdit_none, hs.inodes]
      · exact ⟨hs.tables, Freed.refl _, hh₃⟩
      · intro d' k x hc
        obtain ⟨name', hres, hn, -⟩ := unlinks_eq_some.mp hc
        rw [← hr₁] at hres
        cases hres
        exact hn hdots
    · next hdots =>
      obtain ⟨⟨r₃, s₃⟩, hlook, hl⟩ := bind_ok hl
      have hkeep := hh₂.keep hv₂
      obtain ⟨hdir, hr₃, hs₃, hh₃, hnone⟩ := dirlookup_spec hlook hkeep
      rw [hs₁₂.inodes] at hr₃ hdir
      cases r₃ with
      | none =>
        cases hl
        cases hnone rfl
        obtain ⟨hs₄, hh₄⟩ := iput_own hh₂
        have hs := hs₁₂.trans hs₄
        rw [unlinkEdit_none, hs.inodes]
        · exact ⟨hs.tables, Freed.refl _, hh₄⟩
        · intro d' k x hc
          obtain ⟨name', hres, -, hscan, -⟩ := unlinks_eq_some.mp hc
          rw [← hr₁] at hres
          cases hres
          rw [← hr₃] at hscan
          cases hscan
      | some q =>
        obtain ⟨k, x⟩ := q
        have hs := hs₁₂.trans hs₃
        have hxd : x ≠ d := by
          obtain ⟨hk, hx⟩ := scan_entry hr₃.symm
          have hslot := two_le_of_scan (hsh.dots d hdir) hdots hr₃.symm
          exact (hsh.listed d x hx (names_pos_of_getElem hslot hk)).2.2.1
        obtain ⟨ht, hheld, hlink, hcase⟩ := unlinkEntry_spec hl (hh₃ k x rfl) hxd
        rw [hs.inodes] at hlink hcase
        refine ⟨ht.trans hs.tables, ?_, hheld⟩
        split at hcase
        · next hne =>
          rw [unlinkEdit_none]
          · exact hcase
          · intro d' k' x' hc
            obtain ⟨name', hres, -, hscan, -, hempty⟩ := unlinks_eq_some.mp hc
            rw [← hr₁] at hres
            cases hres
            rw [← hr₃] at hscan
            cases hscan
            rw [hempty hne.1] at hne
            exact nomatch hne.2
        · next hne =>
          rw [unlinkEdit_some (unlinks_eq_some.mpr
            ⟨name, hr₁.symm, hdots, hr₃.symm, hlink, ?_⟩)]
          · exact hcase
          · intro hdir
            cases he : isdirempty (s.inodes x) with
            | true => rfl
            | false => exact (hne ⟨hdir, he⟩).elim

end

end Xv6.Tree
