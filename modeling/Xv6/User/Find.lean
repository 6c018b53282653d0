import Mathlib.Data.List.Perm.Basic
import Xv6.Tree.Path

/-!
# `find`

`utilities/find.c` on a directory tree. A path is opened as `sys_open` does it
(`kernel/sysfile.c:304`) for reading only: it has to fit in `MAXPATH` bytes, lead to an inode, and
find a free descriptor. Each call of `find` has its own `buf`, so that what a call does depends on
its path only.
-/

namespace Xv6.Find

open Xv6.Tree

/-- `sizeof buf`; `utilities/find.c:8`. -/
def BUFSIZE : Nat := 512

/-- The file system, and the process that runs `find`. -/
structure Env where
  graph : Graph
  proc : Tree.Proc

/-- What is printed: the path of a match, or a message. -/
inductive Out where
  | line (path : Path)
  | tooLong
  | cannotOpen (path : Path)
  | cannotStat (path : Path)
  deriving DecidableEq, Repr

/-- `open(path, 0)` of a process with `fds` open descriptors: the inode, or `none` for -1. -/
def Env.openPath (env : Env) (fds : Nat) (path : Path) : Option Nat :=
  if MAXPATH ≤ path.length ∨ NOFILE ≤ fds then none
  else match resolve env.graph env.proc false path with
    | none => none
    | some (x, _) =>
      let ip := env.graph x
      if ip.type = .device ∧ (ip.major < 0 ∨ (NDEV : Int) ≤ ip.major) then none else some x

/-- The part of a path after its last slash; `utilities/find.c:28–32`. -/
def basename (path : Path) : Path := (path.reverse.takeWhile (fun c ↦ c ≠ 47)).reverse

/-- The loop over the entries of a directory; `utilities/find.c:47–60`. `path` ends in a slash. -/
def findEntries (stat : Path → Bool) (find : Path → Option (List Out)) (target path : Path) :
    List Dirent → Option (List Out)
  | [] => some []
  | e :: es =>
    if e.inum = 0 then findEntries stat find target path es
    else if e.name = dot ∨ e.name = dotdot then findEntries stat find target path es
    else
      let buf := path ++ e.name
      if stat buf then do
        let below ← find buf
        let rest ← findEntries stat find target path es
        return (if e.name = target then [.line buf] else []) ++ below ++ rest
      else do
        let rest ← findEntries stat find target path es
        return .cannotStat buf :: rest

/-- `find`, with `fds` descriptors open and at most `fuel` calls inside each other;
`utilities/find.c:6–66`. -/
def find (env : Env) (target : Path) : Nat → Nat → Path → Option (List Out)
  | 0, _, _ => none
  | fuel + 1, fds, path =>
    match env.openPath fds path with
    | none => some [.cannotOpen path]
    | some x =>
      match (env.graph x).type with
      | .file => some (if basename path = target then [.line path] else [])
      | .dir =>
        if BUFSIZE < path.length + 1 + DIRSIZ + 1 then some [.tooLong]
        else findEntries (fun buf ↦ (env.openPath (fds + 1) buf).isSome)
          (find env target fuel (fds + 1)) target (path ++ [47]) (env.graph x).entries
      | _ => some []

/-! ### The tree -/

/-- The entries of a directory that are in use, without `.` and `..`. -/
def listed (es : List Dirent) : List Dirent :=
  es.filter (fun e ↦ e.inum ≠ 0 ∧ e.name ≠ dot ∧ e.name ≠ dotdot)

/-- Below `x` there is a tree of at most `d` levels, and no slash in a name. -/
def TreeBelow (m : Graph) : Nat → Nat → Prop
  | 0, x => (m x).type ≠ .dir
  | d + 1, x => (m x).type = .dir →
    ∀ e ∈ listed (m x).entries, 47 ∉ e.name ∧ TreeBelow m d e.inum

instance decidableTreeBelow (m : Graph) : (d x : Nat) → Decidable (TreeBelow m d x)
  | 0, x => inferInstanceAs (Decidable ((m x).type ≠ .dir))
  | d + 1, x =>
    have (y : Nat) : Decidable (TreeBelow m d y) := decidableTreeBelow m d y
    inferInstanceAs (Decidable ((m x).type = .dir →
      ∀ e ∈ listed (m x).entries, 47 ∉ e.name ∧ TreeBelow m d e.inum))

/-- The entries strictly below `x`, each with the names that lead to it and its inode. -/
def below (m : Graph) : Nat → Nat → List (List Name × Nat)
  | 0, _ => []
  | d + 1, x =>
    if (m x).type = .dir then
      (listed (m x).entries).flatMap (fun e ↦
        ([e.name], e.inum) :: (below m d e.inum).map (fun r ↦ (e.name :: r.1, r.2)))
    else []

/-- A start path and names, joined by slashes. -/
def joined (path : Path) (names : List Name) : Path := path ++ names.flatMap (fun name ↦ 47 :: name)

/-- The entry has the name that is looked for. -/
def Matches (target : Name) (r : List Name × Nat) : Prop := r.1.getLast? = some target

instance (target : Name) (r : List Name × Nat) : Decidable (Matches target r) :=
  inferInstanceAs (Decidable (_ = _))

/-- One line for each entry below `x` that has the name. -/
def expected (m : Graph) (target path : Path) (d x : Nat) : List Out :=
  ((below m d x).filter (fun r ↦ Matches target r)).map (fun r ↦ .line (joined path r.1))

/-- `path` leads to directory `x` with a tree of at most `d` levels, all of whose entries can be
opened: neither the paths nor the descriptors run out. -/
structure Searchable (env : Env) (fds : Nat) (path : Path) (d x : Nat) : Prop where
  dir : (env.graph x).type = .dir
  tree : TreeBelow env.graph d x
  start : env.openPath fds path = some x
  entries : ∀ r ∈ below env.graph d x,
    env.openPath (fds + r.1.length) (joined path r.1) = some r.2

/-- `find` returns, and has printed each match once and nothing else. -/
def FindsOnce (env : Env) (target : Path) (fds : Nat) (path : Path) (d x : Nat) : Prop :=
  ∃ out, find env target (d + 1) fds path = some out ∧
    out.Perm (expected env.graph target path d x)

/-! ### What `find` prints -/

section
variable {env : Env} {target : Path}

/-- The lines for an entry: one where it is listed, another where a file is reached. -/
def report (m : Graph) (target path : Path) (r : List Name × Nat) : List Out :=
  if Matches target r then
    .line (joined path r.1) :: if (m r.2).type = .file then [.line (joined path r.1)] else []
  else []

/-- The line for the start of a search itself. -/
def reportSelf (m : Graph) (target path : Path) (x : Nat) : List Out :=
  if (m x).type = .file ∧ basename path = target then [.line path] else []

theorem basename_child {name : Name} (h : 47 ∉ name) (path : Path) :
    basename (path ++ [47] ++ name) = name := by
  have hall : ∀ c ∈ name.reverse, decide (c ≠ 47) = true := by
    intro c hc
    rw [decide_eq_true_eq]
    rintro rfl
    exact h (List.mem_reverse.mp hc)
  rw [basename, List.reverse_append, List.reverse_append, List.takeWhile_append_of_pos hall]
  simp

theorem joined_single (path : Path) (name : Name) : joined path [name] = path ++ [47] ++ name := by
  simp [joined]

theorem joined_cons (path : Path) (name : Name) (names : List Name) :
    joined path (name :: names) = joined (path ++ [47] ++ name) names := by
  simp [joined]

/-- Every entry has a name. -/
theorem names_ne_nil {m : Graph} {d x : Nat} {r : List Name × Nat} (h : r ∈ below m d x) :
    r.1 ≠ [] := by
  cases d with
  | zero => cases h
  | succ d =>
    rw [below] at h
    split at h
    · obtain ⟨e, -, hr⟩ := List.mem_flatMap.mp h
      rcases List.mem_cons.mp hr with rfl | hr
      · exact List.cons_ne_nil _ _
      · obtain ⟨r', -, rfl⟩ := List.mem_map.mp hr
        exact List.cons_ne_nil _ _
    · cases h

/-- A match below an entry is a match below its directory. -/
theorem report_cons (m : Graph) (path : Path) (name : Name) {r : List Name × Nat} (hne : r.1 ≠ []) :
    report m target path (name :: r.1, r.2) = report m target (path ++ [47] ++ name) r := by
  have hlast : (name :: r.1).getLast? = r.1.getLast? := by
    rw [List.getLast?_cons, List.getLast?_eq_some_getLast hne]
    rfl
  have hiff : Matches target (name :: r.1, r.2) ↔ Matches target r := by
    unfold Matches
    rw [hlast]
  simp only [report, hiff, joined_cons]

/-- The entries below an entry, and the entry itself. -/
theorem report_entry (m : Graph) (path : Path) {name : Name} (hname : 47 ∉ name) (d x : Nat) :
    (([name], x) :: (below m d x).map (fun r ↦ (name :: r.1, r.2))).flatMap (report m target path) =
      (if name = target then [.line (path ++ [47] ++ name)] else []) ++
        (reportSelf m target (path ++ [47] ++ name) x ++
          (below m d x).flatMap (report m target (path ++ [47] ++ name))) := by
  have hrest : ((below m d x).map (fun r ↦ (name :: r.1, r.2))).flatMap (report m target path) =
      (below m d x).flatMap (report m target (path ++ [47] ++ name)) := by
    rw [List.flatMap_map]
    apply List.flatMap_congr
    intro r hr
    exact report_cons m path name (names_ne_nil hr)
  have hself : report m target path ([name], x) =
      (if name = target then [.line (path ++ [47] ++ name)] else []) ++
        reportSelf m target (path ++ [47] ++ name) x := by
    have hiff : Matches target ([name], x) ↔ name = target := Option.some_inj
    simp only [report, reportSelf, hiff, basename_child hname, joined_single]
    by_cases hn : name = target
    · by_cases hf : (m x).type = .file
      · simp only [hn, hf, and_self, if_true, List.singleton_append]
      · simp only [hn, hf, false_and, if_true, if_false, List.append_nil]
    · simp only [hn, and_false, if_false, List.append_nil]
  rw [List.flatMap_cons, hrest, hself, List.append_assoc]

theorem length_of_openPath {fds x : Nat} {path : Path} (h : env.openPath fds path = some x) :
    path.length < MAXPATH := by
  rw [Env.openPath] at h
  split at h
  · cases h
  · omega

/-- The loop over entries that can be opened, with a search below each. -/
theorem findEntries_eq {stat : Path → Bool} {find : Path → Option (List Out)} {path : Path}
    {d : Nat}
    {es : List Dirent} (hstat : ∀ e ∈ listed es, stat (path ++ [47] ++ e.name) = true)
    (hname : ∀ e ∈ listed es, 47 ∉ e.name)
    (hfind : ∀ e ∈ listed es, find (path ++ [47] ++ e.name) =
      some (reportSelf env.graph target (path ++ [47] ++ e.name) e.inum ++
        (below env.graph d e.inum).flatMap (report env.graph target (path ++ [47] ++ e.name)))) :
    findEntries stat find target (path ++ [47]) es =
      some ((listed es).flatMap (fun e ↦ (([e.name], e.inum) ::
        (below env.graph d e.inum).map (fun r ↦ (e.name :: r.1, r.2))).flatMap
          (report env.graph target path))) := by
  induction es with
  | nil => rfl
  | cons e es ih =>
    by_cases he : e.inum ≠ 0 ∧ e.name ≠ dot ∧ e.name ≠ dotdot
    · have hlist : listed (e :: es) = e :: listed es := List.filter_cons_of_pos (decide_eq_true he)
      have hself : e ∈ listed (e :: es) := by
        rw [hlist]
        exact List.mem_cons_self
      have hrest := ih (fun e' he' ↦ hstat e' (by rw [hlist]; exact List.mem_cons_of_mem e he'))
        (fun e' he' ↦ hname e' (by rw [hlist]; exact List.mem_cons_of_mem e he'))
        (fun e' he' ↦ hfind e' (by rw [hlist]; exact List.mem_cons_of_mem e he'))
      rw [findEntries, if_neg he.1, if_neg (not_or.mpr he.2)]
      simp only [hstat e hself, if_true, hfind e hself, hrest, Option.bind_eq_bind,
        Option.bind_some]
      rw [hlist, List.flatMap_cons, report_entry env.graph path (hname e hself), List.append_assoc]
      rfl
    · have hlist : listed (e :: es) = listed es :=
        List.filter_cons_of_neg (fun h ↦ he (of_decide_eq_true h))
      rw [hlist] at hstat hname hfind ⊢
      rw [findEntries]
      split
      · exact ih hstat hname hfind
      · next hne =>
        rw [if_pos]
        · exact ih hstat hname hfind
        · by_contra hdots
          exact he ⟨hne, not_or.mp hdots⟩

theorem reportSelf_of_ne {m : Graph} {x : Nat} (h : (m x).type ≠ .file) (path : Path) :
    reportSelf m target path x = [] := by
  rw [reportSelf, if_neg]
  intro hself
  exact h hself.1

theorem below_of_ne {m : Graph} {x : Nat} (h : (m x).type ≠ .dir) (d : Nat) : below m d x = [] := by
  cases d with
  | zero => rfl
  | succ d => rw [below, if_neg h]

/-- What is not a directory has nothing below it. -/
theorem find_leaf {d fds x : Nat} {path : Path} (hdir : (env.graph x).type ≠ .dir)
    (hstart : env.openPath fds path = some x) :
    find env target (d + 1) fds path = some (reportSelf env.graph target path x ++
      (below env.graph d x).flatMap (report env.graph target path)) := by
  rw [find, hstart, below_of_ne hdir, List.flatMap_nil, List.append_nil]
  cases htype : (env.graph x).type with
  | dir => exact absurd htype hdir
  | file => simp only [reportSelf, htype, true_and]
  | free | device =>
    rw [reportSelf_of_ne (by rw [htype]; decide)]
    simp only [htype]

/-- A search prints a line for itself and the reports of the entries below it. -/
theorem find_eq {d fds x : Nat} {path : Path} (htree : TreeBelow env.graph d x)
    (hstart : env.openPath fds path = some x) (hentries : ∀ r ∈ below env.graph d x,
      env.openPath (fds + r.1.length) (joined path r.1) = some r.2) :
    find env target (d + 1) fds path = some (reportSelf env.graph target path x ++
      (below env.graph d x).flatMap (report env.graph target path)) := by
  induction d generalizing fds x path with
  | zero => exact find_leaf htree hstart
  | succ d ih =>
    by_cases htype : (env.graph x).type = .dir
    · have hlen := length_of_openPath hstart
      have hroom : ¬ BUFSIZE < path.length + 1 + DIRSIZ + 1 := by
        have hB : BUFSIZE = 512 := rfl
        have hM : MAXPATH = 128 := rfl
        have hD : DIRSIZ = 14 := rfl
        omega
      have hbelow : below env.graph (d + 1) x = (listed (env.graph x).entries).flatMap (fun e ↦
          ([e.name], e.inum) :: (below env.graph d e.inum).map (fun r ↦ (e.name :: r.1, r.2))) := by
        rw [below, if_pos htype]
      have hopen (e : Dirent) (he : e ∈ listed (env.graph x).entries) :
          env.openPath (fds + 1) (path ++ [47] ++ e.name) = some e.inum := by
        have hself := hentries ([e.name], e.inum) (by
          rw [hbelow]
          exact List.mem_flatMap.mpr ⟨e, he, List.mem_cons_self⟩)
        rw [joined_single] at hself
        exact hself
      have hstat (e : Dirent) (he : e ∈ listed (env.graph x).entries) :
          (env.openPath (fds + 1) (path ++ [47] ++ e.name)).isSome = true := by
        rw [hopen e he]
        rfl
      have hchild (e : Dirent) (he : e ∈ listed (env.graph x).entries) :
          find env target (d + 1) (fds + 1) (path ++ [47] ++ e.name) =
            some (reportSelf env.graph target (path ++ [47] ++ e.name) e.inum ++
              (below env.graph d e.inum).flatMap
              (report env.graph target (path ++ [47] ++ e.name))) := by
        apply ih (htree htype e he).2 (hopen e he)
        intro r hr
        have hdeep := hentries (e.name :: r.1, r.2) (by
          rw [hbelow]
          exact List.mem_flatMap.mpr ⟨e, he, List.mem_cons_of_mem _ (List.mem_map_of_mem hr)⟩)
        rw [joined_cons, List.length_cons, Nat.add_comm r.1.length 1, ← Nat.add_assoc] at hdeep
        exact hdeep
      rw [find, hstart]
      simp only [htype, if_neg hroom]
      rw [findEntries_eq hstat (fun e he ↦ (htree htype e he).1) hchild,
        reportSelf_of_ne (by rw [htype]; decide), hbelow, List.nil_append, List.flatMap_assoc]
    · exact find_leaf htype hstart

/-- Each match adds one line, and each file among them another. -/
theorem length_report (m : Graph) (path : Path) (rs : List (List Name × Nat)) :
    (rs.flatMap (report m target path)).length = (rs.filter (fun r ↦ Matches target r)).length +
      rs.countP (fun r ↦ Matches target r ∧ (m r.2).type = .file) := by
  induction rs with
  | nil => rfl
  | cons r rs ih =>
    rw [List.flatMap_cons, List.length_append, ih, List.filter_cons, List.countP_cons, report]
    by_cases hm : Matches target r
    · by_cases hf : (m r.2).type = .file
      · simp only [hm, hf, if_true, and_self, decide_true, List.length_cons, List.length_nil]
        omega
      · simp only [hm, hf, if_true, if_false, and_false, decide_true, decide_false,
          List.length_cons, List.length_nil, Bool.false_eq_true]
        omega
    · simp only [hm, if_false, false_and, decide_false, List.length_nil, Bool.false_eq_true]
      omega

/-- Without a file among the matches, each of them has one line. -/
theorem report_once {m : Graph} {path : Path} {rs : List (List Name × Nat)}
    (h : ∀ r ∈ rs, Matches target r → (m r.2).type ≠ .file) : rs.flatMap (report m target path) =
      (rs.filter (fun r ↦ Matches target r)).map (fun r ↦ .line (joined path r.1)) := by
  induction rs with
  | nil => rfl
  | cons r rs ih =>
    have hrest := ih (fun r' hr' ↦ h r' (List.mem_cons_of_mem r hr'))
    rw [List.flatMap_cons, hrest, report, List.filter_cons]
    by_cases hm : Matches target r
    · have hf := h r List.mem_cons_self hm
      simp only [hm, hf, if_true, if_false, decide_true, List.map_cons, List.singleton_append]
    · simp only [hm, if_false, decide_false, List.nil_append, Bool.false_eq_true]

/-- A search prints each match once exactly when no regular file below its start has the name: a
file is printed where it is listed, and again where the search reaches it. -/
theorem findsOnce_iff {d fds x : Nat} {path : Path} (h : Searchable env fds path d x) :
    FindsOnce env target fds path d x ↔
      ∀ r ∈ below env.graph d x, Matches target r → (env.graph r.2).type ≠ .file := by
  have hfind : find env target (d + 1) fds path = some _ := find_eq h.tree h.start h.entries
  rw [reportSelf_of_ne (by rw [h.dir]; decide), List.nil_append] at hfind
  constructor
  · rintro ⟨out, hout, hperm⟩ r hr hm hf
    have heq : (below env.graph d x).flatMap (report env.graph target path) = out :=
      Option.some.inj (hfind.symm.trans hout)
    have hlen := hperm.length_eq
    rw [← heq, length_report, expected, List.length_map] at hlen
    have hcount : (below env.graph d x).countP
        (fun r ↦ Matches target r ∧ (env.graph r.2).type = .file) = 0 := by omega
    exact List.countP_eq_zero.mp hcount r hr (decide_eq_true ⟨hm, hf⟩)
  · intro hno
    exact ⟨_, hfind, by rw [report_once hno, expected]⟩

end

/-! ### A small tree -/

/-- Directory 1 lists the directory `a` with a device `a` in it, and the file `b`. -/
def smallTree : Graph
  | 1 => { type := .dir, major := 0, nlink := 1,
           entries := [⟨1, dot⟩, ⟨1, dotdot⟩, ⟨2, [97]⟩, ⟨3, [98]⟩] }
  | 2 => { type := .dir, major := 0, nlink := 1, entries := [⟨2, dot⟩, ⟨1, dotdot⟩, ⟨4, [97]⟩] }
  | 3 => { type := .file, major := 0, nlink := 1, entries := [] }
  | 4 => { type := .device, major := 1, nlink := 1, entries := [] }
  | _ => { type := .free, major := 0, nlink := 0, entries := [] }

/-- A process in the root of the small tree. -/
def smallEnv : Env where
  graph := smallTree
  proc := { ofile := fun _ ↦ none, cwd := 1 }

theorem searchable_small : Searchable smallEnv 3 dot 2 1 where
  dir := rfl
  tree := by decide
  start := by decide
  entries := by decide

/-- `find . a` prints the directory and the device once each. -/
theorem findsOnce_iff_small :
    Searchable smallEnv 3 dot 2 1 ∧ FindsOnce smallEnv [97] 3 dot 2 1 :=
  ⟨searchable_small, (findsOnce_iff searchable_small).mpr (by decide)⟩

/-- `find . b` prints the file twice. -/
theorem find_prints_file_twice :
    find smallEnv [98] 3 3 dot = some [.line [46, 47, 98], .line [46, 47, 98]] ∧
      Searchable smallEnv 3 dot 2 1 ∧ ¬ FindsOnce smallEnv [98] 3 dot 2 1 := by
  have hfind : find smallEnv [98] 3 3 dot = some [.line [46, 47, 98], .line [46, 47, 98]] := by
    decide
  refine ⟨hfind, searchable_small, ?_⟩
  rintro ⟨out, hout, hperm⟩
  rw [hfind] at hout
  cases hout
  exact absurd hperm.length_eq (by decide)

end Xv6.Find
