import Mathlib.Data.Multiset.Basic
import Xv6.Sh.Run

/-!
# The open files of a command

What the code of a shell process does to its table of open files, and what it will start. A rule
for each instruction says which pipe ends may be open at that point, how many children the process
has not waited for, and which programs it still starts; `runcmd` follows the rules for every
command.
-/

namespace Xv6.Sh

/-- The branch of a pipe that uses one of its ends. -/
def side (place : Place) (writable : Bool) : Place := (if writable then 0 else 1) :: place

/-- A file that a command at this place may have: an end of a pipe only on its side of it. -/
def File.Inside (place : Place) : File → Prop
  | .pipe origin writable => side origin writable <:+ place
  | .given _ | .opened _ _ => True

/-- Open files that the command may have, or that its code is about to close. -/
def Fds.Tidy (place : Place) (k : Code) (fds : Fds) : Prop :=
  ∀ fd f, fds fd = some f → f.Inside place ∨ .close fd ∈ k

/-- Standard files that a command may have. -/
structure Env.Inside (place : Place) (e : Env) : Prop where
  stdin : e.stdin.Inside place
  stdout : e.stdout.Inside place
  stderr : e.stderr.Inside place

/-- Redirections concern standard files. -/
def Cmd.Standard {W : Type} : Cmd W → Prop
  | .exec _ => True
  | .redir cmd _ _ fd => fd ≤ 2 ∧ cmd.Standard
  | .pipe left right | .list left right => left.Standard ∧ right.Standard
  | .back cmd => cmd.Standard

/-- The code `k` of a process at `place` with `n` children starts the programs `M` at most. -/
inductive Valid : Place → Fds → Nat → Code → Multiset Event → Prop
  | getcmd {place : Place} {e : Env} {lines : List Text} {n : Nat} (hin : e.Inside [])
      (hplace : place = []) : Valid place e.fds 0 [.getcmd lines n] (session e lines n)
  | parsecmd {e : Env} {text : Text} {n : Nat} (hin : e.Inside []) :
      Valid [n] e.fds 0 [.parsecmd text n] ((parsed text).elim 0 (wiring [n] e))
  | runcmd {place old : Place} {e : Env} {cmd : Cmd Text} (hin : e.Inside old)
      (hplace : old <:+ place) (hcmd : cmd.Standard) :
      Valid old e.fds 0 [.runcmd cmd place] (wiring place e cmd)
  | exec {place : Place} {e : Env} {argv : List Text} (hin : e.Inside place) :
      Valid place e.fds 0 [.exec argv, .exit 0] {.exec argv e.fds}
  | exit {place : Place} {fds : Fds} {n status : Nat} : Valid place fds n [.exit status] 0
  | close {place : Place} {fds : Fds} {n fd : Nat} {k : Code} {M : Multiset Event}
      (htidy : fds.Tidy place (.close fd :: k)) (h : Valid place (fds.close fd) n k M) :
      Valid place fds n (.close fd :: k) M
  | dup {place : Place} {fds : Fds} {n fd : Nat} {k : Code} {M : Multiset Event}
      (htidy : fds.Tidy place (.dup fd :: k)) (h : Valid place (fds.dup fd) n k M) :
      Valid place fds n (.dup fd :: k) M
  | openFile {place : Place} {fds fds' : Fds} {n : Nat} {name : Text} {mode : Nat} {k : Code}
      {M : Multiset Event} (htidy : fds.Tidy place []) (hopen : fds.openFile name mode = some fds')
      (h : Valid place fds' n k M) : Valid place fds n (.openFile name mode :: k) M
  | pipe {place : Place} {e : Env} {left right : Cmd Text} (hin : e.Inside place)
      (hleft : left.Standard) (hright : right.Standard) :
      Valid place e.fds 0 [.pipe left right place] (wiring place e (.pipe left right))
  | fork {place : Place} {fds : Fds} {n : Nat} {child : Child} {k : Code} {M₁ M₂ : Multiset Event}
      (htidy : fds.Tidy place (.fork child :: k))
      (hchild : Valid child.place fds 0 child.code M₁) (h : Valid place fds (n + 1) k M₂) :
      Valid place fds n (.fork child :: k) (M₁ + M₂)
  | wait {place : Place} {fds : Fds} {n : Nat} {k : Code} {M : Multiset Event}
      (htidy : fds.Tidy place []) (h : Valid place fds n k M) :
      Valid place fds (n + 1) (.wait :: k) M

/-! ### Tables -/

theorem fdalloc_eq {fds : Fds} {n : Nat} (hn : n < NOFILE) (hfree : fds n = none)
    (hused : ∀ m, m < n → fds m ≠ none) : fds.fdalloc = some n := by
  rw [Fds.fdalloc, List.find?_range_eq_some]
  refine ⟨decide_eq_true hfree, List.mem_range.mpr hn, ?_⟩
  intro m hm
  simp [hused m hm]

theorem File.Inside.mono {place place' : Place} {f : File} (h : f.Inside place)
    (hplace : place <:+ place') : f.Inside place' := by
  cases f with
  | given | opened => trivial
  | pipe origin writable => exact List.IsSuffix.trans h hplace

theorem Env.Inside.mono {place place' : Place} {e : Env} (h : e.Inside place)
    (hplace : place <:+ place') : e.Inside place' :=
  ⟨h.stdin.mono hplace, h.stdout.mono hplace, h.stderr.mono hplace⟩

/-- The standard files are in the table and no others. -/
theorem Env.Inside.fds {place : Place} {e : Env} (h : e.Inside place) {fd : Nat} {f : File}
    (hf : e.fds fd = some f) : f.Inside place := by
  unfold Env.fds at hf
  split at hf
  · cases hf
    exact h.stdin
  · cases hf
    exact h.stdout
  · cases hf
    exact h.stderr
  · cases hf

theorem Env.Inside.tidy {place : Place} {e : Env} (h : e.Inside place) (k : Code) :
    e.fds.Tidy place k := fun _ _ hf ↦ .inl (h.fds hf)

theorem Env.Inside.set {place : Place} {e : Env} (h : e.Inside place) (fd : Nat) {f : File}
    (hf : f.Inside place) : (e.set fd f).Inside place := by
  unfold Env.set
  split
  · exact ⟨hf, h.stdout, h.stderr⟩
  · exact ⟨h.stdin, hf, h.stderr⟩
  · exact ⟨h.stdin, h.stdout, hf⟩
  · exact h

theorem Env.fds_ne (e : Env) {fd : Nat} (h : fd ≤ 2) : e.fds fd ≠ none := by
  have hcases : fd = 0 ∨ fd = 1 ∨ fd = 2 := by omega
  rcases hcases with rfl | rfl | rfl <;> exact Option.some_ne_none _

theorem Env.fds_eq_none (e : Env) {fd : Nat} (h : 2 < fd) : e.fds fd = none := by
  unfold Env.fds
  split
  · omega
  · omega
  · omega
  · rfl

theorem Env.fds_set (e : Env) {fd : Nat} (h : fd ≤ 2) (f : File) :
    (e.set fd f).fds = Function.update e.fds fd (some f) := by
  have hcases : fd = 0 ∨ fd = 1 ∨ fd = 2 := by omega
  funext g
  rcases hcases with rfl | rfl | rfl <;> rcases g with _ | _ | _ | g <;> rfl

/-- The lowest free descriptor after `close`. -/
theorem fdalloc_close {fds : Fds} {fd : Nat} (h : fd < NOFILE)
    (hused : ∀ m, m < fd → fds m ≠ none) :
    (fds.close fd).fdalloc = some fd := by
  apply fdalloc_eq h (Function.update_self _ _ _)
  intro m hm
  change Function.update fds fd none m ≠ none
  rw [Function.update_of_ne (Nat.ne_of_lt hm)]
  exact hused m hm

/-- A redirection: the descriptor is closed, and `open` takes it again. -/
theorem open_close (e : Env) {fd : Nat} (h : fd ≤ 2) (name : Text) (mode : Nat) :
    (e.fds.close fd).openFile name mode = some (e.set fd (.opened name mode)).fds := by
  have hlt : fd < NOFILE := Nat.lt_of_le_of_lt h (by decide)
  rw [Fds.openFile, fdalloc_close hlt (fun m hm ↦ e.fds_ne (Nat.le_trans (Nat.le_of_lt hm) h)),
    Option.map_some, Fds.close, Function.update_idem, e.fds_set h]

/-- The table of a process that has just made a pipe. -/
def Env.piped (e : Env) (place : Place) : Fds :=
  Function.update (Function.update e.fds 3 (some (.pipe place false))) 4 (some (.pipe place true))

theorem pipe_eq (e : Env) (place : Place) : e.fds.pipe place = some (3, 4, e.piped place) := by
  have h3 : e.fds.fdalloc = some 3 := by
    apply fdalloc_eq (by decide) (e.fds_eq_none (by decide))
    exact fun m hm ↦ e.fds_ne (by omega)
  have h4 : Fds.fdalloc (Function.update e.fds 3 (some (.pipe place false))) = some 4 := by
    apply fdalloc_eq (by decide)
    · rw [Function.update_of_ne (by decide)]
      exact e.fds_eq_none (by decide)
    · intro m hm
      by_cases hm3 : m = 3
      · rw [hm3, Function.update_self]
        exact Option.some_ne_none _
      · rw [Function.update_of_ne hm3]
        exact e.fds_ne (by omega)
  simp only [Fds.pipe, h3, h4, Option.map_some]
  rfl

/-- Both ends are closed again. -/
theorem piped_close (e : Env) (place : Place) : ((e.piped place).close 3).close 4 = e.fds := by
  funext g
  rcases g with _ | _ | _ | _ | _ | g <;> rfl

/-- `close(fd)` and `dup` of an end of the pipe: the end is the file `fd`. -/
theorem piped_dup (e : Env) (place : Place) {fd g : Nat} {f : File} (h : fd ≤ 2)
    (hg : e.piped place g = some f) (hne : g ≠ fd) :
    ((((e.piped place).close fd).dup g).close 3).close 4 = (e.set fd f).fds := by
  have hlt : fd < NOFILE := Nat.lt_of_le_of_lt h (by decide)
  have hlow (m : Nat) (hm : m ≤ 2) : e.piped place m = e.fds m := by
    rw [Env.piped, Function.update_of_ne (by omega), Function.update_of_ne (by omega)]
  have halloc : ((e.piped place).close fd).fdalloc = some fd := by
    apply fdalloc_close hlt
    intro m hm
    rw [hlow m (by omega)]
    exact e.fds_ne (by omega)
  have hend : (e.piped place).close fd g = some f := (Function.update_of_ne hne _ _).trans hg
  have hdup : ((e.piped place).close fd).dup g = Function.update (e.piped place) fd (some f) := by
    simp only [Fds.dup, halloc, hend, if_neg (Option.some_ne_none f)]
    exact Function.update_idem _ _ _
  have hcases : fd = 0 ∨ fd = 1 ∨ fd = 2 := by omega
  rw [hdup, e.fds_set h]
  funext m
  rcases hcases with rfl | rfl | rfl <;> rcases m with _ | _ | _ | _ | _ | m <;> rfl

/-! ### Commands -/

section
variable {place : Place} {e : Env}

theorem place_suffix (n : Nat) (place : Place) : place <:+ n :: place := List.suffix_cons n place

/-- The files of a process that has just made a pipe; the ends are closed later. -/
theorem tidy_piped (h : e.Inside place) {place' : Place} (hplace : place <:+ place') {k : Code}
    (h3 : .close 3 ∈ k) (h4 : .close 4 ∈ k) : (e.piped place).Tidy place' k := by
  intro fd f hf
  by_cases hfd4 : fd = 4
  · exact .inr (hfd4 ▸ h4)
  · by_cases hfd3 : fd = 3
    · exact .inr (hfd3 ▸ h3)
    · left
      rw [Env.piped, Function.update_of_ne hfd4, Function.update_of_ne hfd3] at hf
      exact (h.fds hf).mono hplace

theorem Fds.Tidy.close {fds : Fds} {fd : Nat} {k : Code} (h : fds.Tidy place (.close fd :: k)) :
    (fds.close fd).Tidy place k := by
  intro g f hf
  by_cases hg : g = fd
  · subst hg
    rw [show fds.close g g = none from Function.update_self _ _ _] at hf
    cases hf
  · rw [show fds.close fd g = fds g from Function.update_of_ne hg _ _] at hf
    rcases h g f hf with hin | hmem
    · exact .inl hin
    · rcases List.mem_cons.mp hmem with heq | hmem
      · cases heq
        exact (hg rfl).elim
      · exact .inr hmem

theorem Fds.Tidy.dup {fds : Fds} {fd : Nat} {k : Code} (h : fds.Tidy place (.dup fd :: k))
    (hin : ∀ f, fds fd = some f → f.Inside place) : (fds.dup fd).Tidy place k := by
  have hsame : fds.Tidy place k := by
    intro g f hf
    refine (h g f hf).imp_right (fun hmem ↦ ?_)
    rcases List.mem_cons.mp hmem with heq | hmem
    · cases heq
    · exact hmem
  unfold Fds.dup
  split
  · next n hn =>
    split
    · exact hsame
    · intro g f hf
      by_cases hg : g = n
      · rw [hg, Function.update_self] at hf
        exact .inl (hin f hf)
      · rw [Function.update_of_ne hg] at hf
        exact hsame g f hf
  · exact hsame

/-- The code of a child of a pipe, which keeps one end as its file `fd`. -/
theorem valid_side {place' : Place} {cmd : Cmd Text} {fd g : Nat} {f : File} (hin : e.Inside place)
    (hplace : place <:+ place') (hcmd : cmd.Standard) (h : fd ≤ 2)
    (hg : e.piped place g = some f) (hne : g ≠ fd) (hf : f.Inside place') :
    Valid place' (e.piped place) 0 [.close fd, .dup g, .close 3, .close 4, .runcmd cmd place']
      (wiring place' (e.set fd f) cmd) := by
  have htidy : (e.piped place).Tidy place'
      [.close fd, .dup g, .close 3, .close 4, .runcmd cmd place'] :=
    tidy_piped hin hplace (by simp) (by simp)
  have hend : (e.piped place).close fd g = some f := (Function.update_of_ne hne _ _).trans hg
  have hdup := htidy.close.dup (by
    intro f' hf'
    rw [hend] at hf'
    cases hf'
    exact hf)
  refine .close htidy (.dup htidy.close (.close hdup (.close hdup.close ?_)))
  rw [piped_dup e place h hg hne]
  exact .runcmd ((hin.mono hplace).set fd hf) List.suffix_rfl hcmd

/-- The code after `pipe`. -/
theorem valid_afterPipe {left right : Cmd Text} (hin : e.Inside place) (hleft : left.Standard)
    (hright : right.Standard) :
    Valid place (e.piped place) 0 (afterPipe left right place 3 4)
      (wiring (0 :: place) { e with stdout := .pipe place true } left +
        wiring (1 :: place) { e with stdin := .pipe place false } right) := by
  have htidy {k : Code} (h3 : .close 3 ∈ k) (h4 : .close 4 ∈ k) : (e.piped place).Tidy place k :=
    tidy_piped hin List.suffix_rfl h3 h4
  have hl : Valid (0 :: place) (e.piped place) 0 (Child.left left (0 :: place) 3 4).code
      (wiring (0 :: place) { e with stdout := .pipe place true } left) :=
    valid_side hin (place_suffix 0 place) hleft (by decide) rfl (by decide) List.suffix_rfl
  have hr : Valid (1 :: place) (e.piped place) 0 (Child.right right (1 :: place) 3 4).code
      (wiring (1 :: place) { e with stdin := .pipe place false } right) :=
    valid_side hin (place_suffix 1 place) hright (by decide) rfl (by decide) List.suffix_rfl
  have hwait : Valid place e.fds 2 [.wait, .wait, .exit 0] 0 :=
    .wait (hin.tidy []) (.wait (hin.tidy []) .exit)
  have hclose : Valid place (e.piped place) 2 [.close 3, .close 4, .wait, .wait, .exit 0] 0 := by
    refine .close (htidy (by simp) (by simp)) (.close ?_ ?_)
    · exact (htidy (by simp) (by simp)).close
    · rw [piped_close]
      exact hwait
  have hright' : Valid place (e.piped place) 1
      [.fork (.right right (1 :: place) 3 4), .close 3, .close 4, .wait, .wait, .exit 0]
      (wiring (1 :: place) { e with stdin := .pipe place false } right + 0) :=
    .fork (htidy (by simp) (by simp)) hr hclose
  rw [Multiset.add_zero] at hright'
  exact .fork (htidy (by simp) (by simp)) hl hright'

/-- The code of every command follows the rules. -/
theorem valid_runcmd {cmd : Cmd Text} (hin : e.Inside place) (hcmd : cmd.Standard) :
    Valid place e.fds 0 (runcmd place cmd) (wiring place e cmd) := by
  have hcommand {n : Nat} {c : Cmd Text} (hc : c.Standard) :
      Valid (n :: place) e.fds 0 [.runcmd c (n :: place)] (wiring (n :: place) e c) :=
    .runcmd (hin.mono (place_suffix n place)) List.suffix_rfl hc
  cases cmd with
  | exec argv =>
    rw [runcmd, wiring]
    split
    · exact .exit
    · exact .exec hin
  | redir cmd file mode fd =>
    obtain ⟨hfd, hcmd⟩ := hcmd
    rw [runcmd, wiring]
    refine .close (hin.tidy _)
      (.openFile (hin.tidy [.close fd]).close (open_close e hfd file mode) ?_)
    exact .runcmd (hin.set fd trivial) (place_suffix 0 place) hcmd
  | list left right =>
    obtain ⟨hleft, hright⟩ := hcmd
    rw [runcmd, wiring]
    refine .fork (hin.tidy _) (hcommand hleft) (.wait (hin.tidy []) ?_)
    exact .runcmd hin (place_suffix 1 place) hright
  | pipe left right => exact .pipe hin hcmd.1 hcmd.2
  | back cmd =>
    have h : Valid place e.fds 0 [.fork (.command cmd (0 :: place)), .exit 0]
        (wiring (0 :: place) e cmd + 0) := .fork (hin.tidy _) (hcommand hcmd) .exit
    rwa [Multiset.add_zero] at h

/-! ### What the rules say -/

variable {fds : Fds} {n : Nat} {k : Code} {M : Multiset Event}

theorem Valid.getcmd_inv {lines : List Text} {i : Nat}
    (h : Valid place fds n (.getcmd lines i :: k) M) :
    k = [] ∧ n = 0 ∧ place = [] ∧ ∃ e : Env, fds = e.fds ∧ e.Inside [] ∧ M = session e lines i := by
  cases h with
  | getcmd hin hplace => exact ⟨rfl, rfl, hplace, _, rfl, hin, rfl⟩

theorem Valid.parsecmd_inv {text : Text} {i : Nat}
    (h : Valid place fds n (.parsecmd text i :: k) M) :
    k = [] ∧ n = 0 ∧ place = [i] ∧ ∃ e : Env, fds = e.fds ∧ e.Inside [] ∧
      M = (parsed text).elim 0 (wiring [i] e) := by
  cases h with
  | parsecmd hin => exact ⟨rfl, rfl, rfl, _, rfl, hin, rfl⟩

theorem Valid.runcmd_inv {cmd : Cmd Text} {place' : Place}
    (h : Valid place fds n (.runcmd cmd place' :: k) M) :
    k = [] ∧ n = 0 ∧ place <:+ place' ∧ cmd.Standard ∧
      ∃ e : Env, fds = e.fds ∧ e.Inside place ∧ M = wiring place' e cmd := by
  cases h with
  | runcmd hin hplace hcmd => exact ⟨rfl, rfl, hplace, hcmd, _, rfl, hin, rfl⟩

theorem Valid.exec_inv {argv : List Text} (h : Valid place fds n (.exec argv :: k) M) :
    k = [.exit 0] ∧ n = 0 ∧ M = {.exec argv fds} ∧ fds.Tidy place [] := by
  cases h with
  | exec hin => exact ⟨rfl, rfl, rfl, hin.tidy []⟩

theorem Valid.exit_inv {status : Nat} (h : Valid place fds n (.exit status :: k) M) :
    k = [] ∧ M = 0 := by
  cases h with
  | exit => exact ⟨rfl, rfl⟩

theorem Valid.close_inv {fd : Nat} (h : Valid place fds n (.close fd :: k) M) :
    Valid place (fds.close fd) n k M := by
  cases h with
  | close _ h => exact h

theorem Valid.dup_inv {fd : Nat} (h : Valid place fds n (.dup fd :: k) M) :
    Valid place (fds.dup fd) n k M := by
  cases h with
  | dup _ h => exact h

theorem Valid.openFile_inv {name : Text} {mode : Nat}
    (h : Valid place fds n (.openFile name mode :: k) M) :
    ∃ fds', fds.openFile name mode = some fds' ∧ Valid place fds' n k M := by
  cases h with
  | openFile _ hopen h => exact ⟨_, hopen, h⟩

theorem Valid.pipe_inv {left right : Cmd Text} {place' : Place}
    (h : Valid place fds n (.pipe left right place' :: k) M) :
    k = [] ∧ n = 0 ∧ place' = place ∧ left.Standard ∧ right.Standard ∧
      ∃ e : Env, fds = e.fds ∧ e.Inside place ∧ M = wiring place e (.pipe left right) := by
  cases h with
  | pipe hin hleft hright => exact ⟨rfl, rfl, rfl, hleft, hright, _, rfl, hin, rfl⟩

theorem Valid.fork_inv {child : Child} (h : Valid place fds n (.fork child :: k) M) :
    ∃ M₁ M₂, Valid child.place fds 0 child.code M₁ ∧ Valid place fds (n + 1) k M₂ ∧
      M = M₁ + M₂ := by
  cases h with
  | fork _ hchild h => exact ⟨_, _, hchild, h, rfl⟩

theorem Valid.wait_inv (h : Valid place fds n (.wait :: k) M) :
    fds.Tidy place [] ∧ ∃ m, n = m + 1 ∧ Valid place fds m k M := by
  cases h with
  | wait htidy h => exact ⟨htidy, _, rfl, h⟩

/-- A shell process keeps no file that its command has no use for, unless it is about to exit. -/
theorem Valid.tidy (h : Valid place fds n k M) :
    fds.Tidy place k ∨ ∃ status, k = [.exit status] := by
  cases h with
  | getcmd hin hplace =>
    subst hplace
    exact .inl (hin.tidy _)
  | parsecmd hin => exact .inl ((hin.mono List.nil_suffix).tidy _)
  | runcmd hin | exec hin | pipe hin => exact .inl (hin.tidy _)
  | exit => exact .inr ⟨_, rfl⟩
  | close htidy | dup htidy | fork htidy => exact .inl htidy
  | openFile htidy | wait htidy =>
    exact .inl (fun fd f hf ↦ .inl ((htidy fd f hf).resolve_right (fun hmem ↦ by cases hmem)))

/-- The instruction reads a line, parses it, or runs a command. -/
def Instr.Starts : Instr → Prop
  | .getcmd _ _ | .parsecmd _ _ | .runcmd _ _ | .exec _ | .pipe _ _ _ => True
  | .close _ | .dup _ | .openFile _ _ | .fork _ | .wait | .exit _ => False

theorem Valid.childless {i : Instr} (h : Valid place fds n (i :: k) M) (hi : i.Starts) : n = 0 := by
  cases i with
  | getcmd => exact h.getcmd_inv.2.1
  | parsecmd => exact h.parsecmd_inv.2.1
  | runcmd => exact h.runcmd_inv.2.1
  | exec => exact h.exec_inv.2.1
  | pipe => exact h.pipe_inv.2.1
  | close | dup | openFile | fork | wait | exit => exact hi.elim

end

end Xv6.Sh
