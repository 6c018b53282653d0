import Mathlib.Data.Multiset.AddSub
import Mathlib.Logic.Function.Basic
import Xv6.Lib.Run
import Xv6.Sh.Correct

/-!
# Running commands

`main` and `runcmd` of `user/sh.c` as processes that run side by side. What is left of the code of
a shell process is a list of instructions, one for each system call; `fork` copies the table of open
files, and a program that was started may close files and exits at any time. Calls that depend on
the file system or on free memory may fail.

A pipe is named by the command that makes it. The state records, as history, the place of the
command that each process runs, the programs that were started with their open files, and the pipes.
-/

namespace Xv6.Sh

open Xv6.Lib

/-- The place of a command: the line it comes from, after the branches that lead to it. -/
abbrev Place := List Nat

/-- What a descriptor refers to: a file the shell was started with, one that a redirection
opened, or an end of a pipe. -/
inductive File where
  | given (n : Nat)
  | opened (name : Text) (mode : Nat)
  | pipe (place : Place) (writable : Bool)
  deriving DecidableEq

/-- `p->ofile` of a process. -/
abbrev Fds := Nat → Option File

namespace Fds

/-- The descriptor that `fdalloc` takes; `kernel/sysfile.c:39–52`. -/
def fdalloc (fds : Fds) : Option Nat := (List.range NOFILE).find? (fun fd ↦ fds fd = none)

/-- `close`. -/
def close (fd : Nat) (fds : Fds) : Fds := Function.update fds fd none

/-- `dup`, whose result the shell does not look at. -/
def dup (fd : Nat) (fds : Fds) : Fds :=
  match fds.fdalloc with
  | some g => if fds fd = none then fds else Function.update fds g (fds fd)
  | none => fds

/-- `open` of a file. -/
def openFile (name : Text) (mode : Nat) (fds : Fds) : Option Fds :=
  fds.fdalloc.map (fun fd ↦ Function.update fds fd (some (.opened name mode)))

/-- `pipe`: the two descriptors, and the table with them. -/
def pipe (place : Place) (fds : Fds) : Option (Nat × Nat × Fds) :=
  match fds.fdalloc with
  | none => none
  | some r =>
    let fds : Fds := Function.update fds r (some (.pipe place false))
    fds.fdalloc.map (fun w ↦ (r, w, Function.update fds w (some (.pipe place true))))

end Fds

/-- The code after `fork1() == 0`. -/
inductive Child where
  /-- `runcmd(parsecmd(buf))` in `main`. -/
  | line (text : Text) (n : Nat)
  /-- `runcmd(cmd)`. -/
  | command (cmd : Cmd Text) (place : Place)
  /-- The left side of a pipe with the ends `r` and `w`. -/
  | left (cmd : Cmd Text) (place : Place) (r w : Nat)
  | right (cmd : Cmd Text) (place : Place) (r w : Nat)

/-- What a shell process does next. -/
inductive Instr where
  /-- The loop of `main`, with the lines that are left and the number of the next one. -/
  | getcmd (lines : List Text) (n : Nat)
  /-- `runcmd(parsecmd(text))`. -/
  | parsecmd (text : Text) (n : Nat)
  | runcmd (cmd : Cmd Text) (place : Place)
  /-- `exec`; it does not return when it succeeds. -/
  | exec (argv : List Text)
  | close (fd : Nat)
  | dup (fd : Nat)
  /-- `open`, and `exit(1)` when it fails. -/
  | openFile (name : Text) (mode : Nat)
  /-- `pipe`, and a panic when it fails. -/
  | pipe (left right : Cmd Text) (place : Place)
  /-- `fork1`, which panics when `fork` fails. -/
  | fork (child : Child)
  | wait
  | exit (status : Nat)

/-- Code that is left to run. -/
abbrev Code := List Instr

/-- Where a child starts; `user/sh.c:97–113`. -/
def Child.code : Child → Code
  | .line text n => [.parsecmd text n]
  | .command cmd place => [.runcmd cmd place]
  | .left cmd place r w => [.close 1, .dup w, .close r, .close w, .runcmd cmd place]
  | .right cmd place r w => [.close 0, .dup r, .close r, .close w, .runcmd cmd place]

/-- The place of the command that a child runs. -/
def Child.place : Child → Place
  | .line _ n => [n]
  | .command _ place | .left _ place _ _ | .right _ place _ _ => place

/-- `runcmd`, as far as its first system call that returns data; `user/sh.c:56–133`. -/
def runcmd (place : Place) : Cmd Text → Code
  | .exec argv => if argv = [] then [.exit 1] else [.exec argv, .exit 0]
  | .redir cmd file mode fd => [.close fd, .openFile file mode, .runcmd cmd (0 :: place)]
  | .list left right => [.fork (.command left (0 :: place)), .wait, .runcmd right (1 :: place)]
  | .pipe left right => [.pipe left right place]
  | .back cmd => [.fork (.command cmd (0 :: place)), .exit 0]

/-- The rest of `runcmd` for a pipe with the ends `r` and `w`. -/
def afterPipe (left right : Cmd Text) (place : Place) (r w : Nat) : Code :=
  [.fork (.left left (0 :: place) r w), .fork (.right right (1 :: place) r w), .close r, .close w,
    .wait, .wait, .exit 0]

/-- A line that the shell itself runs. -/
def isCd (text : Text) : Bool := (chars "cd ").isPrefixOf text

/-- One round of the loop of `main`; `user/sh.c:160–170`. `getcmd` fails on an empty line. -/
def mainLoop (lines : List Text) (n : Nat) : Code :=
  match lines with
  | [] => [.exit 0]
  | text :: lines =>
    if text.headD 0 = 0 then [.exit 0]
    else if isCd text then [.getcmd lines (n + 1)]
    else [.fork (.line text n), .wait, .getcmd lines (n + 1)]

/-- The command of a line, or `none` if the parser panics. -/
def parsed (text : Text) : Option (Cmd Text) :=
  let s := cstring text 0
  match Sh.parsecmd (steps s) s with
  | .ok (cmd, buf) => some (cmd.strings buf)
  | .error _ => none

/-! ### Processes -/

/-- What a process runs. -/
inductive Status where
  | shell (k : Code)
  | program (argv : List Text)
  | zombie

def Status.isShell : Status → Bool
  | .shell _ => true
  | .program _ | .zombie => false

/-- A process; the parent is `none` for `init`. -/
structure Process where
  parent : Option Nat
  fds : Fds
  status : Status
  place : Place

/-- A program that was started, or a pipe that was made. -/
inductive Event where
  | exec (argv : List Text) (fds : Fds)
  | pipe (place : Place)

/-- The processes by their pids, the next pid, and history. -/
structure State where
  procs : Nat → Option Process
  next : Nat
  log : Multiset Event

/-- The next instruction of a shell process, where `ok` says whether a call that may fail
succeeds; a `wait` that finds the zombie `child`; what a program does; and what `init` does. -/
inductive Act where
  | step (p : Nat) (ok : Bool)
  | wait (p child : Nat)
  | close (p fd : Nat)
  | exit (p : Nat)
  | reap (child : Nat)

namespace State

/-- `child` is a child of `p` that was not waited for. -/
def isChild (s : State) (p child : Nat) : Bool :=
  (s.procs child).any (fun pr ↦ pr.parent = some p)

def setProc (p : Nat) (pr : Process) (s : State) : State :=
  { s with procs := Function.update s.procs p (some pr) }

/-- `fork`: the child `s.next` has a copy of the table. -/
def fork (p : Nat) (fds : Fds) (child : Child) (s : State) : State :=
  { s with
    procs := Function.update s.procs s.next
      (some ⟨some p, fds, .shell child.code, child.place⟩)
    next := s.next + 1 }

/-- `exit` of process `p`: its files are closed, and its children go to `init`. -/
def exit (p : Nat) (s : State) : State :=
  { s with
    procs := fun q ↦ (s.procs q).map (fun pr ↦ {
      parent := if pr.parent = some p then none else pr.parent
      fds := if q = p then fun _ ↦ none else pr.fds
      status := if q = p then .zombie else pr.status
      place := pr.place }) }

/-- The zombie `child` is gone. -/
def remove (child : Nat) (s : State) : State :=
  { s with procs := Function.update s.procs child none }

/-- One instruction of the shell process `p`, which goes on with `k`. -/
def exec (p : Nat) (pr : Process) (k : Code) (ok : Bool) (s : State) : Instr → Option State
  | .getcmd lines n => some (s.setProc p { pr with status := .shell (mainLoop lines n ++ k) })
  | .parsecmd text n =>
    match parsed text with
    | some cmd => some (s.setProc p { pr with status := .shell (.runcmd cmd [n] :: k) })
    | none => some (s.setProc p { pr with status := .shell [.exit 1] })
  | .runcmd cmd place =>
    some (s.setProc p { pr with status := .shell (Sh.runcmd place cmd ++ k), place := place })
  | .exec argv =>
    if ok then
      some { s.setProc p { pr with status := .program argv } with
        log := .exec argv pr.fds ::ₘ s.log }
    else some (s.setProc p { pr with status := .shell k })
  | .close fd => some (s.setProc p { pr with fds := pr.fds.close fd, status := .shell k })
  | .dup fd => some (s.setProc p { pr with fds := pr.fds.dup fd, status := .shell k })
  | .openFile name mode =>
    match ok, pr.fds.openFile name mode with
    | true, some fds => some (s.setProc p { pr with fds := fds, status := .shell k })
    | _, _ => some (s.setProc p { pr with status := .shell [.exit 1] })
  | .pipe left right place =>
    match ok, pr.fds.pipe place with
    | true, some (r, w, fds) =>
      some { s.setProc p { pr with
          fds := fds
          status := .shell (afterPipe left right place r w ++ k) } with
        log := .pipe place ::ₘ s.log }
    | _, _ => some (s.setProc p { pr with status := .shell [.exit 1] })
  | .fork child =>
    if ok then some ((s.setProc p { pr with status := .shell k }).fork p pr.fds child)
    else some (s.setProc p { pr with status := .shell [.exit 1] })
  | .wait =>
    -- without children `wait` returns at once
    if (List.range s.next).any (s.isChild p) then none
    else some (s.setProc p { pr with status := .shell k })
  | .exit _ => some (s.exit p)

/-- The step function. -/
def step (s : State) : Act → Option State
  | .step p ok =>
    match s.procs p with
    | some pr =>
      match pr.status with
      | .shell (i :: k) => s.exec p pr k ok i
      | _ => none
    | none => none
  | .wait p child =>
    match s.procs p, s.procs child with
    | some pr, some ch =>
      match pr.status, ch.status with
      | .shell (.wait :: k), .zombie =>
        if ch.parent = some p then
          some ((s.remove child).setProc p { pr with status := .shell k })
        else none
      | _, _ => none
    | _, _ => none
  | .close p fd =>
    match s.procs p with
    | some pr =>
      match pr.status with
      | .program _ => some (s.setProc p { pr with fds := pr.fds.close fd })
      | _ => none
    | none => none
  | .exit p =>
    match s.procs p with
    | some pr =>
      match pr.status with
      | .program _ => some (s.exit p)
      | _ => none
    | none => none
  | .reap child =>
    match s.procs child with
    | some ch =>
      match ch.status with
      | .zombie => if ch.parent = none then some (s.remove child) else none
      | _ => none
    | none => none

end State

/-! ### What the command lines ask for -/

/-- The standard files of a command. -/
structure Env where
  stdin : File
  stdout : File
  stderr : File
  deriving DecidableEq

/-- The table with the standard files and no other. -/
def Env.fds (e : Env) : Fds
  | 0 => some e.stdin
  | 1 => some e.stdout
  | 2 => some e.stderr
  | _ => none

/-- A redirection. -/
def Env.set (e : Env) (fd : Nat) (f : File) : Env :=
  match fd with
  | 0 => { e with stdin := f }
  | 1 => { e with stdout := f }
  | 2 => { e with stderr := f }
  | _ => e

/-- The programs that a command starts, each with its standard files and nothing else open, and
the pipes between them. -/
def wiring (place : Place) (e : Env) : Cmd Text → Multiset Event
  | .exec argv => if argv = [] then 0 else {.exec argv e.fds}
  | .redir cmd file mode fd => wiring (0 :: place) (e.set fd (.opened file mode)) cmd
  | .list left right => wiring (0 :: place) e left + wiring (1 :: place) e right
  | .pipe left right =>
    .pipe place ::ₘ (wiring (0 :: place) { e with stdout := .pipe place true } left +
      wiring (1 :: place) { e with stdin := .pipe place false } right)
  | .back cmd => wiring (0 :: place) e cmd

/-- The same for the lines from number `n` on. -/
def session (e : Env) : List Text → Nat → Multiset Event
  | [], _ => 0
  | text :: lines, n =>
    if text.headD 0 = 0 then 0
    else if isCd text then session e lines (n + 1)
    else ((parsed text).elim 0 (wiring [n] e)) + session e lines (n + 1)

/-- The shell as `init` starts it. -/
def started : Env := ⟨.given 0, .given 1, .given 2⟩

/-- The shell, about to read its first line. -/
def boot (lines : List Text) : State where
  procs := Function.update (fun _ ↦ none) 0
    (some ⟨none, started.fds, .shell [.getcmd lines 0], []⟩)
  next := 1
  log := 0

end Xv6.Sh
