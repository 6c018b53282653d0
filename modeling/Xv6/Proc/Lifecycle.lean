import Xv6.Lib.Run
import Xv6.Proc.Table

/-!
# `fork`, `exit`, `wait` and `kill` as interleaved critical sections

Each process runs `kernel/proc.c:280–439,589–608` in steps that are single critical sections
of a `p->lock`, taken while `wait_lock` is free or held by that process. A section whose
`p->lock` is not released in between (from `allocproc` to the release of `np->lock` in
`fork`, for instance) is one step. Other processes step between any two of them.

The last three fields of the state record history: how many pids were handed out, who forked
the occupant of a slot, and which exits and reaps happened.
-/

namespace Xv6.Proc

open Xv6.Lib

/-- Where a process is in the kernel. Loop positions are indices of the process table. -/
inductive Pc where
  /-- In user space, or in code that does not touch the process table. -/
  | user
  /-- In `allocproc`, about to look at slot `i`. -/
  | forkScan (i : Nat)
  /-- In `fork`, about to take `wait_lock` and set `np->parent`. -/
  | forkParent (np : Slot)
  /-- In `fork`, about to take `np->lock` and make the child runnable. -/
  | forkRun (np : Slot)
  /-- In `exit`, about to take `wait_lock`. -/
  | exitAcquire (status : Int)
  /-- In `reparent`, about to look at slot `i`. -/
  | exitReparent (status : Int) (i : Nat)
  /-- In `wakeup(initproc)` after giving slot `i` to init, about to look at slot `j`. -/
  | exitWakeInit (status : Int) (i j : Nat)
  /-- In `wakeup(p->parent)`, about to look at slot `j`. -/
  | exitWakeParent (status : Int) (j : Nat)
  /-- In `exit`, about to become a zombie and release `wait_lock`. -/
  | exitZombie (status : Int)
  /-- In `wait`, about to take `wait_lock`: on entry or at the end of `sleep`. -/
  | waitAcquire
  /-- In the scan of `wait`, about to look at slot `i`. -/
  | waitScan (i : Nat) (havekids : Bool)
  /-- In `wait` after a scan that found children but no zombie, about to test `killed(p)`. -/
  | waitKilled
  /-- In `wait`, about to sleep and release `wait_lock`. -/
  | waitSleep
  /-- In `kill(pid)`, about to look at slot `i`. -/
  | killScan (pid : Int) (i : Nat)
  deriving DecidableEq, Repr

/-- A recorded `exit` of a process, or a `wait` of `caller` that returned `pid` with `status`. -/
inductive Event where
  | exit (pid status : Int)
  | reap (caller pid status : Int)
  deriving DecidableEq, Repr

/-- The pid of an `exit` event. -/
def Event.exited : Event → Option Int
  | .exit pid _ => some pid
  | .reap _ _ _ => none

/-- The pid that a `reap` event returned. -/
def Event.reaped : Event → Option Int
  | .exit _ _ => none
  | .reap _ pid _ => some pid

@[simp] theorem filterMap_exited_exit (es : List Event) (pid status : Int) :
    (es ++ [Event.exit pid status]).filterMap Event.exited =
      es.filterMap Event.exited ++ [pid] := by
  simp [List.filterMap_append, Event.exited]

@[simp] theorem filterMap_exited_reap (es : List Event) (caller pid status : Int) :
    (es ++ [Event.reap caller pid status]).filterMap Event.exited = es.filterMap Event.exited := by
  simp [List.filterMap_append, List.filterMap_cons, Event.exited]

@[simp] theorem filterMap_reaped_exit (es : List Event) (pid status : Int) :
    (es ++ [Event.exit pid status]).filterMap Event.reaped = es.filterMap Event.reaped := by
  simp [List.filterMap_append, List.filterMap_cons, Event.reaped]

@[simp] theorem filterMap_reaped_reap (es : List Event) (caller pid status : Int) :
    (es ++ [Event.reap caller pid status]).filterMap Event.reaped =
      es.filterMap Event.reaped ++ [pid] := by
  simp [List.filterMap_append, Event.reaped]

/-- The process table, the holder of `wait_lock`, the position of each process, and history. -/
structure Sys extends Table where
  pc : Slot → Pc
  waitLock : Option Slot
  creations : Nat
  forkedBy : Slot → Int
  events : List Event

/-- Entering a system call, going on with it, and the scheduler's choices. In `cont`, `ok` is
the success of the section's allocations or of its `copyout`. -/
inductive Act where
  | fork (p : Slot)
  | exit (p : Slot) (status : Int)
  | wait (p : Slot)
  | kill (p : Slot) (pid : Int)
  | cont (p : Slot) (ok : Bool)
  | sched (p : Slot)
  | yield (p : Slot)

namespace Sys

/-- Move a process to another program point. -/
def goto (p : Slot) (pc : Pc) (s : Sys) : Sys := { s with pc := Function.update s.pc p pc }

/-- Replace one slot of the table. -/
def setProc (i : Slot) (q : Proc) (s : Sys) : Sys := { s with toTable := s.toTable.set i q }

/-- `allocproc` finds slot `i`, and the child is built in it; `kernel/proc.c:124–152,286–319`. -/
def forkTake (p i : Slot) (s : Sys) : Sys :=
  let t := s.toTable.takeSlot i
  { s with
    toTable := t.set i { t.proc i with traceMask := (t.proc p).traceMask }
    creations := s.creations + 1
    pc := Function.update s.pc p (.forkParent i) }

/-- The same when an allocation fails: `freeproc` gives the slot back. -/
def forkFail (p i : Slot) (s : Sys) : Sys :=
  { s with
    toTable := (s.toTable.takeSlot i).freeproc i
    creations := s.creations + 1
    pc := Function.update s.pc p .user }

/-- `np->parent = p` under `wait_lock`; `kernel/proc.c:321–323`. -/
def forkSetParent (p np : Slot) (s : Sys) : Sys :=
  { s with
    toTable := s.toTable.set np { s.proc np with parent := some p }
    forkedBy := Function.update s.forkedBy np (s.proc p).pid
    pc := Function.update s.pc p (.forkRun np) }

/-- `np->state = RUNNABLE`; the child will start in user space; `kernel/proc.c:325–329`. -/
def forkFinish (p np : Slot) (s : Sys) : Sys :=
  goto p .user (setProc np { s.proc np with state := .RUNNABLE } s)

/-- `pp->parent = initproc`; `kernel/proc.c:341`. -/
def giveToInit (p i : Slot) (status : Int) (s : Sys) : Sys :=
  goto p (.exitWakeInit status i 0) (setProc i { s.proc i with parent := some s.initproc } s)

/-- The last section of `exit`; `kernel/proc.c:379–384`. -/
def becomeZombie (p : Slot) (status : Int) (s : Sys) : Sys :=
  { s with
    toTable := s.toTable.set p { s.proc p with xstate := status, state := .ZOMBIE }
    waitLock := none
    pc := Function.update s.pc p .user
    events := s.events ++ [Event.exit (s.proc p).pid status] }

/-- `wait` frees the zombie it found and returns its pid; `kernel/proc.c:415–424`. -/
def reap (p i : Slot) (s : Sys) : Sys :=
  { s with
    toTable := s.toTable.freeproc i
    waitLock := none
    pc := Function.update s.pc p .user
    events := s.events ++ [Event.reap (s.proc p).pid (s.proc i).pid (s.proc i).xstate] }

/-- One section of `wakeup(chan)` called by `p`: slot `j`. -/
def wakeSlot (p : Slot) (chan : Option Slot) (j : Slot) (s : Sys) : Sys :=
  match chan with
  | some c => if j = p then s else setProc j ((s.proc j).wake c) s
  | none => s

/-- A wakeup moves no process. -/
theorem wakeSlot_pc (p : Slot) (chan : Option Slot) (j : Slot) (s : Sys) :
    (wakeSlot p chan j s).pc = s.pc := by
  unfold wakeSlot
  cases chan with
  | none => rfl
  | some c => dsimp only; split <;> rfl

/-- `release(&wait_lock)` and return to user space. -/
def leave (p : Slot) (s : Sys) : Sys := { goto p .user s with waitLock := none }

/-- The next section of a process inside a call. -/
def cont (p : Slot) (ok : Bool) (s : Sys) : Option Sys :=
  match s.pc p with
  | .user => none
  | .forkScan i =>
    if h : i < NPROC then
      if (s.proc ⟨i, h⟩).state = .UNUSED then
        some (if ok then forkTake p ⟨i, h⟩ s else forkFail p ⟨i, h⟩ s)
      else some (goto p (.forkScan (i + 1)) s)
    else some (goto p .user s)
  | .forkParent np => if s.waitLock = none then some (forkSetParent p np s) else none
  | .forkRun np => some (forkFinish p np s)
  | .exitAcquire status =>
    if s.waitLock = none then
      some { goto p (.exitReparent status 0) s with waitLock := some p }
    else none
  | .exitReparent status i =>
    if h : i < NPROC then
      if (s.proc ⟨i, h⟩).parent = some p then some (giveToInit p ⟨i, h⟩ status s)
      else some (goto p (.exitReparent status (i + 1)) s)
    else some (goto p (.exitWakeParent status 0) s)
  | .exitWakeInit status i j =>
    if h : j < NPROC then
      some (goto p (.exitWakeInit status i (j + 1)) (wakeSlot p (some s.initproc) ⟨j, h⟩ s))
    else some (goto p (.exitReparent status (i + 1)) s)
  | .exitWakeParent status j =>
    if h : j < NPROC then
      some (goto p (.exitWakeParent status (j + 1)) (wakeSlot p (s.proc p).parent ⟨j, h⟩ s))
    else some (goto p (.exitZombie status) s)
  | .exitZombie status => some (becomeZombie p status s)
  | .waitAcquire =>
    if s.waitLock = none then some { goto p (.waitScan 0 false) s with waitLock := some p }
    else none
  | .waitScan i havekids =>
    if h : i < NPROC then
      if (s.proc ⟨i, h⟩).parent = some p then
        if (s.proc ⟨i, h⟩).state = .ZOMBIE then
          some (if ok then reap p ⟨i, h⟩ s else leave p s)
        else some (goto p (.waitScan (i + 1) true) s)
      else some (goto p (.waitScan (i + 1) havekids) s)
    else if havekids then some (goto p .waitKilled s)
    else some (leave p s)
  | .waitKilled =>
    if (s.proc p).killed then some (leave p s) else some (goto p .waitSleep s)
  | .waitSleep =>
    some { goto p .waitAcquire
        (setProc p { s.proc p with chan := some p, state := .SLEEPING } s) with
      waitLock := none }
  | .killScan pid i =>
    if h : i < NPROC then
      if (s.proc ⟨i, h⟩).pid = pid then
        some (goto p .user (setProc ⟨i, h⟩ (s.proc ⟨i, h⟩).kill s))
      else some (goto p (.killScan pid (i + 1)) s)
    else some (goto p .user s)

/-- A running process that is not inside a call enters one. `exit` of init panics. -/
def enter (p : Slot) (pc : Pc) (s : Sys) : Option Sys :=
  if (s.proc p).state = .RUNNING ∧ s.pc p = .user then some (goto p pc s) else none

/-- The step function of the whole system. -/
def step (s : Sys) : Act → Option Sys
  | .fork p => enter p (.forkScan 0) s
  | .exit p status => if p = s.initproc then none else enter p (.exitAcquire status) s
  | .wait p => enter p .waitAcquire s
  | .kill p pid => enter p (.killScan pid 0) s
  | .cont p ok => if (s.proc p).state = .RUNNING then cont p ok s else none
  | .sched p =>
    if (s.proc p).state = .RUNNABLE then
      some (setProc p { s.proc p with state := .RUNNING, chan := none } s)
    else none
  | .yield p =>
    if (s.proc p).state = .RUNNING ∧ s.waitLock ≠ some p then
      some (setProc p { s.proc p with state := .RUNNABLE } s)
    else none

/-- The system when the first process starts; its pid is the first one handed out. -/
def boot : Sys where
  toTable := Table.boot
  pc := fun _ ↦ .user
  waitLock := none
  creations := 1
  forkedBy := fun _ ↦ 0
  events := []

end Sys
end Xv6.Proc
