import Mathlib.Data.List.FinRange
import Mathlib.Logic.Function.Basic
import Xv6.Base.Param

/-!
# The process table

The fields of `struct proc` that `fork`, `exit`, `wait` and `kill` of `kernel/proc.c` use to
control processes, and these calls as functions on the whole table. Whether a call's memory
allocations and copies to user memory succeed is an argument. Memory, files and the working
directory of a process are the subject of other modules.
-/

namespace Xv6

/-- An index of `proc[NPROC]`; a `struct proc *` of the source. -/
abbrev Slot := Fin NPROC

/-- Two's complement result of an `int` computation. -/
def wrap32 (x : Int) : Int := x.bmod (2 ^ 32)

/-- Control fields of `struct proc`; `kernel/proc.h:85–110`. The only sleep channel used here
is the address of a slot. -/
structure Proc where
  state : ProcState
  chan : Option Slot
  killed : Bool
  xstate : Int
  pid : Int
  parent : Option Slot
  traceMask : Int
  deriving DecidableEq, Repr

namespace Proc

/-- A slot of zeroed memory, which is `UNUSED`. -/
def zero : Proc := ⟨.UNUSED, none, false, 0, 0, none, 0⟩

/-- What `freeproc` leaves of a slot; `kernel/proc.c:157–172`. The trace mask stays. -/
def free (p : Proc) : Proc :=
  { p with
    pid := 0
    parent := none
    chan := none
    killed := false
    xstate := 0
    state := .UNUSED }

/-- The effect of `kill` on the slot it finds; `kernel/proc.c:596–600`. -/
def kill (p : Proc) : Proc :=
  { p with
    killed := true
    state := if p.state = .SLEEPING then .RUNNABLE else p.state }

/-- The effect of `wakeup(chan)` on one slot; `kernel/proc.c:577–579`. -/
def wake (chan : Slot) (p : Proc) : Proc :=
  if p.state = .SLEEPING ∧ p.chan = some chan then { p with state := .RUNNABLE } else p

/-- The table with `nextpid` and `initproc`. -/
structure Table where
  proc : Slot → Proc
  nextpid : Int
  initproc : Slot

namespace Table

/-- Replace one slot. -/
def set (s : Table) (i : Slot) (p : Proc) : Table :=
  { s with proc := Function.update s.proc i p }

/-- The first slot with a property, in the order in which the source walks the table. -/
def find (f : Slot → Bool) : Option Slot := (List.finRange NPROC).find? f

/-- `freeproc(&proc[i])`. -/
def freeproc (i : Slot) (s : Table) : Table := s.set i (s.proc i).free

/-- `allocpid` followed by the initialization of slot `i`; `kernel/proc.c:93–104,125–127`. -/
def takeSlot (i : Slot) (s : Table) : Table :=
  { s.set i { s.proc i with pid := s.nextpid, state := .USED } with
    nextpid := wrap32 (s.nextpid + 1) }

/-- `allocproc`; `kernel/proc.c:110–152`. `mem` says that the trapframe and the page table can
be allocated. -/
def allocproc (mem : Bool) (s : Table) : Option Slot × Table :=
  match find (fun i ↦ (s.proc i).state = .UNUSED) with
  | none => (none, s)
  | some i => if mem then (some i, takeSlot i s) else (none, freeproc i (takeSlot i s))

/-- `fork` called by `me`; `kernel/proc.c:280–330`. `copy` is the success of `uvmcopy`. -/
def fork (me : Slot) (mem copy : Bool) (s : Table) : Int × Table :=
  match allocproc mem s with
  | (none, s) => (-1, s)
  | (some np, s) =>
    if copy then
      ((s.proc np).pid, s.set np { s.proc np with
        traceMask := (s.proc me).traceMask
        parent := some me
        state := .RUNNABLE })
    else (-1, freeproc np s)

/-- `wakeup(chan)` called by `me`; `kernel/proc.c:570–584`. -/
def wakeup (me chan : Slot) (s : Table) : Table :=
  { s with proc := fun i ↦ if i = me then s.proc i else (s.proc i).wake chan }

/-- One iteration of `reparent`; `kernel/proc.c:340–343`. -/
def reparentSlot (me : Slot) (s : Table) (i : Slot) : Table :=
  if (s.proc i).parent = some me then
    wakeup me s.initproc (s.set i { s.proc i with parent := some s.initproc })
  else s

/-- `reparent(me)`; `kernel/proc.c:335–345`. -/
def reparent (me : Slot) (s : Table) : Table :=
  (List.finRange NPROC).foldl (reparentSlot me) s

/-- `exit(status)` called by `me`, from the point where it takes `wait_lock`;
`kernel/proc.c:371–387`. It is `none` for the panic "init exiting". -/
def exit (me : Slot) (status : Int) (s : Table) : Option Table :=
  if me = s.initproc then none
  else
    let s := reparent me s
    let s := match (s.proc me).parent with
      | some q => wakeup me q s
      | none => s
    some (s.set me { s.proc me with xstate := status, state := .ZOMBIE })

/-- One round of the loop of `wait` called by `me`; `kernel/proc.c:398–438`. The result is
`none` when the caller goes to sleep. `fault` is a failure of `copyout`. -/
def wait (me : Slot) (fault : Bool) (s : Table) : Option Int × Table :=
  match find (fun i ↦ (s.proc i).parent = some me ∧ (s.proc i).state = .ZOMBIE) with
  | some i => if fault then (some (-1), s) else (some (s.proc i).pid, freeproc i s)
  | none =>
    if (∀ i, (s.proc i).parent ≠ some me) ∨ (s.proc me).killed then (some (-1), s)
    else (none, s.set me { s.proc me with chan := some me, state := .SLEEPING })

/-- `kill(pid)`; `kernel/proc.c:589–608`. -/
def kill (pid : Int) (s : Table) : Int × Table :=
  match find (fun i ↦ (s.proc i).pid = pid) with
  | some i => (0, s.set i (s.proc i).kill)
  | none => (-1, s)

/-- The table after `procinit`: static storage starts out zeroed; `kernel/proc.c:15–19,48–60`. -/
def procinit : Table := ⟨fun _ ↦ .zero, 1, ⟨0, by decide⟩⟩

/-- `userinit` makes the first process, in the first slot; `kernel/proc.c:235–257`. -/
def userinit (s : Table) : Table :=
  match allocproc true s with
  | (some p, s) => { s.set p { s.proc p with state := .RUNNABLE } with initproc := p }
  | (none, s) => s

/-- The table when the first process starts. -/
def boot : Table := userinit procinit

/-- A slot that `find` returns has the property. -/
theorem find_some {f : Slot → Bool} {i : Slot} (h : find f = some i) : f i = true :=
  List.find?_some h

/-- `find` fails only when no slot has the property. -/
theorem find_none {f : Slot → Bool} (h : find f = none) (i : Slot) : f i = false := by
  simpa using List.find?_eq_none.mp h i (List.mem_finRange i)

/-- No slot before the one that `find` returns has the property. -/
theorem find_lt {f : Slot → Bool} {i j : Slot} (h : find f = some i) (hj : j < i) :
    f j = false := by
  obtain ⟨-, as, bs, hsplit, hbefore⟩ := List.find?_eq_some_iff_append.mp h
  have hsorted : (as ++ i :: bs).Pairwise (· < ·) := by
    rw [← hsplit]
    exact List.pairwise_lt_finRange NPROC
  have hmem : j ∈ as ++ i :: bs := by
    rw [← hsplit]
    exact List.mem_finRange j
  rcases List.mem_append.mp hmem with hj' | hj'
  · simpa using hbefore j hj'
  · rw [List.pairwise_append] at hsorted
    rcases List.mem_cons.mp hj' with rfl | hb
    · exact (lt_irrefl _ hj).elim
    · have := List.rel_of_pairwise_cons hsorted.2.1 hb
      exact (lt_asymm hj this).elim

/-- Reading a slot of an updated table. -/
theorem set_proc (s : Table) (i j : Slot) (p : Proc) :
    (s.set i p).proc j = if j = i then p else s.proc j := by
  simp [set, Function.update_apply]

end Table
end Proc
end Xv6
