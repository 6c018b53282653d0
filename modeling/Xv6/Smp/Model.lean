import Mathlib.Data.List.FinRange
import Mathlib.Logic.Function.Basic
import Xv6.Base.Param
import Xv6.Lib.Run
import Xv6.Proc.Table

/-!
# Kernel threads on several CPUs

`kernel/spinlock.c`, the context switches of `kernel/proc.c` and the interrupts of
`kernel/trap.c`, run by all CPUs at once. A thread is the kernel thread of a process or the
scheduler of a CPU; what is left of its code is a list of instructions. An instruction makes at
most one access to memory that other CPUs may change meanwhile: the tests and stores on a slot
are made by the CPU that has its lock, and of the two fields that `holding` reads, the second
one cannot become this CPU's by what the others do. A saved `struct context` is the rest of such
a list. Between any two instructions other CPUs run, and a CPU with interrupts on takes one.

A kernel thread that has no code left is in code of its caller, which goes on with any call of
these functions that keeps their contract: it releases locks it holds, sleeps with one lock and
yields with none, and calls `wakeup` without a `p->lock`.
-/

namespace Xv6.Smp

open Xv6.Lib

/-- Maximum number of CPUs; `kernel/param.h:2`. -/
def NCPU : Nat := 8

/-- An index of `cpus[NCPU]`, kept in the register `tp`. -/
abbrev Hart := Fin NCPU

/-- A `struct spinlock *`: the lock of a slot, or any other lock. -/
inductive Lock (L : Type) where
  | proc (p : Slot)
  | other (l : L)
  deriving DecidableEq

/-- `struct spinlock`; `kernel/spinlock.h`. -/
structure Spinlock where
  locked : Bool
  cpu : Option Hart

/-- What the caller of `myproc()` does with the result. -/
inductive Use (L H : Type) where
  | sched
  | yield
  | sleep (chan : H) (lk : Lock L)
  | exit (lk : Lock L)
  | forkret
  /-- One round of the loop of `wakeup`. -/
  | wakeup (q : Slot) (chan : H)
  /-- `myproc() != 0` of `kerneltrap`. -/
  | trapLive
  /-- `myproc()->state` of `kerneltrap`. -/
  | trapState

/-- An instruction: one access to a lock or to the CPU's own registers and `struct cpu`, or the
tests and stores that the code makes on a slot whose lock it holds. `notHolding` and `isHolding`
read two fields of the lock. -/
inductive Instr (L H : Type) where
  /-- `old = intr_get()` of `push_off`. -/
  | intrGet
  | intrOff
  | intrOn
  /-- The rest of `push_off`; `kernel/spinlock.c:93–95`. -/
  | noffInc (old : Bool)
  /-- `if(holding(lk)) panic("acquire")`. -/
  | notHolding (lk : Lock L)
  | testAndSet (lk : Lock L)
  /-- `lk->cpu = mycpu()`. -/
  | setCpu (lk : Lock L)
  /-- `if(!holding(lk)) panic("release")`. -/
  | isHolding (lk : Lock L)
  /-- `lk->cpu = 0`. -/
  | clearCpu (lk : Lock L)
  | lockRelease (lk : Lock L)
  /-- The tests of `pop_off`. -/
  | popTest
  | noffDec
  /-- `if(c->noff == 0 && c->intena) intr_on()`. -/
  | intrRestore
  /-- `p = c->proc` of `myproc`, and what follows. -/
  | readProc (u : Use L H)
  /-- `p->state = state` for the own slot. -/
  | setState (p : Slot) (state : ProcState)
  | setChan (p : Slot) (chan : Option H)
  /-- The test of `wakeup`, and its `p->state = RUNNABLE`. -/
  | wake (q : Slot) (chan : H)
  /-- The tests of `sched`. -/
  | schedTest (p : Slot)
  /-- `intena = mycpu()->intena` of `sched`. -/
  | saveIntena
  /-- `swtch(&p->context, &mycpu()->context)`. -/
  | swtch
  /-- `mycpu()->intena = intena` of `sched`. -/
  | setIntena (intena : Bool)
  /-- The test of `scheduler`, and its `p->state = RUNNING` and `c->proc = p`. -/
  | tryRun (q : Slot)
  /-- `swtch(&c->context, &p->context)`. -/
  | swtchTo (q : Slot)
  /-- `c->proc = 0` of `scheduler`. -/
  | clearProc
  /-- The next round of the `for(;;)` of `scheduler`. -/
  | loop
  /-- `if(state == RUNNING) yield()` of `kerneltrap`. -/
  | trapYield (p : Slot)
  /-- `w_sstatus(sstatus)` and `sret`. -/
  | sret
  | panic (msg : String)
  /-- History: the process, which asked for it, begins to sleep. -/
  | doze (p : Slot) (chan : H)
  /-- The loop of `wakeup` begins. -/
  | wakeBegin (chan : H)
  /-- History: the loop of `wakeup` is over; the slots that were asleep when it began. -/
  | wakeEnd (chan : H) (due : List (Slot × Nat))
  /-- History: the new thread takes the interrupts as it finds them. -/
  | adopt

/-- Code that is left to run. -/
abbrev Code (L H : Type) := List (Instr L H)

section Code

variable {L H : Type}

/-- `push_off`; `kernel/spinlock.c:87–96`. -/
def pushOff : Code L H := [.intrGet]

/-- `pop_off`; `kernel/spinlock.c:98–109`. -/
def popOff : Code L H := [.popTest, .noffDec, .intrRestore]

/-- `acquire`; `kernel/spinlock.c:21–42`. -/
def acquire (lk : Lock L) : Code L H :=
  pushOff ++ [.notHolding lk, .testAndSet lk, .setCpu lk]

/-- `release`; `kernel/spinlock.c:45–71`. -/
def release (lk : Lock L) : Code L H :=
  [.isHolding lk, .clearCpu lk, .lockRelease lk] ++ popOff

/-- `myproc()` and what is done with its result; `kernel/proc.c:81–89`. -/
def withMyproc (u : Use L H) : Code L H := pushOff ++ [.readProc u]

/-- `sched`; `kernel/proc.c:485–504`. -/
def sched : Code L H := withMyproc .sched

/-- `yield`; `kernel/proc.c:507–515`. -/
def yield : Code L H := withMyproc .yield

/-- `sleep`; `kernel/proc.c:541–567`. -/
def sleep (chan : H) (lk : Lock L) : Code L H := withMyproc (.sleep chan lk)

/-- The loop of `wakeup`; `kernel/proc.c:576–584`. -/
def wakeLoop (chan : H) : Code L H :=
  (List.finRange NPROC).flatMap (fun q ↦ withMyproc (.wakeup q chan))

/-- The end of `exit`, from `acquire(&p->lock)`; `lk` is `wait_lock`;
`kernel/proc.c:377–388`. -/
def exitTail (lk : Lock L) : Code L H := withMyproc (.exit lk)

/-- `forkret`, up to the code of its caller; `kernel/proc.c:519–537`. -/
def forkret : Code L H := withMyproc .forkret

/-- One round of `scheduler` for slot `q`; `kernel/proc.c:456–472`. -/
def scanSlot (q : Slot) : Code L H :=
  acquire (.proc q) ++ [.tryRun q] ++ release (.proc q)

/-- One pass of `scheduler` over the table, and the next. -/
def scan : Code L H := [.intrOn] ++ (List.finRange NPROC).flatMap scanSlot ++ [.loop]

/-- The use of a null pointer, a trap that `kerneltrap` does not know. -/
def nullProc : Code L H := [.panic "kerneltrap"]

/-- What follows `myproc()`, which returned `p`. -/
def Use.body (p : Option Slot) : Use L H → Code L H
  | .sched => p.elim nullProc (fun p ↦ [.schedTest p, .saveIntena])
  | .yield => p.elim nullProc (fun p ↦
      acquire (.proc p) ++ [.setState p .RUNNABLE] ++ Smp.sched ++ release (.proc p))
  | .sleep chan lk => p.elim nullProc (fun p ↦
      acquire (.proc p) ++ [.doze p chan] ++ release lk ++
        [.setChan p (some chan), .setState p .SLEEPING] ++ Smp.sched ++
        [.setChan p none] ++ release (.proc p) ++ acquire lk)
  | .exit lk => p.elim nullProc (fun p ↦
      acquire (.proc p) ++ [.setState p .ZOMBIE] ++ release lk ++ Smp.sched ++
        [.panic "zombie exit"])
  | .forkret => p.elim nullProc (fun p ↦ release (.proc p) ++ [.adopt])
  | .wakeup q chan =>
    if p = some q then []
    else acquire (.proc q) ++ [.wake q chan] ++ release (.proc q)
  | .trapLive => p.elim [] (fun _ ↦ withMyproc .trapState)
  | .trapState => p.elim nullProc (fun p ↦ [.trapYield p])

end Code

/-- An interrupt: of the timer, or of a device whose handler takes locks, one after the other,
and wakes processes under each. Hart 0 counts the ticks of the timer under `tickslock`. -/
inductive Interrupt (L H : Type) where
  | timer (ticks : Option (L × H))
  | device (sections : List (L × List H))

/-- A critical section of a handler, with its calls of `wakeup`. -/
def notify {L H : Type} (l : L) (chans : List H) : Code L H :=
  acquire (.other l) ++ chans.map .wakeBegin ++ release (.other l)

/-- `devintr` and the rest of `kerneltrap`, and the return from it; `kernel/trap.c:134–161`. -/
def Interrupt.handler {L H : Type} : Interrupt L H → Code L H
  | .timer ticks =>
    ticks.elim [] (fun t ↦ notify t.1 [t.2]) ++ withMyproc .trapLive ++ [.sret]
  | .device sections => sections.flatMap (fun x ↦ notify x.1 x.2) ++ [.sret]

/-- `struct cpu`, with the bit `SSTATUS_SIE` of the CPU, the thread that it runs (`none` is
its scheduler), and history: the locks it has taken, the one whose `acquire` or `release` is
under way, and the slot that its scheduler is about to switch to. -/
structure Cpu (L : Type) where
  noff : Nat
  intena : Bool
  proc : Option Slot
  sie : Bool
  thread : Option Slot
  held : List (Lock L)
  pending : Option (Lock L)
  next : Option Slot

/-- The fields of `struct proc` that the context switches use, with history: how often the
process began to sleep, and the channel on which it does. -/
structure Proc (H : Type) where
  state : ProcState
  chan : Option H
  naps : Nat
  dozing : Option H

/-- All CPUs, locks and slots, the code left of each thread, and history: the interrupts that
each process asked for, and the `sleep` that it called and that has not begun its nap. -/
structure State (L H : Type) where
  cpu : Hart → Cpu L
  lock : Lock L → Spinlock
  proc : Slot → Proc H
  kern : Slot → Code L H
  sched : Hart → Code L H
  want : Slot → Bool
  asked : Slot → Option (H × Lock L)
  panicked : Option String

/-- Calls that the code of a process makes, and its stores to a slot whose lock it holds. -/
inductive Call (L H : Type) where
  | acquire (lk : Lock L)
  | release (lk : Lock L)
  | sleep (chan : H) (lk : Lock L)
  | wakeup (chan : H)
  | yield
  | exit (lk : Lock L)
  | intrOn
  | intrOff
  /-- `if(p->state == UNUSED)` of `allocproc`, its `p->state = USED` and the new context. -/
  | allocproc (q : Slot)
  /-- `np->state = RUNNABLE` of `fork`. -/
  | start (q : Slot)
  | freeproc (q : Slot)
  /-- What `kill` does to the state of the slot it found. -/
  | kill (q : Slot)

/-- What a CPU does next. -/
inductive Act (L H : Type) where
  | exec (c : Hart)
  | call (c : Hart) (f : Call L H)
  | interrupt (c : Hart) (i : Interrupt L H)

/-- The contract of the calls, for a caller that runs process `p` on a CPU in state `v`. A
parent starts and frees slots that it allocated, or that exited. -/
def Call.Allowed {L H : Type} (v : Cpu L) (p : Slot) (state : Slot → ProcState) :
    Call L H → Prop
  | .acquire lk => lk ∉ v.held
  | .release lk => lk ∈ v.held
  | .sleep _ lk | .exit lk => v.held = [lk] ∧ lk ≠ .proc p
  | .wakeup _ => ∀ q, .proc q ∉ v.held
  | .yield | .intrOn | .intrOff => v.held = []
  | .allocproc q | .kill q => .proc q ∈ v.held
  | .start q => .proc q ∈ v.held ∧ state q = .USED
  | .freeproc q => .proc q ∈ v.held ∧ (state q = .USED ∨ state q = .ZOMBIE)

instance {L H : Type} [DecidableEq L] (v : Cpu L) (p : Slot) (state : Slot → ProcState)
    (f : Call L H) : Decidable (f.Allowed v p state) := by
  cases f <;> unfold Call.Allowed <;> infer_instance

namespace State

variable {L H : Type} [DecidableEq L]

/-- The code of the thread that runs on a CPU. -/
def code (s : State L H) (c : Hart) : Code L H := (s.cpu c).thread.elim (s.sched c) s.kern

/-- The thread that runs on a CPU goes on with code `k`. -/
def setCode (c : Hart) (k : Code L H) (s : State L H) : State L H :=
  match (s.cpu c).thread with
  | some p => { s with kern := Function.update s.kern p k }
  | none => { s with sched := Function.update s.sched c k }

def setCpu (c : Hart) (v : Cpu L) (s : State L H) : State L H :=
  { s with cpu := Function.update s.cpu c v }

def setLock (lk : Lock L) (l : Spinlock) (s : State L H) : State L H :=
  { s with lock := Function.update s.lock lk l }

def setProc (p : Slot) (r : Proc H) (s : State L H) : State L H :=
  { s with proc := Function.update s.proc p r }

def fail (msg : String) (s : State L H) : State L H := { s with panicked := some msg }

/-- `holding`; `kernel/spinlock.c:75–81`. -/
def holding (s : State L H) (c : Hart) (lk : Lock L) : Bool :=
  (s.lock lk).locked && (s.lock lk).cpu = some c

/-- A slot whose process sleeps becomes RUNNABLE. -/
def rouse (q : Slot) (s : State L H) : State L H :=
  s.setProc q { s.proc q with state := .RUNNABLE, dozing := none }

variable [DecidableEq H]

/-- The slots that sleep on `chan`, each with the number of the nap. -/
def asleep (s : State L H) (chan : H) : List (Slot × Nat) :=
  ((List.finRange NPROC).filter (fun p ↦ (s.proc p).dozing = some chan)).map
    (fun p ↦ (p, (s.proc p).naps))

/-- The effect of one instruction of CPU `c`, whose thread goes on with code `k`. -/
def execInstr (c : Hart) (k : Code L H) (s : State L H) : Instr L H → State L H
  | .intrGet => s.setCode c (.intrOff :: .noffInc (s.cpu c).sie :: k)
  | .intrOff => (s.setCode c k).setCpu c { s.cpu c with sie := false }
  | .intrOn | .sret => (s.setCode c k).setCpu c { s.cpu c with sie := true }
  | .noffInc old =>
    (s.setCode c k).setCpu c { s.cpu c with
      intena := if (s.cpu c).noff = 0 then old else (s.cpu c).intena
      noff := (s.cpu c).noff + 1 }
  | .notHolding lk => if s.holding c lk then s.fail "acquire" else s.setCode c k
  | .testAndSet lk =>
    -- a lock that is taken makes the CPU spin
    if (s.lock lk).locked then s
    else ((s.setCode c k).setLock lk { s.lock lk with locked := true }).setCpu c
      { s.cpu c with held := lk :: (s.cpu c).held, pending := some lk }
  | .setCpu lk =>
    ((s.setCode c k).setLock lk { s.lock lk with cpu := some c }).setCpu c
      { s.cpu c with pending := none }
  | .isHolding lk => if s.holding c lk then s.setCode c k else s.fail "release"
  | .clearCpu lk =>
    ((s.setCode c k).setLock lk { s.lock lk with cpu := none }).setCpu c
      { s.cpu c with pending := some lk }
  | .lockRelease lk =>
    ((s.setCode c k).setLock lk { s.lock lk with locked := false }).setCpu c
      { s.cpu c with held := (s.cpu c).held.erase lk, pending := none }
  | .popTest =>
    if (s.cpu c).sie then s.fail "pop_off - interruptible"
    else if (s.cpu c).noff < 1 then s.fail "pop_off"
    else s.setCode c k
  | .noffDec => (s.setCode c k).setCpu c { s.cpu c with noff := (s.cpu c).noff - 1 }
  | .intrRestore =>
    (s.setCode c k).setCpu c { s.cpu c with
      sie := (s.cpu c).sie || (decide ((s.cpu c).noff = 0) && (s.cpu c).intena) }
  | .readProc u => s.setCode c (popOff ++ u.body (s.cpu c).proc ++ k)
  | .setState p state => (s.setCode c k).setProc p { s.proc p with state := state }
  | .setChan p chan => (s.setCode c k).setProc p { s.proc p with chan := chan }
  | .wake q chan =>
    if (s.proc q).state = .SLEEPING ∧ (s.proc q).chan = some chan then (s.setCode c k).rouse q
    else s.setCode c k
  | .schedTest p =>
    if s.holding c (.proc p) = false then s.fail "sched p->lock"
    else if (s.cpu c).noff ≠ 1 then s.fail "sched locks"
    else if (s.proc p).state = .RUNNING then s.fail "sched running"
    else if (s.cpu c).sie then s.fail "sched interruptible"
    else s.setCode c k
  | .saveIntena => s.setCode c (.swtch :: .setIntena (s.cpu c).intena :: k)
  | .swtch => (s.setCode c k).setCpu c { s.cpu c with thread := none }
  | .setIntena intena => (s.setCode c k).setCpu c { s.cpu c with intena := intena }
  | .tryRun q =>
    if (s.proc q).state = .RUNNABLE then
      ((s.setCode c (.swtchTo q :: .clearProc :: k)).setProc q
        { s.proc q with state := .RUNNING }).setCpu c
        { s.cpu c with proc := some q, next := some q }
    else s.setCode c k
  | .swtchTo q => (s.setCode c k).setCpu c { s.cpu c with thread := some q, next := none }
  | .clearProc => (s.setCode c k).setCpu c { s.cpu c with proc := none }
  | .loop => s.setCode c (scan ++ k)
  | .trapYield p => if (s.proc p).state = .RUNNING then s.setCode c (yield ++ k) else s.setCode c k
  | .panic msg => s.fail msg
  | .doze p chan =>
    { (s.setCode c k).setProc p
        { s.proc p with naps := (s.proc p).naps + 1, dozing := some chan } with
      asked := Function.update s.asked p none }
  | .wakeBegin chan => s.setCode c (wakeLoop chan ++ .wakeEnd chan (s.asleep chan) :: k)
  | .wakeEnd _ _ => s.setCode c k
  | .adopt =>
    match (s.cpu c).thread with
    | some p => { s.setCode c k with want := Function.update s.want p (s.cpu c).sie }
    | none => s.setCode c k

/-- The effect of a call by process `p` on CPU `c`. -/
def execCall (c : Hart) (p : Slot) (s : State L H) : Call L H → State L H
  | .acquire lk => s.setCode c (acquire lk)
  | .release lk => s.setCode c (release lk)
  | .sleep chan lk =>
    { s.setCode c (sleep chan lk) with asked := Function.update s.asked p (some (chan, lk)) }
  | .wakeup chan => s.setCode c [.wakeBegin chan]
  | .yield => s.setCode c yield
  | .exit lk => s.setCode c (exitTail lk)
  | .intrOn => { s.setCode c [.intrOn] with want := Function.update s.want p true }
  | .intrOff => { s.setCode c [.intrOff] with want := Function.update s.want p false }
  | .allocproc q =>
    if (s.proc q).state = .UNUSED then
      { s.setProc q { s.proc q with state := .USED } with
        kern := Function.update s.kern q forkret }
    else s
  | .start q => s.setProc q { s.proc q with state := .RUNNABLE }
  | .freeproc q => s.setProc q { s.proc q with state := .UNUSED, chan := none }
  | .kill q => if (s.proc q).state = .SLEEPING then s.rouse q else s

/-- The step function: an instruction of a CPU, a call of the process that runs on it, or an
interrupt, which the hardware takes with interrupts off. -/
def step (s : State L H) : Act L H → Option (State L H)
  | .exec c =>
    match s.code c with
    | [] => none
    | i :: k => some (s.execInstr c k i)
  | .call c f =>
    match (s.cpu c).thread with
    | some p =>
      if s.kern p = [] ∧ f.Allowed (s.cpu c) p (fun q ↦ (s.proc q).state) then
        some (s.execCall c p f)
      else none
    | none => none
  | .interrupt c i =>
    if (s.cpu c).sie then
      some ((s.setCode c (i.handler ++ s.code c)).setCpu c { s.cpu c with sie := false })
    else none

/-- A CPU that enters `scheduler`. -/
def enterScheduler : Cpu L where
  noff := 0
  intena := false
  proc := none
  sie := false
  thread := none
  held := []
  pending := none
  next := none

/-- The end of `main`: `userinit` has made the first process, in slot 0, and every CPU enters
`scheduler`. -/
def boot : State L H where
  cpu := fun _ ↦ enterScheduler
  lock := fun _ ↦ ⟨false, none⟩
  proc := fun p ↦ ⟨if p = 0 then .RUNNABLE else .UNUSED, none, 0, none⟩
  kern := fun p ↦ if p = 0 then forkret else []
  sched := fun _ ↦ [.clearProc, .loop]
  want := fun _ ↦ false
  asked := fun _ ↦ none
  panicked := none

end State

end Xv6.Smp
