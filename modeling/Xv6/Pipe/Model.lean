import Mathlib.Logic.Function.Basic
import Xv6.Base.Param
import Xv6.Lib.Run

/-!
# One pipe and the processes that use it

Models `kernel/pipe.c:58–130` with `sleep`, `wakeup` and `kill` of `kernel/proc.c:539–608`.
The processes are an arbitrary type. A step is one loop iteration of the process that holds
`pi->lock`, or a step of another process outside the critical section, so that a `kill` can
land between any two bytes of a transfer. What `copyin` and `copyout` return depends on the
caller's memory and is part of the label.
-/

namespace Xv6

/-- Capacity of a pipe in bytes; `kernel/pipe.c:11`. -/
def PIPESIZE : Nat := 512

/-- `struct pipe` without its lock; `kernel/pipe.c:13`. The counters are 32-bit and run free. -/
structure Pipe where
  data : Fin PIPESIZE → UInt8
  nread : UInt32
  nwrite : UInt32
  readopen : Bool
  writeopen : Bool

namespace Pipe

/-- The test of `piperead`'s two loops, `kernel/pipe.c:113,121`. -/
def empty (pi : Pipe) : Bool := pi.nread = pi.nwrite

/-- The test of `pipewrite`, `kernel/pipe.c:88`; the sum wraps at 32 bits. -/
def full (pi : Pipe) : Bool := pi.nwrite = pi.nread + UInt32.ofNat PIPESIZE

/-- The array position of a free-running counter. -/
def slot (counter : UInt32) : Fin PIPESIZE :=
  ⟨counter.toNat % PIPESIZE, Nat.mod_lt _ (by decide)⟩

/-- `pi->data[pi->nwrite++ % PIPESIZE] = ch`. -/
def put (pi : Pipe) (ch : UInt8) : Pipe :=
  { pi with data := Function.update pi.data (slot pi.nwrite) ch, nwrite := pi.nwrite + 1 }

/-- `ch = pi->data[pi->nread++ % PIPESIZE]`, the pipe afterwards. -/
def take (pi : Pipe) : Pipe := { pi with nread := pi.nread + 1 }

/-- The pipe that `pipealloc` hands out; the page's old contents stay in `data`. -/
def alloc (data : Fin PIPESIZE → UInt8) : Pipe := ⟨data, 0, 0, true, true⟩

/-- Number of bytes in the pipe: the distance of the counters modulo `2 ^ 32`. -/
def count (pi : Pipe) : Nat := (pi.nwrite - pi.nread).toNat

/-- A fresh pipe holds no bytes. -/
theorem count_alloc (data : Fin PIPESIZE → UInt8) : (alloc data).count = 0 := by
  simp [alloc, count]

/-- The reader's test recognizes the count zero. -/
theorem empty_iff_count (pi : Pipe) : pi.empty = true ↔ pi.count = 0 := by
  simp only [empty, count, decide_eq_true_eq, ← UInt32.toNat_inj, UInt32.toNat_sub]
  have := pi.nread.toNat_lt
  have := pi.nwrite.toNat_lt
  omega

/-- The writer's test recognizes the count `PIPESIZE`, also across a wrap of the counters. -/
theorem full_iff_count (pi : Pipe) : pi.full = true ↔ pi.count = PIPESIZE := by
  simp only [full, count, decide_eq_true_eq, ← UInt32.toNat_inj, UInt32.toNat_sub,
    UInt32.toNat_add, UInt32.toNat_ofNat', PIPESIZE]
  have := pi.nread.toNat_lt
  have := pi.nwrite.toNat_lt
  omega

/-- Storing a byte raises the count by one. -/
theorem count_put (pi : Pipe) (ch : UInt8) (h : pi.count < PIPESIZE) :
    (pi.put ch).count = pi.count + 1 := by
  simp only [put, count, UInt32.toNat_sub, UInt32.toNat_add, UInt32.toNat_one,
    PIPESIZE] at h ⊢
  have := pi.nread.toNat_lt
  have := pi.nwrite.toNat_lt
  omega

/-- Taking a byte lowers the count by one. -/
theorem count_take (pi : Pipe) (h : 0 < pi.count) : pi.take.count + 1 = pi.count := by
  simp only [take, count, UInt32.toNat_sub, UInt32.toNat_add, UInt32.toNat_one] at h ⊢
  have := pi.nread.toNat_lt
  have := pi.nwrite.toNat_lt
  omega

/-- The two sleep channels of a pipe, `&pi->nread` and `&pi->nwrite`. -/
inductive Chan where
  | nread
  | nwrite
  deriving DecidableEq, Repr

/-- Where a process is in the pipe code. -/
inductive Pc where
  /-- Outside the pipe code. -/
  | user
  /-- In `pipewrite` with `i` bytes moved, about to acquire the lock: on entry or in `sleep`. -/
  | writeAcquire (n : Int) (i : Nat)
  /-- At the loop test of `pipewrite`; `i₀` bytes were moved when the lock was acquired. -/
  | writeLoop (n : Int) (i₀ i : Nat)
  /-- In `piperead`, about to acquire the lock: on entry or in `sleep`. -/
  | readAcquire (n : Int)
  /-- At the test of the waiting loop of `piperead`. -/
  | readWait (n : Int)
  /-- At the test of the copying loop of `piperead`. -/
  | readCopy (n : Int) (i : Nat)
  deriving DecidableEq, Repr

/-- The part of `struct proc` that the pipe code uses, with the position in that code and
the value the last pipe call returned. -/
structure Thread where
  state : ProcState
  chan : Option Chan
  killed : Bool
  pc : Pc
  ret : Option Int
  deriving DecidableEq, Repr

/-- The pipe, the holder of `pi->lock`, the processes, and whether `pipeclose` freed the page. -/
structure State (P : Type) where
  pipe : Pipe
  lock : Option P
  thread : P → Thread
  freed : Bool

/-- The labels of the steps. -/
inductive Act (P : Type) where
  | pipewrite (p : P) (n : Int)
  | piperead (p : P) (n : Int)
  | pipeclose (p : P) (writable : Bool)
  /-- `acquire(&pi->lock)`, on entry to a call or at the end of `sleep`. -/
  | acquire (p : P)
  /-- One iteration of `pipewrite`'s loop; `ch` is the byte `copyin` fetches, `none` its failure. -/
  | writeIter (p : P) (ch : Option UInt8)
  /-- One test of `piperead`'s waiting loop. -/
  | readTest (p : P)
  /-- One iteration of `piperead`'s copying loop; `ok` says whether `copyout` succeeds. -/
  | readIter (p : P) (ok : Bool)
  /-- The scheduler picks a runnable process. -/
  | sched (p : P)
  /-- A timer interrupt; not while a spinlock is held. -/
  | yield (p : P)
  | kill (p : P)

section Operations

variable {P : Type} [DecidableEq P]

/-- Replace the record of one process. -/
def State.setThread (s : State P) (p : P) (t : Thread) : State P :=
  { s with thread := Function.update s.thread p t }

/-- `wakeup(chan)` called by `me`; `kernel/proc.c:570`. -/
def wakeup (me : P) (ch : Chan) (s : State P) : State P :=
  { s with thread := fun q ↦
      let t := s.thread q
      if q ≠ me ∧ t.state = .SLEEPING ∧ t.chan = some ch then { t with state := .RUNNABLE } else t }

/-- `sleep(chan, &pi->lock)` called by `me`, up to `sched()`; `kernel/proc.c:539`. The process
will continue at `pc`, where it acquires the lock again. -/
def sleep (me : P) (ch : Chan) (pc : Pc) (s : State P) : State P :=
  { s.setThread me { s.thread me with state := .SLEEPING, chan := some ch, pc := pc } with
    lock := none }

/-- `release(&pi->lock)` and return of `r` to the caller. -/
def finish (me : P) (r : Int) (s : State P) : State P :=
  { s.setThread me { s.thread me with pc := .user, ret := some r } with lock := none }

/-- `kill` once it has found the process; `kernel/proc.c:596–600`. -/
def kill (p : P) (s : State P) : State P :=
  let t := s.thread p
  s.setThread p { t with
    killed := true
    state := if t.state = .SLEEPING then .RUNNABLE else t.state }

/-- One iteration of the loop of `pipewrite`; `kernel/pipe.c:83–101`. -/
def writeIter (me : P) (ch : Option UInt8) (n : Int) (i₀ i : Nat) (s : State P) : State P :=
  if (i : Int) < n then
    -- this exit issues no wakeup
    if s.pipe.readopen = false ∨ (s.thread me).killed then finish me (-1) s
    else if s.pipe.full then sleep me .nwrite (.writeAcquire n i) (wakeup me .nread s)
    else match ch with
      | none => finish me i (wakeup me .nread s)
      | some c =>
        { s.setThread me { s.thread me with pc := .writeLoop n i₀ (i + 1) } with
          pipe := s.pipe.put c }
  else finish me i (wakeup me .nread s)

/-- One test of the waiting loop of `piperead`; `kernel/pipe.c:113–119`. -/
def readTest (me : P) (n : Int) (s : State P) : State P :=
  if s.pipe.empty ∧ s.pipe.writeopen then
    if (s.thread me).killed then finish me (-1) s
    else sleep me .nread (.readAcquire n) s
  else s.setThread me { s.thread me with pc := .readCopy n 0 }

/-- One iteration of the copying loop of `piperead`; `kernel/pipe.c:120–129`. A byte is taken
out of the pipe before `copyout` is tried. -/
def readIter (me : P) (ok : Bool) (n : Int) (i : Nat) (s : State P) : State P :=
  if (i : Int) < n then
    if s.pipe.empty then finish me i (wakeup me .nwrite s)
    else
      let s := { s with pipe := s.pipe.take }
      if ok then s.setThread me { s.thread me with pc := .readCopy n (i + 1) }
      else finish me i (wakeup me .nwrite s)
  else finish me i (wakeup me .nwrite s)

/-- Mark one end closed and wake the processes that wait for it; `kernel/pipe.c:62–68`. -/
def closeEnd (me : P) (writable : Bool) (s : State P) : State P :=
  if writable then wakeup me .nread { s with pipe := { s.pipe with writeopen := false } }
  else wakeup me .nwrite { s with pipe := { s.pipe with readopen := false } }

/-- The critical section of `pipeclose`; `kernel/pipe.c:58–74`. -/
def pipeclose (me : P) (writable : Bool) (s : State P) : State P :=
  let s := closeEnd me writable s
  if s.pipe.readopen = false ∧ s.pipe.writeopen = false then { s with freed := true } else s

/-- A process is on a CPU and may take steps of its own. -/
def State.Running (s : State P) (p : P) : Prop := (s.thread p).state = .RUNNING

instance (s : State P) (p : P) : Decidable (s.Running p) :=
  inferInstanceAs (Decidable (_ = _))

/-- The step function of the pipe and its users. -/
def step (s : State P) : Act P → Option (State P)
  | .pipewrite p n =>
    if s.Running p ∧ (s.thread p).pc = .user then
      some (s.setThread p { s.thread p with pc := .writeAcquire n 0 })
    else none
  | .piperead p n =>
    if s.Running p ∧ (s.thread p).pc = .user then
      some (s.setThread p { s.thread p with pc := .readAcquire n })
    else none
  | .pipeclose p writable =>
    if s.Running p ∧ (s.thread p).pc = .user ∧ s.lock = none ∧ s.freed = false then
      some (pipeclose p writable s)
    else none
  | .acquire p =>
    if s.Running p ∧ s.lock = none ∧ s.freed = false then
      match (s.thread p).pc with
      | .writeAcquire n i =>
        some { s.setThread p { s.thread p with pc := .writeLoop n i i } with lock := some p }
      | .readAcquire n =>
        some { s.setThread p { s.thread p with pc := .readWait n } with lock := some p }
      | _ => none
    else none
  | .writeIter p ch =>
    if s.lock = some p then
      match (s.thread p).pc with
      | .writeLoop n i₀ i => some (writeIter p ch n i₀ i s)
      | _ => none
    else none
  | .readTest p =>
    if s.lock = some p then
      match (s.thread p).pc with
      | .readWait n => some (readTest p n s)
      | _ => none
    else none
  | .readIter p ok =>
    if s.lock = some p then
      match (s.thread p).pc with
      | .readCopy n i => some (readIter p ok n i s)
      | _ => none
    else none
  | .sched p =>
    if (s.thread p).state = .RUNNABLE then
      some (s.setThread p { s.thread p with state := .RUNNING, chan := none })
    else none
  | .yield p =>
    if s.Running p ∧ s.lock ≠ some p then
      some (s.setThread p { s.thread p with state := .RUNNABLE })
    else none
  | .kill p => some (kill p s)

end Operations

/-- A pipe fresh from `pipealloc`: nobody holds its lock, uses it or sleeps. -/
structure Init {P : Type} (s : State P) : Prop where
  pipe : s.pipe = Pipe.alloc s.pipe.data
  lock : s.lock = none
  freed : s.freed = false
  user : ∀ p, (s.thread p).pc = .user
  awake : ∀ p, (s.thread p).state ≠ .SLEEPING

/-- The two processes of an example. -/
def reader : Fin 2 := 0

def writer : Fin 2 := 1

/-- Two runnable processes and a fresh pipe. -/
def twoProcs : State (Fin 2) where
  pipe := alloc (fun _ ↦ 0)
  lock := none
  thread := fun _ ↦ ⟨.RUNNABLE, none, false, .user, none⟩
  freed := false

theorem init_twoProcs : Init twoProcs :=
  ⟨rfl, rfl, rfl, fun _ ↦ rfl, fun _ ↦ ProcState.noConfusion⟩

end Pipe
end Xv6
