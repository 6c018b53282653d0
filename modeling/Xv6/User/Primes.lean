import Mathlib.Data.Nat.Prime.Basic
import Xv6.Lib.Run
import Xv6.Lib.Sieve
import Xv6.Pipe.Model

/-!
# The prime sieve

`readleft` of `utilities/primes.c` as a system of processes: each stage is forked by the one before
it and reads from the pipe that the one before it has filled. A step is one system call of one
process, or the work between two of them, and the processes take their steps in any order. All
transfers are of one `int` and `PIPESIZE` is a multiple of its size, so a pipe holds a list of
numbers.
-/

namespace Xv6.Primes

open Xv6.Lib

/-- The numbers that fit in a pipe. -/
def CAPACITY : Nat := PIPESIZE / 4

/-- Where a process is, with the variables that are live there. `p0` and `p` are pipes, `ret` says
where `readleft` returns to: to `main`, or to a stage that closes its `p[0]` next. -/
inductive Pc where
  /-- `utilities/primes.c:8`. -/
  | fork (p0 : Nat) (ret : Option Nat)
  /-- `utilities/primes.c:10`. -/
  | readCur (p0 : Nat) (ret : Option Nat)
  /-- `utilities/primes.c:12`. -/
  | print (p0 : Nat) (cur : Int)
  /-- `utilities/primes.c:15`. -/
  | pipe (p0 : Nat) (cur : Int)
  /-- `utilities/primes.c:16`. -/
  | readTmp (p0 : Nat) (cur : Int) (p : Nat)
  /-- `utilities/primes.c:17–18`. -/
  | test (p0 : Nat) (cur : Int) (p : Nat) (tmp : Int)
  /-- `utilities/primes.c:20`. -/
  | closeLeft (p0 p : Nat)
  /-- `utilities/primes.c:21`. -/
  | closeWrite (p : Nat)
  /-- `utilities/primes.c:27`, in the parent. -/
  | closeP0 (p0 : Nat) (ret : Option Nat)
  /-- `utilities/primes.c:28`. -/
  | wait (ret : Option Nat)
  /-- `utilities/primes.c:23`. -/
  | closeRead (p : Nat)
  | exit
  | zombie
  | reaped
  deriving DecidableEq, Repr

/-- A process: its parent, the pipe that it reads as a stage, and the ends of pipes it has open,
`true` for the write end. -/
structure Proc where
  parent : Option Nat
  left : Option Nat
  pc : Pc
  ofile : Nat → Bool → Bool

/-- The processes and pipes in the order of their creation, and the numbers printed so far. -/
structure State where
  count : Nat
  proc : Nat → Proc
  npipes : Nat
  pipe : Nat → List Int
  printed : List Int

/-- Where `readleft` returns to. -/
def back : Option Nat → Pc
  | none => .exit
  | some p => .closeRead p

/-- Some process has the end of a pipe open. -/
def State.HasEnd (s : State) (q : Nat) (w : Bool) : Prop :=
  ∃ i < s.count, (s.proc i).ofile q w = true

instance (s : State) (q : Nat) (w : Bool) : Decidable (s.HasEnd q w) :=
  inferInstanceAs (Decidable (∃ i < s.count, _))

/-- Continue process `i` at `pc`. -/
def State.goto (s : State) (i : Nat) (pc : Pc) : State :=
  { s with proc := Function.update s.proc i { s.proc i with pc := pc } }

/-- `close` of one end, and continue at `pc`. -/
def State.close (s : State) (i q : Nat) (w : Bool) (pc : Pc) : State :=
  let ofile := fun q' w' ↦ if q' = q ∧ w' = w then false else (s.proc i).ofile q' w'
  { s with proc := Function.update s.proc i { s.proc i with pc := pc, ofile := ofile } }

/-- `fork`, with the parent and the child at their next statements. -/
def State.fork (s : State) (i p0 : Nat) (ret : Option Nat) : State :=
  { s with
    count := s.count + 1
    proc := Function.update (s.goto i (.closeP0 p0 ret)).proc s.count
      ⟨some i, some p0, .readCur p0 ret, (s.proc i).ofile⟩ }

/-- `pipe(p)`. -/
def State.mkpipe (s : State) (i p0 : Nat) (cur : Int) : State :=
  let q := s.npipes
  let ofile := fun q' w ↦ if q' = q then true else (s.proc i).ofile q' w
  { s with
    npipes := q + 1
    pipe := Function.update s.pipe q []
    proc := Function.update s.proc i { s.proc i with pc := .readTmp p0 cur q, ofile := ofile } }

/-- `read` of a number: `some none` at the end of file, `none` while the process has to wait. -/
def State.read (s : State) (i q : Nat) : Option (Option (Int × State)) :=
  if (s.proc i).ofile q false = true then
    match s.pipe q with
    | x :: xs => some (some (x, { s with pipe := Function.update s.pipe q xs }))
    | [] => if s.HasEnd q true then none else some none
  else none

/-- `write` of a number; `none` while the pipe is full. -/
def State.write (s : State) (i q : Nat) (x : Int) : Option State :=
  if (s.proc i).ofile q true = true ∧ s.HasEnd q false ∧ (s.pipe q).length < CAPACITY then
    some { s with pipe := Function.update s.pipe q (s.pipe q ++ [x]) }
  else none

/-- A child of process `i` that has exited. -/
def State.deadChild (s : State) (i : Nat) : Option Nat :=
  (List.range s.count).find? (fun j ↦ (s.proc j).parent = some i ∧ (s.proc j).pc = .zombie)

/-- Process `i` has a child that was not waited for. -/
def State.HasChild (s : State) (i : Nat) : Prop :=
  ∃ j < s.count, (s.proc j).parent = some i ∧ (s.proc j).pc ≠ .reaped

instance (s : State) (i : Nat) : Decidable (s.HasChild i) :=
  inferInstanceAs (Decidable (∃ j < s.count, _))

/-- One step of process `i`; `none` if it has to wait. A read from a descriptor that is not open, a
write without a reader and a division by 0 are no steps. -/
def step (s : State) (i : Nat) : Option State :=
  if i < s.count then
    match (s.proc i).pc with
    | .fork p0 ret => some (s.fork i p0 ret)
    | .readCur p0 ret =>
      match s.read i p0 with
      | none => none
      | some none => some (s.goto i (back ret))
      | some (some (cur, s)) => some (s.goto i (.print p0 cur))
    | .print p0 cur => some { s.goto i (.pipe p0 cur) with printed := s.printed ++ [cur] }
    | .pipe p0 cur => some (s.mkpipe i p0 cur)
    | .readTmp p0 cur p =>
      match s.read i p0 with
      | none => none
      | some none => some (s.goto i (.closeLeft p0 p))
      | some (some (tmp, s)) => some (s.goto i (.test p0 cur p tmp))
    | .test p0 cur p tmp =>
      if cur = 0 then none
      else if tmp.tmod cur ≠ 0 then (s.write i p tmp).map (fun s ↦ s.goto i (.readTmp p0 cur p))
      else some (s.goto i (.readTmp p0 cur p))
    | .closeLeft p0 p => some (s.close i p0 false (.closeWrite p))
    | .closeWrite p => some (s.close i p true (.fork p (some p)))
    | .closeP0 p0 ret => some (s.close i p0 false (.wait ret))
    | .wait ret =>
      match s.deadChild i with
      | some j => some ((s.goto j .reaped).goto i (back ret))
      | none => if s.HasChild i then none else some (s.goto i (back ret))
    | .closeRead p => some (s.close i p false .exit)
    | .exit =>
      some { s with
        proc := Function.update s.proc i { s.proc i with pc := .zombie, ofile := fun _ _ ↦ false } }
    | .zombie => none
    | .reaped => none
  else none

/-- A process that calls `readleft` with a pipe that holds `xs` and has no write end;
`utilities/primes.c:34–42`. -/
def start (xs : List Int) : State where
  count := 1
  proc := fun _ ↦ ⟨none, none, .fork 0 none, fun q w ↦ decide (q = 0 ∧ w = false)⟩
  npipes := 1
  pipe := fun q ↦ if q = 0 then xs else []
  printed := []

/-- All processes have exited. -/
def State.Done (s : State) : Prop :=
  ∀ i < s.count, (s.proc i).pc = .zombie ∨ (s.proc i).pc = .reaped

/-- A stage that has forked has read its pipe up to the end of file. -/
def State.ReadsAll (s : State) : Prop :=
  ∀ i < s.count, ∀ j < s.count, (s.proc j).parent = some i → ∀ q, (s.proc i).left = some q →
    s.pipe q = [] ∧ ¬ s.HasEnd q true

/-- The test of `utilities/primes.c:17`. -/
def divides (p x : Int) : Bool := x.tmod p = 0

/-- The elements that no element printed before them divides. -/
def undivided (xs : List Int) : List Int := kept (fun p x ↦ decide (p ∣ x)) [] xs

end Xv6.Primes
