import Xv6.Lib.Run
import Xv6.Lib.Window

/-!
# The console

The input buffer of `kernel/console.c` with the interrupt handler and any number of calls of
`consoleread`. A call runs from the point where it takes `cons.lock` to the point where it sleeps or
returns without interruption; a keystroke, another call and `kill` can come in between. What is
echoed to the screen is left out.
-/

namespace Xv6.Console

open Xv6.Lib

/-- Size of the input buffer; `kernel/console.c:48`. -/
def INPUT_BUF_SIZE : Nat := 128

instance : NeZero INPUT_BUF_SIZE := ⟨by decide⟩

/-- `C(x)`, the character of control-x; `kernel/console.c:26`. -/
def C (x : Char) : UInt8 := x.toUInt8 - '@'.toUInt8

/-- The delete key. -/
def delete : UInt8 := 0x7f

def newline : UInt8 := 10

def carriageReturn : UInt8 := 13

/-- `cons` without its lock; `kernel/console.c:44–53`. The counters run free. -/
structure Cons where
  buf : Fin INPUT_BUF_SIZE → UInt8
  r : UInt32
  w : UInt32
  e : UInt32

/-- `cons.buf[i % INPUT_BUF_SIZE]`. -/
def Cons.at (s : Cons) (i : UInt32) : UInt8 := s.buf (cell INPUT_BUF_SIZE i)

/-! ### The interrupt handler -/

/-- The loop for control-U, `kernel/console.c:143–147`. It lowers `cons.e` to `cons.w` at most. -/
def killLine : Nat → Cons → Cons
  | 0, s => s
  | fuel + 1, s =>
    if s.e ≠ s.w ∧ s.at (s.e - 1) ≠ newline then killLine fuel { s with e := s.e - 1 } else s

/-- `cons.buf[cons.e++ % INPUT_BUF_SIZE] = c`. -/
def Cons.store (s : Cons) (c : UInt8) : Cons :=
  { s with buf := Function.update s.buf (cell INPUT_BUF_SIZE s.e) c, e := s.e + 1 }

/-- `consoleintr`, and whether it calls `wakeup(&cons.r)`; `kernel/console.c:133–179`. -/
def consoleintr (c : UInt8) (s : Cons) : Cons × Bool :=
  if c = C 'P' then (s, false)
  else if c = C 'U' then (killLine (s.e - s.w).toNat s, false)
  else if c = C 'H' ∨ c = delete then (if s.e ≠ s.w then { s with e := s.e - 1 } else s, false)
  else if c ≠ 0 ∧ s.e - s.r < UInt32.ofNat INPUT_BUF_SIZE then
    let c := if c = carriageReturn then newline else c
    let s := s.store c
    if c = newline ∨ c = C 'D' ∨ s.e - s.r = UInt32.ofNat INPUT_BUF_SIZE then
      ({ s with w := s.e }, true)
    else (s, false)
  else (s, false)

/-! ### Readers -/

/-- A call of `consoleread`. `dst` says which bytes of the destination can be stored, and `out` has
those that were; `n` and `target` are the variables of the source, 0 for a negative size. -/
structure Call where
  n : Nat
  target : Nat
  dst : Nat → Bool
  out : List UInt8
  asleep : Bool
  killed : Bool
  ret : Option Int

/-- The end of `consoleread`; `kernel/console.c:123`. -/
def Call.finish (c : Call) : Call := { c with ret := some (c.target - c.n) }

/-- The outer loop of `consoleread`, as far as it gets; `kernel/console.c:88–121`. The first
argument is `n`. -/
def readLoop : Nat → Cons → Call → Cons × Call
  | 0, s, c => (s, c.finish)
  | n + 1, s, c =>
    if s.r = s.w then
      if c.killed then (s, { c with ret := some (-1) }) else (s, { c with asleep := true })
    else
      let ch := s.at s.r
      let s := { s with r := s.r + 1 }
      if ch = C 'D' then (if c.n < c.target then { s with r := s.r - 1 } else s, c.finish)
      else if c.dst c.out.length = false then (s, c.finish)
      else
        let c := { c with n := n, out := c.out ++ [ch] }
        if ch = newline then (s, c.finish) else readLoop n s c

/-! ### Runs -/

/-- The console and all calls of `consoleread` so far. -/
structure State where
  cons : Cons
  calls : Nat → Option Call

/-- A keystroke, the start of a call, its next part, or a `kill` of its process. -/
inductive Act where
  | intr (c : UInt8)
  | read (id : Nat) (n : Int) (dst : Nat → Bool)
  | go (id : Nat)
  | kill (id : Nat)

/-- `wakeup(&cons.r)`. -/
def wakeup (calls : Nat → Option Call) (id : Nat) : Option Call :=
  (calls id).map (fun c ↦ { c with asleep := false })

/-- A call that starts. -/
def Call.start (n : Int) (dst : Nat → Bool) : Call where
  n := n.toNat
  target := n.toNat
  dst := dst
  out := []
  asleep := false
  killed := false
  ret := none

/-- One step of the system. A call that sleeps or has returned does not go on. -/
def step (s : State) : Act → Option State
  | .intr c =>
    let (cons, woken) := consoleintr c s.cons
    some { cons := cons, calls := if woken then wakeup s.calls else s.calls }
  | .read id n dst =>
    match s.calls id with
    | none => some { s with calls := Function.update s.calls id (some (Call.start n dst)) }
    | some _ => none
  | .go id =>
    match s.calls id with
    | none => none
    | some c =>
      if c.ret = none ∧ c.asleep = false then
        let (cons, c) := readLoop c.n s.cons c
        some { cons := cons, calls := Function.update s.calls id (some c) }
      else none
  | .kill id =>
    match s.calls id with
    | none => none
    | some c =>
      some { s with
        calls := Function.update s.calls id (some { c with killed := true, asleep := false }) }

/-- Nothing was typed and nothing read; the buffer is zeroed. -/
def init : State where
  cons := ⟨fun _ ↦ 0, 0, 0, 0⟩
  calls := fun _ ↦ none

end Xv6.Console
