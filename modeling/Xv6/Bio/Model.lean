import Xv6.Base.Param
import Xv6.Lib.Ring
import Xv6.Lib.Run

/-!
# The buffer cache

`kernel/bio.c` used by any number of processes. A step is one critical section of `bcache.lock`,
or a step of the buffers' sleep locks outside of it, so that other processes run between the parts
of `bget` and of `brelse`. A buffer is named by its index in `bcache.buf`, and the list has
`bcache.head` as a further node. The contents of the blocks play no role here, and the type of the
reference counts, `uint` in the source, is left open. The last field records history: the `bpin`s
that were not undone.
-/

namespace Xv6.Bio

open Xv6.Lib

/-- A buffer. -/
abbrev Bufno := Fin NBUF

/-- A node of the list: a buffer, or `none` for `bcache.head`. -/
abbrev Node := Option Bufno

/-- The fields of `struct buf` that `bcache.lock` protects; `kernel/buf.h:1–10`. -/
structure Buf (R : Type) where
  valid : Bool
  dev : Nat
  blockno : Nat
  refcnt : R
  deriving DecidableEq, Repr

/-- Where a process is in the code of the cache. -/
inductive Pc where
  /-- Not between the parts of a call. -/
  | out
  /-- In `bget`, at `acquiresleep(&b->lock)`. -/
  | acquiring (b : Bufno)
  /-- In `brelse`, before its critical section. -/
  | releasing (b : Bufno)
  deriving DecidableEq, Repr

/-- `bcache`, the sleep locks and the processes. -/
structure Cache (R P : Type) where
  next : Node → Node
  prev : Node → Node
  buf : Bufno → Buf R
  lock : Bufno → Option P
  pc : P → Pc
  panic : Option String
  pins : Bufno → Nat

/-- What processes do. -/
inductive Act (P : Type) where
  /-- The critical section of `bget`. -/
  | bget (p : P) (dev blockno : Nat)
  /-- The end of `bget`. -/
  | acquiresleep (p : P)
  /-- `bread` reads the block. -/
  | fill (p : P) (b : Bufno)
  /-- `brelse` up to `releasesleep`. -/
  | releasesleep (p : P) (b : Bufno)
  /-- The critical section of `brelse`. -/
  | brelse (p : P)
  | bpin (b : Bufno)
  | bunpin (b : Bufno)

namespace Cache
variable {R P : Type} [Add R] [Sub R] [OfNat R 0] [OfNat R 1] [DecidableEq R] [DecidableEq P]

/-- Put the buffer after `bcache.head`; `kernel/bio.c:46–50,130–133`. -/
def pushFront (b : Bufno) (c : Cache R P) : Cache R P :=
  let next := Function.update c.next (some b) (c.next none)
  let prev := Function.update c.prev (some b) none
  let prev := Function.update prev (next none) (some b)
  let next := Function.update next none (some b)
  { c with next := next, prev := prev }

/-- Take the buffer out of the list; `kernel/bio.c:128–129`. -/
def unlink (b : Bufno) (c : Cache R P) : Cache R P :=
  let prev := Function.update c.prev (c.next (some b)) (c.prev (some b))
  let next := Function.update c.next (prev (some b)) (c.next (some b))
  { c with next := next, prev := prev }

/-- The loop of `bget` over the buffers from `bcache.head.next` on; `kernel/bio.c:66`. -/
def find (c : Cache R P) (dev blockno : Nat) : Option Bufno :=
  (follow c.next none (fun n ↦ n.any (fun b ↦ (c.buf b).dev = dev ∧ (c.buf b).blockno = blockno))
    (NBUF + 1) (c.next none)).join

/-- The loop of `bget` from `bcache.head.prev` on; `kernel/bio.c:77`. -/
def unused (c : Cache R P) : Option Bufno :=
  (follow c.prev none (fun n ↦ n.any (fun b ↦ (c.buf b).refcnt = 0)) (NBUF + 1)
    (c.prev none)).join

/-- Change the fields of one buffer. -/
def setBuf (b : Bufno) (buf : Buf R) (c : Cache R P) : Cache R P :=
  { c with buf := Function.update c.buf b buf }

/-- Move one process. -/
def goto (p : P) (pc : Pc) (c : Cache R P) : Cache R P := { c with pc := Function.update c.pc p pc }

/-- Set the holder of a buffer's sleep lock. -/
def setLock (b : Bufno) (holder : Option P) (c : Cache R P) : Cache R P :=
  { c with lock := Function.update c.lock b holder }

/-- Set the number of `bpin`s of a buffer. -/
def setPins (b : Bufno) (n : Nat) (c : Cache R P) : Cache R P :=
  { c with pins := Function.update c.pins b n }

/-- `b->refcnt++`. -/
def ref (b : Bufno) (c : Cache R P) : Cache R P :=
  c.setBuf b { c.buf b with refcnt := (c.buf b).refcnt + 1 }

/-- `b->refcnt--`. -/
def unref (b : Bufno) (c : Cache R P) : Cache R P :=
  c.setBuf b { c.buf b with refcnt := (c.buf b).refcnt - 1 }

/-- The critical section of `bget`; `kernel/bio.c:63–88`. -/
def bget (p : P) (dev blockno : Nat) (c : Cache R P) : Cache R P :=
  match c.find dev blockno with
  | some b => (c.ref b).goto p (.acquiring b)
  | none =>
    match c.unused with
    | some b => (c.setBuf b ⟨false, dev, blockno, 1⟩).goto p (.acquiring b)
    | none => { c with panic := some "bget: no buffers" }

/-- The buffer becomes the most recently used one; `kernel/bio.c:128–133`. -/
def touch (b : Bufno) (c : Cache R P) : Cache R P := (c.unlink b).pushFront b

/-- The critical section of `brelse`; `kernel/bio.c:124–136`. -/
def brelse (b : Bufno) (c : Cache R P) : Cache R P :=
  let c := c.unref b
  if (c.buf b).refcnt = 0 then c.touch b else c

/-- The step function. A process releases buffers that it holds, and undoes `bpin`s. -/
def step (c : Cache R P) : Act P → Option (Cache R P)
  | .bget p dev blockno =>
    if c.panic = none ∧ c.pc p = .out then some (c.bget p dev blockno) else none
  | .acquiresleep p =>
    match c.pc p with
    | .acquiring b =>
      if c.panic = none ∧ c.lock b = none then
        some ((c.goto p .out).setLock b (some p))
      else none
    | _ => none
  | .fill p b =>
    if c.panic = none ∧ c.pc p = .out ∧ c.lock b = some p then
      some (c.setBuf b { c.buf b with valid := true })
    else none
  | .releasesleep p b =>
    if c.panic = none ∧ c.pc p = .out ∧ c.lock b = some p then
      some ((c.goto p (.releasing b)).setLock b none)
    else none
  | .brelse p =>
    match c.pc p with
    | .releasing b => if c.panic = none then some ((c.brelse b).goto p .out) else none
    | _ => none
  | .bpin b =>
    if c.panic = none then some ((c.ref b).setPins b (c.pins b + 1)) else none
  | .bunpin b =>
    if c.panic = none ∧ 0 < c.pins b then some ((c.unref b).setPins b (c.pins b - 1)) else none

/-- `bcache` in the kernel's zeroed memory, with the list of `bcache.head` alone. -/
def blank : Cache R P where
  next := fun _ ↦ none
  prev := fun _ ↦ none
  buf := fun _ ↦ ⟨false, 0, 0, 0⟩
  lock := fun _ ↦ none
  pc := fun _ ↦ .out
  panic := none
  pins := fun _ ↦ 0

/-- `binit`; `kernel/bio.c:36–53`. -/
def binit : Cache R P := (List.finRange NBUF).foldl (fun c b ↦ c.pushFront b) blank

end Cache

end Xv6.Bio
