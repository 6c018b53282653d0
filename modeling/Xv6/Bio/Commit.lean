import Mathlib.Data.Finset.Card
import Xv6.Bio.Lru
import Xv6.Log.Model

/-!
# `commit` and its buffers

The buffer cache of `kernel/bio.c` with the part of `kernel/log.c` that uses its buffers:
`log_write` pins them, and `commit` reads log blocks, home blocks and the header, and takes the pins
back. A step is one of the cache, one critical section of `log.lock`, or the next step of the
process that is in `commit`; the others may use buffers at any time, inside a transaction or not.
-/

namespace Xv6.Bio

open Xv6.Lib

/-- The device of the file system and its log; `kernel/param.h:8`. -/
def ROOTDEV : Nat := 1

/-- The variables for buffers in `kernel/log.c`: `log` stands for `to`, `lbuf` and `buf`, `home` for
`from` and `dbuf`. -/
inductive Var where
  | log
  | home
  deriving DecidableEq, Repr

/-- What `commit` does with buffers, and the assignment `log.lh.n = 0`. -/
inductive Cmd where
  | bread (x : Var) (blockno : Nat)
  | brelse (x : Var)
  | bunpin (x : Var)
  | clear
  deriving DecidableEq, Repr

/-- The loop of `write_log` from `tail` on; `kernel/log.c:183–190`. -/
def writeLog (start : Nat) : Nat → List Nat → List Cmd
  | _, [] => []
  | tail, b :: lh =>
    .bread .log (start + tail + 1) :: .bread .home b :: .brelse .home :: .brelse .log ::
      writeLog start (tail + 1) lh

/-- `write_head`; `kernel/log.c:103–114`. -/
def writeHead (start : Nat) : List Cmd := [.bread .log start, .brelse .log]

/-- The loop of `install_trans(0)` from `tail` on; `kernel/log.c:73–82`. -/
def installTrans (start : Nat) : Nat → List Nat → List Cmd
  | _, [] => []
  | tail, b :: lh =>
    .bread .log (start + tail + 1) :: .bread .home b :: .bunpin .home :: .brelse .log ::
      .brelse .home :: installTrans start (tail + 1) lh

/-- `commit`; `kernel/log.c:193–203`. -/
def commit (start : Nat) (lh : List Nat) : List Cmd :=
  if 0 < lh.length then
    writeLog start 0 lh ++
      (writeHead start ++ (installTrans start 0 lh ++ .clear :: writeHead start))
  else []

/-- The process in `commit`, its variables, and what it has yet to do. -/
structure Committer (P : Type) where
  proc : P
  var : Var → Option Bufno
  todo : List Cmd

/-- The cache and `struct log`, with the processes between `begin_op` and `end_op`. -/
structure Sys (P : Type) where
  cache : Cache Nat P
  lh : List Nat
  outstanding : Nat
  committing : Bool
  ops : Finset P
  committer : Option (Committer P)

/-- What processes do. -/
inductive Call (P : Type) where
  | beginOp (p : P)
  | endOp (p : P)
  | cache (a : Act P)
  | logWrite (p : P) (b : Bufno)
  /-- The process in `commit` goes on. -/
  | commit

/-- The process that does a step of the cache; `bpin` and `bunpin` are steps of the log. -/
def Act.proc {P : Type} : Act P → Option P
  | .bget p _ _ | .acquiresleep p | .fill p _ | .releasesleep p _ | .brelse p => some p
  | .bpin _ | .bunpin _ => none

variable {P : Type} [DecidableEq P]

/-- The next step of the process in `commit` on the cache: it finishes a call of `bread` or `brelse`
that it is in, or starts the next one. -/
def Committer.step (r : Committer P) (c : Cache Nat P) : Option (Committer P × Cache Nat P) :=
  match c.pc r.proc with
  | .releasing _ => do
    let c ← c.step (.brelse r.proc)
    return (r, c)
  | .acquiring b =>
    match r.todo with
    | .bread x _ :: rest => do
      let c ← c.step (.acquiresleep r.proc)
      let c ← c.step (.fill r.proc b)
      return ({ r with var := Function.update r.var x (some b), todo := rest }, c)
    | _ => none
  | .out =>
    match r.todo with
    | .bread _ blockno :: _ => do
      let c ← c.step (.bget r.proc ROOTDEV blockno)
      return (r, c)
    | .brelse x :: rest => do
      let b ← r.var x
      let c ← c.step (.releasesleep r.proc b)
      return ({ r with var := Function.update r.var x none, todo := rest }, c)
    | .bunpin x :: rest => do
      let b ← r.var x
      let c ← c.step (.bunpin b)
      return ({ r with todo := rest }, c)
    | _ => none

namespace Sys

/-- Is the process in `commit`? -/
def Commits (s : Sys P) (p : P) : Prop := ∃ r, s.committer = some r ∧ r.proc = p

instance (s : Sys P) (p : P) : Decidable (s.Commits p) :=
  match h : s.committer with
  | none => isFalse (by simp [Commits, h])
  | some r => decidable_of_iff (r.proc = p) (by simp [Commits, h])

/-- One test of the loop of `begin_op`; `kernel/log.c:130–140`. A process that has to sleep tests
again later. -/
def beginOp (s : Sys P) (p : P) : Sys P :=
  if s.committing then s
  else if s.lh.length + (s.outstanding + 1) * MAXOPBLOCKS > LOGSIZE then s
  else { s with outstanding := s.outstanding + 1, ops := insert p s.ops }

/-- `end_op` up to the call of `commit`; `kernel/log.c:151–163`. -/
def endOp (cfg : Log.Cfg) (s : Sys P) (p : P) : Sys P :=
  let s := { s with outstanding := s.outstanding - 1, ops := s.ops.erase p }
  if s.committing then { s with cache := { s.cache with panic := some "log.committing" } }
  else if s.outstanding = 0 then
    { s with
      committing := true
      committer := some { proc := p, var := fun _ ↦ none, todo := Bio.commit cfg.start s.lh } }
  else s

/-- `log_write`; `kernel/log.c:219–234`. -/
def logWrite (cfg : Log.Cfg) (s : Sys P) (b : Bufno) : Option (Sys P) :=
  if s.lh.length ≥ LOGSIZE ∨ s.lh.length ≥ cfg.size - 1 then
    some { s with cache := { s.cache with panic := some "too big a transaction" } }
  else if s.outstanding < 1 then
    some { s with cache := { s.cache with panic := some "log_write outside of trans" } }
  else if (s.cache.buf b).blockno ∈ s.lh then some s
  else do
    let c ← s.cache.step (.bpin b)
    return { s with cache := c, lh := s.lh ++ [(s.cache.buf b).blockno] }

/-- The process in `commit` goes on; at its end `end_op` clears `log.committing`. -/
def commitStep (s : Sys P) : Option (Sys P) :=
  match s.committer with
  | none => none
  | some r =>
    match s.cache.pc r.proc, r.todo with
    | .out, [] => some { s with committing := false, committer := none }
    | .out, .clear :: rest => some { s with lh := [], committer := some { r with todo := rest } }
    | _, _ => do
      let (r, c) ← r.step s.cache
      return { s with cache := c, committer := some r }

/-- The step function. A process calls the functions of the log while it is in none of the cache,
and logs buffers that it has locked, of blocks outside the log. -/
def step (cfg : Log.Cfg) (s : Sys P) (a : Call P) : Option (Sys P) :=
  if s.cache.panic ≠ none then none
  else match a with
  | .beginOp p =>
    if s.cache.pc p = .out ∧ p ∉ s.ops ∧ ¬ s.Commits p then some (s.beginOp p) else none
  | .endOp p => if s.cache.pc p = .out ∧ p ∈ s.ops then some (s.endOp cfg p) else none
  | .cache a =>
    match a.proc with
    | none => none
    | some p =>
      if s.Commits p then none
      else do
        let c ← s.cache.step a
        return { s with cache := c }
  | .logWrite p b =>
    if s.cache.pc p = .out ∧ p ∈ s.ops ∧ s.cache.lock b = some p ∧ (s.cache.buf b).dev = ROOTDEV ∧
        ¬ cfg.InLog (s.cache.buf b).blockno then
      s.logWrite cfg b
    else none
  | .commit => s.commitStep

/-- After `binit`, with an empty log. -/
def init : Sys P where
  cache := Cache.binit
  lh := []
  outstanding := 0
  committing := false
  ops := ∅
  committer := none

end Sys

end Xv6.Bio
