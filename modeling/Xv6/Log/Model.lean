import Mathlib.Logic.Function.Basic
import Xv6.Base.Block
import Xv6.Base.Param
import Xv6.Lib.Run

/-!
# The redo log over the buffer cache

`kernel/log.c` run by any number of processes, with crashes. A step is one critical section of
`log.lock`, one use of a locked buffer, or one iteration of the loops of `commit` and of
recovery, each of which writes one block to the disk. Between any two steps other processes
run, the cache drops unused buffers (`bget`), or the machine crashes.

A buffer is its block's entry in the cache together with the holder of `b->lock` and the number
of `bpin`s. The last fields record history: which operation a process is in, which log writes
the transactions are made of, and which transactions reached the disk.
-/

namespace Xv6.Log

open Xv6.Lib

/-- `log.start` and `log.size`, as `initlog` takes them from the superblock. The log has at
least its header block. -/
structure Cfg where
  start : Nat
  size : Nat
  head : 0 < size

/-- What `mkfs` writes in the superblock; `mkfs/mkfs.c:25,100–101`. -/
def mkfsCfg : Cfg where
  start := 2
  size := LOGSIZE
  head := by decide

/-- The blocks `[logstart, logstart + nlog)`. -/
def Cfg.InLog (c : Cfg) (b : Nat) : Prop := c.start ≤ b ∧ b < c.start + c.size

instance (c : Cfg) (b : Nat) : Decidable (c.InLog b) := inferInstanceAs (Decidable (_ ∧ _))

/-- A block number outside the log area. -/
def Cfg.Home (c : Cfg) (b : Nat) : Prop := b < 2 ^ 32 ∧ ¬ c.InLog b

instance (c : Cfg) (b : Nat) : Decidable (c.Home b) := inferInstanceAs (Decidable (_ ∧ _))

/-- The stores of `write_head` into the header buffer; `kernel/log.c:106–111`. -/
def encodeHead (hb : Block) (lh : List Nat) : Block :=
  writeWords (writeLE hb 0 4 lh.length) 4 4 lh

/-- The loads of `read_head`. A negative `lh->n` makes its loop do nothing;
`kernel/log.c:90–95`. -/
def decodeHead (hb : Block) : List Nat :=
  let n := readLE hb 0 4
  readWords hb 4 4 (if n < 2 ^ 31 then n else 0)

/-- A header that was written reads back. -/
theorem decodeHead_encodeHead {lh : List Nat} (hb : Block) (hn : lh.length < 2 ^ 31)
    (h : ∀ b ∈ lh, b < 2 ^ 32) : decodeHead (encodeHead hb lh) = lh := by
  have hlen : readLE (encodeHead hb lh) 0 4 = lh.length := by
    rw [encodeHead, readLE_writeWords _ _ (by omega)]
    exact readLE_writeLE hb 0 (by omega)
  rw [decodeHead, hlen, if_pos hn]
  exact readWords_writeWords (w := 4) _ 4 h

/-- Where a process is with respect to the log. -/
inductive Pos where
  /-- Outside `begin_op`, `end_op` and the code between them. -/
  | idle
  /-- SLEEPING on `&log` in `begin_op`. -/
  | sleeping
  /-- Woken from that sleep, about to test again. -/
  | woken
  /-- Between `begin_op` and `end_op`. -/
  | inOp
  /-- In `write_log`, about to copy block `tail`. -/
  | writeLog (tail : Nat)
  /-- In `commit`, about to write the header. -/
  | writeHead
  /-- In `install_trans(0)`, about to copy block `tail`. -/
  | install (tail : Nat)
  /-- In `commit`, about to erase the transaction from the log. -/
  | clearHead
  /-- In `end_op`, about to clear `log.committing`. -/
  | endCommit
  deriving DecidableEq, Repr

/-- What the machine is doing. -/
inductive Mode where
  /-- In `recover_from_log`, before `read_head`. -/
  | readHead
  /-- In `install_trans(1)`, about to copy block `tail`. -/
  | recover (tail : Nat)
  /-- In `recover_from_log`, about to clear the log. -/
  | clear
  /-- Running processes. -/
  | up
  /-- Stopped in `panic`. -/
  | panicked (msg : String)
  deriving DecidableEq, Repr

/-- One `log_write`: the operation that made it, the block, and its contents at that time. -/
structure Update where
  op : Nat
  blockno : Nat
  data : Block

/-- A transaction that ended: its log writes, and whether its header reached the disk. -/
structure Txn where
  updates : List Update
  committed : Bool

/-- The disk, the buffer cache, `struct log`, the processes, and history. -/
structure State (P : Type) where
  disk : Disk
  mode : Mode
  cache : Nat → Option Block
  pins : Nat → Nat
  holder : Nat → Option P
  /-- Modified since the last `log_write` of the buffer. -/
  dirty : Nat → Bool
  lh : List Nat
  outstanding : Nat
  committing : Bool
  pos : P → Pos
  nextOp : Nat
  opOf : P → Nat
  cur : List Update
  past : List Txn

/-- What processes do, what the cache and the machine do. -/
inductive Act (P : Type) where
  | beginOp (p : P)
  | endOp (p : P)
  | bread (p : P) (b : Nat)
  | store (p : P) (b : Nat) (data : Block)
  | logWrite (p : P) (b : Nat)
  | brelse (p : P) (b : Nat)
  | commit (p : P)
  | kill (p : P)
  | evict (b : Nat)
  | crash
  | recover

variable {P : Type}

namespace State

/-- The contents `bread` returns: the cached ones, or those on the disk. -/
def contents (s : State P) (b : Nat) : Block := (s.cache b).getD (s.disk b)

section
variable [DecidableEq P]

/-- Move one process. -/
def goto (p : P) (pos : Pos) (s : State P) : State P :=
  { s with pos := Function.update s.pos p pos }

/-- `wakeup(&log)`. -/
def wakeup (s : State P) : State P :=
  { s with pos := fun q ↦ if s.pos q = .sleeping then .woken else s.pos q }

/-- The buffer of block `b` is in the cache with contents `data`. -/
def setCache (b : Nat) (data : Block) (s : State P) : State P :=
  { s with cache := Function.update s.cache b (some data) }

/-- `bwrite` of the buffer of block `b` with contents `data`. -/
def bwrite (b : Nat) (data : Block) (s : State P) : State P :=
  { setCache b data s with disk := Function.update s.disk b data }

/-- `bread`: the caller gets the locked buffer of block `b`. -/
def bread (p : P) (b : Nat) (s : State P) : State P :=
  { s with
    cache := Function.update s.cache b (some (s.contents b))
    holder := Function.update s.holder b (some p) }

/-- The holder of the buffer of block `b` changes `b->data`. -/
def store (b : Nat) (data : Block) (s : State P) : State P :=
  { s with
    cache := Function.update s.cache b (some data)
    dirty := Function.update s.dirty b true }

/-- `brelse`. -/
def brelse (b : Nat) (s : State P) : State P :=
  { s with holder := Function.update s.holder b none }

/-- `bget` uses the buffer of block `b` for another block. -/
def evict (b : Nat) (s : State P) : State P :=
  { s with cache := Function.update s.cache b none }

/-- `begin_op` lets an operation start. -/
def enterOp (p : P) (s : State P) : State P :=
  { s with
    outstanding := s.outstanding + 1
    pos := Function.update s.pos p .inOp
    opOf := Function.update s.opOf p s.nextOp
    nextOp := s.nextOp + 1 }

/-- One test of the loop of `begin_op`; `kernel/log.c:130–140`. -/
def beginOp (p : P) (s : State P) : State P :=
  if s.committing then goto p .sleeping s
  else if s.lh.length + (s.outstanding + 1) * MAXOPBLOCKS > LOGSIZE then goto p .sleeping s
  else enterOp p s

/-- The last operation ends; `commit` goes on only if `log.lh.n > 0`. -/
def startCommit (p : P) (s : State P) : State P :=
  { s with
    outstanding := s.outstanding - 1
    committing := true
    pos := Function.update s.pos p (if 0 < s.lh.length then .writeLog 0 else .endCommit) }

/-- An operation ends while others run. -/
def leaveOp (p : P) (s : State P) : State P :=
  goto p .idle (wakeup { s with outstanding := s.outstanding - 1 })

/-- The critical section of `end_op`, and the test at the start of `commit`;
`kernel/log.c:151–163,196`. -/
def endOp (p : P) (s : State P) : State P :=
  if s.committing then { s with mode := .panicked "log.committing" }
  else if s.outstanding - 1 = 0 then startCommit p s
  else leaveOp p s

/-- `log_write` notes the block, unless it is in the transaction already, and pins it;
`kernel/log.c:225–233`. -/
def record (p : P) (b : Nat) (s : State P) : State P :=
  let s := { s with
    dirty := Function.update s.dirty b false
    cur := s.cur ++ [⟨s.opOf p, b, s.contents b⟩] }
  if b ∈ s.lh then s
  else { s with lh := s.lh ++ [b], pins := Function.update s.pins b (s.pins b + 1) }

/-- `log_write` of the locked buffer of block `b`; `kernel/log.c:219–234`. -/
def logWrite (c : Cfg) (p : P) (b : Nat) (s : State P) : State P :=
  if s.lh.length ≥ LOGSIZE ∨ s.lh.length ≥ c.size - 1 then
    { s with mode := .panicked "too big a transaction" }
  else if s.outstanding < 1 then { s with mode := .panicked "log_write outside of trans" }
  else record p b s

/-- One iteration of `write_log`: the buffer of a logged block is copied to its log block;
`kernel/log.c:184–189`. -/
def writeLog (c : Cfg) (tail b : Nat) (s : State P) : State P :=
  bwrite (c.start + tail + 1) (s.contents b) (setCache b (s.contents b) s)

/-- The current transaction is over: its header reached the disk, or the machine crashed. -/
def endTxn (committed : Bool) (s : State P) : State P :=
  { s with cur := [], past := s.past ++ [⟨s.cur, committed⟩] }

/-- `write_head`. -/
def writeHead (c : Cfg) (s : State P) : State P :=
  bwrite c.start (encodeHead (s.contents c.start) s.lh) s

/-- One iteration of `install_trans`: a log block is copied to its home block;
`kernel/log.c:74–81`. -/
def installTrans (c : Cfg) (recovering : Bool) (tail b : Nat) (s : State P) : State P :=
  let data := s.contents (c.start + tail + 1)
  let s := bwrite b data (setCache (c.start + tail + 1) data s)
  if recovering then s else { s with pins := Function.update s.pins b (s.pins b - 1) }

/-- The next step of a process inside `commit`; `bread` waits for a locked buffer. -/
def commit (c : Cfg) (p : P) (s : State P) : Option (State P) :=
  match s.pos p with
  | .writeLog tail =>
    match s.lh[tail]? with
    | some b =>
      if s.holder (c.start + tail + 1) = none ∧ s.holder b = none then
        some (goto p (.writeLog (tail + 1)) (writeLog c tail b s))
      else none
    | none => some (goto p .writeHead s)
  | .writeHead =>
    -- the transaction is committed when this write reaches the disk
    if s.holder c.start = none then
      some (goto p (.install 0) (endTxn true (writeHead c s)))
    else none
  | .install tail =>
    match s.lh[tail]? with
    | some b =>
      if s.holder (c.start + tail + 1) = none ∧ s.holder b = none then
        some (goto p (.install (tail + 1)) (installTrans c false tail b s))
      else none
    | none => some (goto p .clearHead s)
  | .clearHead =>
    if s.holder c.start = none then some (goto p .endCommit (writeHead c { s with lh := [] }))
    else none
  | .endCommit => some (goto p .idle (wakeup { s with committing := false }))
  | _ => none

/-- The next step of `recover_from_log`. -/
def recover (c : Cfg) (s : State P) : Option (State P) :=
  match s.mode with
  | .readHead =>
    some { setCache c.start (s.contents c.start) s with
      lh := decodeHead (s.contents c.start)
      mode := .recover 0 }
  | .recover tail =>
    match s.lh[tail]? with
    | some b => some { installTrans c true tail b s with mode := .recover (tail + 1) }
    | none => some { s with mode := .clear }
  | .clear => some { writeHead c { s with lh := [] } with mode := .up }
  | _ => none

/-- Memory after a reset. -/
def reset (s : State P) : State P :=
  { s with
    mode := .readHead
    cache := fun _ ↦ none
    pins := fun _ ↦ 0
    holder := fun _ ↦ none
    dirty := fun _ ↦ false
    lh := []
    outstanding := 0
    committing := false
    pos := fun _ ↦ .idle }

/-- Only the disk survives a crash. -/
def crash (s : State P) : State P := reset (endTxn false s)

/-- The step function. Processes run when the machine is up. Callers log home blocks only,
inside an operation, and release a buffer they modified only after its `log_write`. -/
def step (c : Cfg) (s : State P) : Act P → Option (State P)
  | .crash => some (crash s)
  | .recover => recover c s
  | .evict b =>
    if s.pins b = 0 ∧ s.holder b = none then some (evict b s) else none
  | .beginOp p =>
    if s.mode = .up ∧ (s.pos p = .idle ∨ s.pos p = .woken) then some (beginOp p s) else none
  | .endOp p => if s.mode = .up ∧ s.pos p = .inOp then some (endOp p s) else none
  | .bread p b =>
    if s.mode = .up ∧ s.holder b = none then some (bread p b s) else none
  | .store p b data =>
    if s.mode = .up ∧ s.holder b = some p then some (store b data s) else none
  | .logWrite p b =>
    if s.mode = .up ∧ s.holder b = some p ∧ s.pos p = .inOp ∧ c.Home b then
      some (logWrite c p b s)
    else none
  | .brelse p b =>
    if s.mode = .up ∧ s.holder b = some p ∧ s.dirty b = false then some (brelse b s)
    else none
  | .commit p => if s.mode = .up then commit c p s else none
  | .kill p =>
    if s.mode = .up ∧ s.pos p = .sleeping then some (goto p .woken s) else none

/-- The machine before its first boot, with disk `d`. -/
def off (d : Disk) : State P where
  disk := d
  mode := .readHead
  cache := fun _ ↦ none
  pins := fun _ ↦ 0
  holder := fun _ ↦ none
  dirty := fun _ ↦ false
  lh := []
  outstanding := 0
  committing := false
  pos := fun _ ↦ .idle
  nextOp := 0
  opOf := fun _ ↦ 0
  cur := []
  past := []

end

end State

/-! ### What a step can do -/

/-- What a step of a process inside `commit` can do. -/
inductive CommitStep [DecidableEq P] (c : Cfg) (p : P) (s : State P) : State P → Prop where
  | copy {tail b : Nat} (hpos : s.pos p = .writeLog tail) (hb : s.lh[tail]? = some b)
      (hlog : s.holder (c.start + tail + 1) = none) (hhome : s.holder b = none) :
      CommitStep c p s (State.goto p (.writeLog (tail + 1)) (s.writeLog c tail b))
  | copied {tail : Nat} (hpos : s.pos p = .writeLog tail) (hb : s.lh[tail]? = none) :
      CommitStep c p s (s.goto p .writeHead)
  | head (hpos : s.pos p = .writeHead) (hhead : s.holder c.start = none) :
      CommitStep c p s (State.goto p (.install 0) (State.endTxn true (s.writeHead c)))
  | install {tail b : Nat} (hpos : s.pos p = .install tail) (hb : s.lh[tail]? = some b)
      (hlog : s.holder (c.start + tail + 1) = none) (hhome : s.holder b = none) :
      CommitStep c p s (State.goto p (.install (tail + 1)) (s.installTrans c false tail b))
  | installed {tail : Nat} (hpos : s.pos p = .install tail) (hb : s.lh[tail]? = none) :
      CommitStep c p s (s.goto p .clearHead)
  | clear (hpos : s.pos p = .clearHead) (hhead : s.holder c.start = none) :
      CommitStep c p s (State.goto p .endCommit (State.writeHead c { s with lh := [] }))
  | ended (hpos : s.pos p = .endCommit) :
      CommitStep c p s (State.goto p .idle (State.wakeup { s with committing := false }))

theorem commitStep_of_eq_some [DecidableEq P] {c : Cfg} {p : P} {s t : State P}
    (ht : s.commit c p = some t) :
    CommitStep c p s t := by
  unfold State.commit at ht
  split at ht
  · next tail hpos =>
    split at ht
    · next b hb =>
      obtain ⟨⟨hlog, hhome⟩, rfl⟩ :=
        Option.ite_none_right_eq_some.mp ht |>.imp_right Option.some.inj
      exact .copy hpos hb hlog hhome
    · next hb =>
      cases Option.some.inj ht
      exact .copied hpos hb
  · next hpos =>
    obtain ⟨hhead, rfl⟩ := Option.ite_none_right_eq_some.mp ht |>.imp_right Option.some.inj
    exact .head hpos hhead
  · next tail hpos =>
    split at ht
    · next b hb =>
      obtain ⟨⟨hlog, hhome⟩, rfl⟩ :=
        Option.ite_none_right_eq_some.mp ht |>.imp_right Option.some.inj
      exact .install hpos hb hlog hhome
    · next hb =>
      cases Option.some.inj ht
      exact .installed hpos hb
  · next hpos =>
    obtain ⟨hhead, rfl⟩ := Option.ite_none_right_eq_some.mp ht |>.imp_right Option.some.inj
    exact .clear hpos hhead
  · next hpos =>
    cases Option.some.inj ht
    exact .ended hpos
  · cases ht

/-- What a step of `recover_from_log` can do. -/
inductive RecoverStep (c : Cfg) (s : State P) : State P → Prop where
  | readHead (hmode : s.mode = .readHead) :
      RecoverStep c s { State.setCache c.start (s.contents c.start) s with
        lh := decodeHead (s.contents c.start)
        mode := .recover 0 }
  | install {tail b : Nat} (hmode : s.mode = .recover tail) (hb : s.lh[tail]? = some b) :
      RecoverStep c s { s.installTrans c true tail b with mode := .recover (tail + 1) }
  | installed {tail : Nat} (hmode : s.mode = .recover tail) (hb : s.lh[tail]? = none) :
      RecoverStep c s { s with mode := .clear }
  | clear (hmode : s.mode = .clear) :
      RecoverStep c s { State.writeHead c { s with lh := [] } with mode := .up }

theorem recoverStep_of_eq_some {c : Cfg} {s t : State P} (ht : s.recover c = some t) :
    RecoverStep c s t := by
  unfold State.recover at ht
  split at ht
  · next hmode =>
    cases Option.some.inj ht
    exact .readHead hmode
  · next tail hmode =>
    split at ht
    · next b hb =>
      cases Option.some.inj ht
      exact .install hmode hb
    · next hb =>
      cases Option.some.inj ht
      exact .installed hmode hb
  · next hmode =>
    cases Option.some.inj ht
    exact .clear hmode
  · cases ht

/-- What a step of the machine can do. -/
inductive Step [DecidableEq P] (c : Cfg) (s : State P) : Act P → State P → Prop where
  | crash : Step c s .crash s.crash
  | recover {t : State P} (h : RecoverStep c s t) : Step c s .recover t
  | evict {b : Nat} (hpins : s.pins b = 0) (hholder : s.holder b = none) :
      Step c s (.evict b) (s.evict b)
  | beginOp {p : P} (hmode : s.mode = .up) (hpos : s.pos p = .idle ∨ s.pos p = .woken) :
      Step c s (.beginOp p) (s.beginOp p)
  | endOp {p : P} (hmode : s.mode = .up) (hpos : s.pos p = .inOp) :
      Step c s (.endOp p) (s.endOp p)
  | bread {p : P} {b : Nat} (hmode : s.mode = .up) (hholder : s.holder b = none) :
      Step c s (.bread p b) (s.bread p b)
  | store {p : P} {b : Nat} {data : Block} (hmode : s.mode = .up)
      (hholder : s.holder b = some p) : Step c s (.store p b data) (s.store b data)
  | logWrite {p : P} {b : Nat} (hmode : s.mode = .up) (hholder : s.holder b = some p)
      (hpos : s.pos p = .inOp) (hhome : c.Home b) : Step c s (.logWrite p b) (s.logWrite c p b)
  | brelse {p : P} {b : Nat} (hmode : s.mode = .up) (hholder : s.holder b = some p)
      (hclean : s.dirty b = false) : Step c s (.brelse p b) (s.brelse b)
  | commit {p : P} {t : State P} (hmode : s.mode = .up) (h : CommitStep c p s t) :
      Step c s (.commit p) t
  | kill {p : P} (hmode : s.mode = .up) (hpos : s.pos p = .sleeping) :
      Step c s (.kill p) (s.goto p .woken)

theorem step_of_eq_some [DecidableEq P] {c : Cfg} {s t : State P} {a : Act P}
    (ht : s.step c a = some t) : Step c s a t := by
  cases a <;> simp only [State.step, Option.ite_none_right_eq_some, Option.some.injEq] at ht
  case crash => subst ht; exact .crash
  case recover => exact .recover (recoverStep_of_eq_some ht)
  case evict => obtain ⟨⟨hpins, hholder⟩, rfl⟩ := ht; exact .evict hpins hholder
  case beginOp => obtain ⟨⟨hmode, hpos⟩, rfl⟩ := ht; exact .beginOp hmode hpos
  case endOp => obtain ⟨⟨hmode, hpos⟩, rfl⟩ := ht; exact .endOp hmode hpos
  case bread => obtain ⟨⟨hmode, hholder⟩, rfl⟩ := ht; exact .bread hmode hholder
  case store => obtain ⟨⟨hmode, hholder⟩, rfl⟩ := ht; exact .store hmode hholder
  case logWrite =>
    obtain ⟨⟨hmode, hholder, hpos, hhome⟩, rfl⟩ := ht
    exact .logWrite hmode hholder hpos hhome
  case brelse => obtain ⟨⟨hmode, hholder, hclean⟩, rfl⟩ := ht; exact .brelse hmode hholder hclean
  case commit => exact .commit ht.1 (commitStep_of_eq_some ht.2)
  case kill => obtain ⟨⟨hmode, hpos⟩, rfl⟩ := ht; exact .kill hmode hpos

end Xv6.Log
