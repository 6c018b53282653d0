import Xv6.Base.Param
import Xv6.Fs.Itrunc
import Xv6.Lib.Run

/-!
# The table of in-memory inodes

`kernel/fs.c:198–362` run by any number of processes. A step is one critical section of
`itable.lock`, or one section of code between two operations on sleep locks: the inode's own, and
that of the buffer with the on-disk inode. So other processes run between the parts of `iput` and
of `ialloc`. The on-disk inodes are those that `bread` returns.

The last fields record who uses a slot: the references that each process has, and whether the
holder of `ip->lock` changed fields since the last `iupdate`.
-/

namespace Xv6.Itable

open Xv6.Lib Xv6.Fs

/-- A slot of the table. -/
abbrev Slotno := Fin NINODE

/-- `struct inode`; `kernel/file.h:17–31`. -/
structure Slot (P : Type) where
  dev : Nat
  inum : Nat
  ref : Nat
  lock : Option P
  valid : Bool
  ip : Dinode

/-- Where a process is in the inode code. -/
inductive Pc where
  /-- Not inside a call. -/
  | out
  /-- In `ilock`, at `acquiresleep`. -/
  | ilock (i : Slotno)
  /-- In `ilock`, at the test of `ip->valid`. -/
  | ilocked (i : Slotno)
  /-- In `iput`, at `itrunc`. -/
  | itrunc (i : Slotno)
  /-- In `iput`, at `ip->type = 0` and `iupdate`. -/
  | iupdate (i : Slotno)
  /-- In `iput`, at `ip->valid = 0` and `releasesleep`. -/
  | clearValid (i : Slotno)
  /-- In `iput`, at the second `acquire` of `itable.lock`. -/
  | drop (i : Slotno)
  /-- In the loop of `ialloc`. -/
  | ialloc (dev type inum : Nat)
  /-- In `ialloc`, at `iget`. -/
  | iget (dev inum : Nat)
  deriving DecidableEq, Repr

/-- The on-disk inodes, the table and the processes. -/
structure State (P : Type) where
  dinode : Nat → Nat → Dinode
  slot : Slotno → Slot P
  pc : P → Pc
  panic : Option String
  own : P → Slotno → Nat
  dirty : Slotno → Bool

/-- What processes do. -/
inductive Act (P : Type) where
  | iget (p : P) (dev inum : Nat)
  | idup (p : P) (i : Slotno)
  /-- A reference changes hands, with an open file or a current directory. -/
  | give (p q : P) (i : Slotno)
  | ilock (p : P) (i : Slotno)
  /-- The holder of `ip->lock` changes fields. -/
  | modify (p : P) (i : Slotno) (ip : Dinode)
  | iupdate (p : P) (i : Slotno)
  | iunlock (p : P) (i : Slotno)
  | iput (p : P) (i : Slotno)
  | ialloc (p : P) (dev type : Nat)
  /-- The next step of the call that the process is in. -/
  | next (p : P)

namespace State
variable {P : Type} [DecidableEq P]

def setSlot (i : Slotno) (slot : Slot P) (s : State P) : State P :=
  { s with slot := Function.update s.slot i slot }

def goto (p : P) (pc : Pc) (s : State P) : State P := { s with pc := Function.update s.pc p pc }

/-- Set the number of references that a process has. -/
def setOwn (p : P) (i : Slotno) (n : Nat) (s : State P) : State P :=
  { s with own := Function.update s.own p (Function.update (s.own p) i n) }

def setDirty (i : Slotno) (b : Bool) (s : State P) : State P :=
  { s with dirty := Function.update s.dirty i b }

/-- Write an on-disk inode. -/
def setDinode (dev inum : Nat) (ip : Dinode) (s : State P) : State P :=
  { s with dinode := Function.update s.dinode dev (Function.update (s.dinode dev) inum ip) }

/-- The on-disk inode of a slot. -/
def disk (s : State P) (i : Slotno) : Dinode := s.dinode (s.slot i).dev (s.slot i).inum

def fail (msg : String) (s : State P) : State P := { s with panic := some msg }

/-- The slot of an inode that is in the table; `kernel/fs.c:255`. -/
def find (s : State P) (dev inum : Nat) : Option Slotno :=
  (List.finRange NINODE).find? (fun i ↦
    0 < (s.slot i).ref ∧ (s.slot i).dev = dev ∧ (s.slot i).inum = inum)

/-- The first empty slot; `kernel/fs.c:261`. -/
def empty (s : State P) : Option Slotno := (List.finRange NINODE).find? (fun i ↦ (s.slot i).ref = 0)

/-- One more reference, of process `p`. -/
def addRef (p : P) (i : Slotno) (s : State P) : State P :=
  (s.setSlot i { s.slot i with ref := (s.slot i).ref + 1 }).setOwn p i (s.own p i + 1)

/-- `iget`; `kernel/fs.c:246–278`. -/
def iget (p : P) (dev inum : Nat) (s : State P) : State P :=
  match s.find dev inum with
  | some i => s.addRef p i
  | none =>
    match s.empty with
    | some i =>
      (s.setSlot i { s.slot i with dev := dev, inum := inum, ref := 1, valid := false }).setOwn p i
        (s.own p i + 1)
    | none => s.fail "iget: no inodes"

/-- The last step of `iput`. -/
def dropRef (p : P) (i : Slotno) (s : State P) : State P :=
  (s.setSlot i { s.slot i with ref := (s.slot i).ref - 1 }).setOwn p i (s.own p i - 1)

/-- The critical section of `iput`, with `acquiresleep` inside; to sleep there, with a spin lock
held, is a panic of `sched`. `kernel/fs.c:337–352`. -/
def iput (p : P) (i : Slotno) (s : State P) : State P :=
  let ip := s.slot i
  if ip.ref = 1 ∧ ip.valid = true ∧ ip.ip.nlink = 0 then
    if ip.lock = none then (s.setSlot i { ip with lock := some p }).goto p (.itrunc i)
    else s.fail "sched locks"
  else s.dropRef p i

/-- Write the fields of a slot to the disk. -/
def iupdate (i : Slotno) (s : State P) : State P :=
  (s.setDinode (s.slot i).dev (s.slot i).inum (s.slot i).ip).setDirty i false

/-- `ilock` after `acquiresleep`; `kernel/fs.c:303–315`. -/
def readInode (p : P) (i : Slotno) (s : State P) : State P :=
  if (s.slot i).valid then s.goto p .out
  else
    let s' := (s.setSlot i { s.slot i with ip := s.disk i, valid := true }).goto p .out
    if (s.disk i).type = 0 then s'.fail "ilock: no type" else s'

/-- The next step of a call, on a device with `ninodes` inodes. -/
def next (ninodes : Nat) (p : P) (s : State P) : Option (State P) :=
  match s.pc p with
  | .out => none
  | .ilock i =>
    if (s.slot i).lock = none then
      some ((s.setSlot i { s.slot i with lock := some p }).goto p (.ilocked i))
    else none
  | .ilocked i => some (s.readInode p i)
  | .itrunc i =>
    let s := s.setSlot i { s.slot i with ip := (s.slot i).ip.truncated }
    some ((s.iupdate i).goto p (.iupdate i))
  | .iupdate i =>
    let s := s.setSlot i { s.slot i with ip := { (s.slot i).ip with type := 0 } }
    some ((s.iupdate i).goto p (.clearValid i))
  | .clearValid i =>
    some ((s.setSlot i { s.slot i with valid := false, lock := none }).goto p (.drop i))
  | .drop i => some ((s.dropRef p i).goto p .out)
  | .ialloc dev type inum =>
    if inum < ninodes then
      if (s.dinode dev inum).type = 0 then
        some ((s.setDinode dev inum (newDinode type)).goto p (.iget dev inum))
      else some (s.goto p (.ialloc dev type (inum + 1)))
    else some (s.goto p .out)
  | .iget dev inum => some ((s.iget p dev inum).goto p .out)

/-- A process can give up a reference: it has one, and one more if it holds the lock. -/
def Spare (s : State P) (p : P) (i : Slotno) : Prop :=
  0 < s.own p i ∧ ((s.slot i).lock = some p → 1 < s.own p i)

instance (s : State P) (p : P) (i : Slotno) : Decidable (s.Spare p i) :=
  inferInstanceAs (Decidable (_ ∧ _))

/-- The step function. A process uses inodes to which it has a reference, and keeps a reference as
long as it holds `ip->lock`; fields are changed by the holder, who calls `iupdate` before
`iunlock`; only `iput` frees an inode. -/
def step (ninodes : Nat) (s : State P) : Act P → Option (State P)
  | .iget p dev inum =>
    if s.panic = none ∧ s.pc p = .out then some (s.iget p dev inum) else none
  | .idup p i =>
    if s.panic = none ∧ s.pc p = .out ∧ 0 < s.own p i then some (s.addRef p i) else none
  | .give p q i =>
    if s.panic = none ∧ s.pc p = .out ∧ s.Spare p i then
      let s := s.setOwn p i (s.own p i - 1)
      some (s.setOwn q i (s.own q i + 1))
    else none
  | .ilock p i =>
    if s.panic = none ∧ s.pc p = .out ∧ 0 < s.own p i then
      if (s.slot i).ref < 1 then some (s.fail "ilock") else some (s.goto p (.ilock i))
    else none
  | .modify p i ip =>
    if s.panic = none ∧ s.pc p = .out ∧ (s.slot i).lock = some p ∧ ip.type ≠ 0 then
      some ((s.setSlot i { s.slot i with ip := ip }).setDirty i true)
    else none
  | .iupdate p i =>
    if s.panic = none ∧ s.pc p = .out ∧ (s.slot i).lock = some p then some (s.iupdate i) else none
  | .iunlock p i =>
    if s.panic = none ∧ s.pc p = .out ∧ (s.slot i).lock = some p ∧ s.dirty i = false then
      if (s.slot i).ref < 1 then some (s.fail "iunlock")
      else some (s.setSlot i { s.slot i with lock := none })
    else none
  | .iput p i =>
    if s.panic = none ∧ s.pc p = .out ∧ s.Spare p i then some (s.iput p i) else none
  | .ialloc p dev type =>
    if s.panic = none ∧ s.pc p = .out then some (s.goto p (.ialloc dev type 1)) else none
  | .next p => if s.panic = none then s.next ninodes p else none

/-- The table after `iinit`, with the inodes of the disks. -/
def iinit (dinode : Nat → Nat → Dinode) : State P where
  dinode := dinode
  slot := fun _ ↦ ⟨0, 0, 0, none, false, newDinode 0⟩
  pc := fun _ ↦ .out
  panic := none
  own := fun _ _ ↦ 0
  dirty := fun _ ↦ false

end State

end Xv6.Itable
