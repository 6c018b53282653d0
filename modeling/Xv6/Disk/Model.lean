import Mathlib.Logic.Function.Basic
import Xv6.Base.Block

/-!
# The virtio disk driver and its device

`kernel/virtio_disk.c:156–327` for any number of processes, with the interrupt handler and the
device. The device works at any time, also while the driver holds `vdisk_lock`. A step of the driver
is a stretch of code that the device cannot tell from a single access: up to the publication in
`avail->idx` it writes only what the device does not read yet, and each round of the interrupt
handler looks at `used->idx` once.
-/

namespace Xv6.Disk

/-- Descriptors, and entries of each ring; `kernel/virtio.h:50`. -/
def NUM : Nat := 8

/-- `kernel/virtio.h:59–60`. -/
def VRING_DESC_F_NEXT : Nat := 1

def VRING_DESC_F_WRITE : Nat := 2

/-- `kernel/virtio.h:86–87`. -/
def VIRTIO_BLK_T_IN : Nat := 0

def VIRTIO_BLK_T_OUT : Nat := 1

/-- What a descriptor may point to: nothing, a command header, the data of a buffer, or the status
byte of a request. -/
inductive Addr (B : Type) where
  | null
  | ops (i : Nat)
  | data (b : B)
  | status (i : Nat)
  deriving DecidableEq

/-- `struct virtq_desc`; `kernel/virtio.h:53–58`. -/
structure Desc (B : Type) where
  addr : Addr B
  len : Nat
  flags : Nat
  next : Nat

/-- `struct virtio_blk_req`; `kernel/virtio.h:92–96`. -/
structure BlkReq where
  type : Nat
  reserved : Nat
  sector : Nat

/-- `int idx[3]`. -/
structure Idx where
  i₀ : Nat
  i₁ : Nat
  i₂ : Nat

def Idx.list (idx : Idx) : List Nat := [idx.i₀, idx.i₁, idx.i₂]

/-- Where a process is in `virtio_disk_rw`. -/
inductive Pos (B : Type) where
  /-- Not in it. -/
  | idle
  /-- Before `alloc3_desc`. -/
  | start (b : B) (write : Bool)
  /-- In `sleep(&disk.free[0], …)`. -/
  | noDesc (b : B) (write : Bool)
  /-- With three descriptors. -/
  | chosen (b : B) (write : Bool) (idx : Idx)
  /-- Before `disk.avail->idx += 1`. -/
  | formatted (b : B) (idx : Idx)
  /-- Before the test of `b->disk`. -/
  | published (b : B) (idx : Idx)
  /-- In `sleep(b, …)`. -/
  | noReply (b : B) (idx : Idx)

/-- Who holds `vdisk_lock`. -/
inductive Holder (P : Type) where
  | free
  | proc (p : P)
  | intr
  deriving DecidableEq

/-- A panic, the use of a null pointer, or a loop that does not end. -/
inductive Fault where
  | panic (msg : String)
  | null
  | loop
  deriving DecidableEq

/-- `struct disk`, the memory it shares with the device, the buffers, the processes and the device.
The last five fields are history: how many requests were published, the number of the latest request
on each buffer, and the numbers of the requests in the order in which the device completed them and
in which `b->disk` was cleared. -/
structure State (P B : Type) where
  desc : Nat → Desc B
  availIdx : Nat
  availRing : Nat → Nat
  usedIdx : Nat
  usedRing : Nat → Nat
  free : Nat → Bool
  seen : Nat
  infoBuf : Nat → Option B
  infoStatus : Nat → Nat
  ops : Nat → BlkReq
  lock : Holder P
  disk : B → Bool
  /-- The sleep lock of each buffer. -/
  held : B → Option P
  pos : P → Pos B
  asleep : P → Bool
  fault : Option Fault
  /-- How many entries of the avail ring the device has read. -/
  fetched : Nat
  /-- What the device works on: the heads, with the numbers of the entries it read. -/
  taken : List (Nat × Nat)
  published : Nat
  serial : B → Nat
  completed : List Nat
  cleared : List Nat

/-- After `virtio_disk_init`; `kernel/virtio_disk.c:121–150`. -/
def State.boot {P B : Type} : State P B where
  desc := fun _ ↦ ⟨.null, 0, 0, 0⟩
  availIdx := 0
  availRing := fun _ ↦ 0
  usedIdx := 0
  usedRing := fun _ ↦ 0
  free := fun _ ↦ true
  seen := 0
  infoBuf := fun _ ↦ none
  infoStatus := fun _ ↦ 0
  ops := fun _ ↦ ⟨0, 0, 0⟩
  lock := .free
  disk := fun _ ↦ false
  held := fun _ ↦ none
  pos := fun _ ↦ .idle
  asleep := fun _ ↦ false
  fault := none
  fetched := 0
  taken := []
  published := 0
  serial := fun _ ↦ 0
  completed := []
  cleared := []

namespace State

variable {P B : Type}

/-! ### Descriptors -/

/-- `wakeup(&disk.free[0])`. -/
def wakeupFree (s : State P B) : State P B :=
  { s with asleep := fun p ↦ match s.pos p with
      | .noDesc _ _ => false
      | _ => s.asleep p }

/-- `wakeup(b)`. -/
def wakeupBuf [DecidableEq B] (b : B) (s : State P B) : State P B :=
  { s with asleep := fun p ↦ match s.pos p with
      | .noReply b' _ => if b' = b then false else s.asleep p
      | _ => s.asleep p }

/-- `alloc_desc`; `kernel/virtio_disk.c:156–166`. -/
def allocDesc (s : State P B) : Option Nat × State P B :=
  match (List.range NUM).find? s.free with
  | some i => (some i, { s with free := Function.update s.free i false })
  | none => (none, s)

/-- `free_desc`; `kernel/virtio_disk.c:169–182`. -/
def freeDesc (i : Nat) (s : State P B) : Except Fault (State P B) :=
  if NUM ≤ i then .error (.panic "free_desc 1")
  else if s.free i then .error (.panic "free_desc 2")
  else .ok (wakeupFree { s with
    desc := Function.update s.desc i ⟨.null, 0, 0, 0⟩
    free := Function.update s.free i true })

/-- `free_chain`; `kernel/virtio_disk.c:185–198`. A chain that runs into itself frees a descriptor
twice, so no chain is longer than `NUM` rounds. -/
def freeChain : Nat → Nat → State P B → Except Fault (State P B)
  | 0, _, _ => .error .loop
  | rounds + 1, i, s => do
    let flag := (s.desc i).flags
    let nxt := (s.desc i).next
    let s ← freeDesc i s
    if flag &&& VRING_DESC_F_NEXT ≠ 0 then freeChain rounds nxt s else return s

/-- `alloc3_desc`; `kernel/virtio_disk.c:201–213`. -/
def alloc3Desc (s : State P B) : Except Fault (Option Idx × State P B) :=
  match s.allocDesc with
  | (none, s) => .ok (none, s)
  | (some i₀, s) =>
    match s.allocDesc with
    | (none, s) => do
      let s ← freeDesc i₀ s
      return (none, s)
    | (some i₁, s) =>
      match s.allocDesc with
      | (none, s) => do
        let s ← freeDesc i₀ s
        let s ← freeDesc i₁ s
        return (none, s)
      | (some i₂, s) => .ok (some ⟨i₀, i₁, i₂⟩, s)

/-! ### `virtio_disk_rw` -/

variable [DecidableEq P] [DecidableEq B]

def goto (p : P) (pos : Pos B) (s : State P B) : State P B :=
  { s with pos := Function.update s.pos p pos }

/-- `sleep`: give up the lock, and wait in this position. -/
def sleep (p : P) (pos : Pos B) (s : State P B) : State P B :=
  { s.goto p pos with lock := .free, asleep := Function.update s.asleep p true }

/-- The computation of a step, or the fault it ends in. -/
def settle (s : State P B) : Except Fault (State P B) → State P B
  | .ok t => t
  | .error e => { s with fault := some e }

/-- One round of the loop around `alloc3_desc`; `kernel/virtio_disk.c:228–233`. -/
def alloc (p : P) (b : B) (write : Bool) (s : State P B) : State P B :=
  s.settle do
    let (idx, s) ← s.alloc3Desc
    match idx with
    | some idx => return s.goto p (.chosen b write idx)
    | none => return s.sleep p (.noDesc b write)

/-- Format the three descriptors and fill in the entry of the avail ring;
`kernel/virtio_disk.c:238–272`. -/
def format (blockno : B → Nat) (p : P) (b : B) (write : Bool) (idx : Idx) (s : State P B) :
    State P B :=
  { s.goto p (.formatted b idx) with
    ops := Function.update s.ops idx.i₀
      ⟨if write then VIRTIO_BLK_T_OUT else VIRTIO_BLK_T_IN, 0, blockno b * (BSIZE / 512) % 2 ^ 32⟩
    desc :=
      Function.update
        (Function.update
          (Function.update s.desc idx.i₀ ⟨.ops idx.i₀, 16, VRING_DESC_F_NEXT, idx.i₁⟩)
          idx.i₁ ⟨.data b, BSIZE,
            (if write then 0 else VRING_DESC_F_WRITE) ||| VRING_DESC_F_NEXT, idx.i₂⟩)
        idx.i₂ ⟨.status idx.i₀, 1, VRING_DESC_F_WRITE, 0⟩
    infoStatus := Function.update s.infoStatus idx.i₀ 0xff
    disk := Function.update s.disk b true
    infoBuf := Function.update s.infoBuf idx.i₀ (some b)
    availRing := Function.update s.availRing (s.availIdx % NUM) idx.i₀
    serial := Function.update s.serial b s.published }

/-- `disk.avail->idx += 1`; `kernel/virtio_disk.c:277`. -/
def publish (p : P) (b : B) (idx : Idx) (s : State P B) : State P B :=
  { s.goto p (.published b idx) with
    availIdx := (s.availIdx + 1) % 2 ^ 16
    published := s.published + 1 }

/-- The test of `b->disk`, and the end of `virtio_disk_rw`; `kernel/virtio_disk.c:284–291`. -/
def test (p : P) (b : B) (idx : Idx) (s : State P B) : State P B :=
  if s.disk b then s.sleep p (.noReply b idx)
  else s.settle do
    let s ← freeChain (NUM + 1) idx.i₀ { s with infoBuf := Function.update s.infoBuf idx.i₀ none }
    return { s.goto p .idle with lock := .free }

/-! ### The device -/

/-- The address in the last descriptor of a chain. -/
def lastAddr (desc : Nat → Desc B) : Nat → Nat → Addr B
  | 0, i => (desc i).addr
  | rounds + 1, i =>
    if (desc i).flags &&& VRING_DESC_F_NEXT ≠ 0 then lastAddr desc rounds (desc i).next
    else (desc i).addr

/-- Read the next entry of the avail ring, if there is one. -/
def fetch (s : State P B) : Option (State P B) :=
  if s.fetched % 2 ^ 16 = s.availIdx then none
  else some { s with
    fetched := s.fetched + 1
    taken := (s.availRing (s.fetched % 2 ^ 16 % NUM), s.fetched) :: s.taken }

/-- Complete a request: write 0 where its last descriptor says, and append its head to the used
ring. -/
def complete (r : Nat × Nat) (s : State P B) : State P B :=
  { s with
    infoStatus := match lastAddr s.desc NUM r.1 with
      | .status i => Function.update s.infoStatus i 0
      | _ => s.infoStatus
    usedRing := Function.update s.usedRing (s.usedIdx % NUM) r.1
    usedIdx := (s.usedIdx + 1) % 2 ^ 16
    taken := s.taken.erase r
    completed := s.completed ++ [r.2] }

/-! ### `virtio_disk_intr` -/

/-- One round of the interrupt handler; `kernel/virtio_disk.c:312–326`. -/
def intr (s : State P B) : State P B :=
  if s.seen = s.usedIdx then { s with lock := .free }
  else
    let id := s.usedRing (s.seen % NUM)
    if s.infoStatus id ≠ 0 then { s with fault := some (.panic "virtio_disk_intr status") }
    else
      match s.infoBuf id with
      | none => { s with fault := some .null }
      | some b =>
        { wakeupBuf b s with
          disk := Function.update s.disk b false
          seen := (s.seen + 1) % 2 ^ 16
          cleared := s.cleared ++ [s.serial b] }

end State

/-- The steps: the sleep locks of the buffers, the stretches of `virtio_disk_rw` between which other
code may run, a wakeup from elsewhere (`kill`), the device, and the interrupt handler. -/
inductive Act (P B : Type) where
  | lockBuf (p : P) (b : B)
  | unlockBuf (p : P) (b : B)
  | rw (p : P) (b : B) (write : Bool)
  | cont (p : P)
  | wake (p : P)
  | fetch
  | complete (r : Nat × Nat)
  | intrEnter
  | intrRound

variable {P B : Type} [DecidableEq P] [DecidableEq B]

/-- A process goes on from where it is. It wakes up with the lock. -/
def State.cont (blockno : B → Nat) (p : P) (s : State P B) : Option (State P B) :=
  match s.pos p with
  | .idle => none
  | .start b write => some (s.alloc p b write)
  | .noDesc b write =>
    if s.asleep p = false ∧ s.lock = .free then
      some { s.goto p (.start b write) with lock := .proc p }
    else none
  | .chosen b write idx => some (s.format blockno p b write idx)
  | .formatted b idx => some (s.publish p b idx)
  | .published b idx => some (s.test p b idx)
  | .noReply b idx =>
    if s.asleep p = false ∧ s.lock = .free then
      some { s.goto p (.published b idx) with lock := .proc p }
    else none

/-- The step function. A caller of `virtio_disk_rw` holds the sleep lock of the buffer. -/
def State.step (blockno : B → Nat) (s : State P B) (a : Act P B) : Option (State P B) :=
  if s.fault ≠ none then none
  else match a with
    | .lockBuf p b =>
      if s.held b = none then some { s with held := Function.update s.held b (some p) } else none
    | .unlockBuf p b =>
      match s.pos p with
      | .idle =>
        if s.held b = some p then some { s with held := Function.update s.held b none } else none
      | _ => none
    | .rw p b write =>
      match s.pos p with
      | .idle =>
        if s.held b = some p ∧ s.lock = .free then
          some { s.goto p (.start b write) with lock := .proc p }
        else none
      | _ => none
    | .cont p => s.cont blockno p
    | .wake p => some { s with asleep := Function.update s.asleep p false }
    | .fetch => s.fetch
    | .complete r => if r ∈ s.taken then some (s.complete r) else none
    | .intrEnter => if s.lock = .free then some { s with lock := .intr } else none
    | .intrRound => if s.lock = .intr then some s.intr else none

end Xv6.Disk
