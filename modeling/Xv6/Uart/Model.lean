import Mathlib.Algebra.GroupWithZero.Nat
import Mathlib.Logic.Function.Basic
import Xv6.Lib.Run

/-!
# The UART's transmit side

The output buffer of `kernel/uart.c` with any number of processes in `uartputc`, interrupt
handlers in `uartintr`, and calls of `uartputc_sync`, which go around the buffer. A step is what a
thread does between two looks at a register, or at `uart_tx_lock`; the device sends bytes at any
time. What `uartintr` reads goes to the console and is left out here.
-/

namespace Xv6.Uart

open Xv6.Lib

/-- `kernel/uart.c:44`. -/
def UART_TX_BUF_SIZE : Nat := 32

instance : NeZero UART_TX_BUF_SIZE := ⟨by decide⟩

/-- A process, or the interrupt handler of a CPU. -/
inductive Thread (P H : Type) where
  | proc (p : P)
  | hart (h : H)
  deriving DecidableEq

/-- Where a thread is. -/
inductive Pc where
  /-- Outside of this file. -/
  | out
  /-- In `uartputc`, about to acquire the lock. -/
  | putc (c : UInt8)
  /-- In `uartputc`, SLEEPING on `&uart_tx_r`. -/
  | asleep (c : UInt8)
  /-- In `uartputc`, about to acquire the lock at the end of `sleep`. -/
  | woken (c : UInt8)
  /-- In `uartintr`, about to acquire the lock. -/
  | intr
  /-- At the top of the loop of `uartstart`, with the lock. -/
  | start
  /-- In `uartstart`, about to write THR, with the lock. -/
  | send (c : UInt8)
  /-- In `uartputc_sync`, before its test of `panicked`. -/
  | sync (c : UInt8)
  /-- In `uartputc_sync`, waiting for THR to be empty. -/
  | syncWait (c : UInt8)
  /-- In `uartputc_sync`, about to write THR. -/
  | syncSend (c : UInt8)
  /-- In a `for(;;)` after a panic. -/
  | frozen
  deriving DecidableEq, Repr

/-- A byte written to THR, by `uartstart` or by `uartputc_sync`. -/
inductive Output where
  | buffered (c : UInt8)
  | direct (c : UInt8)
  deriving DecidableEq, Repr

/-- The buffer, its lock, the device and the threads. `fifo` has the bytes that were written to THR
and not sent yet, and `irq` is an interrupt that no handler has been entered for. The last fields
are history: the bytes that `uartputc` stored, and those that the device sent. -/
structure State (P H : Type) where
  buf : Fin UART_TX_BUF_SIZE → UInt8
  w : UInt64
  r : UInt64
  lock : Option (Thread P H)
  fifo : List Output
  irq : Bool
  panicked : Bool
  pc : Thread P H → Pc
  put : List UInt8
  line : List Output

/-- A call, an interrupt, the next step of a thread, a byte that the device sends, a `kill` of a
process that sleeps, and a panic elsewhere. -/
inductive Act (P H : Type) where
  | uartputc (p : P) (c : UInt8)
  | uartputc_sync (a : Thread P H) (c : UInt8)
  | uartintr (h : H)
  | step (a : Thread P H)
  | device
  | kill (p : P)
  | panic

namespace State

variable {P H : Type} [DecidableEq P] [DecidableEq H]

/-- `uart_tx_buf[i % UART_TX_BUF_SIZE]`. -/
def slot (i : UInt64) : Fin UART_TX_BUF_SIZE := Fin.ofNat _ i.toNat

/-- The test of the loop of `uartputc`. -/
def full (s : State P H) : Bool := s.w = s.r + UInt64.ofNat UART_TX_BUF_SIZE

def goto (a : Thread P H) (pc : Pc) (s : State P H) : State P H :=
  { s with pc := Function.update s.pc a pc }

/-- `wakeup(&uart_tx_r)`. -/
def wakeup (s : State P H) : State P H :=
  { s with
    pc := fun a ↦
      match s.pc a with
      | .asleep c => .woken c
      | pc => pc }

/-- `uartputc` with the lock, up to `uartstart`; `kernel/uart.c:95–101`. -/
def store (a : Thread P H) (c : UInt8) (s : State P H) : State P H :=
  if s.full then s.goto a (.asleep c)
  else
    { s with
      buf := Function.update s.buf (slot s.w) c
      w := s.w + 1
      lock := some a
      pc := Function.update s.pc a .start
      put := s.put ++ [c] }

/-- The end of `uartstart`, and `release` in its caller. -/
def leave (a : Thread P H) (s : State P H) : State P H := { s.goto a .out with lock := none }

/-- `uartstart` takes the oldest byte, and wakes the writers; `kernel/uart.c:148–153`. -/
def fetch (a : Thread P H) (s : State P H) : State P H :=
  { s.wakeup with
    r := s.r + 1
    pc := Function.update s.wakeup.pc a (.send (s.buf (slot s.r))) }

/-- `WriteReg(THR, c)` of `uartstart`. -/
def send (a : Thread P H) (c : UInt8) (s : State P H) : State P H :=
  { s.goto a .start with fifo := s.fifo ++ [.buffered c] }

/-- One round of the loop of `uartstart`, up to its write of THR; `kernel/uart.c:136–153`. -/
def uartstart (a : Thread P H) (s : State P H) : State P H :=
  if s.w = s.r then s.leave a
  else if s.fifo ≠ [] then s.leave a
  else s.fetch a

/-- The next step of a thread. It waits for the lock, and for THR in `uartputc_sync`. -/
def advance (a : Thread P H) (s : State P H) : Option (State P H) :=
  match s.pc a with
  | .putc c =>
    if s.lock = none then
      some (if s.panicked then { s.goto a .frozen with lock := some a } else s.store a c)
    else none
  | .woken c => if s.lock = none then some (s.store a c) else none
  | .intr => if s.lock = none then some { s.goto a .start with lock := some a } else none
  | .start => some (s.uartstart a)
  | .send c => some (s.send a c)
  | .sync c => some (s.goto a (if s.panicked then .frozen else .syncWait c))
  | .syncWait c => if s.fifo = [] then some (s.goto a (.syncSend c)) else none
  | .syncSend c => some { s.goto a .out with fifo := s.fifo ++ [.direct c] }
  | .out | .asleep _ | .frozen => none

/-- The step function. The device interrupts when it has sent all it was given; input makes it
interrupt at any other time. -/
def step (s : State P H) : Act P H → Option (State P H)
  | .uartputc p c => if s.pc (.proc p) = .out then some (s.goto (.proc p) (.putc c)) else none
  | .uartputc_sync a c => if s.pc a = .out then some (s.goto a (.sync c)) else none
  | .uartintr h =>
    if s.pc (.hart h) = .out then some { s.goto (.hart h) .intr with irq := false } else none
  | .step a => s.advance a
  | .device =>
    match s.fifo with
    | [] => none
    | x :: rest =>
      some { s with fifo := rest, line := s.line ++ [x], irq := s.irq || rest.isEmpty }
  | .kill p =>
    match s.pc (.proc p) with
    | .asleep c => some (s.goto (.proc p) (.woken c))
    | _ => none
  | .panic => some { s with panicked := true }

/-- After `uartinit`. -/
def init : State P H where
  buf := fun _ ↦ 0
  w := 0
  r := 0
  lock := none
  fifo := []
  irq := false
  panicked := false
  pc := fun _ ↦ .out
  put := []
  line := []

end State

end Xv6.Uart
