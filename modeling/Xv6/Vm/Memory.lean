import Mathlib.Data.Nat.Bitwise
import Xv6.Lib.Bytes
import Xv6.Lib.Heap

/-!
# Physical memory

The layout of physical and virtual memory (`kernel/memlayout.h`, `kernel/riscv.h`), and the page
allocator (`kernel/kalloc.c`). A physical page is named by its number, its address divided by
`PGSIZE`; 0 is the null pointer. Addresses and page-table entries are 64-bit numbers.
-/

namespace Xv6.Vm

open Xv6.Lib

/-- Bytes per page; `kernel/riscv.h:335`. -/
def PGSIZE : Nat := 4096

/-- `kernel/riscv.h:338`. -/
def PGROUNDUP (sz : Nat) : Nat := (sz + PGSIZE - 1) % 2 ^ 64 / PGSIZE * PGSIZE

/-- `kernel/riscv.h:339`. -/
def PGROUNDDOWN (a : Nat) : Nat := a / PGSIZE * PGSIZE

/-- Flags of a page-table entry; `kernel/riscv.h:341–345`. -/
def PTE_V : Nat := 1

def PTE_R : Nat := 2

def PTE_W : Nat := 4

def PTE_X : Nat := 8

def PTE_U : Nat := 16

/-- The test `pte & PTE_V`. -/
def Valid (pte : Nat) : Prop := pte &&& PTE_V ≠ 0

instance (pte : Nat) : Decidable (Valid pte) := inferInstanceAs (Decidable (_ ≠ _))

/-- The entry bits for a page; `kernel/riscv.h:348`. -/
def PA2PTE (page : Nat) : Nat := page <<< 10

/-- The page of an entry: the address has 64 bits, so the shift by 12 drops two of the page's;
`kernel/riscv.h:350`. -/
def PTE2PA (pte : Nat) : Nat := (pte >>> 10) % 2 ^ 52

/-- `kernel/riscv.h:352`. -/
def PTE_FLAGS (pte : Nat) : Nat := pte &&& 0x3FF

/-- The index into a page-table page; `kernel/riscv.h:355–357`. -/
def PX (level va : Nat) : Nat := (va >>> (12 + 9 * level)) &&& 0x1FF

/-- One beyond the highest virtual address; `kernel/riscv.h:363`. -/
def MAXVA : Nat := 2 ^ 38

/-- `kernel/memlayout.h:51`. -/
def TRAMPOLINE : Nat := MAXVA - PGSIZE

/-- `kernel/memlayout.h:67`. -/
def TRAPFRAME : Nat := TRAMPOLINE - PGSIZE

/-- Where RAM starts; `kernel/memlayout.h:46`. -/
def KERNBASE : Nat := 0x80000000

/-- Where the RAM that the kernel uses ends; `kernel/memlayout.h:47`. -/
def PHYSTOP : Nat := KERNBASE + 128 * 1024 * 1024

/-- What the linker decides: the address `end` after the kernel, and the page of the trampoline
code, which is a page of the kernel. -/
structure Kernel where
  kend : Nat
  trampoline : Nat
  above : KERNBASE < kend
  below : kend ≤ PHYSTOP
  text : trampoline * PGSIZE + PGSIZE ≤ kend
  notNull : trampoline ≠ 0

/-- The contents of physical pages. -/
abbrev Ram := Nat → Nat → UInt8

/-- Physical memory with `kmem.freelist`. `fails` says which of the next calls of `kalloc` fail
even though a page is free. -/
structure Mem extends Heap Nat (Nat → UInt8) where
  fails : List Bool

/-- `memset` of a page. -/
def Mem.fill (m : Mem) (page : Nat) (b : UInt8) : Mem :=
  { m with cells := Function.update m.cells page (fun _ ↦ b) }

/-- `kalloc`; `kernel/kalloc.c:68–82`. -/
def kalloc (m : Mem) : Option Nat × Mem :=
  let fail := m.fails.headD false
  let m := { m with fails := m.fails.tail }
  match m.free with
  | [] => (none, m)
  | r :: next => if fail then (none, m) else (some r, Mem.fill { m with free := next } r 5)

/-- The pages that `kfree` accepts. -/
def Kernel.Usable (k : Kernel) (page : Nat) : Prop :=
  k.kend ≤ page * PGSIZE ∧ page * PGSIZE < PHYSTOP

instance (k : Kernel) (page : Nat) : Decidable (k.Usable page) :=
  inferInstanceAs (Decidable (_ ∧ _))

/-- `kfree`; `kernel/kalloc.c:46–63`. -/
def kfree (k : Kernel) (m : Mem) (page : Nat) : Except String Mem :=
  if k.Usable page then
    let m := m.fill page 1
    .ok { m with free := page :: m.free }
  else .error "kfree"

/-- `kfreemem`; `kernel/kalloc.c:84–98`. -/
def kfreemem (m : Mem) : Nat := m.free.length * PGSIZE

/-- The first page that `kinit` frees. -/
def Kernel.first (k : Kernel) : Nat := PGROUNDUP k.kend / PGSIZE

/-- The free list after `kinit`: each page is put in front of those before it;
`kernel/kalloc.c:26–40`. -/
def kinit (k : Kernel) : List Nat :=
  (List.range' k.first (PHYSTOP / PGSIZE - k.first)).reverse

/-- The bytes from an offset of a page. -/
def Mem.read (m : Mem) (page off n : Nat) : List UInt8 :=
  (List.range n).map (fun i ↦ m.cells page (off + i))

/-- Store bytes from an offset of a page on. -/
def Mem.write (m : Mem) (page off : Nat) (bs : List UInt8) : Mem :=
  let old := m.cells page
  let new := fun i ↦ if off ≤ i then bs.getD (i - off) (old i) else old i
  { m with cells := Function.update m.cells page new }

/-- `memmove` of a whole page. -/
def Mem.copyPage (m : Mem) (dst src : Nat) : Mem :=
  { m with cells := Function.update m.cells dst (m.cells src) }

/-- Entry `i` of the page-table page `pt`. -/
def Ram.pte (c : Ram) (pt i : Nat) : Nat := readLE (c pt) (8 * i) 8

/-- The contents after a store of entry `i` of `pt`. -/
def Ram.setPte (c : Ram) (pt i pte : Nat) : Ram :=
  Function.update c pt (writeLE (c pt) (8 * i) 8 pte)

/-- Store an entry of a page-table page. -/
def Mem.setPte (m : Mem) (pt i pte : Nat) : Mem :=
  { m with cells := Ram.setPte m.cells pt i pte }

end Xv6.Vm
