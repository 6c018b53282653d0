import Xv6.Vm.PageTable

/-!
# Loading programs

The page table of a process (`kernel/proc.c:176–217`) and `exec` (`kernel/exec.c`). The file that
`namei` finds is given by its inode and its bytes. The arguments are pages of the kernel, each with
a NUL-terminated string.
-/

namespace Xv6.Vm

open Xv6.Lib

/-- Maximum number of arguments of `exec`; `kernel/param.h:8`. -/
def MAXARG : Nat := 32

/-! ### The page table of a process -/

/-- `proc_pagetable` of a process with this trapframe; `kernel/proc.c:176–207`. -/
def procPagetable (k : Kernel) (m : Mem) (trapframe : Nat) : Except String (Option Nat × Mem) :=
  match uvmcreate m with
  | (none, m) => .ok (none, m)
  | (some pagetable, m) => do
    let (ok, m) ← mappages m pagetable TRAMPOLINE PGSIZE k.trampoline (PTE_R ||| PTE_X)
    if ok then
      let (ok, m) ← mappages m pagetable TRAPFRAME PGSIZE trapframe (PTE_R ||| PTE_W)
      if ok then return (some pagetable, m)
      else
        let m ← uvmunmap k m pagetable TRAMPOLINE 1 false
        let m ← uvmfree k m pagetable 0
        return (none, m)
    else
      let m ← uvmfree k m pagetable 0
      return (none, m)

/-- `proc_freepagetable`; `kernel/proc.c:211–217`. -/
def procFreepagetable (k : Kernel) (m : Mem) (pagetable sz : Nat) : Except String Mem := do
  let m ← uvmunmap k m pagetable TRAMPOLINE 1 false
  let m ← uvmunmap k m pagetable TRAPFRAME 1 false
  uvmfree k m pagetable sz

/-! ### Inodes -/

/-- The inode table as far as processes and `exec` use it: reference counts and sleep-locks by slot,
and the number of `begin_op` calls that wait for their `end_op`. -/
structure Inodes where
  ref : Nat → Nat
  locked : Nat → Bool
  ops : Nat

/-- `begin_op`; `kernel/log.c:126–142`. -/
def Inodes.begin_op (it : Inodes) : Inodes := { it with ops := it.ops + 1 }

/-- `end_op`; `kernel/log.c:147–171`. -/
def Inodes.end_op (it : Inodes) : Inodes := { it with ops := it.ops - 1 }

/-- The reference that `namei` returns, and that `idup` makes; `kernel/fs.c:281–288`. -/
def Inodes.iget (it : Inodes) (ip : Nat) : Inodes :=
  { it with ref := Function.update it.ref ip (it.ref ip + 1) }

/-- `ilock`, once the lock is free; `kernel/fs.c:292–317`. -/
def Inodes.ilock (it : Inodes) (ip : Nat) : Except String Inodes :=
  if it.ref ip < 1 then .error "ilock" else .ok
    { it with locked := Function.update it.locked ip true }

/-- `iput`; `kernel/fs.c:334–361`. -/
def Inodes.iput (it : Inodes) (ip : Nat) : Inodes :=
  { it with ref := Function.update it.ref ip (it.ref ip - 1) }

/-- `iunlockput`; `kernel/fs.c:319–327, 365–369`. -/
def Inodes.iunlockput (it : Inodes) (ip : Nat) : Except String Inodes :=
  if it.locked ip = false ∨ it.ref ip < 1 then .error "iunlock"
  else .ok (Inodes.iput { it with locked := Function.update it.locked ip false } ip)

/-! ### Program files -/

/-- `readi` into the kernel, with the bytes it reads; `kernel/fs.c:472–500`. -/
def readi (file : List UInt8) (off n : Nat) : List UInt8 :=
  if file.length < off ∨ (off + n) % 2 ^ 32 < off then [] else (file.drop off).take n

/-- The integer of `w` bytes at an offset of a structure. -/
def field (bs : List UInt8) (off w : Nat) : Nat := readLE (fun i ↦ bs.getD i 0) off w

/-- `kernel/elf.h:3`. -/
def ELF_MAGIC : Nat := 0x464C457F

/-- Size of `struct elfhdr`. -/
def elfhdrSize : Nat := 64

/-- Size of `struct proghdr`. -/
def proghdrSize : Nat := 56

/-- The fields of `struct elfhdr` that `exec` uses; `kernel/elf.h:6–22`. -/
structure Elfhdr where
  magic : Nat
  entry : Nat
  phoff : Nat
  phnum : Nat
  deriving DecidableEq

/-- The header in the first bytes of a file. -/
def Elfhdr.decode (bs : List UInt8) : Elfhdr where
  magic := field bs 0 4
  entry := field bs 24 8
  phoff := field bs 32 8
  phnum := field bs 56 2

/-- The fields of `struct proghdr` that `exec` uses; `kernel/elf.h:25–34`. -/
structure Proghdr where
  type : Nat
  flags : Nat
  off : Nat
  vaddr : Nat
  filesz : Nat
  memsz : Nat
  deriving DecidableEq

/-- A program header in the bytes of a file. -/
def Proghdr.decode (bs : List UInt8) : Proghdr where
  type := field bs 0 4
  flags := field bs 4 4
  off := field bs 8 8
  vaddr := field bs 16 8
  filesz := field bs 32 8
  memsz := field bs 40 8

/-- `kernel/elf.h:37`. -/
def ELF_PROG_LOAD : Nat := 1

/-- `flags2perm`; `kernel/exec.c:12–20`. -/
def flags2perm (flags : Nat) : Nat :=
  (if flags &&& 1 ≠ 0 then PTE_X else 0) ||| if flags &&& 2 ≠ 0 then PTE_W else 0

/-! ### `exec` -/

/-- The loop of `loadseg` over `n` pages from `i` on; `kernel/exec.c:153–163`. -/
def loadsegLoop (pagetable va : Nat) (file : List UInt8) (offset sz : Nat) :
    Nat → Mem → Nat → Except String (Bool × Mem)
  | 0, m, _ => .ok (true, m)
  | n + 1, m, i =>
    let pa := walkaddr m pagetable ((va + i) % 2 ^ 64)
    if pa = 0 then .error "loadseg: address should exist"
    else
      let len := if sz - i < PGSIZE then sz - i else PGSIZE
      let bs := readi file ((offset + i) % 2 ^ 32) len
      let m := m.write pa 0 bs
      if bs.length ≠ len then .ok (false, m)
      else loadsegLoop pagetable va file offset sz n m (i + PGSIZE)

/-- `loadseg`, whose offset and size are `uint`s; `kernel/exec.c:147–166`. -/
def loadseg (m : Mem) (pagetable va : Nat) (file : List UInt8) (offset sz : Nat) :
    Except String (Bool × Mem) :=
  let sz := sz % 2 ^ 32
  loadsegLoop pagetable va file (offset % 2 ^ 32) sz ((sz + PGSIZE - 1) / PGSIZE) m 0

/-- The loop of `exec` over `n` program headers from offset `off` on, with the size of the
memory it has made; `kernel/exec.c:53–70`. -/
def loadSegments (k : Kernel) (pagetable : Nat) (file : List UInt8) :
    Nat → Mem → Nat → Nat → Except String (Bool × Nat × Mem)
  | 0, m, _, sz => .ok (true, sz, m)
  | n + 1, m, off, sz =>
    let bs := readi file off proghdrSize
    let ph := Proghdr.decode bs
    if bs.length ≠ proghdrSize then .ok (false, sz, m)
    else if ph.type ≠ ELF_PROG_LOAD then
      loadSegments k pagetable file n m ((off + proghdrSize) % 2 ^ 32) sz
    else if ph.memsz < ph.filesz then .ok (false, sz, m)
    else if (ph.vaddr + ph.memsz) % 2 ^ 64 < ph.vaddr then .ok (false, sz, m)
    else if ph.vaddr % PGSIZE ≠ 0 then .ok (false, sz, m)
    else do
      let (sz1, m) ← uvmalloc k m pagetable sz ((ph.vaddr + ph.memsz) % 2 ^ 64)
          (flags2perm ph.flags)
      if sz1 = 0 then return (false, sz, m)
      else
        let (ok, m) ← loadseg m pagetable ph.vaddr file ph.off ph.filesz
        if ok then loadSegments k pagetable file n m ((off + proghdrSize) % 2 ^ 32) sz1
        else return (false, sz1, m)

/-- Subtraction of 64-bit numbers. -/
def sub64 (a b : Nat) : Nat := (a + (2 ^ 64 - b % 2 ^ 64)) % 2 ^ 64

/-- Move the stack pointer down by `n` bytes and to a multiple of 16;
`kernel/exec.c:94–95, 105–106`. -/
def pushSp (sp n : Nat) : Nat :=
  let sp := sub64 sp n
  sp - sp % 16

/-- The string in a page, without its NUL. -/
@[irreducible] def cstring (m : Mem) (page : Nat) : List UInt8 :=
  (m.read page 0 PGSIZE).takeWhile (· ≠ 0)

/-- The loop of `exec` that pushes the argument strings, with the stack pointer and `ustack` it
leaves; `kernel/exec.c:91–101`. -/
def pushArgs (pagetable stackbase : Nat) :
    List Nat → Mem → Nat → List Nat → Option (Nat × List Nat) × Mem
  | [], m, sp, ustack => (some (sp, ustack), m)
  | arg :: argv, m, sp, ustack =>
    if MAXARG ≤ ustack.length then (none, m)
    else
      let s := cstring m arg
      let sp := pushSp sp (s.length + 1)
      if sp < stackbase then (none, m)
      else match copyout m pagetable sp (s ++ [0]) with
      | (false, m) => (none, m)
      | (true, m) => pushArgs pagetable stackbase argv m sp (ustack ++ [sp])

/-- The bytes of an array of 64-bit words. -/
def words (ws : List Nat) : List UInt8 :=
  ws.flatMap (fun w ↦ (List.range 8).map (fun i ↦ UInt8.ofNat (w / 256 ^ i)))

/-- The arguments on the stack of the new image: the stack pointer and the number of arguments;
`kernel/exec.c:90–110`. -/
def pushStack (m : Mem) (pagetable stackbase sp : Nat) (argv : List Nat) :
    Option (Nat × Nat) × Mem :=
  match pushArgs pagetable stackbase argv m sp [] with
  | (none, m) => (none, m)
  | (some (sp, ustack), m) =>
    let sp := pushSp sp ((ustack.length + 1) * 8)
    if sp < stackbase then (none, m)
    else match copyout m pagetable sp (words (ustack ++ [0])) with
    | (false, m) => (none, m)
    | (true, m) => (some (sp, ustack.length), m)

/-- Words of `struct trapframe`; `kernel/proc.h:43–80`. -/
def Mem.setReg (m : Mem) (trapframe i v : Nat) : Mem := m.setPte trapframe i v

def regEpc : Nat := 3

def regSp : Nat := 6

def regA0 : Nat := 14

/-- The number of words of `struct trapframe`. -/
def regCount : Nat := 36

/-- Copy `struct trapframe` from one page to another. -/
def Mem.copyRegs (m : Mem) (dst src : Nat) : Mem := m.write dst 0 (m.read src 0 (8 * regCount))

def regA1 : Nat := 15

/-- The label `bad` of `exec`, with the page table and the inode it has then;
`kernel/exec.c:133–140`. -/
def execBad (k : Kernel) (m : Mem) (it : Inodes) (pagetable : Option Nat) (sz : Nat)
    (ip : Option Nat) :
    Except String (Option (Nat × Nat × Nat) × Inodes × Mem) := do
  let m ← match pagetable with
    | some pagetable => procFreepagetable k m pagetable sz
    | none => pure m
  let it ← match ip with
    | some ip => do
      let it ← it.iunlockput ip
      pure it.end_op
    | none => pure it
  return (none, it, m)

/-- `exec` from the stack pages on, with a new page table of size `sz`;
`kernel/exec.c:75–131`. -/
def execStack (k : Kernel) (m : Mem) (it : Inodes) (pagetable sz trapframe entry : Nat)
    (argv : List Nat) (oldpagetable oldsz : Nat) :
    Except String (Option (Nat × Nat × Nat) × Inodes × Mem) := do
  let sz := PGROUNDUP sz
  let (sz1, m) ← uvmalloc k m pagetable sz ((sz + 2 * PGSIZE) % 2 ^ 64) PTE_W
  if sz1 = 0 then execBad k m it (some pagetable) sz none
  else
    let m ← uvmclear m pagetable (sz1 - 2 * PGSIZE)
    match pushStack m pagetable (sz1 - PGSIZE) sz1 argv with
    | (none, m) => execBad k m it (some pagetable) sz1 none
    | (some (sp, argc), m) =>
      let m := ((m.setReg trapframe regA1 sp).setReg trapframe regEpc entry).setReg trapframe regSp
        sp
      let m ← procFreepagetable k m oldpagetable oldsz
      return (some (pagetable, sz1, argc), it, m)

/-- `exec` of a process: on success its new page table and size, and the number of arguments. `file`
is the inode that `namei` finds, with the contents of its file. `kernel/exec.c:22–141`. -/
def exec (k : Kernel) (m : Mem) (it : Inodes) (pagetable sz trapframe : Nat)
    (file : Option (Nat × List UInt8)) (argv : List Nat) :
    Except String (Option (Nat × Nat × Nat) × Inodes × Mem) :=
  let it := it.begin_op
  match file with
  | none => .ok (none, it.end_op, m)
  | some (ip, file) => do
    let it ← (it.iget ip).ilock ip
    let bs := readi file 0 elfhdrSize
    let elf := Elfhdr.decode bs
    if bs.length ≠ elfhdrSize then execBad k m it none 0 (some ip)
    else if elf.magic ≠ ELF_MAGIC then execBad k m it none 0 (some ip)
    else
      let (new, m) ← procPagetable k m trapframe
      match new with
      | none => execBad k m it none 0 (some ip)
      | some new =>
        let (ok, newsz, m) ← loadSegments k new file elf.phnum m (elf.phoff % 2 ^ 32) 0
        if ok then
          let it ← it.iunlockput ip
          execStack k m it.end_op new newsz trapframe elf.entry argv pagetable sz
        else execBad k m it (some new) newsz (some ip)

end Xv6.Vm
