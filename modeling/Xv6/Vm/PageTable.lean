import Xv6.Vm.Memory

/-!
# Page tables and user memory

The functions of `kernel/vm.c` on user page tables. A page table is named by its root page. A
`panic` is an error with its text.
-/

namespace Xv6.Vm

open Xv6.Lib

/-! ### Walking and mapping -/

/-- The loop of `walk`, down from a page-table page of the given level;
`kernel/vm.c:91–102`. -/
def walkLoop (m : Mem) (va : Nat) (alloc : Bool) : Nat → Nat → Option (Nat × Nat) × Mem
  | 0, pagetable => (some (pagetable, PX 0 va), m)
  | level + 1, pagetable =>
    let i := PX (level + 1) va
    let pte := Ram.pte m.cells pagetable i
    if Valid pte then walkLoop m va alloc level (PTE2PA pte)
    else if alloc then
      match kalloc m with
      | (none, m) => (none, m)
      | (some page, m) =>
        walkLoop ((m.fill page 0).setPte pagetable i (PA2PTE page ||| PTE_V)) va alloc level page
    else (none, m)

/-- `walk`: the page and the index of the entry for `va`; `kernel/vm.c:85–103`. -/
def walk (m : Mem) (pagetable va : Nat) (alloc : Bool) :
    Except String (Option (Nat × Nat) × Mem) :=
  if MAXVA ≤ va then .error "walk" else .ok (walkLoop m va alloc 2 pagetable)

/-- `walkaddr`; `kernel/vm.c:108–126`. -/
def walkaddr (m : Mem) (pagetable va : Nat) : Nat :=
  if MAXVA ≤ va then 0
  else match (walkLoop m va false 2 pagetable).1 with
  | none => 0
  | some (page, i) =>
    let pte := Ram.pte m.cells page i
    if ¬ Valid pte then 0 else if pte &&& PTE_U = 0 then 0 else PTE2PA pte

/-- The loop of `mappages`; `kernel/vm.c:153–163`. `walk` panics before `fuel`, which is the
number of virtual pages, is used up. -/
def mappagesLoop (pagetable last perm : Nat) : Nat → Mem → Nat → Nat → Except String (Bool × Mem)
  | 0, _, _, _ => .error "walk"
  | fuel + 1, m, a, page => do
    let (pte, m) ← walk m pagetable a true
    match pte with
    | none => return (false, m)
    | some (p, i) =>
      if Valid (Ram.pte m.cells p i) then throw "mappages: remap"
      else
        let m := m.setPte p i (PA2PTE page ||| perm ||| PTE_V)
        if a = last then return (true, m)
        else mappagesLoop pagetable last perm fuel m (a + PGSIZE) (page + 1)

/-- `mappages`; `kernel/vm.c:142–165`. -/
def mappages (m : Mem) (pagetable va size page perm : Nat) : Except String (Bool × Mem) :=
  if size = 0 then .error "mappages: size"
  else
    let last := PGROUNDDOWN ((va + size - 1) % 2 ^ 64)
    mappagesLoop pagetable last perm (MAXVA / PGSIZE + 1) m (PGROUNDDOWN va) page

/-- `if(c) kfree(page)`. -/
def kfreeIf (k : Kernel) (m : Mem) (c : Bool) (page : Nat) : Except String Mem :=
  if c then kfree k m page else .ok m

/-- The loop of `uvmunmap`; `kernel/vm.c:179–191`. -/
def uvmunmapLoop (k : Kernel) (pagetable : Nat) (do_free : Bool) :
    Nat → Mem → Nat → Except String Mem
  | 0, m, _ => .ok m
  | n + 1, m, a => do
    let (pte, m) ← walk m pagetable a false
    match pte with
    | none => throw "uvmunmap: walk"
    | some (p, i) =>
      if ¬ Valid (Ram.pte m.cells p i) then throw "uvmunmap: not mapped"
      else if PTE_FLAGS (Ram.pte m.cells p i) = PTE_V then throw "uvmunmap: not a leaf"
      else
        let m ← kfreeIf k m do_free (PTE2PA (Ram.pte m.cells p i))
        uvmunmapLoop k pagetable do_free n (m.setPte p i 0) (a + PGSIZE)

/-- `uvmunmap`; `kernel/vm.c:170–192`. -/
def uvmunmap (k : Kernel) (m : Mem) (pagetable va npages : Nat) (do_free : Bool) :
    Except String Mem :=
  if va % PGSIZE ≠ 0 then .error "uvmunmap: not aligned"
  else uvmunmapLoop k pagetable do_free (((va + npages * PGSIZE) % 2 ^ 64 - va) / PGSIZE) m va

/-! ### User memory -/

/-- `uvmcreate`; `kernel/vm.c:196–205`. -/
def uvmcreate (m : Mem) : Option Nat × Mem :=
  match kalloc m with
  | (none, m) => (none, m)
  | (some pagetable, m) => (some pagetable, m.fill pagetable 0)

/-- `uvmfirst`; `kernel/vm.c:210–221`. A store through the null pointer is a kernel trap. -/
def uvmfirst (m : Mem) (pagetable : Nat) (src : List UInt8) : Except String Mem :=
  if PGSIZE ≤ src.length then .error "uvmfirst: more than a page"
  else match kalloc m with
  | (none, _) => .error "kerneltrap"
  | (some mem, m) => do
    let (_, m) ← mappages (m.fill mem 0) pagetable 0 PGSIZE mem
        (PTE_W ||| PTE_R ||| PTE_X ||| PTE_U)
    return m.write mem 0 src

/-- The value of a number of 64 bits as an `int`, passed on as a `uint64`. -/
def intToUint64 (n : Nat) : Nat :=
  let n := n % 2 ^ 32
  if n < 2 ^ 31 then n else n + (2 ^ 64 - 2 ^ 32)

/-- `uvmdealloc`; `kernel/vm.c:255–267`. -/
def uvmdealloc (k : Kernel) (m : Mem) (pagetable oldsz newsz : Nat) : Except String (Nat × Mem) :=
  if oldsz ≤ newsz then .ok (oldsz, m)
  else if PGROUNDUP newsz < PGROUNDUP oldsz then do
    let npages := intToUint64 ((PGROUNDUP oldsz - PGROUNDUP newsz) / PGSIZE)
    let m ← uvmunmap k m pagetable (PGROUNDUP newsz) npages true
    return (newsz, m)
  else .ok (newsz, m)

/-- The loop of `uvmalloc` over `n` pages; `kernel/vm.c:235–247`. -/
def uvmallocLoop (k : Kernel) (pagetable oldsz xperm : Nat) :
    Nat → Mem → Nat → Except String (Bool × Mem)
  | 0, m, _ => .ok (true, m)
  | n + 1, m, a =>
    match kalloc m with
    | (none, m) => do
      let (_, m) ← uvmdealloc k m pagetable a oldsz
      return (false, m)
    | (some mem, m) => do
      let (ok, m) ← mappages (m.fill mem 0) pagetable a PGSIZE mem (PTE_R ||| PTE_U ||| xperm)
      if ok then uvmallocLoop k pagetable oldsz xperm n m (a + PGSIZE)
      else
        let m ← kfree k m mem
        let (_, m) ← uvmdealloc k m pagetable a oldsz
        return (false, m)

/-- `uvmalloc`; `kernel/vm.c:225–249`. -/
def uvmalloc (k : Kernel) (m : Mem) (pagetable oldsz newsz xperm : Nat) :
    Except String (Nat × Mem) :=
  if newsz < oldsz then .ok (oldsz, m)
  else do
    let oldsz := PGROUNDUP oldsz
    let n := (newsz - oldsz + PGSIZE - 1) / PGSIZE
    let (ok, m) ← uvmallocLoop k pagetable oldsz xperm n m oldsz
    return (if ok then newsz else 0, m)

/-- The loop of `freewalk` over the entries of a page-table page; `kernel/vm.c:275–285`. -/
def freewalkLoop (child : Mem → Nat → Except String Mem) (pagetable : Nat) :
    List Nat → Mem → Except String Mem
  | [], m => .ok m
  | i :: is, m =>
    let pte := Ram.pte m.cells pagetable i
    if Valid pte ∧ pte &&& (PTE_R ||| PTE_W ||| PTE_X) = 0 then do
      let m ← child m (PTE2PA pte)
      freewalkLoop child pagetable is (m.setPte pagetable i 0)
    else if Valid pte then .error "freewalk: leaf"
    else freewalkLoop child pagetable is m

/-- `freewalk` on a table of at most `depth` levels; a deeper recursion is an error here.
`kernel/vm.c:271–287`. -/
def freewalk (k : Kernel) : Nat → Mem → Nat → Except String Mem
  | 0, _, _ => .error "freewalk: recursion"
  | depth + 1, m, pagetable => do
    let m ← freewalkLoop (freewalk k depth) pagetable (List.range 512) m
    kfree k m pagetable

/-- `uvmfree`; `kernel/vm.c:291–297`. -/
def uvmfree (k : Kernel) (m : Mem) (pagetable sz : Nat) : Except String Mem :=
  if 0 < sz then do
    let m ← uvmunmap k m pagetable 0 (PGROUNDUP sz / PGSIZE) true
    freewalk k 3 m pagetable
  else freewalk k 3 m pagetable

/-- The loop of `uvmcopy` over `n` pages from `i` on; `kernel/vm.c:313–332`. -/
def uvmcopyLoop (k : Kernel) (old new : Nat) : Nat → Mem → Nat → Except String (Bool × Mem)
  | 0, m, _ => .ok (true, m)
  | n + 1, m, i => do
    let (pte, m) ← walk m old i false
    match pte with
    | none => throw "uvmcopy: pte should exist"
    | some (p, j) =>
      let pte := Ram.pte m.cells p j
      if ¬ Valid pte then throw "uvmcopy: page not present"
      else match kalloc m with
      | (none, m) =>
        let m ← uvmunmap k m new 0 (i / PGSIZE) true
        return (false, m)
      | (some mem, m) =>
        let (ok, m) ← mappages (m.copyPage mem (PTE2PA pte)) new i PGSIZE mem (PTE_FLAGS pte)
        if ok then uvmcopyLoop k old new n m (i + PGSIZE)
        else
          let m ← kfree k m mem
          let m ← uvmunmap k m new 0 (i / PGSIZE) true
          return (false, m)

/-- `uvmcopy`; `kernel/vm.c:305–333`. -/
def uvmcopy (k : Kernel) (m : Mem) (old new sz : Nat) : Except String (Bool × Mem) :=
  uvmcopyLoop k old new ((sz + PGSIZE - 1) / PGSIZE) m 0

/-- `uvmclear`; `kernel/vm.c:337–346`. -/
def uvmclear (m : Mem) (pagetable va : Nat) : Except String Mem := do
  let (pte, m) ← walk m pagetable va false
  match pte with
  | none => throw "uvmclear"
  | some (p, i) => return m.setPte p i (Ram.pte m.cells p i &&& (2 ^ 64 - 1 - PTE_U))

/-! ### Copying -/

/-- The loop of `copyout`; each iteration takes a byte at least. `kernel/vm.c:356–369`. -/
def copyoutLoop (pagetable : Nat) : Nat → Mem → Nat → List UInt8 → Bool × Mem
  | 0, m, _, _ => (true, m)
  | fuel + 1, m, dstva, src =>
    if src = [] then (true, m)
    else
      let va0 := PGROUNDDOWN dstva
      let pa0 := walkaddr m pagetable va0
      if pa0 = 0 then (false, m)
      else
        let n := min (PGSIZE - (dstva - va0)) src.length
        copyoutLoop pagetable fuel (m.write pa0 (dstva - va0) (src.take n))
          ((va0 + PGSIZE) % 2 ^ 64) (src.drop n)

/-- `copyout`; `kernel/vm.c:351–371`. -/
def copyout (m : Mem) (pagetable dstva : Nat) (src : List UInt8) : Bool × Mem :=
  copyoutLoop pagetable src.length m dstva src

/-- The loop of `copyin`; `kernel/vm.c:381–394`. -/
def copyinLoop (m : Mem) (pagetable : Nat) : Nat → Nat → Nat → List UInt8 → Bool × List UInt8
  | 0, _, _, dst => (true, dst)
  | fuel + 1, srcva, len, dst =>
    if len = 0 then (true, dst)
    else
      let va0 := PGROUNDDOWN srcva
      let pa0 := walkaddr m pagetable va0
      if pa0 = 0 then (false, dst)
      else
        let n := min (PGSIZE - (srcva - va0)) len
        copyinLoop m pagetable fuel ((va0 + PGSIZE) % 2 ^ 64) (len - n)
          (dst ++ m.read pa0 (srcva - va0) n)

/-- `copyin`, with the bytes it stored; `kernel/vm.c:376–396`. -/
def copyin (m : Mem) (pagetable srcva len : Nat) : Bool × List UInt8 :=
  copyinLoop m pagetable len srcva len []

/-- The loops of `copyinstr`; `kernel/vm.c:408–433`. -/
def copyinstrLoop (m : Mem) (pagetable : Nat) : Nat → Nat → Nat → List UInt8 → Bool × List UInt8
  | 0, _, _, dst => (false, dst)
  | fuel + 1, srcva, max, dst =>
    if max = 0 then (false, dst)
    else
      let va0 := PGROUNDDOWN srcva
      let pa0 := walkaddr m pagetable va0
      if pa0 = 0 then (false, dst)
      else
        let n := min (PGSIZE - (srcva - va0)) max
        let bs := m.read pa0 (srcva - va0) n
        match bs.idxOf? 0 with
        | some j => (true, dst ++ bs.take (j + 1))
        | none =>
          copyinstrLoop m pagetable fuel ((va0 + PGSIZE) % 2 ^ 64) (max - n) (dst ++ bs)

/-- `copyinstr`, with the bytes it stored; `kernel/vm.c:402–439`. -/
def copyinstr (m : Mem) (pagetable srcva max : Nat) : Bool × List UInt8 :=
  copyinstrLoop m pagetable max srcva max []

end Xv6.Vm
