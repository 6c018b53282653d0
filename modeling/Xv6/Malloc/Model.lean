import Mathlib.Algebra.Ring.Nat
import Mathlib.Logic.Function.Basic

/-!
# The memory allocator of user programs

`user/umalloc.c` over byte addresses. A header is 16 bytes with a pointer and a 32-bit size in units
of 16 bytes. The loops have a bound on their rounds; a call that needs more rounds has not returned.
`sbrk` fails or moves the break by its `int` argument.
-/

namespace Xv6.Malloc

/-- `sizeof(Header)`; `user/umalloc.c:11–17`. -/
def HDR : Nat := 16

/-- The headers in memory, the variable `freep`, and the break. -/
structure Heap where
  ptr : Nat → Nat
  size : Nat → Nat
  freep : Nat
  brk : Nat

namespace Heap

/-- The loop of `free` that looks for the place of `bp`; `user/umalloc.c:30–32`. -/
def findPlace (bp : Nat) : Nat → Nat → Heap → Option Nat
  | 0, _, _ => none
  | fuel + 1, p, s =>
    if bp > p ∧ bp < s.ptr p then some p
    else if p ≥ s.ptr p ∧ (bp > p ∨ bp < s.ptr p) then some p
    else findPlace bp fuel (s.ptr p) s

/-- `bp` takes the place before the next block, or swallows it; `user/umalloc.c:33–37`. -/
def joinNext (bp p : Nat) (s : Heap) : Heap :=
  if bp + HDR * s.size bp = s.ptr p then
    { s with
      size := Function.update s.size bp ((s.size bp + s.size (s.ptr p)) % 2 ^ 32)
      ptr := Function.update s.ptr bp (s.ptr (s.ptr p)) }
  else { s with ptr := Function.update s.ptr bp (s.ptr p) }

/-- `p` points to `bp`, or swallows it; `user/umalloc.c:38–42`. -/
def joinPrev (bp p : Nat) (s : Heap) : Heap :=
  if p + HDR * s.size p = bp then
    { s with
      size := Function.update s.size p ((s.size p + s.size bp) % 2 ^ 32)
      ptr := Function.update s.ptr p (s.ptr bp) }
  else { s with ptr := Function.update s.ptr p bp }

/-- `free`; `user/umalloc.c:24–44`. -/
def free (fuel ap : Nat) (s : Heap) : Option Heap := do
  let bp := ap - HDR
  let p ← findPlace bp fuel s.freep s
  return { joinPrev bp p (joinNext bp p s) with freep := p }

/-- The argument that `sbrk` gets: `nu * sizeof(Header)` as an `int`. -/
def sbrkArg (nu : Nat) : Int := Int.bmod (nu * HDR : Nat) (2 ^ 32)

/-- `morecore`: the heap afterwards, or the null pointer; `user/umalloc.c:46–61`. -/
def morecore (fuel nu : Nat) (ok : Bool) (s : Heap) : Option (Option Heap) :=
  let nu := if nu < 4096 then 4096 else nu
  if ok then
    let hp := s.brk
    let s := { s with brk := (s.brk + sbrkArg nu).toNat, size := Function.update s.size hp nu }
    (s.free fuel (hp + HDR)).map some
  else some none

/-- The block at `p` is large enough: all of it, or its tail; `user/umalloc.c:76–84`. -/
def take (nunits prevp p : Nat) (s : Heap) : Nat × Heap :=
  if s.size p = nunits then
    (p + HDR, { s with ptr := Function.update s.ptr prevp (s.ptr p), freep := prevp })
  else
    let rest := s.size p - nunits
    let q := p + HDR * rest
    (q + HDR, { s with
      size := Function.update (Function.update s.size p rest) q nunits
      freep := prevp })

/-- The loop of `malloc`; `user/umalloc.c:74–89`. -/
def mallocLoop (ok : Bool) (nunits : Nat) : Nat → Nat → Nat → Heap → Option (Nat × Heap)
  | 0, _, _, _ => none
  | fuel + 1, prevp, p, s =>
    if s.size p ≥ nunits then some (s.take nunits prevp p)
    else if p = s.freep then
      match s.morecore fuel nunits ok with
      | none => none
      | some none => some (0, s)
      | some (some s) => mallocLoop ok nunits fuel s.freep (s.ptr s.freep) s
    else mallocLoop ok nunits fuel p (s.ptr p) s

/-- Units for a request, with its header; `user/umalloc.c:69`. -/
def units (nbytes : Nat) : Nat := ((nbytes + HDR - 1) / HDR + 1) % 2 ^ 32

/-- The list before the first call of `malloc`; `user/umalloc.c:70–73`. -/
def init (base : Nat) (s : Heap) : Heap :=
  if s.freep = 0 then
    { s with
      ptr := Function.update s.ptr base base
      freep := base
      size := Function.update s.size base 0 }
  else s

/-- `malloc`; `user/umalloc.c:63–90`. -/
def malloc (base fuel nbytes : Nat) (ok : Bool) (s : Heap) : Option (Nat × Heap) :=
  let s := s.init base
  mallocLoop ok (units nbytes) fuel s.freep (s.ptr s.freep) s

end Heap

/-- The heap and the live blocks: for each pointer that the program has, the size it asked for. -/
structure State extends Heap where
  live : Nat → Option Nat

/-- What a program does: it calls `malloc` with an answer of `sbrk`, it frees a live block, and it
writes in a live block, which may change the header that is seen at an address `a`. -/
inductive Act where
  | malloc (nbytes : Nat) (ok : Bool) (fuel : Nat)
  | free (q : Nat) (fuel : Nat)
  | store (q x a ptr size : Nat)

/-- The step function; `base` is the address of the variable. -/
def State.step (base : Nat) (s : State) : Act → Option State
  | .malloc nbytes ok fuel =>
    if nbytes < 2 ^ 32 then
      (s.toHeap.malloc base fuel nbytes ok).map fun r ↦
        { toHeap := r.2
          live := if r.1 = 0 then s.live else Function.update s.live r.1 (some nbytes) }
    else none
  | .free q fuel =>
    if (s.live q).isSome then
      (s.toHeap.free fuel q).map fun t ↦ { toHeap := t, live := Function.update s.live q none }
    else none
  | .store q x a ptr size =>
    match s.live q with
    | none => none
    | some n =>
      if q ≤ x ∧ x < q + n ∧ a ≤ x ∧ x < a + HDR then
        some { s with
          ptr := Function.update s.ptr a ptr
          size := Function.update s.size a size }
      else none

/-- A program starts with no block. -/
def State.boot (brk : Nat) : State where
  ptr := fun _ ↦ 0
  size := fun _ ↦ 0
  freep := 0
  brk := brk
  live := fun _ ↦ none

end Xv6.Malloc
