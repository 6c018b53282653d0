import Mathlib.Algebra.Ring.Int.Defs
import Mathlib.Algebra.Ring.Nat
import Mathlib.Logic.Function.Basic

/-!
# The two `memmove`s

`memmove` of the kernel (`kernel/string.c:30–51`) and of the user library (`user/ulib.c:114–132`).
Both copy byte by byte in place, and choose the direction by different tests. Addresses are numbers
of 64 bits, and pointers wrap around.
-/

namespace Xv6

/-- Bytes by address. -/
abbrev Memory := Nat → UInt8

/-- `p++`. -/
def nextByte (p : Nat) : Nat := (p + 1) % 2 ^ 64

/-- `--p`. -/
def prevByte (p : Nat) : Nat := (p + (2 ^ 64 - 1)) % 2 ^ 64

/-- `while(n-- > 0) *d++ = *s++;`. -/
def copyUp : Nat → Nat → Nat → Memory → Memory
  | 0, _, _, m => m
  | n + 1, d, s, m => copyUp n (nextByte d) (nextByte s) (Function.update m d (m s))

/-- `while(n-- > 0) *--d = *--s;`. -/
def copyDown : Nat → Nat → Nat → Memory → Memory
  | 0, _, _, m => m
  | n + 1, d, s, m =>
    let d := prevByte d
    let s := prevByte s
    copyDown n d s (Function.update m d (m s))

/-- `memmove` of the kernel, whose `n` is a `uint`; `kernel/string.c:30–51`. -/
def KString.memmove (dst src n : Nat) (m : Memory) : Nat × Memory :=
  if n = 0 then (dst, m)
  else if src < dst ∧ (src + n) % 2 ^ 64 > dst then
    (dst, copyDown n ((dst + n) % 2 ^ 64) ((src + n) % 2 ^ 64) m)
  else (dst, copyUp n dst src m)

/-- `memmove` of the user library, whose `n` is an `int`; `user/ulib.c:114–132`. -/
def Ulib.memmove (dst src : Nat) (n : Int) (m : Memory) : Nat × Memory :=
  if src > dst then (dst, copyUp n.toNat dst src m)
  else (dst, copyDown n.toNat ((dst + n) % 2 ^ 64).toNat ((src + n) % 2 ^ 64).toNat m)

/-- The memory with the bytes from `src` at `dst`. -/
def copied (m : Memory) (dst src n : Nat) : Memory :=
  fun a ↦ if dst ≤ a ∧ a < dst + n then m (src + (a - dst)) else m a

section
variable {m : Memory} {d s n : Nat}

theorem copied_zero (m : Memory) (d s : Nat) : copied m d s 0 = m := by
  funext a
  rw [copied, if_neg (by omega)]

/-- The first byte, and then the others: none of them is overwritten by the first. -/
theorem copied_cons (h : d ≤ s ∨ s + (n + 1) ≤ d) :
    copied (Function.update m d (m s)) (d + 1) (s + 1) n = copied m d s (n + 1) := by
  funext a
  unfold copied
  by_cases hin : d + 1 ≤ a ∧ a < d + 1 + n
  · have hread : s + 1 + (a - (d + 1)) = s + (a - d) := by omega
    have hne : s + (a - d) ≠ d := by omega
    rw [if_pos hin, if_pos (by omega), hread, Function.update_of_ne hne]
  · rw [if_neg hin]
    by_cases ha : a = d
    · rw [ha, Function.update_self, if_pos (by omega), Nat.sub_self, Nat.add_zero]
    · rw [Function.update_of_ne ha, if_neg (by omega)]

/-- The last byte, and then the others. -/
theorem copied_concat (h : s ≤ d) :
    copied (Function.update m (d + n) (m (s + n))) d s n = copied m d s (n + 1) := by
  funext a
  unfold copied
  by_cases hin : d ≤ a ∧ a < d + n
  · have hne : s + (a - d) ≠ d + n := by omega
    rw [if_pos hin, if_pos (by omega), Function.update_of_ne hne]
  · rw [if_neg hin]
    by_cases ha : a = d + n
    · rw [ha, Function.update_self, if_pos (by omega), Nat.add_sub_cancel_left]
    · rw [Function.update_of_ne ha, if_neg (by omega)]

/-- Copying upwards is right when the destination is not inside the rest of the source. -/
theorem copyUp_eq (h : d ≤ s ∨ s + n ≤ d) (hd : d + n ≤ 2 ^ 64) (hs : s + n ≤ 2 ^ 64) :
    copyUp n d s m = copied m d s n := by
  induction n generalizing d s m with
  | zero => exact (copied_zero m d s).symm
  | succ n ih =>
    rw [copyUp, ← copied_cons h]
    cases n with
    | zero => exact (copied_zero _ _ _).symm
    | succ n =>
      -- both pointers are still below the end of the address space
      have hnext : nextByte d = d + 1 ∧ nextByte s = s + 1 := by
        unfold nextByte
        omega
      rw [hnext.1, hnext.2]
      exact ih (by omega) (by omega) (by omega)

/-- Copying downwards is right when the destination does not lie below the source. -/
theorem copyDown_eq (h : s ≤ d) (hd : d + n ≤ 2 ^ 64) (hs : s + n ≤ 2 ^ 64) :
    copyDown n ((d + n) % 2 ^ 64) ((s + n) % 2 ^ 64) m = copied m d s n := by
  induction n generalizing m with
  | zero => exact (copied_zero m d s).symm
  | succ n ih =>
    have hprev : prevByte ((d + (n + 1)) % 2 ^ 64) = (d + n) % 2 ^ 64 ∧
        prevByte ((s + (n + 1)) % 2 ^ 64) = (s + n) % 2 ^ 64 := by
      unfold prevByte
      omega
    have hlt : (d + n) % 2 ^ 64 = d + n ∧ (s + n) % 2 ^ 64 = s + n := by omega
    rw [copyDown, hprev.1, hprev.2, ih (by omega) (by omega), hlt.1, hlt.2, copied_concat h]

/-- The kernel copies downwards only where the ranges overlap and the destination is above. -/
theorem KString.memmove_eq (hd : d + n ≤ 2 ^ 64) (hs : s + n ≤ 2 ^ 64) :
    KString.memmove d s n m = (d, copied m d s n) := by
  unfold KString.memmove
  split
  · next hzero => rw [hzero, copied_zero]
  · split
    · next hover => rw [copyDown_eq (by omega) hd hs]
    · next hup => rw [copyUp_eq (by omega) hd hs]

/-- The library copies upwards exactly where the destination is below. -/
theorem Ulib.memmove_eq (hd : d + n ≤ 2 ^ 64) (hs : s + n ≤ 2 ^ 64) :
    Ulib.memmove d s n m = (d, copied m d s n) := by
  unfold Ulib.memmove
  have hcast (p : Nat) : (((p : Int) + n) % 2 ^ 64).toNat = (p + n) % 2 ^ 64 := by omega
  split
  · next hup => rw [Int.toNat_natCast, copyUp_eq (by omega) hd hs]
  · next hdown => rw [Int.toNat_natCast, hcast, hcast, copyDown_eq (by omega) hd hs]

end

/-- The bytes from `src` of `m` are at `dst` of `m'`, and every other byte is as before. -/
structure Moved (m m' : Memory) (dst src n : Nat) : Prop where
  bytes : ∀ i, i < n → m' (dst + i) = m (src + i)
  frame : ∀ a, a < dst ∨ dst + n ≤ a → m' a = m a

theorem moved_copied (m : Memory) (dst src n : Nat) : Moved m (copied m dst src n) dst src n := by
  refine ⟨?_, ?_⟩
  · intro i hi
    rw [copied, if_pos (by omega), Nat.add_sub_cancel_left]
  · intro a ha
    rw [copied, if_neg (by omega)]

/-- Both `memmove`s copy ranges that do not wrap around, wherever they lie, and agree. -/
theorem memmoves_copy (m : Memory) {dst src n : Nat} (hdst : dst + n ≤ 2 ^ 64)
    (hsrc : src + n ≤ 2 ^ 64) :
    Moved m (KString.memmove dst src n m).2 dst src n ∧
      Moved m (Ulib.memmove dst src n m).2 dst src n ∧
      KString.memmove dst src n m = Ulib.memmove dst src n m := by
  rw [KString.memmove_eq hdst hsrc, Ulib.memmove_eq hdst hsrc]
  exact ⟨moved_copied m dst src n, moved_copied m dst src n, rfl⟩

/-- Three bytes move up by one, over two of themselves. -/
theorem memmoves_copy_overlap :
    Moved (fun a ↦ UInt8.ofNat a) (KString.memmove 101 100 3 (fun a ↦ UInt8.ofNat a)).2 101 100 3 ∧
      Moved (fun a ↦ UInt8.ofNat a) (Ulib.memmove 101 100 3 (fun a ↦ UInt8.ofNat a)).2 101 100 3 ∧
      KString.memmove 101 100 3 (fun a ↦ UInt8.ofNat a) =
      Ulib.memmove 101 100 3 (fun a ↦ UInt8.ofNat a) :=
  memmoves_copy (fun a ↦ UInt8.ofNat a) (by decide) (by decide)

end Xv6
