import Mathlib.Logic.Basic

/-!
# Counters

A counter is incremented and decremented by one: a number, or a machine word that may wrap. What
it shows is the number of increments that were not undone, however often it wrapped.
-/

namespace Xv6.Lib

/-- Decrements undo increments, and 1 comes after 0. -/
class Counter (R : Type) [Add R] [Sub R] [OfNat R 0] [OfNat R 1] : Prop where
  add_sub (r : R) : r + 1 - 1 = r
  zero_add : (0 : R) + 1 = 1
  one_ne_zero : (1 : R) ≠ 0

instance : Counter Nat := ⟨fun r ↦ Nat.add_sub_cancel r 1, rfl, Nat.one_ne_zero⟩

instance : Counter UInt32 := ⟨fun r ↦ UInt32.add_sub_cancel r 1, rfl, by decide⟩

section
variable (R : Type) [Add R] [OfNat R 0] [OfNat R 1]

/-- A counter after `n` increments. -/
def tally : Nat → R
  | 0 => 0
  | n + 1 => tally n + 1

variable [Sub R] [Counter R]

theorem tally_succ_sub (n : Nat) : tally R (n + 1) - 1 = tally R n := Counter.add_sub _

/-- The increment of a counter that shows 0. -/
theorem tally_succ_of_zero {n : Nat} (h : tally R n = 0) : tally R (n + 1) = 1 := by
  rw [tally, h]
  exact Counter.zero_add

/-- A counter that a decrement takes to 0 did not show 0. -/
theorem tally_succ_ne_zero {n : Nat} (h : tally R n = 0) : tally R (n + 1) ≠ 0 := by
  rw [tally_succ_of_zero R h]
  exact Counter.one_ne_zero

theorem tally_nat (n : Nat) : tally Nat n = n := by
  induction n with
  | zero => rfl
  | succ n ih => rw [tally, ih]

theorem tally_uint32 (n : Nat) : tally UInt32 n = UInt32.ofNat n := by
  induction n with
  | zero => rfl
  | succ n ih => rw [tally, ih, UInt32.ofNat_add]; rfl

end

end Xv6.Lib
