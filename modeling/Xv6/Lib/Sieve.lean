import Mathlib.Data.List.Basic

/-!
# Sieves

A sieve takes the first element of a list, drops what that element strikes out, and goes on with
the rest. What is left is what no element that was kept before strikes out.
-/

namespace Xv6.Lib

universe u

variable {α : Type u} (strikes : α → α → Bool)

/-- Take the first element, filter the rest with it, and go on with what is left. -/
def sieve : List α → List α
  | [] => []
  | x :: xs => x :: sieve (xs.filter (fun y ↦ !strikes x y))
termination_by xs => xs.length
decreasing_by
  rw [List.length_unattach, List.length_cons]
  have hle := List.length_filter_le (fun y : { y // y ∈ xs } ↦ !strikes x y.1) xs.attach
  rw [List.length_attach] at hle
  exact Nat.lt_succ_of_le hle

/-- The elements that none of `seen`, and none that is kept before them, strikes out. -/
def kept (seen : List α) : List α → List α
  | [] => []
  | x :: xs => if seen.any (strikes · x) then kept seen xs else x :: kept (seen ++ [x]) xs

variable {strikes}

theorem sieve_filter (seen xs : List α) :
    sieve strikes (xs.filter (fun y ↦ !seen.any (strikes · y))) = kept strikes seen xs := by
  induction xs generalizing seen with
  | nil => rw [List.filter_nil, sieve, kept]
  | cons x xs ih =>
    rw [kept, List.filter_cons]
    cases hx : seen.any (strikes · x) with
    | true => exact ih seen
    | false =>
      have hboth : xs.filter (fun y ↦ !(seen ++ [x]).any (strikes · y)) =
          (xs.filter (fun y ↦ !seen.any (strikes · y))).filter (fun y ↦ !strikes x y) := by
        rw [List.filter_filter]
        apply List.filter_congr
        intro y _
        rw [List.any_append, Bool.not_or, List.any_cons, List.any_nil, Bool.or_false, Bool.and_comm]
      simp only [Bool.not_false, if_true, Bool.false_eq_true, if_false]
      rw [sieve, ← hboth, ih]

/-- The sieve keeps what no element that it kept before strikes out. -/
theorem sieve_eq_kept (xs : List α) : sieve strikes xs = kept strikes [] xs := by
  rw [← sieve_filter, List.filter_eq_self.mpr]
  intro y _
  rfl

end Xv6.Lib
