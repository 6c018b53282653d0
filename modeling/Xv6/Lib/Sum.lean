import Mathlib.Algebra.BigOperators.Fin
import Mathlib.Algebra.BigOperators.Group.Finset.Basic
import Mathlib.Algebra.Order.BigOperators.Group.Finset

/-!
# Totals over a finite type that change at one place

Sums of a function, and the number of times a function takes a value.
-/

namespace Xv6.Lib

variable {ι : Type*} [Fintype ι]

/-- Two functions that differ at `p` only have totals that differ by their values there. -/
theorem sum_add_of_eq_off {f g : ι → Nat} (p : ι) (h : ∀ q, q ≠ p → f q = g q) :
    ∑ q, f q + g p = ∑ q, g q + f p := by
  classical
  have hrest : ∑ q ∈ Finset.univ.erase p, f q = ∑ q ∈ Finset.univ.erase p, g q := by
    apply Finset.sum_congr rfl
    intro q hq
    exact h q (Finset.ne_of_mem_erase hq)
  rw [← Finset.add_sum_erase Finset.univ f (Finset.mem_univ p),
    ← Finset.add_sum_erase Finset.univ g (Finset.mem_univ p), hrest]
  omega

/-- One summand is at most the total. -/
theorem le_sum (f : ι → Nat) (p : ι) : f p ≤ ∑ q, f q :=
  Finset.single_le_sum (fun _ _ ↦ Nat.zero_le _) (Finset.mem_univ p)

section
variable {α : Type*} [DecidableEq α]

/-- How often `f` takes the value `b`. -/
def hits (f : ι → α) (b : α) : Nat := ∑ k, if f k = b then 1 else 0

theorem hits_pos_iff {f : ι → α} {b : α} : 0 < hits f b ↔ ∃ k, f k = b := by
  constructor
  · intro h
    by_contra hn
    have hzero : hits f b = 0 := by
      apply Finset.sum_eq_zero
      intro k _
      rw [if_neg]
      exact fun hk ↦ hn ⟨k, hk⟩
    omega
  · rintro ⟨k, hk⟩
    have hle := le_sum (fun k ↦ if f k = b then 1 else 0) k
    rw [if_pos hk] at hle
    exact hle

theorem hits_eq_zero {f : ι → α} {b : α} (h : ∀ k, f k ≠ b) : hits f b = 0 := by
  apply Finset.sum_eq_zero
  intro k _
  rw [if_neg (h k)]

/-- A value taken once is taken at one place. -/
theorem eq_of_hits_le_one {f : ι → α} {b : α} (h : hits f b ≤ 1) {j k : ι} (hj : f j = b)
    (hk : f k = b) : j = k := by
  classical
  by_contra hne
  have hpair : ∑ x ∈ {j, k}, (if f x = b then 1 else 0) ≤ hits f b :=
    Finset.sum_le_sum_of_subset (Finset.subset_univ _)
  rw [Finset.sum_pair hne, if_pos hj, if_pos hk] at hpair
  omega

/-- Changing one value of `f`. -/
theorem hits_of_eq_off {f g : ι → α} (p : ι) (h : ∀ q, q ≠ p → f q = g q) (b : α) :
    hits f b + (if g p = b then 1 else 0) = hits g b + if f p = b then 1 else 0 := by
  apply sum_add_of_eq_off p
  intro q hq
  rw [h q hq]

/-- The number of hits is the number of indices with that value. -/
theorem countP_finRange {n : Nat} (f : Fin n → α) (b : α) :
    (List.finRange n).countP (fun k ↦ decide (f k = b)) = hits f b := by
  have hsum (l : List (Fin n)) : l.countP (fun k ↦ decide (f k = b)) =
      (l.map (fun k ↦ if f k = b then 1 else 0)).sum := by
    induction l with
    | nil => rfl
    | cons k l ih =>
      rw [List.countP_cons, ih, List.map_cons, List.sum_cons, Nat.add_comm]
      simp
  rw [hsum, hits, Fin.sum_univ_def]

/-- The number of hits of a partial function is the number of occurrences in the list of its
values. -/
theorem count_filterMap_finRange {n : Nat} (f : Fin n → Option α) (b : α) :
    ((List.finRange n).filterMap f).count b = hits f (some b) := by
  rw [List.count_filterMap, ← countP_finRange]
  apply List.countP_congr
  intro k _
  simp

/-- The number of hits is the number of occurrences in the list of values. -/
theorem count_ofFn {n : Nat} (f : Fin n → α) (b : α) : (List.ofFn f).count b = hits f b := by
  induction n with
  | zero => simp [hits]
  | succ n ih =>
    rw [List.ofFn_succ, List.count_cons, ih, hits, hits, Fin.sum_univ_succ, Nat.add_comm]
    simp

end

end Xv6.Lib
