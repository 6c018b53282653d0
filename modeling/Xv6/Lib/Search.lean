import Mathlib.Data.List.Nodup
import Mathlib.Logic.Basic

/-!
# Linear search

The loop `for(i = start; i < start + n; i++) if(p(i)) break;` and what it finds.
-/

namespace Xv6.Lib

/-- The first `k` from `i` on, among `n` candidates, with `p k`. -/
def firstFrom (p : Nat → Bool) (i : Nat) : Nat → Option Nat
  | 0 => none
  | n + 1 => if p i then some i else firstFrom p (i + 1) n

/-- The search returns the least candidate with the property. -/
theorem firstFrom_eq_some {p : Nat → Bool} {i n k : Nat} (h : firstFrom p i n = some k) :
    i ≤ k ∧ k < i + n ∧ p k = true ∧ ∀ j, i ≤ j → j < k → p j = false := by
  induction n generalizing i with
  | zero => cases h
  | succ n ih =>
    rw [firstFrom] at h
    split at h
    · next hi =>
      cases Option.some.inj h
      exact ⟨Nat.le_refl _, by omega, hi, fun j hlo hhi ↦ by omega⟩
    · next hi =>
      obtain ⟨hlo, hhi, hk, hbefore⟩ := ih h
      refine ⟨by omega, by omega, hk, ?_⟩
      intro j hj hjk
      by_cases hji : j = i
      · rw [hji]
        simpa using hi
      · exact hbefore j (by omega) hjk

/-- The search fails only when no candidate has the property. -/
theorem firstFrom_eq_none {p : Nat → Bool} {i n : Nat} (h : firstFrom p i n = none) :
    ∀ j, i ≤ j → j < i + n → p j = false := by
  induction n generalizing i with
  | zero =>
    intro j hlo hhi
    omega
  | succ n ih =>
    rw [firstFrom] at h
    split at h
    · cases h
    · next hi =>
      intro j hlo hhi
      by_cases hji : j = i
      · rw [hji]
        simpa using hi
      · exact ih h j (by omega) (by omega)

/-- Two tests that differ at one element of a list, which one of them accepts. -/
theorem countP_eq_add_one {α : Type*} {p q : α → Bool} {x : α} (hp : p x = true) (hq : q x = false)
    (h : ∀ y, y ≠ x → p y = q y) {l : List α} (hl : l.Nodup) (hx : x ∈ l) :
    l.countP p = l.countP q + 1 := by
  induction l with
  | nil => cases hx
  | cons y l ih =>
    rw [List.nodup_cons] at hl
    rcases List.mem_cons.mp hx with heq | hmem
    · subst heq
      have hrest : l.countP p = l.countP q := by
        apply List.countP_congr
        intro z hz
        rw [h z (fun he ↦ hl.1 (he ▸ hz))]
      rw [List.countP_cons_of_pos hp, List.countP_cons_of_neg (by simp [hq]), hrest]
    · have hne : y ≠ x := fun he ↦ hl.1 (he ▸ hmem)
      rw [List.countP_cons, List.countP_cons, ih hl.2 hmem, h y hne]
      omega

end Xv6.Lib
