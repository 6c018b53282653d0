import Mathlib.Algebra.BigOperators.Group.Finset.Basic
import Mathlib.Data.Finset.Card

/-!
# A pool of cells with owners

Each of `n` cells is free or belongs to one of several owners. Cells are taken and given back in
lists. The free cells and the cells of the owners make up the pool.
-/

namespace Xv6.Lib

variable {ι : Type*} {n : Nat} {free free' : Nat → Bool} {own own' : ι → List Nat}

/-- Each cell below `n` is free or is owned once. -/
structure Pool (n : Nat) (free : Nat → Bool) (own : ι → List Nat) : Prop where
  lt : ∀ p, ∀ i ∈ own p, i < n
  taken : ∀ p, ∀ i ∈ own p, free i = false
  nodup : ∀ p, (own p).Nodup
  disjoint : ∀ p q, ∀ i ∈ own p, i ∈ own q → p = q
  owner : ∀ i < n, free i = false → ∃ p, i ∈ own p

namespace Pool

theorem congr (h : Pool n free own) (hown : ∀ p, own' p = own p) : Pool n free own' := by
  have : own' = own := funext hown
  rw [this]
  exact h

/-- Someone who has none takes free cells. -/
theorem take (h : Pool n free own) {p : ι} {l : List Nat} (hp : own p = [])
    (hl : ∀ i ∈ l, i < n ∧ free i = true) (hnodup : l.Nodup)
    (hfree : ∀ i, free' i = if i ∈ l then false else free i) (hself : own' p = l)
    (hother : ∀ q, q ≠ p → own' q = own q) : Pool n free' own' where
  lt q i hi := by
    by_cases hq : q = p
    · rw [hq, hself] at hi
      exact (hl i hi).1
    · rw [hother q hq] at hi
      exact h.lt q i hi
  taken q i hi := by
    rw [hfree]
    split
    · rfl
    · next hout =>
      by_cases hq : q = p
      · rw [hq, hself] at hi
        exact (hout hi).elim
      · rw [hother q hq] at hi
        exact h.taken q i hi
  nodup q := by
    by_cases hq : q = p
    · rw [hq, hself]
      exact hnodup
    · rw [hother q hq]
      exact h.nodup q
  disjoint q r i hi hi' := by
    have hsep {x : ι} (hx : x ≠ p) (hin : i ∈ own' x) : i ∉ l := by
      intro hmem
      rw [hother x hx] at hin
      have := h.taken x i hin
      rw [(hl i hmem).2] at this
      cases this
    by_cases hq : q = p
    · by_cases hr : r = p
      · rw [hq, hr]
      · rw [hq, hself] at hi
        exact (hsep hr hi' hi).elim
    · by_cases hr : r = p
      · rw [hr, hself] at hi'
        exact (hsep hq hi hi').elim
      · rw [hother q hq] at hi
        rw [hother r hr] at hi'
        exact h.disjoint q r i hi hi'
  owner i hi hused := by
    rw [hfree] at hused
    split at hused
    · next hmem => exact ⟨p, by rw [hself]; exact hmem⟩
    · obtain ⟨q, hq⟩ := h.owner i hi hused
      have hne : q ≠ p := by
        rintro rfl
        rw [hp] at hq
        cases hq
      exact ⟨q, by rw [hother q hne]; exact hq⟩

/-- Someone gives back all its cells. -/
theorem give (h : Pool n free own) {p : ι}
    (hfree : ∀ i, free' i = if i ∈ own p then true else free i) (hself : own' p = [])
    (hother : ∀ q, q ≠ p → own' q = own q) : Pool n free' own' := by
  have hne {q : ι} {i : Nat} (hi : i ∈ own' q) : q ≠ p := by
    rintro rfl
    rw [hself] at hi
    cases hi
  have hold {q : ι} {i : Nat} (hi : i ∈ own' q) : i ∈ own q := by
    rw [← hother q (hne hi)]
    exact hi
  refine ⟨fun q i hi ↦ h.lt q i (hold hi), ?_, ?_, ?_, ?_⟩
  · intro q i hi
    rw [hfree, if_neg]
    · exact h.taken q i (hold hi)
    · intro hp
      exact hne hi (h.disjoint q p i (hold hi) hp)
  · intro q
    by_cases hq : q = p
    · rw [hq, hself]
      exact List.nodup_nil
    · rw [hother q hq]
      exact h.nodup q
  · intro q r i hi hi'
    exact h.disjoint q r i (hold hi) (hold hi')
  · intro i hi hused
    rw [hfree] at hused
    split at hused
    · cases hused
    · next hout =>
      obtain ⟨q, hq⟩ := h.owner i hi hused
      have hqp : q ≠ p := by
        rintro rfl
        exact hout hq
      exact ⟨q, by rw [hother q hqp]; exact hq⟩

/-- The free cells and the cells of all owners together are the pool. -/
theorem card [Fintype ι] (h : Pool n free own) :
    ((Finset.range n).filter (fun i ↦ free i = true)).card + ∑ p, (own p).length = n := by
  classical
  have hunion : (Finset.range n).filter (fun i ↦ ¬ free i = true) =
      Finset.univ.biUnion (fun p ↦ (own p).toFinset) := by
    ext i
    simp only [Finset.mem_filter, Finset.mem_range, Finset.mem_biUnion, Finset.mem_univ, true_and,
      List.mem_toFinset, Bool.not_eq_true]
    constructor
    · rintro ⟨hi, hused⟩
      exact h.owner i hi hused
    · rintro ⟨p, hp⟩
      exact ⟨h.lt p i hp, h.taken p i hp⟩
  have hsum : ((Finset.range n).filter (fun i ↦ ¬ free i = true)).card = ∑ p, (own p).length := by
    rw [hunion, Finset.card_biUnion]
    · apply Finset.sum_congr rfl
      intro p _
      exact List.toFinset_card_of_nodup (h.nodup p)
    · intro p _ q _ hpq
      rw [Function.onFun, Finset.disjoint_left]
      intro i hi hi'
      exact hpq (h.disjoint p q i (List.mem_toFinset.mp hi) (List.mem_toFinset.mp hi'))
  rw [← hsum, Finset.card_filter_add_card_filter_not, Finset.card_range]

end Pool

end Xv6.Lib
