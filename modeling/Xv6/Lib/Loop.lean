/-!
# Loops that end

A loop is a function from the state before a round to the state after it, or to the result when
the loop ends there. A model of the loop by recursion on fuel is the loop itself once each round
takes something away.
-/

namespace Xv6.Lib

universe u v

variable {σ : Type u} {ρ : Type v}

/-- The result of the loop, if it ends within `n` rounds. -/
def rounds (body : σ → σ ⊕ ρ) : Nat → σ → Option ρ
  | 0, _ => none
  | n + 1, s =>
    match body s with
    | .inl t => rounds body n t
    | .inr r => some r

/-- Each round leaves less to do, so that with enough fuel `f` is what the loop returns, and
`left` bounds the rounds that go on. -/
theorem rounds_eq {body : σ → σ ⊕ ρ} (f : Nat → σ → ρ) (size left : σ → Nat)
    (hnone : ∀ s, size s = 0 → body s = .inr (f 0 s))
    (hlast : ∀ fuel s r, body s = .inr r → f (fuel + 1) s = r)
    (hnext : ∀ fuel s t, body s = .inl t → f (fuel + 1) s = f fuel t ∧ size t < size s ∧
      left t < left s)
    {fuel n : Nat} {s : σ} (hfuel : size s ≤ fuel) (hn : left s ≤ n) :
    rounds body (n + 1) s = some (f fuel s) := by
  induction fuel generalizing n s with
  | zero => rw [rounds, hnone s (Nat.le_zero.mp hfuel)]
  | succ fuel ih =>
    rw [rounds]
    cases hb : body s with
    | inr r => exact congrArg some (hlast fuel s r hb).symm
    | inl t =>
      obtain ⟨hf, hsize, hleft⟩ := hnext fuel s t hb
      cases n with
      | zero => omega
      | succ n =>
        rw [hf]
        exact ih (by omega) (by omega)

end Xv6.Lib
