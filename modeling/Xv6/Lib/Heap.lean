import Mathlib.Algebra.Group.Nat.Defs
import Mathlib.Algebra.Group.Pi.Basic
import Mathlib.Data.List.Count

/-!
# Cells with owners

A heap of cells, some of them on a free list. An owner is described by how often it counts
each cell. `Moves` says that an operation passes cells between the free list and its own, and
changes no other cell; it composes, and others may be added on both sides. `Once` says that no
cell is counted twice.
-/

namespace Xv6.Lib

variable {α β : Type*} [DecidableEq α]

/-- Contents by cell, and the free list. -/
structure Heap (α β : Type*) where
  cells : α → β
  free : List α

/-- The count of a single cell. -/
def one (p q : α) : Nat := if q = p then 1 else 0

@[simp] theorem one_self (p : α) : one p p = 1 := if_pos rfl

theorem one_of_ne {p q : α} (h : q ≠ p) : one p q = 0 := if_neg h

/-- No cell is on the free list or owned more than once in all. -/
def Once (h : Heap α β) (own : α → Nat) : Prop := ∀ q, h.free.count q + own q ≤ 1

/-- An operation that owns `own` before and `own'` after it. -/
structure Moves (h h' : Heap α β) (own own' : α → Nat) : Prop where
  count : ∀ q, h'.free.count q + own' q = h.free.count q + own q
  cells : ∀ q, h.free.count q = 0 → own q = 0 → h'.cells q = h.cells q

variable {h h' h'' : Heap α β} {own own' own'' extra : α → Nat}

theorem Moves.refl (h : Heap α β) (own : α → Nat) : Moves h h own own :=
  ⟨fun _ ↦ rfl, fun _ _ _ ↦ rfl⟩

theorem Moves.trans (m : Moves h h' own own') (m' : Moves h' h'' own' own'') :
    Moves h h'' own own'' := by
  refine ⟨?_, ?_⟩
  · intro q
    rw [m'.count, m.count]
  · intro q hfree hown
    have := m.count q
    rw [m'.cells q (by omega) (by omega), m.cells q hfree hown]

/-- What the operation does not own stays as it is. -/
theorem Moves.add (m : Moves h h' own own') (extra : α → Nat) :
    Moves h h' (own + extra) (own' + extra) := by
  refine ⟨?_, ?_⟩
  · intro q
    have := m.count q
    simp only [Pi.add_apply]
    omega
  · intro q hfree hown
    exact m.cells q hfree (Nat.eq_zero_of_add_eq_zero_right hown)

/-- The same operation, with its cells counted in another way. -/
theorem Moves.congr (m : Moves h h' own own') {own₁ own₁' : α → Nat} (e : own₁ = own)
    (e' : own₁' = own') : Moves h h' own₁ own₁' := by
  rw [e, e']
  exact m

/-- A store into cells that are owned. -/
theorem Moves.store (hfree : h'.free = h.free) (hcells : ∀ q, own q = 0 → h'.cells q = h.cells q) :
    Moves h h' own own :=
  ⟨fun q ↦ by rw [hfree], fun q _ hq ↦ hcells q hq⟩

theorem Moves.once (m : Moves h h' own own') (hown : Once h own) : Once h' own' := by
  intro q
  rw [m.count]
  exact hown q

theorem Once.mono (ho : Once h own) (hle : ∀ q, own' q ≤ own q) : Once h own' := by
  intro q
  have h1 := ho q
  have h2 := hle q
  omega

/-- Others' cells are not touched. -/
theorem Moves.cells_of_pos {e : α → Nat} (m : Moves h h' own own') (ho : Once h (own + e)) {q : α}
    (hq : 0 < e q) : h'.cells q = h.cells q := by
  have := ho q
  rw [Pi.add_apply] at this
  exact m.cells q (by omega) (by omega)

end Xv6.Lib
