import Mathlib.Data.List.Basic
import Mathlib.Data.Nat.ModEq
import Mathlib.Logic.Function.Basic

/-!
# A ring buffer under free-running counters

A ring of `size` cells is indexed by 32-bit counters that wrap. When `size` divides `2 ^ 32` the
cell of a counter does not notice the wrap. A window is what the ring holds from a counter on.
-/

namespace Xv6.Lib

variable {α : Type*} {size : Nat} [NeZero size]

/-- The cell of a counter. -/
def cell (size : Nat) [NeZero size] (c : UInt32) : Fin size := Fin.ofNat size c.toNat

/-- The `n` elements from counter `c` on. -/
def window (data : Fin size → α) (c : UInt32) (n : Nat) : List α :=
  (List.range n).map (fun j ↦ data (cell size (c + UInt32.ofNat j)))

theorem cell_add (hsize : size ∣ 2 ^ 32) (c : UInt32) (j : Nat) :
    (cell size (c + UInt32.ofNat j)).val = (c.toNat + j) % size := by
  simp only [cell, Fin.val_ofNat, UInt32.toNat_add, UInt32.toNat_ofNat', Nat.add_mod_mod]
  exact Nat.mod_mod_of_dvd _ hsize

/-- Counters less than `size` apart have different cells. -/
theorem cell_ne (hsize : size ∣ 2 ^ 32) {c : UInt32} {i j : Nat} (hij : i < j) (hj : j < i + size) :
    cell size (c + UInt32.ofNat i) ≠ cell size (c + UInt32.ofNat j) := by
  intro h
  have hval := congrArg Fin.val h
  rw [cell_add hsize, cell_add hsize] at hval
  have hdvd : size ∣ (c.toNat + j) - (c.toNat + i) :=
    (Nat.modEq_iff_dvd' (by omega)).mp hval
  have := Nat.le_of_dvd (by omega) hdvd
  omega

theorem add_ofNat_add (c : UInt32) (m n : Nat) :
    c + UInt32.ofNat m + UInt32.ofNat n = c + UInt32.ofNat (m + n) := by
  rw [UInt32.add_assoc, UInt32.ofNat_add]

/-- A window is cut in two. -/
theorem window_add (data : Fin size → α) (c : UInt32) (m n : Nat) :
    window data c (m + n) = window data c m ++ window data (c + UInt32.ofNat m) n := by
  simp only [window, List.range_add, List.map_append, List.map_map, Function.comp_def,
    add_ofNat_add]

theorem window_one (data : Fin size → α) (c : UInt32) : window data c 1 = [data (cell size c)] := by
  have hzero : c + UInt32.ofNat 0 = c := UInt32.add_zero c
  rw [window, List.range_one, List.map_singleton, hzero]

/-- A write behind a window that leaves room does not touch it. -/
theorem window_update (hsize : size ∣ 2 ^ 32) (data : Fin size → α) (c : UInt32) {n : Nat}
    (hn : n < size) (x : α) :
    window (Function.update data (cell size (c + UInt32.ofNat n)) x) c n = window data c n := by
  apply List.map_congr_left
  intro j hj
  rw [List.mem_range] at hj
  exact Function.update_of_ne (cell_ne hsize hj (by omega)) _ _

/-- An element is written at the end of a window. -/
theorem window_push (hsize : size ∣ 2 ^ 32) (data : Fin size → α) (c : UInt32) {n : Nat}
    (hn : n < size) (x : α) :
    window (Function.update data (cell size (c + UInt32.ofNat n)) x) c (n + 1) =
      window data c n ++ [x] := by
  rw [window_add, window_update hsize data c hn, window_one, Function.update_self]

end Xv6.Lib
