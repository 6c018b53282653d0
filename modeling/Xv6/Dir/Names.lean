import Xv6.Lib.Bytes

/-!
# Names of directory entries

`strncmp` and `strncpy` of `kernel/string.c`, and `skipelem` of `kernel/fs.c`. A name is the memory
from a pointer on, of which at most `DIRSIZ` bytes are looked at. What counts of a name are the
bytes up to the first zero, or `DIRSIZ` of them: comparison, copy and path parsing agree on that.
-/

namespace Xv6.Dir

/-- Length of the name of a directory entry; `kernel/fs.h:54`. -/
def DIRSIZ : Nat := 14

/-- The bytes from a pointer on. -/
abbrev Name := Nat → UInt8

/-- `strncmp` of the bytes from index `k` on; `kernel/string.c:60–68`. -/
def strncmpFrom (p q : Name) (k : Nat) : Nat → Int
  | 0 => 0
  | n + 1 =>
    if p k ≠ 0 ∧ p k = q k then strncmpFrom p q (k + 1) n else (p k).toNat - (q k).toNat

/-- `namecmp`; `kernel/fs.c:543–547`. -/
def namecmp (s t : Name) : Int := strncmpFrom s t 0 DIRSIZ

/-- The `n` bytes that `strncpy` stores, from index `k` of the source on;
`kernel/string.c:70–81`. -/
def strncpyFrom (t : Name) (k : Nat) : Nat → List UInt8
  | 0 => []
  | n + 1 => if t k = 0 then 0 :: List.replicate n 0 else t k :: strncpyFrom t (k + 1) n

/-- `memmove` of bytes to the start of a buffer. -/
def memmove (name : Name) (xs : List UInt8) : Name := fun k ↦ (xs[k]?).getD (name k)

/-- The character that separates path elements. -/
def slash : UInt8 := 47

/-- `skipelem`: the rest of the path, given without its final zero, and the buffer `name`, which
keeps its other bytes; `kernel/fs.c:622–645`. -/
def skipelem (path : List UInt8) (name : Name) : Option (List UInt8 × Name) :=
  let path := path.dropWhile (· = slash)
  if path = [] then none
  else
    let s := path.takeWhile (· ≠ slash)
    let name :=
      if DIRSIZ ≤ s.length then memmove name (s.take DIRSIZ)
      else Function.update (memmove name s) s.length 0
    some ((path.dropWhile (· ≠ slash)).dropWhile (· = slash), name)

/-! ### Keys -/

/-- The bytes of a name from index `k` on up to the first zero, `n` at most. -/
def keyFrom (s : Name) (k : Nat) : Nat → List UInt8
  | 0 => []
  | n + 1 => if s k = 0 then [] else s k :: keyFrom s (k + 1) n

/-- What counts of a name. -/
def key (s : Name) : List UInt8 := keyFrom s 0 DIRSIZ

theorem keyFrom_congr {s t : Name} {k n : Nat} (h : ∀ j, k ≤ j → j < k + n → s j = t j) :
    keyFrom s k n = keyFrom t k n := by
  induction n generalizing k with
  | zero => rfl
  | succ n ih =>
    rw [keyFrom, keyFrom, h k (le_refl _) (by omega),
      ih (fun j hlo hhi ↦ h j (by omega) (by omega))]

theorem strncmpFrom_eq_zero (p q : Name) (k n : Nat) :
    strncmpFrom p q k n = 0 ↔ keyFrom p k n = keyFrom q k n := by
  induction n generalizing k with
  | zero => exact ⟨fun _ ↦ rfl, fun _ ↦ rfl⟩
  | succ n ih =>
    rw [strncmpFrom, keyFrom, keyFrom]
    split
    · next h =>
      rw [← h.2, if_neg h.1, if_neg h.1, ih]
      constructor
      · intro he
        rw [he]
      · intro he
        exact (List.cons.inj he).2
    · next h =>
      by_cases hpq : p k = q k
      · have hz : p k = 0 := by
          by_contra hne
          exact h ⟨hne, hpq⟩
        rw [← hpq, hz, if_pos rfl, if_pos rfl]
        exact ⟨fun _ ↦ rfl, fun _ ↦ Int.sub_self _⟩
      · constructor
        · intro hsub
          apply (hpq _).elim
          apply UInt8.toNat_inj.mp
          omega
        · intro he
          apply (hpq _).elim
          split at he
          · next hp =>
            split at he
            · next hq => rw [hp, hq]
            · cases he
          · split at he
            · cases he
            · exact (List.cons.inj he).1

/-- Two names are equal for `namecmp` when they have the same key. -/
theorem namecmp_eq_zero (s t : Name) : namecmp s t = 0 ↔ key s = key t :=
  strncmpFrom_eq_zero s t 0 DIRSIZ

theorem length_strncpyFrom (t : Name) (k n : Nat) : (strncpyFrom t k n).length = n := by
  induction n generalizing k with
  | zero => rfl
  | succ n ih =>
    rw [strncpyFrom]
    split
    · rw [List.length_cons, List.length_replicate]
    · rw [List.length_cons, ih]

theorem keyFrom_succ (s : Name) (k n : Nat) :
    keyFrom s (k + 1) n = keyFrom (fun j ↦ s (j + 1)) k n := by
  induction n generalizing k with
  | zero => rfl
  | succ n ih => rw [keyFrom, keyFrom, ih]

/-- The stored name has the key of the name. -/
theorem keyFrom_strncpyFrom (t : Name) (k n : Nat) :
    keyFrom (fun j ↦ (strncpyFrom t k n).getD j 0) 0 n = keyFrom t k n := by
  induction n generalizing k with
  | zero => rfl
  | succ n ih =>
    rw [strncpyFrom, keyFrom, keyFrom]
    split
    · exact if_pos rfl
    · next hne =>
      rw [if_neg (by simpa using hne), keyFrom_succ]
      simp only [List.getD_cons_zero, List.getD_cons_succ, ih]

/-- Bytes without a zero in front of a zero, or filling the name. -/
theorem keyFrom_of_bytes {s : Name} {xs : List UInt8} {k n : Nat} (hxs : ∀ x ∈ xs, x ≠ 0)
    (hget : ∀ j (hj : j < xs.length), s (k + j) = xs[j]) (hlen : xs.length ≤ n)
    (hend : xs.length < n → s (k + xs.length) = 0) : keyFrom s k n = xs := by
  induction xs generalizing k n with
  | nil =>
    cases n with
    | zero => rfl
    | succ n =>
      rw [keyFrom]
      exact if_pos (hend (Nat.succ_pos n))
  | cons x xs ih =>
    rw [List.length_cons] at hlen hend
    cases n with
    | zero => omega
    | succ n =>
      have hhead : s k = x := hget 0 (Nat.succ_pos _)
      rw [keyFrom, hhead, if_neg (hxs x List.mem_cons_self)]
      congr 1
      apply ih (fun y hy ↦ hxs y (List.mem_cons_of_mem x hy))
      · intro j hj
        have := hget (j + 1) (by rw [List.length_cons]; omega)
        rw [show k + (j + 1) = k + 1 + j by omega] at this
        exact this
      · omega
      · intro hlt
        have := hend (by omega)
        rw [show k + (xs.length + 1) = k + 1 + xs.length by omega] at this
        exact this

/-- The key of the name that `skipelem` stores is the first element of the path, cut after `DIRSIZ`
bytes, whatever was in the buffer. -/
theorem key_skipelem {path rest : List UInt8} {buf name : Name} (hpath : ∀ x ∈ path, x ≠ 0)
    (h : skipelem path buf = some (rest, name)) :
    key name = ((path.dropWhile (· = slash)).takeWhile (· ≠ slash)).take DIRSIZ := by
  unfold skipelem at h
  dsimp only at h
  split at h
  · cases h
  · simp only [Option.some.injEq, Prod.mk.injEq] at h
    obtain ⟨-, hname⟩ := h
    generalize hs : (path.dropWhile (· = slash)).takeWhile (· ≠ slash) = s at hname ⊢
    have hzero : ∀ x ∈ s.take DIRSIZ, x ≠ 0 := by
      intro x hx
      apply hpath
      apply (List.dropWhile_sublist _).mem
      apply (List.takeWhile_sublist _).mem
      rw [hs]
      exact List.mem_of_mem_take hx
    rw [← hname]
    split
    · next hlong =>
      have hlen : (s.take DIRSIZ).length = DIRSIZ := by
        rw [List.length_take]
        omega
      apply keyFrom_of_bytes hzero
      · intro j hj
        rw [Nat.zero_add, memmove, List.getElem?_eq_getElem hj]
        rfl
      · omega
      · omega
    · next hshort =>
      have hall : s.take DIRSIZ = s := List.take_of_length_le (by omega)
      rw [hall] at hzero ⊢
      apply keyFrom_of_bytes hzero
      · intro j hj
        rw [Nat.zero_add, Function.update_of_ne (by omega), memmove, List.getElem?_eq_getElem hj]
        rfl
      · omega
      · intro _
        rw [Nat.zero_add, Function.update_self]

end Xv6.Dir
