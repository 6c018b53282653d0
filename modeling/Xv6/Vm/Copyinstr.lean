import Xv6.Vm.Calls
import Xv6.Vm.Copyin

/-!
# Strings of the process

`copyinstr` (`kernel/vm.c:402–439`) copies a string up to its NUL, page by page, and gives up after
`max` bytes. Here is when it succeeds and what it copies, and what that means for the paths that
`argstr` (`kernel/syscall.c:74`) returns.
-/

namespace Xv6.Vm

open Xv6.Lib

/-- At `va` the process has a string of `k` characters and its NUL, all accessible. -/
structure UserString (m : Mem) (pt va k : Nat) : Prop where
  accessible : ∀ i ≤ k, Accessible m pt (va + i)
  chars : ∀ i < k, userByte m pt (va + i) ≠ some 0
  nul : userByte m pt (va + k) = some 0

section
variable {m : Mem} {pt va : Nat}

/-- The length of a string is determined. -/
theorem UserString.unique {j k : Nat} (hj : UserString m pt va j) (hk : UserString m pt va k) :
    j = k := by
  rcases Nat.lt_trichotomy j k with hlt | heq | hgt
  · exact (hk.chars j hlt hj.nul).elim
  · exact heq
  · exact (hj.chars k hgt hk.nul).elim

/-- A page without a NUL belongs to the characters of a string that goes on. -/
theorem UserString.next_iff {k : Nat} (hacc : Accessible m pt va)
    (hchars : ∀ i < PGSIZE - va % PGSIZE, userByte m pt (va + i) ≠ some 0) :
    UserString m pt va (PGSIZE - va % PGSIZE + k) ↔ UserString m pt (nextPage va) k := by
  constructor
  · intro h
    refine ⟨?_, ?_, ?_⟩
    · intro i hi
      rw [← next_add]
      exact h.accessible _ (by omega)
    · intro i hi
      rw [← next_add]
      exact h.chars _ (by omega)
    · rw [← next_add]
      exact h.nul
  · intro h
    refine ⟨?_, ?_, ?_⟩
    · intro i hi
      by_cases hlt : i < PGSIZE - va % PGSIZE
      · exact hacc.first hlt
      · have hi' := h.accessible (i - (PGSIZE - va % PGSIZE)) (by omega)
        rw [← next_add, Nat.add_sub_of_le (by omega)] at hi'
        exact hi'
    · intro i hi
      by_cases hlt : i < PGSIZE - va % PGSIZE
      · exact hchars i hlt
      · have hi' := h.chars (i - (PGSIZE - va % PGSIZE)) (by omega)
        rw [← next_add, Nat.add_sub_of_le (by omega)] at hi'
        exact hi'
    · rw [next_add]
      exact h.nul

theorem bytesAt_get {n i : Nat} (hi : i < (bytesAt m pt va n).length)
    (h : Accessible m pt (va + i)) :
    userByte m pt (va + i) = some (bytesAt m pt va n)[i] := by
  have hn : i < n := by
    rw [bytesAt_length] at hi
    exact hi
  rw [← bytesAt_getElem? hn h]
  exact List.getElem?_eq_getElem hi

/-- What the loops of `copyinstr` do: they find the string, or there is none within `max` bytes. -/
inductive Fetched (m : Mem) (pt va max : Nat) : Bool × List UInt8 → Prop
  | string (k : Nat) (hk : k < max) (h : UserString m pt va k) :
    Fetched m pt va max (true, bytesAt m pt va (k + 1))
  | none (n : Nat) (hn : n ≤ max) (h : ∀ k < max, ¬ UserString m pt va k) :
    Fetched m pt va max (false, bytesAt m pt va n)

theorem copyinstrLoop_spec {fuel max : Nat} (dst : List UInt8) (hfuel : max ≤ fuel) :
    ∃ r, Fetched m pt va max r ∧ copyinstrLoop m pt fuel va max dst = (r.1, dst ++ r.2) := by
  induction fuel generalizing va max dst with
  | zero =>
    refine ⟨_, Fetched.none 0 (Nat.zero_le max) (fun k hk ↦ by omega), ?_⟩
    rw [copyinstrLoop, bytesAt_zero, List.append_nil]
  | succ fuel ih =>
    rw [copyinstrLoop]
    dsimp only
    rw [walkaddr_page, sub_page]
    split
    · next hmax =>
      refine ⟨_, Fetched.none 0 (Nat.zero_le max) (fun k hk ↦ by omega), ?_⟩
      rw [bytesAt_zero, List.append_nil]
    next hmax =>
    split
    · next hpa =>
      refine ⟨_, Fetched.none 0 (Nat.zero_le max) ?_, ?_⟩
      · intro k _ hk
        exact accessible_iff.mp (hk.accessible 0 (Nat.zero_le k)) hpa
      · rw [bytesAt_zero, List.append_nil]
    next hpa =>
    have hacc := accessible_iff.mpr hpa
    rw [next_page hacc, read_page (Nat.min_le_left _ _)]
    have hpos : 0 < min (PGSIZE - va % PGSIZE) max := min_pos hmax
    generalize hc : min (PGSIZE - va % PGSIZE) max = c at hpos ⊢
    have hfirst (i : Nat) (hi : i < c) : Accessible m pt (va + i) := hacc.first (by omega)
    have hlen := bytesAt_length m pt va c
    split
    · next j hj =>
      obtain ⟨hjlen, hzero, hbefore⟩ := List.idxOf?_eq_some_iff.mp hj
      have hjc : j < c := by omega
      refine ⟨_, Fetched.string j (by omega) ⟨?_, ?_, ?_⟩, ?_⟩
      · intro i hi
        exact hfirst i (by omega)
      · intro i hi hbyte
        have hget : i < (bytesAt m pt va c).length := by omega
        rw [bytesAt_get hget (hfirst i (by omega))] at hbyte
        exact hbefore i hi (Option.some.inj hbyte)
      · rw [bytesAt_get hjlen (hfirst j hjc), hzero]
      · have hsplit : c = (j + 1) + (c - (j + 1)) := by omega
        rw [hsplit, bytesAt_add, List.take_left' (bytesAt_length m pt va (j + 1))]
    · next hnone =>
      have hchars (i : Nat) (hi : i < c) : userByte m pt (va + i) ≠ some 0 := by
        intro hbyte
        have hget : i < (bytesAt m pt va c).length := by omega
        rw [bytesAt_get hget (hfirst i hi)] at hbyte
        apply List.idxOf?_eq_none_iff.mp hnone
        rw [← Option.some.inj hbyte]
        exact List.getElem_mem _
      obtain ⟨r, hr, heq⟩ := @ih (nextPage va) (max - c) (dst ++ bytesAt m pt va c) (by omega)
      rw [heq]
      have hshort (k : Nat) (hk : k < c) : ¬ UserString m pt va k := fun h ↦ hchars k hk h.nul
      have happend (n : Nat) (hn : n ≤ max - c) :
          dst ++ bytesAt m pt va c ++ bytesAt m pt (nextPage va) n =
          dst ++ bytesAt m pt va (c + n) := by
        rw [List.append_assoc, bytesAt_add]
        by_cases hz : n = 0
        · rw [hz, bytesAt_zero, bytesAt_zero]
        · have hfull : c = PGSIZE - va % PGSIZE := by omega
          have hnext := next_add va 0
          rw [Nat.add_zero, Nat.add_zero] at hnext
          rw [hfull, hnext]
      cases hr with
      | string k hk h =>
        have hfull : c = PGSIZE - va % PGSIZE := by omega
        refine ⟨_, Fetched.string (c + k) (by omega) ?_, ?_⟩
        · rw [hfull] at hchars ⊢
          exact (UserString.next_iff hacc hchars).mpr h
        · rw [happend (k + 1) (by omega)]
          rfl
      | none n hn h =>
        refine ⟨_, Fetched.none (c + n) (by omega) ?_, ?_⟩
        · intro k hk hstr
          by_cases hkc : k < c
          · exact hshort k hkc hstr
          · have hfull : c = PGSIZE - va % PGSIZE := by omega
            apply h (k - c) (by omega)
            rw [hfull] at hchars
            apply (UserString.next_iff hacc hchars).mp
            rw [← hfull, Nat.add_sub_of_le (by omega)]
            exact hstr
        · rw [happend n hn]

theorem copyinstr_spec (m : Mem) (pt va max : Nat) :
    Fetched m pt va max (copyinstr m pt va max) := by
  obtain ⟨r, hr, heq⟩ := @copyinstrLoop_spec m pt va max max [] (Nat.le_refl max)
  rw [copyinstr, heq, List.nil_append]
  exact hr

theorem Fetched.length_le {max : Nat} {r : Bool × List UInt8} (h : Fetched m pt va max r) :
    r.2.length ≤ max := by
  cases h with
  | string k hk h =>
    rw [bytesAt_length]
    exact hk
  | none n hn h =>
    rw [bytesAt_length]
    exact hn

theorem Fetched.ok_iff {max : Nat} {r : Bool × List UInt8} (h : Fetched m pt va max r) :
    r.1 = true ↔ ∃ k < max, UserString m pt va k := by
  cases h with
  | string k hk h => exact ⟨fun _ ↦ ⟨k, hk, h⟩, fun _ ↦ rfl⟩
  | none n hn h =>
    refine ⟨(fun h ↦ nomatch h), ?_⟩
    rintro ⟨k, hk, hstr⟩
    exact (h k hk hstr).elim

theorem Fetched.eq_string {max k : Nat} {r : Bool × List UInt8} (h : Fetched m pt va max r)
    (hk : k < max) (hstr : UserString m pt va k) : r = (true, bytesAt m pt va (k + 1)) := by
  cases h with
  | string j hj h => rw [h.unique hstr]
  | none n hn h => exact (h k hk hstr).elim

/-- Two tables and memories agree on the user pages from `u` to `v`. -/
def SamePages (m m' : Mem) (pt pt' u v : Nat) : Prop :=
  ∀ w, u ≤ w → w ≤ v → userPage m' pt' w = userPage m pt w ∧
    ∀ page, userPage m pt w = some page → m'.cells page = m.cells page

theorem SamePages.byte {m' : Mem} {pt' k i : Nat}
    (h : SamePages m m' pt pt' (va / PGSIZE) ((va + k) / PGSIZE)) (hi : i ≤ k) :
    userPage m' pt' ((va + i) / PGSIZE) = userPage m pt ((va + i) / PGSIZE) ∧
      userByte m' pt' (va + i) = userByte m pt (va + i) := by
  obtain ⟨hpage, hcells⟩ := h ((va + i) / PGSIZE) (Nat.div_le_div_right (by omega))
    (Nat.div_le_div_right (by omega))
  refine ⟨hpage, ?_⟩
  rw [userByte, userByte, hpage]
  cases hp : userPage m pt ((va + i) / PGSIZE) with
  | none => rfl
  | some page => rw [Option.map_some, Option.map_some, hcells page hp]

theorem UserString.samePages {m' : Mem} {pt' k : Nat} (h : UserString m pt va k)
    (hs : SamePages m m' pt pt' (va / PGSIZE) ((va + k) / PGSIZE)) : UserString m' pt' va k := by
  refine ⟨?_, ?_, ?_⟩
  · intro i hi
    rw [Accessible, (hs.byte hi).1]
    exact h.accessible i hi
  · intro i hi
    rw [(hs.byte (Nat.le_of_lt hi)).2]
    exact h.chars i hi
  · rw [(hs.byte (Nat.le_refl k)).2]
    exact h.nul

theorem UserString.bytesAt_samePages {m' : Mem} {pt' k : Nat} (h : UserString m pt va k)
    (hs : SamePages m m' pt pt' (va / PGSIZE) ((va + k) / PGSIZE)) :
    bytesAt m' pt' va (k + 1) = bytesAt m pt va (k + 1) := by
  apply List.ext_getElem?
  intro i
  by_cases hi : i < k + 1
  · rw [bytesAt_getElem? hi (h.accessible i (by omega)),
      bytesAt_getElem? hi ((h.samePages hs).accessible i (by omega)), (hs.byte (by omega)).2]
  · rw [List.getElem?_eq_none (by rw [bytesAt_length]; omega),
      List.getElem?_eq_none (by rw [bytesAt_length]; omega)]

/-- The string that was copied has its NUL at the end. -/
theorem UserString.strlen {k : Nat} (h : UserString m pt va k) :
    strlen (bytesAt m pt va (k + 1)) = k := by
  have hlen := bytesAt_length m pt va (k + 1)
  have hk : k < (bytesAt m pt va (k + 1)).length := by omega
  have hnul : (bytesAt m pt va (k + 1))[k] = 0 := by
    have := bytesAt_get hk (h.accessible k (Nat.le_refl k))
    rw [h.nul] at this
    exact (Option.some.inj this).symm
  have hsome : (bytesAt m pt va (k + 1)).idxOf? 0 = some k := by
    rw [List.idxOf?_eq_some_iff]
    refine ⟨hk, hnul, ?_⟩
    intro i hi hzero
    apply h.chars i hi
    have hget : i < (bytesAt m pt va (k + 1)).length := by omega
    rw [bytesAt_get hget (h.accessible i (by omega)), hzero]
  rw [Vm.strlen, List.idxOf_eq_getD_idxOf?, hsome]
  rfl

end

/-- `fetchstr` returns less than `max`, and so is the length of the string it fetched. -/
theorem fetchstr_lt (m : Mem) (pr : Proc) (addr : Nat) {max : Nat} (hmax : 0 < max) :
    (fetchstr m pr addr max).1 < max ∧
      (0 ≤ (fetchstr m pr addr max).1 → strlen (fetchstr m pr addr max).2 < max) := by
  have hspec := copyinstr_spec m pr.pagetable addr max
  rw [fetchstr]
  generalize copyinstr m pr.pagetable addr max = r at hspec
  cases hspec with
  | string k hk h =>
    dsimp only
    rw [h.strlen]
    exact ⟨by omega, fun _ ↦ hk⟩
  | none n hn h =>
    dsimp only
    exact ⟨by omega, by omega⟩

/-- `copyinstr` copies the string at `va` with its NUL if that is there within `max` bytes, and
fails otherwise. It stores `max` bytes at most, does not depend on pages after the NUL, and so
`argstr` returns less than `MAXPATH` for a path. -/
theorem copyinstr_exact (m : Mem) (pt va max : Nat) :
    ((copyinstr m pt va max).1 = true ↔ ∃ k < max, UserString m pt va k) ∧
    (∀ k < max, UserString m pt va k → (copyinstr m pt va max).2.length = k + 1 ∧
      ∀ i ≤ k, (copyinstr m pt va max).2[i]? = userByte m pt (va + i)) ∧
    (copyinstr m pt va max).2.length ≤ max ∧
    (∀ k < max, UserString m pt va k →
      ∀ m' pt', SamePages m m' pt pt' (va / PGSIZE) ((va + k) / PGSIZE) →
        copyinstr m' pt' va max = copyinstr m pt va max) ∧
    (∀ pr n r, argstr m pr n MAXPATH = .ok r → r.1 < MAXPATH ∧
      (0 ≤ r.1 → strlen r.2 < MAXPATH)) := by
  have hspec := copyinstr_spec m pt va max
  refine ⟨hspec.ok_iff, ?_, hspec.length_le, ?_, ?_⟩
  · intro k hk hstr
    rw [hspec.eq_string hk hstr]
    refine ⟨bytesAt_length m pt va (k + 1), ?_⟩
    intro i hi
    exact bytesAt_getElem? (by omega) (hstr.accessible i hi)
  · intro k hk hstr m' pt' hs
    rw [hspec.eq_string hk hstr, (copyinstr_spec m' pt' va max).eq_string hk (hstr.samePages hs),
      hstr.bytesAt_samePages hs]
  · intro pr n r hr
    rw [argstr, argraw] at hr
    split at hr
    · cases hr
      exact fetchstr_lt m pr _ (by decide)
    · cases hr

end Xv6.Vm
