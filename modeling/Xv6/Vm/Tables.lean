import Mathlib.Algebra.BigOperators.Pi
import Xv6.Lib.Sum
import Xv6.Vm.PageTable

/-!
# Page tables as trees of pages

The pages of a page table and the entry it has for each virtual page, read off the contents of
memory. What a store into a page does to the table, and that stores outside its pages do
nothing to it.
-/

namespace Xv6.Vm

open Xv6.Lib

/-! ### Entries -/

/-- An entry with this page and these flags. -/
def mkPte (page flags : Nat) : Nat := page * 1024 + flags

theorem and_flags (pte : Nat) {mask : Nat} (h : mask < 1024) :
    pte &&& mask = (pte % 1024) &&& mask := by
  have hmask : mask = 1023 &&& mask := by
    rw [Nat.and_comm, Nat.and_two_pow_sub_one_eq_mod mask 10, Nat.mod_eq_of_lt h]
  rw [hmask, ← Nat.and_assoc, ← Nat.and_assoc, Nat.and_two_pow_sub_one_eq_mod pte 10,
    Nat.and_two_pow_sub_one_eq_mod _ 10, Nat.mod_mod]

theorem PTE_FLAGS_eq (pte : Nat) : PTE_FLAGS pte = pte % 1024 :=
  Nat.and_two_pow_sub_one_eq_mod pte 10

theorem PTE2PA_eq (pte : Nat) : PTE2PA pte = pte / 1024 % 2 ^ 52 := by
  rw [PTE2PA, Nat.shiftRight_eq_div_pow]

section
variable {page flags : Nat} (h : flags < 1024)
include h

theorem mkPte_flags : mkPte page flags % 1024 = flags := by
  rw [mkPte]
  omega

theorem PTE2PA_mkPte (hp : page < 2 ^ 52) : PTE2PA (mkPte page flags) = page := by
  rw [PTE2PA_eq, mkPte]
  omega

theorem mkPte_and {mask : Nat} (hm : mask < 1024) : mkPte page flags &&& mask = flags &&& mask := by
  rw [and_flags _ hm, mkPte_flags h]

theorem mkPte_lt (hp : page < 2 ^ 52) : mkPte page flags < 256 ^ 8 := by
  rw [mkPte]
  omega

/-- The bits that the code puts together. -/
theorem PA2PTE_or : PA2PTE page ||| flags = mkPte page flags := by
  rw [PA2PTE, ← Nat.shiftLeft_add_eq_or_of_lt h, Nat.shiftLeft_eq, mkPte]

end

theorem PX_eq (level va : Nat) : PX level va = va / PGSIZE / 512 ^ level % 512 := by
  have hpow : 2 ^ (12 + 9 * level) = PGSIZE * 512 ^ level := by
    rw [Nat.pow_add, Nat.pow_mul]
    rfl
  rw [PX, Nat.and_two_pow_sub_one_eq_mod _ 9, Nat.shiftRight_eq_div_pow, hpow,
    Nat.div_div_eq_div_mul]

/-! ### Trees -/

/-- The index for virtual page `v` in a page-table page of this level. -/
def digit (level v : Nat) : Nat := v / 512 ^ level % 512

theorem digit_lt (level v : Nat) : digit level v < 512 := Nat.mod_lt _ (by decide)

/-- Where the entry for virtual page `v` is, from a page-table page of level `l` down. -/
def slot (c : Ram) : Nat → Nat → Nat → Option (Nat × Nat)
  | 0, pt, v => some (pt, digit 0 v)
  | l + 1, pt, v =>
    let pte := Ram.pte c pt (digit (l + 1) v)
    if Valid pte then slot c l (PTE2PA pte) v else none

/-- The entry for virtual page `v`, 0 where there is none. -/
def entry (c : Ram) : Nat → Nat → Nat → Nat
  | 0, pt, v => Ram.pte c pt (digit 0 v)
  | l + 1, pt, v =>
    let pte := Ram.pte c pt (digit (l + 1) v)
    if Valid pte then entry c l (PTE2PA pte) v else 0

/-- The count of the page that an entry refers to, if it is valid. -/
def below (count : Nat → Nat → Nat) (pte q : Nat) : Nat :=
  if Valid pte then count (PTE2PA pte) q else 0

/-- How often a page is a page-table page, from one of level `l` down. -/
def tables (c : Ram) : Nat → Nat → Nat → Nat
  | 0, pt, q => one pt q
  | l + 1, pt, q => one pt q + ∑ i : Fin 512, below (tables c l) (Ram.pte c pt i) q

/-- The entries above the last level have no permissions. -/
def Table (c : Ram) : Nat → Nat → Prop
  | 0, _ => True
  | l + 1, pt => ∀ i < 512, Valid (Ram.pte c pt i) →
      Ram.pte c pt i &&& (PTE_R ||| PTE_W ||| PTE_X) = 0 ∧ Table c l (PTE2PA (Ram.pte c pt i))

/-- The contents `c` and `c'` agree on the table. -/
structure SameTable (c c' : Ram) (l pt : Nat) : Prop where
  pages : tables c' l pt = tables c l pt
  slots : ∀ v, slot c' l pt v = slot c l pt v
  entries : ∀ v, entry c' l pt v = entry c l pt v
  shape : Table c l pt → Table c' l pt

section
variable {c c' : Ram} {l pt : Nat}

theorem below_of_valid {count : Nat → Nat → Nat} {pte : Nat} (h : Valid pte) (q : Nat) :
    below count pte q = count (PTE2PA pte) q := if_pos h

theorem below_of_not {count : Nat → Nat → Nat} {pte : Nat} (h : ¬ Valid pte) (q : Nat) :
    below count pte q = 0 := if_neg h

theorem tables_self (c : Ram) (l pt : Nat) : 0 < tables c l pt pt := by
  cases l with
  | zero => rw [tables, one_self]; decide
  | succ l => rw [tables, one_self]; omega

/-- The pages below an entry are pages of the table. -/
theorem tables_child {i : Nat} (hi : i < 512) (hv : Valid (Ram.pte c pt i)) (q : Nat) :
    one pt q + tables c l (PTE2PA (Ram.pte c pt i)) q ≤ tables c (l + 1) pt q := by
  have h := le_sum (fun i : Fin 512 ↦ below (tables c l) (Ram.pte c pt i) q) ⟨i, hi⟩
  rw [below_of_valid hv] at h
  rw [tables]
  omega

theorem two_le_sum {f : Fin 512 → Nat} {i j : Fin 512} (h : i ≠ j) : f i + f j ≤ ∑ k, f k := by
  rw [← Finset.add_sum_erase Finset.univ f (Finset.mem_univ i)]
  have := Finset.single_le_sum (f := f) (fun _ _ ↦ Nat.zero_le _)
    (Finset.mem_erase.mpr ⟨h.symm, Finset.mem_univ j⟩)
  omega

/-- The pages below two entries are different. -/
theorem tables_children {i j : Nat} (hi : i < 512) (hj : j < 512) (hne : i ≠ j)
    (hvi : Valid (Ram.pte c pt i)) (hvj : Valid (Ram.pte c pt j)) (q : Nat) :
    tables c l (PTE2PA (Ram.pte c pt i)) q + tables c l (PTE2PA (Ram.pte c pt j)) q ≤
      tables c (l + 1) pt q := by
  have h := two_le_sum (f := fun i : Fin 512 ↦ below (tables c l) (Ram.pte c pt i) q)
    (i := ⟨i, hi⟩) (j := ⟨j, hj⟩) (fun he ↦ hne (Fin.mk.inj he))
  rw [below_of_valid hvi, below_of_valid hvj] at h
  rw [tables]
  omega

theorem Ram.pte_congr (h : c' pt = c pt) (i : Nat) : Ram.pte c' pt i = Ram.pte c pt i := by
  rw [Ram.pte, Ram.pte, h]

theorem SameTable.trans {c₁ : Ram} (h : SameTable c c₁ l pt) (h' : SameTable c₁ c' l pt) :
    SameTable c c' l pt :=
  ⟨h'.pages.trans h.pages, fun v ↦ (h'.slots v).trans (h.slots v),
    fun v ↦ (h'.entries v).trans (h.entries v), fun ht ↦ h'.shape (h.shape ht)⟩

/-- A table depends on the contents of its own pages only. -/
theorem SameTable.of_cells (h : ∀ q, 0 < tables c l pt q → c' q = c q) : SameTable c c' l pt := by
  induction l generalizing pt with
  | zero =>
    have hpte := Ram.pte_congr (h pt (tables_self c 0 pt))
    refine ⟨rfl, fun _ ↦ rfl, ?_, fun _ ↦ trivial⟩
    intro v
    rw [entry, entry, hpte]
  | succ l ih =>
    have hpte := Ram.pte_congr (h pt (tables_self c (l + 1) pt))
    have hchild (i : Nat) (hi : i < 512) (hv : Valid (Ram.pte c pt i)) :
        SameTable c c' l (PTE2PA (Ram.pte c pt i)) := by
      apply ih
      intro q hq
      have := tables_child (l := l) hi hv q
      exact h q (by omega)
    refine ⟨?_, ?_, ?_, ?_⟩
    · funext q
      have hsum : ∑ i : Fin 512, below (tables c' l) (Ram.pte c' pt i) q =
          ∑ i : Fin 512, below (tables c l) (Ram.pte c pt i) q := by
        apply Finset.sum_congr rfl
        intro i _
        rw [hpte]
        by_cases hv : Valid (Ram.pte c pt i)
        · rw [below_of_valid hv, below_of_valid hv, (hchild i i.isLt hv).pages]
        · rw [below_of_not hv, below_of_not hv]
      rw [tables, tables, hsum]
    · intro v
      rw [slot, slot, hpte]
      split
      · next hv => exact (hchild _ (digit_lt _ _) hv).slots v
      · rfl
    · intro v
      rw [entry, entry, hpte]
      split
      · next hv => exact (hchild _ (digit_lt _ _) hv).entries v
      · rfl
    · intro ht i hi hv
      rw [hpte] at hv ⊢
      obtain ⟨hflags, hsub⟩ := ht i hi hv
      exact ⟨hflags, (hchild i hi hv).shape hsub⟩

/-- A change in the pages below one entry. -/
theorem child_change (c' : Ram) {d : Nat} (hd : d < 512) (hv : Valid (Ram.pte c pt d))
    (hpt : c' pt = c pt)
    (hother : ∀ j < 512, j ≠ d → Valid (Ram.pte c pt j) → ∀ q,
      0 < tables c l (PTE2PA (Ram.pte c pt j)) q → c' q = c q) :
    (∀ q, tables c' (l + 1) pt q + tables c l (PTE2PA (Ram.pte c pt d)) q =
      tables c (l + 1) pt q + tables c' l (PTE2PA (Ram.pte c pt d)) q) ∧
    (Table c (l + 1) pt → Table c' l (PTE2PA (Ram.pte c pt d)) → Table c' (l + 1) pt) ∧
    (∀ v, entry c' (l + 1) pt v = if digit (l + 1) v = d
      then entry c' l (PTE2PA (Ram.pte c pt d)) v else entry c (l + 1) pt v) ∧
    ∀ v, slot c' (l + 1) pt v = if digit (l + 1) v = d
      then slot c' l (PTE2PA (Ram.pte c pt d)) v else slot c (l + 1) pt v := by
  have hpte := Ram.pte_congr hpt
  have hsame (j : Nat) (hj : j < 512) (hjd : j ≠ d) (hvj : Valid (Ram.pte c pt j)) :
      SameTable c c' l (PTE2PA (Ram.pte c pt j)) :=
    SameTable.of_cells (hother j hj hjd hvj)
  refine ⟨?_, ?_, ?_, ?_⟩
  · intro q
    have hsum := sum_add_of_eq_off
      (f := fun i : Fin 512 ↦ below (tables c' l) (Ram.pte c' pt i) q)
      (g := fun i : Fin 512 ↦ below (tables c l) (Ram.pte c pt i) q) ⟨d, hd⟩ (by
        intro j hj
        have hjd : (j : Nat) ≠ d := fun he ↦ hj (Fin.ext he)
        rw [hpte]
        by_cases hvj : Valid (Ram.pte c pt j)
        · rw [below_of_valid hvj, below_of_valid hvj, (hsame j j.isLt hjd hvj).pages]
        · rw [below_of_not hvj, below_of_not hvj])
    have hv' : Valid (Ram.pte c' pt d) := by
      rw [hpte]
      exact hv
    rw [below_of_valid hv, below_of_valid hv', hpte] at hsum
    rw [tables, tables]
    omega
  · intro ht hsub i hi hvi
    rw [hpte] at hvi ⊢
    obtain ⟨hflags, hold⟩ := ht i hi hvi
    by_cases hid : i = d
    · rw [hid] at hflags ⊢
      exact ⟨hflags, hsub⟩
    · exact ⟨hflags, (hsame i hi hid hvi).shape hold⟩
  · intro v
    rw [entry, entry, hpte]
    by_cases hdv : digit (l + 1) v = d
    · rw [hdv, if_pos hv, if_pos rfl]
    · rw [if_neg hdv]
      split
      · next hvv => exact (hsame _ (digit_lt _ _) hdv hvv).entries v
      · rfl
  · intro v
    rw [slot, slot, hpte]
    by_cases hdv : digit (l + 1) v = d
    · rw [hdv, if_pos hv, if_pos rfl]
    · rw [if_neg hdv]
      split
      · next hvv => exact (hsame _ (digit_lt _ _) hdv hvv).slots v
      · rfl

/-! ### Stores -/

theorem Ram.setPte_of_ne {p q : Nat} (h : q ≠ p) (i w : Nat) : Ram.setPte c p i w q = c q :=
  Function.update_of_ne h ..

theorem Ram.pte_setPte_self {w : Nat} (hw : w < 256 ^ 8) (p i : Nat) :
    Ram.pte (Ram.setPte c p i w) p i = w := by
  rw [Ram.pte, Ram.setPte, Function.update_self]
  exact readLE_writeLE (c p) (8 * i) hw

theorem Ram.pte_setPte_of_ne {i j : Nat} (h : j ≠ i) (p w : Nat) :
    Ram.pte (Ram.setPte c p i w) p j = Ram.pte c p j := by
  rw [Ram.pte, Ram.setPte, Function.update_self, Ram.pte]
  exact readLE_writeLE_of_disjoint (c p) w (by omega)

theorem slot_tables {v p i : Nat} (h : slot c l pt v = some (p, i)) : 0 < tables c l pt p := by
  induction l generalizing pt with
  | zero =>
    cases h
    exact tables_self c 0 p
  | succ l ih =>
    rw [slot] at h
    split at h
    · next hv =>
      have h1 := ih h
      have h2 := tables_child (l := l) (digit_lt (l + 1) v) hv p
      omega
    · cases h

theorem digit_mod (l u v : Nat) : u % 512 ^ (l + 2) = v % 512 ^ (l + 2) ↔
    digit (l + 1) u = digit (l + 1) v ∧ u % 512 ^ (l + 1) = v % 512 ^ (l + 1) := by
  have hpow : 512 ^ (l + 2) = 512 ^ (l + 1) * 512 := Nat.pow_succ ..
  have hpos : 0 < 512 ^ (l + 1) := Nat.pow_pos (by decide)
  rw [hpow, Nat.mod_mul, Nat.mod_mul, digit, digit]
  constructor
  · intro h
    have h1 := congrArg (· % 512 ^ (l + 1)) h
    simp only [Nat.add_mul_mod_self_left, Nat.mod_mod] at h1
    rw [h1] at h
    exact ⟨Nat.eq_of_mul_eq_mul_left hpos (Nat.add_left_cancel h), h1⟩
  · rintro ⟨h1, h2⟩
    rw [h1, h2]

/-- A store of the entry for virtual page `v` changes that entry only. -/
theorem setPte_slot {v p i w : Nat} (hs : slot c l pt v = some (p, i))
    (ho : ∀ q, tables c l pt q ≤ 1) (hw : w < 256 ^ 8) :
    tables (Ram.setPte c p i w) l pt = tables c l pt ∧
    (Table c l pt → Table (Ram.setPte c p i w) l pt) ∧
    (∀ u, slot (Ram.setPte c p i w) l pt u = slot c l pt u) ∧
    ∀ u, entry (Ram.setPte c p i w) l pt u =
      if u % 512 ^ (l + 1) = v % 512 ^ (l + 1) then w else entry c l pt u := by
  induction l generalizing pt with
  | zero =>
    cases hs
    refine ⟨rfl, fun _ ↦ trivial, fun _ ↦ rfl, ?_⟩
    intro u
    have hd (x : Nat) : digit 0 x = x % 512 ^ (0 + 1) := by
      rw [digit, Nat.pow_zero, Nat.div_one, Nat.pow_one]
    rw [entry, entry, ← hd, ← hd]
    split
    · next he => rw [he, Ram.pte_setPte_self hw]
    · next hne => rw [Ram.pte_setPte_of_ne hne]
  | succ l ih =>
    rw [slot] at hs
    split at hs
    · next hv =>
      have hd := digit_lt (l + 1) v
      have hp := slot_tables hs
      have hone (q : Nat) := tables_child (l := l) hd hv q
      -- the store is below the entry for `v`, so neither here nor below another entry
      have hpt : p ≠ pt := by
        rintro rfl
        have h1 := hone p
        have h2 := ho p
        rw [one_self] at h1
        omega
      have hchange := child_change (l := l) (Ram.setPte c p i w) hd hv
        (Ram.setPte_of_ne hpt.symm i w) (by
          intro j hj hjd hvj q hq
          apply Ram.setPte_of_ne
          intro hqp
          rw [hqp] at hq
          have h1 := tables_children (l := l) hj hd hjd hvj hv p
          have h2 := ho p
          omega)
      obtain ⟨hpages, htable, hentry, hslot⟩ := hchange
      obtain ⟨ihpages, ihtable, ihslot, ihentry⟩ := ih hs (by
        intro q
        have h1 := hone q
        have h2 := ho q
        omega)
      refine ⟨?_, ?_, ?_, ?_⟩
      · funext q
        have := hpages q
        rw [ihpages] at this
        omega
      · intro ht
        exact htable ht (ihtable (ht _ hd hv).2)
      · intro u
        rw [hslot, ihslot]
        split
        · next hu => rw [slot, hu, if_pos hv]
        · rfl
      · intro u
        rw [hentry, ihentry]
        by_cases hu : digit (l + 1) u = digit (l + 1) v
        · rw [if_pos hu, entry, hu, if_pos hv]
          simp only [digit_mod, hu, true_and]
        · rw [if_neg hu, if_neg (fun he ↦ hu ((digit_mod l u v).mp he).1)]
    · cases hs

/-! ### New tables -/

theorem Ram.pte_zero (h : c pt = fun _ ↦ 0) (i : Nat) : Ram.pte c pt i = 0 := by
  rw [Ram.pte, h, readLE_zero]

theorem not_valid_zero : ¬ Valid 0 := by decide

/-- A page of zeros is an empty table. -/
theorem table_zero (pt : Nat) (h : c pt = fun _ ↦ 0) :
    tables c l pt = one pt ∧ Table c l pt ∧ ∀ v, entry c l pt v = 0 := by
  cases l with
  | zero => exact ⟨rfl, trivial, fun v ↦ Ram.pte_zero h _⟩
  | succ l =>
    have hno (i : Nat) : ¬ Valid (Ram.pte c pt i) := by
      rw [Ram.pte_zero h]
      exact not_valid_zero
    refine ⟨?_, fun i _ hv ↦ (hno i hv).elim, ?_⟩
    · funext q
      have hsum : ∑ i : Fin 512, below (tables c l) (Ram.pte c pt i) q = 0 := by
        apply Finset.sum_eq_zero
        intro i _
        exact below_of_not (hno i) q
      rw [tables, hsum, Nat.add_zero]
    · intro v
      rw [entry, if_neg (hno _)]

/-- Pointing an entry that was not valid to a new page of zeros. -/
theorem new_child {d page : Nat} (hd : d < 512) (hv : ¬ Valid (Ram.pte c pt d))
    (ho : ∀ q, tables c (l + 1) pt q ≤ 1) (hpage : tables c (l + 1) pt page = 0)
    (hlt : page < 2 ^ 52)
    (hc' : c' = Ram.setPte (Function.update c page (fun _ ↦ 0)) pt d (mkPte page PTE_V)) :
    Ram.pte c' pt d = mkPte page PTE_V ∧
    (∀ q, tables c' (l + 1) pt q = tables c (l + 1) pt q + one page q) ∧
    (Table c (l + 1) pt → Table c' (l + 1) pt) ∧
    ∀ v, entry c' (l + 1) pt v = entry c (l + 1) pt v := by
  have hne : page ≠ pt := by
    rintro rfl
    have := tables_self c (l + 1) page
    omega
  have hself : Ram.pte c' pt d = mkPte page PTE_V := by
    rw [hc', Ram.pte_setPte_self (mkPte_lt (by decide) hlt)]
  have hpte (j : Nat) (hj : j ≠ d) : Ram.pte c' pt j = Ram.pte c pt j := by
    rw [hc', Ram.pte_setPte_of_ne hj, Ram.pte, Function.update_of_ne hne.symm, Ram.pte]
  have hvd : Valid (Ram.pte c' pt d) := by
    rw [hself, Valid, mkPte_and (by decide) (by decide)]
    decide
  have hsub : PTE2PA (Ram.pte c' pt d) = page := by
    rw [hself, PTE2PA_mkPte (by decide) hlt]
  obtain ⟨hpages, htable, hentry⟩ := table_zero (c := c') (l := l) page (by
    rw [hc', Ram.setPte_of_ne hne, Function.update_self])
  have hsame (j : Nat) (hj : j < 512) (hvj : Valid (Ram.pte c pt j)) :
      SameTable c c' l (PTE2PA (Ram.pte c pt j)) := by
    apply SameTable.of_cells
    intro q hq
    have h1 := tables_child (l := l) hj hvj q
    have h2 := ho q
    have hqpt : q ≠ pt := by
      rintro rfl
      rw [one_self] at h1
      omega
    have hqpage : q ≠ page := by
      rintro rfl
      omega
    rw [hc', Ram.setPte_of_ne hqpt, Function.update_of_ne hqpage]
  refine ⟨hself, ?_, ?_, ?_⟩
  · intro q
    have hsum := sum_add_of_eq_off
      (f := fun i : Fin 512 ↦ below (tables c' l) (Ram.pte c' pt i) q)
      (g := fun i : Fin 512 ↦ below (tables c l) (Ram.pte c pt i) q) ⟨d, hd⟩ (by
        intro j hj
        have hjd : (j : Nat) ≠ d := fun he ↦ hj (Fin.ext he)
        rw [hpte j hjd]
        by_cases hvj : Valid (Ram.pte c pt j)
        · rw [below_of_valid hvj, below_of_valid hvj, (hsame j j.isLt hvj).pages]
        · rw [below_of_not hvj, below_of_not hvj])
    rw [below_of_not hv, below_of_valid hvd, hsub, hpages] at hsum
    rw [tables, tables]
    omega
  · intro ht j hj hvj
    by_cases hjd : j = d
    · rw [hjd, hsub]
      refine ⟨?_, htable⟩
      rw [hself, mkPte_and (by decide) (by decide)]
      decide
    · rw [hpte j hjd] at hvj ⊢
      obtain ⟨hflags, hold⟩ := ht j hj hvj
      exact ⟨hflags, (hsame j hj hvj).shape hold⟩
  · intro v
    rw [entry, entry]
    by_cases hdv : digit (l + 1) v = d
    · rw [hdv, if_pos hvd, if_neg hv, hsub, hentry]
    · rw [hpte _ hdv]
      split
      · next hvj => exact (hsame _ (digit_lt _ _) hvj).entries v
      · rfl

end

end Xv6.Vm
