import Xv6.Vm.Copyin

/-!
# The pages that `copyout` stores to

`copyout` with the `memmove`s it makes, and when it keeps to the pages that the process itself may
write.
-/

namespace Xv6.Vm

/-- A `memmove` of `copyout`: where it stores, and what. -/
structure Store where
  page : Nat
  off : Nat
  bytes : List UInt8

/-- The loop of `copyout` with its `memmove`s; `kernel/vm.c:356–369`. -/
def copyoutStoresLoop (pagetable : Nat) :
    Nat → Mem → Nat → List UInt8 → (Bool × Mem) × List Store
  | 0, m, _, _ => ((true, m), [])
  | fuel + 1, m, dstva, src =>
    if src = [] then ((true, m), [])
    else
      let va0 := PGROUNDDOWN dstva
      let pa0 := walkaddr m pagetable va0
      if pa0 = 0 then ((false, m), [])
      else
        let n := min (PGSIZE - (dstva - va0)) src.length
        let (r, stores) := copyoutStoresLoop pagetable fuel (m.write pa0 (dstva - va0) (src.take n))
          ((va0 + PGSIZE) % 2 ^ 64) (src.drop n)
        (r, ⟨pa0, dstva - va0, src.take n⟩ :: stores)

/-- `copyout` with its `memmove`s; `kernel/vm.c:351–371`. -/
def copyoutStores (m : Mem) (pagetable dstva : Nat) (src : List UInt8) :
    (Bool × Mem) × List Store :=
  copyoutStoresLoop pagetable src.length m dstva src

section
variable {m m' : Mem} {pt dstva : Nat} {src : List UInt8}

theorem copyoutStoresLoop_fst (fuel : Nat) :
    (copyoutStoresLoop pt fuel m dstva src).1 = copyoutLoop pt fuel m dstva src := by
  induction fuel generalizing m dstva src with
  | zero => rfl
  | succ fuel ih =>
    rw [copyoutStoresLoop, copyoutLoop]
    split
    · rfl
    · dsimp only
      split
      · rfl
      · exact ih

/-- `copyout` does what it does without the record of its stores. -/
theorem copyoutStores_fst (m : Mem) (pt dstva : Nat) (src : List UInt8) :
    (copyoutStores m pt dstva src).1 = copyout m pt dstva src := copyoutStoresLoop_fst _

/-- The stores go to the pages of the bytes that are reached, and to each of these. -/
structure Covers (m : Mem) (pt dstva : Nat) (src : List UInt8) (stores : List Store) : Prop where
  only : ∀ st ∈ stores, ∃ i < src.length, Reached m pt dstva i ∧
    userPage m pt ((dstva + i) / PGSIZE) = some st.page
  all : ∀ i < src.length, Reached m pt dstva i →
    ∃ st ∈ stores, userPage m pt ((dstva + i) / PGSIZE) = some st.page

theorem Covers.nil (h : src = [] ∨ userPage m pt (dstva / PGSIZE) = none) :
    Covers m pt dstva src [] := by
  refine ⟨?_, ?_⟩
  · intro st hst
    cases hst
  intro i hi hreached
  rcases h with rfl | h
  · cases hi
  · have := hreached 0 (Nat.zero_le i)
    rw [Nat.add_zero, h] at this
    cases this

/-- A store to the first page, and those of the rest of the copy. -/
theorem Covers.cons {page n : Nat} {st : Store} {stores : List Store}
    (hsame : SameTable m.cells m'.cells 2 pt) (hp : userPage m pt (dstva / PGSIZE) = some page)
    (hpage : st.page = page) (hsrc : src ≠ []) (hn : n = min (PGSIZE - dstva % PGSIZE) src.length)
    (h : Covers m' pt (dstva / PGSIZE * PGSIZE + PGSIZE) (src.drop n) stores) :
    Covers m pt dstva src (st :: stores) := by
  have hpos : 0 < src.length := List.length_pos_iff.mpr hsrc
  have hroom : 0 < PGSIZE - dstva % PGSIZE := by
    unfold PGSIZE
    omega
  have hnext (j : Nat) : dstva + (PGSIZE - dstva % PGSIZE + j) =
      dstva / PGSIZE * PGSIZE + PGSIZE + j := by
    unfold PGSIZE
    omega
  refine ⟨?_, ?_⟩
  · intro st' hst'
    rcases List.mem_cons.mp hst' with rfl | hst'
    · refine ⟨0, hpos, Reached.of_first hp hroom, ?_⟩
      rw [Nat.add_zero, hp, hpage]
    · obtain ⟨j, hj, hreached, hpj⟩ := h.only st' hst'
      rw [List.length_drop] at hj
      have hfull : n = PGSIZE - dstva % PGSIZE := by omega
      refine ⟨PGSIZE - dstva % PGSIZE + j, by omega, ?_, ?_⟩
      · exact (reached_next hp).mpr ((Reached.congr hsame j).mp hreached)
      · rw [hnext, ← userPage_congr hsame]
        exact hpj
  · intro i hi hreached
    by_cases hlt : i < PGSIZE - dstva % PGSIZE
    · refine ⟨st, List.mem_cons_self, ?_⟩
      rw [(chunk_page dstva hlt).1, hp, hpage]
    · have hfull : n = PGSIZE - dstva % PGSIZE := by omega
      have he : i = PGSIZE - dstva % PGSIZE + (i - n) := by omega
      rw [he] at hreached ⊢
      obtain ⟨st', hst', hpst⟩ := h.all (i - n) (by rw [List.length_drop]; omega)
        ((Reached.congr hsame _).mpr ((reached_next hp).mp hreached))
      refine ⟨st', List.mem_cons_of_mem st hst', ?_⟩
      rw [hnext, ← userPage_congr hsame]
      exact hpst

theorem copyoutStoresLoop_covers {fuel : Nat} (hfuel : src.length ≤ fuel) (ht : OwnPages m pt) :
    Covers m pt dstva src (copyoutStoresLoop pt fuel m dstva src).2 := by
  induction fuel generalizing m dstva src with
  | zero =>
    apply Covers.nil
    exact Or.inl (List.length_eq_zero_iff.mp (Nat.le_zero.mp hfuel))
  | succ fuel ih =>
    rw [copyoutStoresLoop]
    split
    · next hnil => exact Covers.nil (Or.inl hnil)
    next hnil =>
    have hva0 : PGROUNDDOWN dstva / PGSIZE = dstva / PGSIZE := page_div _
    have hoff : dstva - PGROUNDDOWN dstva = dstva % PGSIZE := by
      unfold PGROUNDDOWN PGSIZE
      omega
    simp only [walkaddr_eq, hva0, hoff]
    cases hp : userPage m pt (dstva / PGSIZE) with
    | none => exact Covers.nil (Or.inr hp)
    | some page =>
      rw [Option.getD_some, if_neg (ht.notNull _ _ hp)]
      have hlt : dstva / PGSIZE < NPAGES := by
        rw [userPage_eq] at hp
        split at hp
        · next h => exact h.1
        · cases hp
      have hnext : (PGROUNDDOWN dstva + PGSIZE) % 2 ^ 64 = dstva / PGSIZE * PGSIZE + PGSIZE := by
        have hN : NPAGES = 2 ^ 26 := rfl
        unfold PGROUNDDOWN PGSIZE at *
        omega
      rw [hnext]
      have hsame := ht.write hp (dstva % PGSIZE)
        (src.take (min (PGSIZE - dstva % PGSIZE) src.length))
      apply Covers.cons hsame hp rfl hnil rfl
      apply ih
      · have hpos : 0 < src.length := List.length_pos_iff.mpr hnil
        have hroom : 0 < PGSIZE - dstva % PGSIZE := by
          unfold PGSIZE
          omega
        rw [List.length_drop]
        omega
      · exact ht.congr hsame

theorem copyoutStores_covers (ht : OwnPages m pt) (dstva : Nat) (src : List UInt8) :
    Covers m pt dstva src (copyoutStores m pt dstva src).2 :=
  copyoutStoresLoop_covers (Nat.le_refl _) ht

end

/-- `copyout` respects the pages that the table maps without `PTE_W`: it stores only to pages that
the process could write itself, it changes no byte of the others, and it fails if there is one among
the pages of the destination. -/
structure KeepsReadOnly (m : Mem) (pt dstva : Nat) (src : List UInt8) : Prop where
  stores : ∀ st ∈ (copyoutStores m pt dstva src).2,
    ∃ v, userPage m pt v = some st.page ∧ Writable m pt v
  unchanged : ∀ v page flags, lookup m pt v = some (page, flags) → flags &&& PTE_W = 0 →
    (copyout m pt dstva src).2.cells page = m.cells page
  fails : ∀ i < src.length, ¬ Writable m pt ((dstva + i) / PGSIZE) →
    (copyout m pt dstva src).1 = false

/-- `copyout` respects the pages that the process may not write exactly when each byte that it
reaches is in a page with `PTE_W`. -/
theorem copyout_keepsReadOnly_iff {m : Mem} {pt : Nat} (h : UserTable m pt) (dstva : Nat)
    (src : List UInt8) :
    KeepsReadOnly m pt dstva src ↔
      ∀ i < src.length, Reached m pt dstva i → Writable m pt ((dstva + i) / PGSIZE) := by
  have hcovers := copyoutStores_covers h.ownPages dstva src
  constructor
  · intro hkeeps i hi hreached
    obtain ⟨st, hst, hp⟩ := hcovers.all i hi hreached
    obtain ⟨v, hv, hw⟩ := hkeeps.stores st hst
    rw [h.ownPages.distinct _ _ _ hp hv]
    exact hw
  · intro hcond
    refine ⟨?_, ?_, ?_⟩
    · intro st hst
      obtain ⟨i, hi, hreached, hp⟩ := hcovers.only st hst
      exact ⟨_, hp, hcond i hi hreached⟩
    · intro v page flags hl hw
      funext o
      apply (copyout_spec h.ownPages dstva src).frame
      intro i hi hreached hp _
      obtain ⟨page', flags', hl', hw'⟩ := hcond i hi hreached
      rw [h.alone _ _ _ _ hp hl, hl] at hl'
      cases hl'
      exact hw' hw
    · intro i hi hnot
      by_contra hok
      rw [Bool.not_eq_false, (bytesOut_copyout h.ownPages dstva src).ok_iff] at hok
      apply hnot
      apply hcond i hi
      rw [reached_iff h.ownPages]
      intro j hj
      exact hok j (Nat.lt_of_le_of_lt hj hi)

/-- A byte that is stored to a page of text. -/
theorem copyout_writes_text :
    ∃ s, TextRun s ∧ UserTable s.mem s.root ∧ ¬ KeepsReadOnly s.mem s.root 0 [0x13] := by
  obtain ⟨s, hrun, htable, hlookup, hold, hnew⟩ := pageRun_table (.inl rfl)
  refine ⟨s, hrun, htable, ?_⟩
  intro hkeeps
  have hsame := hkeeps.unchanged _ _ _ hlookup (by decide)
  rw [hsame, hold] at hnew
  cases hnew

/-- A byte that is stored to a page of data. -/
theorem copyout_keepsReadOnly_iff_data :
    ∃ s, PageRun dataPerm s ∧ UserTable s.mem s.root ∧ KeepsReadOnly s.mem s.root 0 [0x13] ∧
      (copyout s.mem s.root 0 [0x13]).2.cells 0x80102 0 = 0x13 := by
  obtain ⟨s, hrun, htable, hlookup, -, hnew⟩ := pageRun_table (.inr rfl)
  refine ⟨s, hrun, htable, (copyout_keepsReadOnly_iff htable 0 [0x13]).mpr ?_, hnew⟩
  intro i hi _
  have hzero : i = 0 := Nat.lt_one_iff.mp hi
  rw [hzero]
  exact ⟨_, _, hlookup, by decide⟩

end Xv6.Vm
