import Xv6.Vm.Refine

/-!
# Stores to user memory

`copyout` (`kernel/vm.c:351`) finds the pages it stores to with `walkaddr`, which looks at `PTE_V`
and `PTE_U` only. Here is what it changes, byte by byte.
-/

namespace Xv6.Vm

open Xv6.Lib

/-- The physical page that accesses of the process to virtual page `v` go to. -/
def userPage (m : Mem) (pagetable v : Nat) : Option Nat :=
  match lookup m pagetable v with
  | some (page, flags) => if flags &&& PTE_U = 0 then none else some page
  | none => none

/-- The process may write to virtual page `v`. -/
def Writable (m : Mem) (pagetable v : Nat) : Prop :=
  ∃ page flags, lookup m pagetable v = some (page, flags) ∧ flags &&& PTE_W ≠ 0

/-- The byte of the process at `va`. -/
def userByte (m : Mem) (pagetable va : Nat) : Option UInt8 :=
  (userPage m pagetable (va / PGSIZE)).map (fun page ↦ m.cells page (va % PGSIZE))

/-- A page table of a process: its user pages are not pages of the table, and no other virtual page
shares one. -/
structure UserTable (m : Mem) (pagetable : Nat) : Prop where
  notNull : ∀ v page, userPage m pagetable v = some page → page ≠ 0
  apart : ∀ v page, userPage m pagetable v = some page → tables m.cells 2 pagetable page = 0
  alone : ∀ u v page flags, userPage m pagetable u = some page →
    lookup m pagetable v = some (page, flags) → u = v

/-- The user pages of a table: they are not pages of the table, and distinct ones are distinct
physical pages. -/
structure OwnPages (m : Mem) (pagetable : Nat) : Prop where
  notNull : ∀ v page, userPage m pagetable v = some page → page ≠ 0
  apart : ∀ v page, userPage m pagetable v = some page → tables m.cells 2 pagetable page = 0
  distinct : ∀ u v page, userPage m pagetable u = some page → userPage m pagetable v = some page →
    u = v

/-- The bytes from `dstva` to `dstva + i` are all in pages of the process. -/
def Reached (m : Mem) (pagetable dstva i : Nat) : Prop :=
  ∀ j ≤ i, (userPage m pagetable ((dstva + j) / PGSIZE)).isSome = true

section
variable {m m' : Mem} {pt : Nat}

theorem userPage_eq (m : Mem) (pt v : Nat) :
    userPage m pt v = if v < NPAGES ∧ Valid (entry m.cells 2 pt v) ∧
      entry m.cells 2 pt v &&& PTE_U ≠ 0 then some (PTE2PA (entry m.cells 2 pt v)) else none := by
  have hflags : PTE_FLAGS (entry m.cells 2 pt v) &&& PTE_U = entry m.cells 2 pt v &&& PTE_U := by
    rw [PTE_FLAGS, Nat.and_assoc]
    rfl
  unfold userPage
  rw [lookup_eq, translate]
  by_cases hlt : v < NPAGES
  · by_cases hv : Valid (entry m.cells 2 pt v)
    · by_cases hu : entry m.cells 2 pt v &&& PTE_U = 0
      · simp only [hlt, hv, if_true, hflags, hu, ne_eq, not_true_eq_false, and_false, if_false]
      · simp only [hlt, hv, if_true, hflags, hu, ne_eq, not_false_eq_true, and_true, if_false]
    · simp only [hlt, hv, if_true, if_false, false_and, and_false]
  · simp only [hlt, if_false, false_and]

/-- `walkaddr` finds the pages of the process. -/
theorem walkaddr_eq (m : Mem) (pt va : Nat) :
    walkaddr m pt va = (userPage m pt (va / PGSIZE)).getD 0 := by
  have hlt : MAXVA ≤ va ↔ ¬ va / PGSIZE < NPAGES := by
    rw [← NPAGES_mul, Nat.div_lt_iff_lt_mul (by decide), Nat.not_lt]
  rw [userPage_eq, walkaddr, walkLoop_false]
  by_cases hva : MAXVA ≤ va
  · rw [if_pos hva, if_neg (fun hc ↦ hlt.mp hva hc.1)]
    rfl
  · have hv : va / PGSIZE < NPAGES := Classical.byContradiction (fun hc ↦ hva (hlt.mpr hc))
    rw [if_neg hva]
    cases hs : slot m.cells 2 pt (va / PGSIZE) with
    | none =>
      rw [entry_of_slot_none hs, if_neg (fun hc ↦ not_valid_zero hc.2.1)]
      rfl
    | some loc =>
      rw [entry_slot hs]
      by_cases hvalid : Valid (Ram.pte m.cells loc.1 loc.2)
      · by_cases hu : Ram.pte m.cells loc.1 loc.2 &&& PTE_U = 0
        · simp only [hvalid, hu, not_true_eq_false, if_false, if_true, ne_eq, and_false,
            Option.getD_none]
        · simp only [hv, hvalid, hu, not_true_eq_false, if_false, if_true, ne_eq, and_true,
            not_false_eq_true, Option.getD_some]
      · simp only [hvalid, not_false_eq_true, if_true, if_false, false_and, and_false,
          Option.getD_none]

theorem lookup_congr (h : SameTable m.cells m'.cells 2 pt) : lookup m' pt = lookup m pt := by
  funext v
  rw [lookup_eq, lookup_eq, h.entries]

theorem userPage_congr (h : SameTable m.cells m'.cells 2 pt) : userPage m' pt = userPage m pt := by
  funext v
  rw [userPage, userPage, lookup_congr h]

theorem userPage_lookup {v page : Nat} {found : Nat × Nat} (hp : userPage m pt v = some page)
    (hl : lookup m pt v = some found) : found.1 = page := by
  rw [userPage, hl] at hp
  simp only at hp
  split at hp
  · cases hp
  · exact Option.some.inj hp

theorem UserTable.ownPages (h : UserTable m pt) : OwnPages m pt := by
  refine ⟨h.notNull, h.apart, ?_⟩
  intro u v page hu hv
  cases hl : lookup m pt v with
  | none =>
    rw [userPage, hl] at hv
    cases hv
  | some found =>
    rw [← userPage_lookup hv hl] at hu
    exact h.alone u v found.1 found.2 hu hl

theorem OwnPages.congr (h : OwnPages m pt) (hs : SameTable m.cells m'.cells 2 pt) :
    OwnPages m' pt := by
  have hpage := userPage_congr hs
  refine ⟨?_, ?_, ?_⟩
  · rw [hpage]
    exact h.notNull
  · rw [hpage, hs.pages]
    exact h.apart
  · rw [hpage]
    exact h.distinct

/-- A store to a user page leaves the table as it is. -/
theorem OwnPages.write (h : OwnPages m pt) {v page : Nat} (hp : userPage m pt v = some page)
    (off : Nat) (bs : List UInt8) : SameTable m.cells (m.write page off bs).cells 2 pt := by
  apply SameTable.of_cells
  intro q hq
  have hne : q ≠ page := by
    intro he
    rw [he, h.apart v page hp] at hq
    omega
  exact Function.update_of_ne hne _ _

theorem write_byte (page off : Nat) (bs : List UInt8) (o : Nat) :
    (m.write page off bs).cells page o =
      if off ≤ o then bs.getD (o - off) (m.cells page o) else m.cells page o :=
  congrFun (Function.update_self page _ m.cells) o

theorem write_other {page q : Nat} (h : q ≠ page) (off : Nat) (bs : List UInt8) :
    (m.write page off bs).cells q = m.cells q := Function.update_of_ne h _ _

end

/-- What `copyout` does: the bytes it reaches are stored, all others stay. -/
structure CopiedOut (m m' : Mem) (pt dstva : Nat) (src : List UInt8) : Prop where
  same : SameTable m.cells m'.cells 2 pt
  stored : ∀ i b page, src[i]? = some b → Reached m pt dstva i →
    userPage m pt ((dstva + i) / PGSIZE) = some page → m'.cells page ((dstva + i) % PGSIZE) = b
  frame : ∀ page o, (∀ i, i < src.length → Reached m pt dstva i →
    userPage m pt ((dstva + i) / PGSIZE) = some page → (dstva + i) % PGSIZE ≠ o) →
    m'.cells page o = m.cells page o

section
variable {m m' : Mem} {pt dstva : Nat} {src : List UInt8}

/-- The bytes up to the end of the first page. -/
theorem chunk_page (dstva : Nat) {i : Nat} (h : i < PGSIZE - dstva % PGSIZE) :
    (dstva + i) / PGSIZE = dstva / PGSIZE ∧ (dstva + i) % PGSIZE = dstva % PGSIZE + i := by
  unfold PGSIZE at *
  omega

theorem Reached.of_first {page i : Nat} (hp : userPage m pt (dstva / PGSIZE) = some page)
    (hi : i < PGSIZE - dstva % PGSIZE) : Reached m pt dstva i := by
  intro j hj
  rw [(chunk_page dstva (by omega)).1, hp]
  rfl

/-- Past the first page the bytes are those from the next page on. -/
theorem reached_next {page i : Nat} (hp : userPage m pt (dstva / PGSIZE) = some page) :
    Reached m pt dstva (PGSIZE - dstva % PGSIZE + i) ↔
      Reached m pt (dstva / PGSIZE * PGSIZE + PGSIZE) i := by
  have hnext (j : Nat) : dstva + (PGSIZE - dstva % PGSIZE + j) =
      dstva / PGSIZE * PGSIZE + PGSIZE + j := by
    unfold PGSIZE
    omega
  constructor
  · intro h j hj
    rw [← hnext]
    exact h _ (by omega)
  · intro h j hj
    by_cases hlt : j < PGSIZE - dstva % PGSIZE
    · rw [(chunk_page dstva hlt).1, hp]
      rfl
    · have := h (j - (PGSIZE - dstva % PGSIZE)) (by omega)
      rw [← hnext] at this
      have he : PGSIZE - dstva % PGSIZE + (j - (PGSIZE - dstva % PGSIZE)) = j := by omega
      rw [he] at this
      exact this

theorem Reached.congr (h : SameTable m.cells m'.cells 2 pt) (i : Nat) :
    Reached m' pt dstva i ↔ Reached m pt dstva i := by
  rw [Reached, Reached, userPage_congr h]

/-- A store to the first page, and the rest of the copy after it. -/
theorem CopiedOut.cons {page n : Nat} (ht : OwnPages m pt)
    (hp : userPage m pt (dstva / PGSIZE) = some page)
    (hn : n = min (PGSIZE - dstva % PGSIZE) src.length)
    (h : CopiedOut (m.write page (dstva % PGSIZE) (src.take n)) m' pt
      (dstva / PGSIZE * PGSIZE + PGSIZE) (src.drop n)) : CopiedOut m m' pt dstva src := by
  have hsame := ht.write hp (dstva % PGSIZE) (src.take n)
  have hpage := userPage_congr hsame
  have hnext (j : Nat) : dstva + (PGSIZE - dstva % PGSIZE + j) =
      dstva / PGSIZE * PGSIZE + PGSIZE + j := by
    unfold PGSIZE
    omega
  -- the rest of the copy does not come back to the first page
  have hback (j : Nat) : userPage m pt ((dstva / PGSIZE * PGSIZE + PGSIZE + j) / PGSIZE) ≠
      some page := by
    intro hj
    have halone := ht.distinct _ _ _ hj hp
    unfold PGSIZE at halone
    omega
  refine ⟨⟨?_, ?_, ?_, ?_⟩, ?_, ?_⟩
  · rw [h.same.pages, hsame.pages]
  · intro v
    rw [h.same.slots, hsame.slots]
  · intro v
    rw [h.same.entries, hsame.entries]
  · exact fun hshape ↦ h.same.shape (hsame.shape hshape)
  · intro i b page' hb hreached hpage'
    have hlen : i < src.length := by
      rw [List.getElem?_eq_some_iff] at hb
      exact hb.1
    by_cases hi : i < n
    · have hchunk := chunk_page dstva (i := i) (by omega)
      rw [hchunk.1, hp] at hpage'
      cases hpage'
      rw [h.frame page _ (fun j _ _ hj ↦ (hback j (hpage ▸ hj)).elim), write_byte, hchunk.2,
        if_pos (by omega), List.getD_eq_getElem?_getD, Nat.add_sub_cancel_left,
        List.getElem?_take_of_lt hi, hb]
      rfl
    · have hfull : n = PGSIZE - dstva % PGSIZE := by omega
      have he : i = PGSIZE - dstva % PGSIZE + (i - n) := by omega
      rw [he] at hreached hpage' ⊢
      rw [hnext] at hpage' ⊢
      apply h.stored
      · rw [List.getElem?_drop, ← hb]
        congr 1
        omega
      · exact (Reached.congr hsame _).mpr ((reached_next hp).mp hreached)
      · rw [hpage]
        exact hpage'
  · intro page' o hmiss
    have hrest : m'.cells page' o = (m.write page (dstva % PGSIZE) (src.take n)).cells page' o := by
      apply h.frame
      intro j hj hreached hj'
      rw [List.length_drop] at hj
      have hfull : n = PGSIZE - dstva % PGSIZE := by omega
      rw [hpage, ← hnext] at hj'
      rw [← hnext]
      exact hmiss _ (by omega) ((reached_next hp).mpr ((Reached.congr hsame _).mp hreached)) hj'
    rw [hrest]
    by_cases he : page' = page
    · rw [he, write_byte]
      split
      · next hoff =>
        by_cases hlt : o - dstva % PGSIZE < n
        · have hchunk := chunk_page dstva (i := o - dstva % PGSIZE) (by omega)
          have := hmiss (o - dstva % PGSIZE) (by omega) (Reached.of_first hp (by omega))
            (by rw [hchunk.1, hp, he])
          omega
        · rw [List.getD_eq_default]
          rw [List.length_take]
          omega
      · rfl
    · rw [write_other he]

theorem CopiedOut.none (h : src = [] ∨ userPage m pt (dstva / PGSIZE) = none) :
    CopiedOut m m pt dstva src := by
  refine ⟨SameTable.of_cells (fun _ _ ↦ rfl), ?_, fun _ _ _ ↦ rfl⟩
  intro i b page hb hreached _
  rcases h with rfl | h
  · cases hb
  · have := hreached 0 (Nat.zero_le i)
    rw [Nat.add_zero, h] at this
    cases this

theorem copyoutLoop_spec {fuel : Nat} (hfuel : src.length ≤ fuel) (ht : OwnPages m pt) :
    CopiedOut m (copyoutLoop pt fuel m dstva src).2 pt dstva src := by
  induction fuel generalizing m dstva src with
  | zero =>
    apply CopiedOut.none
    exact Or.inl (List.length_eq_zero_iff.mp (Nat.le_zero.mp hfuel))
  | succ fuel ih =>
    rw [copyoutLoop]
    split
    · next hnil => exact CopiedOut.none (Or.inl hnil)
    next hnil =>
    have hva0 : PGROUNDDOWN dstva / PGSIZE = dstva / PGSIZE := page_div _
    have hoff : dstva - PGROUNDDOWN dstva = dstva % PGSIZE := by
      unfold PGROUNDDOWN PGSIZE
      omega
    simp only [walkaddr_eq, hva0, hoff]
    cases hp : userPage m pt (dstva / PGSIZE) with
    | none => exact CopiedOut.none (Or.inr hp)
    | some page =>
      rw [Option.getD_some, if_neg (ht.notNull _ _ hp)]
      have hlt : dstva / PGSIZE < NPAGES := by
        rw [userPage_eq] at hp
        split at hp
        · next h => exact h.1
        · cases hp
      have hnext : (PGROUNDDOWN dstva + PGSIZE) % 2 ^ 64 = dstva / PGSIZE * PGSIZE + PGSIZE := by
        have hN : NPAGES = 2 ^ 26 := rfl
        unfold PGROUNDDOWN PGSIZE at *
        omega
      rw [hnext]
      apply CopiedOut.cons ht hp rfl
      apply ih
      · have hpos : 0 < src.length := List.length_pos_iff.mpr hnil
        have hroom : 0 < PGSIZE - dstva % PGSIZE := by
          unfold PGSIZE
          omega
        rw [List.length_drop]
        omega
      · exact ht.congr (ht.write hp _ _)

theorem copyout_spec (ht : OwnPages m pt) (dstva : Nat) (src : List UInt8) :
    CopiedOut m (copyout m pt dstva src).2 pt dstva src :=
  copyoutLoop_spec (Nat.le_refl _) ht

end

/-- Map a page at 0. -/
def pageRun (perm : Nat) : List Op :=
  [.alloc [], .mappages 0 0x1000 0x80102 perm []]

/-- The map after these calls. -/
theorem pageRun_lookup {perm : Nat} {s : Client}
    (h : Trace MapStep (fun _ ↦ none, true) (pageRun perm) s.view) (hok : s.ok = true) (v : Nat) :
    lookup s.mem s.root v = if v = 0 then some (0x80102, perm ||| PTE_V) else none := by
  generalize hview : s.view = view at h
  cases h with
  | cons hstep hrest =>
    cases hstep
    cases hrest with
    | cons hstep hrest =>
      cases hrest
      cases hstep with
      | @map A ok ok' va size page perm fails j hj hfull =>
        obtain ⟨hlookup, hok'⟩ := Prod.mk.inj hview
        have hone : j = 1 := hfull.mp (hok'.symm.trans hok)
        rw [hlookup, hone, Nat.zero_div, PageMap.mapRange]
        by_cases hv : v = 0
        · rw [hv]
          rfl
        · rw [if_neg hv, if_neg (by omega)]

/-- `s` is what these calls make of a new table. -/
def PageRun (perm : Nat) (s : Client) : Prop :=
  ∃ m root, uvmcreate smallMem = (some root, m) ∧
    run (opStep builtKernel) ⟨m, root, [], true⟩ (pageRun perm) = some s

/-- The permissions of text, and of data. -/
def textPerm : Nat := PTE_R ||| PTE_X ||| PTE_U

def dataPerm : Nat := PTE_R ||| PTE_W ||| PTE_U

/-- What these calls do, for text and for data. -/
def pageRunCheck (perm : Nat) : Bool :=
  match uvmcreate smallMem with
  | (some root, m) => decide (Along (opStep builtKernel) OpOk ⟨m, root, [], true⟩ (pageRun perm)) &&
      match run (opStep builtKernel) ⟨m, root, [], true⟩ (pageRun perm) with
      | some s => s.ok && (s.data == [0x80102]) && (s.mem.cells 0x80102 0 == 5) &&
          ((copyout s.mem s.root 0 [0x13]).2.cells 0x80102 0 == 0x13)
      | none => false
  | (none, _) => false

/-- The table maps one page, at 0; a byte is copied out to it. -/
theorem pageRun_table {perm : Nat} (hperm : perm = textPerm ∨ perm = dataPerm) :
    ∃ s : Client, PageRun perm s ∧ UserTable s.mem s.root ∧
      lookup s.mem s.root 0 = some (0x80102, perm ||| PTE_V) ∧
      s.mem.cells 0x80102 0 = 5 ∧ (copyout s.mem s.root 0 [0x13]).2.cells 0x80102 0 = 0x13 := by
  have hcheck : pageRunCheck perm = true := by
    rcases hperm with rfl | rfl
    · decide +kernel
    · decide +kernel
  have huser : (perm ||| PTE_V) &&& PTE_U ≠ 0 := by
    rcases hperm with rfl | rfl <;> decide
  unfold pageRunCheck at hcheck
  cases hroot : uvmcreate smallMem with
  | mk r m =>
    rw [hroot] at hcheck
    cases r with
    | none => cases hcheck
    | some root =>
      simp only [Bool.and_eq_true, decide_eq_true_eq] at hcheck
      cases hrun : run (opStep builtKernel) ⟨m, root, [], true⟩ (pageRun perm) with
      | none =>
        rw [hrun] at hcheck
        cases hcheck.2
      | some s =>
        rw [hrun] at hcheck
        simp only [Bool.and_eq_true, beq_iff_eq] at hcheck
        obtain ⟨hok, ⟨⟨hs, hdata⟩, hold⟩, hnew⟩ := hcheck
        obtain ⟨hclient, htrace⟩ := opRun_spec (by decide) (by decide) hroot hok hrun
        have hlookup := pageRun_lookup htrace hs
        have hpage (v page : Nat) (hp : userPage s.mem s.root v = some page) :
            v = 0 ∧ page = 0x80102 := by
          rw [userPage, hlookup] at hp
          by_cases hv : v = 0
          · simp only [if_pos hv, if_neg huser] at hp
            exact ⟨hv, (Option.some.inj hp).symm⟩
          · rw [if_neg hv] at hp
            cases hp
        refine ⟨s, ⟨m, root, hroot, hrun⟩, ⟨?_, ?_, ?_⟩, ?_, hold, hnew⟩
        · intro v page hp
          rw [(hpage v page hp).2]
          decide
        · intro v page hp
          have honce := hclient.sound.le_one page
          rw [Pi.add_apply, hdata, (hpage v page hp).2] at honce
          rw [(hpage v page hp).2]
          have hcount : List.count 0x80102 [0x80102] = 1 := rfl
          omega
        · intro u v page flags hp hl
          rw [hlookup] at hl
          by_cases hv : v = 0
          · rw [(hpage u page hp).1, hv]
          · rw [if_neg hv] at hl
            cases hl
        · rw [hlookup]
          rfl

/-- `s` is a table with one page of text. -/
def TextRun (s : Client) : Prop := PageRun textPerm s

end Xv6.Vm
