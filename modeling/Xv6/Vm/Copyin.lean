import Xv6.Lib.Loop
import Xv6.Vm.Copyout

/-!
# Copying is byte by byte

`copyin`, `copyout` and `copyinstr` (`kernel/vm.c:351–439`) go from page to page of the user's
range. Here they are compared with a copy of one byte after the other through the page table,
for any address and length, and so are the strings that `argstr` (`kernel/syscall.c:75`) fetches.
-/

namespace Xv6.Vm

open Xv6.Lib

/-- The byte at `va` is below `MAXVA`, on a page that is mapped with `PTE_V` and `PTE_U`. No page is
at the null pointer. -/
def Accessible (m : Mem) (pagetable va : Nat) : Prop :=
  va < MAXVA ∧ ∃ page, userPage m pagetable (va / PGSIZE) = some page ∧ page ≠ 0

/-- The number of pages that `n` bytes from `va` on lie in. -/
def spanned (va n : Nat) : Nat := if n = 0 then 0 else (va % PGSIZE + n + PGSIZE - 1) / PGSIZE

section
variable {m : Mem} {pt va : Nat}

theorem accessible_iff : Accessible m pt va ↔ walkaddr m pt va ≠ 0 := by
  rw [walkaddr_eq, Accessible]
  constructor
  · rintro ⟨-, page, hp, hne⟩
    rw [hp]
    exact hne
  · intro h
    cases hp : userPage m pt (va / PGSIZE) with
    | none =>
      rw [hp] at h
      exact (h rfl).elim
    | some page =>
      rw [hp] at h
      refine ⟨?_, page, rfl, h⟩
      rw [userPage_eq] at hp
      split at hp
      · next hv =>
        rw [← NPAGES_mul]
        exact (Nat.div_lt_iff_lt_mul (by decide)).mp hv.1
      · cases hp

/-- The first page of the rest of a range. -/
def nextPage (va : Nat) : Nat := va / PGSIZE * PGSIZE + PGSIZE

theorem walkaddr_page (m : Mem) (pt va : Nat) :
    walkaddr m pt (PGROUNDDOWN va) = walkaddr m pt va := by
  rw [walkaddr_eq, walkaddr_eq, PGROUNDDOWN, page_div]

theorem sub_page (va : Nat) : va - PGROUNDDOWN va = va % PGSIZE := by
  unfold PGROUNDDOWN PGSIZE
  omega

theorem next_page (h : Accessible m pt va) : (PGROUNDDOWN va + PGSIZE) % 2 ^ 64 = nextPage va := by
  have hlt : va < 2 ^ 38 := h.1
  unfold PGROUNDDOWN nextPage PGSIZE
  omega

theorem spanned_next {n : Nat} (hn : n ≠ 0) :
    spanned (nextPage va) (n - min (PGSIZE - va % PGSIZE) n) < spanned va n := by
  have hmod : nextPage va % PGSIZE = 0 := by
    unfold nextPage PGSIZE
    omega
  unfold spanned
  rw [hmod, if_neg hn]
  unfold PGSIZE
  split <;> omega

/-- The bytes of the first page are all accessible. -/
theorem Accessible.first (h : Accessible m pt va) {i : Nat} (hi : i < PGSIZE - va % PGSIZE) :
    Accessible m pt (va + i) := by
  rw [accessible_iff, walkaddr_eq] at h ⊢
  rw [(chunk_page va hi).1]
  exact h

/-- `n` of the `len` bytes from `va` on come before the first one that is not accessible. -/
structure Good (m : Mem) (pt va len n : Nat) : Prop where
  le : n ≤ len
  good : ∀ i < n, Accessible m pt (va + i)
  bad : n < len → ¬ Accessible m pt (va + n)

theorem next_add (va i : Nat) : va + (PGSIZE - va % PGSIZE + i) = nextPage va + i := by
  unfold nextPage PGSIZE
  omega

/-- The first page, and the bytes from the next page on. -/
theorem Good.cons {len n : Nat} (h : Accessible m pt va)
    (hg : Good m pt (nextPage va) (len - min (PGSIZE - va % PGSIZE) len) n) :
    Good m pt va len (min (PGSIZE - va % PGSIZE) len + n) := by
  have hle := hg.le
  refine ⟨by omega, ?_, ?_⟩
  · intro i hi
    by_cases hlt : i < PGSIZE - va % PGSIZE
    · exact h.first hlt
    · have hi' := hg.good (i - (PGSIZE - va % PGSIZE)) (by omega)
      rw [← next_add] at hi'
      have he : PGSIZE - va % PGSIZE + (i - (PGSIZE - va % PGSIZE)) = i := by omega
      rw [he] at hi'
      exact hi'
  · intro hlt
    have hc : min (PGSIZE - va % PGSIZE) len = PGSIZE - va % PGSIZE := by omega
    rw [hc, next_add]
    exact hg.bad (by omega)

theorem Good.all_iff {len n : Nat} (h : Good m pt va len n) :
    n = len ↔ ∀ i < len, Accessible m pt (va + i) := by
  constructor
  · rintro rfl
    exact h.good
  · intro hall
    have hle := h.le
    by_contra hne
    exact h.bad (by omega) (hall n (by omega))

/-- The bytes of the process from `va` on, where they are accessible. -/
def bytesAt (m : Mem) (pt va n : Nat) : List UInt8 :=
  (List.range n).map (fun i ↦ m.cells (walkaddr m pt (va + i)) ((va + i) % PGSIZE))

theorem bytesAt_zero (m : Mem) (pt va : Nat) : bytesAt m pt va 0 = [] := rfl

theorem bytesAt_length (m : Mem) (pt va n : Nat) : (bytesAt m pt va n).length = n := by
  simp [bytesAt]

/-- Up to the end of a page these are bytes of one physical page. -/
theorem read_page {n : Nat} (hn : n ≤ PGSIZE - va % PGSIZE) :
    m.read (walkaddr m pt va) (va % PGSIZE) n = bytesAt m pt va n := by
  rw [Mem.read, bytesAt]
  apply List.map_congr_left
  intro i hi
  rw [List.mem_range] at hi
  obtain ⟨hdiv, hmod⟩ := chunk_page va (Nat.lt_of_lt_of_le hi hn)
  rw [walkaddr_eq, walkaddr_eq, hdiv, hmod]

theorem bytesAt_add (m : Mem) (pt va a b : Nat) :
    bytesAt m pt va (a + b) = bytesAt m pt va a ++ bytesAt m pt (va + a) b := by
  rw [bytesAt, List.range_add, List.map_append, List.map_map]
  congr 1
  apply List.map_congr_left
  intro i _
  simp only [Function.comp_apply, Nat.add_assoc]

theorem bytesAt_getElem? {n i : Nat} (hi : i < n) (h : Accessible m pt (va + i)) :
    (bytesAt m pt va n)[i]? = userByte m pt (va + i) := by
  obtain ⟨-, page, hp, -⟩ := h
  rw [bytesAt, List.getElem?_map, List.getElem?_range hi, userByte, hp, Option.map_some,
    Option.map_some, walkaddr_eq, hp]
  rfl

end

/-! ### The loops -/

/-- One round of the loop of `copyin`; `kernel/vm.c:381–394`. -/
def copyinBody (m : Mem) (pagetable : Nat) : Nat × Nat × List UInt8 →
    (Nat × Nat × List UInt8) ⊕ (Bool × List UInt8)
  | (srcva, len, dst) =>
    if len = 0 then .inr (true, dst)
    else
      let va0 := PGROUNDDOWN srcva
      let pa0 := walkaddr m pagetable va0
      if pa0 = 0 then .inr (false, dst)
      else
        let n := min (PGSIZE - (srcva - va0)) len
        .inl ((va0 + PGSIZE) % 2 ^ 64, len - n, dst ++ m.read pa0 (srcva - va0) n)

/-- One round of the loop of `copyout`; `kernel/vm.c:356–369`. -/
def copyoutBody (pagetable : Nat) : Mem × Nat × List UInt8 →
    (Mem × Nat × List UInt8) ⊕ (Bool × Mem)
  | (m, dstva, src) =>
    if src = [] then .inr (true, m)
    else
      let va0 := PGROUNDDOWN dstva
      let pa0 := walkaddr m pagetable va0
      if pa0 = 0 then .inr (false, m)
      else
        let n := min (PGSIZE - (dstva - va0)) src.length
        .inl (m.write pa0 (dstva - va0) (src.take n), (va0 + PGSIZE) % 2 ^ 64, src.drop n)

section
variable {m : Mem} {pt : Nat}

theorem min_pos {va n : Nat} (hn : n ≠ 0) : 0 < min (PGSIZE - va % PGSIZE) n := by
  have hmod : va % PGSIZE < PGSIZE := Nat.mod_lt va (by decide)
  omega

/-- The loop of `copyin` ends after one round for each page. -/
theorem copyin_rounds (m : Mem) (pt srcva len : Nat) :
    rounds (copyinBody m pt) (spanned srcva len + 1) (srcva, len, []) =
      some (copyin m pt srcva len) := by
  apply rounds_eq (fun fuel (s : Nat × Nat × List UInt8) ↦ copyinLoop m pt fuel s.1 s.2.1 s.2.2)
    (fun s ↦ s.2.1) (fun s ↦ spanned s.1 s.2.1)
  · rintro ⟨va, len, dst⟩ hlen
    exact if_pos hlen
  · rintro fuel ⟨va, len, dst⟩ r hr
    rw [copyinLoop]
    rw [copyinBody] at hr
    split at hr
    · next hlen =>
      cases hr
      exact if_pos hlen
    next hlen =>
    rw [if_neg hlen]
    dsimp only at hr ⊢
    split at hr
    · next hpa =>
      cases hr
      exact if_pos hpa
    · cases hr
  · rintro fuel ⟨va, len, dst⟩ t ht
    rw [copyinLoop]
    rw [copyinBody] at ht
    split at ht
    · cases ht
    next hlen =>
    rw [if_neg hlen]
    dsimp only at ht ⊢
    split at ht
    · cases ht
    next hpa =>
    rw [if_neg hpa]
    have heq := Sum.inl.inj ht
    subst heq
    dsimp only
    rw [walkaddr_page] at hpa
    rw [next_page (accessible_iff.mpr hpa), sub_page]
    refine ⟨rfl, ?_, spanned_next hlen⟩
    exact Nat.sub_lt (Nat.pos_of_ne_zero hlen) (min_pos hlen)
  · exact Nat.le_refl _
  · exact Nat.le_refl _

/-- The loop of `copyout` ends after one round for each page. -/
theorem copyout_rounds (m : Mem) (pt dstva : Nat) (src : List UInt8) :
    rounds (copyoutBody pt) (spanned dstva src.length + 1) (m, dstva, src) =
      some (copyout m pt dstva src) := by
  apply rounds_eq (fun fuel (s : Mem × Nat × List UInt8) ↦ copyoutLoop pt fuel s.1 s.2.1 s.2.2)
    (fun s ↦ s.2.2.length) (fun s ↦ spanned s.2.1 s.2.2.length)
  · rintro ⟨m, va, src⟩ hlen
    exact if_pos (List.length_eq_zero_iff.mp hlen)
  · rintro fuel ⟨m, va, src⟩ r hr
    rw [copyoutLoop]
    rw [copyoutBody] at hr
    split at hr
    · next hnil =>
      cases hr
      exact if_pos hnil
    next hnil =>
    rw [if_neg hnil]
    dsimp only at hr ⊢
    split at hr
    · next hpa =>
      cases hr
      exact if_pos hpa
    · cases hr
  · rintro fuel ⟨m, va, src⟩ t ht
    rw [copyoutLoop]
    rw [copyoutBody] at ht
    split at ht
    · cases ht
    next hnil =>
    rw [if_neg hnil]
    dsimp only at ht ⊢
    split at ht
    · cases ht
    next hpa =>
    rw [if_neg hpa]
    have heq := Sum.inl.inj ht
    subst heq
    have hlen : src.length ≠ 0 := fun h ↦ hnil (List.length_eq_zero_iff.mp h)
    dsimp only
    rw [walkaddr_page] at hpa
    rw [next_page (accessible_iff.mpr hpa), sub_page, List.length_drop]
    refine ⟨rfl, ?_, spanned_next hlen⟩
    exact Nat.sub_lt (Nat.pos_of_ne_zero hlen) (min_pos hlen)
  · exact Nat.le_refl _
  · exact Nat.le_refl _

/-- The bytes that `copyin` has stored when it stops. -/
theorem copyinLoop_spec {fuel srcva len : Nat} (dst : List UInt8) (hfuel : len ≤ fuel) :
    ∃ n, Good m pt srcva len n ∧
      copyinLoop m pt fuel srcva len dst = (decide (n = len), dst ++ bytesAt m pt srcva n) := by
  induction fuel generalizing srcva len dst with
  | zero =>
    have hlen : len = 0 := Nat.le_zero.mp hfuel
    refine ⟨0, ⟨by omega, by omega, by omega⟩, ?_⟩
    rw [copyinLoop, hlen]
    simp [bytesAt]
  | succ fuel ih =>
    rw [copyinLoop]
    dsimp only
    rw [walkaddr_page, sub_page]
    split
    · next hlen =>
      refine ⟨0, ⟨by omega, by omega, by omega⟩, ?_⟩
      simp [bytesAt, hlen]
    next hlen =>
    split
    · next hpa =>
      refine ⟨0, ⟨by omega, by omega, ?_⟩, ?_⟩
      · intro _ hacc
        exact accessible_iff.mp hacc hpa
      · have hne : ¬ 0 = len := fun h ↦ hlen h.symm
        simp [bytesAt, hne]
    · next hpa =>
      have hacc := accessible_iff.mpr hpa
      rw [next_page hacc]
      have hpos : 0 < min (PGSIZE - srcva % PGSIZE) len := min_pos hlen
      obtain ⟨n, hg, heq⟩ := @ih (nextPage srcva) (len - min (PGSIZE - srcva % PGSIZE) len)
        (dst ++ m.read (walkaddr m pt srcva) (srcva % PGSIZE) (min (PGSIZE - srcva % PGSIZE) len))
        (by omega)
      refine ⟨_, Good.cons hacc hg, ?_⟩
      have hle := hg.le
      have hdec : decide (n = len - min (PGSIZE - srcva % PGSIZE) len) =
          decide (min (PGSIZE - srcva % PGSIZE) len + n = len) := by
        rw [decide_eq_decide]
        omega
      rw [heq, hdec, List.append_assoc, read_page (Nat.min_le_left _ _), bytesAt_add]
      by_cases hn : n = 0
      · rw [hn, bytesAt_zero, bytesAt_zero]
      · have hc : min (PGSIZE - srcva % PGSIZE) len = PGSIZE - srcva % PGSIZE := by omega
        have hnext := next_add srcva 0
        rw [Nat.add_zero, Nat.add_zero] at hnext
        rw [hc, hnext]

theorem copyin_spec (m : Mem) (pt srcva len : Nat) : ∃ n, Good m pt srcva len n ∧
    copyin m pt srcva len = (decide (n = len), bytesAt m pt srcva n) :=
  copyinLoop_spec [] (Nat.le_refl len)

theorem Accessible.congr {m' : Mem} (h : userPage m' pt = userPage m pt) (va : Nat) :
    Accessible m' pt va ↔ Accessible m pt va := by
  rw [Accessible, Accessible, h]

theorem Good.congr {m' : Mem} (h : userPage m' pt = userPage m pt) {va len n : Nat}
    (hg : Good m' pt va len n) : Good m pt va len n :=
  ⟨hg.le, fun i hi ↦ (Accessible.congr h _).mp (hg.good i hi),
    fun hlt hacc ↦ hg.bad hlt ((Accessible.congr h _).mpr hacc)⟩

/-- `copyout` succeeds when it meets no byte that is not accessible. -/
theorem copyoutLoop_ok {fuel : Nat} (dstva : Nat) {src : List UInt8} (hfuel : src.length ≤ fuel)
    (ht : OwnPages m pt) : ∃ n, Good m pt dstva src.length n ∧
      (copyoutLoop pt fuel m dstva src).1 = decide (n = src.length) := by
  induction fuel generalizing m dstva src with
  | zero =>
    have hlen : src.length = 0 := Nat.le_zero.mp hfuel
    refine ⟨0, ⟨by omega, by omega, by omega⟩, ?_⟩
    rw [copyoutLoop, hlen]
    rfl
  | succ fuel ih =>
    rw [copyoutLoop]
    dsimp only
    rw [walkaddr_page, sub_page]
    split
    · next hnil =>
      refine ⟨0, ⟨by omega, by omega, ?_⟩, ?_⟩
      · rw [hnil]
        intro h
        cases h
      · rw [hnil]
        rfl
    next hnil =>
    have hlen : src.length ≠ 0 := fun h ↦ hnil (List.length_eq_zero_iff.mp h)
    split
    · next hpa =>
      refine ⟨0, ⟨by omega, by omega, ?_⟩, ?_⟩
      · intro _ hacc
        exact accessible_iff.mp hacc hpa
      · exact (decide_eq_false (Ne.symm hlen)).symm
    · next hpa =>
      have hacc := accessible_iff.mpr hpa
      rw [next_page hacc]
      obtain ⟨-, page, hp, -⟩ := accessible_iff.mpr hpa
      have hpage : walkaddr m pt dstva = page := by
        rw [walkaddr_eq, hp]
        rfl
      have hpos : 0 < min (PGSIZE - dstva % PGSIZE) src.length := min_pos hlen
      have hsame :=
        ht.write hp (dstva % PGSIZE) (src.take (min (PGSIZE - dstva % PGSIZE) src.length))
      rw [hpage]
      obtain ⟨n, hg, heq⟩ := @ih (m.write page (dstva % PGSIZE)
          (src.take (min (PGSIZE - dstva % PGSIZE) src.length))) (nextPage dstva)
          (src.drop (min (PGSIZE - dstva % PGSIZE) src.length))
        (by rw [List.length_drop]; omega) (ht.congr hsame)
      rw [List.length_drop] at hg heq
      have hle := hg.le
      refine ⟨_, Good.cons hacc (hg.congr (userPage_congr hsame)), ?_⟩
      rw [heq, decide_eq_decide]
      omega

/-- `copyout` leaves the allocator alone. -/
theorem copyoutLoop_free (pt fuel : Nat) (m : Mem) (dstva : Nat) (src : List UInt8) :
    (copyoutLoop pt fuel m dstva src).2.free = m.free ∧
      (copyoutLoop pt fuel m dstva src).2.fails = m.fails := by
  induction fuel generalizing m dstva src with
  | zero => exact ⟨rfl, rfl⟩
  | succ fuel ih =>
    rw [copyoutLoop]
    dsimp only
    split
    · exact ⟨rfl, rfl⟩
    split
    · exact ⟨rfl, rfl⟩
    · exact ih _ _ _

theorem reached_iff (ht : OwnPages m pt) (va i : Nat) :
    Reached m pt va i ↔ ∀ j ≤ i, Accessible m pt (va + j) := by
  constructor
  · intro h j hj
    have hsome := h j hj
    rw [accessible_iff, walkaddr_eq]
    cases hp : userPage m pt ((va + j) / PGSIZE) with
    | none =>
      rw [hp] at hsome
      cases hsome
    | some page => exact ht.notNull _ _ hp
  · intro h j hj
    obtain ⟨-, page, hp, -⟩ := h j hj
    rw [hp]
    rfl

end

/-- A copy of `src` to the bytes of the process from `dstva` on, one after the other up to the
first that is not accessible. -/
structure BytesOut (m : Mem) (pt dstva : Nat) (src : List UInt8) (r : Bool × Mem) : Prop where
  ok_iff : r.1 = true ↔ ∀ i < src.length, Accessible m pt (dstva + i)
  stored : ∀ i b page, src[i]? = some b → (∀ j ≤ i, Accessible m pt (dstva + j)) →
    userPage m pt ((dstva + i) / PGSIZE) = some page → r.2.cells page ((dstva + i) % PGSIZE) = b
  frame : ∀ page o, (∀ i < src.length, (∀ j ≤ i, Accessible m pt (dstva + j)) →
    userPage m pt ((dstva + i) / PGSIZE) = some page → (dstva + i) % PGSIZE ≠ o) →
    r.2.cells page o = m.cells page o
  allocator : r.2.free = m.free ∧ r.2.fails = m.fails

/-- A copy of the `len` bytes of the process from `srcva` on, with the bytes stored in the buffer of
the kernel, up to the first that is not accessible. -/
structure BytesIn (m : Mem) (pt srcva len : Nat) (r : Bool × List UInt8) : Prop where
  ok_iff : r.1 = true ↔ ∀ i < len, Accessible m pt (srcva + i)
  stored : ∀ i b, r.2[i]? = some b ↔
    i < len ∧ (∀ j ≤ i, Accessible m pt (srcva + j)) ∧ userByte m pt (srcva + i) = some b

theorem bytesOut_copyout {m : Mem} {pt : Nat} (h : OwnPages m pt) (dstva : Nat) (src : List UInt8) :
    BytesOut m pt dstva src (copyout m pt dstva src) := by
  obtain ⟨n, hg, hok⟩ := copyoutLoop_ok dstva (Nat.le_refl src.length) h
  have hcopy := copyout_spec h dstva src
  refine ⟨?_, ?_, ?_, copyoutLoop_free pt _ m dstva src⟩
  · rw [copyout, hok, decide_eq_true_eq]
    exact hg.all_iff
  · intro i b page hb hacc hp
    exact hcopy.stored i b page hb ((reached_iff h dstva i).mpr hacc) hp
  · intro page o hmiss
    apply hcopy.frame
    intro i hi hreached
    exact hmiss i hi ((reached_iff h dstva i).mp hreached)

theorem bytesIn_copyin (m : Mem) (pt srcva len : Nat) :
    BytesIn m pt srcva len (copyin m pt srcva len) := by
  obtain ⟨n, hg, heq⟩ := copyin_spec m pt srcva len
  rw [heq]
  have hle := hg.le
  refine ⟨?_, ?_⟩
  · rw [decide_eq_true_eq]
    exact hg.all_iff
  · intro i b
    constructor
    · intro hb
      have hi : i < n := by
        have := (List.getElem?_eq_some_iff.mp hb).1
        rw [bytesAt_length] at this
        exact this
      rw [bytesAt_getElem? hi (hg.good i hi)] at hb
      exact ⟨by omega, fun j hj ↦ hg.good j (by omega), hb⟩
    · rintro ⟨hi, hacc, hb⟩
      have hlt : i < n := by
        by_contra hge
        exact hg.bad (by omega) (hacc n (by omega))
      rw [bytesAt_getElem? hlt (hg.good i hlt)]
      exact hb

/-- `copyout` and `copyin` copy byte by byte through the page table, in one round for each page. -/
theorem copy_bytewise {m : Mem} {pt : Nat} (h : OwnPages m pt) (va len : Nat) (src : List UInt8) :
    BytesOut m pt va src (copyout m pt va src) ∧ BytesIn m pt va len (copyin m pt va len) ∧
      rounds (copyoutBody pt) (spanned va src.length + 1) (m, va, src) =
      some (copyout m pt va src) ∧
      rounds (copyinBody m pt) (spanned va len + 1) (va, len, []) = some (copyin m pt va len) :=
  ⟨bytesOut_copyout h va src, bytesIn_copyin m pt va len, copyout_rounds m pt va src,
    copyin_rounds m pt va len⟩

/-- On a table that maps one page, at 0: a copy within the page, and one that wraps around. -/
theorem copy_bytewise_text : ∃ s, TextRun s ∧ OwnPages s.mem s.root ∧
    (copyout s.mem s.root 4095 [7]).1 = true ∧ (copyin s.mem s.root (2 ^ 64 - 1) 2).1 = false := by
  obtain ⟨s, hrun, htable, hlookup, -, -⟩ := pageRun_table (.inl rfl)
  have hpage : userPage s.mem s.root 0 = some 0x80102 := by
    rw [userPage, hlookup]
    rfl
  refine ⟨s, hrun, htable.ownPages, ?_, ?_⟩
  · rw [(copy_bytewise htable.ownPages 4095 0 [7]).1.ok_iff]
    intro i hi
    have hz : i = 0 := Nat.lt_one_iff.mp hi
    rw [hz]
    exact ⟨by decide, _, hpage, by decide⟩
  · rw [Bool.eq_false_iff, ne_eq, (copy_bytewise htable.ownPages (2 ^ 64 - 1) 2 []).2.1.ok_iff]
    intro hall
    exact absurd (hall 0 (by decide)).1 (by decide)

end Xv6.Vm
