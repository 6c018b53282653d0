import Xv6.Vm.Map

/-!
# Address spaces

A user page table maps `n` pages from virtual page 0 on, and above the last two virtual pages before
`MAXVA` what `proc_pagetable` put there. The functions of `kernel/vm.c` that grow, shrink, copy and
free an address space keep this layout, and they own exactly its page-table pages and its user
pages.
-/

namespace Xv6.Vm

open Xv6.Lib

/-- The number of pages that hold `sz` bytes. -/
def pages (sz : Nat) : Nat := (sz + PGSIZE - 1) / PGSIZE

/-- The virtual page of the trapframe; the trampoline is the next one. -/
def TOP : Nat := NPAGES - 2

/-- The table at `pt` maps the first `n` virtual pages with some permission, no other page below
`TOP`, and from there on has the entries `top`. -/
structure Layout (c : Ram) (pt n : Nat) (top : Nat → Nat) : Prop where
  table : Table c 2 pt
  size : n ≤ TOP
  leaf : ∀ v < n, Leaf (entry c 2 pt v)
  gap : ∀ v, n ≤ v → v < TOP → ¬ Valid (entry c 2 pt v)
  top : ∀ v, TOP ≤ v → v < 2 * NPAGES → entry c 2 pt v = top v

/-- The pages of an address space: those of the table, and the first `n` user pages. -/
def space (c : Ram) (pt n : Nat) : Nat → Nat := tables c 2 pt + users c pt 0 n

/-- The byte at virtual address `va`, whatever the permissions. -/
def image (c : Ram) (pt va : Nat) : UInt8 := c (PTE2PA (entry c 2 pt (va / PGSIZE))) (va % PGSIZE)

section
variable {k : Kernel} {m m' : Mem} {pt n : Nat} {top own own' extra : Nat → Nat}

theorem TOP_lt : TOP < NPAGES := by decide

theorem TRAPFRAME_eq : TRAPFRAME = TOP * PGSIZE := by decide

theorem TRAMPOLINE_eq : TRAMPOLINE = (TOP + 1) * PGSIZE := by decide

theorem space_zero (c : Ram) (pt : Nat) : space c pt 0 = tables c 2 pt := by
  rw [space, users_zero, add_zero]

/-- A page table and its pages depend on the contents of its own pages only. -/
theorem SameTable.layout {c c' : Ram} (h : SameTable c c' 2 pt) (hl : Layout c pt n top) :
    Layout c' pt n top := by
  refine ⟨h.shape hl.table, hl.size, ?_, ?_, ?_⟩
  · intro v hv
    rw [h.entries]
    exact hl.leaf v hv
  · intro v hlo hhi
    rw [h.entries]
    exact hl.gap v hlo hhi
  · intro v hlo hhi
    rw [h.entries]
    exact hl.top v hlo hhi

theorem SameTable.space {c c' : Ram} (h : SameTable c c' 2 pt) (n : Nat) :
    space c' pt n = space c pt n := by
  rw [Vm.space, Vm.space, h.pages, users_congr (fun v _ _ ↦ h.entries v)]

/-- What is done to other pages leaves a table alone. -/
theorem sameTable_of_moves (hm : Moves m.toHeap m'.toHeap own own')
    (hs : Sound k m (own + tables m.cells 2 pt)) : SameTable m.cells m'.cells 2 pt := by
  apply SameTable.of_cells
  intro q hq
  have := hs.once q
  rw [Pi.add_apply] at this
  exact hm.cells q (by omega) (by omega)

theorem Sound.spaceTables (hs : Sound k m (own + space m.cells pt n)) :
    Sound k m (own + tables m.cells 2 pt) := by
  apply hs.mono
  intro q
  simp only [space, Pi.add_apply]
  omega

/-- The user pages of an address space are different pages of memory, so that there are fewer of
them than virtual pages. -/
theorem Sound.users_lt (hs : Sound k m (space m.cells pt n)) : n < TOP := by
  have husers : Sound k m (users m.cells pt 0 n) := hs.right
  have hnodup : (mapped m.cells pt 0 n).Nodup := List.nodup_iff_count_le_one.mpr husers.le_one
  have hsub : mapped m.cells pt 0 n ⊆ List.range (2 ^ 20) := by
    intro q hq
    exact List.mem_range.mpr (husers.lt (List.count_pos_iff.mpr hq))
  have hlen := (hnodup.subperm hsub).length_le
  rw [mapped, List.length_map, List.length_range', List.length_range] at hlen
  have hT : TOP = 2 ^ 26 - 2 := rfl
  omega

theorem page_of_lt {va : Nat} (h : va < n * PGSIZE) : va / PGSIZE < n :=
  (Nat.div_lt_iff_lt_mul (by decide)).mpr h

theorem users_pos (c : Ram) (pt : Nat) {v : Nat} (hv : v < n) :
    0 < users c pt 0 n (PTE2PA (entry c 2 pt v)) := by
  apply List.count_pos_iff.mpr
  apply List.mem_map_of_mem
  exact List.mem_range'_1.mpr ⟨Nat.zero_le v, by omega⟩

/-- The image depends on the entries and the user pages. -/
theorem image_congr {c c' : Ram} {va : Nat}
    (he : entry c' 2 pt (va / PGSIZE) = entry c 2 pt (va / PGSIZE))
    (hc : c' (PTE2PA (entry c 2 pt (va / PGSIZE))) = c (PTE2PA (entry c 2 pt (va / PGSIZE)))) :
    image c' pt va = image c pt va := by
  rw [image, image, he, hc]

/-! ### One page more or less -/

/-- `mappages` of a single page. -/
theorem mappages_page {v page perm : Nat} (hperm : perm < 1024) (hv : v < NPAGES)
    (hpage : page < 2 ^ 52) (ht : Table m.cells 2 pt) (hs : Sound k m (tables m.cells 2 pt))
    (hfree : ¬ Valid (entry m.cells 2 pt v)) :
    Returns (mappages m pt (v * PGSIZE) PGSIZE page perm) (fun r ↦
      Moves m.toHeap r.2.toHeap (tables m.cells 2 pt) (tables r.2.cells 2 pt) ∧
      Table r.2.cells 2 pt ∧
      ∀ u < 2 * NPAGES, entry r.2.cells 2 pt u =
        if r.1 = true ∧ u = v then mkPte page (perm ||| PTE_V) else entry m.cells 2 pt u) := by
  have hlast : (v * PGSIZE + PGSIZE - 1) / PGSIZE = v + 0 := by
    unfold PGSIZE
    omega
  apply (mappages_spec hperm _ (page_div v) hlast (by decide) hv hpage ht hs ?_).mono
  · rintro r ⟨j, hj, hok, hmap⟩
    refine ⟨hmap.moves, hmap.table, ?_⟩
    intro u hu
    rw [hmap.entries u hu]
    by_cases hr : r.1 = true ∧ u = v
    · have := hok.mp hr.1
      rw [if_pos hr, if_pos (by omega), hr.2, Nat.sub_self, Nat.add_zero]
    · rw [if_neg hr, if_neg]
      intro hin
      apply hr
      exact ⟨hok.mpr (by omega), by omega⟩
  · intro u hlo hhi
    have : u = v := by omega
    rw [this]
    exact hfree

/-- How an address space of `n` pages became one of `n'` pages. New pages have the flags `flags`. -/
structure Resized (m m' : Mem) (pt n n' : Nat) (top flags : Nat → Nat) : Prop where
  layout : Layout m'.cells pt n' top
  moves : Moves m.toHeap m'.toHeap (space m.cells pt n) (space m'.cells pt n')
  kept : ∀ v < n, v < n' → entry m'.cells 2 pt v = entry m.cells 2 pt v
  added : ∀ v, n ≤ v → v < n' → PTE_FLAGS (entry m'.cells 2 pt v) = flags v

theorem Resized.refl (h : Layout m.cells pt n top) (flags : Nat → Nat) :
    Resized m m pt n n top flags :=
  ⟨h, Moves.refl _ _, fun _ _ _ ↦ rfl, fun _ hlo hhi ↦ absurd hlo (Nat.not_le.mpr hhi)⟩

theorem Resized.trans {m₁ : Mem} {n₁ n' : Nat} {flags : Nat → Nat}
    (h : Resized m m₁ pt n n₁ top flags) (h' : Resized m₁ m' pt n₁ n' top flags)
    (hle : n ≤ n₁ ∨ n' ≤ n₁) :
    Resized m m' pt n n' top flags := by
  refine ⟨h'.layout, h.moves.trans h'.moves, ?_, ?_⟩
  · intro v hv hv'
    rw [h'.kept v (by omega) hv', h.kept v hv (by omega)]
  · intro v hlo hhi
    by_cases hv : v < n₁
    · rw [h'.kept v hv hhi]
      exact h.added v hlo hv
    · exact h'.added v (by omega) hhi

/-- A change of the size keeps the bytes, and new pages have those of `fill`. -/
structure Grown (m m' : Mem) (pt n n' : Nat) (top flags : Nat → Nat) (fill : Nat → UInt8) : Prop
    extends Resized m m' pt n n' top flags where
  same : ∀ va < n * PGSIZE, va < n' * PGSIZE → image m'.cells pt va = image m.cells pt va
  filled : ∀ va, n * PGSIZE ≤ va → va < n' * PGSIZE → image m'.cells pt va = fill va

theorem Grown.refl (h : Layout m.cells pt n top) (flags : Nat → Nat) (fill : Nat → UInt8) :
    Grown m m pt n n top flags fill :=
  ⟨Resized.refl h flags, fun _ _ _ ↦ rfl, fun _ hlo hhi ↦ absurd hlo (Nat.not_le.mpr hhi)⟩

theorem Grown.trans {m₁ : Mem} {n₁ n' : Nat} {flags : Nat → Nat} {fill : Nat → UInt8}
    (h : Grown m m₁ pt n n₁ top flags fill) (h' : Grown m₁ m' pt n₁ n' top flags fill)
    (hle : n ≤ n₁ ∨ n' ≤ n₁) : Grown m m' pt n n' top flags fill := by
  have hmul (a b : Nat) (hab : a ≤ b) : a * PGSIZE ≤ b * PGSIZE := Nat.mul_le_mul_right PGSIZE hab
  refine ⟨h.toResized.trans h'.toResized hle, ?_, ?_⟩
  · intro va hva hva'
    have hva₁ : va < n₁ * PGSIZE := by
      rcases hle with hle | hle
      · exact Nat.lt_of_lt_of_le hva (hmul _ _ hle)
      · exact Nat.lt_of_lt_of_le hva' (hmul _ _ hle)
    rw [h'.same va hva₁ hva', h.same va hva hva₁]
  · intro va hlo hhi
    by_cases hva : va < n₁ * PGSIZE
    · rw [h'.same va hva hhi]
      exact h.filled va hlo hva
    · exact h'.filled va (by omega) hhi

/-- The flags and bytes of new pages in another form. -/
theorem Grown.congr {n' : Nat} {flags flags' : Nat → Nat} {fill fill' : Nat → UInt8}
    (h : Grown m m' pt n n' top flags fill) (hflags : ∀ v, n ≤ v → v < n' → flags v = flags' v)
    (hfill : ∀ va, n * PGSIZE ≤ va → va < n' * PGSIZE → fill va = fill' va) :
    Grown m m' pt n n' top flags' fill' := by
  refine ⟨⟨h.layout, h.moves, h.kept, ?_⟩, h.same, ?_⟩
  · intro v hlo hhi
    rw [← hflags v hlo hhi]
    exact h.added v hlo hhi
  · intro va hlo hhi
    rw [← hfill va hlo hhi]
    exact h.filled va hlo hhi

theorem mkPte_leaf {page flags : Nat} (hflags : flags < 1024) (hv : flags &&& PTE_V ≠ 0)
    (hp : flags &&& (PTE_R ||| PTE_W ||| PTE_X) ≠ 0) : Leaf (mkPte page flags) := by
  refine ⟨?_, ?_⟩
  · rw [Valid, mkPte_and hflags (by decide)]
    exact hv
  · rw [mkPte_and hflags (by decide)]
    exact hp

theorem mkPte_FLAGS {page flags : Nat} (hflags : flags < 1024) :
    PTE_FLAGS (mkPte page flags) = flags := by
  rw [PTE_FLAGS_eq, mkPte_flags hflags]

/-- Mapping one more page at the end. -/
theorem grow_spec {page perm : Nat} (h : Layout m.cells pt n top)
    (hs : Sound k m (space m.cells pt n + one page)) (hperm : perm < 1024)
    (hp : (perm ||| PTE_V) &&& (PTE_R ||| PTE_W ||| PTE_X) ≠ 0) :
    Returns (mappages m pt (n * PGSIZE) PGSIZE page perm) (fun r ↦
      if r.1 = true then
        Moves m.toHeap r.2.toHeap (space m.cells pt n + one page) (space r.2.cells pt (n + 1)) ∧
        Layout r.2.cells pt (n + 1) top ∧
        (∀ v < n, entry r.2.cells 2 pt v = entry m.cells 2 pt v) ∧
        entry r.2.cells 2 pt n = mkPte page (perm ||| PTE_V) ∧
        ∀ q, 0 < (users m.cells pt 0 n + one page) q → r.2.cells q = m.cells q
      else
        Moves m.toHeap r.2.toHeap (space m.cells pt n) (space r.2.cells pt n) ∧
        Layout r.2.cells pt n top ∧
        (∀ v < n, entry r.2.cells 2 pt v = entry m.cells 2 pt v) ∧
        ∀ q, 0 < (users m.cells pt 0 n + one page) q → r.2.cells q = m.cells q) := by
  have hn : n < TOP := hs.left.users_lt
  have hT := TOP_lt
  have hN : NPAGES = TOP + 2 := rfl
  have hpage : page < 2 ^ 52 := by
    have := hs.lt (q := page) (by rw [Pi.add_apply, one_self]; omega)
    omega
  have hflags := or_valid_lt hperm
  apply (mappages_page hperm (by omega) hpage h.table hs.left.left
    (h.gap n (Nat.le_refl n) hn)).mono
  rintro ⟨ok, m'⟩ ⟨hmoves, htable, hentries⟩
  simp only at hmoves htable hentries ⊢
  have hother (v : Nat) (hv : v < 2 * NPAGES) (hne : v ≠ n) :
      entry m'.cells 2 pt v = entry m.cells 2 pt v := by
    rw [hentries v hv, if_neg (fun hc ↦ hne hc.2)]
  have hkept (v : Nat) (hv : v < n) : entry m'.cells 2 pt v = entry m.cells 2 pt v :=
    hother v (by omega) (by omega)
  have husers : users m'.cells pt 0 n = users m.cells pt 0 n :=
    users_congr (fun v _ hv ↦ hkept v (by omega))
  have hgap (v : Nat) (hlo : n + 1 ≤ v) (hhi : v < TOP) : ¬ Valid (entry m'.cells 2 pt v) := by
    rw [hother v (by omega) (by omega)]
    exact h.gap v (by omega) hhi
  have htop (v : Nat) (hlo : TOP ≤ v) (hhi : v < 2 * NPAGES) : entry m'.cells 2 pt v = top v := by
    rw [hother v hhi (by omega)]
    exact h.top v hlo hhi
  have hleaf (v : Nat) (hv : v < n) : Leaf (entry m'.cells 2 pt v) := by
    rw [hkept v hv]
    exact h.leaf v hv
  have hmoves' := hmoves.add (users m.cells pt 0 n)
  have hdata (q : Nat) (hq : 0 < (users m.cells pt 0 n + one page) q) : m'.cells q = m.cells q := by
    apply hmoves.cells_of_pos (e := users m.cells pt 0 n + one page) _ hq
    rw [← add_assoc]
    exact hs.once
  by_cases hok : ok = true
  · have hnew : entry m'.cells 2 pt n = mkPte page (perm ||| PTE_V) := by
      rw [hentries n (by omega), if_pos ⟨hok, rfl⟩]
    rw [if_pos hok]
    refine ⟨?_, ⟨htable, hn, ?_, hgap, htop⟩, hkept, hnew, hdata⟩
    · have hadd := hmoves'.add (one page)
      refine hadd.congr rfl ?_
      rw [space, users_append, users_one, Nat.zero_add, hnew, PTE2PA_mkPte hflags hpage, husers,
        add_assoc]
    · intro v hv
      by_cases hvn : v = n
      · rw [hvn, hnew]
        exact mkPte_leaf hflags (or_valid_and perm) hp
      · exact hleaf v (by omega)
  · rw [if_neg hok]
    refine ⟨?_, ⟨htable, h.size, hleaf, ?_, htop⟩, hkept, hdata⟩
    · refine hmoves'.congr rfl ?_
      rw [space, husers]
    · intro v hlo hhi
      rw [hentries v (by omega), if_neg (fun hc ↦ hok hc.1)]
      exact h.gap v hlo hhi

/-- Unmapping and freeing the pages from `n'` on. -/
theorem shrink_spec {n' : Nat} (h : Layout m.cells pt n top) (hs : Sound k m (space m.cells pt n))
    (hn : n' ≤ n) (flags : Nat → Nat) (fill : Nat → UInt8) :
    Returns (uvmunmap k m pt (n' * PGSIZE) (n - n') true) (fun m' ↦
      Grown m m' pt n n' top flags fill) := by
  have hT := TOP_lt
  have hsize := h.size
  have hN : NPAGES = TOP + 2 := rfl
  have hsplit : users m.cells pt 0 n = users m.cells pt 0 n' + users m.cells pt n' (n - n') := by
    have := users_append m.cells pt 0 n' (n - n')
    rwa [Nat.add_sub_cancel' hn, Nat.zero_add] at this
  have hown : space m.cells pt n =
      tables m.cells 2 pt + users m.cells pt n' (n - n') + users m.cells pt 0 n' := by
    rw [space, hsplit, add_comm (users m.cells pt 0 n'), add_assoc]
  have hs' := hs
  rw [hown] at hs'
  apply (uvmunmap_spec true (by omega) h.table hs'.left ?_).mono
  · intro m' hun
    have hentry (v : Nat) (hv : v < 2 * NPAGES) (hout : v < n' ∨ n ≤ v) :
        entry m'.cells 2 pt v = entry m.cells 2 pt v := by
      rw [hun.entries v hv, if_neg (by omega)]
    have husers : users m'.cells pt 0 n' = users m.cells pt 0 n' :=
      users_congr (fun v _ hv ↦ hentry v (by omega) (by omega))
    refine ⟨⟨⟨hun.table, by omega, ?_, ?_, ?_⟩, ?_, ?_, ?_⟩, ?_, ?_⟩
    · intro v hv
      rw [hentry v (by omega) (by omega)]
      exact h.leaf v (by omega)
    · intro v hlo hhi
      rw [hun.entries v (by omega)]
      split
      · exact not_valid_zero
      · exact h.gap v (by omega) hhi
    · intro v hlo hhi
      rw [hentry v hhi (by omega)]
      exact h.top v hlo hhi
    · refine (hun.moves.add (users m.cells pt 0 n')).congr hown ?_
      rw [space, husers]
    · intro v _ hv
      exact hentry v (by omega) (by omega)
    · intro v hlo hhi
      omega
    · intro va _ hva
      have hv := page_of_lt hva
      exact image_congr (hentry _ (by omega) (by omega))
        (hun.moves.cells_of_pos hs'.once (users_pos m.cells pt hv))
    · intro va hlo hhi
      have := Nat.mul_le_mul_right PGSIZE hn
      omega
  · intro v _ hhi
    exact h.leaf v (by omega)

/-! ### Sizes -/

theorem pages_mul (n : Nat) : pages (n * PGSIZE) = n := by
  unfold pages PGSIZE
  omega

theorem pages_zero : pages 0 = 0 := by decide

theorem pages_le {sz n : Nat} : pages sz ≤ n ↔ sz ≤ n * PGSIZE := by
  unfold pages PGSIZE
  omega

theorem TOP_mul : TOP * PGSIZE < 2 ^ 38 := by decide

/-- Rounding up the size of an address space. -/
theorem PGROUNDUP_eq {sz : Nat} (h : pages sz ≤ TOP) : PGROUNDUP sz = pages sz * PGSIZE := by
  have hle := pages_le.mp h
  have hT := TOP_mul
  rw [PGROUNDUP, Nat.mod_eq_of_lt, pages]
  unfold PGSIZE at *
  omega

/-- `uvmdealloc` of an address space of `oldsz` bytes. -/
theorem uvmdealloc_spec {oldsz newsz : Nat} (h : Layout m.cells pt (pages oldsz) top)
    (hs : Sound k m (space m.cells pt (pages oldsz))) (flags : Nat → Nat) (fill : Nat → UInt8) :
    Returns (uvmdealloc k m pt oldsz newsz) (fun r ↦
      r.1 = min oldsz newsz ∧ Grown m r.2 pt (pages oldsz) (pages r.1) top flags fill) := by
  rw [uvmdealloc]
  split
  · next hle =>
    refine Returns.ok ⟨(Nat.min_eq_left hle).symm, Grown.refl h flags fill⟩
  · next hlt =>
    have hmin : newsz = min oldsz newsz := (Nat.min_eq_right (by omega)).symm
    have hpages : pages newsz ≤ pages oldsz := by
      unfold pages PGSIZE
      omega
    have hsize := h.size
    rw [PGROUNDUP_eq (Nat.le_trans hpages hsize), PGROUNDUP_eq hsize]
    split
    · have hcount : intToUint64 ((pages oldsz * PGSIZE - pages newsz * PGSIZE) / PGSIZE) =
          pages oldsz - pages newsz := by
        have hT : TOP = 2 ^ 26 - 2 := rfl
        rw [← Nat.sub_mul, page_div, intToUint64, Nat.mod_eq_of_lt (by omega), if_pos (by omega)]
      rw [hcount]
      apply (shrink_spec h hs hpages flags fill).bind
      intro m' hm'
      exact Returns.pure ⟨hmin, hm'⟩
    · next hno =>
      have heq : pages newsz = pages oldsz := by
        unfold PGSIZE at hno
        omega
      refine Returns.ok ⟨hmin, ?_⟩
      rw [heq]
      exact Grown.refl h flags fill

/-- The flags of a page from `uvmalloc`. -/
def userFlags (xperm : Nat) : Nat := PTE_R ||| PTE_U ||| xperm ||| PTE_V

theorem userFlags_leaf (xperm : Nat) :
    userFlags xperm &&& (PTE_R ||| PTE_W ||| PTE_X) ≠ 0 := by
  intro hzero
  have hbit : (userFlags xperm &&& (PTE_R ||| PTE_W ||| PTE_X)).testBit 1 = true := by
    have hR : PTE_R.testBit 1 = true := by decide
    simp only [userFlags, Nat.testBit_or, Nat.testBit_and, hR, Bool.true_or, Bool.and_true]
  rw [hzero, Nat.zero_testBit] at hbit
  cases hbit

/-- Nothing happened to memory. -/
theorem Grown.of_heap (h : Layout m.cells pt n top) (he : m'.toHeap = m.toHeap)
    (flags : Nat → Nat) (fill : Nat → UInt8) : Grown m m' pt n n top flags fill := by
  have hc : m'.cells = m.cells := congrArg Heap.cells he
  refine ⟨⟨?_, ?_, ?_, fun _ hlo hhi ↦ absurd hlo (Nat.not_le.mpr hhi)⟩, ?_,
    fun _ hlo hhi ↦ absurd hlo (Nat.not_le.mpr hhi)⟩
  · rw [hc]
    exact h
  · rw [hc, he]
    exact Moves.refl _ _
  · intro v _ _
    rw [hc]
  · intro va _ _
    rw [hc]

/-- A page from `kalloc`, with any contents, is mapped as the next page, or else given back. -/
theorem newPage_spec {page perm : Nat} (m₁ : Mem) (h : Layout m.cells pt n top)
    (hs : Sound k m (space m.cells pt n)) (hk : kalloc m = (some page, m'))
    (hfree : m₁.free = m'.free) (hcells : ∀ q, q ≠ page → m₁.cells q = m'.cells q)
    (hperm : perm < 1024) (hp : (perm ||| PTE_V) &&& (PTE_R ||| PTE_W ||| PTE_X) ≠ 0) :
    Returns (mappages m₁ pt (n * PGSIZE) PGSIZE page perm) (fun r ↦
      if r.1 = true then
        Grown m r.2 pt n (n + 1) top (fun _ ↦ perm ||| PTE_V)
        (fun va ↦ m₁.cells page (va % PGSIZE)) ∧
          PTE2PA (entry r.2.cells 2 pt n) = page
      else Returns (kfree k r.2 page)
      (fun m₂ ↦ ∀ flags fill, Grown m m₂ pt n n top flags fill)) := by
  have hsame : SameTable m.cells m₁.cells 2 pt := by
    apply sameTable_of_moves (kalloc_moves hk hfree hcells 0)
    rw [zero_add]
    exact hs.left
  have hm₁ : Moves m.toHeap m₁.toHeap (space m.cells pt n) (space m₁.cells pt n + one page) := by
    rw [hsame.space]
    exact kalloc_moves hk hfree hcells _
  have hs₁ := hs.moves hm₁
  have hpage : page < 2 ^ 52 := by
    have := hs₁.lt (q := page) (by rw [Pi.add_apply, one_self]; omega)
    omega
  -- the user pages have their old contents all the way
  have hold {v : Nat} (hv : v < n) : m₁.cells (PTE2PA (entry m.cells 2 pt v)) =
      m.cells (PTE2PA (entry m.cells 2 pt v)) := by
    apply (kalloc_moves hk hfree hcells 0).cells_of_pos (e := users m.cells pt 0 n) _
      (users_pos m.cells pt hv)
    rw [zero_add]
    exact hs.right.once
  have huser {v : Nat} (hv : v < n) :
      0 < (users m₁.cells pt 0 n + one page) (PTE2PA (entry m.cells 2 pt v)) := by
    have := users_pos m₁.cells pt hv
    rw [hsame.entries] at this
    rw [Pi.add_apply]
    omega
  have hflags := or_valid_lt hperm
  apply (grow_spec (hsame.layout h) hs₁ hperm hp).mono
  intro r hr
  split at hr
  · next hok =>
    obtain ⟨hm₂, hlayout, hkept, hnew, hdata⟩ := hr
    rw [if_pos hok]
    refine ⟨⟨⟨hlayout, hm₁.trans hm₂, ?_, ?_⟩, ?_, ?_⟩, by rw [hnew, PTE2PA_mkPte hflags hpage]⟩
    · intro v hv _
      rw [hkept v hv, hsame.entries]
    · intro v hlo hhi
      have : v = n := by omega
      rw [this, hnew]
      exact mkPte_FLAGS hflags
    · intro va hva _
      have hv := page_of_lt hva
      apply image_congr
      · rw [hkept _ hv, hsame.entries]
      · rw [hdata _ (huser hv), hold hv]
    · intro va hlo hhi
      have hv : va / PGSIZE = n := by
        rw [Nat.div_eq_iff (by decide)]
        rw [Nat.add_mul, Nat.one_mul] at hhi
        omega
      rw [image, hv, hnew, PTE2PA_mkPte hflags hpage, hdata page]
      rw [Pi.add_apply, one_self]
      omega
  · next hok =>
    obtain ⟨hm₂, hlayout, hkept, hdata⟩ := hr
    rw [if_neg hok]
    have hm₂' := hm₂.add (one page)
    have hs₂ := hs₁.moves hm₂'
    apply (kfree_spec hs₂).mono
    rintro m₂ ⟨hm₃, hcells₃⟩ flags fill
    have hsame₃ : SameTable r.2.cells m₂.cells 2 pt := by
      apply SameTable.of_cells
      intro q hq
      apply hcells₃
      rintro rfl
      have := hs₂.once q
      simp only [space, Pi.add_apply, one_self] at this
      omega
    refine ⟨⟨hsame₃.layout hlayout, ?_, ?_, fun _ hlo hhi ↦ absurd hlo (Nat.not_le.mpr hhi)⟩, ?_,
      fun _ hlo hhi ↦ absurd hlo (Nat.not_le.mpr hhi)⟩
    · rw [hsame₃.space]
      exact (hm₁.trans hm₂').trans hm₃
    · intro v hv _
      rw [hsame₃.entries, hkept v hv, hsame.entries]
    · intro va hva _
      have hv := page_of_lt hva
      have hne : PTE2PA (entry m.cells 2 pt (va / PGSIZE)) ≠ page := by
        intro he
        have hfresh := (kalloc_fresh hk hs).1
        have := users_pos m.cells pt hv
        rw [he] at this
        rw [space, Pi.add_apply] at hfresh
        omega
      apply image_congr
      · rw [hsame₃.entries, hkept _ hv, hsame.entries]
      · rw [hcells₃ _ hne, hdata _ (huser hv), hold hv]

/-- The loop of `uvmalloc` from page `a` on. -/
theorem uvmallocLoop_spec {b a xperm cnt : Nat} (h : Layout m.cells pt a top)
    (hs : Sound k m (space m.cells pt a)) (hb : b ≤ a) (hperm : xperm < 1024) :
    Returns (uvmallocLoop k pt (b * PGSIZE) xperm cnt m (a * PGSIZE)) (fun r ↦
      Grown m r.2 pt a (if r.1 = true then a + cnt else b) top (fun _ ↦ userFlags xperm) 0) := by
  have hflags : PTE_R ||| PTE_U ||| xperm < 1024 :=
    Nat.or_lt_two_pow (n := 10) (by decide) hperm
  induction cnt generalizing m a with
  | zero => exact Returns.ok (Grown.refl h _ _)
  | succ cnt ih =>
    -- a page cannot be had, and those of this call go back
    have hundo {m₁ : Mem} (hm : Grown m m₁ pt a a top (fun _ ↦ userFlags xperm) 0) :
        Returns (uvmdealloc k m₁ pt (a * PGSIZE) (b * PGSIZE) >>= fun r ↦
          (.ok (false, r.2) : Except String (Bool × Mem))) (fun r ↦
          Grown m r.2 pt a (if r.1 = true then a + (cnt + 1) else b) top
            (fun _ ↦ userFlags xperm) 0) := by
      have hl := hm.layout
      have hs₁ := hs.moves hm.moves
      have hpages := pages_mul a
      rw [← hpages] at hl hs₁
      apply (uvmdealloc_spec hl hs₁ (fun _ ↦ userFlags xperm) 0).bind
      rintro r ⟨hr, hres⟩
      have hmin : min (a * PGSIZE) (b * PGSIZE) = b * PGSIZE :=
        Nat.min_eq_right (Nat.mul_le_mul_right _ hb)
      rw [hr, hmin, hpages, pages_mul] at hres
      exact Returns.ok (hm.trans hres (Or.inl (Nat.le_refl a)))
    have hnext : a * PGSIZE + PGSIZE = (a + 1) * PGSIZE := (Nat.succ_mul a PGSIZE).symm
    rw [uvmallocLoop]
    split
    · next m₁ hk => exact hundo (Grown.of_heap h (kalloc_none hk) _ _)
    · next page m₁ hk =>
      have hnew := newPage_spec (m₁.fill page 0) h hs hk rfl
        (fun q hq ↦ Function.update_of_ne hq ..) hflags (userFlags_leaf xperm)
      apply hnew.bind
      rintro ⟨ok, m₂⟩ hr
      cases ok with
      | true =>
        have hr : Grown m m₂ pt a (a + 1) top (fun _ ↦ userFlags xperm)
          (fun va ↦ (m₁.fill page 0).cells page (va % PGSIZE)) := hr.1
        have hzero : (fun va ↦ (m₁.fill page 0).cells page (va % PGSIZE)) = (0 : Nat → UInt8) := by
          funext va
          exact congrFun (Function.update_self page _ m₁.cells) (va % PGSIZE)
        rw [hzero] at hr
        simp only [if_true]
        rw [hnext]
        apply (ih hr.layout (hs.moves hr.moves) (by omega)).mono
        intro r' hr'
        have hcount : a + 1 + cnt = a + (cnt + 1) := by omega
        rw [hcount] at hr'
        exact hr.trans hr' (Or.inl (by omega))
      | false =>
        simp only [Bool.false_eq_true, if_false] at hr ⊢
        apply hr.bind
        intro m₃ hm₃
        exact hundo (hm₃ _ _)

/-- `uvmalloc` of an address space of `oldsz` bytes: the new size, or 0 if it failed. -/
theorem uvmalloc_spec {oldsz newsz xperm : Nat} (h : Layout m.cells pt (pages oldsz) top)
    (hs : Sound k m (space m.cells pt (pages oldsz))) (hperm : xperm < 1024) :
    Returns (uvmalloc k m pt oldsz newsz xperm) (fun r ↦
      if r.1 = 0 then Grown m r.2 pt (pages oldsz) (pages oldsz) top (fun _ ↦ userFlags xperm) 0
      else r.1 = max oldsz newsz ∧
        Grown m r.2 pt (pages oldsz) (pages r.1) top (fun _ ↦ userFlags xperm) 0) := by
  rw [uvmalloc]
  split
  · next hlt =>
    refine Returns.ok ?_
    simp only
    rw [if_neg (by omega)]
    exact ⟨(Nat.max_eq_left (by omega)).symm, Grown.refl h _ _⟩
  · next hle =>
    rw [PGROUNDUP_eq h.size]
    apply (uvmallocLoop_spec h hs (Nat.le_refl _) hperm).bind
    rintro ⟨ok, m'⟩ hm'
    refine Returns.pure ?_
    cases ok with
    | false => exact hm'
    | true =>
      have hpages : pages oldsz + (newsz - pages oldsz * PGSIZE + PGSIZE - 1) / PGSIZE =
          pages newsz := by
        unfold pages PGSIZE
        omega
      simp only [if_true] at hm' ⊢
      rw [hpages] at hm'
      split
      · next hzero =>
        have holdz : oldsz = 0 := by omega
        rw [hzero] at hm'
        rw [holdz] at hm' ⊢
        exact hm'
      · exact ⟨(Nat.max_eq_right (by omega)).symm, hm'⟩

/-! ### Freeing and copying -/

/-- `uvmfree` of an address space without anything at its top. -/
theorem uvmfree_spec (sz : Nat) (h : Layout m.cells pt (pages sz) 0)
    (hs : Sound k m (space m.cells pt (pages sz))) :
    Returns (uvmfree k m pt sz) (fun m' ↦
      Moves m.toHeap m'.toHeap (space m.cells pt (pages sz)) 0) := by
  -- with no user page left, the table has no leaf
  have hwalk {m : Mem} (h : Layout m.cells pt 0 0) (hs : Sound k m (space m.cells pt 0)) :
      Returns (freewalk k 3 m pt) (fun m' ↦ Moves m.toHeap m'.toHeap (space m.cells pt 0) 0) := by
    rw [space_zero] at hs ⊢
    apply freewalk_spec 2 m pt h.table _ hs
    apply Empty.of_entries
    intro v hv
    have hN : 2 * NPAGES = 512 ^ (2 + 1) := by decide
    by_cases htop : v < TOP
    · exact h.gap v (Nat.zero_le v) htop
    · rw [h.top v (by omega) (by omega)]
      exact not_valid_zero
  rw [uvmfree]
  split
  · have hsize := h.size
    rw [PGROUNDUP_eq hsize, page_div]
    have hall := shrink_spec h hs (Nat.zero_le _) 0 0
    rw [Nat.zero_mul, Nat.sub_zero] at hall
    apply hall.bind
    intro m₁ hm₁
    apply (hwalk hm₁.layout (hs.moves hm₁.moves)).mono
    intro m' hm'
    exact hm₁.moves.trans hm'
  · next hzero =>
    have hpages : pages sz = 0 := by
      unfold pages PGSIZE
      omega
    rw [hpages] at h hs ⊢
    exact hwalk h hs

theorem PTE_FLAGS_lt (pte : Nat) : PTE_FLAGS pte < 1024 := by
  rw [PTE_FLAGS_eq]
  omega

/-- The flags of an entry are those of a leaf, if it is one. -/
theorem Leaf.copy {pte : Nat} (h : Leaf pte) :
    (PTE_FLAGS pte ||| PTE_V) &&& (PTE_R ||| PTE_W ||| PTE_X) ≠ 0 := by
  intro hzero
  apply h.2
  rw [and_flags _ (by decide), ← PTE_FLAGS_eq]
  rw [Nat.and_or_distrib_right] at hzero
  exact (Nat.or_eq_zero_iff.mp hzero).1

/-- The flags of a valid entry have `PTE_V`. -/
theorem flags_or_valid {pte : Nat} (h : Valid pte) : PTE_FLAGS pte ||| PTE_V = PTE_FLAGS pte := by
  have hodd : pte % 2 = 1 := by
    rw [Valid, PTE_V, Nat.and_one_is_mod] at h
    omega
  apply Nat.eq_of_testBit_eq
  intro i
  rw [Nat.testBit_or, PTE_V, PTE_FLAGS_eq]
  cases i with
  | zero =>
    have hbit : (pte % 1024).testBit 0 = true := by
      rw [Nat.testBit_zero]
      exact decide_eq_true (by omega)
    rw [hbit, Bool.true_or]
  | succ i =>
    have hbit : (1 : Nat).testBit (i + 1) = false := by simp [Nat.testBit_succ]
    rw [hbit, Bool.or_false]

/-- The loop of `uvmcopy` from page `i` on: all `n` pages are copied, or none. -/
theorem uvmcopyLoop_spec {new i cnt : Nat} {top' : Nat → Nat} (h : Layout m.cells pt n top)
    (hnew : Layout m.cells new i top') (hcnt : i + cnt = n)
    (hs : Sound k m (space m.cells new i + space m.cells pt n)) :
    Returns (uvmcopyLoop k pt new cnt m (i * PGSIZE)) (fun r ↦
      Grown m r.2 new i (if r.1 = true then n else 0) top'
        (fun v ↦ PTE_FLAGS (entry m.cells 2 pt v)) (image m.cells pt)) := by
  have hT := TOP_lt
  have hsize := h.size
  induction cnt generalizing m i with
  | zero =>
    have hi : i = n := by omega
    rw [hi] at hnew ⊢
    exact Returns.ok (Grown.refl hnew _ _)
  | succ cnt ih =>
    have hleaf := h.leaf i (by omega)
    obtain ⟨loc, hslot⟩ := slot_of_valid hleaf.1
    have hpte := entry_slot hslot
    have hnext : i * PGSIZE + PGSIZE = (i + 1) * PGSIZE := (Nat.succ_mul i PGSIZE).symm
    -- the pages copied so far go back
    have hundo {m₁ : Mem} (hm : Grown m m₁ new i i top' (fun v ↦ PTE_FLAGS (entry m.cells 2 pt v))
          (image m.cells pt)) :
        Returns (uvmunmap k m₁ new 0 (i * PGSIZE / PGSIZE) true >>= fun m ↦
          (.ok (false, m) : Except String (Bool × Mem))) (fun r ↦
          Grown m r.2 new i (if r.1 = true then n else 0) top'
            (fun v ↦ PTE_FLAGS (entry m.cells 2 pt v)) (image m.cells pt)) := by
      have hall := shrink_spec hm.layout (hs.left.moves hm.moves) (Nat.zero_le _)
        (fun v ↦ PTE_FLAGS (entry m.cells 2 pt v)) (image m.cells pt)
      rw [Nat.zero_mul, Nat.sub_zero] at hall
      rw [page_div]
      apply hall.bind
      intro m₂ hm₂
      exact Returns.ok (hm.trans hm₂ (Or.inl (Nat.le_refl i)))
    rw [uvmcopyLoop, walk_false (by omega), hslot]
    simp only [bind, Except.bind]
    rw [← hpte, if_neg (fun hn ↦ hn hleaf.1)]
    split
    · next m₁ hk => exact hundo (Grown.of_heap hnew (kalloc_none hk) _ _)
    · next page m₁ hk =>
      have hpage := newPage_spec (m₁.copyPage page (PTE2PA (entry m.cells 2 pt i))) hnew hs.left
        hk rfl (fun q hq ↦ Function.update_of_ne hq ..) (PTE_FLAGS_lt _) hleaf.copy
      -- the new page has the bytes of the old one
      have hbytes : (m₁.copyPage page (PTE2PA (entry m.cells 2 pt i))).cells page =
          m.cells (PTE2PA (entry m.cells 2 pt i)) := by
        have hpos := users_pos m.cells pt (show i < n by omega)
        have hcopy : (m₁.copyPage page (PTE2PA (entry m.cells 2 pt i))).cells page =
            m₁.cells (PTE2PA (entry m.cells 2 pt i)) := Function.update_self ..
        rw [hcopy]
        apply (kalloc_moves hk rfl (fun _ _ ↦ rfl) 0).cells_of_pos
          (e := users m.cells pt 0 n) _ hpos
        rw [zero_add]
        exact hs.right.right.once
      apply hpage.bind
      rintro ⟨ok, m₂⟩ hr
      cases ok with
      | true =>
        have hr : Grown m m₂ new i (i + 1) top' (fun _ ↦ PTE_FLAGS (entry m.cells 2 pt i) ||| PTE_V)
          (fun va ↦ (m₁.copyPage page (PTE2PA (entry m.cells 2 pt i))).cells page (va % PGSIZE)) :=
          hr.1
        rw [hbytes, flags_or_valid hleaf.1] at hr
        have hold : SameTable m.cells m₂.cells 2 pt :=
          sameTable_of_moves hr.moves hs.spaceTables
        have hs₂ := hs.moves (hr.moves.add _)
        rw [← hold.space n] at hs₂
        simp only [if_true]
        rw [hnext]
        apply (ih (hold.layout h) hr.layout (by omega) hs₂).mono
        intro r' hr'
        have hfill (va : Nat) (hva : va < n * PGSIZE) :
            image m₂.cells pt va = image m.cells pt va := by
          apply image_congr (hold.entries _)
          apply hr.moves.cells_of_pos hs.once
          have := users_pos m.cells pt (page_of_lt hva)
          rw [space, Pi.add_apply]
          omega
        have hmul : (if r'.1 = true then n else 0) * PGSIZE ≤ n * PGSIZE := by
          apply Nat.mul_le_mul_right
          split <;> omega
        refine Grown.trans (hr.congr ?_ ?_) (hr'.congr ?_ ?_) (Or.inl (by omega))
        · intro v hlo hhi
          have : v = i := by omega
          rw [this]
        · intro va hlo hhi
          have hv : va / PGSIZE = i := by
            rw [Nat.div_eq_iff (by decide)]
            omega
          rw [image, hv]
        · intro v _ _
          rw [hold.entries]
        · intro va _ hhi
          exact hfill va (by omega)
      | false =>
        simp only [Bool.false_eq_true, if_false] at hr ⊢
        obtain ⟨m₃, hk₃, hm₃⟩ := hr
        rw [hk₃]
        exact hundo (hm₃ _ _)

/-- `uvmcopy` into an address space without user pages. -/
theorem uvmcopy_spec {new sz : Nat} {top' : Nat → Nat} (h : Layout m.cells pt (pages sz) top)
    (hnew : Layout m.cells new 0 top')
    (hs : Sound k m (space m.cells new 0 + space m.cells pt (pages sz))) :
    Returns (uvmcopy k m pt new sz) (fun r ↦
      Grown m r.2 new 0 (if r.1 = true then pages sz else 0) top'
        (fun v ↦ PTE_FLAGS (entry m.cells 2 pt v)) (image m.cells pt)) := by
  have hloop := uvmcopyLoop_spec h hnew (Nat.zero_add _) hs
  rw [Nat.zero_mul] at hloop
  exact hloop

end

end Xv6.Vm
