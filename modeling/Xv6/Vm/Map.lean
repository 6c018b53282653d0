import Xv6.Vm.Walk

/-!
# Mapping and unmapping

What `mappages`, `uvmunmap`, `uvmclear` and `freewalk` do to the entries of a page table and to
the pages it owns. Virtual pages are numbers below 2^26.
-/

namespace Xv6.Vm

open Xv6.Lib

/-- Number of virtual pages. -/
def NPAGES : Nat := MAXVA / PGSIZE

section
variable {k : Kernel} {m m' : Mem} {pt : Nat}

theorem page_mod {v : Nat} (h : v < 2 * NPAGES) : v % 512 ^ (2 + 1) = v := Nat.mod_eq_of_lt h

theorem lt_two_npages {v : Nat} (h : v < NPAGES) : v < 2 * NPAGES := by omega

theorem NPAGES_mul : NPAGES * PGSIZE = MAXVA := by decide

theorem page_div (v : Nat) : v * PGSIZE / PGSIZE = v := Nat.mul_div_cancel v (by decide)

theorem page_lt_iff {v : Nat} : ¬ MAXVA ≤ v * PGSIZE ↔ v < NPAGES := by
  rw [← NPAGES_mul, Nat.not_le]
  exact Nat.mul_lt_mul_right (by decide)

/-- `walk` on an address below the limit. -/
theorem walk_spec {v : Nat} (hv : v < NPAGES) (alloc : Bool) (ht : Table m.cells 2 pt)
    (hs : Sound k m (tables m.cells 2 pt)) :
    Returns (walk m pt (v * PGSIZE) alloc) (Walked m 2 pt v) := by
  rw [walk, if_neg (page_lt_iff.mpr hv)]
  have h := walkLoop_spec (v * PGSIZE) alloc ht hs
  rw [page_div] at h
  exact Returns.ok h

theorem walk_false {v : Nat} (hv : v < NPAGES) :
    walk m pt (v * PGSIZE) false = .ok (slot m.cells 2 pt v, m) := by
  rw [walk, if_neg (page_lt_iff.mpr hv), walkLoop_false, page_div]

theorem entry_slot {c : Ram} {l v : Nat} {loc : Nat × Nat} (h : slot c l pt v = some loc) :
    entry c l pt v = Ram.pte c loc.1 loc.2 := by
  induction l generalizing pt with
  | zero =>
    cases h
    rfl
  | succ l ih =>
    rw [slot] at h
    rw [entry]
    split at h
    · next hv =>
      rw [if_pos hv]
      exact ih h
    · cases h

/-- A valid entry has a place. -/
theorem slot_of_valid {c : Ram} {l v : Nat} (h : Valid (entry c l pt v)) :
    ∃ loc, slot c l pt v = some loc := by
  induction l generalizing pt with
  | zero => exact ⟨_, rfl⟩
  | succ l ih =>
    rw [entry] at h
    rw [slot]
    split at h
    · next hv =>
      rw [if_pos hv]
      exact ih h
    · exact (not_valid_zero h).elim

/-! ### One entry -/

/-- A store of one entry of a table. -/
structure Stored (m m' : Mem) (pt v w : Nat) : Prop where
  free : m'.free = m.free
  cells : ∀ q, tables m.cells 2 pt q = 0 → m'.cells q = m.cells q
  pages : tables m'.cells 2 pt = tables m.cells 2 pt
  table : Table m'.cells 2 pt
  entries : ∀ u < 2 * NPAGES, entry m'.cells 2 pt u = if u = v then w else entry m.cells 2 pt u
  slots : ∀ u, slot m'.cells 2 pt u = slot m.cells 2 pt u

theorem setPte_spec {v w : Nat} {loc : Nat × Nat} (hs : slot m.cells 2 pt v = some loc)
    (ho : ∀ q, tables m.cells 2 pt q ≤ 1) (ht : Table m.cells 2 pt) (hv : v < NPAGES)
    (hw : w < 256 ^ 8) : Stored m (m.setPte loc.1 loc.2 w) pt v w := by
  obtain ⟨p, i⟩ := loc
  obtain ⟨hpages, htable, hslots, hentries⟩ := setPte_slot hs ho hw
  refine ⟨rfl, ?_, hpages, htable ht, ?_, hslots⟩
  · intro q hq
    apply Ram.setPte_of_ne
    rintro rfl
    have : 0 < tables m.cells 2 pt q := slot_tables hs
    omega
  · intro u hu
    have := hentries u
    rw [page_mod hu, page_mod (lt_two_npages hv)] at this
    exact this

theorem Stored.moves {v w : Nat} (h : Stored m m' pt v w) (extra : Nat → Nat) :
    Moves m.toHeap m'.toHeap (tables m.cells 2 pt + extra) (tables m'.cells 2 pt + extra) := by
  rw [h.pages]
  apply Moves.store h.free
  intro q hq
  exact h.cells q (Nat.eq_zero_of_add_eq_zero_right hq)

/-! ### `mappages` -/

/-- What `mappages` did: `j` pages from `v` on are mapped to pages from `page` on. -/
structure Mapped (m m' : Mem) (pt v j page flags : Nat) : Prop where
  moves : Moves m.toHeap m'.toHeap (tables m.cells 2 pt) (tables m'.cells 2 pt)
  table : Table m'.cells 2 pt
  entries : ∀ u < 2 * NPAGES, entry m'.cells 2 pt u =
    if v ≤ u ∧ u < v + j then mkPte (page + (u - v)) flags else entry m.cells 2 pt u

theorem mappagesLoop_succ (pt last perm fuel : Nat) (m : Mem) (a page : Nat) :
    mappagesLoop pt last perm (fuel + 1) m a page = walk m pt a true >>= fun r ↦
      match r.1 with
      | none => .ok (false, r.2)
      | some (p, i) =>
        if Valid (Ram.pte r.2.cells p i) then .error "mappages: remap"
        else if a = last then .ok (true, r.2.setPte p i (PA2PTE page ||| perm ||| PTE_V))
        else mappagesLoop pt last perm fuel (r.2.setPte p i (PA2PTE page ||| perm ||| PTE_V))
          (a + PGSIZE) (page + 1) := by
  rfl

theorem or_valid_lt {perm : Nat} (h : perm < 1024) : perm ||| PTE_V < 1024 :=
  Nat.or_lt_two_pow (n := 10) h (by decide)

theorem or_valid_and (perm : Nat) : (perm ||| PTE_V) &&& PTE_V ≠ 0 := by
  have hbit : (perm ||| PTE_V).testBit 0 = true := by
    rw [Nat.testBit_or]
    simp [PTE_V]
  rw [PTE_V, Nat.and_one_is_mod] at *
  rw [Nat.testBit_zero] at hbit
  simp only [decide_eq_true_eq] at hbit
  omega

/-- A walk that gave no place mapped nothing. -/
theorem Walked.mapped {v : Nat} {r : Option (Nat × Nat) × Mem} (h : Walked m 2 pt v r)
    (page flags : Nat) : Mapped m r.2 pt v 0 page flags := by
  refine ⟨h.moves, h.table, ?_⟩
  intro u _
  rw [if_neg (by omega)]
  exact h.entries u

/-- A walk and a store of the entry it found. -/
theorem Walked.store {v : Nat} {r : Option (Nat × Nat) × Mem} (h : Walked m 2 pt v r)
    (hs : Sound k m (tables m.cells 2 pt)) (hv : v < NPAGES) {loc : Nat × Nat}
    (hloc : r.1 = some loc) (page : Nat) {flags : Nat} (hflags : flags < 1024)
    (hpage : page < 2 ^ 52) :
    Mapped m (r.2.setPte loc.1 loc.2 (mkPte page flags)) pt v 1 page flags := by
  have hs' := hs.moves h.moves
  have hst := setPte_spec (h.slot loc hloc) hs'.le_one h.table hv (mkPte_lt hflags hpage)
  have hmoves := hst.moves 0
  rw [add_zero, add_zero] at hmoves
  refine ⟨h.moves.trans hmoves, hst.table, ?_⟩
  intro u hu
  rw [hst.entries u hu]
  by_cases huv : u = v
  · rw [if_pos huv, if_pos (by omega), huv, Nat.sub_self, Nat.add_zero]
  · rw [if_neg huv, if_neg (by omega)]
    exact h.entries u

theorem Mapped.cons {m₁ : Mem} {v j page flags : Nat} (h : Mapped m m₁ pt v 1 page flags)
    (h' : Mapped m₁ m' pt (v + 1) j (page + 1) flags) : Mapped m m' pt v (j + 1) page flags := by
  refine ⟨h.moves.trans h'.moves, h'.table, ?_⟩
  intro u hu
  rw [h'.entries u hu, h.entries u hu]
  by_cases hhere : u = v
  · rw [if_neg (by omega), if_pos (by omega), if_pos (by omega)]
  · by_cases hin : v + 1 ≤ u ∧ u < v + 1 + j
    · have hpage : page + 1 + (u - (v + 1)) = page + (u - v) := by omega
      rw [if_pos hin, if_pos (by omega), hpage]
    · rw [if_neg hin, if_neg (by omega), if_neg (by omega)]

/-- The loop of `mappages` from page `v` to page `v + n`. -/
theorem mappagesLoop_spec {perm : Nat} (hperm : perm < 1024) {n fuel v page : Nat}
    (hfuel : n < fuel) (hv : v + n < NPAGES) (hpage : page + n < 2 ^ 52) (ht : Table m.cells 2 pt)
    (hs : Sound k m (tables m.cells 2 pt))
    (hfree : ∀ u, v ≤ u → u ≤ v + n → ¬ Valid (entry m.cells 2 pt u)) :
    Returns (mappagesLoop pt ((v + n) * PGSIZE) perm fuel m (v * PGSIZE) page) (fun r ↦
      ∃ j ≤ n + 1, (r.1 = true ↔ j = n + 1) ∧ Mapped m r.2 pt v j page (perm ||| PTE_V)) := by
  have hpte (page : Nat) : PA2PTE page ||| perm ||| PTE_V = mkPte page (perm ||| PTE_V) := by
    rw [Nat.or_assoc, PA2PTE_or (or_valid_lt hperm)]
  induction n generalizing m fuel v page with
  | zero =>
    obtain ⟨fuel, rfl⟩ : ∃ f, fuel = f + 1 := ⟨fuel - 1, by omega⟩
    rw [mappagesLoop_succ]
    apply (walk_spec (k := k) (by omega) true ht hs).bind
    intro r hr
    cases hloc : r.1 with
    | none => exact Returns.ok ⟨0, by omega, by simp, hr.mapped _ _⟩
    | some loc =>
      have hno : ¬ Valid (Ram.pte r.2.cells loc.1 loc.2) := by
        rw [← entry_slot (hr.slot loc hloc), hr.entries]
        exact hfree v (by omega) (by omega)
      have hst := hr.store hs (by omega) hloc page (or_valid_lt hperm) (by omega)
      simp only
      rw [if_neg hno, if_pos (by rw [Nat.add_zero]), hpte]
      exact Returns.ok ⟨1, by omega, by simp, hst⟩
  | succ n ih =>
    obtain ⟨fuel, rfl⟩ : ∃ f, fuel = f + 1 := ⟨fuel - 1, by omega⟩
    rw [mappagesLoop_succ]
    apply (walk_spec (k := k) (by omega) true ht hs).bind
    intro r hr
    cases hloc : r.1 with
    | none => exact Returns.ok ⟨0, by omega, by simp, hr.mapped _ _⟩
    | some loc =>
      have hno : ¬ Valid (Ram.pte r.2.cells loc.1 loc.2) := by
        rw [← entry_slot (hr.slot loc hloc), hr.entries]
        exact hfree v (by omega) (by omega)
      have hst := hr.store hs (by omega) hloc page (or_valid_lt hperm) (by omega)
      have hlast : ¬ v * PGSIZE = (v + (n + 1)) * PGSIZE := by
        unfold PGSIZE
        omega
      have hnext : v * PGSIZE + PGSIZE = (v + 1) * PGSIZE := by
        unfold PGSIZE
        omega
      simp only
      rw [if_neg hno, if_neg hlast, hpte, hnext]
      have hend : v + (n + 1) = v + 1 + n := by omega
      rw [hend]
      apply (ih (by omega) (by omega) (by omega) hst.table (hs.moves hst.moves) ?_).mono
      · rintro r' ⟨j, hj, hok, hmap⟩
        exact ⟨j + 1, by omega, by rw [hok]; omega, hst.cons hmap⟩
      · intro u hlo hhi
        rw [hst.entries u (by omega), if_neg (by omega)]
        exact hfree u (by omega) (by omega)

/-- `mappages` from page `v` to page `v + n`. -/
theorem mappages_spec {perm : Nat} (hperm : perm < 1024) {va size v n : Nat} (page : Nat)
    (hva : va / PGSIZE = v) (hlast : (va + size - 1) / PGSIZE = v + n) (hsize : 0 < size)
    (hv : v + n < NPAGES) (hpage : page + n < 2 ^ 52) (ht : Table m.cells 2 pt)
    (hs : Sound k m (tables m.cells 2 pt))
    (hfree : ∀ u, v ≤ u → u ≤ v + n → ¬ Valid (entry m.cells 2 pt u)) :
    Returns (mappages m pt va size page perm) (fun r ↦
      ∃ j ≤ n + 1, (r.1 = true ↔ j = n + 1) ∧ Mapped m r.2 pt v j page (perm ||| PTE_V)) := by
  have hN : NPAGES = 2 ^ 26 := rfl
  have hmod : (va + size - 1) % 2 ^ 64 = va + size - 1 := by
    apply Nat.mod_eq_of_lt
    unfold PGSIZE at hlast
    omega
  rw [mappages, if_neg (by omega)]
  simp only
  rw [hmod, PGROUNDDOWN, PGROUNDDOWN, hva, hlast]
  exact mappagesLoop_spec hperm (by change n < NPAGES + 1; omega) hv hpage ht hs hfree

/-! ### `uvmunmap` -/

/-- A valid entry of the last level, with a permission. -/
def Leaf (pte : Nat) : Prop := Valid pte ∧ pte &&& (PTE_R ||| PTE_W ||| PTE_X) ≠ 0

theorem Leaf.flags {pte : Nat} (h : Leaf pte) : PTE_FLAGS pte ≠ PTE_V := by
  intro he
  apply h.2
  rw [PTE_FLAGS_eq] at he
  rw [and_flags _ (by decide), he]
  decide

/-- The physical pages of the `n` virtual pages from `v` on. -/
def mapped (c : Ram) (pt v n : Nat) : List Nat :=
  (List.range' v n).map (fun u ↦ PTE2PA (entry c 2 pt u))

/-- How often each page is one of them. -/
def users (c : Ram) (pt v n : Nat) : Nat → Nat := fun q ↦ (mapped c pt v n).count q

theorem users_zero (c : Ram) (pt v : Nat) : users c pt v 0 = 0 := rfl

theorem users_succ (c : Ram) (pt v n : Nat) :
    users c pt v (n + 1) = one (PTE2PA (entry c 2 pt v)) + users c pt (v + 1) n := by
  funext q
  rw [users, mapped, List.range'_succ, List.map_cons, count_cons_one]
  rfl

theorem users_append (c : Ram) (pt v a b : Nat) :
    users c pt v (a + b) = users c pt v a + users c pt (v + a) b := by
  funext q
  rw [users, mapped, ← List.range'_append_1, List.map_append, List.count_append]
  rfl

theorem users_one (c : Ram) (pt v : Nat) : users c pt v 1 = one (PTE2PA (entry c 2 pt v)) := by
  rw [users_succ, users_zero, add_zero]

theorem users_congr {c c' : Ram} {v n : Nat}
    (h : ∀ u, v ≤ u → u < v + n → entry c' 2 pt u = entry c 2 pt u) :
    users c' pt v n = users c pt v n := by
  funext q
  have hmap : mapped c' pt v n = mapped c pt v n := by
    apply List.map_congr_left
    intro u hu
    obtain ⟨hlo, hhi⟩ := List.mem_range'_1.mp hu
    rw [h u hlo hhi]
  rw [users, users, hmap]

/-- What `uvmunmap` did: the entries of `n` pages from `v` on are gone, and so are the pages
`freed`. -/
structure Unmapped (m m' : Mem) (pt v n : Nat) (freed : Nat → Nat) : Prop where
  moves : Moves m.toHeap m'.toHeap (tables m.cells 2 pt + freed) (tables m'.cells 2 pt)
  pages : tables m'.cells 2 pt = tables m.cells 2 pt
  table : Table m'.cells 2 pt
  entries : ∀ u < 2 * NPAGES, entry m'.cells 2 pt u =
    if v ≤ u ∧ u < v + n then 0 else entry m.cells 2 pt u

theorem uvmunmapLoop_succ (pt : Nat) (do_free : Bool) (n : Nat) (m : Mem) (a : Nat) :
    uvmunmapLoop k pt do_free (n + 1) m a = walk m pt a false >>= fun r ↦
      match r.1 with
      | none => .error "uvmunmap: walk"
      | some (p, i) =>
        if ¬ Valid (Ram.pte r.2.cells p i) then .error "uvmunmap: not mapped"
        else if PTE_FLAGS (Ram.pte r.2.cells p i) = PTE_V then .error "uvmunmap: not a leaf"
        else kfreeIf k r.2 do_free (PTE2PA (Ram.pte r.2.cells p i)) >>= fun m ↦
          uvmunmapLoop k pt do_free n (m.setPte p i 0) (a + PGSIZE) := by
  rfl

/-- The pages that an unmapping frees. -/
def freedIf (do_free : Bool) (own : Nat → Nat) : Nat → Nat := if do_free then own else 0

/-- The first page of the range. -/
theorem unmap_one {v : Nat} {do_free : Bool} {loc : Nat × Nat} {own : Nat → Nat}
    (hslot : slot m.cells 2 pt v = some loc) (hv : v < NPAGES) (ht : Table m.cells 2 pt)
    (hs : Sound k m (tables m.cells 2 pt + own +
      freedIf do_free (one (PTE2PA (entry m.cells 2 pt v))))) :
    Returns (kfreeIf k m do_free (PTE2PA (entry m.cells 2 pt v))) (fun m₁ ↦
      Moves m.toHeap (m₁.setPte loc.1 loc.2 0).toHeap
        (tables m.cells 2 pt + own + freedIf do_free (one (PTE2PA (entry m.cells 2 pt v))))
        (tables m.cells 2 pt + own) ∧
      Stored m₁ (m₁.setPte loc.1 loc.2 0) pt v 0 ∧ SameTable m.cells m₁.cells 2 pt) := by
  cases do_free with
  | false =>
    have hst := setPte_spec (w := 0) hslot hs.left.left.le_one ht hv (by decide)
    have hmoves := hst.moves own
    rw [hst.pages] at hmoves
    exact Returns.ok ⟨hmoves.congr (add_zero _) rfl, hst, SameTable.of_cells (fun _ _ ↦ rfl)⟩
  | true =>
    apply (kfree_spec hs).mono
    rintro m₁ ⟨hmoves, hcells⟩
    -- the page that was freed is not one of the table's
    have hsame : SameTable m.cells m₁.cells 2 pt := by
      apply SameTable.of_cells
      intro q hq
      apply hcells
      intro he
      have := hs.disjoint (q := q) (by rw [he]; exact Nat.lt_of_lt_of_eq one_pos (one_self _).symm)
      exact Nat.ne_of_gt hq (Nat.eq_zero_of_add_eq_zero_right this)
    have hone (q : Nat) : tables m₁.cells 2 pt q ≤ 1 := by
      rw [hsame.pages]
      exact hs.left.left.le_one q
    have hst := setPte_spec (m := m₁) (w := 0) (by rw [hsame.slots]; exact hslot) hone
      (hsame.shape ht) hv (by decide)
    have hstore := hst.moves own
    rw [hst.pages, hsame.pages] at hstore
    exact ⟨hmoves.trans hstore, hst, hsame⟩

/-- The loop of `uvmunmap` over pages that are all mapped: it unmaps them, or it panics at one that
has no flags but `PTE_V`. -/
theorem uvmunmapLoop_cases {do_free : Bool} {n v : Nat} (hv : v + n ≤ NPAGES)
    (ht : Table m.cells 2 pt)
    (hs : Sound k m (tables m.cells 2 pt + freedIf do_free (users m.cells pt v n)))
    (hvalid : ∀ u, v ≤ u → u < v + n → Valid (entry m.cells 2 pt u)) :
    Returns (uvmunmapLoop k pt do_free n m (v * PGSIZE)) (fun m' ↦
      Unmapped m m' pt v n (freedIf do_free (users m.cells pt v n))) ∨
    uvmunmapLoop k pt do_free n m (v * PGSIZE) = .error "uvmunmap: not a leaf" ∧
      ∃ u, v ≤ u ∧ u < v + n ∧ PTE_FLAGS (entry m.cells 2 pt u) = PTE_V := by
  induction n generalizing m v with
  | zero =>
    left
    refine Returns.ok ⟨?_, rfl, ht, ?_⟩
    · have hzero : freedIf do_free (users m.cells pt v 0) = 0 := by
        cases do_free <;> rfl
      rw [hzero, add_zero]
      exact Moves.refl _ _
    · intro u _
      rw [if_neg (by omega)]
  | succ n ih =>
    have hfirst := hvalid v (by omega) (by omega)
    obtain ⟨loc, hslot⟩ := slot_of_valid hfirst
    have hpte := entry_slot hslot
    rw [uvmunmapLoop_succ, walk_false (by omega), hslot]
    simp only [bind, Except.bind]
    rw [if_neg (fun hn ↦ hn (by rw [← hpte]; exact hfirst)), ← hpte]
    by_cases hflags : PTE_FLAGS (entry m.cells 2 pt v) = PTE_V
    · rw [if_pos hflags]
      exact Or.inr ⟨rfl, v, by omega, by omega, hflags⟩
    · have hsplit : tables m.cells 2 pt + freedIf do_free (users m.cells pt v (n + 1)) =
          tables m.cells 2 pt + freedIf do_free (users m.cells pt (v + 1) n) +
            freedIf do_free (one (PTE2PA (entry m.cells 2 pt v))) := by
        cases do_free with
        | false => simp only [freedIf, Bool.false_eq_true, if_false, add_zero]
        | true =>
          simp only [freedIf, if_true, users_succ]
          rw [add_assoc, add_comm (users _ _ _ _)]
      have hnext : v * PGSIZE + PGSIZE = (v + 1) * PGSIZE := by
        unfold PGSIZE
        omega
      rw [hsplit] at hs
      rw [if_neg hflags, hnext]
      obtain ⟨m₁, hm₁, hmoves, hst, hsame⟩ := unmap_one hslot (by omega) ht hs
      rw [hm₁]
      have hentries (u : Nat) (hu : u < 2 * NPAGES) :
          entry (m₁.setPte loc.1 loc.2 0).cells 2 pt u =
            if u = v then 0 else entry m.cells 2 pt u := by
        rw [hst.entries u hu, hsame.entries]
      have hpages : tables (m₁.setPte loc.1 loc.2 0).cells 2 pt = tables m.cells 2 pt := by
        rw [hst.pages, hsame.pages]
      have husers : users (m₁.setPte loc.1 loc.2 0).cells pt (v + 1) n =
          users m.cells pt (v + 1) n := by
        apply users_congr
        intro u hlo hhi
        rw [hentries u (by omega), if_neg (by omega)]
      have hs' := hs.moves hmoves
      rw [← hpages, ← husers] at hs'
      have hrest := ih (by omega) hst.table hs' (by
        intro u hlo hhi
        rw [hentries u (by omega), if_neg (by omega)]
        exact hvalid u (by omega) (by omega))
      rcases hrest with hok | ⟨herr, u, hlo, hhi, hu⟩
      · left
        apply hok.mono
        intro m' h
        have hlast := h.moves
        rw [hpages, husers] at hlast
        refine ⟨?_, h.pages.trans hpages, h.table, ?_⟩
        · rw [hsplit]
          exact hmoves.trans hlast
        · intro u hu
          rw [h.entries u hu, hentries u hu]
          by_cases huv : u = v
          · rw [if_neg (by omega), if_pos huv, if_pos (by omega)]
          · by_cases hin : v + 1 ≤ u ∧ u < v + 1 + n
            · rw [if_pos hin, if_pos (by omega)]
            · rw [if_neg hin, if_neg huv, if_neg (by omega)]
      · right
        rw [hentries u (by omega), if_neg (by omega)] at hu
        exact ⟨herr, u, by omega, by omega, hu⟩

theorem uvmunmap_eq {n v : Nat} (hv : v + n ≤ NPAGES) (do_free : Bool) :
    uvmunmap k m pt (v * PGSIZE) n do_free = uvmunmapLoop k pt do_free n m (v * PGSIZE) := by
  have hN : NPAGES = 2 ^ 26 := rfl
  have hmod : (v * PGSIZE + n * PGSIZE) % 2 ^ 64 = v * PGSIZE + n * PGSIZE := by
    apply Nat.mod_eq_of_lt
    unfold PGSIZE
    omega
  rw [uvmunmap, if_neg (fun h ↦ h (Nat.mul_mod_left _ _)), hmod, Nat.add_sub_cancel_left, page_div]

/-- `uvmunmap` of pages that are all mapped with a permission. -/
theorem uvmunmap_spec (do_free : Bool) {n v : Nat} (hv : v + n ≤ NPAGES) (ht : Table m.cells 2 pt)
    (hs : Sound k m (tables m.cells 2 pt + freedIf do_free (users m.cells pt v n)))
    (hleaf : ∀ u, v ≤ u → u < v + n → Leaf (entry m.cells 2 pt u)) :
    Returns (uvmunmap k m pt (v * PGSIZE) n do_free) (fun m' ↦
      Unmapped m m' pt v n (freedIf do_free (users m.cells pt v n))) := by
  rw [uvmunmap_eq hv]
  rcases uvmunmapLoop_cases hv ht hs (fun u hlo hhi ↦ (hleaf u hlo hhi).1) with
    hok | ⟨-, u, hlo, hhi, hflags⟩
  · exact hok
  · exact ((hleaf u hlo hhi).flags hflags).elim

/-- `uvmclear` takes a permission away. -/
theorem uvmclear_spec {v : Nat} (hv : v < NPAGES) (ht : Table m.cells 2 pt)
    (ho : ∀ q, tables m.cells 2 pt q ≤ 1) (hvalid : Valid (entry m.cells 2 pt v)) :
    Returns (uvmclear m pt (v * PGSIZE)) (fun m' ↦
      Stored m m' pt v (entry m.cells 2 pt v &&& (2 ^ 64 - 1 - PTE_U))) := by
  obtain ⟨loc, hslot⟩ := slot_of_valid hvalid
  have hlt : entry m.cells 2 pt v &&& (2 ^ 64 - 1 - PTE_U) < 256 ^ 8 :=
    Nat.lt_of_le_of_lt Nat.and_le_right (by decide)
  have hst := setPte_spec hslot ho ht hv hlt
  rw [entry_slot hslot] at hst ⊢
  rw [uvmclear, walk_false hv, hslot]
  exact Returns.ok hst

/-! ### `freewalk` -/

/-- No entry of the last level is valid. -/
def Empty (c : Ram) : Nat → Nat → Prop
  | 0, pt => ∀ i < 512, ¬ Valid (Ram.pte c pt i)
  | l + 1, pt => ∀ i < 512, Valid (Ram.pte c pt i) → Empty c l (PTE2PA (Ram.pte c pt i))

theorem digit_mod_pow {j l : Nat} (h : j ≤ l) (v : Nat) :
    digit j (v % 512 ^ (l + 1)) = digit j v := by
  have hpow : 512 ^ (l + 1) = 512 ^ j * 512 ^ (l + 1 - j) := by
    rw [← Nat.pow_add]
    congr 1
    omega
  have hdvd : 512 ∣ 512 ^ (l + 1 - j) := dvd_pow_self 512 (by omega)
  rw [digit, digit, hpow, Nat.mod_mul_right_div_self, Nat.mod_mod_of_dvd _ hdvd]

/-- An entry depends on the digits of its level and below. -/
theorem entry_congr {c : Ram} {l u v : Nat} (h : ∀ j ≤ l, digit j u = digit j v) :
    entry c l pt u = entry c l pt v := by
  induction l generalizing pt with
  | zero => rw [entry, entry, h 0 (Nat.le_refl 0)]
  | succ l ih =>
    rw [entry, entry, h (l + 1) (Nat.le_refl _)]
    split
    · exact ih (fun j hj ↦ h j (Nat.le_succ_of_le hj))
    · rfl

theorem Empty.of_entries {c : Ram} {l : Nat}
    (h : ∀ v < 512 ^ (l + 1), ¬ Valid (entry c l pt v)) : Empty c l pt := by
  induction l generalizing pt with
  | zero =>
    intro i hi
    have := h i hi
    rwa [entry, digit, Nat.pow_zero, Nat.div_one, Nat.mod_eq_of_lt hi] at this
  | succ l ih =>
    intro i hi hv
    apply ih
    intro v hvlt
    have hpos : 0 < 512 ^ (l + 1) := Nat.pow_pos (by decide)
    have hdigit : digit (l + 1) (i * 512 ^ (l + 1) + v) = i := by
      rw [digit, Nat.add_comm, Nat.add_mul_div_right _ _ hpos, Nat.div_eq_of_lt hvlt, Nat.zero_add,
        Nat.mod_eq_of_lt hi]
    have hlt : i * 512 ^ (l + 1) + v < 512 ^ (l + 1 + 1) := by
      calc i * 512 ^ (l + 1) + v < i * 512 ^ (l + 1) + 512 ^ (l + 1) := by omega
        _ = (i + 1) * 512 ^ (l + 1) := (Nat.succ_mul _ _).symm
        _ ≤ 512 * 512 ^ (l + 1) := Nat.mul_le_mul_right _ hi
        _ = 512 ^ (l + 1 + 1) := (Nat.pow_succ' ..).symm
    have hno := h _ hlt
    rw [entry, hdigit, if_pos hv] at hno
    rwa [entry_congr (v := v)] at hno
    intro j hj
    rw [← digit_mod_pow hj, Nat.add_comm, Nat.add_mul_mod_self_right, digit_mod_pow hj]

theorem Empty.congr {c c' : Ram} {l : Nat} (h : Empty c l pt)
    (hcells : ∀ q, 0 < tables c l pt q → c' q = c q) : Empty c' l pt := by
  induction l generalizing pt with
  | zero =>
    intro i hi
    rw [Ram.pte_congr (hcells pt (tables_self c 0 pt))]
    exact h i hi
  | succ l ih =>
    intro i hi hv
    rw [Ram.pte_congr (hcells pt (tables_self c (l + 1) pt))] at hv ⊢
    apply ih (h i hi hv)
    intro q hq
    have := tables_child (l := l) hi hv q
    exact hcells q (by omega)

/-- The pages below the entries in a list. -/
def belowAll (c : Ram) (l pt : Nat) (is : List Nat) : Nat → Nat :=
  fun q ↦ (is.map (fun i ↦ below (tables c l) (Ram.pte c pt i) q)).sum

theorem belowAll_cons (c : Ram) (l pt i : Nat) (is : List Nat) :
    belowAll c l pt (i :: is) = below (tables c l) (Ram.pte c pt i) + belowAll c l pt is := by
  funext q
  rw [belowAll, List.map_cons, List.sum_cons]
  rfl

theorem sum_map_range (f : Nat → Nat) (n : Nat) :
    ((List.range n).map f).sum = ∑ i : Fin n, f i := by
  rw [Fin.sum_univ_eq_sum_range f n]
  induction n with
  | zero => rfl
  | succ n ih =>
    rw [List.range_succ, List.map_append, List.sum_append, ih, Finset.sum_range_succ]
    simp

theorem belowAll_range (c : Ram) (l pt : Nat) :
    one pt + belowAll c l pt (List.range 512) = tables c (l + 1) pt := by
  funext q
  rw [tables, Pi.add_apply, belowAll, sum_map_range]

theorem belowAll_congr {c c' : Ram} {l : Nat} {is : List Nat}
    (hpte : ∀ i ∈ is, Ram.pte c' pt i = Ram.pte c pt i)
    (hcells : ∀ q, 0 < belowAll c l pt is q → c' q = c q) :
    belowAll c' l pt is = belowAll c l pt is := by
  induction is with
  | nil =>
    funext q
    simp only [belowAll, List.map_nil]
  | cons i is ih =>
    rw [belowAll_cons] at hcells
    have hfirst : below (tables c' l) (Ram.pte c pt i) = below (tables c l) (Ram.pte c pt i) := by
      funext q
      by_cases hv : Valid (Ram.pte c pt i)
      · rw [below_of_valid hv, below_of_valid hv]
        have hsame : SameTable c c' l (PTE2PA (Ram.pte c pt i)) := by
          apply SameTable.of_cells
          intro q hq
          apply hcells
          rw [Pi.add_apply, below_of_valid hv]
          omega
        rw [hsame.pages]
      · rw [below_of_not hv, below_of_not hv]
    rw [belowAll_cons, belowAll_cons, hpte i List.mem_cons_self, hfirst, ih]
    · exact fun j hj ↦ hpte j (List.mem_cons_of_mem i hj)
    · intro q hq
      apply hcells
      rw [Pi.add_apply]
      omega

/-- What `freewalk` of a table of level `l` guarantees. -/
def Freewalked (k : Kernel) (l : Nat) (child : Mem → Nat → Except String Mem) : Prop :=
  ∀ m pt, Table m.cells l pt → Empty m.cells l pt → Sound k m (tables m.cells l pt) →
    Returns (child m pt) (fun m' ↦ Moves m.toHeap m'.toHeap (tables m.cells l pt) 0)

/-- The loop of `freewalk` over entries of a page above the last level. -/
theorem freewalkLoop_spec {l : Nat} {child : Mem → Nat → Except String Mem}
    (hchild : Freewalked k l child) {is : List Nat} (hnodup : is.Nodup) (hlt : ∀ i ∈ is, i < 512)
    (ht : ∀ i ∈ is, Valid (Ram.pte m.cells pt i) →
      Ram.pte m.cells pt i &&& (PTE_R ||| PTE_W ||| PTE_X) = 0 ∧
        Table m.cells l (PTE2PA (Ram.pte m.cells pt i)) ∧
        Empty m.cells l (PTE2PA (Ram.pte m.cells pt i)))
    (hs : Sound k m (one pt + belowAll m.cells l pt is)) :
    Returns (freewalkLoop child pt is m) (fun m' ↦
      Moves m.toHeap m'.toHeap (one pt + belowAll m.cells l pt is) (one pt)) := by
  induction is generalizing m with
  | nil =>
    have hnil : belowAll m.cells l pt [] = 0 := by
      funext q
      simp only [belowAll, List.map_nil, List.sum_nil, Pi.zero_apply]
    rw [hnil, add_zero]
    exact Returns.ok (Moves.refl _ _)
  | cons i is ih =>
    rw [belowAll_cons] at hs ⊢
    rw [freewalkLoop]
    by_cases hv : Valid (Ram.pte m.cells pt i)
    · obtain ⟨hflags, htab, hempty⟩ := ht i List.mem_cons_self hv
      have hbelow : below (tables m.cells l) (Ram.pte m.cells pt i) =
          tables m.cells l (PTE2PA (Ram.pte m.cells pt i)) := by
        funext q
        exact below_of_valid hv q
      rw [hbelow] at hs ⊢
      rw [if_pos ⟨hv, hflags⟩]
      have hsc : Sound k m (tables m.cells l (PTE2PA (Ram.pte m.cells pt i))) :=
        hs.mono (fun q ↦ by simp only [Pi.add_apply]; omega)
      apply (hchild m _ htab hempty hsc).bind
      intro m₁ hm₁
      -- the other pages are as before, and so is this one but for the entry
      have hkeep {q : Nat} (hq : 0 < one pt q + belowAll m.cells l pt is q) :
          m₁.cells q = m.cells q := by
        have := hs.once q
        simp only [Pi.add_apply] at this
        exact hm₁.cells q (by omega) (by omega)
      have hpt : m₁.cells pt = m.cells pt := hkeep (by rw [one_self]; omega)
      have hptne (q : Nat) (hq : 0 < belowAll m.cells l pt is q) : q ≠ pt := by
        rintro rfl
        have := hs.once q
        simp only [Pi.add_apply, one_self] at this
        omega
      have hcells (q : Nat) (hq : 0 < belowAll m.cells l pt is q) :
          (m₁.setPte pt i 0).cells q = m.cells q := by
        change Ram.setPte m₁.cells pt i 0 q = _
        rw [Ram.setPte_of_ne (hptne q hq)]
        exact hkeep (by omega)
      have hpte (j : Nat) (hj : j ∈ is) :
          Ram.pte (m₁.setPte pt i 0).cells pt j = Ram.pte m.cells pt j := by
        have hji : j ≠ i := by
          rintro rfl
          exact (List.nodup_cons.mp hnodup).1 hj
        change Ram.pte (Ram.setPte m₁.cells pt i 0) pt j = _
        rw [Ram.pte_setPte_of_ne hji, Ram.pte_congr hpt]
      have hrest : belowAll (m₁.setPte pt i 0).cells l pt is = belowAll m.cells l pt is :=
        belowAll_congr hpte hcells
      have hmoves : Moves m.toHeap (m₁.setPte pt i 0).toHeap
          (one pt + (tables m.cells l (PTE2PA (Ram.pte m.cells pt i)) + belowAll m.cells l pt is))
          (one pt + belowAll m.cells l pt is) := by
        have h1 := hm₁.add (one pt + belowAll m.cells l pt is)
        rw [zero_add] at h1
        have hfree : (m₁.setPte pt i 0).free = m₁.free := rfl
        refine (h1.congr (add_left_comm _ _ _) rfl).trans (Moves.store hfree ?_)
        intro q hq
        apply Ram.setPte_of_ne
        rintro rfl
        rw [Pi.add_apply, one_self] at hq
        omega
      have hs' := hs.moves hmoves
      rw [← hrest] at hs'
      apply (ih (List.nodup_cons.mp hnodup).2 (fun j hj ↦ hlt j (List.mem_cons_of_mem i hj)) ?_
        hs').mono
      · intro m' hm'
        rw [hrest] at hm'
        exact hmoves.trans hm'
      · intro j hj hvj
        rw [hpte j hj] at hvj ⊢
        obtain ⟨hf, htj, hej⟩ := ht j (List.mem_cons_of_mem i hj) hvj
        have hsub (q : Nat) (hq : 0 < tables m.cells l (PTE2PA (Ram.pte m.cells pt j)) q) :
            (m₁.setPte pt i 0).cells q = m.cells q := by
          apply hcells
          have hle := List.single_le_sum (fun x _ ↦ Nat.zero_le x)
            (below (tables m.cells l) (Ram.pte m.cells pt j) q)
            (List.mem_map_of_mem (f := fun i ↦ below (tables m.cells l) (Ram.pte m.cells pt i) q)
              hj)
          rw [below_of_valid hvj] at hle
          exact Nat.lt_of_lt_of_le hq hle
        exact ⟨hf, (SameTable.of_cells hsub).shape htj, hej.congr hsub⟩
    · rw [if_neg (fun h ↦ hv h.1), if_neg hv]
      have hzero : below (tables m.cells l) (Ram.pte m.cells pt i) = 0 := by
        funext q
        exact below_of_not hv q
      rw [hzero, zero_add] at hs ⊢
      exact ih (List.nodup_cons.mp hnodup).2 (fun j hj ↦ hlt j (List.mem_cons_of_mem i hj))
        (fun j hj ↦ ht j (List.mem_cons_of_mem i hj)) hs

theorem freewalkLoop_leaf {child : Mem → Nat → Except String Mem} {is : List Nat}
    (h : ∀ i ∈ is, ¬ Valid (Ram.pte m.cells pt i)) : freewalkLoop child pt is m = .ok m := by
  induction is with
  | nil => rfl
  | cons i is ih =>
    have hi := h i List.mem_cons_self
    rw [freewalkLoop, if_neg (fun hv ↦ hi hv.1), if_neg hi]
    exact ih (fun j hj ↦ h j (List.mem_cons_of_mem i hj))

/-- `freewalk` frees the pages of a table without leaves. -/
theorem freewalk_spec (l : Nat) : Freewalked k l (freewalk k (l + 1)) := by
  induction l with
  | zero =>
    intro m pt _ he hs
    have hloop : freewalkLoop (freewalk k 0) pt (List.range 512) m = .ok m :=
      freewalkLoop_leaf (fun i hi ↦ he i (List.mem_range.mp hi))
    have hown : tables m.cells 0 pt = 0 + one pt := by
      funext q
      rw [tables, Pi.add_apply, Pi.zero_apply, Nat.zero_add]
    rw [hown] at hs ⊢
    rw [freewalk, hloop]
    exact (kfree_spec hs).mono (fun m' h ↦ h.1)
  | succ l ih =>
    intro m pt ht he hs
    rw [← belowAll_range] at hs ⊢
    rw [freewalk]
    apply (freewalkLoop_spec ih List.nodup_range (fun i hi ↦ List.mem_range.mp hi) ?_ hs).bind
    · intro m₁ hm₁
      have hs₁ := hs.moves hm₁
      rw [← zero_add (one pt)] at hs₁
      apply (kfree_spec hs₁).mono
      rintro m₂ ⟨hm₂, -⟩
      rw [zero_add] at hm₂
      exact hm₁.trans hm₂
    · intro i hi hv
      have hlt := List.mem_range.mp hi
      exact ⟨(ht i hlt hv).1, (ht i hlt hv).2, he i hlt hv⟩

/-- A new page table is empty. -/
theorem uvmcreate_spec {root : Nat} {own : Nat → Nat} (hs : Sound k m own)
    (h : uvmcreate m = (some root, m')) :
    Moves m.toHeap m'.toHeap own (own + tables m'.cells 2 root) ∧ Table m'.cells 2 root ∧
      tables m'.cells 2 root = one root ∧ (∀ v, entry m'.cells 2 root v = 0) ∧ own root = 0 := by
  unfold uvmcreate at h
  split at h
  · cases h
  · next page m₁ hk =>
    cases h
    obtain ⟨hpages, htable, hentries⟩ := table_zero (c := (m₁.fill root 0).cells) (l := 2)
      root (Function.update_self ..)
    refine ⟨?_, htable, hpages, hentries, (kalloc_fresh hk hs).1⟩
    rw [hpages]
    exact kalloc_moves hk (w := m₁.fill root 0) rfl (fun q hq ↦ Function.update_of_ne hq ..) own

theorem uvmcreate_none (h : uvmcreate m = (none, m')) : m'.toHeap = m.toHeap := by
  unfold uvmcreate at h
  split at h
  · next m₁ hk =>
    cases h
    exact kalloc_none hk
  · cases h

end

end Xv6.Vm
