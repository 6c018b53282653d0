import Xv6.Lib.Run
import Xv6.Vm.Map

/-!
# Page tables are finite maps

A page table that `uvmcreate` made, changed by any sequence of `mappages`, `uvmunmap` and
`uvmclear`, is a map from virtual pages to physical pages and flags. The caller may also take
data pages from `kalloc`, which `uvmunmap` frees when told to.
-/

namespace Xv6.Vm

open Xv6.Lib

/-- The map: the physical page and the flags of a virtual page. -/
abbrev PageMap := Nat → Option (Nat × Nat)

/-- What an entry says. -/
def translate (pte : Nat) : Option (Nat × Nat) :=
  if Valid pte then some (PTE2PA pte, PTE_FLAGS pte) else none

/-- The map through `walk(pagetable, va, 0)`, for virtual pages below `MAXVA/PGSIZE`. -/
def lookup (m : Mem) (pagetable : Nat) : PageMap := fun v ↦
  match walk m pagetable (v * PGSIZE) false with
  | .ok (some (p, i), _) => translate (Ram.pte m.cells p i)
  | _ => none

/-- The map with `j` pages from `v` on mapped to the pages from `page` on. -/
def PageMap.mapRange (A : PageMap) (v j page flags : Nat) : PageMap := fun u ↦
  if v ≤ u ∧ u < v + j then some (page + (u - v), flags) else A u

/-- The map without `n` pages from `v` on. -/
def PageMap.unmapRange (A : PageMap) (v n : Nat) : PageMap := fun u ↦
  if v ≤ u ∧ u < v + n then none else A u

/-- The map with `PTE_U` taken from the flags of page `v`. -/
def PageMap.clear (A : PageMap) (v : Nat) : PageMap := fun u ↦
  if u = v then (A u).map (fun q ↦ (q.1, q.2 &&& (2 ^ 64 - 1 - PTE_U))) else A u

/-- A call on the page table; `alloc` takes a data page for the caller. -/
inductive Op where
  | mappages (va size page perm : Nat) (fails : List Bool)
  | uvmunmap (va npages : Nat) (do_free : Bool)
  | uvmclear (va : Nat)
  | alloc (fails : List Bool)

/-- Memory, the root of the table, the caller's data pages, and whether the last `mappages`
returned 0. -/
structure Client where
  mem : Mem
  root : Nat
  data : List Nat
  ok : Bool

/-- The allocations from now on fail as the list says. -/
def Client.failing (s : Client) (fails : List Bool) : Mem := { s.mem with fails := fails }

/-- One call; `none` if it panics. -/
def opStep (k : Kernel) (s : Client) : Op → Option Client
  | .mappages va size page perm fails =>
    match mappages (s.failing fails) s.root va size page perm with
    | .ok (ok, m) => some { s with mem := m, ok := ok }
    | .error _ => none
  | .uvmunmap va npages do_free =>
    match uvmunmap k s.mem s.root va npages do_free with
    | .ok m =>
      let freed := if do_free then mapped s.mem.cells s.root (va / PGSIZE) npages else []
      some { s with mem := m, data := s.data.diff freed }
    | .error _ => none
  | .uvmclear va =>
    match uvmclear s.mem s.root va with
    | .ok m => some { s with mem := m }
    | .error _ => none
  | .alloc fails =>
    match kalloc (s.failing fails) with
    | (none, m) => some { s with mem := m }
    | (some page, m) => some { s with mem := m, data := page :: s.data }

/-- What the caller has to respect: `mappages` is for pages below `MAXVA` that are not mapped, and
`uvmunmap` for pages that are, and to free them they have to be the caller's data pages. -/
def OpOk (s : Client) : Op → Prop
  | .mappages va size page perm _ =>
    0 < size ∧ va + size ≤ MAXVA ∧ page < 2 ^ 44 ∧ perm < 1024 ∧
      ∀ v ∈ List.range' (va / PGSIZE) ((va + size - 1) / PGSIZE - va / PGSIZE + 1),
        lookup s.mem s.root v = none
  | .uvmunmap va npages do_free =>
    va % PGSIZE = 0 ∧ va + npages * PGSIZE ≤ MAXVA ∧
      (∀ v ∈ List.range' (va / PGSIZE) npages, (lookup s.mem s.root v).isSome = true) ∧
      (do_free = true →
        (mapped s.mem.cells s.root (va / PGSIZE) npages).Nodup ∧
          ∀ q ∈ mapped s.mem.cells s.root (va / PGSIZE) npages, q ∈ s.data)
  | .uvmclear va => va < MAXVA
  | .alloc _ => True

instance (s : Client) (op : Op) : Decidable (OpOk s op) := by
  cases op <;> unfold OpOk <;> infer_instance

/-- What a call does to the map and to the result. A `mappages` that runs out of pages has mapped
the first `j` of its pages. -/
inductive MapStep : PageMap × Bool → Op → PageMap × Bool → Prop
  | map {A : PageMap} {ok ok' : Bool} {va size page perm : Nat} {fails : List Bool} {j : Nat}
      (hj : j ≤ (va + size - 1) / PGSIZE - va / PGSIZE + 1)
      (hok : ok' = true ↔ j = (va + size - 1) / PGSIZE - va / PGSIZE + 1) :
      MapStep (A, ok) (.mappages va size page perm fails)
        (A.mapRange (va / PGSIZE) j page (perm ||| PTE_V), ok')
  | unmap {A : PageMap} {ok : Bool} {va npages : Nat} {do_free : Bool} :
      MapStep (A, ok) (.uvmunmap va npages do_free) (A.unmapRange (va / PGSIZE) npages, ok)
  | clear {A : PageMap} {ok : Bool} {va : Nat} :
      MapStep (A, ok) (.uvmclear va) (A.clear (va / PGSIZE), ok)
  | alloc {A : PageMap} {ok : Bool} {fails : List Bool} : MapStep (A, ok) (.alloc fails) (A, ok)

/-- The map of a client and its last result. -/
def Client.view (s : Client) : PageMap × Bool := (lookup s.mem s.root, s.ok)

/-- The pages of the table form a tree, apart from the data pages and the free list. -/
structure ClientOk (k : Kernel) (s : Client) : Prop where
  table : Table s.mem.cells 2 s.root
  sound : Sound k s.mem (tables s.mem.cells 2 s.root + fun q ↦ s.data.count q)

/-! ### Lookup -/

section
variable {k : Kernel} {m m' : Mem} {pt : Nat}

theorem entry_of_slot_none {c : Ram} {l v : Nat} (h : slot c l pt v = none) :
    entry c l pt v = 0 := by
  apply Classical.byContradiction
  intro hne
  induction l generalizing pt with
  | zero => cases h
  | succ l ih =>
    rw [slot] at h
    rw [entry] at hne
    split at h
    · next hv =>
      rw [if_pos hv] at hne
      exact ih h hne
    · next hv => exact hne (if_neg hv)

theorem lookup_eq (m : Mem) (pt v : Nat) :
    lookup m pt v = if v < NPAGES then translate (entry m.cells 2 pt v) else none := by
  unfold lookup
  by_cases hv : v < NPAGES
  · rw [walk_false hv, if_pos hv]
    cases hs : slot m.cells 2 pt v with
    | none => rw [entry_of_slot_none hs]; rfl
    | some loc => rw [entry_slot hs]
  · rw [walk, if_pos (Nat.not_lt.mp (fun h ↦ hv (page_lt_iff.mp (Nat.not_le.mpr h)))), if_neg hv]

theorem lookup_of_lt {v : Nat} (h : v < NPAGES) :
    lookup m pt v = translate (entry m.cells 2 pt v) := by
  rw [lookup_eq, if_pos h]

/-- Two tables with maps that agree below `MAXVA` have the same map. -/
theorem lookup_ext {A : PageMap} (hA : ∀ v, NPAGES ≤ v → A v = none)
    (h : ∀ v < NPAGES, translate (entry m.cells 2 pt v) = A v) : lookup m pt = A := by
  funext v
  rw [lookup_eq]
  split
  · next hv => exact h v hv
  · next hv => exact (hA v (by omega)).symm

theorem lookup_beyond {v : Nat} (h : NPAGES ≤ v) : lookup m pt v = none := by
  rw [lookup_eq, if_neg (by omega)]

theorem translate_isSome {pte : Nat} : (translate pte).isSome = true ↔ Valid pte := by
  unfold translate
  split <;> simp_all

theorem translate_eq_none {pte : Nat} : translate pte = none ↔ ¬ Valid pte := by
  unfold translate
  split <;> simp_all

theorem translate_mkPte {page flags : Nat} (h : flags < 1024) (hp : page < 2 ^ 52)
    (hv : flags &&& PTE_V ≠ 0) :
    translate (mkPte page flags) = some (page, flags) := by
  have hvalid : Valid (mkPte page flags) := by
    rw [Valid, mkPte_and h (by decide)]
    exact hv
  rw [translate, if_pos hvalid, PTE2PA_mkPte h hp, PTE_FLAGS_eq, mkPte_flags h]

theorem translate_zero : translate 0 = none := translate_eq_none.mpr not_valid_zero

theorem entry_lt (c : Ram) (l pt v : Nat) : entry c l pt v < 2 ^ 64 := by
  induction l generalizing pt with
  | zero => exact readLE_lt _ _ 8
  | succ l ih =>
    rw [entry]
    split
    · exact ih _
    · decide

/-- Taking `PTE_U` away keeps the page. -/
theorem clear_page (pte : Nat) : PTE2PA (pte &&& (2 ^ 64 - 1 - PTE_U)) = PTE2PA pte := by
  have hshift : (2 ^ 64 - 1 - PTE_U) >>> 10 = 2 ^ 54 - 1 := by decide
  rw [PTE2PA, PTE2PA, Nat.shiftRight_and_distrib, hshift, Nat.and_two_pow_sub_one_eq_mod,
    Nat.mod_mod_of_dvd _ (by decide)]

/-- Taking `PTE_U` away changes the flags only. -/
theorem translate_clear (pte : Nat) :
    translate (pte &&& (2 ^ 64 - 1 - PTE_U)) =
      (translate pte).map (fun q ↦ (q.1, q.2 &&& (2 ^ 64 - 1 - PTE_U))) := by
  have hmask : (2 ^ 64 - 1 - PTE_U) &&& PTE_V = PTE_V := by decide
  have hv : Valid (pte &&& (2 ^ 64 - 1 - PTE_U)) ↔ Valid pte := by
    rw [Valid, Valid, Nat.and_assoc, hmask]
  have hpage := clear_page pte
  have hflags : PTE_FLAGS (pte &&& (2 ^ 64 - 1 - PTE_U)) = PTE_FLAGS pte &&& (2 ^ 64 - 1 - PTE_U) :=
    Nat.and_right_comm ..
  unfold translate
  simp only [hv, hpage, hflags]
  split <;> rfl

/-! ### Calls -/

variable {s s' : Client}

theorem mappages_range {va size : Nat} (hsize : 0 < size) (hva : va + size ≤ MAXVA) :
    (va + size - 1) / PGSIZE = va / PGSIZE + ((va + size - 1) / PGSIZE - va / PGSIZE) ∧
      (va + size - 1) / PGSIZE < NPAGES := by
  have hle : va / PGSIZE ≤ (va + size - 1) / PGSIZE := Nat.div_le_div_right (by omega)
  refine ⟨by omega, ?_⟩
  apply (Nat.div_lt_iff_lt_mul (by decide)).mpr
  rw [NPAGES_mul]
  omega

/-- `mappages` of pages that are not mapped. -/
theorem opStep_mappages (h : ClientOk k s) {va size page perm : Nat} {fails : List Bool}
    (hok : OpOk s (.mappages va size page perm fails)) :
    ∃ s', opStep k s (.mappages va size page perm fails) = some s' ∧ ClientOk k s' ∧
      MapStep s.view (.mappages va size page perm fails) s'.view := by
  obtain ⟨hsize, hva, hpage, hperm, hnone⟩ := hok
  obtain ⟨hlast, hlt⟩ := mappages_range hsize hva
  have hN : NPAGES = 2 ^ 26 := rfl
  have hs : Sound k (s.failing fails) (tables (s.failing fails).cells 2 s.root) :=
    h.sound.left.heap rfl
  have hcount : (va + size - 1) / PGSIZE - va / PGSIZE < NPAGES :=
    Nat.lt_of_le_of_lt (Nat.sub_le _ _) hlt
  have hpages : page + ((va + size - 1) / PGSIZE - va / PGSIZE) < 2 ^ 52 := by omega
  obtain ⟨⟨ok, m⟩, hm, j, hj, hjok, hmap⟩ := mappages_spec (m := s.failing fails) hperm
    page rfl hlast hsize (by omega) hpages h.table hs (by
      intro u hlo hhi
      have hu := hnone u (List.mem_range'_1.mpr ⟨hlo, by omega⟩)
      rw [lookup_of_lt (by omega)] at hu
      exact translate_eq_none.mp hu)
  refine ⟨{ s with mem := m, ok := ok }, ?_, ?_, ?_⟩
  · rw [opStep, hm]
  · refine ⟨hmap.table, ?_⟩
    exact h.sound.moves (hmap.moves.add _)
  · have hview : lookup m s.root = PageMap.mapRange (lookup s.mem s.root) (va / PGSIZE) j page
        (perm ||| PTE_V) := by
      apply lookup_ext
      · intro v hv
        rw [PageMap.mapRange, if_neg (by omega)]
        exact lookup_beyond hv
      · intro v hv
        rw [hmap.entries v (lt_two_npages hv), PageMap.mapRange]
        split
        · apply translate_mkPte (or_valid_lt hperm) (by omega)
          exact or_valid_and perm
        · rw [lookup_of_lt hv]
          rfl
    rw [Client.view, Client.view, hview]
    exact MapStep.map hj hjok

/-- `uvmunmap` of pages that are mapped, when it does not panic. -/
theorem opStep_uvmunmap (h : ClientOk k s) {va npages : Nat} {do_free : Bool}
    (hok : OpOk s (.uvmunmap va npages do_free)) :
    (∃ s', opStep k s (.uvmunmap va npages do_free) = some s' ∧ ClientOk k s' ∧
      MapStep s.view (.uvmunmap va npages do_free) s'.view) ∨
    opStep k s (.uvmunmap va npages do_free) = none ∧ ∃ v page, va / PGSIZE ≤ v ∧
      v < va / PGSIZE + npages ∧ lookup s.mem s.root v = some (page, PTE_V) := by
  obtain ⟨hal, hva, hmapped, hdata⟩ := hok
  have hvpage : va / PGSIZE * PGSIZE = va := Nat.div_mul_cancel (Nat.dvd_of_mod_eq_zero hal)
  have hle : va / PGSIZE + npages ≤ NPAGES := by
    have := NPAGES_mul
    unfold PGSIZE at *
    omega
  -- the pages to be freed are among the data pages
  have hfreed : ∃ rest : Nat → Nat, (fun q ↦ s.data.count q) =
      freedIf do_free (users s.mem.cells s.root (va / PGSIZE) npages) + rest ∧
      rest = fun q ↦ (s.data.diff (if do_free then
        mapped s.mem.cells s.root (va / PGSIZE) npages else [])).count q := by
    refine ⟨_, ?_, rfl⟩
    funext q
    cases do_free with
    | false => simp [freedIf]
    | true =>
      obtain ⟨hnodup, hmem⟩ := hdata rfl
      have hsub : (mapped s.mem.cells s.root (va / PGSIZE) npages).count q ≤ s.data.count q := by
        by_cases hq : q ∈ mapped s.mem.cells s.root (va / PGSIZE) npages
        · rw [List.count_eq_one_of_mem hnodup hq]
          exact List.one_le_count_iff.mpr (hmem q hq)
        · rw [List.count_eq_zero_of_not_mem hq]
          exact Nat.zero_le _
      simp only [freedIf, if_true, Pi.add_apply, users, List.count_diff]
      omega
  obtain ⟨rest, hrest, hrest'⟩ := hfreed
  have hs := h.sound
  rw [hrest, ← add_assoc] at hs
  have hcases := uvmunmapLoop_cases hle h.table hs.left (by
    intro u hlo hhi
    have := hmapped u (List.mem_range'_1.mpr ⟨hlo, hhi⟩)
    rw [lookup_of_lt (by omega)] at this
    exact translate_isSome.mp this)
  rw [← uvmunmap_eq hle, hvpage] at hcases
  rcases hcases with ⟨m, hm, hun⟩ | ⟨herr, u, hlo, hhi, hflags⟩
  · left
    let freed := if do_free then mapped s.mem.cells s.root (va / PGSIZE) npages else []
    refine ⟨{ s with mem := m, data := s.data.diff freed }, ?_, ⟨hun.table, ?_⟩, ?_⟩
    · simp only [opStep, hm, freed]
    · have hs' := hs.moves (hun.moves.add rest)
      rw [hrest'] at hs'
      exact hs'
    · have hview :
          lookup m s.root = PageMap.unmapRange (lookup s.mem s.root) (va / PGSIZE) npages := by
        apply lookup_ext
        · intro v hv
          rw [PageMap.unmapRange, if_neg (by omega)]
          exact lookup_beyond hv
        · intro v hv
          rw [hun.entries v (lt_two_npages hv), PageMap.unmapRange]
          split
          · exact translate_zero
          · exact (lookup_of_lt hv).symm
      rw [Client.view, Client.view, hview]
      exact MapStep.unmap
  · right
    refine ⟨by rw [opStep, herr], u, PTE2PA (entry s.mem.cells 2 s.root u), hlo, hhi, ?_⟩
    have := hmapped u (List.mem_range'_1.mpr ⟨hlo, hhi⟩)
    rw [lookup_of_lt (by omega)] at this ⊢
    rw [translate, if_pos (translate_isSome.mp this), hflags]

theorem opStep_uvmclear (h : ClientOk k s) {va : Nat} (hok : OpOk s (.uvmclear va)) :
    (∃ s', opStep k s (.uvmclear va) = some s' ∧ ClientOk k s' ∧
      MapStep s.view (.uvmclear va) s'.view) ∨
    opStep k s (.uvmclear va) = none ∧ lookup s.mem s.root (va / PGSIZE) = none := by
  have hva : va < MAXVA := hok
  have hlt : va / PGSIZE < NPAGES := by
    apply (Nat.div_lt_iff_lt_mul (by decide)).mpr
    rw [NPAGES_mul]
    exact hva
  have hwalk : walk s.mem s.root va false =
      .ok (slot s.mem.cells 2 s.root (va / PGSIZE), s.mem) := by
    rw [walk, if_neg (by omega), walkLoop_false]
  cases hslot : slot s.mem.cells 2 s.root (va / PGSIZE) with
  | none =>
    right
    refine ⟨?_, ?_⟩
    · rw [opStep, uvmclear, hwalk, hslot]
      rfl
    · rw [lookup_of_lt hlt, entry_of_slot_none hslot, translate_zero]
  | some loc =>
    left
    have hone (q : Nat) := h.sound.left.le_one q
    let w := entry s.mem.cells 2 s.root (va / PGSIZE) &&& (2 ^ 64 - 1 - PTE_U)
    have hw : w < 256 ^ 8 := Nat.lt_of_le_of_lt Nat.and_le_right (by decide)
    have hst := setPte_spec hslot hone h.table hlt hw
    refine ⟨{ s with mem := s.mem.setPte loc.1 loc.2 w }, ?_, ⟨hst.table, ?_⟩, ?_⟩
    · have hmem : uvmclear s.mem s.root va = .ok (s.mem.setPte loc.1 loc.2 w) := by
        rw [uvmclear, hwalk, hslot]
        simp only [w, entry_slot hslot]
        rfl
      rw [opStep, hmem]
    · exact h.sound.moves (hst.moves _)
    · have hview : lookup (s.mem.setPte loc.1 loc.2 w) s.root =
          PageMap.clear (lookup s.mem s.root) (va / PGSIZE) := by
        apply lookup_ext
        · intro v hv
          rw [PageMap.clear, if_neg (by omega)]
          exact lookup_beyond hv
        · intro v hv
          rw [hst.entries v (lt_two_npages hv), PageMap.clear, lookup_of_lt hv]
          split
          · next hve =>
            rw [hve]
            exact translate_clear _
          · rfl
      rw [Client.view, Client.view, hview]
      exact MapStep.clear

theorem opStep_alloc (h : ClientOk k s) (fails : List Bool) :
    ∃ s', opStep k s (.alloc fails) = some s' ∧ ClientOk k s' ∧
      MapStep s.view (.alloc fails) s'.view := by
  cases hk : kalloc (s.failing fails) with
  | mk r m =>
    cases r with
    | none =>
      have hheap : m.toHeap = (s.failing fails).toHeap := kalloc_none hk
      have hcells : m.cells = s.mem.cells := congrArg Heap.cells hheap
      refine ⟨{ s with mem := m }, by rw [opStep, hk], ⟨?_, ?_⟩, ?_⟩
      · change Table m.cells 2 s.root
        rw [hcells]
        exact h.table
      · change Sound k m (tables m.cells 2 s.root + _)
        rw [hcells]
        exact h.sound.heap hheap
      · have hview : lookup m s.root = lookup s.mem s.root := by
          funext v
          rw [lookup_eq, lookup_eq, hcells]
        rw [Client.view, Client.view, hview]
        exact MapStep.alloc
    | some page =>
      have hmoves := kalloc_moves hk (w := m) rfl (fun _ _ ↦ rfl)
        (tables s.mem.cells 2 s.root + fun q ↦ s.data.count q)
      have hs : Sound k (s.failing fails) (tables s.mem.cells 2 s.root + fun q ↦ s.data.count q) :=
        h.sound.heap rfl
      have hsame : SameTable s.mem.cells m.cells 2 s.root := by
        apply SameTable.of_cells
        intro q hq
        have hne : q ≠ page := by
          rintro rfl
          have := (kalloc_fresh hk hs).1
          rw [Pi.add_apply] at this
          omega
        rw [(kalloc_some hk).2, Function.update_of_ne hne]
        rfl
      refine ⟨{ s with mem := m, data := page :: s.data }, by rw [opStep, hk],
        ⟨hsame.shape h.table, ?_⟩, ?_⟩
      · change Sound k m (tables m.cells 2 s.root + _)
        have hdata : (fun q ↦ (page :: s.data).count q) = (fun q ↦ s.data.count q) + one page := by
          funext q
          rw [count_cons_one, Pi.add_apply, Nat.add_comm]
        rw [hsame.pages, hdata, ← add_assoc]
        exact hs.moves hmoves
      · have hview : lookup m s.root = lookup s.mem s.root := by
          funext v
          rw [lookup_eq, lookup_eq, hsame.entries]
        rw [Client.view, Client.view, hview]
        exact MapStep.alloc

/-- The calls that may panic: `uvmclear` of a page that is not mapped, and `uvmunmap` of a page
that is mapped without any permission. -/
def Refuses (s : Client) : Op → Prop
  | .uvmclear va => lookup s.mem s.root (va / PGSIZE) = none
  | .uvmunmap va npages _ => ∃ v page, va / PGSIZE ≤ v ∧ v < va / PGSIZE + npages ∧
      lookup s.mem s.root v = some (page, PTE_V)
  | _ => False

theorem opStep_spec (h : ClientOk k s) {op : Op} (hok : OpOk s op) :
    (∃ s', opStep k s op = some s' ∧ ClientOk k s' ∧ MapStep s.view op s'.view) ∨
      opStep k s op = none ∧ Refuses s op := by
  cases op with
  | mappages va size page perm fails => exact Or.inl (opStep_mappages h hok)
  | uvmunmap va npages do_free => exact opStep_uvmunmap h hok
  | uvmclear va => exact opStep_uvmclear h hok
  | alloc fails => exact Or.inl (opStep_alloc h fails)

end

/-- A run from the table that `uvmcreate` made keeps the invariant and is one of the map. -/
theorem opRun_spec {k : Kernel} {m₀ m : Mem} {root : Nat} (hfree : m₀.free.Nodup)
    (husable : ∀ q ∈ m₀.free, k.Usable q) (hroot : uvmcreate m₀ = (some root, m)) {ops : List Op}
    {s : Client} (hok : Along (opStep k) OpOk ⟨m, root, [], true⟩ ops)
    (hrun : run (opStep k) ⟨m, root, [], true⟩ ops = some s) :
    ClientOk k s ∧ Trace MapStep (fun _ ↦ none, true) ops s.view := by
  have hs₀ : Sound k m₀ 0 := by
    refine ⟨?_, ?_⟩
    · intro q
      exact List.nodup_iff_count_le_one.mp hfree q
    · intro q hq
      exact husable q (List.count_pos_iff.mp hq)
  obtain ⟨hmoves, htable, -, hentries, -⟩ := uvmcreate_spec hs₀ hroot
  have hstart : ClientOk k ⟨m, root, [], true⟩ := by
    refine ⟨htable, (hs₀.moves hmoves).congr ?_⟩
    rw [zero_add]
    exact add_zero _
  have hview : Client.view ⟨m, root, [], true⟩ = (fun _ ↦ none, true) := by
    have hnone : lookup m root = fun _ ↦ none := by
      apply lookup_ext (fun _ _ ↦ rfl)
      intro v _
      rw [hentries v, translate_zero]
    rw [Client.view, hnone]
  have hstep (s : Client) (op : Op) (s' : Client) (hs : ClientOk k s) (ho : OpOk s op)
      (he : opStep k s op = some s') : ClientOk k s' ∧ MapStep s.view op s'.view := by
    rcases opStep_spec hs ho with ⟨t, ht, hres⟩ | ⟨hnone, -⟩
    · cases Option.some.inj (ht.symm.trans he)
      exact hres
    · rw [hnone] at he
      cases he
  rw [← hview]
  exact Along.simulates hstep hstart hok hrun

/-- The pages of the table are a tree: none is a page of the table twice, and none is a data page
or free. -/
def PagesApart (s : Client) : Prop :=
  ∀ q, tables s.mem.cells 2 s.root q + s.data.count q + s.mem.free.count q ≤ 1

/-- A table that `uvmcreate` made stays a map under every sequence of calls that respect the
rules: the calls do to it what they do to a map, its pages form a tree, and each further call
returns or is one that is refused. -/
theorem pageTable_refines (k : Kernel) {m₀ m : Mem} {root : Nat} (hfree : m₀.free.Nodup)
    (husable : ∀ q ∈ m₀.free, k.Usable q) (hroot : uvmcreate m₀ = (some root, m)) {ops : List Op}
    {s : Client} (hok : Along (opStep k) OpOk ⟨m, root, [], true⟩ ops)
    (hrun : run (opStep k) ⟨m, root, [], true⟩ ops = some s) :
    Trace MapStep (fun _ ↦ none, true) ops s.view ∧ PagesApart s ∧ Table s.mem.cells 2 s.root ∧
      ∀ op, OpOk s op → opStep k s op = none → Refuses s op := by
  obtain ⟨hend, htrace⟩ := opRun_spec hfree husable hroot hok hrun
  refine ⟨htrace, ?_, hend.table, ?_⟩
  · intro q
    have h : s.mem.free.count q + (tables s.mem.cells 2 s.root q + s.data.count q) ≤ 1 :=
      hend.sound.once q
    omega
  · intro op ho hnone
    rcases opStep_spec hend ho with ⟨t, ht, -⟩ | ⟨-, hrefuses⟩
    · rw [hnone] at ht
      cases ht
    · exact hrefuses

/-- The kernel as it was linked; `kernel/kernel.sym`. -/
def builtKernel : Kernel where
  kend := 0x80022100
  trampoline := 0x80007
  above := by decide
  below := by decide
  text := by decide
  notNull := by decide

/-- Five free pages. -/
def smallMem : Mem :=
  { cells := fun _ _ ↦ 1, free := [1, 2, 3, 4, 5].map (0x80100 + ·), fails := [] }

/-- Map two pages, the second one also in another table page, clear one and unmap the other. -/
def mapRun : List Op :=
  [.alloc [], .mappages 0x1ff000 0x2000 0x80200 (PTE_R ||| PTE_U) [], .uvmclear 0x1ff000,
    .uvmunmap 0x200000 1 false]

set_option maxRecDepth 100000 in
/-- The first page keeps its entry without `PTE_U`, the second one is not mapped. -/
theorem pageTable_refines_mapRun :
    ∃ m root s, uvmcreate smallMem = (some root, m) ∧
      run (opStep builtKernel) ⟨m, root, [], true⟩ mapRun = some s ∧
      Trace MapStep (fun _ ↦ none, true) mapRun s.view ∧
      s.view.1 0x1ff = some (0x80200, PTE_R ||| PTE_V) ∧ s.view.1 0x200 = none := by
  have hcheck : (match uvmcreate smallMem with
      | (some root, m) =>
        decide (Along (opStep builtKernel) OpOk ⟨m, root, [], true⟩ mapRun) &&
          match run (opStep builtKernel) ⟨m, root, [], true⟩ mapRun with
          | some s => s.view.1 0x1ff == some (0x80200, PTE_R ||| PTE_V) && s.view.1 0x200 == none
          | none => false
      | (none, _) => false) = true := by
    decide +kernel
  cases hroot : uvmcreate smallMem with
  | mk r m =>
    rw [hroot] at hcheck
    cases r with
    | none => cases hcheck
    | some root =>
      simp only [Bool.and_eq_true, decide_eq_true_eq] at hcheck
      cases hrun : run (opStep builtKernel) ⟨m, root, [], true⟩ mapRun with
      | none =>
        rw [hrun] at hcheck
        cases hcheck.2
      | some s =>
        rw [hrun] at hcheck
        simp only [Bool.and_eq_true, beq_iff_eq] at hcheck
        have href := pageTable_refines builtKernel (by decide) (by decide) hroot hcheck.1 hrun
        exact ⟨m, root, s, rfl, hrun, href.1, hcheck.2.1, hcheck.2.2⟩

end Xv6.Vm
