import Xv6.Vm.Calls
import Xv6.Vm.Image
import Xv6.Vm.Refine

/-!
# The memory of each process

`allocproc`, `freeproc` and `userinit` (`kernel/proc.c:110–256`) in terms of the pages of a process:
its trapframe, its page table and its user pages. `growproc` (`kernel/proc.c:260`) changes the size
of the address space by exactly the argument, except that it takes more than there is for nothing.
-/

namespace Xv6.Vm

open Xv6.Lib

/-- The pages of a process: its address space and its trapframe. -/
def Proc.hold (c : Ram) (pr : Proc) : Nat → Nat :=
  space c pr.pagetable (pages pr.sz) + one pr.trapframe

/-- The memory of a process has the shape it should: its page table maps the pages of `[0, sz)`, the
trapframe and the trampoline and nothing else, and its pages are all different and not free. -/
structure Shape (k : Kernel) (m : Mem) (pr : Proc) : Prop where
  layout : Layout m.cells pr.pagetable (pages pr.sz) (topEntries k pr.trapframe)
  sound : Sound k m (pr.hold m.cells)

section
variable {k : Kernel} {m m' : Mem} {pr : Proc} {own : Nat → Nat}

/-! ### Allocation that succeeds -/

/-- No allocation fails while pages are free. -/
theorem kalloc_ok (hf : m.fails = []) (hn : 0 < m.free.length) :
    ∃ page m', kalloc m = (some page, m') ∧ m'.fails = [] ∧ m'.free.length + 1 = m.free.length := by
  cases hfree : m.free with
  | nil =>
    rw [hfree] at hn
    exact absurd hn (Nat.lt_irrefl 0)
  | cons page next =>
    refine ⟨page, Mem.fill { m with fails := m.fails.tail, free := next } page 5, ?_, ?_, rfl⟩
    · rw [kalloc, hfree, hf]
      rfl
    · exact congrArg List.tail hf

/-- A walk that allocates takes at most one page for each level. -/
theorem walkLoop_ok {l : Nat} (hf : m.fails = []) (hn : l ≤ m.free.length) (va pt : Nat) :
    ∃ loc m', walkLoop m va true l pt = (some loc, m') ∧ m'.fails = [] ∧
      m.free.length ≤ m'.free.length + l := by
  induction l generalizing m pt with
  | zero => exact ⟨_, m, rfl, hf, Nat.le_refl _⟩
  | succ l ih =>
    rw [walkLoop]
    split
    · obtain ⟨loc, m', heq, hf', hn'⟩ := ih hf (by omega) (PTE2PA _)
      exact ⟨loc, m', heq, hf', by omega⟩
    · obtain ⟨page, m₁, hk, hf₁, hn₁⟩ := kalloc_ok hf (by omega)
      rw [if_pos rfl, hk]
      obtain ⟨loc, m', heq, hf', hn'⟩ := @ih ((m₁.fill page 0).setPte pt (PX (l + 1) va)
        (PA2PTE page ||| PTE_V)) hf₁ (show l ≤ m₁.free.length by omega) page
      have hlen : m₁.free.length ≤ m'.free.length + l := hn'
      exact ⟨loc, m', heq, hf', by omega⟩

/-- A walk to an entry that is there takes none. -/
theorem walkLoop_present {l va pt : Nat} {loc : Nat × Nat}
    (h : slot m.cells l pt (va / PGSIZE) = some loc) : walkLoop m va true l pt = (some loc, m) := by
  induction l generalizing pt with
  | zero =>
    rw [walkLoop, PX_eq]
    exact congrArg (fun o ↦ (o, m)) h
  | succ l ih =>
    rw [slot] at h
    split at h
    · next hv =>
      rw [walkLoop_succ]
      simp only [hv, if_true]
      exact ih h
    · cases h

/-- `mappages` of one page succeeds when the walk does. -/
theorem mappages_walk {pt v page perm : Nat} {r : Bool × Mem} {loc : Nat × Nat}
    (hw : walkLoop m (v * PGSIZE) true 2 pt = (some loc, m'))
    (h : mappages m pt (v * PGSIZE) PGSIZE page perm = .ok r) :
    r.1 = true ∧ r.2.fails = m'.fails ∧ r.2.free = m'.free := by
  have hlast : PGROUNDDOWN ((v * PGSIZE + PGSIZE - 1) % 2 ^ 64) = v * PGSIZE ∨
      MAXVA ≤ v * PGSIZE := by
    unfold PGROUNDDOWN PGSIZE MAXVA
    omega
  have hdown : PGROUNDDOWN (v * PGSIZE) = v * PGSIZE := by
    unfold PGROUNDDOWN PGSIZE
    omega
  rw [mappages, if_neg (by decide)] at h
  simp only at h
  rw [mappagesLoop_succ, walk, hdown] at h
  split at h
  · cases h
  · next hva =>
    rw [hw, hlast.resolve_right hva] at h
    simp only [bind, Except.bind, if_true] at h
    split at h
    · cases h
    · cases Except.ok.inj h
      exact ⟨rfl, rfl, rfl⟩

/-- `mappages` of one page takes at most two pages for the table. -/
theorem mappages_ok {pt v page perm : Nat} {r : Bool × Mem} (hf : m.fails = [])
    (hn : 2 ≤ m.free.length) (h : mappages m pt (v * PGSIZE) PGSIZE page perm = .ok r) :
    r.1 = true ∧ r.2.fails = [] ∧ m.free.length ≤ r.2.free.length + 2 := by
  obtain ⟨loc, m', hw, hf', hn'⟩ := walkLoop_ok hf hn (v * PGSIZE) pt
  obtain ⟨hok, hfails, hfree⟩ := mappages_walk hw h
  refine ⟨hok, hfails.trans hf', ?_⟩
  rw [hfree]
  exact hn'

/-- The trapframe has its entry in the same page as the trampoline. -/
theorem slot_trapframe {c : Ram} {pt : Nat} (h : Valid (entry c 2 pt (TOP + 1))) :
    ∃ loc, slot c 2 pt TOP = some loc := by
  obtain ⟨loc, hloc⟩ := slot_of_valid h
  have h2 : digit 2 (TOP + 1) = digit 2 TOP := by decide
  have h1 : digit 1 (TOP + 1) = digit 1 TOP := by decide
  rw [slot, slot, h2, h1] at hloc
  rw [slot, slot]
  split at hloc
  · next hv2 =>
    rw [if_pos hv2]
    split at hloc
    · next hv1 =>
      rw [if_pos hv1]
      exact ⟨_, rfl⟩
    · cases hloc
  · cases hloc

/-- `proc_pagetable` takes three pages at most. -/
theorem procPagetable_ok {tf : Nat} {r : Option Nat × Mem} (hs : Sound k m 0) (hf : m.fails = [])
    (hn : 3 ≤ m.free.length) (h : procPagetable k m tf = .ok r) :
    ∃ pt, r.1 = some pt ∧ r.2.fails = [] ∧ m.free.length ≤ r.2.free.length + 3 := by
  obtain ⟨root, m₁, hk, hf₁, hn₁⟩ := kalloc_ok hf (by omega)
  have hcreate : uvmcreate m = (some root, m₁.fill root 0) := by
    rw [uvmcreate, hk]
  obtain ⟨hl₁, hm₁⟩ := uvmcreate_layout hs hcreate
  rw [procPagetable, hcreate, TRAMPOLINE_eq, TRAPFRAME_eq] at h
  dsimp only at h
  obtain ⟨⟨ok₂, m₂⟩, hmap₂, h⟩ := bind_ok h
  have hfill : (m₁.fill root 0).fails = [] := hf₁
  have hlen : (m₁.fill root 0).free.length = m₁.free.length := rfl
  obtain ⟨hok₂, hf₂, hn₂⟩ := mappages_ok hfill (by omega) hmap₂
  have htramp := Nat.lt_trans k.trampoline_lt (by decide : 2 ^ 20 < 2 ^ 52)
  have htop := mapTop_spec hl₁ (hs.moves hm₁) (Nat.le_succ TOP) (by decide) not_valid_zero htramp
    (by decide : PTE_R ||| PTE_X < 1024)
  rw [hmap₂] at htop
  obtain ⟨r₂, hr₂, -, hl₂⟩ := htop
  cases hr₂
  dsimp only at hok₂ hf₂ hn₂ hl₂
  rw [hok₂] at h hl₂
  have hvalid : Valid (entry m₂.cells 2 root (TOP + 1)) := by
    rw [hl₂.top (TOP + 1) (Nat.le_succ TOP) (by decide), if_pos rfl, Function.update_self]
    exact (trampoline_leaf k).1
  obtain ⟨loc, hslot⟩ := slot_trapframe hvalid
  obtain ⟨⟨ok₃, m₃⟩, hmap₃, h⟩ := bind_ok h
  have hw : walkLoop m₂ (TOP * PGSIZE) true 2 root = (some loc, m₂) := by
    apply walkLoop_present
    rw [Nat.mul_div_cancel TOP (by decide : 0 < PGSIZE)]
    exact hslot
  obtain ⟨hok₃, hf₃, hn₃⟩ := mappages_walk hw hmap₃
  dsimp only at hok₃ hf₃ hn₃
  rw [hok₃] at h
  cases h
  refine ⟨root, rfl, hf₃.trans hf₂, ?_⟩
  dsimp only
  rw [hn₃]
  omega

/-- The loop of `uvmalloc` takes at most three pages in each round. -/
theorem uvmallocLoop_ok {pt oldsz xperm cnt v : Nat} {r : Bool × Mem} (hf : m.fails = [])
    (hn : 3 * cnt ≤ m.free.length) (h : uvmallocLoop k pt oldsz xperm cnt m (v * PGSIZE) = .ok r) :
    r.1 = true ∧ r.2.fails = [] ∧ m.free.length ≤ r.2.free.length + 3 * cnt := by
  induction cnt generalizing m v with
  | zero =>
    cases h
    exact ⟨rfl, hf, Nat.le_add_right ..⟩
  | succ cnt ih =>
    obtain ⟨page, m₁, hk, hf₁, hn₁⟩ := kalloc_ok hf (by omega)
    rw [uvmallocLoop, hk] at h
    dsimp only at h
    obtain ⟨⟨ok, m₂⟩, hmap, h⟩ := bind_ok h
    have hfill : (m₁.fill page 0).fails = [] := hf₁
    have hlen : (m₁.fill page 0).free.length = m₁.free.length := rfl
    obtain ⟨hok, hf₂, hn₂⟩ := mappages_ok hfill (by omega) hmap
    dsimp only at hok hf₂ hn₂ h
    rw [hok, if_pos rfl, ← Nat.succ_mul] at h
    obtain ⟨hr, hf', hn'⟩ := ih hf₂ (by omega) h
    exact ⟨hr, hf', by omega⟩

/-- `uvmalloc` succeeds when there are three free pages for each new page. -/
theorem uvmalloc_ok {pt oldsz newsz xperm : Nat} {r : Nat × Mem} (hf : m.fails = [])
    (hn : 3 * pages (newsz - oldsz) ≤ m.free.length) (hle : oldsz ≤ newsz) (hold : oldsz < 2 ^ 38)
    (h : uvmalloc k m pt oldsz newsz xperm = .ok r) :
    r.1 = newsz ∧ r.2.fails = [] ∧ m.free.length ≤ r.2.free.length + 3 * pages (newsz - oldsz) := by
  have hcount : (newsz - PGROUNDUP oldsz + PGSIZE - 1) / PGSIZE ≤ pages (newsz - oldsz) := by
    unfold pages PGROUNDUP PGSIZE
    omega
  rw [uvmalloc, if_neg (by omega)] at h
  dsimp only at h
  obtain ⟨⟨ok, m'⟩, hloop, h⟩ := bind_ok h
  generalize (newsz - PGROUNDUP oldsz + PGSIZE - 1) / PGSIZE = cnt at hcount hloop
  obtain ⟨hok, hf', hn'⟩ := uvmallocLoop_ok hf (by omega) hloop
  dsimp only at hok hf' hn' h
  rw [hok] at h
  cases h
  refine ⟨rfl, hf', ?_⟩
  dsimp only
  omega

/-- The loop of `uvmcopy` takes at most three pages in each round. -/
theorem uvmcopyLoop_ok {old new cnt v : Nat} {r : Bool × Mem} (hf : m.fails = [])
    (hn : 3 * cnt ≤ m.free.length) (h : uvmcopyLoop k old new cnt m (v * PGSIZE) = .ok r) :
    r.1 = true ∧ r.2.fails = [] ∧ m.free.length ≤ r.2.free.length + 3 * cnt := by
  induction cnt generalizing m v with
  | zero =>
    cases h
    exact ⟨rfl, hf, Nat.le_add_right ..⟩
  | succ cnt ih =>
    rw [uvmcopyLoop] at h
    obtain ⟨⟨loc, m₀⟩, hwalk, h⟩ := bind_ok h
    have hm₀ : m₀ = m := by
      rw [walk, walkLoop_false] at hwalk
      split at hwalk
      · cases hwalk
      · exact (Prod.mk.inj (Except.ok.inj hwalk)).2.symm
    subst hm₀
    cases loc with
    | none => cases h
    | some loc =>
      dsimp only at h
      split at h
      · cases h
      obtain ⟨page, m₁, hk, hf₁, hn₁⟩ := kalloc_ok hf (by omega)
      rw [hk] at h
      obtain ⟨⟨ok, m₂⟩, hmap, h⟩ := bind_ok h
      obtain ⟨hok, hf₂, hn₂⟩ := mappages_ok (m := m₁.copyPage page _) hf₁
        (show 2 ≤ m₁.free.length by omega) hmap
      have hlen : m₁.free.length ≤ m₂.free.length + 2 := hn₂
      dsimp only at hok hf₂ h
      rw [hok, if_pos rfl, ← Nat.succ_mul] at h
      obtain ⟨hr, hf', hn'⟩ := ih hf₂ (by omega) h
      exact ⟨hr, hf', by omega⟩

/-! ### `allocproc` and `freeproc` -/

/-- The process that `allocproc` makes of the slot `pr`. -/
def Proc.fresh (pr : Proc) (pid trapframe pagetable : Nat) : Proc :=
  { pr with pid := pid, state := .USED, trapframe := trapframe, pagetable := pagetable }

/-- A slot without memory and open files. -/
structure Proc.Cleared (pr : Proc) : Prop where
  sz : pr.sz = 0
  pagetable : pr.pagetable = 0
  ofile : ∀ fd, pr.ofile fd = none

/-- `freeproc` leaves the descriptors to `exit`. -/
theorem Proc.Cleared.freed (h : ∀ fd, pr.ofile fd = none) : pr.freed.Cleared := ⟨rfl, rfl, h⟩

/-- `allocproc` makes a process without user memory, or gives everything back. -/
theorem allocproc_spec {pid : Nat} (hs : Sound k m 0) (hpr : pr.Cleared) :
    Returns (allocproc k m pr pid) (fun r ↦
      if r.1 = true then ∃ tf pt, r.2.1 = pr.fresh pid tf pt ∧ Shape k r.2.2 r.2.1 ∧
          Moves m.toHeap r.2.2.toHeap 0 (r.2.1.hold r.2.2.cells)
      else r.2.1 = pr.freed ∧ Moves m.toHeap r.2.2.toHeap 0 0) := by
  rw [allocproc]
  dsimp only
  split
  · next m₁ hk =>
    have hfree : freeproc k m₁ { pr with pid := pid, state := .USED, trapframe := 0 } = .ok m₁ := by
      rw [freeproc, kfreeIf, hpr.pagetable]
      rfl
    rw [hfree]
    refine Returns.pure ⟨rfl, ?_⟩
    rw [kalloc_none hk]
    exact Moves.refl _ _
  · next tf m₁ hk =>
    have hm₁ : Moves m.toHeap m₁.toHeap 0 (0 + one tf) := kalloc_moves hk rfl (fun _ _ ↦ rfl) 0
    have hs₁ := hs.moves hm₁
    have htf : tf < 2 ^ 20 := (kalloc_fresh hk hs).2.lt
    apply (procPagetable_spec hs₁.left (by omega)).bind
    rintro ⟨pt, m₂⟩ hm₂
    cases pt with
    | none =>
      have hm₂ : Moves m₁.toHeap m₂.toHeap (0 + one tf) (0 + one tf) := Moves.add hm₂ (one tf)
      have hs₂ := hs₁.moves hm₂
      have hne : tf ≠ 0 := (kalloc_fresh hk hs).2.ne_zero
      have hfree : Returns (freeproc k m₂ { pr with
          pid := pid, state := .USED, trapframe := tf, pagetable := 0 }) (fun m' ↦
          Moves m₂.toHeap m'.toHeap (0 + one tf) 0) := by
        rw [freeproc, kfreeIf, if_pos (decide_eq_true hne)]
        apply (kfree_spec hs₂).bind
        rintro m' ⟨hm', -⟩
        exact Returns.pure hm'
      apply hfree.bind
      intro m₃ hm₃
      exact Returns.pure ⟨rfl, (hm₁.trans hm₂).trans hm₃⟩
    | some pt =>
      obtain ⟨hl, hm₂⟩ := hm₂
      have hpages : pages (pr.fresh pid tf pt).sz = 0 := by
        show pages pr.sz = 0
        rw [hpr.sz]
        exact pages_zero
      have hmoves : Moves m.toHeap m₂.toHeap 0 ((pr.fresh pid tf pt).hold m₂.cells) := by
        rw [Proc.hold, hpages]
        exact hm₁.trans (hm₂.add (one tf))
      have hlayout : Layout m₂.cells pt (pages (pr.fresh pid tf pt).sz) (topEntries k tf) := by
        rw [hpages]
        exact hl
      exact Returns.pure ⟨tf, pt, rfl, ⟨hlayout, hs.moves hmoves⟩, hmoves⟩

/-- `freeproc` gives back all pages of a process. -/
theorem freeproc_spec (h : Shape k m pr) :
    Returns (freeproc k m pr) (fun m' ↦ Moves m.toHeap m'.toHeap (pr.hold m.cells) 0) := by
  have htf : pr.trapframe ≠ 0 := by
    apply h.sound.ne_zero
    rw [Proc.hold, Pi.add_apply, one_self]
    omega
  have hpt : pr.pagetable ≠ 0 := by
    apply h.sound.ne_zero
    have := tables_self m.cells 2 pr.pagetable
    rw [Proc.hold, space, Pi.add_apply, Pi.add_apply]
    omega
  rw [freeproc, kfreeIf, if_pos (decide_eq_true htf)]
  apply (kfree_spec h.sound).bind
  rintro m₁ ⟨hm₁, hcells⟩
  have hsame : SameTable m.cells m₁.cells 2 pr.pagetable := by
    apply SameTable.of_cells
    intro q hq
    apply hcells
    rintro rfl
    have := h.sound.once pr.trapframe
    simp only [Proc.hold, space, Pi.add_apply, one_self] at this
    omega
  rw [if_pos hpt]
  have hs₁ := h.sound.moves hm₁
  rw [← hsame.space] at hs₁
  apply (procFreepagetable_spec (hsame.layout h.layout) hs₁).mono
  intro m' hm'
  rw [hsame.space] at hm'
  exact hm₁.trans hm'

/-! ### `userinit` -/

theorem Shape.trapframe_apart (h : Shape k m pr) :
    space m.cells pr.pagetable (pages pr.sz) pr.trapframe = 0 := by
  apply h.sound.disjoint
  rw [one_self]
  exact Nat.one_pos

theorem Proc.hold_congr {c c' : Ram} (h : SameTable c c' 2 pr.pagetable) :
    pr.hold c' = pr.hold c := by
  rw [Proc.hold, Proc.hold, h.space]

/-- The pages of a process depend on its table only. -/
theorem Shape.same (h : Shape k m pr) (hsame : SameTable m.cells m'.cells 2 pr.pagetable)
    (hsound : Sound k m' (pr.hold m.cells)) : Shape k m' pr := by
  refine ⟨hsame.layout h.layout, ?_⟩
  rw [Proc.hold_congr hsame]
  exact hsound

theorem Shape.heap (h : Shape k m pr) (he : m'.toHeap = m.toHeap) : Shape k m' pr := by
  have hc : m'.cells = m.cells := congrArg Heap.cells he
  refine ⟨?_, ?_⟩
  · rw [hc]
    exact h.layout
  · rw [hc]
    exact h.sound.heap he

/-- Stores to the trapframe only. -/
structure TrapframeStored (m m' : Mem) (pr : Proc) : Prop where
  free : m'.free = m.free
  cells : ∀ q, q ≠ pr.trapframe → m'.cells q = m.cells q

theorem TrapframeStored.table (h : TrapframeStored m m' pr) (hs : Shape k m pr) :
    SameTable m.cells m'.cells 2 pr.pagetable := by
  apply SameTable.of_cells
  intro q hq
  apply h.cells
  rintro rfl
  have hapart := hs.trapframe_apart
  rw [space, Pi.add_apply] at hapart
  omega

theorem TrapframeStored.moves (h : TrapframeStored m m' pr) (hs : Shape k m pr) :
    Moves m.toHeap m'.toHeap (pr.hold m.cells) (pr.hold m'.cells) := by
  rw [Proc.hold_congr (h.table hs)]
  refine Moves.store h.free ?_
  intro q hq
  apply h.cells
  rintro rfl
  rw [Proc.hold, Pi.add_apply, one_self] at hq
  omega

theorem TrapframeStored.shape (h : TrapframeStored m m' pr) (hs : Shape k m pr) :
    Shape k m' pr := by
  refine hs.same (h.table hs) ?_
  rw [← Proc.hold_congr (h.table hs)]
  exact hs.sound.moves (h.moves hs)

theorem TrapframeStored.image (h : TrapframeStored m m' pr) (hs : Shape k m pr) {va : Nat}
    (hva : va < pages pr.sz * PGSIZE) :
    image m'.cells pr.pagetable va = image m.cells pr.pagetable va := by
  apply image_congr ((h.table hs).entries _)
  apply h.cells
  intro he
  have hapart := hs.trapframe_apart
  have hpos := users_pos m.cells pr.pagetable (page_of_lt hva)
  rw [he] at hpos
  rw [space, Pi.add_apply] at hapart
  omega

theorem trapframeStored_setReg (m : Mem) (pr : Proc) (i v : Nat) :
    TrapframeStored m (m.setReg pr.trapframe i v) pr :=
  ⟨rfl, fun _ hq ↦ Ram.setPte_of_ne hq i v⟩

theorem TrapframeStored.trans {m₁ : Mem} (h : TrapframeStored m m₁ pr)
    (h' : TrapframeStored m₁ m' pr) : TrapframeStored m m' pr :=
  ⟨h'.free.trans h.free, fun q hq ↦ (h'.cells q hq).trans (h.cells q hq)⟩

/-- `uvmfirst` maps the first page of an address space. -/
theorem uvmfirst_spec {pt : Nat} {top : Nat → Nat} {src : List UInt8} (h : Layout m.cells pt 0 top)
    (hs : Sound k m (space m.cells pt 0)) (hsrc : src.length < PGSIZE) (hf : m.fails = [])
    (hn : 3 ≤ m.free.length) :
    Returns (uvmfirst m pt src) (fun m' ↦ Layout m'.cells pt 1 top ∧
      Moves m.toHeap m'.toHeap (space m.cells pt 0) (space m'.cells pt 1) ∧
      m.free.length ≤ m'.free.length + 3) := by
  obtain ⟨page, m₁, hk, hf₁, hn₁⟩ := kalloc_ok hf (by omega)
  have hnew := newPage_spec (m₁.fill page 0) h hs hk rfl
    (fun q hq ↦ Function.update_of_ne hq ..)
    (show PTE_W ||| PTE_R ||| PTE_X ||| PTE_U < 1024 by decide) (by decide)
  obtain ⟨⟨ok, m₂⟩, hmap, hr⟩ := hnew
  have hfill : (m₁.fill page 0).fails = [] := hf₁
  have hlen : (m₁.fill page 0).free.length = m₁.free.length := rfl
  obtain ⟨hok, -, hn₂⟩ := mappages_ok hfill (by omega) hmap
  dsimp only at hok hn₂
  rw [hok] at hr hmap
  obtain ⟨hgrown, hpage⟩ := hr
  rw [Nat.zero_mul] at hmap
  rw [uvmfirst, if_neg (by omega), hk]
  dsimp only
  rw [hmap]
  have hw := Resized.write hgrown.layout (hs.moves hgrown.moves) Nat.one_pos 0 src (fun _ ↦ 0)
  dsimp only at hpage hw
  rw [hpage] at hw
  refine Returns.pure ⟨hw.layout, hgrown.moves.trans hw.moves, ?_⟩
  show m.free.length ≤ m₂.free.length + 3
  omega

theorem Shape.of_cleared (h : Shape k m pr) (hsz : pr.sz = 0) :
    Layout m.cells pr.pagetable 0 (topEntries k pr.trapframe) ∧
      Sound k m (space m.cells pr.pagetable 0 + one pr.trapframe) := by
  have hl := h.layout
  have hs := h.sound
  rw [Proc.hold] at hs
  rw [hsz, pages_zero] at hl hs
  exact ⟨hl, hs⟩

/-- `allocproc` takes four pages at most. -/
theorem allocproc_ok {pid : Nat} {r : Bool × Proc × Mem} (hs : Sound k m 0) (hf : m.fails = [])
    (hn : 4 ≤ m.free.length) (h : allocproc k m pr pid = .ok r) :
    r.1 = true ∧ r.2.2.fails = [] ∧ m.free.length ≤ r.2.2.free.length + 4 := by
  obtain ⟨tf, m₁, hk, hf₁, hn₁⟩ := kalloc_ok hf (by omega)
  rw [allocproc, hk] at h
  dsimp only at h
  obtain ⟨⟨pt, m₂⟩, hpt, h⟩ := bind_ok h
  have hm₁ : Moves m.toHeap m₁.toHeap 0 (0 + one tf) := kalloc_moves hk rfl (fun _ _ ↦ rfl) 0
  obtain ⟨pt', hsome, hf₂, hn₂⟩ := procPagetable_ok (hs.moves hm₁).left hf₁ (by omega) hpt
  dsimp only at hsome hf₂ hn₂
  rw [hsome] at h
  cases h
  refine ⟨rfl, hf₂, ?_⟩
  dsimp only
  omega

theorem pages_one : pages PGSIZE = 1 := by decide

/-- The first process. -/
def Proc.first (pr : Proc) : Proc :=
  { pr with
    sz := PGSIZE, name := "initcode".toUTF8.toList, cwd := some rootSlot, state := .RUNNABLE }

/-- `userinit` makes a process of one page. -/
theorem userinit_spec {s : State} (hs : Sound k s.mem 0) (hslot : (s.procs initSlot).Cleared)
    (hf : s.mem.fails = []) (hn : 7 ≤ s.mem.free.length) :
    Returns (userinit k s) (fun s' ↦ ∃ tf pt m',
      let pr := ((s.procs initSlot).fresh s.nextpid tf pt).first
      s' = { s.setProc initSlot pr with
        mem := m', nextpid := s.nextpid + 1, inodes := s.inodes.iget rootSlot } ∧
      Shape k m' pr ∧ Moves s.mem.toHeap m'.toHeap 0 (pr.hold m'.cells) ∧
      s.mem.free.length ≤ m'.free.length + 7) := by
  obtain ⟨⟨ok, pr, m₁⟩, halloc, hr⟩ := allocproc_spec hs hslot
  obtain ⟨hok, hf₁, hn₁⟩ := allocproc_ok hs hf (by omega) halloc
  dsimp only at hok hf₁ hn₁
  subst hok
  obtain ⟨tf, pt, hpr, hshape, hm₁⟩ := hr
  dsimp only at hpr hshape hm₁
  rw [userinit, halloc]
  have hsz : pr.sz = 0 := by
    rw [hpr]
    exact hslot.sz
  obtain ⟨hl, hs₁⟩ := hshape.of_cleared hsz
  apply (uvmfirst_spec hl hs₁.left (by decide) hf₁ (by omega)).bind
  rintro m₂ ⟨hl₂, hm₂, hn₂⟩
  have hm₂ : Moves m₁.toHeap m₂.toHeap (pr.hold m₁.cells) (pr.first.hold m₂.cells) := by
    have hone : pages pr.first.sz = 1 := pages_one
    rw [Proc.hold, Proc.hold, hone, hsz, pages_zero]
    exact hm₂.add (one pr.trapframe)
  have hm₂ := hm₁.trans hm₂
  have hshape₂ : Shape k m₂ pr.first := by
    refine ⟨?_, hs.moves hm₂⟩
    have hone : pages pr.first.sz = 1 := pages_one
    rw [hone]
    exact hl₂
  have hregs :
      TrapframeStored m₂ ((m₂.setReg pr.trapframe regEpc 0).setReg pr.trapframe regSp PGSIZE)
      pr.first :=
    (trapframeStored_setReg m₂ pr.first regEpc 0).trans
      (trapframeStored_setReg (m₂.setReg pr.trapframe regEpc 0) pr.first regSp PGSIZE)
  refine Returns.pure
    ⟨tf, pt, (m₂.setReg pr.trapframe regEpc 0).setReg pr.trapframe regSp PGSIZE, ?_⟩
  rw [← hpr]
  refine ⟨rfl, hregs.shape hshape₂, hm₂.trans (hregs.moves hshape₂), ?_⟩
  show s.mem.free.length ≤ m₂.free.length + 7
  omega

/-! ### `growproc` -/

theorem Shape.size_lt (h : Shape k m pr) : pr.sz < 2 ^ 38 := by
  have hle := pages_le.mp h.layout.size
  have hT := TOP_mul
  omega

theorem addInt_of_nonneg {sz : Nat} {n : Int} (hsz : sz < 2 ^ 38) (hn : n < 2 ^ 31)
    (h : 0 ≤ (sz : Int) + n) : (addInt sz n : Int) = sz + n := by
  rw [addInt]
  omega

theorem addInt_of_neg {sz : Nat} {n : Int} (hsz : sz < 2 ^ 38) (hn : -2 ^ 31 ≤ n)
    (h : (sz : Int) + n < 0) : sz ≤ addInt sz n := by
  rw [addInt]
  omega

/-- The new size of a process: `growproc` does nothing when more is to go than there is. -/
def grownSize (sz : Nat) (n : Int) : Int := if 0 ≤ (sz : Int) + n then sz + n else sz

/-- `growproc` of any `int`: the address space has the new size, or is as before. -/
theorem growproc_spec {n : Int} (h : Shape k m pr) (hlo : -2 ^ 31 ≤ n) (hhi : n < 2 ^ 31) :
    Returns (growproc k m pr n) (fun r ↦
      (∀ sz, r.1 = some sz → (sz : Int) = grownSize pr.sz n) ∧
      Grown m r.2 pr.pagetable (pages pr.sz) (pages (r.1.getD pr.sz)) (topEntries k pr.trapframe)
        (fun _ ↦ userFlags PTE_W) 0) := by
  have hsz := h.size_lt
  rw [growproc]
  split
  · next hpos =>
    have hsum : 0 ≤ (pr.sz : Int) + n := by omega
    have hadd := addInt_of_nonneg hsz hhi hsum
    apply (uvmalloc_spec h.layout h.sound.left (by decide)).bind
    rintro ⟨sz, m'⟩ hr
    apply Returns.pure
    dsimp only at hr ⊢
    by_cases hzero : sz = 0
    · rw [if_pos hzero] at hr
      rw [if_pos hzero]
      exact ⟨(fun _ h ↦ nomatch h), hr⟩
    · rw [if_neg hzero] at hr
      rw [if_neg hzero]
      refine ⟨?_, hr.2⟩
      intro sz' hsz'
      have heq := Option.some.inj hsz'
      rw [grownSize, if_pos hsum, ← heq, hr.1]
      omega
  · next hnpos =>
    split
    · next hneg =>
      apply (uvmdealloc_spec h.layout h.sound.left (fun _ ↦ userFlags PTE_W) 0).bind
      rintro ⟨sz, m'⟩ hr
      apply Returns.pure
      dsimp only at hr ⊢
      refine ⟨?_, hr.2⟩
      intro sz' hsz'
      have heq := Option.some.inj hsz'
      rw [grownSize, ← heq, hr.1]
      split
      · next hsum =>
        have hadd := addInt_of_nonneg hsz hhi hsum
        omega
      · next hsum =>
        have hadd := addInt_of_neg hsz hlo (by omega)
        omega
    · apply Returns.ok
      refine ⟨?_, Grown.refl h.layout _ _⟩
      intro sz hz
      have heq := Option.some.inj hz
      have hn : n = 0 := by omega
      rw [grownSize, hn, if_pos (by omega), ← heq]
      omega

/-- `growproc` changes the size by exactly `n`: it returns 0 with that size, the pages of it mapped,
the bytes of both sizes kept, and new pages all zero, readable and writable; or it returns -1
with the mappings and bytes there were. -/
def SbrkExact (k : Kernel) (m : Mem) (pr : Proc) (n : Int) : Prop :=
  Returns (growproc k m pr n) (fun r ↦
    match r.1 with
    | some sz => (sz : Int) = pr.sz + n ∧
        Layout r.2.cells pr.pagetable (pages sz) (topEntries k pr.trapframe) ∧
        (∀ va < min pr.sz sz, image r.2.cells pr.pagetable va = image m.cells pr.pagetable va) ∧
        (∀ va, pages pr.sz * PGSIZE ≤ va → va < pages sz * PGSIZE →
          image r.2.cells pr.pagetable va = 0) ∧
        ∀ v, pages pr.sz ≤ v → v < pages sz →
          PTE_FLAGS (entry r.2.cells 2 pr.pagetable v) = PTE_R ||| PTE_U ||| PTE_W ||| PTE_V
    | none => Layout r.2.cells pr.pagetable (pages pr.sz) (topEntries k pr.trapframe) ∧
        (∀ v < pages pr.sz, entry r.2.cells 2 pr.pagetable v = entry m.cells 2 pr.pagetable v) ∧
        ∀ va < pages pr.sz * PGSIZE, image r.2.cells pr.pagetable va =
        image m.cells pr.pagetable va)

/-- When more bytes are to go than there are, `growproc` returns 0 and the size stays. -/
theorem not_sbrkExact {n : Int} (h : Shape k m pr) (hlo : -2 ^ 31 ≤ n)
    (hneg : (pr.sz : Int) + n < 0) : ¬ SbrkExact k m pr n := by
  intro hexact
  have hn0 : ¬ 0 < n := by omega
  have hn1 : n < 0 := by omega
  obtain ⟨⟨r, m'⟩, heq, hr⟩ := hexact
  obtain ⟨hsize, -⟩ := (growproc_spec h hlo (by omega)).elim heq
  rw [growproc, if_neg hn0, if_pos hn1] at heq
  obtain ⟨⟨sz, m₁⟩, -, heq⟩ := bind_ok heq
  cases heq
  have hsz := hsize sz rfl
  rw [grownSize, if_neg (by omega)] at hsz
  have : (sz : Int) = pr.sz + n := hr.1
  omega

/-- `growproc` is exact, or without effect, unless more bytes are to go than there are. -/
theorem sbrk_exact_iff (h : Shape k m pr) (n : Int) (hlo : -2 ^ 31 ≤ n) (hhi : n < 2 ^ 31) :
    SbrkExact k m pr n ↔ 0 ≤ (pr.sz : Int) + n := by
  constructor
  · intro hexact
    by_contra hneg
    exact not_sbrkExact h hlo (by omega) hexact
  · intro hsum
    apply (growproc_spec h hlo hhi).mono
    rintro ⟨r, m'⟩ ⟨hsize, hgrown⟩
    cases r with
    | none => exact ⟨hgrown.layout, fun v hv ↦ hgrown.kept v hv hv,
        fun va hva ↦ hgrown.same va hva hva⟩
    | some sz =>
      have hsz := hsize sz rfl
      rw [grownSize, if_pos hsum] at hsz
      refine ⟨hsz, hgrown.layout, ?_, hgrown.filled, hgrown.added⟩
      intro va hva
      have hold := pages_le.mp (Nat.le_refl (pages pr.sz))
      have hnew := pages_le.mp (Nat.le_refl (pages sz))
      exact hgrown.same va (by omega) (show va < pages sz * PGSIZE by omega)

end

/-! ### The first process -/

theorem kinit_usable {k : Kernel} {q : Nat} (h : q ∈ kinit k) : k.Usable q := by
  rw [kinit, List.mem_reverse, List.mem_range'_1, Kernel.first, PGROUNDUP] at h
  have h1 := k.below
  have h2 := k.above
  unfold Kernel.Usable
  unfold PHYSTOP KERNBASE PGSIZE at *
  omega

theorem kinit_nodup (k : Kernel) : (kinit k).Nodup :=
  List.nodup_reverse.mpr List.nodup_range'

/-- What is left on the free list before `userinit`. -/
theorem beforeUserinit_sound (k : Kernel) (n : Nat) : Sound k (beforeUserinit k n).mem 0 := by
  refine ⟨?_, ?_⟩
  · intro q
    exact List.nodup_iff_count_le_one.mp ((kinit_nodup k).sublist (List.drop_sublist n _)) q
  · intro q hq
    exact kinit_usable (List.mem_of_mem_drop (List.count_pos_iff.mp hq))

theorem beforeUserinit_length (k : Kernel) (n : Nat) :
    (beforeUserinit k n).mem.free.length = PHYSTOP / PGSIZE - k.first - n := by
  rw [beforeUserinit, List.length_drop, kinit, List.length_reverse, List.length_range']

/-- There is one process, without open files, and there are free pages. -/
structure FirstOnly (s : State) : Prop where
  free : 100 ≤ s.mem.free.length
  state : (s.procs initSlot).state = .RUNNABLE
  ofile : (s.procs initSlot).ofile = fun _ ↦ none
  cwd : (s.procs initSlot).cwd = some rootSlot
  slots : ∀ q, (s.procs q).state = .UNUSED → (s.procs q).Cleared
  others : ∀ q, q ≠ initSlot → (s.procs q).state = .UNUSED

/-- The built kernel has a first process. -/
theorem builtKernel_userinit : ∃ s, userinit builtKernel (beforeUserinit builtKernel 0) = .ok s ∧
    Shape builtKernel s.mem (s.procs initSlot) ∧ (s.procs initSlot).sz = PGSIZE ∧ FirstOnly s := by
  have hlen : 109 ≤ (beforeUserinit builtKernel 0).mem.free.length := by
    rw [beforeUserinit_length]
    decide +kernel
  obtain ⟨s, hs, tf, pt, m', rfl, hshape, -, hfree⟩ :=
    userinit_spec (beforeUserinit_sound builtKernel 0) ⟨rfl, rfl, fun _ ↦ rfl⟩ rfl (by omega)
  have hproc :
      ∀ pr, Function.update (beforeUserinit builtKernel 0).procs initSlot pr initSlot = pr :=
    fun pr ↦ Function.update_self ..
  refine ⟨_, hs, ?_, ?_, ⟨?_, ?_, ?_, ?_, ?_, ?_⟩⟩ <;> dsimp only [State.setProc]
  · rw [hproc]
    exact hshape
  · rw [hproc]
    rfl
  · omega
  · rw [hproc]
    rfl
  · rw [hproc]
    rfl
  · rw [hproc]
    rfl
  · intro q hq
    by_cases hinit : q = initSlot
    · rw [hinit, hproc] at hq
      cases hq
    · rw [Function.update_of_ne hinit]
      exact ⟨rfl, rfl, fun _ ↦ rfl⟩
  · intro q hq
    rw [Function.update_of_ne hq]
    rfl

/-- The first process gives back half of its page. -/
theorem sbrk_exact_iff_first : ∃ s, userinit builtKernel (beforeUserinit builtKernel 0) = .ok s ∧
    Shape builtKernel s.mem (s.procs initSlot) ∧
    SbrkExact builtKernel s.mem (s.procs initSlot) (-2048) := by
  obtain ⟨s, hs, hshape, hsz, -⟩ := builtKernel_userinit
  refine ⟨s, hs, hshape, (sbrk_exact_iff hshape (-2048) (by decide) (by decide)).mpr ?_⟩
  rw [hsz]
  decide

/-- The first process, of one page, gives back two: `growproc` returns 0 and changes nothing. -/
theorem sbrk_two_pages : ∃ s, userinit builtKernel (beforeUserinit builtKernel 0) = .ok s ∧
    Shape builtKernel s.mem (s.procs initSlot) ∧ (s.procs initSlot).sz = PGSIZE ∧
    ¬ SbrkExact builtKernel s.mem (s.procs initSlot) (-8192) := by
  obtain ⟨s, hs, hshape, hsz, -⟩ := builtKernel_userinit
  refine ⟨s, hs, hshape, hsz, not_sbrkExact hshape (by decide) ?_⟩
  rw [hsz]
  decide

end Xv6.Vm
