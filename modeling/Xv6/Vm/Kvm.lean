import Xv6.Vm.Process

/-!
# The kernel's page table

`kvmmake` of `kernel/vm.c` with `proc_mapstacks` of `kernel/proc.c`: the direct mapping of the
devices, the kernel and the memory after it, the trampoline, and a stack for each process. The
address of `etext` comes from the linker.
-/

namespace Xv6.Vm

open Xv6.Lib

/-- `kernel/memlayout.h:21`. -/
def UART0 : Nat := 0x10000000

/-- `kernel/memlayout.h:25`. -/
def VIRTIO0 : Nat := 0x10001000

/-- `kernel/memlayout.h:38`. -/
def PLIC : Nat := 0x0c000000

/-- `kernel/memlayout.h:60`. -/
def KSTACK (p : Nat) : Nat := TRAMPOLINE - p * 2 * PGSIZE - 3 * PGSIZE

/-- `kvmmap`; `kernel/vm.c:132–136`. -/
def kvmmap (m : Mem) (kpgtbl va page sz perm : Nat) : Except String Mem := do
  let (ok, m) ← mappages m kpgtbl va sz page perm
  if ok then return m else throw "kvmmap"

/-- The loop of `proc_mapstacks` from slot `i` on; `kernel/proc.c:38–44`. -/
def mapstacksLoop (kpgtbl : Nat) : Nat → Nat → Mem → Except String Mem
  | 0, _, m => .ok m
  | n + 1, i, m =>
    match kalloc m with
    | (none, _) => .error "kalloc"
    | (some pa, m) => do
      let m ← kvmmap m kpgtbl (KSTACK i) pa PGSIZE (PTE_R ||| PTE_W)
      mapstacksLoop kpgtbl n (i + 1) m

/-- `proc_mapstacks`; `kernel/proc.c:33–45`. -/
def procMapstacks (kpgtbl : Nat) (m : Mem) : Except String Mem := mapstacksLoop kpgtbl NPROC 0 m

/-- `kvmmake`; `kernel/vm.c:19–50`. A store through the null pointer is a kernel trap. -/
def kvmmake (k : Kernel) (etext : Nat) (m : Mem) : Except String (Nat × Mem) :=
  match kalloc m with
  | (none, _) => .error "kerneltrap"
  | (some kpgtbl, m) => do
    let m ← kvmmap (m.fill kpgtbl 0) kpgtbl UART0 (UART0 / PGSIZE) PGSIZE (PTE_R ||| PTE_W)
    let m ← kvmmap m kpgtbl VIRTIO0 (VIRTIO0 / PGSIZE) PGSIZE (PTE_R ||| PTE_W)
    let m ← kvmmap m kpgtbl PLIC (PLIC / PGSIZE) 0x400000 (PTE_R ||| PTE_W)
    let m ← kvmmap m kpgtbl KERNBASE (KERNBASE / PGSIZE) (etext - KERNBASE) (PTE_R ||| PTE_X)
    let m ← kvmmap m kpgtbl etext (etext / PGSIZE) (PHYSTOP - etext) (PTE_R ||| PTE_W)
    let m ← kvmmap m kpgtbl TRAMPOLINE k.trampoline PGSIZE (PTE_R ||| PTE_X)
    let m ← procMapstacks kpgtbl m
    return (kpgtbl, m)

/-! ### Pages for the table -/

section
variable {k : Kernel} {m m' : Mem} {pt : Nat}

/-- Virtual pages whose entries are in the same page of the table. -/
theorem slot_near {c : Ram} {u v : Nat} (h : v / 512 = u / 512)
    (hv : ∃ loc, slot c 2 pt v = some loc) : ∃ loc, slot c 2 pt u = some loc := by
  have h1 : digit 1 u = digit 1 v := by
    simp only [digit]
    omega
  have h2 : digit 2 u = digit 2 v := by
    simp only [digit]
    omega
  obtain ⟨loc, hloc⟩ := hv
  rw [slot, slot] at hloc ⊢
  rw [h2, h1]
  split at hloc
  · next hv2 =>
    rw [if_pos hv2]
    split at hloc
    · next hv1 =>
      rw [if_pos hv1]
      exact ⟨_, rfl⟩
    · cases hloc
  · cases hloc

/-- A walk takes `c` pages at most: none if the entry is there. -/
theorem walkLoop_cost {c v : Nat} (hc : (∃ loc, slot m.cells 2 pt v = some loc) ∨ 2 ≤ c)
    (hf : m.fails = []) (hn : c ≤ m.free.length) :
    ∃ loc m', walkLoop m (v * PGSIZE) true 2 pt = (some loc, m') ∧ m'.fails = [] ∧
      m.free.length ≤ m'.free.length + c := by
  have hv : v * PGSIZE / PGSIZE = v := Nat.mul_div_cancel v (by decide)
  rcases hc with ⟨loc, hloc⟩ | hc
  · rw [← hv] at hloc
    exact ⟨loc, m, walkLoop_present hloc, hf, by omega⟩
  · obtain ⟨loc, m', hw, hf', hn'⟩ := walkLoop_ok hf (hc.trans hn) (v * PGSIZE) pt
    exact ⟨loc, m', hw, hf', by omega⟩

/-- The loop of `mappages` from page `v` to page `v + n` takes two pages at most for each page of
the table's last level, and `c` for the first. -/
theorem mappagesLoop_cost {perm : Nat} (hperm : perm < 1024) {n fuel v page c : Nat}
    (hv : v + n < NPAGES) (hpage : page + n < 2 ^ 52) (ht : Table m.cells 2 pt)
    (hs : Sound k m (tables m.cells 2 pt))
    (hc : (∃ loc, slot m.cells 2 pt v = some loc) ∨ 2 ≤ c) (hf : m.fails = [])
    (hn : c + 2 * ((v + n) / 512 - v / 512) ≤ m.free.length) {r : Bool × Mem}
    (h : mappagesLoop pt ((v + n) * PGSIZE) perm fuel m (v * PGSIZE) page = .ok r) :
    r.1 = true ∧ r.2.fails = [] ∧
      m.free.length ≤ r.2.free.length + (c + 2 * ((v + n) / 512 - v / 512)) := by
  induction n generalizing m fuel v page c with
  | zero =>
    cases fuel with
    | zero => cases h
    | succ fuel =>
      obtain ⟨loc, m', hw, hf', hn'⟩ := walkLoop_cost hc hf (by omega)
      rw [mappagesLoop_succ, walk, if_neg (page_lt_iff.mpr (by omega)), hw] at h
      simp only [bind, Except.bind, Nat.add_zero, if_true] at h
      split at h
      · cases h
      · cases Except.ok.inj h
        refine ⟨rfl, hf', ?_⟩
        change m.free.length ≤ m'.free.length + _
        omega
  | succ n ih =>
    cases fuel with
    | zero => cases h
    | succ fuel =>
      obtain ⟨loc, m', hw, hf', hn'⟩ := walkLoop_cost hc hf (by omega)
      have hwalked : Walked m 2 pt v (some loc, m') := by
        have hspec := walkLoop_spec (v * PGSIZE) true ht hs
        rw [page_div, hw] at hspec
        exact hspec
      have hst : Mapped m (m'.setPte loc.1 loc.2 (mkPte page (perm ||| PTE_V))) pt v 1 page
          (perm ||| PTE_V) :=
        hwalked.store hs (by omega) rfl page (or_valid_lt hperm) (by omega)
      have hfree : (m'.setPte loc.1 loc.2 (mkPte page (perm ||| PTE_V))).free = m'.free := rfl
      have hfails : (m'.setPte loc.1 loc.2 (mkPte page (perm ||| PTE_V))).fails = [] := hf'
      have hpte : PA2PTE page ||| perm ||| PTE_V = mkPte page (perm ||| PTE_V) := by
        rw [Nat.or_assoc, PA2PTE_or (or_valid_lt hperm)]
      have hlast : ¬ v * PGSIZE = (v + (n + 1)) * PGSIZE := by
        unfold PGSIZE
        omega
      have hnext : v * PGSIZE + PGSIZE = (v + 1) * PGSIZE := by
        unfold PGSIZE
        omega
      have hend : v + (n + 1) = v + 1 + n := by omega
      rw [mappagesLoop_succ, walk, if_neg (page_lt_iff.mpr (by omega)), hw] at h
      simp only [bind, Except.bind, hlast, if_false] at h
      split at h
      · cases h
      · rw [hpte, hnext, hend] at h
        generalize m'.setPte loc.1 loc.2 (mkPte page (perm ||| PTE_V)) = w at h hst hfree hfails
        -- the entry of page `v` is there now, and with it its page of the table
        have hvalid : Valid (entry w.cells 2 pt v) := by
          rw [hst.entries v (by omega), if_pos (by omega), Nat.sub_self, Nat.add_zero, Valid,
            mkPte_and (or_valid_lt hperm) (by decide)]
          exact or_valid_and perm
        have hc' : (∃ loc', slot w.cells 2 pt (v + 1) = some loc') ∨
            2 ≤ 2 * ((v + 1) / 512 - v / 512) := by
          by_cases hnear : v / 512 = (v + 1) / 512
          · exact .inl (slot_near hnear (slot_of_valid hvalid))
          · exact .inr (by omega)
        have hroom : 2 * ((v + 1) / 512 - v / 512) + 2 * ((v + 1 + n) / 512 - (v + 1) / 512) ≤
            w.free.length := by
          rw [hfree]
          omega
        obtain ⟨hok, hfails', hlen⟩ := ih (by omega) (by omega) hst.table (hs.moves hst.moves) hc'
          hfails hroom h
        rw [hfree] at hlen
        exact ⟨hok, hfails', by omega⟩

/-- `mappages` from page `v` to page `v + n` succeeds. -/
theorem mappages_cost {perm : Nat} (hperm : perm < 1024) {va size n v page : Nat}
    (hva : va / PGSIZE = v) (hlast : (va + size - 1) / PGSIZE = v + n) (hsize : 0 < size)
    (hv : v + n < NPAGES) (hpage : page + n < 2 ^ 52) (ht : Table m.cells 2 pt)
    (hs : Sound k m (tables m.cells 2 pt)) (hf : m.fails = [])
    (hn : 2 + 2 * ((v + n) / 512 - v / 512) ≤ m.free.length) {r : Bool × Mem}
    (h : mappages m pt va size page perm = .ok r) :
    r.1 = true ∧ r.2.fails = [] ∧
      m.free.length ≤ r.2.free.length + (2 + 2 * ((v + n) / 512 - v / 512)) := by
  have hN : NPAGES = 2 ^ 26 := rfl
  have hmod : (va + size - 1) % 2 ^ 64 = va + size - 1 := by
    apply Nat.mod_eq_of_lt
    unfold PGSIZE at hlast
    omega
  rw [mappages, if_neg (by omega)] at h
  simp only at h
  rw [hmod, PGROUNDDOWN, PGROUNDDOWN, hva, hlast] at h
  exact mappagesLoop_cost hperm hv hpage ht hs (.inr (Nat.le_refl 2)) hf hn h

/-! ### The map -/

variable {data : List Nat} {A : PageMap}

/-- A page table with the map `A`, whose owner took the pages `data` besides; no allocation
fails while pages are free. -/
structure KernelTable (k : Kernel) (pt : Nat) (data : List Nat) (m : Mem) (A : PageMap) :
    Prop where
  ok : ClientOk k ⟨m, pt, data, true⟩
  fails : m.fails = []
  view : lookup m pt = A

theorem MapStep.map_inv {x y : PageMap × Bool} {va size page perm : Nat} {fails : List Bool}
    (h : MapStep x (.mappages va size page perm fails) y) :
    ∃ j, (y.2 = true ↔ j = (va + size - 1) / PGSIZE - va / PGSIZE + 1) ∧
      y.1 = x.1.mapRange (va / PGSIZE) j page (perm ||| PTE_V) := by
  cases h with
  | map _ hok => exact ⟨_, hok, rfl⟩

theorem MapStep.alloc_inv {x y : PageMap × Bool} {fails : List Bool}
    (h : MapStep x (.alloc fails) y) : y.1 = x.1 := by
  cases h with
  | alloc => rfl

/-- `kvmmap` of `n + 1` pages from page `v` on. -/
theorem kvmmap_spec (h : KernelTable k pt data m A) (perm : Nat) (hperm : perm < 1024)
    {va size n v page : Nat} (hva : va = v * PGSIZE) (hsize : size = (n + 1) * PGSIZE)
    (hv : v + n < NPAGES) (hpage : page < 2 ^ 44) (hnone : ∀ u, v ≤ u → u ≤ v + n → A u = none)
    (hn : 2 + 2 * ((v + n) / 512 - v / 512) ≤ m.free.length) :
    Returns (kvmmap m pt va page size perm) (fun m' ↦
      KernelTable k pt data m' (A.mapRange v (n + 1) page (perm ||| PTE_V)) ∧
        m.free.length ≤ m'.free.length + (2 + 2 * ((v + n) / 512 - v / 512))) := by
  have hN : NPAGES = 2 ^ 26 := rfl
  have hmax : va + size ≤ MAXVA := by
    have := NPAGES_mul
    unfold PGSIZE at *
    omega
  have hpos : 0 < size := by
    unfold PGSIZE at hsize
    omega
  have hlast : (va + size - 1) / PGSIZE = v + n := by
    unfold PGSIZE at *
    omega
  have hva : va / PGSIZE = v := by
    rw [hva]
    exact page_div v
  have hfailing : Client.failing ⟨m, pt, data, true⟩ [] = m := by
    rw [Client.failing, ← h.fails]
  have hcall : OpOk ⟨m, pt, data, true⟩ (.mappages va size page perm []) := by
    refine ⟨hpos, hmax, hpage, hperm, ?_⟩
    intro u hu
    have := List.mem_range'_1.mp hu
    change lookup m pt u = none
    rw [h.view]
    exact hnone u (by omega) (by omega)
  obtain ⟨s, hs, hok, hmap⟩ := opStep_mappages h.ok hcall
  rw [opStep, hfailing] at hs
  dsimp only at hs
  split at hs
  · next ok m' hm =>
    cases hs
    obtain ⟨rfl, hfails, hlen⟩ := mappages_cost hperm hva hlast hpos hv (by omega) h.ok.table
      h.ok.sound.left h.fails hn hm
    refine ⟨m', ?_, ⟨hok, hfails, ?_⟩, hlen⟩
    · rw [kvmmap, hm]
      rfl
    · obtain ⟨j, hj, hview⟩ := hmap.map_inv
      have hall : j = n + 1 := by
        have := hj.mp rfl
        omega
      rw [hva, hall] at hview
      exact hview.trans (congrArg (fun B ↦ B.mapRange v (n + 1) page (perm ||| PTE_V)) h.view)
  · cases hs

/-- A page for a stack. -/
theorem KernelTable.alloc (h : KernelTable k pt data m A) (hn : 0 < m.free.length) :
    ∃ page m', kalloc m = (some page, m') ∧ KernelTable k pt (page :: data) m' A ∧
      m'.free.length + 1 = m.free.length ∧ k.Usable page := by
  obtain ⟨page, m', hk, hfails, hlen⟩ := kalloc_ok h.fails hn
  have hfailing : Client.failing ⟨m, pt, data, true⟩ [] = m := by
    rw [Client.failing, ← h.fails]
  obtain ⟨s, hs, hok, hmap⟩ := opStep_alloc h.ok []
  rw [opStep, hfailing, hk] at hs
  cases hs
  exact ⟨page, m', hk, ⟨hok, hfails, hmap.alloc_inv.trans h.view⟩, hlen,
    (kalloc_fresh hk h.ok.sound).2⟩

/-! ### Stacks -/

/-- The virtual page of a stack. -/
def stackPage (p : Nat) : Nat := NPAGES - 4 - 2 * p

theorem stackPage_add {p : Nat} (h : p < NPROC) : stackPage p + 2 * p + 4 = 2 ^ 26 := by
  have hN : NPAGES = 2 ^ 26 := rfl
  unfold stackPage
  unfold NPROC at h
  omega

theorem kstack_eq {p : Nat} (h : p < NPROC) : KSTACK p = stackPage p * PGSIZE := by
  have hpage := stackPage_add h
  unfold KSTACK TRAMPOLINE MAXVA PGSIZE
  unfold NPROC at h
  omega

/-- The map with stacks for the slots from `i` on. -/
def PageMap.withStacks (A : PageMap) : List Nat → Nat → PageMap
  | [], _ => A
  | pa :: pas, i =>
    (A.mapRange (stackPage i) 1 pa (PTE_R ||| PTE_W ||| PTE_V)).withStacks pas (i + 1)

/-- Other pages are mapped as before. -/
theorem PageMap.withStacks_other (A : PageMap) {pas : List Nat} {i u : Nat}
    (h : ∀ p, i ≤ p → p < i + pas.length → u ≠ stackPage p) : A.withStacks pas i u = A u := by
  induction pas generalizing A i with
  | nil => rfl
  | cons pa pas ih =>
    have hhere := h i (Nat.le_refl i) (by simp)
    have hrest (p : Nat) (hp : i + 1 ≤ p) (hlt : p < i + 1 + pas.length) : u ≠ stackPage p := by
      apply h p (by omega)
      rw [List.length_cons]
      omega
    rw [PageMap.withStacks, ih _ hrest, PageMap.mapRange, if_neg (by omega)]

/-- The stack of a slot. -/
theorem PageMap.withStacks_self (A : PageMap) {pas : List Nat} {i j : Nat} (hj : j < pas.length)
    (hi : i + pas.length ≤ NPROC) :
    A.withStacks pas i (stackPage (i + j)) = some (pas.get ⟨j, hj⟩, PTE_R ||| PTE_W ||| PTE_V) := by
  induction pas generalizing A i j with
  | nil => cases hj
  | cons pa pas ih =>
    simp only [List.length_cons] at hi hj
    rw [PageMap.withStacks]
    cases j with
    | zero =>
      have hzero : i + 0 = i := rfl
      rw [hzero, PageMap.withStacks_other, PageMap.mapRange, if_pos (by omega), Nat.sub_self]
      · rfl
      · intro p hp hlt
        have hhere := stackPage_add (p := i) (by omega)
        have hthere := stackPage_add (p := p) (by omega)
        omega
    | succ j =>
      have hnext : i + (j + 1) = i + 1 + j := by omega
      rw [hnext, ih _ (by omega) (by omega)]
      rfl

/-- The loop of `proc_mapstacks` for `n` slots from `i` on. -/
theorem mapstacksLoop_spec {n i : Nat} (h : KernelTable k pt data m A) (hi : i + n ≤ NPROC)
    (hnone : ∀ p, i ≤ p → p < i + n → A (stackPage p) = none) (hn : 3 * n ≤ m.free.length) :
    Returns (mapstacksLoop pt n i m) (fun m' ↦ ∃ pas, pas.length = n ∧
      KernelTable k pt (pas.reverse ++ data) m' (A.withStacks pas i)) := by
  induction n generalizing i m data A with
  | zero => exact .ok ⟨[], rfl, h⟩
  | succ n ih =>
    obtain ⟨page, m₁, hk, h₁, hlen, husable⟩ := h.alloc (by omega)
    have hpage := stackPage_add (p := i) (by omega)
    have hN : NPAGES = 2 ^ 26 := rfl
    have hlt : page < 2 ^ 44 := Nat.lt_trans husable.lt (by decide)
    have hfree (u : Nat) (hlo : stackPage i ≤ u) (hhi : u ≤ stackPage i + 0) : A u = none := by
      have heq : u = stackPage i := by omega
      rw [heq]
      exact hnone i (Nat.le_refl i) (by omega)
    have hmap := kvmmap_spec h₁ (PTE_R ||| PTE_W) (by decide) (n := 0)
      (kstack_eq (p := i) (by omega)) (Nat.one_mul PGSIZE).symm (by omega) hlt hfree (by omega)
    rw [mapstacksLoop, hk]
    apply hmap.bind
    rintro m₂ ⟨h₂, hlen₂⟩
    refine (ih h₂ (by omega) ?_ (by omega)).mono ?_
    · intro p hp hlt'
      have hhere := stackPage_add (p := i) (by omega)
      have hthere := stackPage_add (p := p) (by omega)
      rw [PageMap.mapRange, if_neg (by omega)]
      exact hnone p (by omega) (by omega)
    · rintro m₃ ⟨pas, hpas, h₃⟩
      refine ⟨page :: pas, congrArg (· + 1) hpas, ?_⟩
      rw [List.reverse_cons, List.append_assoc]
      exact h₃

/-! ### The address space of the kernel -/

/-- The map before `proc_mapstacks`. -/
def directMap (k : Kernel) (text data : Nat) : PageMap :=
  let rw := PTE_R ||| PTE_W ||| PTE_V
  let rx := PTE_R ||| PTE_X ||| PTE_V
  let A : PageMap := fun _ ↦ none
  let A := A.mapRange (UART0 / PGSIZE) 1 (UART0 / PGSIZE) rw
  let A := A.mapRange (VIRTIO0 / PGSIZE) 1 (VIRTIO0 / PGSIZE) rw
  let A := A.mapRange (PLIC / PGSIZE) 1024 (PLIC / PGSIZE) rw
  let A := A.mapRange (KERNBASE / PGSIZE) text (KERNBASE / PGSIZE) rx
  let A := A.mapRange (KERNBASE / PGSIZE + text) data (KERNBASE / PGSIZE + text) rw
  A.mapRange (NPAGES - 1) 1 k.trampoline rx

/-- The virtual pages of the devices, and of the kernel and the memory after it up to `stop`. -/
def Direct (stop v : Nat) : Prop :=
  v = UART0 / PGSIZE ∨ v = VIRTIO0 / PGSIZE ∨ PLIC / PGSIZE ≤ v ∧ v < PLIC / PGSIZE + 1024 ∨
    KERNBASE / PGSIZE ≤ v ∧ v < stop

/-- The address space of the kernel, with the physical pages of the stacks. -/
structure KernelSpace (k : Kernel) (etext : Nat) (m : Mem) (pt : Nat) (stack : Slot → Nat) :
    Prop where
  devices : ∀ v, v = UART0 / PGSIZE ∨ v = VIRTIO0 / PGSIZE ∨
    PLIC / PGSIZE ≤ v ∧ v < PLIC / PGSIZE + 1024 →
    lookup m pt v = some (v, PTE_R ||| PTE_W ||| PTE_V)
  text : ∀ v, KERNBASE / PGSIZE ≤ v → v < etext / PGSIZE →
    lookup m pt v = some (v, PTE_R ||| PTE_X ||| PTE_V)
  data : ∀ v, etext / PGSIZE ≤ v → v < PHYSTOP / PGSIZE →
    lookup m pt v = some (v, PTE_R ||| PTE_W ||| PTE_V)
  trampoline : lookup m pt (TRAMPOLINE / PGSIZE) = some (k.trampoline, PTE_R ||| PTE_X ||| PTE_V)
  kstack : ∀ p : Slot,
    lookup m pt (KSTACK p / PGSIZE) = some (stack p, PTE_R ||| PTE_W ||| PTE_V)
  guards : ∀ p : Slot, lookup m pt (KSTACK p / PGSIZE - 1) = none ∧
    lookup m pt (KSTACK p / PGSIZE + 1) = none
  nothingElse : ∀ v q, lookup m pt v = some q → Direct (PHYSTOP / PGSIZE) v ∧ q.1 = v ∨
    v = TRAMPOLINE / PGSIZE ∨ ∃ p : Slot, v = KSTACK p / PGSIZE
  permissions : ∀ v q, lookup m pt v = some q →
    (q.2 &&& PTE_W = 0 ∨ q.2 &&& PTE_X = 0) ∧ q.2 &&& PTE_U = 0
  distinct : Function.Injective stack
  owned : ∀ p, k.Usable (stack p) ∧ stack p ∉ m.free ∧ tables m.cells 2 pt (stack p) = 0

theorem mapRange_none {A : PageMap} {v j page flags u : Nat} (h : A u = none)
    (hu : u < v ∨ v + j ≤ u) : A.mapRange v j page flags u = none := by
  rw [PageMap.mapRange, if_neg (by omega)]
  exact h

theorem device_pages : KERNBASE / PGSIZE = 524288 ∧ UART0 / PGSIZE = 65536 ∧
    VIRTIO0 / PGSIZE = 65537 ∧ PLIC / PGSIZE = 49152 := by decide

/-- What `kvmmake` returns, when enough pages are free. -/
theorem kvmmake_spec (hs : Sound k m 0) {etext t d : Nat}
    (htext : etext = (KERNBASE / PGSIZE + (t + 1)) * PGSIZE)
    (hdata : PHYSTOP = etext + (d + 1) * PGSIZE) (hf : m.fails = []) (hn : 333 ≤ m.free.length) :
    Returns (kvmmake k etext m) (fun r ↦ ∃ pas, pas.length = NPROC ∧
      KernelTable k r.1 (pas.reverse ++ []) r.2
        ((directMap k (t + 1) (d + 1)).withStacks pas 0)) := by
  obtain ⟨pt, m₁, hk, hf₁, hlen₁⟩ := kalloc_ok hf (by omega)
  have hcreate : uvmcreate m = (some pt, m₁.fill pt 0) := by
    rw [uvmcreate, hk]
  obtain ⟨hmoves, htable, -, hentries, -⟩ := uvmcreate_spec hs hcreate
  have hlen : (m₁.fill pt 0).free.length = m₁.free.length := rfl
  have h₀ : KernelTable k pt [] (m₁.fill pt 0) (fun _ ↦ none) := by
    refine ⟨⟨htable, ?_⟩, hf₁, ?_⟩
    · have := hs.moves hmoves
      rw [zero_add] at this
      exact this.congr (funext fun q ↦ Nat.add_zero _)
    · apply lookup_ext (fun _ _ ↦ rfl)
      intro v _
      rw [hentries v, translate_zero]
  obtain ⟨hkern, huart, hvirtio, hplic⟩ := device_pages
  have hN : NPAGES = 2 ^ 26 := rfl
  have htop : TRAMPOLINE = (NPAGES - 1) * PGSIZE := by
    unfold TRAMPOLINE NPAGES MAXVA PGSIZE
    omega
  have hlast : t + 1 + (d + 1) = 32768 := by
    rw [htext] at hdata
    unfold PHYSTOP KERNBASE PGSIZE at hdata
    omega
  have htextSize : etext - KERNBASE = (t + 1) * PGSIZE := by
    have hbase : KERNBASE = KERNBASE / PGSIZE * PGSIZE := rfl
    rw [htext]
    unfold PGSIZE at *
    omega
  have hdataSize : PHYSTOP - etext = (d + 1) * PGSIZE := by omega
  have htrampoline : k.trampoline < 2 ^ 44 := by
    have h1 := k.text
    have h2 := k.below
    have h3 : PHYSTOP = 2281701376 := rfl
    unfold PGSIZE at h1
    omega
  have hpage : etext / PGSIZE = KERNBASE / PGSIZE + (t + 1) := by
    rw [htext, page_div]
  rw [kvmmake, hk]
  dsimp only
  apply (kvmmap_spec h₀ (PTE_R ||| PTE_W) (by decide) (n := 0) (v := UART0 / PGSIZE) rfl rfl
    (by omega) (by omega) (fun _ _ _ ↦ rfl) (by omega)).bind
  rintro m₂ ⟨h₂, hlen₂⟩
  apply (kvmmap_spec h₂ (PTE_R ||| PTE_W) (by decide) (n := 0) (v := VIRTIO0 / PGSIZE) rfl rfl
    (by omega) (by omega) (fun _ _ _ ↦ mapRange_none rfl (by omega)) (by omega)).bind
  rintro m₃ ⟨h₃, hlen₃⟩
  apply (kvmmap_spec h₃ (PTE_R ||| PTE_W) (by decide) (n := 1023) (v := PLIC / PGSIZE) rfl
    (by decide) (by omega) (by omega)
    (fun _ _ _ ↦ mapRange_none (mapRange_none rfl (by omega)) (by omega)) (by
      rw [hplic]
      omega)).bind
  rintro m₄ ⟨h₄, hlen₄⟩
  apply (kvmmap_spec h₄ (PTE_R ||| PTE_X) (by decide) (n := t) (v := KERNBASE / PGSIZE) rfl
    htextSize (by omega) (by omega) (fun _ _ _ ↦ mapRange_none (mapRange_none (mapRange_none rfl
      (by omega)) (by omega)) (by omega)) (by omega)).bind
  rintro m₅ ⟨h₅, hlen₅⟩
  rw [hpage]
  apply (kvmmap_spec h₅ (PTE_R ||| PTE_W) (by decide) (n := d) htext hdataSize (by omega)
    (by omega) (fun _ _ _ ↦ mapRange_none (mapRange_none (mapRange_none
      (mapRange_none rfl (by omega)) (by omega)) (by omega)) (by omega)) (by omega)).bind
  rintro m₆ ⟨h₆, hlen₆⟩
  apply (kvmmap_spec h₆ (PTE_R ||| PTE_X) (by decide) (n := 0) (v := NPAGES - 1) htop rfl
    (by omega) htrampoline (fun _ _ _ ↦ mapRange_none (mapRange_none (mapRange_none
      (mapRange_none (mapRange_none rfl (by omega)) (by omega)) (by omega)) (by omega))
      (by omega)) (by omega)).bind
  rintro m₇ ⟨h₇, hlen₇⟩
  have h₇ : KernelTable k pt [] m₇ (directMap k (t + 1) (d + 1)) := h₇
  have hslots : NPROC = 64 := rfl
  refine Returns.bind (mapstacksLoop_spec h₇ (Nat.le_refl _) ?_ (by omega)) ?_
  · intro p _ hp
    have hstack := stackPage_add (p := p) (by omega)
    exact mapRange_none (mapRange_none (mapRange_none (mapRange_none (mapRange_none
      (mapRange_none rfl (by omega)) (by omega)) (by omega)) (by omega)) (by omega)) (by omega)
  · rintro m₈ ⟨pas, hpas, h₈⟩
    exact .ok ⟨pas, hpas, h₈⟩

/-- An entry of the map is the one of the trampoline, or a page mapped to itself. -/
theorem directMap_cases {t d v : Nat} {q : Nat × Nat} (h : directMap k t d v = some q) :
    v = NPAGES - 1 ∧ q = (k.trampoline, PTE_R ||| PTE_X ||| PTE_V) ∨
      q.1 = v ∧ Direct (KERNBASE / PGSIZE + t + d) v ∧
        (q.2 = PTE_R ||| PTE_W ||| PTE_V ∨ q.2 = PTE_R ||| PTE_X ||| PTE_V) := by
  simp only [directMap, PageMap.mapRange] at h
  split at h
  · next hv =>
    rw [← Option.some.inj h]
    have heq : v = NPAGES - 1 := by omega
    rw [heq, Nat.sub_self]
    exact .inl ⟨rfl, rfl⟩
  right
  split at h
  · rw [← Option.some.inj h]
    exact ⟨by dsimp only; omega, by unfold Direct; omega, .inl rfl⟩
  split at h
  · rw [← Option.some.inj h]
    exact ⟨by dsimp only; omega, by unfold Direct; omega, .inr rfl⟩
  split at h
  · rw [← Option.some.inj h]
    exact ⟨by dsimp only; omega, by unfold Direct; omega, .inl rfl⟩
  split at h
  · rw [← Option.some.inj h]
    exact ⟨by dsimp only; omega, by unfold Direct; omega, .inl rfl⟩
  split at h
  · rw [← Option.some.inj h]
    exact ⟨by dsimp only; omega, by unfold Direct; omega, .inl rfl⟩
  · cases h

/-- The entries of a map with stacks. -/
theorem withStacks_cases {pas : List Nat} (hpas : pas.length = NPROC) {v : Nat} {q : Nat × Nat}
    (h : A.withStacks pas 0 v = some q) :
    (∃ p, ∃ hp : p < pas.length, v = stackPage p ∧
      q = (pas.get ⟨p, hp⟩, PTE_R ||| PTE_W ||| PTE_V)) ∨ A v = some q := by
  by_cases hv : ∃ p, p < pas.length ∧ v = stackPage p
  · obtain ⟨p, hp, rfl⟩ := hv
    have hself := A.withStacks_self (i := 0) hp (by omega)
    rw [Nat.zero_add, h] at hself
    exact .inl ⟨p, hp, rfl, Option.some.inj hself⟩
  · right
    rw [PageMap.withStacks_other] at h
    · exact h
    · intro p _ hp hvp
      exact hv ⟨p, by omega, hvp⟩

/-- If enough pages are free, `kvmmake` returns, and its page table maps the devices, the kernel and
the memory after it to themselves, the trampoline and the stacks to their pages, and nothing else:
below and above each stack is a page that is not mapped. -/
theorem kernel_address_space {etext : Nat} (hs : Sound k m 0) (haligned : etext % PGSIZE = 0)
    (habove : KERNBASE < etext) (hend : etext ≤ k.kend) (hf : m.fails = [])
    (hn : 333 ≤ m.free.length) :
    Returns (kvmmake k etext m) (fun r ↦ ∃ stack, KernelSpace k etext r.2 r.1 stack) := by
  have hbelow : etext < PHYSTOP := by
    obtain ⟨page, m', hk, -⟩ := kalloc_ok hf (by omega)
    obtain ⟨h1, h2⟩ := (kalloc_fresh hk hs).2
    omega
  obtain ⟨t, ht⟩ : ∃ t, etext = (KERNBASE / PGSIZE + (t + 1)) * PGSIZE := by
    refine ⟨etext / PGSIZE - KERNBASE / PGSIZE - 1, ?_⟩
    unfold KERNBASE PGSIZE at *
    omega
  obtain ⟨d, hd⟩ : ∃ d, PHYSTOP = etext + (d + 1) * PGSIZE := by
    refine ⟨(PHYSTOP - etext) / PGSIZE - 1, ?_⟩
    unfold PHYSTOP KERNBASE PGSIZE at *
    omega
  apply (kvmmake_spec hs ht hd hf hn).mono
  rintro ⟨pt, m'⟩ ⟨pas, hpas, h⟩
  change ∃ stack, KernelSpace k etext m' pt stack
  rw [List.append_nil] at h
  have hview : lookup m' pt = (directMap k (t + 1) (d + 1)).withStacks pas 0 := h.view
  obtain ⟨hkern, huart, hvirtio, hplic⟩ := device_pages
  have hstop : PHYSTOP / PGSIZE = 557056 := by decide
  have htop : TRAMPOLINE / PGSIZE = NPAGES - 1 := by decide
  have hN : NPAGES = 2 ^ 26 := rfl
  have htext : etext / PGSIZE = KERNBASE / PGSIZE + (t + 1) := by
    rw [ht, page_div]
  have hdata : KERNBASE / PGSIZE + (t + 1) + (d + 1) = PHYSTOP / PGSIZE := by
    rw [hd, ht, ← Nat.add_mul, page_div]
  have hslots : NPROC = 64 := rfl
  have hkstack (p : Slot) : KSTACK p / PGSIZE = stackPage p := by
    rw [kstack_eq p.isLt, page_div]
  -- outside of the stacks the map is the direct map
  have hdirect {v : Nat} (hv : ∀ p < NPROC, v ≠ stackPage p) :
      lookup m' pt v = directMap k (t + 1) (d + 1) v := by
    rw [hview]
    exact PageMap.withStacks_other _ (fun p _ hp ↦ hv p (by omega))
  have hlow {v : Nat} (hv : v < PHYSTOP / PGSIZE) :
      lookup m' pt v = directMap k (t + 1) (d + 1) v := by
    apply hdirect
    intro p hp
    have := stackPage_add hp
    omega
  have hguard {v : Nat} (hv : ∀ p < NPROC, v ≠ stackPage p) (hlo : PHYSTOP / PGSIZE ≤ v)
      (hhi : v < NPAGES - 1) : lookup m' pt v = none := by
    rw [hdirect hv]
    cases hq : directMap k (t + 1) (d + 1) v with
    | none => rfl
    | some q =>
      rcases directMap_cases hq with ⟨hv, -⟩ | ⟨-, hv, -⟩
      · omega
      · unfold Direct at hv
        omega
  have hstack (p : Slot) : p.val < pas.length := Nat.lt_of_lt_of_eq p.isLt hpas.symm
  have hcases {v : Nat} {q : Nat × Nat} (hq : lookup m' pt v = some q) :=
    withStacks_cases hpas ((congrFun hview v).symm.trans hq)
  refine ⟨fun p ↦ pas.get ⟨p, hstack p⟩, ?_, ?_, ?_, ?_, ?_, ?_, ?_, ?_, ?_, ?_⟩
  · intro v hv
    rw [hlow (by omega)]
    simp only [directMap, PageMap.mapRange]
    rw [if_neg (by omega), if_neg (by omega), if_neg (by omega)]
    split
    · rw [Nat.add_sub_cancel' (by omega)]
    split
    · rw [Nat.add_sub_cancel' (by omega)]
    · rw [if_pos (by omega), Nat.add_sub_cancel' (by omega)]
  · intro v hlo hhi
    rw [hlow (by omega)]
    simp only [directMap, PageMap.mapRange]
    rw [if_neg (by omega), if_neg (by omega), if_pos (by omega), Nat.add_sub_cancel' (by omega)]
  · intro v hlo hhi
    rw [hlow (by omega)]
    simp only [directMap, PageMap.mapRange]
    rw [if_neg (by omega), if_pos (by omega), Nat.add_sub_cancel' (by omega)]
  · rw [htop, hdirect]
    · simp only [directMap, PageMap.mapRange]
      rw [if_pos (by omega), Nat.sub_self]
      rfl
    · intro p hp
      have := stackPage_add hp
      omega
  · intro p
    have hself := (directMap k (t + 1) (d + 1)).withStacks_self (i := 0) (hstack p) (by omega)
    rw [Nat.zero_add] at hself
    rw [hkstack, hview]
    exact hself
  · intro p
    have hlt := p.isLt
    have hp := stackPage_add hlt
    -- stacks are two pages apart
    have hodd (q : Nat) (hq : q < NPROC) :
        stackPage p - 1 ≠ stackPage q ∧ stackPage p + 1 ≠ stackPage q := by
      have := stackPage_add hq
      omega
    rw [hkstack]
    constructor
    · exact hguard (fun q hq ↦ (hodd q hq).1) (by omega) (by omega)
    · exact hguard (fun q hq ↦ (hodd q hq).2) (by omega) (by omega)
  · intro v q hq
    rcases hcases hq with ⟨p, hp, hv, -⟩ | hq
    · exact .inr (.inr ⟨⟨p, by omega⟩, hv.trans (hkstack ⟨p, by omega⟩).symm⟩)
    · rcases directMap_cases hq with ⟨hv, -⟩ | ⟨hq, hv, -⟩
      · exact .inr (.inl (hv.trans htop.symm))
      · rw [hdata] at hv
        exact .inl ⟨hv, hq⟩
  · intro v q hq
    have hflags : q.2 = PTE_R ||| PTE_W ||| PTE_V ∨ q.2 = PTE_R ||| PTE_X ||| PTE_V := by
      rcases hcases hq with ⟨p, hp, -, rfl⟩ | hq
      · exact .inl rfl
      · rcases directMap_cases hq with ⟨-, rfl⟩ | ⟨-, -, hq⟩
        · exact .inr rfl
        · exact hq
    rcases hflags with hflags | hflags
    · rw [hflags]
      exact ⟨.inr (by decide), by decide⟩
    · rw [hflags]
      exact ⟨.inl (by decide), by decide⟩
  · intro p q hpq
    have hnodup : pas.Nodup := by
      rw [List.nodup_iff_count_le_one]
      intro a
      rw [← List.count_reverse]
      exact h.ok.sound.right.le_one a
    exact Fin.ext (Fin.mk.inj (List.nodup_iff_injective_get.mp hnodup hpq))
  · intro p
    have hmem : 0 < pas.reverse.count (pas.get ⟨p, hstack p⟩) := by
      rw [List.count_reverse]
      exact List.count_pos_iff.mpr (List.get_mem ..)
    have honce := h.ok.sound.once (pas.get ⟨p, hstack p⟩)
    rw [Pi.add_apply] at honce
    dsimp only at honce
    refine ⟨h.ok.sound.usable _ ?_, ?_, by omega⟩
    · rw [Pi.add_apply]
      dsimp only
      omega
    · intro hfree
      have := List.count_pos_iff.mpr hfree
      omega

end

/-- The built kernel, with all pages after its end free. -/
theorem kernel_address_space_built :
    Returns (kvmmake builtKernel 0x80008000 (beforeUserinit builtKernel 0).mem) (fun r ↦
      ∃ stack, KernelSpace builtKernel 0x80008000 r.2 r.1 stack) := by
  have hlen : 333 ≤ (beforeUserinit builtKernel 0).mem.free.length := by
    rw [beforeUserinit_length]
    decide +kernel
  exact kernel_address_space (beforeUserinit_sound builtKernel 0) (by decide) (by decide)
    (by decide) rfl hlen

end Xv6.Vm
