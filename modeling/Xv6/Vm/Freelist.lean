import Mathlib.Data.List.Perm.Basic
import Xv6.Lib.Loop
import Xv6.Lib.Ring
import Xv6.Lib.Run
import Xv6.Vm.Memory

/-!
# The free list in the memory that it manages

`kernel/kalloc.c` at the level of bytes: physical memory is one array, a free page holds the address
of the next one in its first eight bytes, and the owners of allocated pages store into them what
they like. `Xv6.Vm.Memory` has the same allocator with the free pages as a list; the end of this
module connects the two.
-/

namespace Xv6.Freelist

open Xv6.Lib
open Xv6.Vm (PGSIZE PGROUNDUP PHYSTOP Kernel)

/-- Physical memory, and `kmem` without its lock; `kernel/kalloc.c:17–24`. -/
structure Kmem where
  mem : Nat → UInt8
  freelist : Nat

/-- `memset` of `n` bytes. -/
def memset (mem : Nat → UInt8) (pa : Nat) (b : UInt8) (n : Nat) : Nat → UInt8 :=
  fun a ↦ if pa ≤ a ∧ a < pa + n then b else mem a

/-- `kfree`; `kernel/kalloc.c:46–63`. -/
def kfree (k : Kernel) (s : Kmem) (pa : Nat) : Except String Kmem :=
  if pa % PGSIZE ≠ 0 ∨ pa < k.kend ∨ PHYSTOP ≤ pa then .error "kfree"
  else
    let mem := memset s.mem pa 1 PGSIZE
    .ok ⟨writeLE mem pa 8 s.freelist, pa⟩

/-- `kalloc`; `kernel/kalloc.c:68–82`. -/
def kalloc (s : Kmem) : Nat × Kmem :=
  let r := s.freelist
  if r ≠ 0 then (r, ⟨memset s.mem r 5 PGSIZE, readLE s.mem r 8⟩) else (r, s)

/-- The loop of `freerange`; `kernel/kalloc.c:38–39`. -/
def freerange (k : Kernel) (stop p : Nat) (s : Kmem) : Except String Kmem :=
  if p + PGSIZE ≤ stop then
    match kfree k s p with
    | .error e => .error e
    | .ok s => freerange k stop (p + PGSIZE) s
  else .ok s
termination_by stop - p
decreasing_by
  have hP : PGSIZE = 4096 := rfl
  omega

/-- `kinit`; `kernel/kalloc.c:26–31`. -/
def kinit (k : Kernel) (mem : Nat → UInt8) : Except String Kmem :=
  freerange k PHYSTOP (PGROUNDUP k.kend) ⟨mem, 0⟩

/-- One round of the loop of `kfreemem`; `kernel/kalloc.c:91–94`. -/
def countBody (s : Kmem) : Nat × Nat → (Nat × Nat) ⊕ Nat
  | (sz, r) => if r ≠ 0 then .inl ((sz + PGSIZE) % 2 ^ 64, readLE s.mem r 8) else .inr sz

/-- `kfreemem`, if its loop ends within `n` rounds; `kernel/kalloc.c:84–98`. -/
def kfreemem (s : Kmem) (n : Nat) : Option Nat := rounds (countBody s) n (0, s.freelist)

/-- The allocator, with the pages that `kalloc` has returned and that were not freed since. -/
structure Sys where
  kmem : Kmem
  allocated : List Nat

/-- The calls, and the stores of the owners of pages between them. -/
inductive Op where
  | kalloc
  | kfree (pa : Nat)
  | store (addr : Nat) (b : UInt8)

/-- The byte at `addr` is in a page that is allocated. -/
def Sys.Owned (s : Sys) (addr : Nat) : Prop := ∃ pa ∈ s.allocated, pa ≤ addr ∧ addr < pa + PGSIZE

instance (s : Sys) (addr : Nat) : Decidable (s.Owned addr) :=
  inferInstanceAs (Decidable (∃ pa ∈ s.allocated, _))

/-- A store of one byte. -/
def Kmem.store (s : Kmem) (addr : Nat) (b : UInt8) : Kmem :=
  { s with mem := Function.update s.mem addr b }

/-- The step function: `kfree` is for pages that are allocated, a store for a byte of one. -/
def step (k : Kernel) (s : Sys) : Op → Option Sys
  | .kalloc =>
    let (r, t) := kalloc s.kmem
    some ⟨t, if r = 0 then s.allocated else r :: s.allocated⟩
  | .kfree pa =>
    if pa ∈ s.allocated then
      match kfree k s.kmem pa with
      | .ok t => some ⟨t, s.allocated.erase pa⟩
      | .error _ => none
    else none
  | .store addr b => if s.Owned addr then some ⟨s.kmem.store addr b, s.allocated⟩ else none

/-- The pages that `kinit` frees. -/
def pages (k : Kernel) : List Nat :=
  (List.range' k.first (PHYSTOP / PGSIZE - k.first)).map (· * PGSIZE)

/-- The links of the list: 0 stands for `kmem.freelist` as well as for the null pointer. -/
def Kmem.link (s : Kmem) (p : Nat) : Nat := if p = 0 then s.freelist else readLE s.mem p 8

/-- The free list is `free`. -/
def Kmem.Lists (s : Kmem) (free : List Nat) : Prop := Path s.link 0 free 0

/-- What holds in every state. -/
structure Sound (k : Kernel) (s : Sys) : Prop where
  /-- `kalloc` returns a page that is not allocated, or 0 when all are. -/
  alloc : if (kalloc s.kmem).1 = 0 then s.allocated.Perm (pages k)
    else (kalloc s.kmem).1 % PGSIZE = 0 ∧ k.kend ≤ (kalloc s.kmem).1 ∧
      (kalloc s.kmem).1 + PGSIZE ≤ PHYSTOP ∧ (kalloc s.kmem).1 ∉ s.allocated
  /-- The pages of the list are distinct and not allocated, and no store of an owner alters it. -/
  list : ∃ free, s.kmem.Lists free ∧ (free ++ s.allocated).Nodup ∧
    ∀ addr b, s.Owned addr → (s.kmem.store addr b).Lists free
  /-- The loop of `kfreemem` ends, with the size of what is not allocated. -/
  count : ∃ n, kfreemem s.kmem n = some (PGSIZE * ((pages k).length - s.allocated.length))
  /-- `kfree` does not panic. -/
  free : ∀ pa ∈ s.allocated, ∃ t, kfree k s.kmem pa = .ok t

/-- The invariant: the list and the allocated pages are together the pages of `kinit`. -/
def Split (k : Kernel) (s : Sys) (free : List Nat) : Prop :=
  s.kmem.Lists free ∧ (free ++ s.allocated).Perm (pages k)

section
variable {k : Kernel} {s : Kmem}

/-! ### Pages -/

theorem mem_pages {pa : Nat} (h : pa ∈ pages k) :
    pa % PGSIZE = 0 ∧ k.kend ≤ pa ∧ pa + PGSIZE ≤ PHYSTOP ∧ pa ≠ 0 := by
  obtain ⟨i, hi, rfl⟩ := List.mem_map.mp h
  have hP : PGSIZE = 4096 := rfl
  have hstop : PHYSTOP = 0x88000000 := rfl
  have hbase : Vm.KERNBASE = 0x80000000 := rfl
  have habove := k.above
  have hbelow := k.below
  rw [List.mem_range'_1, Kernel.first, PGROUNDUP] at hi
  simp only [hP, hstop] at *
  omega

theorem pages_nodup (k : Kernel) : (pages k).Nodup := by
  apply List.Nodup.map _ List.nodup_range'
  intro i j hij
  have hP : PGSIZE = 4096 := rfl
  simp only [hP] at hij
  omega

/-- The size of the pages is no overflow. -/
theorem pages_fit {n : Nat} (h : n ≤ (pages k).length) : PGSIZE * n < 2 ^ 64 := by
  have hle : n ≤ PHYSTOP / PGSIZE := by
    rw [pages, List.length_map, List.length_range'] at h
    exact Nat.le_trans h (Nat.sub_le _ _)
  have hfits : PGSIZE * (PHYSTOP / PGSIZE) < 2 ^ 64 := by decide
  exact Nat.lt_of_le_of_lt (Nat.mul_le_mul_left PGSIZE hle) hfits

/-- Memory agrees with what it was before, outside of the page `pa`. -/
def SameOff (mem mem' : Nat → UInt8) (pa : Nat) : Prop :=
  ∀ a, ¬ (pa ≤ a ∧ a < pa + PGSIZE) → mem' a = mem a

theorem sameOff_memset (mem : Nat → UInt8) (pa : Nat) (b : UInt8) :
    SameOff mem (memset mem pa b PGSIZE) pa := fun _ ha ↦ if_neg ha

theorem SameOff.writeLE {mem mem' : Nat → UInt8} {pa : Nat} (h : SameOff mem mem' pa) (v : Nat) :
    SameOff mem (writeLE mem' pa 8 v) pa := by
  intro a ha
  have hP : PGSIZE = 4096 := rfl
  rw [writeLE_apply_of_notMem mem' v (by omega)]
  exact h a ha

theorem sameOff_update (mem : Nat → UInt8) {pa addr : Nat} (b : UInt8)
    (h : pa ≤ addr ∧ addr < pa + PGSIZE) : SameOff mem (Function.update mem addr b) pa := by
  intro a ha
  apply Function.update_of_ne
  rintro rfl
  exact ha h

/-- The link in another page is not touched. -/
theorem SameOff.readLE {mem mem' : Nat → UInt8} {pa x : Nat} (h : SameOff mem mem' pa)
    (hpa : pa % PGSIZE = 0) (hx : x % PGSIZE = 0) (hne : x ≠ pa) :
    readLE mem' x 8 = readLE mem x 8 := by
  apply readLE_congr
  intro i hlo hhi
  apply h
  have hP : PGSIZE = 4096 := rfl
  rw [hP] at hpa hx ⊢
  omega

/-! ### The list -/

theorem link_zero (s : Kmem) : s.link 0 = s.freelist := if_pos rfl

theorem link_page {pa : Nat} (h : pa ≠ 0) : s.link pa = readLE s.mem pa 8 := if_neg h

/-- The links of the pages of a list, when only another page changes. -/
theorem link_congr {t : Kmem} {pa : Nat} {free : List Nat} (h : SameOff s.mem t.mem pa)
    (hpa : pa ∈ pages k) (hfree : ∀ x ∈ free, x ∈ pages k) (hne : pa ∉ free) :
    ∀ x ∈ free, t.link x = s.link x := by
  intro x hx
  obtain ⟨halign, -, -, hzero⟩ := mem_pages (hfree x hx)
  rw [link_page hzero, link_page hzero]
  apply h.readLE (mem_pages hpa).1 halign
  rintro rfl
  exact hne hx

/-- A page is put in front. -/
theorem Kmem.Lists.kfree {free : List Nat} {pa : Nat} (h : s.Lists free) (hpa : pa ∈ pages k)
    (hfree : ∀ x ∈ free, x ∈ pages k) (hne : pa ∉ free) (hlt : s.freelist < 256 ^ 8) :
    ∃ t, Freelist.kfree k s pa = .ok t ∧ t.Lists (pa :: free) ∧ SameOff s.mem t.mem pa := by
  obtain ⟨halign, hlo, hhi, hzero⟩ := mem_pages hpa
  have hP : PGSIZE = 4096 := rfl
  have hoff := (sameOff_memset s.mem pa 1).writeLE s.freelist
  refine ⟨_, if_neg (by omega), ⟨link_zero _, ?_⟩, hoff⟩
  apply Path.from h
  · rw [link_page hzero, link_zero]
    exact readLE_writeLE _ _ hlt
  · exact link_congr hoff hpa hfree hne

/-- The first page is taken off. -/
theorem Kmem.Lists.kalloc {free : List Nat} {pa : Nat} (h : s.Lists (pa :: free))
    (hpages : ∀ x ∈ pa :: free, x ∈ pages k) (hne : pa ∉ free) :
    ∃ t, Freelist.kalloc s = (pa, t) ∧ t.Lists free ∧ t.mem = memset s.mem pa 5 PGSIZE := by
  have hpa := hpages pa List.mem_cons_self
  have hzero := (mem_pages hpa).2.2.2
  obtain ⟨hfirst, hrest⟩ := h
  rw [link_zero] at hfirst
  have hoff := sameOff_memset s.mem pa 5
  refine ⟨⟨memset s.mem pa 5 PGSIZE, readLE s.mem pa 8⟩, ?_, ?_, rfl⟩
  · rw [Freelist.kalloc, hfirst, if_pos hzero]
  · apply Path.from hrest
    · rw [link_zero, link_page hzero]
    · exact link_congr hoff hpa (fun x hx ↦ hpages x (List.mem_cons_of_mem pa hx)) hne

theorem kalloc_empty (h : s.Lists []) : kalloc s = (0, s) := by
  have hnull : s.freelist = 0 := (link_zero s).symm.trans h
  rw [kalloc, hnull, if_neg (fun hne ↦ hne rfl)]

/-- A store to a page that is not in the list. -/
theorem Kmem.Lists.store {free : List Nat} {pa addr : Nat} (b : UInt8) (h : s.Lists free)
    (hpa : pa ∈ pages k) (hfree : ∀ x ∈ free, x ∈ pages k) (hne : pa ∉ free)
    (hin : pa ≤ addr ∧ addr < pa + PGSIZE) : (s.store addr b).Lists free := by
  apply Path.from h (by rw [link_zero, link_zero]; rfl)
  exact link_congr (sameOff_update s.mem b hin) hpa hfree hne

/-- The loop of `kfreemem` from a node of the list on. -/
theorem rounds_count {free : List Nat} {p : Nat} (sz : Nat) (h : Path s.link p free 0)
    (hnull : ∀ x ∈ free, x ≠ 0) (hlt : sz + PGSIZE * free.length < 2 ^ 64) :
    rounds (countBody s) (free.length + 1) (sz, s.link p) = some (sz + PGSIZE * free.length) := by
  induction free generalizing p sz with
  | nil =>
    rw [show s.link p = 0 from h, rounds, countBody]
    rfl
  | cons x free ih =>
    have hx := hnull x List.mem_cons_self
    rw [List.length_cons, Nat.mul_succ] at hlt ⊢
    have hbody : countBody s (sz, x) = .inl (sz + PGSIZE, s.link x) := by
      rw [countBody, if_pos hx, link_page hx, Nat.mod_eq_of_lt (by omega)]
    have hrest := ih (sz + PGSIZE) h.2 (fun y hy ↦ hnull y (List.mem_cons_of_mem x hy))
      (by omega)
    rw [h.1, rounds, hbody]
    apply hrest.trans
    congr 1
    omega

/-! ### Steps -/

theorem Split.mem {s : Sys} {free : List Nat} (h : Split k s free) {x : Nat}
    (hx : x ∈ free ++ s.allocated) : x ∈ pages k := h.2.mem_iff.mp hx

theorem Split.nodup {s : Sys} {free : List Nat} (h : Split k s free) :
    (free ++ s.allocated).Nodup := h.2.nodup_iff.mpr (pages_nodup k)

theorem Split.free_pages {s : Sys} {free : List Nat} (h : Split k s free) :
    ∀ x ∈ free, x ∈ pages k := fun _ hx ↦ h.mem (List.mem_append_left _ hx)

theorem Split.allocated_notMem {s : Sys} {free : List Nat} (h : Split k s free) {pa : Nat}
    (hpa : pa ∈ s.allocated) : pa ∉ free :=
  fun hfree ↦ (List.nodup_append.mp h.nodup).2.2 pa hfree pa hpa rfl

/-- `kmem.freelist` is the address of a page. -/
theorem Split.freelist_lt {s : Sys} {free : List Nat} (h : Split k s free) :
    s.kmem.freelist < 256 ^ 8 := by
  have hfirst := Path.first h.1
  rw [link_zero] at hfirst
  cases free with
  | nil =>
    rw [hfirst]
    decide
  | cons x free =>
    obtain ⟨-, -, hhi, -⟩ := mem_pages (h.free_pages x List.mem_cons_self)
    have hstop : PHYSTOP < 256 ^ 8 := by decide
    rw [hfirst, List.headD_cons]
    omega

theorem Split.kfree {s : Sys} {free : List Nat} (h : Split k s free) {pa : Nat}
    (hpa : pa ∈ s.allocated) : ∃ t, Freelist.kfree k s.kmem pa = .ok t ∧
      Split k ⟨t, s.allocated.erase pa⟩ (pa :: free) := by
  obtain ⟨t, ht, hlists, -⟩ := h.1.kfree (h.mem (List.mem_append_right _ hpa)) h.free_pages
    (h.allocated_notMem hpa) h.freelist_lt
  refine ⟨t, ht, hlists, ?_⟩
  apply List.Perm.trans _ h.2
  calc pa :: free ++ s.allocated.erase pa
    _ = pa :: (free ++ s.allocated.erase pa) := rfl
    _ |>.Perm (free ++ pa :: s.allocated.erase pa) := List.perm_middle.symm
    _ |>.Perm (free ++ s.allocated) := (List.perm_cons_erase hpa).symm.append_left free

theorem Split.kalloc {s : Sys} {pa : Nat} {free : List Nat} (h : Split k s (pa :: free)) :
    ∃ t, Freelist.kalloc s.kmem = (pa, t) ∧ Split k ⟨t, pa :: s.allocated⟩ free := by
  have hne : pa ∉ free := (List.nodup_cons.mp h.nodup.of_append_left).1
  obtain ⟨t, ht, hlists, -⟩ := h.1.kalloc h.free_pages hne
  exact ⟨t, ht, hlists, List.perm_middle.trans h.2⟩

theorem Split.store {s : Sys} {free : List Nat} (h : Split k s free) {addr : Nat}
    (hown : s.Owned addr) (b : UInt8) : (s.kmem.store addr b).Lists free := by
  obtain ⟨pa, hpa, hin⟩ := hown
  exact h.1.store b (h.mem (List.mem_append_right _ hpa)) h.free_pages (h.allocated_notMem hpa) hin

/-- The invariant gives what is promised. -/
theorem Split.sound {s : Sys} {free : List Nat} (h : Split k s free) : Sound k s := by
  refine ⟨?_, ⟨free, h.1, h.nodup, fun _ b hown ↦ h.store hown b⟩, ?_, ?_⟩
  · cases free with
    | nil =>
      rw [kalloc_empty h.1, if_pos rfl]
      exact h.2
    | cons pa free =>
      obtain ⟨t, ht, -⟩ := h.kalloc
      obtain ⟨halign, hlo, hhi, hzero⟩ := mem_pages (h.free_pages pa List.mem_cons_self)
      rw [ht, if_neg hzero]
      refine ⟨halign, hlo, hhi, ?_⟩
      intro hpa
      exact h.allocated_notMem hpa List.mem_cons_self
  · have hlen := h.2.length_eq
    rw [List.length_append] at hlen
    have hnull (x : Nat) (hx : x ∈ free) : x ≠ 0 := (mem_pages (h.free_pages x hx)).2.2.2
    have hfits := pages_fit (k := k) (n := free.length) (by omega)
    refine ⟨free.length + 1, ?_⟩
    have hcount := rounds_count 0 h.1 hnull (by omega)
    rw [link_zero] at hcount
    rw [kfreemem, hcount, Nat.zero_add]
    congr 2
    omega
  · intro pa hpa
    obtain ⟨t, ht, -⟩ := h.kfree hpa
    exact ⟨t, ht⟩

theorem split_step {s t : Sys} {op : Op} (h : ∃ free, Split k s free) (ht : step k s op = some t) :
    ∃ free, Split k t free := by
  obtain ⟨free, h⟩ := h
  cases op with
  | kalloc =>
    simp only [step] at ht
    cases free with
    | nil =>
      rw [kalloc_empty h.1] at ht
      cases ht
      exact ⟨[], h⟩
    | cons pa free =>
      obtain ⟨u, hu, hsplit⟩ := h.kalloc
      have hzero := (mem_pages (h.free_pages pa List.mem_cons_self)).2.2.2
      rw [hu] at ht
      simp only [hzero, if_false] at ht
      cases ht
      exact ⟨free, hsplit⟩
  | kfree pa =>
    simp only [step] at ht
    split at ht
    · next hpa =>
      obtain ⟨u, hu, hsplit⟩ := h.kfree hpa
      rw [hu] at ht
      cases ht
      exact ⟨pa :: free, hsplit⟩
    · cases ht
  | store addr b =>
    simp only [step] at ht
    split at ht
    · next hown =>
      cases ht
      exact ⟨free, h.store hown b, h.2⟩
    · cases ht

/-! ### `kinit` -/

/-- `freerange` over `n` pages puts them in front of the list, in the reverse order. -/
theorem freerange_spec (n a : Nat) {free : List Nat} (h : s.Lists free)
    (hpages : ∀ i, a ≤ i → i < a + n → i * PGSIZE ∈ pages k) (hfree : ∀ x ∈ free, x ∈ pages k)
    (hlow : ∀ x ∈ free, x < a * PGSIZE) (hlt : s.freelist < 256 ^ 8) :
    ∃ t, freerange k ((a + n) * PGSIZE) (a * PGSIZE) s = .ok t ∧
      t.Lists (((List.range' a n).map (· * PGSIZE)).reverse ++ free) := by
  have hP : PGSIZE = 4096 := rfl
  induction n generalizing a s free with
  | zero =>
    refine ⟨s, ?_, h⟩
    rw [freerange, Nat.add_zero, if_neg (by omega)]
  | succ n ih =>
    have ha := hpages a (by omega) (by omega)
    have hne : a * PGSIZE ∉ free := fun hx ↦ Nat.lt_irrefl _ (hlow _ hx)
    obtain ⟨t, ht, hlists, -⟩ := h.kfree ha hfree hne hlt
    have hnext : a * PGSIZE + PGSIZE = (a + 1) * PGSIZE := (Nat.succ_mul a PGSIZE).symm
    have hstop : (a + (n + 1)) * PGSIZE = (a + 1 + n) * PGSIZE := by
      rw [Nat.add_right_comm, Nat.add_assoc]
    have hmore : (a + 1) * PGSIZE ≤ (a + 1 + n) * PGSIZE :=
      Nat.mul_le_mul_right PGSIZE (Nat.le_add_right (a + 1) n)
    have hfirst := Path.first hlists
    rw [link_zero, List.headD_cons] at hfirst
    obtain ⟨u, hu, hlast⟩ := ih (a + 1) hlists (fun i hlo hhi ↦ hpages i (by omega) (by omega))
      (by
        intro x hx
        rcases List.mem_cons.mp hx with rfl | hx
        · exact ha
        · exact hfree x hx)
      (by
        intro x hx
        rcases List.mem_cons.mp hx with rfl | hx
        · omega
        · have := hlow x hx
          omega)
      (by
        obtain ⟨-, -, hhi, -⟩ := mem_pages ha
        have hphys : PHYSTOP < 256 ^ 8 := by decide
        omega)
    refine ⟨u, ?_, ?_⟩
    · rw [freerange, hnext, hstop, if_pos hmore, ht]
      exact hu
    · rw [List.range'_succ, List.map_cons, List.reverse_cons, List.append_assoc]
      exact hlast

theorem kinit_split (k : Kernel) (mem : Nat → UInt8) :
    ∃ t, kinit k mem = .ok t ∧ ∃ free, Split k ⟨t, []⟩ free := by
  have hP : PGSIZE = 4096 := rfl
  have hphys : PHYSTOP = 557056 * PGSIZE := by decide
  have hle : k.first ≤ 557056 := by
    have := k.below
    rw [Kernel.first, PGROUNDUP]
    rw [hphys] at this
    simp only [hP] at *
    omega
  have hdiv : PHYSTOP / PGSIZE = 557056 := by decide
  have hstop : (k.first + (557056 - k.first)) * PGSIZE = PHYSTOP := by
    rw [hphys, Nat.add_sub_cancel' hle]
  have hstart : k.first * PGSIZE = PGROUNDUP k.kend := by
    rw [Kernel.first, PGROUNDUP, Nat.mul_div_cancel _ (by decide)]
  obtain ⟨t, ht, hlists⟩ := freerange_spec (k := k) (s := ⟨mem, 0⟩) (557056 - k.first) k.first
    (show Path _ 0 [] 0 from link_zero _)
    (by
      intro i hlo hhi
      apply List.mem_map_of_mem
      rw [List.mem_range'_1, hdiv]
      omega) nofun nofun (show 0 < 256 ^ 8 by decide)
  rw [hstop, hstart] at ht
  refine ⟨t, ht, _, hlists, ?_⟩
  rw [List.append_nil, List.append_nil, pages, hdiv]
  exact List.reverse_perm _

end

/-- After `kinit` the allocator is sound in every state of every run. -/
theorem freelist_sound (k : Kernel) (mem : Nat → UInt8) (ops : List Op) :
    ∃ t, kinit k mem = .ok t ∧ Always (step k) (Sound k) ⟨t, []⟩ ops := by
  obtain ⟨t, ht, hsplit⟩ := kinit_split k mem
  refine ⟨t, ht, ?_⟩
  apply always_of_invariant (J := fun s ↦ ∃ free, Split k s free) _ _ hsplit
  · rintro s ⟨free, h⟩
    exact h.sound
  · intro s op u hs hu
    exact split_step hs hu

/-! ### The allocator of the address spaces -/

/-- The memory `m` of `Xv6.Vm.Memory` stands for `s`: it has the same free list, and the same bytes
in the pages that are not free. -/
structure Represents (k : Kernel) (s : Kmem) (m : Vm.Mem) : Prop where
  list : s.Lists (m.free.map (· * PGSIZE))
  nodup : m.free.Nodup
  usable : ∀ page ∈ m.free, page * PGSIZE ∈ pages k
  cells : ∀ page, page ∉ m.free → ∀ o < PGSIZE, s.mem (page * PGSIZE + o) = m.cells page o

section
variable {k : Kernel} {s : Kmem} {m : Vm.Mem}

theorem page_injective : Function.Injective (· * PGSIZE) := by
  intro i j hij
  have hP : PGSIZE = 4096 := rfl
  simp only [hP] at hij
  omega

theorem mem_page_iff {page : Nat} {free : List Nat} :
    page * PGSIZE ∈ free.map (· * PGSIZE) ↔ page ∈ free := by
  constructor
  · intro h
    obtain ⟨q, hq, heq⟩ := List.mem_map.mp h
    rw [← page_injective heq]
    exact hq
  · exact List.mem_map_of_mem

theorem Represents.usable' (h : Represents k s m) : ∀ x ∈ m.free.map (· * PGSIZE), x ∈ pages k := by
  intro x hx
  obtain ⟨page, hpage, rfl⟩ := List.mem_map.mp hx
  exact h.usable page hpage

/-- The bytes of other pages, when one page changes. -/
theorem SameOff.page {mem mem' : Nat → UInt8} {page q o : Nat}
    (h : SameOff mem mem' (page * PGSIZE)) (hne : q ≠ page) (ho : o < PGSIZE) :
    mem' (q * PGSIZE + o) = mem (q * PGSIZE + o) := by
  apply h
  have hP : PGSIZE = 4096 := rfl
  rw [hP] at ho ⊢
  omega

/-- `kalloc` of the address spaces is `kalloc` on the bytes. -/
theorem Represents.kalloc (h : Represents k s m) (hfails : m.fails.headD false = false) :
    (Freelist.kalloc s).1 = ((Vm.kalloc m).1.map (· * PGSIZE)).getD 0 ∧
      Represents k (Freelist.kalloc s).2 (Vm.kalloc m).2 := by
  have hlist := h.list
  cases hfree : m.free with
  | nil =>
    rw [hfree] at hlist
    rw [kalloc_empty hlist, Vm.kalloc]
    simp only [hfree]
    exact ⟨rfl, h.list, h.nodup, h.usable, h.cells⟩
  | cons page free =>
    have husable := h.usable'
    have hnodup := h.nodup
    rw [hfree] at hlist husable hnodup
    have hne : page ∉ free := (List.nodup_cons.mp hnodup).1
    obtain ⟨t, ht, hlists, hmem⟩ := Kmem.Lists.kalloc hlist husable (mt mem_page_iff.mp hne)
    rw [ht, Vm.kalloc]
    simp only [hfree, hfails, Bool.false_eq_true, if_false]
    refine ⟨rfl, ⟨hlists, (List.nodup_cons.mp hnodup).2, ?_, ?_⟩⟩
    · intro q hq
      exact h.usable q (by rw [hfree]; exact List.mem_cons_of_mem page hq)
    · intro q hq o ho
      rw [hmem]
      by_cases hqp : q = page
      · have hself : (m.fill page 5).cells page o = 5 :=
          congrFun (Function.update_self page _ m.cells) o
        have hin : page * PGSIZE ≤ page * PGSIZE + o ∧ page * PGSIZE + o < page * PGSIZE + PGSIZE :=
          ⟨Nat.le_add_right _ o, Nat.add_lt_add_left ho _⟩
        rw [hqp]
        exact (if_pos hin).trans hself.symm
      · have hold : q ∉ m.free := by
          rw [hfree]
          exact List.not_mem_cons_of_ne_of_not_mem hqp hq
        rw [(sameOff_memset s.mem _ 5).page hqp ho, h.cells q hold o ho]
        exact congrFun (Function.update_of_ne hqp _ m.cells).symm o

/-- `kfree` of the address spaces is `kfree` on the bytes. -/
theorem Represents.kfree (h : Represents k s m) {page : Nat} (hpage : page * PGSIZE ∈ pages k)
    (hne : page ∉ m.free) (hlt : s.freelist < 256 ^ 8) :
    ∃ t m', Freelist.kfree k s (page * PGSIZE) = .ok t ∧ Vm.kfree k m page = .ok m' ∧
      Represents k t m' := by
  obtain ⟨t, ht, hlists, hoff⟩ := h.list.kfree hpage h.usable' (mt mem_page_iff.mp hne) hlt
  obtain ⟨-, hlo, hhi, -⟩ := mem_pages hpage
  have hP : PGSIZE = 4096 := rfl
  have husable : k.Usable page := ⟨hlo, by omega⟩
  refine ⟨t, _, ht, if_pos husable, hlists, List.nodup_cons.mpr ⟨hne, h.nodup⟩, ?_, ?_⟩
  · intro q hq
    rcases List.mem_cons.mp hq with rfl | hq
    · exact hpage
    · exact h.usable q hq
  · intro q hq o ho
    have hqp : q ≠ page := List.ne_of_not_mem_cons hq
    rw [hoff.page hqp ho, h.cells q (List.not_mem_of_not_mem_cons hq) o ho]
    exact congrFun (Function.update_of_ne hqp _ m.cells).symm o

/-- `kfreemem` of the address spaces is what the loop counts. -/
theorem Represents.kfreemem (h : Represents k s m) :
    ∃ n, Freelist.kfreemem s n = some (Vm.kfreemem m) := by
  have hle : (m.free.map (· * PGSIZE)).length ≤ (pages k).length :=
    (List.subperm_of_subset (h.nodup.map page_injective) h.usable').length_le
  have hfits := pages_fit hle
  have hcount := rounds_count 0 h.list (fun x hx ↦ (mem_pages (h.usable' x hx)).2.2.2) (by omega)
  rw [link_zero, List.length_map, Nat.zero_add, Nat.mul_comm] at hcount
  exact ⟨m.free.length + 1, hcount⟩

end

end Xv6.Freelist
