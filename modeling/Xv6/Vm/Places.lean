import Xv6.Vm.System

/-!
# Where every page is

The two results about all processes: between system calls each page that `kinit` freed is in one
place, and the page table of each process maps the pages of `[0, sz)`, the trapframe and the
trampoline, and nothing else. Both hold in every state that system calls can lead to, and there
every call returns.
-/

namespace Xv6.Vm

open Xv6.Lib

/-- The places where a page can be. -/
inductive Place where
  | free
  | table (p : Slot)
  | user (p : Slot) (v : Nat)
  | trapframe (p : Slot)
  | pipe
  | boot
  deriving DecidableEq, Repr

/-- Page `q` is in this place: on the free list, in the page table of a process, mapped by it as a
user page, its trapframe, the page of an open pipe, or taken by the kernel before `userinit`. -/
def State.At (s : State) (q : Nat) : Place → Prop
  | .free => q ∈ s.mem.free
  | .table p => (s.procs p).Live ∧ 0 < tables s.mem.cells 2 (s.procs p).pagetable q
  | .user p v => (s.procs p).Live ∧ v * PGSIZE < TRAPFRAME ∧
      ∃ flags, lookup s.mem (s.procs p).pagetable v = some (q, flags)
  | .trapframe p => (s.procs p).Live ∧ (s.procs p).trapframe = q
  | .pipe => (s.pipes q).readopen = true ∨ (s.pipes q).writeopen = true
  | .boot => q ∈ s.early

/-- No page is lost, and none is in two places. -/
structure Placed (k : Kernel) (s : State) : Prop where
  one : ∀ q ∈ kinit k, ∃! l, s.At q l
  pages : ∀ q l, s.At q l → q ∈ kinit k
  free : s.mem.free.Nodup
  tables : ∀ p, (s.procs p).Live → ∀ q, tables s.mem.cells 2 (s.procs p).pagetable q ≤ 1

/-- A process that has gone, when the others have the pages they had and the open pipes are those
that were open, has left no page behind. -/
def Conserves (k : Kernel) (s : State) : Prop :=
  ∀ cs s', (∀ c ∈ cs, c.Typed) → run (step k) s cs = some s' →
    ∀ p, (s.procs p).state = .UNUSED → (s'.procs p).state = .UNUSED →
      (∀ o, o ≠ p → (s'.procs o).owns s'.mem.cells = (s.procs o).owns s.mem.cells) →
      s'.openPipes = s.openPipes → kfreemem s'.mem = kfreemem s.mem

/-- Every call that a process can make returns, without a panic. -/
def CallsReturn (k : Kernel) (s : State) : Prop :=
  ∀ c : Call, c.Typed → c.enabled s = true → ∃ s', c.perform k s = .ok s'

/-- The address space of a process: what it maps, and with which permissions. -/
structure AddressSpace (k : Kernel) (m : Mem) (pr : Proc) : Prop where
  mapped : ∀ v, (lookup m pr.pagetable v).isSome = true ↔
    v * PGSIZE < PGROUNDUP pr.sz ∨ v * PGSIZE = TRAPFRAME ∨ v * PGSIZE = TRAMPOLINE
  perms : ∀ v page flags, lookup m pr.pagetable v = some (page, flags) →
    flags &&& PTE_V ≠ 0 ∧ flags &&& (PTE_R ||| PTE_W ||| PTE_X) ≠ 0
  kernel : ∀ v page flags, lookup m pr.pagetable v = some (page, flags) →
    v * PGSIZE = TRAPFRAME ∨ v * PGSIZE = TRAMPOLINE → flags &&& PTE_U = 0
  trapframe : lookup m pr.pagetable (TRAPFRAME / PGSIZE) =
    some (pr.trapframe, PTE_R ||| PTE_W ||| PTE_V)
  trampoline : lookup m pr.pagetable (TRAMPOLINE / PGSIZE) =
    some (k.trampoline, PTE_R ||| PTE_X ||| PTE_V)

section
variable {k : Kernel} {early : List Nat} {s s' : State} {p : Slot} {q : Nat}

/-! ### Address spaces -/

section
variable {m : Mem} {pr : Proc} {tf : Nat}

theorem lookup_some {pt v page flags : Nat} (h : lookup m pt v = some (page, flags)) :
    v < NPAGES ∧ Valid (entry m.cells 2 pt v) ∧ PTE2PA (entry m.cells 2 pt v) = page ∧
      PTE_FLAGS (entry m.cells 2 pt v) = flags := by
  rw [lookup_eq] at h
  split at h
  · next hlt =>
    rw [translate] at h
    split at h
    · next hv =>
      cases h
      exact ⟨hlt, hv, rfl, rfl⟩
    · cases h
  · cases h

theorem Leaf.perms {pte : Nat} (h : Leaf pte) :
    PTE_FLAGS pte &&& PTE_V ≠ 0 ∧ PTE_FLAGS pte &&& (PTE_R ||| PTE_W ||| PTE_X) ≠ 0 := by
  obtain ⟨hv, hp⟩ := h
  refine ⟨?_, ?_⟩
  · rw [PTE_FLAGS, Nat.and_assoc]
    exact hv
  · rw [PTE_FLAGS, Nat.and_assoc]
    exact hp

/-- The entries of a layout are valid for the pages below its size, the trapframe and the
trampoline. -/
theorem Layout.leaf_iff {pt n v : Nat} (h : Layout m.cells pt n (topEntries k tf))
    (hv : v < NPAGES) :
    (Leaf (entry m.cells 2 pt v) ∧ (v < n ∨ v = TOP ∨ v = TOP + 1)) ∨
      (¬ Valid (entry m.cells 2 pt v) ∧ n ≤ v ∧ v < TOP) := by
  have hN : NPAGES = TOP + 2 := rfl
  by_cases hn : v < n
  · exact Or.inl ⟨h.leaf v hn, Or.inl hn⟩
  · by_cases hgap : v < TOP
    · exact Or.inr ⟨h.gap v (by omega) hgap, by omega, hgap⟩
    · refine Or.inl ⟨?_, by omega⟩
      rw [h.top v (by omega) (by omega)]
      obtain rfl | rfl : v = TOP ∨ v = TOP + 1 := by omega
      · rw [topEntries_trapframe]
        exact trapframe_leaf tf
      · rw [topEntries_trampoline]
        exact trampoline_leaf k

theorem Layout.lookup_trapframe {pt n : Nat} (h : Layout m.cells pt n (topEntries k tf))
    (htf : tf < 2 ^ 52) : lookup m pt TOP = some (tf, PTE_R ||| PTE_W ||| PTE_V) := by
  rw [lookup_of_lt (by decide), h.top TOP (Nat.le_refl _) (by decide), topEntries_trapframe]
  exact translate_mkPte (by decide) htf (by decide)

theorem Layout.lookup_trampoline {pt n : Nat} (h : Layout m.cells pt n (topEntries k tf)) :
    lookup m pt (TOP + 1) = some (k.trampoline, PTE_R ||| PTE_X ||| PTE_V) := by
  rw [lookup_of_lt (by decide), h.top (TOP + 1) (Nat.le_succ _) (by decide), topEntries_trampoline]
  exact translate_mkPte (by decide) (Nat.lt_trans k.trampoline_lt (by decide)) (by decide)

/-- A layout is an address space. -/
theorem Layout.addressSpace
    (h : Layout m.cells pr.pagetable (pages pr.sz) (topEntries k pr.trapframe))
    (hframe : pr.trapframe < 2 ^ 52) : AddressSpace k m pr := by
  have hN : NPAGES = TOP + 2 := rfl
  have htf : ∀ v, v * PGSIZE = TRAPFRAME ↔ v = TOP := by
    intro v
    rw [TRAPFRAME_eq]
    exact Nat.mul_left_inj (by decide)
  have htr : ∀ v, v * PGSIZE = TRAMPOLINE ↔ v = TOP + 1 := by
    intro v
    rw [TRAMPOLINE_eq]
    exact Nat.mul_left_inj (by decide)
  refine ⟨?_, ?_, ?_, ?_, ?_⟩
  · intro v
    rw [PGROUNDUP_eq h.size, Nat.mul_lt_mul_right (by decide), htf, htr]
    by_cases hv : v < NPAGES
    · rw [lookup_of_lt hv, translate_isSome]
      rcases h.leaf_iff hv with ⟨hleaf, hcases⟩ | ⟨hno, hlo, hhi⟩
      · exact ⟨fun _ ↦ hcases, fun _ ↦ hleaf.1⟩
      · exact ⟨fun hyes ↦ absurd hyes hno, by omega⟩
    · have hsize := h.size
      rw [lookup_beyond (by omega)]
      exact ⟨(fun he ↦ nomatch he), by omega⟩
  · intro v page flags hl
    obtain ⟨hv, hvalid, -, rfl⟩ := lookup_some hl
    rcases h.leaf_iff hv with ⟨hleaf, -⟩ | ⟨hno, -⟩
    · exact hleaf.perms
    · exact absurd hvalid hno
  · intro v page flags hl hv
    rw [htf, htr] at hv
    rcases hv with rfl | rfl
    · rw [h.lookup_trapframe hframe] at hl
      cases hl
      rfl
    · rw [h.lookup_trampoline] at hl
      cases hl
      rfl
  · exact h.lookup_trapframe hframe
  · exact h.lookup_trampoline

end

/-! ### Places -/

/-- Who has the page in a place: the free list, a process, a pipe or the kernel. -/
inductive Owner where
  | free
  | proc (p : Slot)
  | pipe
  | boot

def Place.owner : Place → Owner
  | .free => .free
  | .table p => .proc p
  | .user p _ => .proc p
  | .trapframe p => .proc p
  | .pipe => .pipe
  | .boot => .boot

/-- How often an owner has the page. -/
def State.has (s : State) (q : Nat) : Owner → Nat
  | .free => s.mem.free.count q
  | .proc p => (s.procs p).owns s.mem.cells q
  | .pipe => s.openPipes q
  | .boot => s.early.count q

theorem has_le (s : State) (q : Nat) (o : Owner) : s.has q o ≤ s.mem.free.count q + s.owned q := by
  cases o with
  | proc p =>
    have hle := owns_le s p q
    rw [State.has]
    omega
  | _ =>
    simp only [State.has, State.owned, Pi.add_apply]
    omega

/-- Two owners have different shares of the total. -/
theorem has_add_le (s : State) (q : Nat) {o o' : Owner} (hne : o ≠ o') :
    s.has q o + s.has q o' ≤ s.mem.free.count q + s.owned q := by
  have hsum : ∀ p, (s.procs p).owns s.mem.cells q ≤ ∑ p, (s.procs p).owns s.mem.cells q :=
    le_sum (fun p ↦ (s.procs p).owns s.mem.cells q)
  cases o with
  | proc p =>
    have hp := hsum p
    cases o' with
    | proc p' =>
      have hpair := owns_add_le s (fun he : p' = p ↦ hne (by rw [he])) q
      simp only [Pi.add_apply] at hpair
      simp only [State.has]
      omega
    | _ =>
      simp only [State.has, State.owned, Pi.add_apply, Finset.sum_apply]
      omega
  | free =>
    have hle := has_le { s with mem := { s.mem with free := [] } } q o'
    cases o' with
    | free => exact absurd rfl hne
    | _ =>
      simp only [State.has, List.count_nil] at hle ⊢
      exact Nat.add_le_add_left (Nat.le_trans hle (Nat.le_of_eq (Nat.zero_add _))) _
  | pipe =>
    cases o' with
    | pipe => exact absurd rfl hne
    | proc p =>
      have hp := hsum p
      simp only [State.has, State.owned, Pi.add_apply, Finset.sum_apply]
      omega
    | _ =>
      simp only [State.has, State.owned, Pi.add_apply]
      omega
  | boot =>
    cases o' with
    | boot => exact absurd rfl hne
    | proc p =>
      have hp := hsum p
      simp only [State.has, State.owned, Pi.add_apply, Finset.sum_apply]
      omega
    | _ =>
      simp only [State.has, State.owned, Pi.add_apply]
      omega

/-- A page has one owner. -/
theorem MemOk.owner_unique (h : MemOk k s) {o o' : Owner} (ho : 0 < s.has q o)
    (ho' : 0 < s.has q o') :
    o = o' := by
  by_contra hne
  have hle := has_add_le s q hne
  have hone := List.nodup_iff_count_le_one.mp (kinit_nodup k) q
  rw [h.total] at hle
  omega

theorem hold_apply (c : Ram) (pr : Proc) (q : Nat) :
    pr.hold c q = tables c 2 pr.pagetable q + users c pr.pagetable 0 (pages pr.sz) q +
      one pr.trapframe q := rfl

/-- The user pages of a process are those of `[0, sz)`. -/
theorem at_user_iff (h : MemOk k s) {v : Nat} : s.At q (.user p v) ↔
    (s.procs p).Live ∧ v < pages (s.procs p).sz ∧
    PTE2PA (entry s.mem.cells 2 (s.procs p).pagetable v) = q := by
  constructor
  · rintro ⟨hlive, htop, flags, hl⟩
    have hlay := h.layout p hlive
    obtain ⟨hv, hvalid, hpage, -⟩ := lookup_some hl
    rw [TRAPFRAME_eq, Nat.mul_lt_mul_right (by decide)] at htop
    rcases hlay.leaf_iff hv with ⟨-, hcases⟩ | ⟨hno, -⟩
    · exact ⟨hlive, by omega, hpage⟩
    · exact absurd hvalid hno
  · rintro ⟨hlive, hv, hpage⟩
    have hlay := h.layout p hlive
    have hN : NPAGES = TOP + 2 := rfl
    have hsize := hlay.size
    refine ⟨hlive, ?_, PTE_FLAGS (entry s.mem.cells 2 (s.procs p).pagetable v), ?_⟩
    · rw [TRAPFRAME_eq, Nat.mul_lt_mul_right (by decide)]
      omega
    · rw [lookup_of_lt (by omega), translate, if_pos (hlay.leaf v hv).1, hpage]

/-- A page in a place is a page of its owner. -/
theorem has_of_at (h : MemOk k s) {l : Place} (hl : s.At q l) : 0 < s.has q l.owner := by
  cases l with
  | free => exact List.count_pos_iff.mpr hl
  | table p =>
    obtain ⟨hlive, hpos⟩ := hl
    rw [Place.owner, State.has, Proc.owns_live hlive, hold_apply]
    omega
  | user p v =>
    obtain ⟨hlive, hv, hpage⟩ := (at_user_iff h).mp hl
    have hpos := users_pos s.mem.cells (s.procs p).pagetable hv
    rw [hpage] at hpos
    rw [Place.owner, State.has, Proc.owns_live hlive, hold_apply]
    omega
  | trapframe p =>
    obtain ⟨hlive, rfl⟩ := hl
    rw [Place.owner, State.has, Proc.owns_live hlive, hold_apply, one_self]
    omega
  | pipe =>
    have hopen : (s.pipes q).readopen = true ∨ (s.pipes q).writeopen = true := hl
    rw [Place.owner, State.has, State.openPipes, if_pos hopen]
    exact Nat.one_pos
  | boot => exact List.count_pos_iff.mpr hl

/-- The pages of a process are in its table, are user pages, or are its trapframe, and not two of
these. -/
theorem MemOk.parts (h : MemOk k s) (hlive : (s.procs p).Live) (q : Nat) :
    tables s.mem.cells 2 (s.procs p).pagetable q +
      users s.mem.cells (s.procs p).pagetable 0 (pages (s.procs p).sz) q + one
      (s.procs p).trapframe q ≤ 1 := by
  have hone := (h.shape hlive).sound.once q
  rw [hold_apply] at hone
  omega

theorem at_unique_table (h : MemOk k s) {l : Place} (hl : s.At q (.table p)) (hl' : s.At q l)
    (ho : l.owner = .proc p) : l = .table p := by
  obtain ⟨hlive, hpos⟩ := hl
  have hparts := h.parts hlive q
  cases l with
  | table p' =>
    cases ho
    rfl
  | user p' v =>
    cases ho
    obtain ⟨-, hv, hpage⟩ := (at_user_iff h).mp hl'
    have husers := users_pos s.mem.cells (s.procs p).pagetable hv
    rw [hpage] at husers
    omega
  | trapframe p' =>
    cases ho
    obtain ⟨-, rfl⟩ := hl'
    rw [one_self] at hparts
    omega
  | _ => cases ho

theorem at_unique_user (h : MemOk k s) {l : Place} {v : Nat} (hl : s.At q (.user p v))
    (hl' : s.At q l) (ho : l.owner = .proc p) : l = .user p v := by
  obtain ⟨hlive, hv, hpage⟩ := (at_user_iff h).mp hl
  have hparts := h.parts hlive q
  have husers := users_pos s.mem.cells (s.procs p).pagetable hv
  rw [hpage] at husers
  cases l with
  | table p' =>
    cases ho
    have hpos : 0 < tables s.mem.cells 2 (s.procs p).pagetable q := hl'.2
    omega
  | user p' v' =>
    cases ho
    obtain ⟨-, hv', hpage'⟩ := (at_user_iff h).mp hl'
    rw [users_inj (h.shape hlive).sound.left hv' hv (hpage'.trans hpage.symm)]
  | trapframe p' =>
    cases ho
    obtain ⟨-, rfl⟩ := hl'
    rw [one_self] at hparts
    omega
  | _ => cases ho

/-- A page is in one place. -/
theorem MemOk.at_unique (h : MemOk k s) {l l' : Place} (hl : s.At q l) (hl' : s.At q l') :
    l' = l := by
  have ho : l'.owner = l.owner := h.owner_unique (has_of_at h hl') (has_of_at h hl)
  cases l with
  | table p => exact at_unique_table h hl hl' ho
  | user p v => exact at_unique_user h hl hl' ho
  | trapframe p =>
    cases l' with
    | table p' => exact (at_unique_table h hl' hl ho.symm).symm
    | user p' v => exact (at_unique_user h hl' hl ho.symm).symm
    | trapframe p' =>
      cases ho
      rfl
    | _ => cases ho
  | free =>
    cases l' with
    | free => rfl
    | _ => cases ho
  | pipe =>
    cases l' with
    | pipe => rfl
    | _ => cases ho
  | boot =>
    cases l' with
    | boot => rfl
    | _ => cases ho

/-- A page that an owner has is in some place. -/
theorem MemOk.at_of_has (h : MemOk k s) {o : Owner} (ho : 0 < s.has q o) : ∃ l, s.At q l := by
  cases o with
  | free => exact ⟨.free, List.count_pos_iff.mp ho⟩
  | proc p =>
    rw [State.has] at ho
    by_cases hlive : (s.procs p).Live
    · rw [Proc.owns_live hlive, hold_apply] at ho
      by_cases htable : 0 < tables s.mem.cells 2 (s.procs p).pagetable q
      · exact ⟨.table p, hlive, htable⟩
      · by_cases huser : 0 < users s.mem.cells (s.procs p).pagetable 0 (pages (s.procs p).sz) q
        · obtain ⟨v, hv, hpage⟩ := List.mem_map.mp (List.count_pos_iff.mp huser)
          have hlt := List.mem_range'_1.mp hv
          exact ⟨.user p v, (at_user_iff h).mpr ⟨hlive, by omega, hpage⟩⟩
        · have htf : 0 < one (s.procs p).trapframe q := by omega
          refine ⟨.trapframe p, hlive, ?_⟩
          by_contra hne
          rw [one_of_ne (Ne.symm hne)] at htf
          exact absurd htf (Nat.lt_irrefl 0)
    · rw [Proc.owns, if_neg hlive] at ho
      exact absurd ho (Nat.lt_irrefl 0)
  | pipe =>
    refine ⟨.pipe, ?_⟩
    rw [State.has, State.openPipes] at ho
    split at ho
    · next hopen => exact hopen
    · exact absurd ho (Nat.lt_irrefl 0)
  | boot => exact ⟨.boot, List.count_pos_iff.mp ho⟩

/-- A page of the total has an owner. -/
theorem exists_owner (h : 0 < s.mem.free.count q + s.owned q) : ∃ o, 0 < s.has q o := by
  simp only [State.owned, Pi.add_apply, Finset.sum_apply] at h
  by_cases hfree : 0 < s.mem.free.count q
  · exact ⟨.free, hfree⟩
  · by_cases hpipe : 0 < s.openPipes q
    · exact ⟨.pipe, hpipe⟩
    · by_cases hboot : 0 < s.early.count q
      · exact ⟨.boot, hboot⟩
      · have hsum : ∑ p, (s.procs p).owns s.mem.cells q ≠ 0 := by omega
        obtain ⟨p, -, hp⟩ := Finset.exists_ne_zero_of_sum_ne_zero hsum
        exact ⟨.proc p, Nat.pos_of_ne_zero hp⟩

theorem MemOk.placed (h : MemOk k s) : Placed k s := by
  refine ⟨?_, ?_, ?_, ?_⟩
  · intro q hq
    have hpos : 0 < s.mem.free.count q + s.owned q := by
      rw [h.total]
      exact List.count_pos_iff.mpr hq
    obtain ⟨o, ho⟩ := exists_owner hpos
    obtain ⟨l, hl⟩ := h.at_of_has ho
    exact ⟨l, hl, fun l' hl' ↦ h.at_unique hl hl'⟩
  · intro q l hl
    have hpos := has_of_at h hl
    have hle := has_le s q l.owner
    rw [h.total] at hle
    exact List.count_pos_iff.mp (Nat.lt_of_lt_of_le hpos hle)
  · rw [List.nodup_iff_count_le_one]
    intro q
    have hone := h.sound.once q
    omega
  · intro p hlive q
    have hparts := h.parts hlive q
    omega

/-! ### Runs -/

/-- With the same owners there are as many free pages. -/
theorem Inv.kfreemem (h : Inv k early s 0) (h' : Inv k early s' 0) (howned : s'.owned = s.owned) :
    kfreemem s'.mem = kfreemem s.mem := by
  have hperm : s'.mem.free.Perm s.mem.free := by
    rw [List.perm_iff_count]
    intro q
    have htotal := h.mem.total q
    have htotal' := h'.mem.total q
    rw [howned] at htotal'
    omega
  rw [Vm.kfreemem, Vm.kfreemem, hperm.length_eq]

theorem Inv.run {cs : List Call} (h : Inv k early s 0) (hc : ∀ c ∈ cs, c.Typed)
    (hrun : Lib.run (Vm.step k) s cs = some s') : Inv k early s' 0 := by
  refine run_invariant_along (P := fun t ↦ Inv k early t 0) ?_ h (Along.of_forall hc s) hrun
  intro t c t' ht hc ht'
  exact ht.step hc ht'

theorem Inv.conserves (h : Inv k early s 0) : Conserves k s := by
  intro cs s' hc hrun p hp hp' hothers hpipes
  have h' := h.run hc hrun
  apply h.kfreemem h'
  have howns : ∀ o, (s'.procs o).owns s'.mem.cells = (s.procs o).owns s.mem.cells := by
    intro o
    by_cases ho : o = p
    · rw [ho, Proc.owns_unused hp, Proc.owns_unused hp']
    · exact hothers o ho
  simp only [State.owned, howns, hpipes, h.boot, h'.boot]

theorem Inv.callsReturn (h : Inv k early s 0) : CallsReturn k s := by
  intro c hc he
  obtain ⟨s', hs', -⟩ := h.perform hc he
  exact ⟨s', hs'⟩

/-- What holds in every state of the invariant holds throughout every run from boot on. -/
theorem always_of_inv {n : Nat} {P : State → Prop} (hn : 7 ≤ (beforeUserinit k n).mem.free.length)
    (hP : ∀ s, Inv k ((kinit k).take n) s 0 → P s) :
    ∃ s₀, userinit k (beforeUserinit k n) = .ok s₀ ∧
      ∀ cs, (∀ c ∈ cs, c.Typed) → Always (step k) P s₀ cs := by
  obtain ⟨s₀, hs₀, hinv⟩ := Inv.userinit hn
  refine ⟨s₀, hs₀, ?_⟩
  intro cs hc
  apply Along.always hP _ hinv (Along.of_forall hc s₀)
  intro t c t' ht hc ht'
  exact ht.step hc ht'

end

/-- After `userinit`, which needs seven pages, each page that `kinit` freed is in one place in every
state between system calls, whichever allocations fail; no call panics, and what a process took
comes back when it is gone. -/
theorem pages_in_one_place {k : Kernel} {n : Nat} (hn : 7 ≤ (beforeUserinit k n).mem.free.length) :
    ∃ s₀, userinit k (beforeUserinit k n) = .ok s₀ ∧ ∀ cs, (∀ c ∈ cs, c.Typed) →
      Always (step k)
      (fun s ↦ Placed k s ∧ s.early = (kinit k).take n ∧ CallsReturn k s ∧ Conserves k s)
        s₀ cs := by
  apply always_of_inv hn
  intro s h
  exact ⟨h.mem.placed, h.boot, h.callsReturn, h.conserves⟩

theorem builtKernel_length : 7 ≤ (beforeUserinit builtKernel 0).mem.free.length := by
  rw [beforeUserinit_length]
  decide +kernel

/-- The built kernel, in a run in which `fork` fails. -/
theorem pages_in_one_place_built :
    ∃ s₀, userinit builtKernel (beforeUserinit builtKernel 0) = .ok s₀ ∧
    Always (step builtKernel) (fun s ↦ Placed builtKernel s ∧ s.early = (kinit builtKernel).take 0 ∧
      CallsReturn builtKernel s ∧ Conserves builtKernel s)
      s₀ [.sbrk initSlot (-4096) [], .fork initSlot [false, true], .pipe initSlot 0 []] := by
  obtain ⟨s₀, hs₀, hruns⟩ := pages_in_one_place builtKernel_length
  refine ⟨s₀, hs₀, hruns _ ?_⟩
  simp [Call.Typed]

/-- In every state between system calls the page table of each process maps the pages of
`[0, PGROUNDUP(sz))`, the trapframe and the trampoline, the last two not for the user, and no call
panics. -/
theorem address_spaces_have_shape {k : Kernel} {n : Nat}
    (hn : 7 ≤ (beforeUserinit k n).mem.free.length) :
    ∃ s₀, userinit k (beforeUserinit k n) = .ok s₀ ∧ ∀ cs, (∀ c ∈ cs, c.Typed) →
      Always (step k) (fun s ↦ (∀ p, (s.procs p).Live → AddressSpace k s.mem (s.procs p)) ∧
        CallsReturn k s) s₀ cs := by
  apply always_of_inv hn
  intro s h
  refine ⟨?_, h.callsReturn⟩
  intro p hlive
  have hframe := (h.mem.shape hlive).trapframe_lt
  exact (h.mem.layout p hlive).addressSpace (Nat.lt_trans hframe (by decide))

/-- The built kernel, in a run in which `fork` fails. -/
theorem address_spaces_have_shape_built :
    ∃ s₀, userinit builtKernel (beforeUserinit builtKernel 0) = .ok s₀ ∧
      Always (step builtKernel) (fun s ↦
        (∀ p, (s.procs p).Live → AddressSpace builtKernel s.mem (s.procs p)) ∧
        CallsReturn builtKernel s)
        s₀ [.sbrk initSlot 5000 [], .fork initSlot [false, true], .sbrk initSlot (-4096) []] := by
  obtain ⟨s₀, hs₀, hruns⟩ := address_spaces_have_shape builtKernel_length
  refine ⟨s₀, hs₀, hruns _ ?_⟩
  simp [Call.Typed]

end Xv6.Vm
