import Mathlib.Logic.Function.Iterate
import Xv6.Lib.Run
import Xv6.Malloc.Calls

/-!
# `malloc` hands out disjoint memory

Programs that call `malloc` and `free` in any order and write in their blocks. As long as `morecore`
asks `sbrk` for less than 2 GiB, every live block is in memory from `sbrk`, is large enough, and
shares no byte with another live block, a header or a free block. A larger request does not fit into
the `int` that `sbrk` takes.
-/

namespace Xv6.Malloc

open Lib

/-- The blocks on the list: what `freep` leads to. -/
def OnList (s : Heap) (a : Nat) : Prop := s.freep ≠ 0 ∧ ∃ k, s.ptr^[k] s.freep = a

/-- Every live block has its bytes for itself, in memory that comes from `sbrk`. -/
structure Sane (lo : Nat) (s : State) : Prop where
  inside : ∀ q n, s.live q = some n → lo ≤ q ∧ q + n ≤ s.brk
  apart : ∀ q q' n n', s.live q = some n → s.live q' = some n' → q ≠ q' →
    ∀ x, q ≤ x → x < q + n → ¬ (q' ≤ x ∧ x < q' + n')
  headers : ∀ q q' n n', s.live q = some n → s.live q' = some n' →
    ∀ x, q ≤ x → x < q + n → ¬ (q' ≤ x + HDR ∧ x < q')
  free : ∀ q n a, s.live q = some n → OnList s.toHeap a →
    ∀ x, q ≤ x → x < q + n → ¬ (a ≤ x ∧ x < a + s.extent a)

/-- The request needs no more than `sbrk` can take, or there is a block for it, or `sbrk` fails. -/
def Allowed (s : State) : Act → Prop
  | .malloc nbytes ok _ => nbytes ≤ 2 ^ 31 - 32 ∨
      (∃ a, OnList s.toHeap a ∧ Heap.units nbytes ≤ s.size a) ∨ ok = false
  | _ => True

/-- The calls return: there is a number of rounds that is enough. -/
structure CallsReturn (base : Nat) (s : State) : Prop where
  malloc : ∀ nbytes ok, nbytes < 2 ^ 32 → Allowed s (.malloc nbytes ok 0) →
    ∃ fuel₀, ∀ fuel, fuel₀ ≤ fuel → (s.step base (.malloc nbytes ok fuel)).isSome = true
  free : ∀ q n, s.live q = some n →
    ∃ fuel₀, ∀ fuel, fuel₀ ≤ fuel → (s.step base (.free q fuel)).isSome = true

/-! ### The invariant -/

/-- A byte of the block at `q`, its header included. -/
def BlockByte (q n x : Nat) : Prop := q ≤ x + HDR ∧ x + HDR < q + HDR * Heap.units n

/-- The live blocks, apart from each other and from the free ones. -/
structure Blocks (lo : Nat) (s : State) (nodes : List Nat) : Prop where
  low : ∀ q n, s.live q = some n → lo + HDR ≤ q
  high : ∀ q n, s.live q = some n → q + HDR * Heap.units n ≤ s.brk + HDR
  small : ∀ q n, s.live q = some n → n < 2 ^ 32
  size : ∀ q n, s.live q = some n → s.size (q - HDR) = Heap.units n
  notFree : ∀ q n, s.live q = some n → ∀ x, BlockByte q n x → ¬ FreeByte s.toHeap nodes x
  apart : ∀ q q' n n', s.live q = some n → s.live q' = some n' → q ≠ q' →
    ∀ x, BlockByte q n x → ¬ BlockByte q' n' x

/-- The list is well formed once it exists; before that there are no blocks. -/
structure Inv (base lo : Nat) (s : State) : Prop where
  room : lo ≤ s.brk
  fresh : s.freep = 0 → ∀ q, s.live q = none
  list : s.freep ≠ 0 → ∃ nodes, FreeList base lo s.toHeap nodes ∧ Blocks lo s nodes

section
variable {base lo : Nat} {s t : State} {nodes : List Nat}

/-- The units of a request hold it, behind a header. -/
theorem units_bound {n : Nat} (hn : n < 2 ^ 32) :
    1 ≤ Heap.units n ∧ n + HDR ≤ HDR * Heap.units n ∧
      (n ≤ 2 ^ 31 - 32 → Heap.units n * HDR < 2 ^ 31) := by
  unfold Heap.units HDR
  omega

theorem mem_of_onList (h : FreeList base lo s.toHeap nodes) {a : Nat} (ha : OnList s.toHeap a) :
    a ∈ base :: nodes := by
  obtain ⟨-, k, rfl⟩ := ha
  induction k with
  | zero => exact h.freep
  | succ k ih =>
    rw [Function.iterate_succ_apply']
    rcases h.circle.succ_cases ih with ⟨-, hend⟩ | ⟨m, m', heq⟩
    · rw [hend]
      exact List.mem_cons_self
    · rw [heq]
      exact List.mem_append_right _ (List.mem_cons_of_mem _ List.mem_cons_self)

/-- The bytes that the program may use are bytes of the block. -/
theorem Blocks.user (h : Blocks lo s nodes) {q n x : Nat} (hq : s.live q = some n) (hx : q ≤ x)
    (hx' : x < q + n) : BlockByte q n x := by
  have hunits := (units_bound (h.small q n hq)).2.1
  unfold BlockByte
  omega

theorem Inv.blocks (h : Inv base lo s) {q n : Nat} (hq : s.live q = some n) :
    ∃ nodes, FreeList base lo s.toHeap nodes ∧ Blocks lo s nodes := by
  apply h.list
  intro hzero
  rw [h.fresh hzero q] at hq
  cases hq

theorem Inv.sane (h : Inv base lo s) (hbase : base + HDR ≤ lo) : Sane lo s := by
  refine ⟨?_, ?_, ?_, ?_⟩
  · intro q n hq
    obtain ⟨nodes, -, hb⟩ := h.blocks hq
    have h₁ := hb.low q n hq
    have h₂ := hb.high q n hq
    have h₃ := (units_bound (hb.small q n hq)).2.1
    omega
  · intro q q' n n' hq hq' hne x hx hx' hin
    obtain ⟨nodes, -, hb⟩ := h.blocks hq
    exact hb.apart q q' n n' hq hq' hne x (hb.user hq hx hx') (hb.user hq' hin.1 hin.2)
  · intro q q' n n' hq hq' x hx hx' hin
    obtain ⟨nodes, -, hb⟩ := h.blocks hq
    have hunits := (units_bound (hb.small q' n' hq')).2.1
    by_cases hne : q = q'
    · omega
    · refine hb.apart q q' n n' hq hq' hne x (hb.user hq hx hx') ⟨hin.1, ?_⟩
      omega
  · intro q n a hq ha x hx hx' hin
    obtain ⟨nodes, hl, hb⟩ := h.blocks hq
    rcases List.mem_cons.mp (mem_of_onList hl ha) with rfl | hmem
    · have h₁ := hb.low q n hq
      have h₂ := hin.2
      have hext : s.extent a = HDR := by
        unfold Heap.extent
        rw [hl.sentinel]
        rfl
      omega
    · exact hb.notFree q n hq x (hb.user hq hx hx') ⟨a, hmem, hin⟩

/-! ### Calls -/

/-- After the first lines of `malloc` there is a list. -/
theorem Inv.init (h : Inv base lo s) :
    ∃ nodes, FreeList base lo (s.toHeap.init base) nodes ∧
      Blocks lo { s with toHeap := s.toHeap.init base } nodes ∧ (s.toHeap.init base).brk = s.brk ∧
      ∀ a, OnList s.toHeap a → 1 ≤ s.size a → a ∈ nodes ∧
      (s.toHeap.init base).size a = s.size a := by
  by_cases hzero : s.freep = 0
  · have hlive := h.fresh hzero
    have hnone {q n : Nat} (hq : s.live q = some n) : False := by
      rw [hlive q] at hq
      cases hq
    unfold Heap.init
    rw [if_pos hzero]
    refine ⟨[], ⟨Function.update_self _ _ _, Function.update_self _ _ _, List.Pairwise.nil,
      (fun _ ha ↦ nomatch ha), (fun _ ha ↦ nomatch ha), List.mem_cons_self⟩, ?_, rfl, ?_⟩
    · exact ⟨fun _ _ hq ↦ (hnone hq).elim, fun _ _ hq ↦ (hnone hq).elim,
        fun _ _ hq ↦ (hnone hq).elim, fun _ _ hq ↦ (hnone hq).elim, fun _ _ hq ↦ (hnone hq).elim,
        fun _ _ _ _ hq ↦ (hnone hq).elim⟩
    · exact fun a ha ↦ (ha.1 hzero).elim
  · obtain ⟨nodes, hl, hb⟩ := h.list hzero
    unfold Heap.init
    rw [if_neg hzero]
    refine ⟨nodes, hl, hb, rfl, ?_⟩
    intro a ha hsize
    refine ⟨(List.mem_cons.mp (mem_of_onList hl ha)).resolve_left ?_, rfl⟩
    rintro rfl
    rw [hl.sentinel] at hsize
    omega

theorem FreeList.freep_ne {s : Heap} (h : FreeList base lo s nodes) (hbase : 0 < base)
    (hlo : base + HDR ≤ lo) : s.freep ≠ 0 := by
  intro hzero
  rcases List.mem_cons.mp h.freep with heq | hmem
  · omega
  · have := h.low _ hmem
    omega

/-- A new block beside the live ones. -/
theorem Blocks.insert {u : Heap} {nodes' : List Nat} {hd n : Nat} (h : Blocks lo s nodes)
    (hgot : Got base lo (Heap.units n) hd s.toHeap u nodes nodes') (hn : n < 2 ^ 32) :
    Blocks lo { toHeap := u, live := Function.update s.live (hd + HDR) (some n) } nodes' := by
  have hg := hgot.grown
  have hpos := (units_bound hn).1
  have hbelow {q m x : Nat} (hq : s.live q = some m) (hx : BlockByte q m x) :
      x < s.brk ∧ ¬ FreeByte s.toHeap nodes x := by
    refine ⟨?_, h.notFree q m hq x hx⟩
    have h₁ := h.high q m hq
    have h₂ := hx.2
    omega
  -- the new block has none of the bytes of the old ones
  have hnew {q m x : Nat} (hq : s.live q = some m) (hx : BlockByte q m x) :
      ¬ BlockByte (hd + HDR) n x := by
    intro hin
    obtain ⟨hlt, hnot⟩ := hbelow hq hx
    rcases (hgot.bytes x (by have := hin.1; omega) (by have := hin.2; omega)).1 with hf | hge
    · exact hnot hf
    · omega
  have hcases {q m : Nat} (hq : Function.update s.live (hd + HDR) (some n) q = some m) :
      (q = hd + HDR ∧ m = n) ∨ (q ≠ hd + HDR ∧ s.live q = some m) := by
    by_cases heq : q = hd + HDR
    · rw [heq, Function.update_self] at hq
      exact Or.inl ⟨heq, (Option.some.inj hq).symm⟩
    · rw [Function.update_of_ne heq] at hq
      exact Or.inr ⟨heq, hq⟩
  refine ⟨?_, ?_, ?_, ?_, ?_, ?_⟩
  · intro q m hq
    rcases hcases hq with ⟨rfl, rfl⟩ | ⟨-, hq⟩
    · have := hgot.inside.1
      omega
    · exact h.low q m hq
  · intro q m hq
    change q + HDR * Heap.units m ≤ u.brk + HDR
    rcases hcases hq with ⟨rfl, rfl⟩ | ⟨-, hq⟩
    · have := hgot.inside.2
      omega
    · have h₁ := h.high q m hq
      have h₂ := hg.brk
      omega
  · intro q m hq
    rcases hcases hq with ⟨rfl, rfl⟩ | ⟨-, hq⟩
    · exact hn
    · exact h.small q m hq
  · intro q m hq
    change u.size (q - HDR) = Heap.units m
    rcases hcases hq with ⟨rfl, rfl⟩ | ⟨-, hq⟩
    · rw [Nat.add_sub_cancel]
      exact hgot.size
    · have hlow := h.low q m hq
      have hunits := (units_bound (h.small q m hq)).2.1
      have hhead : BlockByte q m (q - HDR) := by
        unfold BlockByte
        unfold HDR at hunits hlow ⊢
        omega
      obtain ⟨hlt, hnot⟩ := hbelow hq hhead
      rw [hg.size _ hlt hnot]
      exact h.size q m hq
  · intro q m hq x hx hfree
    rcases hcases hq with ⟨rfl, rfl⟩ | ⟨-, hq⟩
    · exact (hgot.bytes x (by have := hx.1; omega) (by have := hx.2; omega)).2 hfree
    · obtain ⟨hlt, hnot⟩ := hbelow hq hx
      rcases hg.bytes x hfree with hf | hge
      · exact hnot hf
      · omega
  · intro q q' m m' hq hq' hne x hx hx'
    rcases hcases hq with ⟨hself, hsize⟩ | ⟨-, hold⟩
    · rcases hcases hq' with ⟨hself', -⟩ | ⟨-, hold'⟩
      · exact hne (hself.trans hself'.symm)
      · rw [hself, hsize] at hx
        exact hnew hold' hx' hx
    · rcases hcases hq' with ⟨hself', hsize'⟩ | ⟨-, hold'⟩
      · rw [hself', hsize'] at hx'
        exact hnew hold hx hx'
      · exact h.apart q q' m m' hold hold' hne x hx hx'

/-- `malloc` returns, and the invariant holds afterwards. -/
theorem malloc_spec (h : Inv base lo s) (hbase : 0 < base) (hheap : base + HDR ≤ lo) {nbytes : Nat}
    {ok : Bool} (hn : nbytes < 2 ^ 32) (hok : Allowed s (.malloc nbytes ok 0)) :
    ∃ t fuel₀, Inv base lo t ∧
      ∀ fuel, fuel₀ ≤ fuel → s.step base (.malloc nbytes ok fuel) = some t := by
  obtain ⟨nodes, hl, hb, hbrk, hon⟩ := h.init
  obtain ⟨hpos, -, hsmall⟩ := units_bound hn
  have hlo : lo ≤ (s.toHeap.init base).brk := by
    rw [hbrk]
    exact h.room
  have hroom : Heap.units nbytes * HDR < 2 ^ 31 ∨
      (∃ a ∈ nodes, Heap.units nbytes ≤ (s.toHeap.init base).size a) ∨ ok = false := by
    rcases hok with hle | ⟨a, ha, hsize⟩ | hfail
    · exact Or.inl (hsmall hle)
    · obtain ⟨hmem, heq⟩ := hon a ha (by omega)
      exact Or.inr (Or.inl ⟨a, hmem, by rw [heq]; exact hsize⟩)
    · exact Or.inr (Or.inr hfail)
  obtain ⟨r, fuel₀, hr, hloop⟩ := mallocLoop_spec hl hheap hlo hpos hroom
  have hstep (fuel : Nat) (hfuel : fuel₀ ≤ fuel) : s.step base (.malloc nbytes ok fuel) =
      some { toHeap := r.2
             live := if r.1 = 0 then s.live else Function.update s.live r.1 (some nbytes) } := by
    rw [State.step, if_pos hn, Heap.malloc]
    dsimp only
    rw [hloop fuel hfuel]
    rfl
  refine ⟨_, fuel₀, ?_, hstep⟩
  rcases hr with rfl | ⟨hd, nodes', hfst, hgot⟩
  · rw [if_pos rfl]
    exact ⟨hlo, fun hzero ↦ (hl.freep_ne hbase hheap hzero).elim, fun _ ↦ ⟨nodes, hl, hb⟩⟩
  · have hne : r.1 ≠ 0 := by
      unfold HDR at hfst
      omega
    rw [if_neg hne, hfst]
    have hg := hgot.grown
    refine ⟨Nat.le_trans hlo hg.brk, fun hzero ↦ (hg.list.freep_ne hbase hheap hzero).elim,
      fun _ ↦ ⟨nodes', hg.list, ?_⟩⟩
    exact hb.insert hgot hn

/-- `free` of a live block returns, and the invariant holds afterwards. -/
theorem free_call_spec (h : Inv base lo s) (hbase : 0 < base) (hheap : base + HDR ≤ lo) {q n : Nat}
    (hq : s.live q = some n) :
    ∃ t fuel₀, Inv base lo t ∧ ∀ fuel, fuel₀ ≤ fuel → s.step base (.free q fuel) = some t := by
  obtain ⟨nodes, hl, hb⟩ := h.blocks hq
  obtain ⟨hpos, hunits, -⟩ := units_bound (hb.small q n hq)
  have hlow := hb.low q n hq
  have hhigh := hb.high q n hq
  obtain ⟨hd, rfl⟩ : ∃ hd, q = hd + HDR := ⟨q - HDR, by omega⟩
  have hsize : s.size hd = Heap.units n := by
    have := hb.size _ n hq
    rw [Nat.add_sub_cancel] at this
    exact this
  have hbytes {x : Nat} : BlockByte (hd + HDR) n x ↔ hd ≤ x ∧ x < hd + HDR * Heap.units n := by
    unfold BlockByte
    omega
  obtain ⟨l₁, l₂, rfl, hfits⟩ := exists_fits hl hheap hsize hpos (by omega) (by omega)
    (fun x hx hx' ↦ hb.notFree _ n hq x (hbytes.mpr ⟨hx, hx'⟩))
  obtain ⟨t, nodes', hins, hfree⟩ := free_spec hl hheap hfits
  have hold {q' n' : Nat} (hq' : Function.update s.live (hd + HDR) none q' = some n') :
      q' ≠ hd + HDR ∧ s.live q' = some n' := by
    by_cases heq : q' = hd + HDR
    · rw [heq, Function.update_self] at hq'
      cases hq'
    · rw [Function.update_of_ne heq] at hq'
      exact ⟨heq, hq'⟩
  refine ⟨{ toHeap := t, live := Function.update s.live (hd + HDR) none }, (l₁ ++ l₂).length + 1,
    ⟨?_, ?_, fun _ ↦ ⟨nodes', hins.list, ?_, ?_, ?_, ?_, ?_, ?_⟩⟩, ?_⟩
  · change lo ≤ t.brk
    rw [hins.brk]
    exact h.room
  · exact fun hzero ↦ (hins.list.freep_ne hbase hheap hzero).elim
  · exact fun q' n' hq' ↦ hb.low q' n' (hold hq').2
  · intro q' n' hq'
    change q' + HDR * Heap.units n' ≤ t.brk + HDR
    rw [hins.brk]
    exact hb.high q' n' (hold hq').2
  · exact fun q' n' hq' ↦ hb.small q' n' (hold hq').2
  · intro q' n' hq'
    obtain ⟨hne, hq'⟩ := hold hq'
    have hlow' := hb.low q' n' hq'
    have hunits' := (units_bound (hb.small q' n' hq')).2.1
    have hhead : BlockByte q' n' (q' - HDR) := by
      unfold BlockByte
      unfold HDR at hunits' hlow' ⊢
      omega
    change t.size (q' - HDR) = _
    rw [hins.size]
    · exact hb.size q' n' hq'
    · omega
    · intro hmem
      exact hb.notFree q' n' hq' _ hhead (freeByte_head hmem (Nat.le_refl _) (by unfold HDR; omega))
  · intro q' n' hq' x hx hin
    obtain ⟨hne, hq'⟩ := hold hq'
    rcases hins.bytes x hin with hf | hin
    · exact hb.notFree q' n' hq' x hx hf
    · exact hb.apart q' _ n' n hq' hq hne x hx (hbytes.mpr hin)
  · intro q' q'' n' n'' hq' hq''
    exact hb.apart q' q'' n' n'' (hold hq').2 (hold hq'').2
  · intro fuel hfuel
    rw [State.step, if_pos (by rw [hq]; rfl), hfree fuel hfuel]
    rfl

/-- A write in a live block changes no header that is in use. -/
theorem store_inv (h : Inv base lo s) (hheap : base + HDR ≤ lo) {q x a ptr size : Nat}
    (ht : s.step base (.store q x a ptr size) = some t) : Inv base lo t := by
  rw [State.step] at ht
  split at ht
  · cases ht
  next n hq =>
  split at ht
  · next hx =>
    cases Option.some.inj ht
    obtain ⟨hqx, hxq, hax, hxa⟩ := hx
    obtain ⟨nodes, hl, hb⟩ := h.blocks hq
    have hin := hb.user hq hqx hxq
    have hlow := hb.low q n hq
    have hlist : ∀ b ∈ base :: nodes, b ≠ a := by
      rintro b hmem rfl
      rcases List.mem_cons.mp hmem with rfl | hmem
      · unfold HDR at *
        omega
      · exact hb.notFree q n hq x hin (freeByte_head hmem hax hxa)
    have hhead : ∀ q' n', s.live q' = some n' → q' - HDR ≠ a := by
      intro q' n' hq' heq
      have hlow' := hb.low q' n' hq'
      have hunits' := (units_bound (hb.small q' n' hq')).2.1
      by_cases hne : q' = q
      · omega
      · refine hb.apart q' q n' n hq' hq hne x ?_ hin
        unfold BlockByte
        unfold HDR at *
        omega
    have hptr : ∀ b ∈ base :: nodes, Function.update s.ptr a ptr b = s.ptr b :=
      fun b hmem ↦ Function.update_of_ne (hlist b hmem) _ _
    have hsize : ∀ b ∈ base :: nodes, Function.update s.size a size b = s.size b :=
      fun b hmem ↦ Function.update_of_ne (hlist b hmem) _ _
    have hext : ∀ b ∈ nodes, HDR * max 1 (Function.update s.size a size b) = s.extent b := by
      intro b hmem
      rw [hsize b (List.mem_cons_of_mem _ hmem)]
      rfl
    refine ⟨h.room, h.fresh, fun _ ↦ ⟨nodes, ⟨?_, ?_, ?_, hl.low, ?_, hl.freep⟩, hb.low, hb.high,
      hb.small, ?_, ?_, hb.apart⟩⟩
    · exact (hsize base List.mem_cons_self).trans hl.sentinel
    · exact hl.circle.congr hptr
    · apply hl.apart.imp_of_mem
      intro b c hmem _ hbc
      unfold Heap.extent
      rw [hext b hmem]
      exact hbc
    · intro b hmem
      unfold Heap.extent
      rw [hext b hmem]
      exact hl.high b hmem
    · intro q' n' hq'
      exact (Function.update_of_ne (hhead q' n' hq') _ _).trans (hb.size q' n' hq')
    · rintro q' n' hq' y hy ⟨b, hmem, hby, hyb⟩
      unfold Heap.extent at hyb
      rw [hext b hmem] at hyb
      exact hb.notFree q' n' hq' y hy ⟨b, hmem, hby, hyb⟩
  · cases ht

/-! ### Runs -/

theorem step_malloc_mono {nbytes : Nat} {ok : Bool} {fuel fuel' : Nat} (hle : fuel ≤ fuel')
    (ht : s.step base (.malloc nbytes ok fuel) = some t) :
    s.step base (.malloc nbytes ok fuel') = some t := by
  rw [State.step] at ht ⊢
  split at ht
  · next hn =>
    obtain ⟨r, hr, ht⟩ := Option.map_eq_some_iff.mp ht
    rw [if_pos hn, Option.map_eq_some_iff]
    exact ⟨r, mallocLoop_mono hle hr, ht⟩
  · cases ht

theorem step_free_mono {q fuel fuel' : Nat} (hle : fuel ≤ fuel')
    (ht : s.step base (.free q fuel) = some t) : s.step base (.free q fuel') = some t := by
  rw [State.step] at ht ⊢
  split at ht
  · next hq =>
    obtain ⟨r, hr, ht⟩ := Option.map_eq_some_iff.mp ht
    rw [if_pos hq, Option.map_eq_some_iff]
    exact ⟨r, free_mono hle hr, ht⟩
  · cases ht

/-- Each allowed step keeps the invariant, whatever the bound on its rounds is. -/
theorem step_inv (h : Inv base lo s) (hbase : 0 < base) (hheap : base + HDR ≤ lo) {a : Act}
    (hok : Allowed s a) (ht : s.step base a = some t) : Inv base lo t := by
  cases a with
  | malloc nbytes ok fuel =>
    have hn : nbytes < 2 ^ 32 := by
      by_contra hn
      rw [State.step, if_neg hn] at ht
      cases ht
    obtain ⟨u, fuel₀, hinv, hstep⟩ := malloc_spec h hbase hheap hn hok
    have hu := hstep (max fuel fuel₀) (Nat.le_max_right _ _)
    rw [step_malloc_mono (Nat.le_max_left _ _) ht] at hu
    cases Option.some.inj hu
    exact hinv
  | free q fuel =>
    cases hq : s.live q with
    | none =>
      rw [State.step, hq] at ht
      cases ht
    | some n =>
      obtain ⟨u, fuel₀, hinv, hstep⟩ := free_call_spec h hbase hheap hq
      have hu := hstep (max fuel fuel₀) (Nat.le_max_right _ _)
      rw [step_free_mono (Nat.le_max_left _ _) ht] at hu
      cases Option.some.inj hu
      exact hinv
  | store q x a ptr size => exact store_inv h hheap ht

theorem Inv.callsReturn (h : Inv base lo s) (hbase : 0 < base) (hheap : base + HDR ≤ lo) :
    CallsReturn base s := by
  refine ⟨?_, ?_⟩
  · intro nbytes ok hn hok
    obtain ⟨t, fuel₀, -, hstep⟩ := malloc_spec h hbase hheap hn hok
    exact ⟨fuel₀, fun fuel hfuel ↦ by rw [hstep fuel hfuel]; rfl⟩
  · intro q n hq
    obtain ⟨t, fuel₀, -, hstep⟩ := free_call_spec h hbase hheap hq
    exact ⟨fuel₀, fun fuel hfuel ↦ by rw [hstep fuel hfuel]; rfl⟩

theorem boot_inv : Inv base lo (State.boot lo) :=
  ⟨Nat.le_refl _, fun _ _ ↦ rfl, fun hne ↦ (hne rfl).elim⟩

/-- In every run whose requests are allowed, the live blocks are sane and the calls return. -/
theorem malloc_sane_always (base lo : Nat) (hbase : 0 < base) (hheap : base + HDR ≤ lo)
    (as : List Act) (hok : Along (State.step base) Allowed (State.boot lo) as) :
    Always (State.step base) (fun s ↦ Sane lo s ∧ CallsReturn base s) (State.boot lo) as :=
  Along.always (fun _ hs ↦ ⟨hs.sane hheap, hs.callsReturn hbase hheap⟩)
    (fun _ _ _ hs hok ht ↦ step_inv hs hbase hheap hok ht) boot_inv hok

end

/-- A program that asks for 100 bytes, writes in them, and frees them. -/
theorem malloc_sane_always_small :
    (run (State.step 4096) (State.boot 20480)
        [.malloc 100 true 3, .store 85904 85904 85904 7 7, .free 85904 3]).isSome = true ∧
      Along (State.step 4096) Allowed (State.boot 20480)
        [.malloc 100 true 3, .store 85904 85904 85904 7 7, .free 85904 3] ∧
      Always (State.step 4096) (fun s ↦ Sane 20480 s ∧ CallsReturn 4096 s) (State.boot 20480)
        [.malloc 100 true 3, .store 85904 85904 85904 7 7, .free 85904 3] := by
  have hok : Along (State.step 4096) Allowed (State.boot 20480)
      [.malloc 100 true 3, .store 85904 85904 85904 7 7, .free 85904 3] :=
    ⟨Or.inl (by decide), fun _ _ ↦ ⟨trivial, fun _ _ ↦ ⟨trivial, fun _ _ ↦ trivial⟩⟩⟩
  exact ⟨by decide +kernel, hok, malloc_sane_always 4096 20480 (by decide) (by decide) _ hok⟩

/-- `malloc(2^32 - 1)` asks `sbrk` for 16 bytes and returns a pointer to the end of the heap. -/
theorem malloc_not_sane_huge :
    ∃ t, (State.boot 20480).step 4096 (.malloc (2 ^ 32 - 1) true 3) = some t ∧
    t.live 20496 = some (2 ^ 32 - 1) ∧ t.brk = 20496 ∧ ¬ Sane 20480 t := by
  refine ⟨_, rfl, by decide +kernel, by decide +kernel, ?_⟩
  intro h
  have := (h.inside 20496 (2 ^ 32 - 1) (by decide +kernel)).2
  revert this
  decide +kernel

end Xv6.Malloc
