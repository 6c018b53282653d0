import Mathlib.Algebra.Order.BigOperators.Group.List
import Mathlib.Algebra.Order.Group.Nat
import Xv6.Lib.Spans
import Xv6.Malloc.Calls

/-!
# The free list as a set of bytes

The free blocks in the order of the list are intervals with gaps between them, as long as no size
exceeds its 32 bits. On them `free` is the insertion of an interval, which joins it with the blocks
it touches, and `malloc` cuts off the end of an interval.
-/

namespace Xv6.Malloc

open Lib

/-- The bytes of the block at `a`, from its header on. -/
def Heap.span (s : Heap) (a : Nat) : Nat × Nat := (a, a + HDR * s.size a)

/-- The circular list: `base`, whose size is 0, and behind it the free blocks in the order of their
addresses, none of them empty, and a gap behind each of them. -/
structure SortedRing (base : Nat) (s : Heap) (nodes : List Nat) : Prop where
  null : 0 < base
  sentinel : s.size base = 0
  circle : Path s.ptr base nodes base
  low : ∀ a ∈ nodes, base + HDR ≤ a
  size : ∀ a ∈ nodes, s.size a < 2 ^ 32
  spans : Separated (nodes.map s.span)
  freep : s.freep ∈ base :: nodes

/-- A block that is not free: it lies above `base` and overlaps no free block. -/
structure Allocated (base : Nat) (s : Heap) (nodes : List Nat) (bp : Nat) : Prop where
  low : base + HDR ≤ bp
  pos : 0 < s.size bp
  apart : ∀ a ∈ nodes, bp + HDR * s.size bp ≤ a ∨ a + HDR * s.size a ≤ bp

/-- The block at `bp` ends where the block at `a` begins, or the other way round. -/
def Touches (s : Heap) (bp a : Nat) : Prop := bp + HDR * s.size bp = a ∨ a + HDR * s.size a = bp

instance (s : Heap) (bp a : Nat) : Decidable (Touches s bp a) := inferInstanceAs (Decidable (_ ∨ _))

/-- The units of a block and of the free blocks that it touches. -/
def joined (s : Heap) (nodes : List Nat) (bp : Nat) : Nat :=
  s.size bp + ((nodes.filter (Touches s bp)).map s.size).sum

section
variable {base bp : Nat} {s s₁ t : Heap} {nodes l₁ l₂ : List Nat}

theorem span_congr {a : Nat} (h : t.size a = s.size a) : t.span a = s.span a := by
  rw [Heap.span, Heap.span, h]

theorem map_span_congr {l : List Nat} (h : ∀ a ∈ l, t.size a = s.size a) :
    l.map t.span = l.map s.span :=
  List.map_congr_left fun a ha ↦ span_congr (h a ha)

theorem SortedRing.sorted (h : SortedRing base s nodes) : (base :: nodes).Pairwise (· < ·) := by
  refine List.pairwise_cons.mpr ⟨?_, ?_⟩
  · intro a ha
    have := h.low a ha
    unfold HDR at this
    omega
  · apply (List.pairwise_map.mp h.spans.apart).imp
    intro a b hab
    exact Nat.lt_of_le_of_lt (Nat.le_add_right _ _) hab

theorem SortedRing.nodup (h : SortedRing base s nodes) : (base :: nodes).Nodup :=
  h.sorted.imp Nat.ne_of_lt

theorem SortedRing.pos (h : SortedRing base s nodes) {a : Nat} (ha : a ∈ nodes) : 0 < s.size a := by
  have := h.spans.proper _ (List.mem_map_of_mem ha)
  simp only [Heap.span, HDR] at this
  omega

theorem SortedRing.freep_ne (h : SortedRing base s nodes) : s.freep ≠ 0 := by
  have hnull := h.null
  rcases List.mem_cons.mp h.freep with heq | hmem
  · omega
  · have := h.low _ hmem
    omega

theorem le_sum_touching {a : Nat} {l : List Nat} (ha : a ∈ l) (htouch : Touches s bp a) :
    s.size a ≤ ((l.filter (Touches s bp)).map s.size).sum := by
  apply List.le_sum_of_mem
  exact List.mem_map_of_mem (List.mem_filter.mpr ⟨ha, decide_eq_true htouch⟩)

/-! ### `free` -/

/-- A block between the free blocks before it and those behind it. -/
structure Between (base bp : Nat) (s : Heap) (l₁ l₂ : List Nat) : Prop where
  place : Place base bp l₁ l₂
  pos : 0 < s.size bp
  before : ∀ a ∈ l₁, a + HDR * s.size a ≤ bp
  behind : ∀ a ∈ l₂, bp + HDR * s.size bp ≤ a

/-- An allocated block has a place between the free ones. -/
theorem Allocated.between (h : Allocated base s nodes bp) (hr : SortedRing base s nodes) :
    ∃ l₁ l₂, nodes = l₁ ++ l₂ ∧ Between base bp s l₁ l₂ := by
  have hpos := h.pos
  obtain ⟨l₁, l₂, rfl, hlt, hge⟩ := split_sorted bp (List.pairwise_cons.mp hr.sorted).2
  have hbefore : ∀ a ∈ l₁, a + HDR * s.size a ≤ bp := by
    intro a ha
    refine (h.apart a (List.mem_append_left _ ha)).resolve_left ?_
    have := hlt a ha
    omega
  have hbehind : ∀ a ∈ l₂, bp + HDR * s.size bp ≤ a := by
    intro a ha
    refine (h.apart a (List.mem_append_right _ ha)).resolve_right ?_
    have hle := hge a ha
    have hsize := hr.pos (List.mem_append_right l₁ ha)
    unfold HDR
    omega
  refine ⟨l₁, l₂, rfl, ⟨?_, hlt, ?_⟩, hpos, hbefore, hbehind⟩
  · have := h.low
    unfold HDR at this
    omega
  · intro a ha
    have := hbehind a ha
    unfold HDR at this
    omega

/-- After `bp` was joined with the block behind it: the blocks from `bp` on are those that the
insertion gives, and nothing else has changed. -/
structure Absorbed (base bp : Nat) (s s₁ : Heap) (l₂ l₂' : List Nat) : Prop where
  path : Path s₁.ptr bp l₂' base
  spans : (bp :: l₂').map s₁.span = joinFront (s.span bp) (l₂.map s.span)
  sub : l₂'.Sublist l₂
  units : s₁.size bp ≤ s.size bp + ((l₂.filter (Touches s bp)).map s.size).sum
  ptr : ∀ a, a ≠ bp → s₁.ptr a = s.ptr a
  size : ∀ a, a ≠ bp → s₁.size a = s.size a

theorem joinNext_absorbed (hcircle : Path s.ptr base (l₁ ++ l₂) base) (hb : Between base bp s l₁ l₂)
    (hfit : s.size bp + ((l₂.filter (Touches s bp)).map s.size).sum < 2 ^ 32) :
    ∃ l₂', Absorbed base bp s (Heap.joinNext bp (l₁.getLastD base) s) l₂ l₂' := by
  have hlast : s.ptr (l₁.getLastD base) = l₂.headD base := (path_split hcircle).last
  have hne : ∀ a ∈ l₂, a ≠ bp := fun a ha ↦ Nat.ne_of_gt (hb.place.behind a ha)
  unfold Heap.joinNext
  rw [hlast]
  split
  · next heq =>
    -- the next block starts where `bp` ends, so it is not `base`
    cases l₂ with
    | nil =>
      have hbase := hb.place.base
      change bp + HDR * s.size bp = base at heq
      omega
    | cons b l₂ =>
      change bp + HDR * s.size bp = b at heq
      have htouch : Touches s bp b := Or.inl heq
      have hle := le_sum_touching (List.mem_cons_self (l := l₂)) htouch
      have hsum : (s.size bp + s.size b) % 2 ^ 32 = s.size bp + s.size b :=
        Nat.mod_eq_of_lt (by omega)
      refine ⟨l₂, ?_, ?_, List.sublist_cons_self b l₂, ?_, ?_, ?_⟩
      · refine (path_append.mp hcircle).2.from (Function.update_self _ _ _) ?_
        intro a ha
        exact Function.update_of_ne (hne a (List.mem_cons_of_mem b ha)) _ _
      · have hadj : (s.span bp).2 = (s.span b).1 := heq
        rw [List.map_cons, List.map_cons, joinFront, if_pos hadj, map_span_congr (s := s)]
        · simp only [Heap.span, List.headD_cons, Function.update_self, hsum,
            Nat.mul_add, ← Nat.add_assoc, heq]
        · intro a ha
          exact Function.update_of_ne (hne a (List.mem_cons_of_mem b ha)) _ _
      · simp only [List.headD_cons, Function.update_self, hsum]
        omega
      · exact fun a ha ↦ Function.update_of_ne ha _ _
      · exact fun a ha ↦ Function.update_of_ne ha _ _
  · next hgap =>
    have hpath : Path s.ptr (l₁.getLastD base) l₂ base := by
      cases l₂ with
      | nil => exact hlast
      | cons b l₂ => exact ⟨hlast, (path_append.mp hcircle).2⟩
    refine ⟨l₂, ?_, ?_, List.Sublist.refl _, Nat.le_add_right _ _, ?_, fun _ _ ↦ rfl⟩
    · refine hpath.from ?_ (fun a ha ↦ Function.update_of_ne (hne a ha) _ _)
      rw [hlast]
      exact Function.update_self _ _ _
    · cases l₂ with
      | nil => rfl
      | cons b l₂ => exact (if_neg hgap).symm
    · exact fun a ha ↦ Function.update_of_ne ha _ _

/-- After `free`: the ring is sorted and without touching blocks again, and its blocks are the old
ones with the freed block inserted. -/
structure FreedBlock (base bp : Nat) (s t : Heap) (nodes nodes' : List Nat) : Prop where
  ring : SortedRing base t nodes'
  spans : nodes'.map t.span = insertSpan (s.span bp) (nodes.map s.span)

/-- What `free` has to insert. -/
structure Insertion (base bp : Nat) (s s₁ : Heap) (l₁ l₂ l₂' : List Nat) : Prop where
  ring : SortedRing base s (l₁ ++ l₂)
  block : Allocated base s (l₁ ++ l₂) bp
  between : Between base bp s l₁ l₂
  fits : joined s (l₁ ++ l₂) bp < 2 ^ 32
  absorbed : Absorbed base bp s s₁ l₂ l₂'

theorem joined_append : joined s (l₁ ++ l₂) bp =
    s.size bp + ((l₁.filter (Touches s bp)).map s.size).sum +
      ((l₂.filter (Touches s bp)).map s.size).sum := by
  rw [joined, List.filter_append, List.map_append, List.sum_append, Nat.add_assoc]

theorem Insertion.separated {l₂' : List Nat} (h : Insertion base bp s s₁ l₁ l₂ l₂') :
    Separated (insertSpan (s.span bp) ((l₁ ++ l₂).map s.span)) := by
  apply separated_insertSpan
  · have hpos := h.block.pos
    simp only [Heap.span, HDR]
    omega
  · intro b hb
    obtain ⟨a, hmem, rfl⟩ := List.mem_map.mp hb
    exact h.block.apart a hmem
  · exact h.ring.spans

theorem Insertion.below {l₂' : List Nat} (h : Insertion base bp s s₁ l₁ l₂ l₂') {a : Nat}
    (ha : a ∈ base :: l₁) : a < bp := by
  rcases List.mem_cons.mp ha with rfl | ha
  · exact h.between.place.base
  · exact h.between.place.before a ha

theorem Insertion.above {l₂' : List Nat} (h : Insertion base bp s s₁ l₁ l₂ l₂') {a : Nat}
    (ha : a ∈ l₂') : bp < a :=
  h.between.place.behind a (h.absorbed.sub.subset ha)

/-- The insertion at the end of `m ++ [p]`, with what the first step has made of the blocks from
`bp` on. -/
theorem Insertion.spans_concat {m l₂' : List Nat} {p : Nat}
    (h : Insertion base bp s s₁ (m ++ [p]) l₂ l₂') :
    insertSpan (s.span bp) ((m ++ [p] ++ l₂).map s.span) =
      m.map s.span ++ joinFront (s.span p) ((bp :: l₂').map s₁.span) := by
  have hsep := h.ring.spans
  rw [List.append_assoc, List.map_append, List.singleton_append, List.map_cons] at hsep
  rw [List.append_assoc, List.map_append, List.singleton_append, List.map_cons, h.absorbed.spans]
  apply insertSpan_append hsep
  · intro b hb
    rw [← List.map_singleton, ← List.map_append] at hb
    obtain ⟨a, ha, rfl⟩ := List.mem_map.mp hb
    exact Nat.le_of_lt (h.below (List.mem_cons_of_mem base ha))
  · intro b hb
    obtain ⟨a, ha, rfl⟩ := List.mem_map.mp hb
    exact h.between.place.behind a ha

/-- The block becomes a node of its own. -/
theorem link_freed {l₂' : List Nat} (h : Insertion base bp s s₁ l₁ l₂ l₂')
    (hgap : l₁.getLastD base + HDR * s₁.size (l₁.getLastD base) ≠ bp) :
    FreedBlock base bp s
      { s₁ with ptr := Function.update s₁.ptr (l₁.getLastD base) bp, freep := l₁.getLastD base }
      (l₁ ++ l₂) (l₁ ++ bp :: l₂') := by
  have hj := h.absorbed
  have hsize₁ : ∀ a ∈ base :: l₁, s₁.size a = s.size a :=
    fun a ha ↦ hj.size a (Nat.ne_of_lt (h.below ha))
  have hsize₂ : ∀ a ∈ l₂', s₁.size a = s.size a := fun a ha ↦ hj.size a (Nat.ne_of_gt (h.above ha))
  have hspans : (l₁ ++ bp :: l₂').map s₁.span = insertSpan (s.span bp) ((l₁ ++ l₂).map s.span) := by
    rcases List.eq_nil_or_concat l₁ with rfl | ⟨m, p, heq⟩
    · rw [List.nil_append, List.nil_append, hj.spans, insertSpan_front]
      intro b hb
      obtain ⟨a, ha, rfl⟩ := List.mem_map.mp hb
      exact h.between.place.behind a ha
    · rw [List.concat_eq_append] at heq
      subst heq
      have hp : s₁.size p = s.size p := hsize₁ p (by simp)
      have hne : (s.span p).2 ≠ (s₁.span bp).1 := by
        rw [List.getLastD_concat, hp] at hgap
        exact hgap
      rw [h.spans_concat, List.append_assoc, List.map_append, List.singleton_append, List.map_cons,
        List.map_cons, joinFront, if_neg hne, span_congr hp, map_span_congr (s := s)]
      exact fun a ha ↦ hsize₁ a (by simp [ha])
  have hnodup : (base :: l₁).Nodup := by
    have hall := h.ring.nodup
    rw [← List.cons_append] at hall
    exact (List.nodup_append.mp hall).1
  have hlast := getLastD_mem base l₁
  refine ⟨⟨h.ring.null, ?_, ?_, ?_, ?_, ?_, ?_⟩, hspans⟩
  · exact (hsize₁ base List.mem_cons_self).trans h.ring.sentinel
  · have hpath : Path s₁.ptr base l₁ (l₂.headD base) :=
      (path_split h.ring.circle).congr (fun a ha ↦ hj.ptr a (Nat.ne_of_lt (h.below ha)))
    refine path_append.mpr ⟨hpath.redirect hnodup, hj.path.congr ?_⟩
    intro a ha
    apply Function.update_of_ne
    have hlt := h.below hlast
    rcases List.mem_cons.mp ha with rfl | ha
    · omega
    · have := h.above ha
      omega
  · intro a ha
    rcases List.mem_append.mp ha with ha | ha
    · exact h.ring.low a (List.mem_append_left _ ha)
    · rcases List.mem_cons.mp ha with rfl | ha
      · exact h.block.low
      · exact h.ring.low a (List.mem_append_right _ (hj.sub.subset ha))
  · intro a ha
    rcases List.mem_append.mp ha with ha | ha
    · rw [hsize₁ a (List.mem_cons_of_mem base ha)]
      exact h.ring.size a (List.mem_append_left _ ha)
    · rcases List.mem_cons.mp ha with rfl | ha
      · have hunits := hj.units
        have hfits := h.fits
        rw [joined_append] at hfits
        change s₁.size a < 2 ^ 32
        omega
      · rw [hsize₂ a ha]
        exact h.ring.size a (List.mem_append_right _ (hj.sub.subset ha))
  · change Separated ((l₁ ++ bp :: l₂').map s₁.span)
    rw [hspans]
    exact h.separated
  · rcases List.mem_cons.mp hlast with heq | hmem
    · rw [heq]
      exact List.mem_cons_self
    · exact List.mem_cons_of_mem _ (List.mem_append_left _ hmem)

/-- The block before swallows it. -/
theorem swallow_freed {m l₂' : List Nat} {p : Nat} (h : Insertion base bp s s₁ (m ++ [p]) l₂ l₂')
    (htouch : p + HDR * s₁.size p = bp) :
    FreedBlock base bp s
      { s₁ with
        size := Function.update s₁.size p ((s₁.size p + s₁.size bp) % 2 ^ 32)
        ptr := Function.update s₁.ptr p (s₁.ptr bp)
        freep := p }
      (m ++ [p] ++ l₂) (m ++ p :: l₂') := by
  have hj := h.absorbed
  have hmem : p ∈ m ++ [p] := List.mem_append_right m List.mem_cons_self
  have hp : s₁.size p = s.size p :=
    hj.size p (Nat.ne_of_lt (h.below (List.mem_cons_of_mem base hmem)))
  have hsum : s.size p + s₁.size bp < 2 ^ 32 := by
    have hunits := hj.units
    have hfits := h.fits
    have hadj : Touches s bp p := Or.inr (by rw [← hp]; exact htouch)
    have hle := le_sum_touching hmem hadj
    rw [joined_append] at hfits
    omega
  have hnodup : (base :: (m ++ [p])).Nodup := by
    have hall := h.ring.nodup
    rw [← List.cons_append] at hall
    exact (List.nodup_append.mp hall).1
  have hother : ∀ a ∈ base :: m, a ≠ p := by
    rw [← List.cons_append] at hnodup
    intro a ha
    exact (List.nodup_append.mp hnodup).2.2 a ha p List.mem_cons_self
  have hbelow : ∀ a ∈ base :: m, a < bp := by
    intro a ha
    apply h.below
    rw [← List.cons_append]
    exact List.mem_append_left _ ha
  generalize ht : ({ s₁ with
      size := Function.update s₁.size p ((s₁.size p + s₁.size bp) % 2 ^ 32)
      ptr := Function.update s₁.ptr p (s₁.ptr bp)
      freep := p } : Heap) = t
  have hsizep : t.size p = s.size p + s₁.size bp := by
    rw [← ht, ← hp]
    rw [← hp] at hsum
    exact (Function.update_self _ _ _).trans (Nat.mod_eq_of_lt hsum)
  have hsize₁ : ∀ a ∈ base :: m, t.size a = s.size a := by
    intro a ha
    rw [← ht]
    exact (Function.update_of_ne (hother a ha) _ _).trans (hj.size a (Nat.ne_of_lt (hbelow a ha)))
  have hbehind : ∀ a ∈ l₂', a ≠ p := by
    intro a ha heq
    have h₁ := h.above ha
    have h₂ := h.below (List.mem_cons_of_mem base hmem)
    omega
  have hsize₂ : ∀ a ∈ l₂', t.size a = s₁.size a := by
    intro a ha
    rw [← ht]
    exact Function.update_of_ne (hbehind a ha) _ _
  have hspans :
      (m ++ p :: l₂').map t.span = insertSpan (s.span bp) ((m ++ [p] ++ l₂).map s.span) := by
    have hadj : (s.span p).2 = (s₁.span bp).1 := by
      rw [← span_congr hp]
      exact htouch
    have hspan : t.span p = ((s.span p).1, (s₁.span bp).2) := by
      simp only [Heap.span, hsizep] at hadj ⊢
      rw [Nat.mul_add, ← Nat.add_assoc, hadj]
    rw [h.spans_concat, List.map_append, List.map_cons, List.map_cons, joinFront, if_pos hadj,
      hspan, map_span_congr (s := s) (fun a ha ↦ hsize₁ a (List.mem_cons_of_mem base ha)),
      map_span_congr hsize₂]
  refine ⟨⟨h.ring.null, ?_, ?_, ?_, ?_, ?_, ?_⟩, hspans⟩
  · rw [hsize₁ base List.mem_cons_self]
    exact h.ring.sentinel
  · have hcircle := h.ring.circle
    rw [List.append_assoc] at hcircle
    refine path_append.mpr ⟨(path_append.mp hcircle).1.congr ?_, hj.path.from ?_ ?_⟩
    · intro a ha
      rw [← ht]
      exact (Function.update_of_ne (hother a ha) _ _).trans (hj.ptr a (Nat.ne_of_lt (hbelow a ha)))
    · rw [← ht]
      exact Function.update_self _ _ _
    · intro a ha
      rw [← ht]
      exact Function.update_of_ne (hbehind a ha) _ _
  · intro a ha
    apply h.ring.low
    rcases List.mem_append.mp ha with ha | ha
    · exact List.mem_append_left _ (List.mem_append_left _ ha)
    · rcases List.mem_cons.mp ha with rfl | ha
      · exact List.mem_append_left _ hmem
      · exact List.mem_append_right _ (hj.sub.subset ha)
  · intro a ha
    rcases List.mem_append.mp ha with ha | ha
    · rw [hsize₁ a (List.mem_cons_of_mem base ha)]
      exact h.ring.size a (List.mem_append_left _ (List.mem_append_left _ ha))
    · rcases List.mem_cons.mp ha with rfl | ha
      · rw [hsizep]
        exact hsum
      · rw [hsize₂ a ha, hj.size a (Nat.ne_of_gt (h.above ha))]
        exact h.ring.size a (List.mem_append_right _ (hj.sub.subset ha))
  · rw [hspans]
    exact h.separated
  · rw [← ht]
    exact List.mem_cons_of_mem _ (List.mem_append_right _ List.mem_cons_self)

/-- `free` inserts the block in the ring, from wherever its search starts. -/
theorem free_freed (hr : SortedRing base s nodes) (ha : Allocated base s nodes bp)
    (hfits : joined s nodes bp < 2 ^ 32) :
    ∃ t nodes', (∀ fuel, nodes.length < fuel → s.free fuel (bp + HDR) = some t) ∧
      FreedBlock base bp s t nodes nodes' := by
  obtain ⟨l₁, l₂, rfl, hb⟩ := ha.between hr
  obtain ⟨l₂', hj⟩ := joinNext_absorbed hr.circle hb (by
    rw [joined_append] at hfits
    omega)
  have hins : Insertion base bp s _ l₁ l₂ l₂' := ⟨hr, ha, hb, hfits, hj⟩
  have hfree {t : Heap}
      (ht : { Heap.joinPrev bp (l₁.getLastD base) (Heap.joinNext bp (l₁.getLastD base) s) with
        freep := l₁.getLastD base } = t) (fuel : Nat) (hfuel : (l₁ ++ l₂).length < fuel) :
      s.free fuel (bp + HDR) = some t := by
    rw [Heap.free, Nat.add_sub_cancel, findPlace_sorted hr.circle hr.sorted hr.freep hb.place
      hfuel, ← ht]
    rfl
  by_cases htouch : l₁.getLastD base + HDR * (Heap.joinNext bp (l₁.getLastD base) s).size
      (l₁.getLastD base) = bp
  · -- `base` has size 0, so the block before is another one
    rcases List.eq_nil_or_concat l₁ with rfl | ⟨m, p, heq⟩
    · change base + HDR * (Heap.joinNext bp base s).size base = bp at htouch
      have hzero : (Heap.joinNext bp base s).size base = s.size base :=
        hj.size base (Nat.ne_of_lt hb.place.base)
      have hbase := hb.place.base
      rw [hzero, hr.sentinel] at htouch
      omega
    · rw [List.concat_eq_append] at heq
      subst heq
      rw [List.getLastD_concat] at hins htouch hfree
      refine ⟨_, _, hfree ?_, swallow_freed hins htouch⟩
      rw [Heap.joinPrev, if_pos htouch]
  · refine ⟨_, _, hfree ?_, link_freed hins htouch⟩
    rw [Heap.joinPrev, if_neg htouch]

/-! ### `malloc` -/

/-- After `malloc` took the block of `nunits` units at `q` from the ring. -/
structure TakenBlock (base nunits q : Nat) (s t : Heap) (nodes nodes' : List Nat) : Prop where
  ring : SortedRing base t nodes'
  size : t.size q = nunits
  covers : ∀ x, Covers (nodes.map s.span) x ↔
    Covers (nodes'.map t.span) x ∨ (q ≤ x ∧ x < q + HDR * nunits)
  disjoint : ∀ x, q ≤ x → x < q + HDR * nunits → ¬ Covers (nodes'.map t.span) x

/-- A ring whose blocks are those of another one, with one of them cut off at its end. -/
theorem takenBlock_of_cut {p q nunits : Nat} {nodes' : List Nat}
    (hr : SortedRing base s (l₁ ++ p :: l₂)) (hq : q + HDR * nunits = p + HDR * s.size p)
    (hpq : p ≤ q) (hring : Separated (nodes'.map t.span) → SortedRing base t nodes')
    (hsize : t.size q = nunits)
    (hspans : nodes'.map t.span = l₁.map s.span ++ (cut (s.span p) q ++ l₂.map s.span)) :
    TakenBlock base nunits q s t (l₁ ++ p :: l₂) nodes' := by
  have hsep := hr.spans
  rw [List.map_append, List.map_cons] at hsep
  have hle : q ≤ (s.span p).2 := by
    simp only [Heap.span]
    omega
  refine ⟨hring ?_, hsize, ?_, ?_⟩
  · rw [hspans]
    exact separated_cut hsep hle
  · intro x
    rw [hspans, hq, List.map_append, List.map_cons]
    exact covers_cut hpq hle
  · intro x hx hx'
    rw [hq] at hx'
    rw [hspans]
    exact not_covers_cut hsep hpq hx hx'

/-- All of the block is used. -/
theorem take_all_ring {p nunits : Nat} (hr : SortedRing base s (l₁ ++ p :: l₂))
    (hsize : s.size p = nunits) :
    TakenBlock base nunits p s
      { s with
        ptr := Function.update s.ptr (l₁.getLastD base) (s.ptr p), freep := l₁.getLastD base }
      (l₁ ++ p :: l₂) (l₁ ++ l₂) := by
  have hsub : (l₁ ++ l₂).Sublist (l₁ ++ p :: l₂) :=
    List.Sublist.append_left (List.sublist_cons_self p l₂) l₁
  refine takenBlock_of_cut hr (by rw [hsize]) (Nat.le_refl p) ?_ hsize ?_
  · intro hsep
    refine ⟨hr.null, hr.sentinel, hr.circle.unlink hr.nodup, fun a ha ↦ hr.low a (hsub.subset ha),
      fun a ha ↦ hr.size a (hsub.subset ha), hsep, ?_⟩
    change l₁.getLastD base ∈ base :: (l₁ ++ l₂)
    rw [← List.cons_append]
    exact List.mem_append_left _ (getLastD_mem base l₁)
  · have hcut : cut (s.span p) p = [] := if_neg (Nat.lt_irrefl p)
    rw [hcut, List.map_append]
    rfl

/-- The tail of the block is used. -/
theorem take_tail_ring {p prevp nunits : Nat} (hr : SortedRing base s (l₁ ++ p :: l₂))
    (hprev : prevp ∈ base :: (l₁ ++ p :: l₂)) (hpos : 1 ≤ nunits) (hsize : nunits < s.size p) :
    TakenBlock base nunits (p + HDR * (s.size p - nunits)) s
      { s with
        size := Function.update (Function.update s.size p (s.size p - nunits))
          (p + HDR * (s.size p - nunits)) nunits
        freep := prevp }
      (l₁ ++ p :: l₂) (l₁ ++ p :: l₂) := by
  have hmem : p ∈ l₁ ++ p :: l₂ := List.mem_append_right _ List.mem_cons_self
  have hlow := hr.low p hmem
  have hsum : p + HDR * (s.size p - nunits) + HDR * nunits = p + HDR * s.size p := by
    rw [Nat.add_assoc, ← Nat.mul_add, Nat.sub_add_cancel (Nat.le_of_lt hsize)]
  have hlt : p < p + HDR * (s.size p - nunits) := by
    unfold HDR
    omega
  generalize hq : p + HDR * (s.size p - nunits) = q at hsum hlt ⊢
  -- the new header is inside the block, where no other one of the ring is
  have hfresh : ∀ a ∈ base :: (l₁ ++ p :: l₂), a ≠ q := by
    have hsep := hr.spans
    rw [List.map_append, List.map_cons] at hsep
    obtain ⟨hbefore, hbehind⟩ := hsep.sides
    intro a ha heq
    rcases List.mem_cons.mp ha with rfl | ha
    · unfold HDR at hlow
      omega
    · rcases List.mem_append.mp ha with ha | ha
      · have := hbefore _ (List.mem_map_of_mem ha)
        simp only [Heap.span] at this
        omega
      · rcases List.mem_cons.mp ha with rfl | ha
        · omega
        · have := hbehind _ (List.mem_map_of_mem ha)
          simp only [Heap.span] at this
          unfold HDR at hsum this
          omega
  generalize ht : ({ s with
      size := Function.update (Function.update s.size p (s.size p - nunits)) q nunits
      freep := prevp } : Heap) = t
  have hsizep : t.size p = s.size p - nunits := by
    rw [← ht]
    exact (Function.update_of_ne (Nat.ne_of_lt hlt) _ _).trans (Function.update_self _ _ _)
  have hother : ∀ a ∈ base :: (l₁ ++ p :: l₂), a ≠ p → t.size a = s.size a := by
    intro a ha hap
    rw [← ht]
    exact (Function.update_of_ne (hfresh a ha) _ _).trans (Function.update_of_ne hap _ _)
  have hne : ∀ a ∈ base :: (l₁ ++ l₂), a ≠ p := by
    have hnodup := hr.nodup
    rw [← List.cons_append, List.nodup_middle, List.nodup_cons] at hnodup
    intro a ha heq
    rw [heq] at ha
    exact hnodup.1 ha
  refine takenBlock_of_cut hr hsum (Nat.le_of_lt hlt) ?_ ?_ ?_
  · intro hsep
    refine ⟨hr.null, ?_, ?_, hr.low, ?_, hsep, ?_⟩
    · rw [hother base List.mem_cons_self (hne base List.mem_cons_self)]
      exact hr.sentinel
    · rw [← ht]
      exact hr.circle
    · intro a ha
      have hold := hr.size a ha
      by_cases hap : a = p
      · rw [hap] at hold ⊢
        omega
      · rw [hother a (List.mem_cons_of_mem base ha) hap]
        exact hold
    · rw [← ht]
      exact hprev
  · rw [← ht]
    exact Function.update_self _ _ _
  · have hcut : cut (s.span p) q = [t.span p] := by
      have hlt' : (s.span p).1 < q := hlt
      rw [cut, if_pos hlt', Heap.span, Heap.span, hsizep, hq]
    have hside {l : List Nat} (hl : ∀ a ∈ l, a ∈ l₁ ++ l₂) : l.map t.span = l.map s.span := by
      apply map_span_congr
      intro a ha
      have hmem' := hl a ha
      apply hother a _ (hne a (List.mem_cons_of_mem base hmem'))
      rcases List.mem_append.mp hmem' with h | h
      · exact List.mem_cons_of_mem base (List.mem_append_left _ h)
      · exact List.mem_cons_of_mem base (List.mem_append_right _ (List.mem_cons_of_mem p h))
    rw [hcut, List.map_append, List.map_cons, hside (fun a ha ↦ List.mem_append_left _ ha),
      hside (fun a ha ↦ List.mem_append_right _ ha)]
    rfl

/-- What `malloc` finds is cut off from the ring. -/
theorem take_ring {prev nunits : Nat} (hr : SortedRing base s nodes) (hpos : 1 ≤ nunits)
    (hprev : prev ∈ base :: nodes) (hsize : nunits ≤ s.size (s.ptr prev)) :
    ∃ q nodes', (s.take nunits prev (s.ptr prev)).1 = q + HDR ∧
      TakenBlock base nunits q s (s.take nunits prev (s.ptr prev)).2 nodes nodes' := by
  have hne : s.ptr prev ≠ base := by
    intro heq
    rw [heq, hr.sentinel] at hsize
    omega
  have hmem : s.ptr prev ∈ nodes := by
    rcases hr.circle.succ_cases hprev with ⟨-, hend⟩ | ⟨m, m', heq⟩
    · exact (hne hend).elim
    · have hin : s.ptr prev ∈ base :: nodes := by
        rw [heq]
        exact List.mem_append_right _ (List.mem_cons_of_mem _ List.mem_cons_self)
      exact (List.mem_cons.mp hin).resolve_left hne
  obtain ⟨l₁, l₂, hsplit⟩ := List.append_of_mem hmem
  rw [hsplit] at hr hprev ⊢
  unfold Heap.take
  split
  · next hall =>
    have hlast := hr.circle.pred_unique hr.nodup hne hprev rfl
    have htake := take_all_ring hr hall
    rw [← hlast] at htake
    exact ⟨s.ptr prev, l₁ ++ l₂, rfl, htake⟩
  · next hmore => exact ⟨_, _, rfl, take_tail_ring hr hprev hpos (by omega)⟩

/-- The ring can be walked from `freep`. -/
theorem SortedRing.walk (h : SortedRing base s nodes) :
    ∃ rest, Path s.ptr s.freep rest s.freep ∧ s.freep ∉ rest ∧ rest.length = nodes.length ∧
      (∀ x, x ∈ rest ++ [s.freep] ↔ x ∈ base :: nodes) := by
  obtain ⟨rest, hpath, hperm⟩ := h.circle.rotate h.freep
  have hnodup : (s.freep :: rest).Nodup := hperm.nodup_iff.mpr h.nodup
  refine ⟨rest, hpath, (List.nodup_cons.mp hnodup).1, Nat.succ.inj hperm.length_eq, ?_⟩
  intro x
  rw [List.mem_append, List.mem_singleton, or_comm, ← List.mem_cons]
  exact hperm.mem_iff

theorem malloc_eq (h : SortedRing base s nodes) (fuel nbytes : Nat) (ok : Bool) :
    s.malloc base fuel nbytes ok =
      Heap.mallocLoop ok (Heap.units nbytes) fuel s.freep (s.ptr s.freep) s := by
  have hinit : s.init base = s := if_neg h.freep_ne
  rw [Heap.malloc, hinit]

theorem one_le_units {nbytes : Nat} (h : nbytes < 2 ^ 32) : 1 ≤ Heap.units nbytes := by
  unfold Heap.units HDR
  omega

/-- A block that is large enough is found without asking for more memory. -/
theorem malloc_taken {nbytes : Nat} {ok : Bool} (hr : SortedRing base s nodes)
    (hn : nbytes < 2 ^ 32) (hex : ∃ a ∈ nodes, Heap.units nbytes ≤ s.size a) :
    ∃ q t nodes', (∀ fuel, nodes.length < fuel → s.malloc base fuel nbytes ok = some (q + HDR, t)) ∧
      TakenBlock base (Heap.units nbytes) q s t nodes nodes' := by
  obtain ⟨rest, hpath, hnot, hlen, hmem⟩ := hr.walk
  obtain ⟨a, ha, hsize⟩ := hex
  have hfound := @mallocLoop_found (Heap.units nbytes) s ok rest s.freep hpath hnot
    ⟨a, (hmem a).mpr (List.mem_cons_of_mem base ha), hsize⟩
  obtain ⟨prev, hprev, hlarge, hloop⟩ := hfound
  have hprev' : prev ∈ base :: nodes := by
    rw [← hmem, List.mem_append, List.mem_singleton, or_comm, ← List.mem_cons]
    exact hprev
  obtain ⟨q, nodes', hfst, htaken⟩ := take_ring hr (one_le_units hn) hprev' hlarge
  refine ⟨q, _, nodes', ?_, htaken⟩
  intro fuel hfuel
  rw [malloc_eq hr, hloop fuel (by omega), ← hfst]

/-- Otherwise the search ends with a call of `morecore`, whatever the ring looks like. -/
theorem malloc_asks {nbytes : Nat} (hr : SortedRing base s nodes) (hn : nbytes < 2 ^ 32)
    (hall : ∀ a ∈ nodes, s.size a < Heap.units nbytes) {fuel : Nat} (hfuel : nodes.length < fuel) :
    s.malloc base fuel nbytes false = some (0, s) := by
  obtain ⟨rest, hpath, hnot, hlen, hmem⟩ := hr.walk
  have hsmall : ∀ x ∈ rest ++ [s.freep], s.size x < Heap.units nbytes := by
    intro x hx
    rcases List.mem_cons.mp ((hmem x).mp hx) with rfl | hx
    · rw [hr.sentinel]
      exact one_le_units hn
    · exact hall x hx
  obtain ⟨k, rfl⟩ : ∃ k, fuel = rest.length + (k + 1) := ⟨fuel - rest.length - 1, by omega⟩
  rw [malloc_eq hr, mallocLoop_full hpath hnot hsmall]
  rfl

/-! ### The ring is kept -/

/-- On every sorted ring, and wherever `freep` is on it: `free` of a block that overlaps none of the
free ones returns, and the ring is sorted and without touching blocks again and has the bytes of the
block besides those it had, if the block and the free blocks it touches have together less than 2^32
units. `malloc` takes the bytes that it returns and no others, without a call of `morecore` if there
is a block that is large enough, and only then. -/
theorem ring_kept (base : Nat) (s : Heap) (nodes : List Nat) (hr : SortedRing base s nodes) :
    (∀ bp, Allocated base s nodes bp → joined s nodes bp < 2 ^ 32 →
      ∃ t nodes', (∀ fuel, nodes.length < fuel → s.free fuel (bp + HDR) = some t) ∧
        SortedRing base t nodes' ∧
        ∀ x, Covers (nodes'.map t.span) x ↔
          Covers (nodes.map s.span) x ∨ (bp ≤ x ∧ x < bp + HDR * s.size bp)) ∧
    ∀ nbytes, nbytes < 2 ^ 32 →
      ((∃ a ∈ nodes, Heap.units nbytes ≤ s.size a) → ∀ ok,
        ∃ q t nodes', (∀ fuel, nodes.length < fuel →
          s.malloc base fuel nbytes ok = some (q + HDR, t)) ∧
          TakenBlock base (Heap.units nbytes) q s t nodes nodes') ∧
      ((∀ a ∈ nodes, s.size a < Heap.units nbytes) →
        ∀ fuel, nodes.length < fuel → s.malloc base fuel nbytes false = some (0, s)) := by
  refine ⟨?_, fun nbytes hn ↦ ⟨fun hex ok ↦ malloc_taken hr hn hex, fun hall fuel hfuel ↦
    malloc_asks hr hn hall hfuel⟩⟩
  intro bp ha hfits
  obtain ⟨t, nodes', hfree, hfreed⟩ := free_freed hr ha hfits
  refine ⟨t, nodes', hfree, hfreed.ring, ?_⟩
  intro x
  rw [hfreed.spans, covers_insertSpan, or_comm]
  · rfl
  · have hpos := ha.pos
    simp only [Heap.span, HDR]
    omega
  · intro b hb
    obtain ⟨a, hmem, rfl⟩ := List.mem_map.mp hb
    exact ha.apart a hmem
  · exact hr.spans

end

/-- A ring with one free block of `n` units at 8192, and an allocated one of `n` units behind it. -/
def twoBlocks (n : Nat) : Heap where
  ptr := Function.update (Function.update (fun _ ↦ 0) 4096 8192) 8192 4096
  size := Function.update (Function.update (fun _ ↦ 0) 8192 n) (8192 + HDR * n) n
  freep := 8192
  brk := 8192 + HDR * (n + n)

theorem twoBlocks_ring {n : Nat} (hpos : 0 < n) (hn : n < 2 ^ 32) :
    SortedRing 4096 (twoBlocks n) [8192] ∧ Allocated 4096 (twoBlocks n) [8192]
      (8192 + HDR * n) := by
  have hne : 8192 ≠ 8192 + HDR * n := by
    unfold HDR
    omega
  have hfree : (twoBlocks n).size 8192 = n :=
    (Function.update_of_ne hne _ _).trans (Function.update_self _ _ _)
  have hlive : (twoBlocks n).size (8192 + HDR * n) = n := Function.update_self _ _ _
  refine ⟨⟨by decide, ?_, ⟨rfl, rfl⟩, ?_, ?_, ⟨?_, List.pairwise_singleton _ _⟩, ?_⟩, ?_, ?_, ?_⟩
  · have hbase : 4096 ≠ 8192 + HDR * n := by omega
    exact (Function.update_of_ne hbase _ _).trans (Function.update_of_ne (by decide) _ _)
  · intro a ha
    rw [List.mem_singleton.mp ha]
    decide
  · intro a ha
    rw [List.mem_singleton.mp ha, hfree]
    exact hn
  · intro b hb
    rw [List.map_singleton, List.mem_singleton] at hb
    rw [hb]
    simp only [Heap.span, hfree, HDR]
    omega
  · exact List.mem_cons_of_mem 4096 List.mem_cons_self
  · unfold HDR
    omega
  · rw [hlive]
    exact hpos
  · intro a ha
    rw [List.mem_singleton.mp ha, hfree]
    exact Or.inr (Nat.le_refl _)

/-- Two blocks of 4 units are joined to one of 8. -/
theorem ring_kept_joins : ∃ t nodes', (∀ fuel, 1 < fuel → (twoBlocks 4).free fuel 8272 = some t) ∧
    SortedRing 4096 t nodes' ∧ ∀ x, Covers (nodes'.map t.span) x ↔ 8192 ≤ x ∧ x < 8320 := by
  obtain ⟨hr, ha⟩ := twoBlocks_ring (n := 4) (by decide) (by decide)
  obtain ⟨t, nodes', hfree, hring, hcovers⟩ := (ring_kept 4096 (twoBlocks 4) [8192] hr).1 8256 ha
    (by decide)
  refine ⟨t, nodes', hfree, hring, ?_⟩
  intro x
  rw [hcovers, List.map_singleton, covers_cons]
  have hspan : (twoBlocks 4).span 8192 = (8192, 8256) := rfl
  have hend : 8256 + HDR * (twoBlocks 4).size 8256 = 8320 := rfl
  rw [hspan, hend]
  constructor
  · rintro ((h | ⟨_, hmem, -⟩) | h)
    · dsimp only at h
      omega
    · cases hmem
    · omega
  · intro h
    dsimp only
    omega

/-- Two blocks of 2^31 units are joined to one whose size has wrapped to 0. -/
theorem ring_not_kept : SortedRing 4096 (twoBlocks (2 ^ 31)) [8192] ∧
    Allocated 4096 (twoBlocks (2 ^ 31)) [8192] (8192 + HDR * 2 ^ 31) ∧
    ∃ t, (twoBlocks (2 ^ 31)).free 2 (8192 + HDR * 2 ^ 31 + HDR) = some t ∧
      ∀ nodes', ¬ SortedRing 4096 t nodes' := by
  obtain ⟨hr, ha⟩ := twoBlocks_ring (n := 2 ^ 31) (by decide) (by decide)
  refine ⟨hr, ha, _, rfl, ?_⟩
  intro nodes' hring
  cases nodes' with
  | nil =>
    have hfirst : 8192 = 4096 := hring.circle
    cases hfirst
  | cons a l =>
    have hfirst := hring.circle.1
    have hpos := hring.pos List.mem_cons_self
    rw [← hfirst] at hpos
    revert hpos
    decide

end Xv6.Malloc
