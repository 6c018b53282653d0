import Mathlib.Data.List.Pairwise
import Xv6.Lib.Ring
import Xv6.Malloc.Model

/-!
# The circular free list

The free blocks stand in the list in the order of their addresses, behind the header `base`, and do
not overlap. `free` finds the place of a block in this order, `malloc` the first block that is large
enough, and neither claims a byte that was not free before or part of the block it is given.
-/

namespace Xv6.Malloc

open Lib

/-- The bytes that a block on the list takes up. A size that has wrapped to 0 still has a header. -/
def Heap.extent (s : Heap) (a : Nat) : Nat := HDR * max 1 (s.size a)

/-- The nodes form the circular list behind `base`, in ascending order and apart from each other. -/
structure FreeList (base lo : Nat) (s : Heap) (nodes : List Nat) : Prop where
  sentinel : s.size base = 0
  circle : Path s.ptr base nodes base
  apart : nodes.Pairwise fun a b ↦ a + s.extent a ≤ b
  low : ∀ a ∈ nodes, lo ≤ a
  high : ∀ a ∈ nodes, a + s.extent a ≤ s.brk
  freep : s.freep ∈ base :: nodes

/-- A byte of a free block. -/
def FreeByte (s : Heap) (nodes : List Nat) (x : Nat) : Prop :=
  ∃ a ∈ nodes, a ≤ x ∧ x < a + s.extent a

section
variable {base lo bp : Nat} {s t : Heap} {nodes l₁ l₂ : List Nat}

theorem extent_pos (s : Heap) (a : Nat) : HDR ≤ s.extent a := by
  unfold Heap.extent
  exact Nat.le_mul_of_pos_right HDR (by omega)

theorem freeByte_head {a : Nat} (ha : a ∈ nodes) {x : Nat} (hx : a ≤ x) (hx' : x < a + HDR) :
    FreeByte s nodes x :=
  ⟨a, ha, hx, Nat.lt_of_lt_of_le hx' (Nat.add_le_add_left (extent_pos s a) a)⟩

theorem FreeList.sorted (h : FreeList base lo s nodes) (hbase : base + HDR ≤ lo) :
    (base :: nodes).Pairwise (· < ·) := by
  refine List.pairwise_cons.mpr ⟨?_, ?_⟩
  · intro a ha
    have := h.low a ha
    unfold HDR at hbase
    omega
  · apply h.apart.imp
    intro a b hab
    have := extent_pos s a
    unfold HDR at this
    omega

theorem FreeList.nodup (h : FreeList base lo s nodes) (hbase : base + HDR ≤ lo) :
    (base :: nodes).Nodup :=
  (h.sorted hbase).imp Nat.ne_of_lt

/-! ### The place of a block -/

/-- The tests of `free` at a node. -/
def Stops (bp : Nat) (s : Heap) (x : Nat) : Prop :=
  (bp > x ∧ bp < s.ptr x) ∨ (x ≥ s.ptr x ∧ (bp > x ∨ bp < s.ptr x))

/-- The place of a block between the nodes before it and the nodes behind it. -/
structure Place (base bp : Nat) (l₁ l₂ : List Nat) : Prop where
  base : base < bp
  before : ∀ a ∈ l₁, a < bp
  behind : ∀ a ∈ l₂, bp < a

theorem path_split {f : Nat → Nat} {a c : Nat} (h : Path f a (l₁ ++ l₂) c) :
    Path f a l₁ (l₂.headD c) := by
  cases l₂ with
  | nil =>
    rw [List.append_nil] at h
    exact h
  | cons b l₂ => exact (path_append.mp h).1

/-- `free` stops at the last node before the block. -/
theorem stops_at (hplace : Place base bp l₁ l₂) (hcircle : Path s.ptr base (l₁ ++ l₂) base)
    (hsorted : (base :: (l₁ ++ l₂)).Pairwise (· < ·)) : Stops bp s (l₁.getLastD base) := by
  have hlast := (path_split hcircle).last
  have hmem := getLastD_mem base l₁
  have hlt : l₁.getLastD base < bp := by
    rcases List.mem_cons.mp hmem with heq | hmem
    · rw [heq]
      exact hplace.base
    · exact hplace.before _ hmem
  have hge : base ≤ l₁.getLastD base := by
    rcases List.mem_cons.mp hmem with heq | hmem
    · exact Nat.le_of_eq heq.symm
    · exact Nat.le_of_lt ((List.pairwise_cons.mp hsorted).1 _ (List.mem_append_left _ hmem))
  cases l₂ with
  | nil =>
    refine Or.inr ⟨?_, Or.inl hlt⟩
    rw [hlast]
    exact hge
  | cons b l₂ =>
    refine Or.inl ⟨hlt, ?_⟩
    rw [hlast]
    exact hplace.behind b List.mem_cons_self

/-- And nowhere else. -/
theorem not_stops (hplace : Place base bp l₁ l₂) (hcircle : Path s.ptr base (l₁ ++ l₂) base)
    (hsorted : (base :: (l₁ ++ l₂)).Pairwise (· < ·)) {x : Nat} (hx : x ∈ base :: (l₁ ++ l₂))
    (hne : x ≠ l₁.getLastD base) : ¬ Stops bp s x := by
  have hup (m m' : List Nat) (heq : base :: (l₁ ++ l₂) = m ++ x :: s.ptr x :: m') :
      x < s.ptr x := by
    rw [heq] at hsorted
    exact (List.pairwise_cons.mp (List.pairwise_append.mp hsorted).2.1).1 _ List.mem_cons_self
  rw [← List.cons_append, List.mem_append] at hx
  rcases hx with hx | hx
  · -- before the place the list goes up to a node before the block
    rcases (path_split hcircle).succ_cases hx with ⟨hlast, -⟩ | ⟨m, m', heq⟩
    · exact (hne hlast).elim
    · have hnext : s.ptr x < bp := by
        have hmem : s.ptr x ∈ base :: l₁ := by
          rw [heq]
          exact List.mem_append_right _ (List.mem_cons_of_mem _ List.mem_cons_self)
        rcases List.mem_cons.mp hmem with hb | hmem
        · rw [hb]
          exact hplace.base
        · exact hplace.before _ hmem
      have hlt : x < s.ptr x := by
        apply hup m (m' ++ l₂)
        rw [← List.cons_append, heq, List.append_assoc]
        rfl
      rintro (⟨-, h⟩ | ⟨h, -⟩) <;> omega
  · -- behind it the list goes up, or back to `base`
    have hgt := hplace.behind x hx
    obtain ⟨b, l₂, rfl⟩ : ∃ b m, l₂ = b :: m := by
      cases l₂ with
      | nil => cases hx
      | cons b m => exact ⟨b, m, rfl⟩
    have hbase := hplace.base
    rcases (path_append.mp hcircle).2.succ_cases hx with ⟨-, hend⟩ | ⟨m, m', heq⟩
    · rintro (⟨h, -⟩ | ⟨-, h | h⟩)
      · omega
      · omega
      · rw [hend] at h
        omega
    · have hlt : x < s.ptr x := by
        apply hup (base :: l₁ ++ m) m'
        rw [← List.cons_append, heq, List.append_assoc]
      rintro (⟨h, -⟩ | ⟨h, -⟩) <;> omega

/-- Walking along a ring, `free` stops at the only node where it can. -/
theorem findPlace_walk {z : Nat} {c : Nat} {rest : List Nat} {x : Nat} (hpath : Path s.ptr x rest c)
    (hz : z ∈ x :: rest) (hstop : Stops bp s z) (honly : ∀ y ∈ x :: rest, y ≠ z → ¬ Stops bp s y)
    {fuel : Nat} (hfuel : rest.length < fuel) : Heap.findPlace bp fuel x s = some z := by
  induction rest generalizing x fuel with
  | nil =>
    obtain ⟨fuel, rfl⟩ := Nat.exists_eq_add_one_of_ne_zero (Nat.ne_zero_of_lt hfuel)
    rw [← List.mem_singleton.mp hz, Heap.findPlace]
    rcases hstop with hs | hs
    · rw [if_pos hs]
    · rw [if_pos hs]
      split <;> rfl
  | cons y rest ih =>
    obtain ⟨fuel, rfl⟩ := Nat.exists_eq_add_one_of_ne_zero (Nat.ne_zero_of_lt hfuel)
    rw [Heap.findPlace]
    by_cases hxz : x = z
    · rw [hxz]
      rcases hstop with hs | hs
      · rw [if_pos hs]
      · rw [if_pos hs]
        split <;> rfl
    · have hnot := honly x List.mem_cons_self hxz
      rw [if_neg (fun hs ↦ hnot (Or.inl hs)), if_neg (fun hs ↦ hnot (Or.inr hs)), hpath.1]
      refine ih hpath.2 ?_ (fun w hw ↦ honly w (List.mem_cons_of_mem _ hw)) ?_
      · exact (List.mem_cons.mp hz).resolve_left (Ne.symm hxz)
      · rw [List.length_cons] at hfuel
        omega

/-- From every node of a sorted ring the search comes to the place of the block. -/
theorem findPlace_sorted (hcircle : Path s.ptr base (l₁ ++ l₂) base)
    (hsorted : (base :: (l₁ ++ l₂)).Pairwise (· < ·)) (hfreep : s.freep ∈ base :: (l₁ ++ l₂))
    (hplace : Place base bp l₁ l₂) {fuel : Nat} (hfuel : (l₁ ++ l₂).length < fuel) :
    Heap.findPlace bp fuel s.freep s = some (l₁.getLastD base) := by
  obtain ⟨rest, hpath, hperm⟩ := hcircle.rotate hfreep
  have hlen : rest.length = (l₁ ++ l₂).length := Nat.succ.inj hperm.length_eq
  refine findPlace_walk hpath ?_ (stops_at hplace hcircle hsorted) ?_ (by omega)
  · rw [hperm.mem_iff]
    rcases List.mem_cons.mp (getLastD_mem base l₁) with heq | hmem
    · rw [heq]
      exact List.mem_cons_self
    · exact List.mem_cons_of_mem _ (List.mem_append_left _ hmem)
  · intro y hy hne
    exact not_stops hplace hcircle hsorted (hperm.mem_iff.mp hy) hne

theorem findPlace_spec (h : FreeList base lo s (l₁ ++ l₂)) (hbase : base + HDR ≤ lo)
    (hplace : Place base bp l₁ l₂) {fuel : Nat} (hfuel : (l₁ ++ l₂).length < fuel) :
    Heap.findPlace bp fuel s.freep s = some (l₁.getLastD base) :=
  findPlace_sorted h.circle (h.sorted hbase) h.freep hplace hfuel

/-! ### Insertion -/

/-- What `free` is given: a block of `u` units at `bp` that overlaps none of the free ones, with its
place in the list. -/
structure Fits (base lo bp u : Nat) (s : Heap) (l₁ l₂ : List Nat) : Prop where
  size : s.size bp = u
  pos : 1 ≤ u
  low : lo ≤ bp
  high : bp + HDR * u ≤ s.brk
  before : ∀ a ∈ l₁, a + s.extent a ≤ bp
  behind : ∀ a ∈ l₂, bp + HDR * u ≤ a

theorem Fits.place {u : Nat} (h : Fits base lo bp u s l₁ l₂) (hbase : base + HDR ≤ lo) :
    Place base bp l₁ l₂ := by
  have hu := h.pos
  have hlow := h.low
  unfold HDR at hbase
  refine ⟨by omega, ?_, ?_⟩
  · intro a ha
    have h₁ := h.before a ha
    have h₂ := extent_pos s a
    unfold HDR at h₂
    omega
  · intro a ha
    have h₁ := h.behind a ha
    unfold HDR at h₁
    omega

/-- After `bp` was joined with what comes behind it. -/
structure JoinedNext (base bp u : Nat) (s s₁ : Heap) (l₂ l₂' : List Nat) : Prop where
  path : Path s₁.ptr bp l₂' base
  sub : l₂'.Sublist l₂
  behind : ∀ b ∈ l₂', bp + s₁.extent bp ≤ b
  bytes : ∀ x, bp ≤ x → x < bp + s₁.extent bp → x < bp + HDR * u ∨ FreeByte s l₂ x
  high : bp + s₁.extent bp ≤ s.brk
  last : l₂ = [] → s₁.size bp = u
  ptr : ∀ a, a ≠ bp → s₁.ptr a = s.ptr a
  size : ∀ a, a ≠ bp → s₁.size a = s.size a
  brk : s₁.brk = s.brk

theorem joinNext_spec {u : Nat} (h : FreeList base lo s (l₁ ++ l₂)) (hbase : base + HDR ≤ lo)
    (hfits : Fits base lo bp u s l₁ l₂) :
    ∃ l₂', JoinedNext base bp u s (Heap.joinNext bp (l₁.getLastD base) s) l₂ l₂' := by
  have hplace := hfits.place hbase
  have hlast : s.ptr (l₁.getLastD base) = l₂.headD base := (path_split h.circle).last
  have hu := hfits.pos
  unfold Heap.joinNext
  rw [hlast, hfits.size]
  split
  · next heq =>
    -- the next block starts where `bp` ends, so it is not `base`
    cases l₂ with
    | nil =>
      change bp + HDR * u = base at heq
      have := hplace.base
      omega
    | cons b l₂ =>
      change bp + HDR * u = b at heq
      have hb : b ≠ bp := by
        unfold HDR at heq
        omega
      have hpath : Path s.ptr b l₂ base := (path_append.mp h.circle).2
      have hnot : ∀ a ∈ l₂, a ≠ bp :=
        fun a ha ↦ Nat.ne_of_gt (hplace.behind a (List.mem_cons_of_mem _ ha))
      have hext : HDR * max 1 ((u + s.size b) % 2 ^ 32) ≤ HDR * u + s.extent b := by
        have hmod := Nat.mod_le (u + s.size b) (2 ^ 32)
        unfold Heap.extent
        rw [← Nat.mul_add]
        exact Nat.mul_le_mul_left HDR (by omega)
      have hapart : ∀ a ∈ l₂, b + s.extent b ≤ a :=
        (List.pairwise_cons.mp (List.pairwise_append.mp h.apart).2.1).1
      refine ⟨l₂, ?_, List.sublist_cons_self b l₂, ?_, ?_, ?_, (fun hn ↦ nomatch hn), ?_, ?_, rfl⟩
      · exact hpath.from (Function.update_self _ _ _)
          (fun a ha ↦ Function.update_of_ne (hnot a ha) _ _)
      · intro a ha
        have := hapart a ha
        unfold Heap.extent
        simp only [List.headD_cons, Function.update_self]
        omega
      · intro x hx hx'
        by_cases hin : x < bp + HDR * u
        · exact Or.inl hin
        · refine Or.inr ⟨b, List.mem_cons_self, by omega, ?_⟩
          unfold Heap.extent at hx'
          simp only [List.headD_cons, Function.update_self] at hx'
          omega
      · have := h.high b (List.mem_append_right _ List.mem_cons_self)
        unfold Heap.extent
        simp only [List.headD_cons, Function.update_self]
        omega
      · exact fun a ha ↦ Function.update_of_ne ha _ _
      · exact fun a ha ↦ Function.update_of_ne ha _ _
  · next heq =>
    have hext : HDR * max 1 (s.size bp) = HDR * u := by
      rw [hfits.size, Nat.max_eq_right hu]
    have hnot : ∀ a ∈ l₂, a ≠ bp := fun a ha ↦ Nat.ne_of_gt (hplace.behind a ha)
    have hpath : Path s.ptr (l₁.getLastD base) l₂ base := by
      cases l₂ with
      | nil => exact hlast
      | cons b l₂ => exact ⟨hlast, (path_append.mp h.circle).2⟩
    refine ⟨l₂, ?_, List.Sublist.refl _, ?_, ?_, ?_, fun _ ↦ hfits.size, ?_, fun _ _ ↦ rfl, rfl⟩
    · refine hpath.from ?_ (fun a ha ↦ Function.update_of_ne (hnot a ha) _ _)
      rw [hlast]
      exact Function.update_self _ _ _
    · intro a ha
      have := hfits.behind a ha
      unfold Heap.extent
      dsimp only
      omega
    · intro x hx hx'
      unfold Heap.extent at hx'
      dsimp only at hx'
      exact Or.inl (by omega)
    · have := hfits.high
      unfold Heap.extent
      dsimp only
      omega
    · exact fun a ha ↦ Function.update_of_ne ha _ _

/-- After a block of `u` units at `bp` was inserted. -/
structure Inserted (base lo bp u : Nat) (s t : Heap) (nodes nodes' : List Nat) : Prop where
  list : FreeList base lo t nodes'
  brk : t.brk = s.brk
  bytes : ∀ x, FreeByte t nodes' x → FreeByte s nodes x ∨ (bp ≤ x ∧ x < bp + HDR * u)
  size : ∀ a, a ≠ bp → a ∉ nodes → t.size a = s.size a
  large : (∀ a ∈ nodes, a < bp ∧ s.size a + u < 2 ^ 32) → ∃ a ∈ nodes', u ≤ t.size a

theorem freeByte_sublist {s₁ : Heap} {l l' : List Nat} (hsub : l'.Sublist l)
    (hsize : ∀ a ∈ l', s₁.size a = s.size a) {x : Nat} (hx : FreeByte s₁ l' x) :
    FreeByte s l x := by
  obtain ⟨a, ha, hle, hlt⟩ := hx
  refine ⟨a, hsub.subset ha, hle, ?_⟩
  unfold Heap.extent at hlt ⊢
  rw [hsize a ha] at hlt
  exact hlt

theorem freeByte_append {x : Nat} :
    FreeByte s (l₁ ++ l₂) x ↔ FreeByte s l₁ x ∨ FreeByte s l₂ x := by
  simp only [FreeByte, List.mem_append, or_and_right, exists_or]

theorem extent_congr {a : Nat} (h : t.size a = s.size a) : t.extent a = s.extent a := by
  unfold Heap.extent
  rw [h]

/-- The block becomes a node of its own. -/
theorem link_spec {u : Nat} {s₁ : Heap} {l₂' : List Nat} (h : FreeList base lo s (l₁ ++ l₂))
    (hbase : base + HDR ≤ lo) (hfits : Fits base lo bp u s l₁ l₂)
    (hj : JoinedNext base bp u s s₁ l₂ l₂') :
    Inserted base lo bp u s
      { s₁ with ptr := Function.update s₁.ptr (l₁.getLastD base) bp, freep := l₁.getLastD base }
      (l₁ ++ l₂) (l₁ ++ bp :: l₂') := by
  have hplace := hfits.place hbase
  have hnodup : (base :: l₁).Nodup := by
    have := h.nodup hbase
    rw [← List.cons_append] at this
    exact (List.nodup_append.mp this).1
  have hlast := getLastD_mem base l₁
  have hlow : ∀ a ∈ base :: l₁, a < bp := by
    intro a ha
    rcases List.mem_cons.mp ha with rfl | ha
    · exact hplace.base
    · exact hplace.before a ha
  have hhigh : ∀ a ∈ l₂', bp < a := fun a ha ↦ hplace.behind a (hj.sub.subset ha)
  have hsize₁ : ∀ a ∈ l₁, s₁.size a = s.size a :=
    fun a ha ↦ hj.size a (Nat.ne_of_lt (hplace.before a ha))
  have hsize₂ : ∀ a ∈ l₂', s₁.size a = s.size a := fun a ha ↦ hj.size a (Nat.ne_of_gt (hhigh a ha))
  have hpath : Path s₁.ptr base l₁ (l₂.headD base) :=
    (path_split h.circle).congr (fun a ha ↦ hj.ptr a (Nat.ne_of_lt (hlow a ha)))
  refine ⟨⟨?_, ?_, ?_, ?_, ?_, ?_⟩, hj.brk, ?_, ?_, ?_⟩
  · exact (hj.size base (Nat.ne_of_lt hplace.base)).trans h.sentinel
  · refine path_append.mpr ⟨hpath.redirect hnodup, hj.path.congr ?_⟩
    intro a ha
    apply Function.update_of_ne
    have hlt := hlow _ hlast
    rcases List.mem_cons.mp ha with rfl | ha
    · omega
    · have := hhigh a ha
      omega
  · obtain ⟨hapart₁, hapart₂, -⟩ := List.pairwise_append.mp h.apart
    refine List.pairwise_append.mpr ⟨?_, List.pairwise_cons.mpr ⟨hj.behind, ?_⟩, ?_⟩
    · apply hapart₁.imp_of_mem
      intro a b ha _ hab
      rw [extent_congr (s := s)]
      · exact hab
      · exact hsize₁ a ha
    · apply (hapart₂.sublist hj.sub).imp_of_mem
      intro a b ha _ hab
      rw [extent_congr (s := s)]
      · exact hab
      · exact hsize₂ a ha
    · intro a ha b hb
      rw [extent_congr (s := s)]
      · have := hfits.before a ha
        rcases List.mem_cons.mp hb with rfl | hb
        · exact this
        · have := hhigh b hb
          omega
      · exact hsize₁ a ha
  · intro a ha
    rcases List.mem_append.mp ha with ha | ha
    · exact h.low a (List.mem_append_left _ ha)
    · rcases List.mem_cons.mp ha with rfl | ha
      · exact hfits.low
      · exact h.low a (List.mem_append_right _ (hj.sub.subset ha))
  · intro a ha
    change a + s₁.extent a ≤ s₁.brk
    rw [hj.brk]
    rcases List.mem_append.mp ha with ha | ha
    · rw [extent_congr (hsize₁ a ha)]
      exact h.high a (List.mem_append_left _ ha)
    · rcases List.mem_cons.mp ha with rfl | ha
      · exact hj.high
      · rw [extent_congr (hsize₂ a ha)]
        exact h.high a (List.mem_append_right _ (hj.sub.subset ha))
  · change l₁.getLastD base ∈ base :: (l₁ ++ bp :: l₂')
    rw [← List.cons_append]
    exact List.mem_append_left _ hlast
  · intro x hx
    have hx' : FreeByte s₁ (l₁ ++ bp :: l₂') x := hx
    rw [freeByte_append] at hx' ⊢
    rcases hx' with hx | ⟨a, ha, hle, hlt⟩
    · exact Or.inl (Or.inl (freeByte_sublist (List.Sublist.refl _) hsize₁ hx))
    · rcases List.mem_cons.mp ha with rfl | ha
      · rcases hj.bytes x hle hlt with hin | hin
        · exact Or.inr ⟨hle, hin⟩
        · exact Or.inl (Or.inr hin)
      · exact Or.inl (Or.inr (freeByte_sublist hj.sub hsize₂ ⟨a, ha, hle, hlt⟩))
  · exact fun a ha _ ↦ hj.size a ha
  · intro hall
    have hnil : l₂ = [] := by
      cases l₂ with
      | nil => rfl
      | cons b l₂ =>
        have h₁ := hplace.behind b List.mem_cons_self
        have h₂ := (hall b (List.mem_append_right _ List.mem_cons_self)).1
        omega
    exact ⟨bp, List.mem_append_right _ List.mem_cons_self, Nat.le_of_eq (hj.last hnil).symm⟩

/-- The block before swallows the new one. -/
theorem swallow_spec {u p : Nat} {s₁ : Heap} {l₂' : List Nat}
    (h : FreeList base lo s (l₁ ++ p :: l₂)) (hbase : base + HDR ≤ lo)
    (hfits : Fits base lo bp u s (l₁ ++ [p]) l₂) (hj : JoinedNext base bp u s s₁ l₂ l₂')
    (hadj : p + HDR * s.size p = bp) :
    Inserted base lo bp u s
      { s₁ with
        size := Function.update s₁.size p ((s₁.size p + s₁.size bp) % 2 ^ 32)
        ptr := Function.update s₁.ptr p (s₁.ptr bp)
        freep := p }
      (l₁ ++ p :: l₂) (l₁ ++ p :: l₂') := by
  have hplace := hfits.place hbase
  have hp : p < bp := hplace.before p (List.mem_append_right _ List.mem_cons_self)
  have hnodup := h.nodup hbase
  have hpos : 1 ≤ s.size p := by
    by_contra hzero
    have hnone : s.size p = 0 := by omega
    rw [hnone] at hadj
    omega
  have hbefore : ∀ a ∈ base :: l₁, a ≠ p := by
    intro a ha heq
    rw [← List.cons_append] at hnodup
    exact (List.nodup_append.mp hnodup).2.2 a ha p List.mem_cons_self heq
  have hbehind : ∀ a ∈ l₂', bp < a := fun a ha ↦ hplace.behind a (hj.sub.subset ha)
  have hbelow : ∀ a ∈ base :: l₁, a < bp := by
    intro a ha
    rcases List.mem_cons.mp ha with rfl | ha
    · exact hplace.base
    · exact hplace.before a (List.mem_append_left _ ha)
  have hsizep : s₁.size p = s.size p := hj.size p (Nat.ne_of_lt hp)
  generalize ht : ({ s₁ with
      size := Function.update s₁.size p ((s₁.size p + s₁.size bp) % 2 ^ 32)
      ptr := Function.update s₁.ptr p (s₁.ptr bp)
      freep := p } : Heap) = t
  have hsize₁ : ∀ a ∈ base :: l₁, t.size a = s.size a := by
    intro a ha
    rw [← ht]
    exact (Function.update_of_ne (hbefore a ha) _ _).trans (hj.size a (Nat.ne_of_lt (hbelow a ha)))
  have hsize₂ : ∀ a ∈ l₂', t.size a = s.size a := by
    intro a ha
    have hlt := hbehind a ha
    rw [← ht]
    exact (Function.update_of_ne (by omega) _ _).trans (hj.size a (Nat.ne_of_gt hlt))
  have hsize : t.size p = (s.size p + s₁.size bp) % 2 ^ 32 := by
    rw [← ht, ← hsizep]
    exact Function.update_self _ _ _
  have hbrk : t.brk = s.brk := by
    rw [← ht]
    exact hj.brk
  -- the new block ends where the joined one ended, or before
  have hext : p + t.extent p ≤ bp + s₁.extent bp := by
    have hmod := Nat.mod_le (s.size p + s₁.size bp) (2 ^ 32)
    have hmul : HDR * max 1 ((s.size p + s₁.size bp) % 2 ^ 32) ≤
        HDR * s.size p + HDR * max 1 (s₁.size bp) := by
      rw [← Nat.mul_add]
      exact Nat.mul_le_mul_left HDR (by omega)
    unfold Heap.extent
    rw [hsize]
    omega
  obtain ⟨hapart₁, hapart₂, hcross⟩ := List.pairwise_append.mp h.apart
  refine ⟨⟨?_, ?_, ?_, ?_, ?_, ?_⟩, hbrk, ?_, ?_, ?_⟩
  · rw [hsize₁ base List.mem_cons_self]
    exact h.sentinel
  · have hleft : Path s.ptr base l₁ p := (path_append.mp h.circle).1
    refine path_append.mpr ⟨?_, ?_⟩
    · apply hleft.congr
      intro a ha
      rw [← ht]
      exact (Function.update_of_ne (hbefore a ha) _ _).trans (hj.ptr a (Nat.ne_of_lt (hbelow a ha)))
    · refine hj.path.from ?_ ?_
      · rw [← ht]
        exact Function.update_self _ _ _
      · intro a ha
        have hlt := hbehind a ha
        rw [← ht]
        exact Function.update_of_ne (by omega) _ _
  · refine List.pairwise_append.mpr ⟨?_, List.pairwise_cons.mpr ⟨?_, ?_⟩, ?_⟩
    · apply hapart₁.imp_of_mem
      intro a b ha _ hab
      rw [extent_congr (hsize₁ a (List.mem_cons_of_mem _ ha))]
      exact hab
    · intro b hb
      exact Nat.le_trans hext (hj.behind b hb)
    · apply ((List.pairwise_cons.mp hapart₂).2.sublist hj.sub).imp_of_mem
      intro a b ha _ hab
      rw [extent_congr (hsize₂ a ha)]
      exact hab
    · intro a ha b hb
      rw [extent_congr (hsize₁ a (List.mem_cons_of_mem _ ha))]
      rcases List.mem_cons.mp hb with rfl | hb
      · exact hcross a ha b List.mem_cons_self
      · exact hcross a ha b (List.mem_cons_of_mem _ (hj.sub.subset hb))
  · intro a ha
    rcases List.mem_append.mp ha with ha | ha
    · exact h.low a (List.mem_append_left _ ha)
    · rcases List.mem_cons.mp ha with rfl | ha
      · exact h.low a (List.mem_append_right _ List.mem_cons_self)
      · exact h.low a (List.mem_append_right _ (List.mem_cons_of_mem _ (hj.sub.subset ha)))
  · intro a ha
    rw [hbrk]
    rcases List.mem_append.mp ha with ha | ha
    · rw [extent_congr (hsize₁ a (List.mem_cons_of_mem _ ha))]
      exact h.high a (List.mem_append_left _ ha)
    · rcases List.mem_cons.mp ha with rfl | ha
      · exact Nat.le_trans hext hj.high
      · rw [extent_congr (hsize₂ a ha)]
        exact h.high a (List.mem_append_right _ (List.mem_cons_of_mem _ (hj.sub.subset ha)))
  · rw [← ht]
    exact List.mem_cons_of_mem _ (List.mem_append_right _ List.mem_cons_self)
  · rintro x ⟨a, ha, hle, hlt⟩
    rcases List.mem_append.mp ha with ha | ha
    · rw [extent_congr (hsize₁ a (List.mem_cons_of_mem _ ha))] at hlt
      exact Or.inl ⟨a, List.mem_append_left _ ha, hle, hlt⟩
    · rcases List.mem_cons.mp ha with rfl | ha
      · by_cases hx : x < bp
        · refine Or.inl ⟨a, List.mem_append_right _ List.mem_cons_self, hle, ?_⟩
          unfold Heap.extent
          rw [Nat.max_eq_right hpos, hadj]
          exact hx
        · rcases hj.bytes x (Nat.le_of_not_lt hx) (Nat.lt_of_lt_of_le hlt hext) with
            hin | ⟨b, hb, hin⟩
          · exact Or.inr ⟨Nat.le_of_not_lt hx, hin⟩
          · exact Or.inl ⟨b, List.mem_append_right _ (List.mem_cons_of_mem _ hb), hin⟩
      · rw [extent_congr (hsize₂ a ha)] at hlt
        refine Or.inl ⟨a, ?_, hle, hlt⟩
        exact List.mem_append_right _ (List.mem_cons_of_mem _ (hj.sub.subset ha))
  · intro a ha hout
    have hne : a ≠ p := by
      rintro rfl
      exact hout (List.mem_append_right _ List.mem_cons_self)
    rw [← ht]
    exact (Function.update_of_ne hne _ _).trans (hj.size a ha)
  · intro hall
    have hnil : l₂ = [] := by
      cases l₂ with
      | nil => rfl
      | cons b l₂ =>
        have h₁ := hplace.behind b List.mem_cons_self
        have h₂ := (hall b (List.mem_append_right _ (List.mem_cons_of_mem _ List.mem_cons_self))).1
        omega
    refine ⟨p, List.mem_append_right _ List.mem_cons_self, ?_⟩
    have hroom := (hall p (List.mem_append_right _ List.mem_cons_self)).2
    rw [hsize, hj.last hnil, Nat.mod_eq_of_lt hroom]
    omega

/-- `free` inserts a block. -/
theorem free_spec {u : Nat} (h : FreeList base lo s (l₁ ++ l₂)) (hbase : base + HDR ≤ lo)
    (hfits : Fits base lo bp u s l₁ l₂) :
    ∃ t nodes', Inserted base lo bp u s t (l₁ ++ l₂) nodes' ∧
      ∀ fuel, (l₁ ++ l₂).length < fuel → s.free fuel (bp + HDR) = some t := by
  have hplace := hfits.place hbase
  obtain ⟨l₂', hj⟩ := joinNext_spec h hbase hfits
  have hfree {t : Heap}
      (ht : { Heap.joinPrev bp (l₁.getLastD base) (Heap.joinNext bp (l₁.getLastD base) s) with
        freep := l₁.getLastD base } = t) (fuel : Nat) (hfuel : (l₁ ++ l₂).length < fuel) :
      s.free fuel (bp + HDR) = some t := by
    rw [Heap.free, Nat.add_sub_cancel, findPlace_spec h hbase hplace hfuel, ← ht]
    rfl
  by_cases hadj : l₁.getLastD base + HDR * (Heap.joinNext bp (l₁.getLastD base) s).size
      (l₁.getLastD base) = bp
  · -- `base` has size 0, so the block before is another one
    obtain ⟨m, p, rfl⟩ : ∃ m p, l₁ = m ++ [p] := by
      rcases List.eq_nil_or_concat l₁ with rfl | ⟨m, p, heq⟩
      · change base + HDR * (Heap.joinNext bp base s).size base = bp at hadj
        have hzero : (Heap.joinNext bp base s).size base = s.size base :=
          hj.size base (Nat.ne_of_lt hplace.base)
        rw [hzero, h.sentinel] at hadj
        have := hplace.base
        omega
      · exact ⟨m, p, by rw [heq, List.concat_eq_append]⟩
    have hlast : (m ++ [p]).getLastD base = p := by
      rw [List.getLastD_eq_getLast?, List.getLast?_concat]
      rfl
    have hp : p ≠ bp := Nat.ne_of_lt (hplace.before p (List.mem_append_right _ List.mem_cons_self))
    rw [hlast] at hj hadj hfree
    rw [List.append_assoc] at h hfree ⊢
    have hadj' : p + HDR * s.size p = bp := by
      rw [← hj.size p hp]
      exact hadj
    refine ⟨_, _, swallow_spec h hbase hfits hj hadj', hfree ?_⟩
    rw [Heap.joinPrev, if_pos hadj]
  · refine ⟨_, _, link_spec h hbase hfits hj, hfree ?_⟩
    rw [Heap.joinPrev, if_neg hadj]

/-- A sorted list is split at an address. -/
theorem split_sorted (bp : Nat) {l : List Nat} (hl : l.Pairwise (· < ·)) :
    ∃ l₁ l₂, l = l₁ ++ l₂ ∧ (∀ a ∈ l₁, a < bp) ∧ ∀ a ∈ l₂, bp ≤ a := by
  induction l with
  | nil => exact ⟨[], [], rfl, (fun _ ha ↦ nomatch ha), (fun _ ha ↦ nomatch ha)⟩
  | cons b l ih =>
    rw [List.pairwise_cons] at hl
    by_cases hb : b < bp
    · obtain ⟨l₁, l₂, rfl, h₁, h₂⟩ := ih hl.2
      refine ⟨b :: l₁, l₂, rfl, ?_, h₂⟩
      intro a ha
      rcases List.mem_cons.mp ha with rfl | ha
      · exact hb
      · exact h₁ a ha
    · refine ⟨[], b :: l, rfl, (fun _ ha ↦ nomatch ha), ?_⟩
      intro a ha
      rcases List.mem_cons.mp ha with rfl | ha
      · omega
      · have := hl.1 a ha
        omega

/-- A block that overlaps no free block has a place between them. -/
theorem exists_fits {u : Nat} (h : FreeList base lo s nodes) (hbase : base + HDR ≤ lo)
    (hsize : s.size bp = u) (hpos : 1 ≤ u) (hlow : lo ≤ bp) (hhigh : bp + HDR * u ≤ s.brk)
    (hout : ∀ x, bp ≤ x → x < bp + HDR * u → ¬ FreeByte s nodes x) :
    ∃ l₁ l₂, nodes = l₁ ++ l₂ ∧ Fits base lo bp u s l₁ l₂ := by
  obtain ⟨l₁, l₂, rfl, h₁, h₂⟩ := split_sorted bp (List.pairwise_cons.mp (h.sorted hbase)).2
  refine ⟨l₁, l₂, rfl, hsize, hpos, hlow, hhigh, ?_, ?_⟩
  · intro a ha
    by_contra hlt
    refine hout bp (Nat.le_refl _) ?_
      ⟨a, List.mem_append_left _ ha, Nat.le_of_lt (h₁ a ha), by omega⟩
    unfold HDR
    omega
  · intro a ha
    by_contra hlt
    refine hout a (h₂ a ha) (by omega)
      (freeByte_head (List.mem_append_right _ ha) (Nat.le_refl _) ?_)
    unfold HDR
    omega

/-! ### Removal -/

/-- After a block of `nunits` units at `hd` was taken off the list. -/
structure Taken (base lo nunits hd : Nat) (s t : Heap) (nodes nodes' : List Nat) : Prop where
  list : FreeList base lo t nodes'
  brk : t.brk = s.brk
  size : t.size hd = nunits
  bytes : ∀ x, hd ≤ x → x < hd + HDR * nunits → FreeByte s nodes x ∧ ¬ FreeByte t nodes' x
  sub : ∀ x, FreeByte t nodes' x → FreeByte s nodes x
  other : ∀ a, ¬ FreeByte s nodes a → t.size a = s.size a

/-- The blocks on the list share no byte. -/
theorem FreeList.same (h : FreeList base lo s nodes) {a b x : Nat} (ha : a ∈ nodes) (hb : b ∈ nodes)
    (hax : a ≤ x ∧ x < a + s.extent a) (hbx : b ≤ x ∧ x < b + s.extent b) : a = b := by
  by_contra hne
  have hapart : a + s.extent a ≤ b ∨ b + s.extent b ≤ a := by
    have : Std.Symm fun a b ↦ a + s.extent a ≤ b ∨ b + s.extent b ≤ a := ⟨fun _ _ hor ↦ hor.symm⟩
    have hsym : nodes.Pairwise fun a b ↦ a + s.extent a ≤ b ∨ b + s.extent b ≤ a :=
      h.apart.imp Or.inl
    exact hsym.forall ha hb hne
  omega

/-- All of the block is used. -/
theorem take_all {p nunits : Nat} (h : FreeList base lo s (l₁ ++ p :: l₂)) (hbase : base + HDR ≤ lo)
    (hpos : 1 ≤ nunits) (hsize : s.size p = nunits) :
    Taken base lo nunits p s
      { s with
        ptr := Function.update s.ptr (l₁.getLastD base) (s.ptr p), freep := l₁.getLastD base }
      (l₁ ++ p :: l₂) (l₁ ++ l₂) := by
  have hsub : (l₁ ++ l₂).Sublist (l₁ ++ p :: l₂) :=
    List.Sublist.append_left (List.sublist_cons_self p l₂) l₁
  have hmem : p ∈ l₁ ++ p :: l₂ := List.mem_append_right _ List.mem_cons_self
  have hnot : p ∉ l₁ ++ l₂ := by
    have hnodup := (List.nodup_cons.mp (h.nodup hbase)).2
    exact (List.nodup_cons.mp (List.nodup_middle.mp hnodup)).1
  have hext : s.extent p = HDR * nunits := by
    unfold Heap.extent
    rw [hsize, Nat.max_eq_right hpos]
  refine ⟨⟨h.sentinel, h.circle.unlink (h.nodup hbase), h.apart.sublist hsub,
    fun a ha ↦ h.low a (hsub.subset ha), fun a ha ↦ h.high a (hsub.subset ha), ?_⟩, rfl, hsize, ?_,
    fun x hx ↦ freeByte_sublist hsub (fun _ _ ↦ rfl) hx, fun _ _ ↦ rfl⟩
  · change l₁.getLastD base ∈ base :: (l₁ ++ l₂)
    rw [← List.cons_append]
    exact List.mem_append_left _ (getLastD_mem base l₁)
  · intro x hle hlt
    rw [← hext] at hlt
    refine ⟨⟨p, hmem, hle, hlt⟩, ?_⟩
    rintro ⟨a, ha, hax⟩
    rw [h.same hmem (hsub.subset ha) ⟨hle, hlt⟩ hax] at hnot
    exact hnot ha

/-- The tail of the block is used. -/
theorem take_tail {p nunits : Nat} (h : FreeList base lo s nodes) (hmem : p ∈ nodes) {prevp : Nat}
    (hprev : prevp ∈ base :: nodes) (hbase : base + HDR ≤ lo) (hpos : 1 ≤ nunits)
    (hsize : nunits < s.size p) :
    Taken base lo nunits (p + HDR * (s.size p - nunits)) s
      { s with
        size := Function.update (Function.update s.size p (s.size p - nunits))
          (p + HDR * (s.size p - nunits)) nunits
        freep := prevp }
      nodes nodes := by
  have hrest : 1 ≤ s.size p - nunits := by omega
  have hold : s.extent p = HDR * s.size p := by
    unfold Heap.extent
    rw [Nat.max_eq_right (by omega)]
  have hsum : HDR * (s.size p - nunits) + HDR * nunits = HDR * s.size p := by
    rw [← Nat.mul_add, Nat.sub_add_cancel (Nat.le_of_lt hsize)]
  have htail : p < p + HDR * (s.size p - nunits) ∧
      p + HDR * (s.size p - nunits) < p + s.extent p := by
    rw [hold]
    unfold HDR at hsum ⊢
    omega
  have hlow := h.low p hmem
  -- the new header is not one of the list
  have hfresh : ∀ a ∈ base :: nodes, a ≠ p + HDR * (s.size p - nunits) := by
    intro a ha heq
    rcases List.mem_cons.mp ha with rfl | ha
    · unfold HDR at hbase heq
      omega
    · have hsame : p = a := by
        apply h.same hmem ha ⟨Nat.le_of_lt htail.1, htail.2⟩
        rw [← heq]
        have hext := extent_pos s a
        unfold HDR at hext
        exact ⟨Nat.le_refl _, by omega⟩
      omega
  generalize ht : ({ s with
      size := Function.update (Function.update s.size p (s.size p - nunits))
        (p + HDR * (s.size p - nunits)) nunits
      freep := prevp } : Heap) = t
  have hsizep : t.size p = s.size p - nunits := by
    rw [← ht]
    exact (Function.update_of_ne (hfresh p (List.mem_cons_of_mem _ hmem)) _ _).trans
      (Function.update_self _ _ _)
  have hsize' : ∀ a, a ≠ p → a ≠ p + HDR * (s.size p - nunits) → t.size a = s.size a := by
    intro a hap haq
    rw [← ht]
    exact (Function.update_of_ne haq _ _).trans (Function.update_of_ne hap _ _)
  have hextp : t.extent p = HDR * (s.size p - nunits) := by
    unfold Heap.extent
    rw [hsizep, Nat.max_eq_right hrest]
  have hshrink : ∀ a ∈ nodes, t.extent a ≤ s.extent a := by
    intro a ha
    by_cases hap : a = p
    · rw [hap, hextp]
      omega
    · exact Nat.le_of_eq (extent_congr (hsize' a hap (hfresh a (List.mem_cons_of_mem _ ha))))
  have hbrk : t.brk = s.brk := by rw [← ht]
  have hptr : t.ptr = s.ptr := by rw [← ht]
  refine ⟨⟨?_, ?_, ?_, h.low, ?_, ?_⟩, hbrk, ?_, ?_, ?_, ?_⟩
  · have hne : base ≠ p := by
      unfold HDR at hbase
      omega
    rw [hsize' base hne (hfresh base List.mem_cons_self)]
    exact h.sentinel
  · rw [hptr]
    exact h.circle
  · apply h.apart.imp_of_mem
    intro a b ha _ hab
    have := hshrink a ha
    omega
  · intro a ha
    have h₁ := hshrink a ha
    have h₂ := h.high a ha
    rw [hbrk]
    omega
  · rw [← ht]
    exact hprev
  · rw [← ht]
    exact Function.update_self _ _ _
  · intro x hle hlt
    have hin : p ≤ x ∧ x < p + s.extent p := by omega
    refine ⟨⟨p, hmem, hin⟩, ?_⟩
    rintro ⟨a, ha, hax, hax'⟩
    have hbig := hshrink a ha
    have hsame := h.same hmem ha hin ⟨hax, by omega⟩
    rw [← hsame, hextp] at hax'
    omega
  · rintro x ⟨a, ha, hax, hax'⟩
    have hbig := hshrink a ha
    exact ⟨a, ha, hax, by omega⟩
  · intro a hout
    apply hsize'
    · rintro rfl
      exact hout (freeByte_head hmem (Nat.le_refl _) (by unfold HDR; omega))
    · rintro rfl
      exact hout ⟨p, hmem, Nat.le_of_lt htail.1, htail.2⟩

end

end Xv6.Malloc
