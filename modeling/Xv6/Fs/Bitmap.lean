import Xv6.Fs.Layout
import Xv6.Lib.Search

/-!
# The block allocator

`balloc`, `bfree` and `bzero` of `kernel/fs.c`. The disk is the one that `bread` shows: the
contents of the buffers over those of the sectors.
-/

namespace Xv6.Fs

open Xv6.Lib

/-- Is block `b` marked in use in the free map? -/
def used (sb : Super) (d : Disk) (b : Nat) : Bool := usedBit (d (sb.bblock b)) (b % BPB)

/-- The loops of `balloc` from block `k` of the free map on, for `n` blocks of it;
`kernel/fs.c:72–86`. -/
def ballocScan (sb : Super) (d : Disk) (k : Nat) : Nat → Option Nat
  | 0 => none
  | n + 1 =>
    let b := k * BPB
    match firstFrom (fun bi ↦ !usedBit (d (sb.bblock b)) bi) 0 (min BPB (sb.size - b)) with
    | some bi => some (b + bi)
    | none => ballocScan sb d (k + 1) n

/-- `bzero`; `kernel/fs.c:50–58`. -/
def bzero (bno : Nat) (d : Disk) : Disk := Function.update d bno zeroBlock

/-- Mark block `b` in use. -/
def mark (sb : Super) (b : Nat) (d : Disk) : Disk :=
  Function.update d (sb.bblock b) (markBit (d (sb.bblock b)) (b % BPB))

/-- `balloc`: a zeroed block, or 0 if there is none; `kernel/fs.c:65–89`. -/
def balloc (sb : Super) (d : Disk) : Nat × Disk :=
  match ballocScan sb d 0 ((sb.size + BPB - 1) / BPB) with
  | some b => (b, bzero b (mark sb b d))
  | none => (0, d)

/-- `bfree`; `kernel/fs.c:92–105`. -/
def bfree (sb : Super) (b : Nat) (d : Disk) : Except String Disk :=
  if used sb d b then
    .ok (Function.update d (sb.bblock b) (clearBit (d (sb.bblock b)) (b % BPB)))
  else .error "freeing free block"

/-- The number of blocks that are not marked. -/
def freeBlocks (sb : Super) (d : Disk) : Nat := (List.range sb.size).countP (fun b ↦ !used sb d b)

variable {sb : Super} {d : Disk}

/-- The bit of a block is in one place of the free map. -/
theorem bblock_eq_iff {b b' : Nat} (hmod : b % BPB = b' % BPB) :
    sb.bblock b = sb.bblock b' ↔ b = b' := by
  simp only [Super.bblock, BPB, BSIZE] at hmod ⊢
  omega

theorem used_mark (b b' : Nat) :
    used sb (mark sb b d) b' = if b' = b then true else used sb d b' := by
  unfold used mark
  by_cases hblk : sb.bblock b' = sb.bblock b
  · rw [hblk, Function.update_self, usedBit_markBit]
    by_cases heq : b' = b
    · simp [heq]
    · have hne : b' % BPB ≠ b % BPB := fun hmod ↦ heq ((bblock_eq_iff hmod).mp hblk)
      rw [if_neg hne, if_neg heq]
  · have heq : b' ≠ b := by
      rintro rfl
      exact hblk rfl
    rw [Function.update_of_ne hblk, if_neg heq]

/-- Changing blocks outside the free map changes no mark. -/
theorem used_congr {d' : Disk} {b : Nat} (h : d' (sb.bblock b) = d (sb.bblock b)) :
    used sb d' b = used sb d b := by rw [used, used, h]

/-- The scan finds the least block below `size` that is not marked. -/
theorem ballocScan_eq_some {k n b : Nat} (h : ballocScan sb d k n = some b) :
    k * BPB ≤ b ∧ b < sb.size ∧ used sb d b = false ∧
      ∀ b', k * BPB ≤ b' → b' < b → used sb d b' = true := by
  induction n generalizing k with
  | zero => cases h
  | succ n ih =>
    -- bits of one block of the map
    have hused {bi : Nat} (hbi : bi < BPB) :
        usedBit (d (sb.bblock (k * BPB))) bi = used sb d (k * BPB + bi) := by
      have hdiv : sb.bblock (k * BPB + bi) = sb.bblock (k * BPB) := by
        simp only [Super.bblock, BPB, BSIZE] at hbi ⊢
        omega
      have hmod : (k * BPB + bi) % BPB = bi := by
        simp only [BPB, BSIZE] at hbi ⊢
        omega
      rw [used, hdiv, hmod]
    rw [ballocScan] at h
    split at h
    · next bi hfind =>
      cases Option.some.inj h
      obtain ⟨-, hlt, hfree, hbefore⟩ := firstFrom_eq_some hfind
      refine ⟨by omega, by omega, ?_, ?_⟩
      · rw [← hused (by omega)]
        simpa using hfree
      · intro b' hlo hhi
        have := hbefore (b' - k * BPB) (by omega) (by omega)
        rw [hused (by omega), Nat.add_sub_cancel' hlo] at this
        simpa using this
    · next hnone =>
      obtain ⟨hlo, hsize, hfree, hbefore⟩ := ih h
      rw [Nat.add_mul] at hlo
      refine ⟨by omega, hsize, hfree, ?_⟩
      intro b' hlo' hhi'
      by_cases hnext : (k + 1) * BPB ≤ b'
      · exact hbefore b' hnext hhi'
      · rw [Nat.add_mul] at hnext
        have := firstFrom_eq_none hnone (b' - k * BPB) (by omega) (by omega)
        rw [hused (by omega), Nat.add_sub_cancel' hlo'] at this
        simpa using this

/-- The scan fails only if every block is marked. -/
theorem ballocScan_eq_none {k n : Nat} (h : ballocScan sb d k n = none) :
    ∀ b, k * BPB ≤ b → b < (k + n) * BPB → b < sb.size → used sb d b = true := by
  induction n generalizing k with
  | zero =>
    intro b hlo hhi
    rw [Nat.add_zero] at hhi
    omega
  | succ n ih =>
    rw [ballocScan] at h
    split at h
    · cases h
    · next hnone =>
      intro b hlo hhi hsize
      by_cases hnext : (k + 1) * BPB ≤ b
      · exact ih h b hnext (by rw [show k + 1 + n = k + (n + 1) by omega]; exact hhi) hsize
      · rw [Nat.add_mul] at hnext
        have := firstFrom_eq_none hnone (b - k * BPB) (by omega) (by omega)
        have hdiv : sb.bblock b = sb.bblock (k * BPB) := by
          simp only [Super.bblock, BPB, BSIZE] at hlo hnext ⊢
          omega
        have hmod : b % BPB = b - k * BPB := by
          simp only [BPB, BSIZE] at hlo hnext ⊢
          omega
        rw [used, hdiv, hmod]
        simpa using this

/-- What `balloc` does when all metadata blocks are marked: it returns the least free block,
which is a data block, or 0 if every block is marked. -/
theorem balloc_cases (hmeta : ∀ b, b < sb.nmeta → used sb d b = true) :
    (balloc sb d = (0, d) ∧ ∀ b, b < sb.size → used sb d b = true) ∨
    ∃ b, balloc sb d = (b, bzero b (mark sb b d)) ∧ sb.IsData b ∧ used sb d b = false ∧
      ∀ b', b' < b → used sb d b' = true := by
  unfold balloc
  split
  · next b hscan =>
    obtain ⟨-, hsize, hfree, hbefore⟩ := ballocScan_eq_some hscan
    refine Or.inr ⟨b, rfl, ⟨?_, hsize⟩, hfree, fun b' hb' ↦ hbefore b' (by omega) hb'⟩
    apply Nat.le_of_not_lt
    intro hlt
    rw [hmeta b hlt] at hfree
    cases hfree
  · next hscan =>
    refine Or.inl ⟨rfl, ?_⟩
    intro b hb
    apply ballocScan_eq_none hscan b (by omega) _ hb
    simp only [BPB, BSIZE]
    omega

/-- The marks after `balloc` gave out block `b`. -/
theorem used_balloc {b : Nat} (hb : sb.IsData b) {b' : Nat} (hb' : b' < sb.size) :
    used sb (bzero b (mark sb b d)) b' = if b' = b then true else used sb d b' := by
  rw [← used_mark]
  exact used_congr (Function.update_of_ne (hb.ne_bblock hb').symm _ _)

theorem freeBlocks_congr {d' : Disk} (h : ∀ b, b < sb.size → used sb d' b = used sb d b) :
    freeBlocks sb d' = freeBlocks sb d := by
  apply List.countP_congr
  intro b hb
  rw [h b (List.mem_range.mp hb)]

theorem freeBlocks_eq_zero (h : ∀ b, b < sb.size → used sb d b = true) : freeBlocks sb d = 0 := by
  apply List.countP_eq_zero.mpr
  intro b hb
  rw [h b (List.mem_range.mp hb)]
  decide

/-- `balloc` takes one free block. -/
theorem freeBlocks_balloc {b : Nat} (hb : sb.IsData b) (hfree : used sb d b = false) :
    freeBlocks sb d = freeBlocks sb (bzero b (mark sb b d)) + 1 := by
  have hcount : freeBlocks sb (bzero b (mark sb b d)) =
      (List.range sb.size).countP (fun b' ↦ !(if b' = b then true else used sb d b')) := by
    apply List.countP_congr
    intro b' hb'
    rw [used_balloc hb (List.mem_range.mp hb')]
  rw [hcount]
  refine countP_eq_add_one (x := b) (by rw [hfree]; rfl) (by rw [if_pos rfl]; rfl) ?_
    List.nodup_range (List.mem_range.mpr hb.2)
  intro b' hb'
  rw [if_neg hb']

/-- `bfree` of a marked block clears its mark and no other. -/
theorem bfree_ok {b : Nat} (h : used sb d b = true) :
    ∃ d', bfree sb b d = .ok d' ∧ (∀ x, x ≠ sb.bblock b → d' x = d x) ∧
      ∀ b', used sb d' b' = if b' = b then false else used sb d b' := by
  refine ⟨_, if_pos h, fun x hx ↦ Function.update_of_ne hx _ _, ?_⟩
  intro b'
  unfold used
  by_cases hblk : sb.bblock b' = sb.bblock b
  · rw [hblk, Function.update_self, usedBit_clearBit]
    by_cases heq : b' = b
    · simp [heq]
    · have hne : b' % BPB ≠ b % BPB := fun hmod ↦ heq ((bblock_eq_iff hmod).mp hblk)
      rw [if_neg hne, if_neg heq]
  · have heq : b' ≠ b := by
      rintro rfl
      exact hblk rfl
    rw [Function.update_of_ne hblk, if_neg heq]

end Xv6.Fs
