import Xv6.Mkfs.Simulation

/-!
# The free map as a set of blocks

`balloc` and `bfree` of `kernel/fs.c` for every superblock, with the arithmetic of their variables:
`b` and `bi` are `int`s, `sb.size`, `sb.bmapstart` and the block numbers are `uint`s. The map stands
for the set of the blocks whose bit is set. The kernel takes the least block that is not in the set,
and `balloc` of `mkfs` writes a first segment of the block numbers.
-/

namespace Xv6.Freemap

open Xv6.Lib Xv6.Fs

/-- The fields of the superblock that the allocator reads; both are `uint`s. -/
structure Geometry where
  size : Nat
  bmapstart : Nat
  size_lt : size < 2 ^ 32
  bmapstart_lt : bmapstart < 2 ^ 32

namespace Geometry

variable (g : Geometry)

/-- `BBLOCK(b, sb)`, a `uint`; `kernel/fs.h:51`. -/
def BBLOCK (b : Nat) : Nat := (b / BPB + g.bmapstart) % 2 ^ 32

/-- The set that the free map stands for: the blocks whose bit is set. -/
def inUse (d : Disk) (b : Nat) : Bool := usedBit (d (g.BBLOCK b)) (b % BPB)

/-- The inner loop of `balloc` over the bits of the block that covers the blocks from `b` on;
`kernel/fs.c:74–83`. -/
def scanBits (blk : Block) (b : Nat) : Option Nat :=
  firstFrom (fun bi ↦ !usedBit blk bi) 0 (min BPB (g.size - b))

/-- The outer loop of `balloc`, with `b` and `bi` where it stops. Its counter is an `int`, for which
`b += BPB` must not overflow; `kernel/fs.c:72–85`. -/
def scan (d : Disk) (b : Nat) : Except String (Option (Nat × Nat)) :=
  if b < g.size then
    match g.scanBits (d (g.BBLOCK b)) b with
    | some bi => .ok (some (b, bi))
    | none => if b + BPB < 2 ^ 31 then scan d (b + BPB) else .error "b += BPB overflows"
  else .ok none
termination_by 2 ^ 31 - b
decreasing_by
  simp only [BPB, BSIZE] at *
  omega

/-- `balloc`: the number of a zeroed block, or 0; `kernel/fs.c:65–88`. -/
def balloc (d : Disk) : Except String (Nat × Disk) := do
  match ← g.scan d 0 with
  | some (b, bi) =>
    let d := Function.update d (g.BBLOCK b) (markBit (d (g.BBLOCK b)) bi)
    return (b + bi, bzero (b + bi) d)
  | none => return (0, d)

/-- `bfree`; `kernel/fs.c:91–105`. -/
def bfree (b : Nat) (d : Disk) : Except String Disk :=
  let bi := b % BPB
  if usedBit (d (g.BBLOCK b)) bi then
    .ok (Function.update d (g.BBLOCK b) (clearBit (d (g.BBLOCK b)) bi))
  else .error "freeing free block"

end Geometry

variable {g : Geometry} {d d' : Disk} {b bi : Nat}

/-! ### Where the bit of a block is -/

/-- The bits of one block of the map belong to consecutive blocks. -/
theorem BBLOCK_add (hb : BPB ∣ b) (hbi : bi < BPB) : g.BBLOCK (b + bi) = g.BBLOCK b := by
  obtain ⟨k, rfl⟩ := hb
  have hpos : 0 < BPB := by decide
  rw [Geometry.BBLOCK, Geometry.BBLOCK, Nat.mul_add_div hpos, Nat.div_eq_of_lt hbi,
    Nat.mul_div_cancel_left k hpos, Nat.add_zero]

theorem inUse_add (hb : BPB ∣ b) (hbi : bi < BPB) :
    g.inUse d (b + bi) = usedBit (d (g.BBLOCK b)) bi := by
  obtain ⟨k, rfl⟩ := hb
  rw [Geometry.inUse, BBLOCK_add (Dvd.intro k rfl) hbi, Nat.mul_add_mod, Nat.mod_eq_of_lt hbi]

/-- Two block numbers with their bits in the same place are the same. -/
theorem BBLOCK_injective {b' : Nat} (hb : b < 2 ^ 32) (hb' : b' < 2 ^ 32)
    (hblk : g.BBLOCK b = g.BBLOCK b') (hbit : b % BPB = b' % BPB) : b = b' := by
  have h := g.bmapstart_lt
  simp only [Geometry.BBLOCK, BPB, BSIZE] at hblk hbit
  omega

/-- Clearing a bit that was clear before it was set. -/
theorem clearBit_markBit {blk : Block} (h : usedBit blk bi = false) :
    clearBit (markBit blk bi) bi = blk := by
  funext i
  apply UInt8.toNat_inj.mp
  apply Nat.eq_of_testBit_eq
  intro j
  by_cases hj : j < 8
  · have hbit (blk : Block) : (blk i).toNat.testBit j = usedBit blk (8 * i + j) := by
      rw [usedBit_eq_testBit, show (8 * i + j) / 8 = i by omega, show (8 * i + j) % 8 = j by omega]
    rw [hbit, hbit, usedBit_clearBit, usedBit_markBit]
    split
    · next heq => rw [heq, h]
    · rfl
  · have hhigh (blk : Block) : (blk i).toNat.testBit j = false := by
      apply Nat.testBit_lt_two_pow
      exact lt_of_lt_of_le (UInt8.toNat_lt _) (Nat.pow_le_pow_right (by omega) (by omega))
    rw [hhigh, hhigh]

/-! ### The search -/

theorem scanBits_some (hb : BPB ∣ b) (h : g.scanBits (d (g.BBLOCK b)) b = some bi) :
    bi < BPB ∧ b + bi < g.size ∧ g.inUse d (b + bi) = false ∧
      ∀ x, b ≤ x → x < b + bi → g.inUse d x = true := by
  obtain ⟨-, hlt, hclear, hbefore⟩ := firstFrom_eq_some h
  refine ⟨by omega, by omega, ?_, ?_⟩
  · rw [inUse_add hb (by omega)]
    simpa using hclear
  · intro x hlo hhi
    have hx := hbefore (x - b) (by omega) (by omega)
    rw [← inUse_add hb (by omega), Nat.add_sub_cancel' hlo] at hx
    simpa using hx

theorem scanBits_none (hb : BPB ∣ b) (h : g.scanBits (d (g.BBLOCK b)) b = none) :
    ∀ x, b ≤ x → x < b + BPB → x < g.size → g.inUse d x = true := by
  intro x hlo hhi hsize
  have hx := firstFrom_eq_none h (x - b) (by omega) (by omega)
  rw [← inUse_add hb (by omega), Nat.add_sub_cancel' hlo] at hx
  simpa using hx

/-- What the loops of `balloc` find from block `b` on: the least block that is not in use, or that
there is none, or that there is none before the counter overflows. -/
theorem scan_cases (hb : BPB ∣ b) (hlt : b < 2 ^ 31) :
    (∃ c bi, g.scan d b = .ok (some (c, bi)) ∧ BPB ∣ c ∧ bi < BPB ∧ c + bi < g.size ∧
      c + bi < 2 ^ 31 ∧ g.inUse d (c + bi) = false ∧
      ∀ x, b ≤ x → x < c + bi → g.inUse d x = true) ∨
    (g.scan d b = .ok none ∧ g.size + BPB ≤ 2 ^ 31 ∧ ∀ x, b ≤ x → x < g.size → g.inUse d x = true) ∨
    ((∃ e, g.scan d b = .error e) ∧ 2 ^ 31 < g.size + BPB ∧
      ∀ x, b ≤ x → x < g.size → x < 2 ^ 31 → g.inUse d x = true) := by
  have hlast : b + BPB ≤ 2 ^ 31 := by
    simp only [BPB, BSIZE] at hb ⊢
    omega
  fun_induction Geometry.scan g d b with
  | case1 b hsize bi hfound =>
    obtain ⟨hbi, hsz, hclear, hbefore⟩ := scanBits_some hb hfound
    exact Or.inl ⟨b, bi, rfl, hb, hbi, hsz, by omega, hclear, hbefore⟩
  | case2 b hsize hnone hnext ih =>
    have hblock := scanBits_none hb hnone
    -- a block from `b` on is covered by this block of the map or by the later ones
    have hjoin {x : Nat} (hlo : b ≤ x) (hsz : x < g.size)
        (hlater : b + BPB ≤ x → g.inUse d x = true) : g.inUse d x = true := by
      by_cases hx : b + BPB ≤ x
      · exact hlater hx
      · exact hblock x hlo (by omega) hsz
    have hdvd : BPB ∣ b + BPB := Dvd.dvd.add hb (Nat.dvd_refl BPB)
    have hroom : b + BPB + BPB ≤ 2 ^ 31 := by
      simp only [BPB, BSIZE] at hdvd hnext ⊢
      omega
    rcases ih hdvd hnext hroom with ⟨c, bi, heq, hc, hbi, hsz, hint, hclear, hbefore⟩ |
      ⟨heq, hsmall, hall⟩ | ⟨herr, hbig, hall⟩
    · refine Or.inl ⟨c, bi, heq, hc, hbi, hsz, hint, hclear, ?_⟩
      intro x hlo hhi
      exact hjoin hlo (by omega) (fun hx ↦ hbefore x hx hhi)
    · refine Or.inr (Or.inl ⟨heq, hsmall, ?_⟩)
      intro x hlo hx
      exact hjoin hlo hx (fun hge ↦ hall x hge hx)
    · refine Or.inr (Or.inr ⟨herr, hbig, ?_⟩)
      intro x hlo hx hint
      exact hjoin hlo hx (fun hge ↦ hall x hge hx hint)
  | case3 b hsize hnone hnext =>
    refine Or.inr (Or.inr ⟨⟨_, rfl⟩, by omega, ?_⟩)
    intro x hlo hx hint
    exact scanBits_none hb hnone x hlo (by omega) hx
  | case4 b hsize => exact Or.inr (Or.inl ⟨rfl, by omega, fun x hlo hx ↦ by omega⟩)

/-! ### The allocator -/

/-- Block `b` was taken: it is the least block that was not in use, its bit and no other was set in
the block of the map that holds it, and it was zeroed. -/
structure Taken (g : Geometry) (d : Disk) (b : Nat) (d' : Disk) : Prop where
  lt : b < g.size
  clear : g.inUse d b = false
  least : ∀ b', b' < b → g.inUse d b' = true
  bits : ∀ bi, usedBit (d' (g.BBLOCK b)) bi =
    if bi = b % BPB then true else usedBit (d (g.BBLOCK b)) bi
  zero : d' b = zeroBlock
  rest : ∀ x, x ≠ b → x ≠ g.BBLOCK b → d' x = d x

/-- Block `b` was given back: its bit and no other was cleared. -/
structure Freed (g : Geometry) (d : Disk) (b : Nat) (d' : Disk) : Prop where
  bits : ∀ bi, usedBit (d' (g.BBLOCK b)) bi =
    if bi = b % BPB then false else usedBit (d (g.BBLOCK b)) bi
  rest : ∀ x, x ≠ g.BBLOCK b → d' x = d x

/-- The blocks of the map are not free to be taken themselves. -/
def Reserved (g : Geometry) (d : Disk) : Prop :=
  ∀ b, b < g.size → g.BBLOCK b < g.size → g.inUse d (g.BBLOCK b) = true

/-- The search comes to an end before its counter overflows. -/
def Counts (g : Geometry) (d : Disk) : Prop :=
  g.size + BPB ≤ 2 ^ 31 ∨ ∃ b, b < g.size ∧ b < 2 ^ 31 ∧ g.inUse d b = false

/-- What `balloc` returns. -/
theorem balloc_cases (hcounts : Counts g d) :
    (∃ b, g.balloc d =
      .ok (b, bzero b (Function.update d (g.BBLOCK b) (markBit (d (g.BBLOCK b)) (b % BPB)))) ∧
      b < g.size ∧ g.inUse d b = false ∧ ∀ b', b' < b → g.inUse d b' = true) ∨
    (g.balloc d = .ok (0, d) ∧ ∀ b, b < g.size → g.inUse d b = true) := by
  unfold Geometry.balloc
  rcases scan_cases (g := g) (d := d) (Nat.dvd_zero BPB) (by decide) with
    ⟨c, bi, heq, hc, hbi, hsz, -, hclear, hbefore⟩ | ⟨heq, -, hall⟩ | ⟨-, hbig, hall⟩
  · refine Or.inl ⟨c + bi, ?_, hsz, hclear, fun x hx ↦ hbefore x (Nat.zero_le x) hx⟩
    have hmod : (c + bi) % BPB = bi := by
      obtain ⟨k, rfl⟩ := hc
      rw [Nat.mul_add_mod, Nat.mod_eq_of_lt hbi]
    rw [heq, BBLOCK_add hc hbi, hmod]
    rfl
  · refine Or.inr ⟨?_, fun b hb ↦ hall b (Nat.zero_le b) hb⟩
    rw [heq]
    rfl
  · rcases hcounts with hsmall | ⟨b, hb, hint, hclear⟩
    · omega
    · rw [hall b (Nat.zero_le b) hb hint] at hclear
      cases hclear

/-- A free block is not a block of the map. -/
theorem Reserved.ne (h : Reserved g d) (hb : b < g.size) (hclear : g.inUse d b = false) {x : Nat}
    (hx : x < g.size) : b ≠ g.BBLOCK x := by
  intro heq
  rw [heq] at hb hclear
  rw [h x hx hb] at hclear
  cases hclear

/-- Giving back a block in use clears its bit, and it is the only case that does not panic. -/
theorem bfree_freed (h : g.inUse d b = true) : ∃ d', g.bfree b d = .ok d' ∧ Freed g d b d' := by
  refine ⟨_, if_pos h, ?_, fun x hx ↦ Function.update_of_ne hx _ _⟩
  intro bi
  rw [Function.update_self, usedBit_clearBit]

/-- The block that `balloc` took, and what is left on the disk when it is given back at once. -/
theorem balloc_taken (hself : Reserved g d) (hlt : b < g.size) (hclear : g.inUse d b = false)
    (hleast : ∀ b', b' < b → g.inUse d b' = true)
    (hd' : d' = bzero b (Function.update d (g.BBLOCK b) (markBit (d (g.BBLOCK b)) (b % BPB)))) :
    Taken g d b d' ∧ ∃ d'', g.bfree b d' = .ok d'' ∧ ∀ x, x ≠ b → d'' x = d x := by
  have hne := hself.ne hlt hclear hlt
  have hmap : d' (g.BBLOCK b) = markBit (d (g.BBLOCK b)) (b % BPB) := by
    rw [hd', bzero, Function.update_of_ne hne.symm, Function.update_self]
  have hrest : ∀ x, x ≠ b → x ≠ g.BBLOCK b → d' x = d x := by
    intro x hx hxmap
    rw [hd', bzero, Function.update_of_ne hx, Function.update_of_ne hxmap]
  have hused : usedBit (d' (g.BBLOCK b)) (b % BPB) = true := by
    rw [hmap, usedBit_markBit, if_pos rfl]
  refine ⟨⟨hlt, hclear, hleast, ?_, ?_, hrest⟩, _, if_pos hused, ?_⟩
  · intro bi
    rw [hmap, usedBit_markBit]
  · rw [hd', bzero, Function.update_self]
  · intro x hx
    by_cases hxmap : x = g.BBLOCK b
    · rw [hxmap, Function.update_self, hmap, clearBit_markBit hclear]
    · rw [Function.update_of_ne hxmap, hrest x hx hxmap]

/-- Storing a bit changes the membership of its block and of no other. -/
theorem inUse_of_bits {v : Bool} {x : Nat} (hb : b < 2 ^ 32) (hx : x < 2 ^ 32)
    (hbits : ∀ bi, usedBit (d' (g.BBLOCK b)) bi =
      if bi = b % BPB then v else usedBit (d (g.BBLOCK b)) bi)
    (hrest : g.BBLOCK x ≠ g.BBLOCK b → d' (g.BBLOCK x) = d (g.BBLOCK x)) :
    g.inUse d' x = if x = b then v else g.inUse d x := by
  unfold Geometry.inUse
  by_cases hblk : g.BBLOCK x = g.BBLOCK b
  · rw [hblk, hbits]
    by_cases heq : x = b
    · rw [if_pos (by rw [heq]), if_pos heq]
    · have hbit : x % BPB ≠ b % BPB := fun hbit ↦ heq (BBLOCK_injective hx hb hblk hbit)
      rw [if_neg hbit, if_neg heq]
  · rw [hrest hblk, if_neg (fun heq ↦ hblk (by rw [heq]))]

/-- Taking a block adds it to the set and nothing else. -/
theorem Taken.inUse (h : Taken g d b d') (hself : Reserved g d) {x : Nat} (hx : x < g.size) :
    g.inUse d' x = if x = b then true else g.inUse d x :=
  inUse_of_bits (h.lt.trans g.size_lt) (hx.trans g.size_lt) h.bits
    (h.rest _ (hself.ne h.lt h.clear hx).symm)

/-- Giving a block back removes it from the set and nothing else. -/
theorem Freed.inUse (h : Freed g d b d') (hb : b < 2 ^ 32) {x : Nat} (hx : x < 2 ^ 32) :
    g.inUse d' x = if x = b then false else g.inUse d x :=
  inUse_of_bits hb hx h.bits (h.rest _)

/-! ### A file system whose parts fit -/

/-- The geometry of a superblock whose parts lie one after the other. -/
def ofSuper (sb : Super) : Geometry where
  size := sb.size
  bmapstart := sb.bmapstart
  size_lt := by
    have h := sb.fits
    omega
  bmapstart_lt := by
    have h := sb.fits
    have h₁ := sb.bmapstart_lt_nmeta
    have h₂ := sb.nmeta_le
    omega

theorem BBLOCK_ofSuper {sb : Super} (hb : b < sb.size) : (ofSuper sb).BBLOCK b = sb.bblock b := by
  have h := sb.bblock_lt hb
  have hle := sb.nmeta_le
  have hsize := (ofSuper sb).size_lt
  apply Nat.mod_eq_of_lt
  exact lt_trans h (lt_of_le_of_lt hle hsize)

theorem inUse_ofSuper {sb : Super} (hb : b < sb.size) : (ofSuper sb).inUse d b = used sb d b := by
  rw [Geometry.inUse, BBLOCK_ofSuper hb, used]

/-- On such a file system the counter does not overflow, and `balloc` is the search over the blocks
of the map. -/
theorem balloc_ofSuper (sb : Super) (d : Disk) : (ofSuper sb).balloc d = .ok (Fs.balloc sb d) := by
  unfold Fs.balloc
  rcases balloc_cases (g := ofSuper sb) (d := d) (Or.inl sb.fits) with
    ⟨b, heq, hlt, hclear, hleast⟩ | ⟨heq, hall⟩
  · rw [heq, BBLOCK_ofSuper hlt]
    rw [inUse_ofSuper hlt] at hclear
    split
    · next c hscan =>
      obtain ⟨-, hc, hcclear, hcleast⟩ := ballocScan_eq_some hscan
      have hle : b ≤ c := by
        apply Nat.le_of_not_lt
        intro hcb
        have hused := hleast c hcb
        rw [inUse_ofSuper hc, hcclear] at hused
        cases hused
      have hge : c ≤ b := by
        apply Nat.le_of_not_lt
        intro hbc
        rw [hcleast b (by omega) hbc] at hclear
        cases hclear
      rw [Nat.le_antisymm hle hge]
      rfl
    · next hscan =>
      have hused := ballocScan_eq_none hscan b (by omega) (by
        have hsz : b < sb.size := hlt
        simp only [BPB, BSIZE]
        omega) hlt
      rw [hused] at hclear
      cases hclear
  · rw [heq]
    split
    · next c hscan =>
      obtain ⟨-, hc, hcclear, -⟩ := ballocScan_eq_some hscan
      have hused := hall c hc
      rw [inUse_ofSuper hc, hcclear] at hused
      cases hused
    · rfl

theorem bfree_ofSuper {sb : Super} (hb : b < sb.size) (d : Disk) :
    (ofSuper sb).bfree b d = Fs.bfree sb b d := by
  rw [Geometry.bfree, BBLOCK_ofSuper hb]
  rfl

/-- The set that the map of a new image stands for. -/
theorem inUse_mkfs {used : Nat} (h : used < BSIZE * 8) (st : Mkfs.State) :
    ∃ st', Mkfs.balloc used st = .ok st' ∧
      ∀ b, b < BPB → (ofSuper Mkfs.sb).inUse st'.sect b = decide (b < used) := by
  refine ⟨_, if_pos h, ?_⟩
  intro b hb
  have hpos : Mkfs.position Mkfs.sb.bmapstart = (ofSuper Mkfs.sb).BBLOCK b := by
    rw [Mkfs.position_eq (by rw [Mkfs.sb_bmapstart]; decide), Geometry.BBLOCK, Nat.div_eq_of_lt hb,
      Nat.zero_add]
    exact (Nat.mod_eq_of_lt (ofSuper Mkfs.sb).bmapstart_lt).symm
  simp only [Geometry.inUse, Mkfs.wsect, hpos, Function.update_self, Nat.mod_eq_of_lt hb]
  rw [Mkfs.usedBit_firstBits]

/-! ### The free map is a set -/

/-- For every superblock and every free map that has block 0 and the blocks of the map itself in
use, as long as the counter of the search does not overflow: `balloc` takes the least block that is
not in use, or returns 0 with nothing changed if there is none; `bfree` undoes it; `bfree` of a
block in use removes this block; and the map that `mkfs` writes stands for the blocks below
`used`. -/
theorem freemap_is_set (g : Geometry) (d : Disk) (hzero : g.inUse d 0 = true) (hself : Reserved g d)
    (hcounts : Counts g d) :
    ((∃ b d', g.balloc d = .ok (b, d') ∧ b ≠ 0 ∧ Taken g d b d' ∧
        (∀ x, x < g.size → g.inUse d' x = if x = b then true else g.inUse d x) ∧
        ∃ d'', g.bfree b d' = .ok d'' ∧ (∀ x, x ≠ b → d'' x = d x) ∧
          ∀ x, x < g.size → d'' (g.BBLOCK x) = d (g.BBLOCK x)) ∨
      g.balloc d = .ok (0, d) ∧ ∀ b, b < g.size → g.inUse d b = true) ∧
    (∀ b, b < 2 ^ 32 → g.inUse d b = true → ∃ d', g.bfree b d = .ok d' ∧ Freed g d b d' ∧
      ∀ x, x < 2 ^ 32 → g.inUse d' x = if x = b then false else g.inUse d x) ∧
    ∀ used, used < BSIZE * 8 → ∀ st, ∃ st', Mkfs.balloc used st = .ok st' ∧
      ∀ b, b < BPB → (ofSuper Mkfs.sb).inUse st'.sect b = decide (b < used) := by
  refine ⟨?_, ?_, fun used h st ↦ inUse_mkfs h st⟩
  · rcases balloc_cases hcounts with ⟨b, heq, hlt, hclear, hleast⟩ | hnone
    · obtain ⟨htaken, d'', hfree, hundo⟩ := balloc_taken hself hlt hclear hleast rfl
      refine Or.inl ⟨b, _, heq, ?_, htaken, fun x hx ↦ htaken.inUse hself hx, d'', hfree, hundo, ?_⟩
      · rintro rfl
        rw [hzero] at hclear
        cases hclear
      · intro x hx
        exact hundo _ (hself.ne hlt hclear hx).symm
    · exact Or.inr hnone
  · intro b hb hused
    obtain ⟨d', heq, hfreed⟩ := bfree_freed hused
    exact ⟨d', heq, hfreed, fun x hx ↦ hfreed.inUse hb hx⟩

/-- Three blocks, of which block 1 is the map. -/
def tiny : Geometry where
  size := 3
  bmapstart := 1
  size_lt := by decide
  bmapstart_lt := by decide

/-- The disk with the first `n` blocks of `tiny` in use. -/
def tinyDisk (n : Nat) : Disk := Function.update (fun _ ↦ zeroBlock) 1 (Mkfs.firstBits n)

theorem inUse_tinyDisk (n : Nat) (hb : b < BPB) : tiny.inUse (tinyDisk n) b = decide (b < n) := by
  have hblk : tiny.BBLOCK b = 1 := by
    rw [Geometry.BBLOCK, Nat.div_eq_of_lt hb]
    rfl
  rw [Geometry.inUse, hblk, tinyDisk, Function.update_self, Nat.mod_eq_of_lt hb,
    Mkfs.usedBit_firstBits]

/-- Two of the three blocks are in use; the third is taken. -/
theorem freemap_is_set_tiny :
    ∃ d', tiny.balloc (tinyDisk 2) = .ok (2, d') ∧ Taken tiny (tinyDisk 2) 2 d' := by
  have huse {b : Nat} (hb : b < BPB) := inUse_tinyDisk 2 hb
  have hself : Reserved tiny (tinyDisk 2) := by
    intro b hb _
    have hb : b < 3 := hb
    have hblk : tiny.BBLOCK b = 1 := by
      rw [Geometry.BBLOCK, Nat.div_eq_of_lt (by simp only [BPB, BSIZE]; omega)]
      rfl
    rw [hblk, huse (by decide)]
    rfl
  have hclear : tiny.inUse (tinyDisk 2) 2 = false := huse (by decide)
  rcases (freemap_is_set tiny (tinyDisk 2) (huse (by decide)) hself (Or.inl (by decide))).1 with
    ⟨b, d', heq, -, htaken, -⟩ | ⟨-, hall⟩
  · have hlt : b < 3 := htaken.lt
    have hc := htaken.clear
    rw [huse (by simp only [BPB, BSIZE]; omega)] at hc
    obtain rfl : b = 2 := by
      have := of_decide_eq_false hc
      omega
    exact ⟨d', heq, htaken⟩
  · rw [hall 2 (by decide)] at hclear
    cases hclear

/-- A disk of 2^31 blocks with all of them in use. -/
def huge : Geometry where
  size := 2 ^ 31
  bmapstart := 1
  size_lt := by decide
  bmapstart_lt := by decide

/-- With only block 0 in use, `balloc` takes block 1, which is the map, and zeroing it clears the
bit of block 0; and on a full disk of 2^31 blocks the counter of the search overflows. -/
theorem freemap_not_set :
    (tiny.inUse (tinyDisk 1) 0 = true ∧ ∃ d', tiny.balloc (tinyDisk 1) = .ok (1, d') ∧
      tiny.inUse d' 0 = false ∧ tiny.inUse d' 1 = false) ∧
    (∀ b, huge.inUse (fun _ _ ↦ 255) b = true) ∧ ∃ e, huge.balloc (fun _ _ ↦ 255) = .error e := by
  have hfull : ∀ b, huge.inUse (fun _ _ ↦ 255) b = true := by
    intro b
    rw [Geometry.inUse, usedBit_eq_testBit]
    have hall : ∀ i, i < 8 → (255 : UInt8).toNat.testBit i = true := by decide
    exact hall _ (by omega)
  refine ⟨⟨by rw [inUse_tinyDisk 1 (by decide)]; rfl, ?_⟩, hfull, ?_⟩
  · rcases balloc_cases (g := tiny) (d := tinyDisk 1) (Or.inl (by decide)) with
      ⟨b, heq, hlt, hclear, hleast⟩ | ⟨-, hall⟩
    · have hlt : b < 3 := hlt
      rw [inUse_tinyDisk 1 (by simp only [BPB, BSIZE]; omega)] at hclear
      have hge := of_decide_eq_false hclear
      obtain rfl : b = 1 := by
        apply Nat.le_antisymm _ (by omega)
        apply Nat.le_of_not_lt
        intro h1
        have hused := hleast 1 h1
        rw [inUse_tinyDisk 1 (by decide)] at hused
        cases hused
      exact ⟨_, heq, rfl, rfl⟩
    · have hused := hall 1 (by decide)
      rw [inUse_tinyDisk 1 (by decide)] at hused
      cases hused
  · have hscan : ∃ e, huge.scan (fun _ _ ↦ 255) 0 = .error e := by
      rcases scan_cases (g := huge) (d := fun _ _ ↦ 255) (Nat.dvd_zero BPB) (by decide) with
        ⟨c, bi, -, -, -, -, -, hclear, -⟩ | ⟨-, hsmall, -⟩ | ⟨herr, -⟩
      · rw [hfull] at hclear
        cases hclear
      · exact absurd hsmall (by decide)
      · exact herr
    obtain ⟨e, he⟩ := hscan
    refine ⟨e, ?_⟩
    rw [Geometry.balloc, he]
    rfl

end Xv6.Freemap
