import Xv6.Fs.Filewrite
import Xv6.Lib.Returns

/-!
# Writes that stop

`writei` (`kernel/fs.c:505`) copies a chunk of the source straight into the buffer of a block. When
`either_copyin` fails in the middle of a chunk, `writei` does not count the chunk, but the bytes
that were copied stay in the buffer. The rest of the file is left alone exactly if they are the
bytes that were there before.
-/

namespace Xv6.Fs

open Xv6.Lib

/-- What the buffer of the block holds at offset `k` of an inode: a block that is still to be
allocated will be zeroed. -/
def oldByte (d : Disk) (ip : Dinode) (k : Nat) : UInt8 :=
  if lookup d ip (k / BSIZE) = 0 then 0 else fileByte d ip k

/-- What `readi` delivers at offset `k` of inode `i`. -/
def readByte (sb : Super) (d : Disk) (i k : Nat) : Except String (List UInt8) :=
  (readi sb (dinode sb d i) (fun _ ↦ true) k 1 d).map (fun r ↦ r.2.1)

/-- A write that returned `tot` changed nothing but the bytes from `off` up to `off + tot`: neither
what `readi` delivers, nor the buffers of the blocks, nor another file. -/
structure RestKept (sb : Super) (d : Disk) (i off tot : Nat) (d' : Disk) : Prop where
  size : (dinode sb d' i).size = max (dinode sb d i).size (off + tot)
  reads : ∀ k, k < (dinode sb d i).size → k < off ∨ off + tot ≤ k →
    readByte sb d' i k = readByte sb d i k
  cached : ∀ k, k < off ∨ off + tot ≤ k → lookup d' (dinode sb d' i) (k / BSIZE) ≠ 0 →
    fileByte d' (dinode sb d' i) k = oldByte d (dinode sb d i) k
  others : ∀ j, j < sb.ninodes → j ≠ i → dinode sb d' j = dinode sb d j ∧
    ((dinode sb d j).type ≠ 0 → content sb d' j = content sb d j)

/-- `writei` returns. If it refuses nothing changes, and if it stops early the rest is left
alone. -/
def LeavesRest (sb : Super) (d : Disk) (i : Nat) (src : Nat → Option UInt8) (off n : Nat) : Prop :=
  Returns (writei sb i (dinode sb d i) src off n d) (fun r ↦ match r.1 with
    | none => r.2.2 = d
    | some tot => tot ≤ n ∧ (tot < n → RestKept sb d i off tot r.2.2))

/-- If `writei` gets to the first byte `k` of the source that cannot be read, then the bytes before
it that go to the same block are those that are there. -/
def StopsClean (sb : Super) (d : Disk) (ip : Dinode) (src : Nat → Option UInt8) (off n : Nat) :
    Prop :=
  off ≤ ip.size → off + n ≤ MAXFILE * BSIZE →
    ∀ k, k < n → src k = none → (∀ j, j < k → (src j).isSome = true) → Enough sb d ip off (k + 1) →
      ∀ j, j < k → (off + j) / BSIZE = (off + k) / BSIZE → src j = some (oldByte d ip (off + j))

variable {sb : Super} {d d' : Disk} {i : Nat} {src : Nat → Option UInt8} {off n tot more : Nat}

theorem oldByte_of_lt (h : BlockOwnership sb d) (hi : i < sb.ninodes)
    (ht : (dinode sb d i).type ≠ 0) {k : Nat} (hk : k < (dinode sb d i).size) :
    oldByte d (dinode sb d i) k = fileByte d (dinode sb d i) k :=
  if_neg ((blockOwnership_iff.mp h).2.lookup_ne_zero hi ht hk)

theorem readByte_eq (h : BlockOwnership sb d) (hi : i < sb.ninodes) (ht : (dinode sb d i).type ≠ 0)
    {k : Nat} (hk : k < (dinode sb d i).size) :
    readByte sb d i k = .ok [fileByte d (dinode sb d i) k] := by
  have hsize := (dinode_valid sb d i).size
  have hget : (content sb d i)[k]? = some (fileByte d (dinode sb d i) k) := by
    rw [getElem?_content, if_pos hk]
  obtain ⟨hlt, hval⟩ := List.getElem?_eq_some_iff.mp hget
  rw [readByte, readi_eq h hi ht (by omega) (fun _ _ ↦ rfl), List.drop_eq_getElem_cons hlt, hval]
  rfl

/-- The byte that cannot be read is the first one. -/
theorem Stopped.first {lo : Nat} {ip : Dinode} (h : Stopped sb src lo n tot more d ip) {k : Nat}
    (hnone : src k = none) : tot + more ≤ k := by
  by_contra hlt
  have := h.readable k (by omega)
  rw [hnone] at this
  cases this

namespace Wrote

variable (hw : Wrote sb d i src off n tot more d')

include hw

/-- A byte that was copied, counted or not. -/
theorem copied {j : Nat} (hj : j < tot + more) :
    lookup d' (dinode sb d' i) ((off + j) / BSIZE) ≠ 0 ∧
    some (fileByte d' (dinode sb d' i) (off + j)) = src j := by
  obtain ⟨hl, hb⟩ := hw.stored.new (off + j) (by omega) (by omega)
  refine ⟨hl, ?_⟩
  rw [hb, Nat.add_sub_cancel_left, byteOf]
  cases hsrc : src j with
  | none =>
    have := hw.stopped.readable j hj
    rw [hsrc] at this
    cases this
  | some x => rfl

/-- A byte that was not copied. -/
theorem untouched {k : Nat} (hk : k < off ∨ off + (tot + more) ≤ k)
    (hl : lookup d' (dinode sb d' i) (k / BSIZE) ≠ 0) :
    fileByte d' (dinode sb d' i) k = oldByte d (dinode sb d i) k := by
  rw [oldByte]
  split
  · next hnull => exact hw.blank k hk hnull hl
  · next hsome => exact (hw.stored.old k hk hsome).2

/-- The rest is left alone exactly if the bytes that were copied and not counted were there
before. -/
theorem restKept_iff (h : BlockOwnership sb d) (hi : i < sb.ninodes)
    (ht : (dinode sb d i).type ≠ 0) :
    RestKept sb d i off tot d' ↔
      ∀ j, tot ≤ j → j < tot + more → src j = some (oldByte d (dinode sb d i) (off + j)) := by
  constructor
  · intro hrest j hlo hhi
    obtain ⟨hl, hb⟩ := hw.copied hhi
    rw [← hb, hrest.cached (off + j) (by omega) hl]
  · intro hcopied
    have hcached (k : Nat) (hk : k < off ∨ off + tot ≤ k)
        (hl : lookup d' (dinode sb d' i) (k / BSIZE) ≠ 0) :
        fileByte d' (dinode sb d' i) k = oldByte d (dinode sb d i) k := by
      by_cases hmore : k < off ∨ off + (tot + more) ≤ k
      · exact hw.untouched hmore hl
      · have hj := hcopied (k - off) (by omega) (by omega)
        obtain ⟨-, hb⟩ := hw.copied (show k - off < tot + more by omega)
        rw [Nat.add_sub_cancel' (by omega)] at hj hb
        rw [hj] at hb
        exact Option.some.inj hb
    have ht' : (dinode sb d' i).type ≠ 0 := by
      rw [hw.type]
      exact ht
    refine ⟨hw.size, ?_, hcached, hw.others⟩
    intro k hlt hk
    have hlt' : k < (dinode sb d' i).size := by
      rw [hw.size]
      omega
    have hl := (blockOwnership_iff.mp hw.ownership).2.lookup_ne_zero hi ht' hlt'
    rw [readByte_eq h hi ht hlt, readByte_eq hw.ownership hi ht' hlt', hcached k hk hl,
      oldByte_of_lt h hi ht hlt]

/-- `writei` copied bytes that it did not count only if it had the blocks up to the byte that it
could not read. -/
theorem enough (hsame : (off + (tot + more)) / BSIZE = (off + tot) / BSIZE)
    (hl : lookup d' (dinode sb d' i) ((off + tot) / BSIZE) ≠ 0) :
    Enough sb d (dinode sb d i) off (tot + more + 1) := by
  have hnext : (off + (tot + more + 1) + BSIZE - 1) / BSIZE = (off + tot) / BSIZE + 1 := by
    rw [← hsame]
    simp only [BSIZE]
    omega
  have hpaid := hw.paid (off / BSIZE) ((off + tot) / BSIZE + 1) (le_refl _)
    (by simp only [BSIZE]; omega) (fun _ ↦ Nat.lt_succ_self _)
  have hnone : missing d' (dinode sb d' i) (off / BSIZE) ((off + tot) / BSIZE + 1) = 0 := by
    apply missing_eq_zero
    · simp only [BSIZE]
      omega
    · intro k hlo hhi
      by_cases hlast : k = (off + tot) / BSIZE
      · rw [hlast]
        exact hl
      · -- a block before the last one holds bytes of the write
        have hk : off ≤ max off (k * BSIZE) ∧ max off (k * BSIZE) < off + (tot + more) ∧
            max off (k * BSIZE) / BSIZE = k := by
          simp only [BSIZE] at hlo hhi hlast ⊢
          omega
        have := (hw.stored.new _ hk.1 hk.2.1).1
        rwa [hk.2.2] at this
  rw [Enough, hnext]
  rw [Paid, hnone] at hpaid
  omega

/-- With the blocks up to a byte that cannot be read, the byte is what stopped `writei`. -/
theorem stopped_at {k : Nat} (hk : k < n) (hnone : src k = none)
    (hfirst : ∀ j, j < k → (src j).isSome = true)
    (henough : Enough sb d (dinode sb d i) off (k + 1)) :
    tot + more = k ∧ tot < n ∧ (off + k) / BSIZE = (off + tot) / BSIZE := by
  have hle := hw.stopped.first hnone
  rcases hw.stopped.cause with hall | ⟨rfl, hfree, hhole⟩ | ⟨hlt, hstop, hsame, -⟩
  · omega
  · -- a block was missing, and none was free
    exfalso
    have hpos : 0 < missing d' (dinode sb d' i) (off / BSIZE)
        ((off + (k + 1) + BSIZE - 1) / BSIZE) :=
      missing_pos (by simp only [BSIZE]; omega) (by simp only [BSIZE]; omega) hhole
    have hpaid := hw.paid (off / BSIZE) ((off + (k + 1) + BSIZE - 1) / BSIZE) (le_refl _)
      (by simp only [BSIZE]; omega) (fun _ ↦ by simp only [BSIZE]; omega)
    rw [Enough] at henough
    rw [Paid, hfree] at hpaid
    omega
  · have heq : tot + more = k := by
      by_contra hne
      have := hfirst (tot + more) (by omega)
      rw [hstop] at this
      cases this
    rw [heq] at hsame
    exact ⟨heq, by omega, hsame⟩

end Wrote

/-- `writei` leaves the rest of the file alone exactly if the bytes that it copies and does not
count are those that were there. -/
theorem leavesRest_iff (h : BlockOwnership sb d) (hi : i < sb.ninodes)
    (ht : (dinode sb d i).type ≠ 0) (src : Nat → Option UInt8) (off n : Nat) :
    LeavesRest sb d i src off n ↔ StopsClean sb d (dinode sb d i) src off n := by
  by_cases hoff : off ≤ (dinode sb d i).size
  · by_cases hmax : off + n ≤ MAXFILE * BSIZE
    · obtain ⟨tot, more, d', hwi, hw⟩ := writei_stopped h hi ht src hoff hmax
      have hedge := hw.stopped.edge
      have hiff : LeavesRest sb d i src off n ↔ (tot < n → RestKept sb d i off tot d') := by
        have hle := hw.stopped.le
        rw [LeavesRest, hwi]
        constructor
        · intro hret
          exact (hret.elim rfl).2
        · intro hrest
          exact Returns.ok ⟨by omega, hrest⟩
      rw [hiff, hw.restKept_iff h hi ht]
      constructor
      · intro hrest _ _ k hk hnone hfirst henough j hj hblock
        obtain ⟨hstop, hlt, hsame⟩ := hw.stopped_at hk hnone hfirst henough
        have hedge := hedge hlt
        apply hrest hlt j _ (by omega)
        simp only [BSIZE] at hblock hsame hedge
        omega
      · intro hclean hlt j hlo hhi
        rcases hw.stopped.cause with hall | ⟨rfl, -, -⟩ | ⟨hmore, hstop, hsame, hl⟩
        · omega
        · omega
        · apply hclean hoff hmax (tot + more) hmore hstop hw.stopped.readable
            (hw.enough hsame hl) j hhi
          simp only [BSIZE] at hsame ⊢
          omega
    · have hwi : writei sb i (dinode sb d i) src off n d = .ok (none, dinode sb d i, d) := by
        rw [writei]
        split
        · rfl
        · rw [if_pos (by omega)]
      rw [LeavesRest, hwi]
      exact ⟨fun _ _ hfit ↦ (hmax hfit).elim, fun _ ↦ Returns.ok rfl⟩
  · have hwi : writei sb i (dinode sb d i) src off n d = .ok (none, dinode sb d i, d) := by
      rw [writei, if_pos (Or.inl (by omega))]
    rw [LeavesRest, hwi]
    exact ⟨fun _ hle ↦ (hoff hle).elim, fun _ ↦ Returns.ok rfl⟩

/-- The file of `tinyFile` after the bytes 7, 8 and 9 were written to it. -/
def threeBytes : Disk :=
  match writei tinySuper 1 (dinode tinySuper tinyFile 1) (fun k ↦ [7, 8, 9][k]?) 0 3 tinyFile with
  | .ok (_, _, d) => d
  | .error _ => tinyFile

theorem threeBytes_written : Written tinySuper tinyFile 1 0 [7, 8, 9] threeBytes := by
  have h := blockOwnership_iff.mp blockOwnership_tinyDisk
  have hown : BlockOwnership tinySuper tinyFile :=
    blockOwnership_iff.mpr (ialloc_ok h.1 h.2 (by decide))
  have ht : (dinode tinySuper tinyFile 1).type ≠ 0 := by decide +kernel
  have henough : Enough tinySuper tinyFile (dinode tinySuper tinyFile 1) 0 3 := by decide +kernel
  have hsrc : ∀ k, k < [7, 8, 9].length → (fun k ↦ [7, 8, 9][k]?) k =
      ([7, 8, 9] : List UInt8)[k]? :=
    fun _ _ ↦ rfl
  obtain ⟨tot, d', hwi, hw, hend, hpaid⟩ := writei_written hown (by decide) ht (Nat.zero_le _)
    (show 0 + [7, 8, 9].length ≤ MAXFILE * BSIZE by decide) hsrc
  have htot : tot = 3 := hend.eq (hpaid _ _ (le_refl _) (le_refl _)) henough (le_refl _) (le_refl _)
  subst htot
  have hthree : threeBytes = d' := by
    rw [threeBytes]
    simp only [List.length_cons, List.length_nil, Nat.zero_add, Nat.reduceAdd] at hwi
    rw [hwi]
  rw [hthree]
  exact hw

theorem threeBytes_type : (dinode tinySuper threeBytes 1).type ≠ 0 := by
  rw [threeBytes_written.type]
  decide +kernel

theorem threeBytes_size : (dinode tinySuper threeBytes 1).size = 3 := by
  rw [threeBytes_written.size, show (dinode tinySuper tinyFile 1).size = 0 by decide +kernel]
  rfl

/-- A source that cannot be read leaves the file as it is. -/
theorem leavesRest_iff_threeBytes : LeavesRest tinySuper threeBytes 1 (fun _ ↦ none) 1 2 := by
  apply (leavesRest_iff threeBytes_written.ownership (by decide) threeBytes_type
    (fun _ ↦ none) 1 2).mpr
  intro _ _ k _ _ hfirst _ j hj _
  exact nomatch hfirst j hj

/-- The file has the blocks for its bytes. -/
theorem threeBytes_enough : Enough tinySuper threeBytes (dinode tinySuper threeBytes 1) 0 2 := by
  have hfill := (blockOwnership_iff.mp threeBytes_written.ownership).2
  have hnone : missing threeBytes (dinode tinySuper threeBytes 1) 0 1 = 0 := by
    apply missing_eq_zero (by decide)
    intro k _ hk
    apply hfill 1 (by decide) threeBytes_type
    rw [threeBytes_size, show k = 0 by omega]
    decide
  change missing threeBytes (dinode tinySuper threeBytes 1) 0 1 ≤ _
  rw [hnone]
  exact Nat.zero_le _

/-- A source of which one byte can be read: `writei` counts none, and the first byte of the file, 7,
is now the new one. -/
theorem writei_keeps_uncounted_byte :
    content tinySuper threeBytes 1 = [7, 8, 9] ∧
    ∃ ip d', writei tinySuper 1 (dinode tinySuper threeBytes 1) (fun k ↦ [1][k]?) 0 3 threeBytes =
      .ok (some 0, ip, d') ∧ readByte tinySuper d' 1 0 = .ok [1] := by
  constructor
  · rw [threeBytes_written.content, show content tinySuper tinyFile 1 = [] by decide +kernel]
    rfl
  · obtain ⟨tot, more, d', hwi, hw⟩ :=
      writei_stopped threeBytes_written.ownership (by decide) threeBytes_type
      (fun k ↦ [1][k]?) (Nat.zero_le _) (show 0 + 3 ≤ MAXFILE * BSIZE by decide)
    obtain ⟨hstop, hlt, -⟩ := hw.stopped_at (show 1 < 3 by decide) rfl
      (fun j hj ↦ by rw [show j = 0 by omega]; rfl) threeBytes_enough
    have htot : tot = 0 := by
      rcases hw.stopped.edge hlt with hzero | hmod
      · exact hzero
      · simp only [BSIZE] at hmod
        omega
    subst htot
    refine ⟨_, d', hwi, ?_⟩
    have hcopied := (hw.copied (show 0 < 0 + more by omega)).2
    rw [readByte_eq hw.ownership (by decide) (by rw [hw.type]; exact threeBytes_type)
      (by rw [hw.size, threeBytes_size]; decide)]
    rw [Nat.add_zero] at hcopied
    rw [Option.some.inj hcopied]

end Xv6.Fs
