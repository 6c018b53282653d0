import Xv6.Base.Param
import Xv6.Fs.Contents

/-!
# `filewrite`

The branch of `filewrite` for files (`kernel/file.c:147–174`) calls `writei` once for each chunk
that fits a transaction. The chunks add up to one write.
-/

namespace Xv6.Fs

open Xv6.Lib

/-- The most bytes that go into one transaction; `kernel/file.c:155`. -/
def maxChunk : Nat := (MAXOPBLOCKS - 1 - 1 - 2) / 2 * BSIZE

/-- The loop of `filewrite`; at most `fuel` more iterations, each of which writes a byte at least.
Returns the bytes written and `f->off`. -/
def filewriteLoop (sb : Super) (i : Nat) (src : Nat → Option UInt8) (n : Nat) :
    Nat → Nat → Nat → Disk →
    Except String (Nat × Nat × Disk)
  | 0, done, off, d => .ok (done, off, d)
  | fuel + 1, done, off, d =>
    if done < n then do
      let n1 := if n - done > maxChunk then maxChunk else n - done
      let ip ← ilock sb i d
      let (r, _, d) ← writei sb i ip (fun k ↦ src (done + k)) off n1 d
      let off := off + r.getD 0
      if r = some n1 then filewriteLoop sb i src n fuel (done + n1) off d
      else return (done, off, d)
    else .ok (done, off, d)

/-- `filewrite` of `n` bytes to inode `i` at offset `f->off`: the value it returns, with `none` for
`-1`, and the new `f->off`; `kernel/file.c:147–174`. -/
def filewrite (sb : Super) (i : Nat) (src : Nat → Option UInt8) (off n : Nat) (d : Disk) :
    Except String (Option Nat × Nat × Disk) := do
  let (done, off, d) ← filewriteLoop sb i src n n 0 off d
  return (if done = n then some n else none, off, d)

variable {sb : Super} {d d' : Disk} {i : Nat}

theorem splice_nil (c : List UInt8) (off : Nat) : splice c off [] = c := by
  rw [splice, List.append_nil, List.length_nil, Nat.add_zero, List.take_append_drop]

/-- Two adjacent parts. -/
theorem splice_splice {c xs ys : List UInt8} {off : Nat} (hoff : off ≤ c.length) :
    splice (splice c off xs) (off + xs.length) ys = splice c off (xs ++ ys) := by
  have hlen : off + xs.length ≤ (splice c off xs).length := by
    rw [length_splice hoff]
    exact Nat.le_max_right _ _
  apply List.ext_getElem?
  intro k
  rw [getElem?_splice hlen, getElem?_splice hoff, getElem?_splice hoff, List.length_append]
  by_cases hxs : off ≤ k ∧ k < off + xs.length
  · rw [if_neg (by omega), if_pos hxs, if_pos (by omega), List.getElem?_append_left (by omega)]
  · rw [if_neg hxs]
    by_cases hys : off + xs.length ≤ k ∧ k < off + xs.length + ys.length
    · rw [if_pos hys, if_pos (by omega), List.getElem?_append_right (by omega)]
      congr 1
      omega
    · rw [if_neg hys, if_neg (by omega)]

theorem Written.refl (h : BlockOwnership sb d) {off : Nat} (hoff : off ≤ (dinode sb d i).size) :
    Written sb d i off [] d where
  ownership := h
  content := (splice_nil _ _).symm
  size := by
    rw [List.length_nil]
    omega
  type := rfl
  nlink := rfl
  others := fun _ _ _ ↦ ⟨rfl, fun _ ↦ rfl⟩

/-- A write goes on where another one ended. -/
theorem Written.trans {off : Nat} {xs ys : List UInt8} {d₁ d₂ : Disk}
    (hoff : off ≤ (dinode sb d i).size) (h : Written sb d i off xs d₁)
    (h' : Written sb d₁ i (off + xs.length) ys d₂) :
    Written sb d i off (xs ++ ys) d₂ where
  ownership := h'.ownership
  content := by
    rw [h'.content, h.content, splice_splice (by rw [length_content]; exact hoff)]
  size := by
    rw [h'.size, h.size, List.length_append]
    omega
  type := h'.type.trans h.type
  nlink := h'.nlink.trans h.nlink
  others := by
    intro j hj hji
    obtain ⟨hd, hc⟩ := h.others j hj hji
    obtain ⟨hd', hc'⟩ := h'.others j hj hji
    refine ⟨hd'.trans hd, ?_⟩
    intro ht
    rw [hc' (by rw [hd]; exact ht), hc ht]

theorem ilock_ok (ht : (dinode sb d i).type ≠ 0) : ilock sb i d = .ok (dinode sb d i) := if_neg ht

/-- With enough free blocks `writei` writes all bytes. -/
theorem Ended.eq {off n tot a b : Nat} {ip ip' : Dinode} (h : Ended sb off n tot d' ip')
    (hpaid : Paid sb a b d ip d' ip') (henough : missing d ip a b ≤ freeBlocks sb d)
    (ha : a ≤ off / BSIZE) (hb : (off + n + BSIZE - 1) / BSIZE ≤ b) : tot = n := by
  by_contra hne
  have hle := h.le
  have hlt : tot < n := by omega
  have hpos : 0 < missing d' ip' a b := by
    apply missing_pos _ _ (h.hole hlt)
    · simp only [BSIZE] at ha ⊢
      omega
    · simp only [BSIZE] at hb ⊢
      omega
  have hfree := h.free hlt
  unfold Paid at hpaid
  omega

theorem maxChunk_pos : 0 < maxChunk := by decide

/-- The loop of `filewrite`, after it has written the first `done` bytes. -/
theorem filewriteLoop_written {d₀ : Disk} (hi : i < sb.ninodes) (ht : (dinode sb d₀ i).type ≠ 0)
    {src : Nat → Option UInt8} {off : Nat} {xs : List UInt8} (hoff : off ≤ (dinode sb d₀ i).size)
    (hmax : off + xs.length ≤ MAXFILE * BSIZE) (hsrc : ∀ k, k < xs.length → src k = xs[k]?)
    {fuel done : Nat} (hfuel : xs.length ≤ fuel + done) (hdone : done ≤ xs.length)
    (hw : Written sb d₀ i off (xs.take done) d)
    (henough : missing d (dinode sb d i) (off / BSIZE) ((off + xs.length + BSIZE - 1) / BSIZE) ≤
      freeBlocks sb d) :
    ∃ d', filewriteLoop sb i src xs.length fuel done (off + done) d =
      .ok (xs.length, off + xs.length, d') ∧ Written sb d₀ i off xs d' := by
  have htake (h : done = xs.length) : xs.take done = xs := by rw [h, List.take_length]
  induction fuel generalizing done d with
  | zero =>
    have hend : done = xs.length := by omega
    rw [htake hend] at hw
    exact ⟨d, by rw [filewriteLoop, hend], hw⟩
  | succ fuel ih =>
    rw [filewriteLoop]
    split
    · next hlt =>
      have hpos := maxChunk_pos
      generalize hn1 : (if xs.length - done > maxChunk then maxChunk else xs.length - done) = n1
      have hchunk : 0 < n1 ∧ done + n1 ≤ xs.length := by
        split at hn1 <;> omega
      have hlen : ((xs.drop done).take n1).length = n1 := by
        rw [List.length_take, List.length_drop]
        omega
      have hdone' : (xs.take done).length = done := by
        rw [List.length_take]
        omega
      have ht' : (dinode sb d i).type ≠ 0 := by
        rw [hw.type]
        exact ht
      have hread (k : Nat) (hk : k < ((xs.drop done).take n1).length) :
          (fun k ↦ src (done + k)) k = ((xs.drop done).take n1)[k]? := by
        rw [hlen] at hk
        rw [List.getElem?_take_of_lt hk, List.getElem?_drop]
        exact hsrc _ (by omega)
      have hoff' : off + done ≤ (dinode sb d i).size := by
        rw [hw.size, hdone']
        omega
      obtain ⟨tot, d', hwi, hw', hend, hpaid⟩ := writei_written hw.ownership hi ht' hoff'
        (by rw [hlen]; omega) hread
      rw [hlen] at hwi hend hpaid
      have hrange : off / BSIZE ≤ (off + done) / BSIZE ∧
          (off + done + n1 + BSIZE - 1) / BSIZE ≤ (off + xs.length + BSIZE - 1) / BSIZE := by
        simp only [BSIZE]
        omega
      have hpaid := hpaid _ _ hrange.1 hrange.2
      have htot := hend.eq hpaid henough hrange.1 hrange.2
      rw [htot] at hwi hw'
      rw [List.take_of_length_le (by omega)] at hw'
      have hnext : Written sb d₀ i off (xs.take (done + n1)) d' := by
        rw [List.take_add]
        apply hw.trans hoff
        rw [hdone']
        exact hw'
      rw [ilock_ok ht']
      simp only [bind, Except.bind, hwi, Option.getD_some, if_pos, Nat.add_assoc]
      apply ih (by omega) hchunk.2 hnext
      · unfold Paid at hpaid
        omega
      · intro h
        rw [h, List.take_length]
    · next hge =>
      have hend : done = xs.length := by omega
      rw [htake hend] at hw
      exact ⟨d, by rw [hend], hw⟩

/-- Files are byte arrays. On a disk with block ownership, of an allocated inode: `readi` delivers a
part of the content and changes nothing; `writei` and `filewrite` of bytes that can be read, not
beyond the end of the file or the maximal size, with enough free blocks, replace a part of the
content, set the size, and leave every other file as it is. -/
theorem files_are_byteArrays (h : BlockOwnership sb d) (hi : i < sb.ninodes)
    (ht : (dinode sb d i).type ≠ 0) (off : Nat) :
    (∀ n dst, off + n < 2 ^ 32 → (∀ k, k < min n ((dinode sb d i).size - off) → dst k = true) →
      readi sb (dinode sb d i) dst off n d = .ok (some (min n ((dinode sb d i).size - off)),
        ((content sb d i).drop off).take n, dinode sb d i, d)) ∧
    ∀ src xs, off ≤ (dinode sb d i).size → off + xs.length ≤ MAXFILE * BSIZE →
      (∀ k, k < xs.length → src k = xs[k]?) → Enough sb d (dinode sb d i) off xs.length →
      (∃ d', writei sb i (dinode sb d i) src off xs.length d =
        .ok (some xs.length, dinode sb d' i, d') ∧ Written sb d i off xs d') ∧
      ∃ d', filewrite sb i src off xs.length d = .ok (some xs.length, off + xs.length, d') ∧
        Written sb d i off xs d' := by
  refine ⟨fun n dst hlt hdst ↦ readi_eq h hi ht hlt hdst, ?_⟩
  intro src xs hoff hmax hsrc henough
  refine ⟨?_, ?_⟩
  · obtain ⟨tot, d', hwi, hw, hend, hpaid⟩ := writei_written h hi ht hoff hmax hsrc
    have htot := hend.eq (hpaid _ _ (le_refl _) (le_refl _)) henough (le_refl _) (le_refl _)
    rw [htot] at hwi hw
    rw [List.take_length] at hw
    exact ⟨d', hwi, hw⟩
  · have hfuel : xs.length ≤ xs.length + 0 := le_refl _
    obtain ⟨d', hloop, hw⟩ := filewriteLoop_written hi ht hoff hmax hsrc hfuel (Nat.zero_le _)
      (Written.refl h hoff) henough
    refine ⟨d', ?_, hw⟩
    rw [Nat.add_zero] at hloop
    unfold filewrite
    simp only [bind, Except.bind, hloop, if_pos]
    rfl

/-- The small disk of `tinySuper`, with an empty file. -/
def tinyFile : Disk := (ialloc tinySuper 2 tinyDisk).2

/-- Three bytes are written to it, and the last two of them are read. -/
theorem files_are_byteArrays_tinyFile : ∃ d',
    filewrite tinySuper 1 (fun k ↦ [7, 8, 9][k]?) 0 3 tinyFile = .ok (some 3, 3, d') ∧
    content tinySuper d' 1 = [7, 8, 9] ∧
    readi tinySuper (dinode tinySuper d' 1) (fun _ ↦ true) 1 5 d' =
      .ok (some 2, [8, 9], dinode tinySuper d' 1, d') := by
  have hown : BlockOwnership tinySuper tinyFile :=
    let h := blockOwnership_iff.mp blockOwnership_tinyDisk
    blockOwnership_iff.mpr (ialloc_ok h.1 h.2 (by decide))
  have ht : (dinode tinySuper tinyFile 1).type ≠ 0 := by decide +kernel
  have hempty : content tinySuper tinyFile 1 = [] := by decide +kernel
  have hsize : (dinode tinySuper tinyFile 1).size = 0 := by decide +kernel
  obtain ⟨-, d', hd', hw⟩ := (files_are_byteArrays hown (by decide) ht 0).2
    (fun k ↦ [7, 8, 9][k]?) [7, 8, 9] (Nat.zero_le _) (by decide) (fun _ _ ↦ rfl)
    (by decide +kernel)
  have hcontent : content tinySuper d' 1 = [7, 8, 9] := by
    rw [hw.content, hempty]
    rfl
  have ht' : (dinode tinySuper d' 1).type ≠ 0 := by
    rw [hw.type]
    exact ht
  have hthree : (dinode tinySuper d' 1).size = 3 := by
    rw [hw.size, hsize]
    rfl
  have hread := (files_are_byteArrays hw.ownership (by decide) ht' 1).1 5 (fun _ ↦ true)
    (by decide) (fun _ _ ↦ rfl)
  rw [hcontent, hthree] at hread
  exact ⟨d', hd', hcontent, hread⟩

end Xv6.Fs
