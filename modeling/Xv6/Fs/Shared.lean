import Xv6.Fs.Filewrite
import Xv6.Lib.Run
import Xv6.Lib.Sum

/-!
# Writes through a shared `struct file`

Any number of processes run `filewrite` on the same file (`kernel/file.c:147–174`). Between two
chunks a call has no lock, so the calls interleave chunk by chunk; `f->off` is read and advanced
under the lock of the inode, so each chunk goes where the one before it ended.
-/

namespace Xv6.Fs

open Xv6.Lib

/-- The length of the next chunk, after `done` of `n` bytes; `kernel/file.c:158–160`. -/
def chunkSize (n done : Nat) : Nat := if n - done > maxChunk then maxChunk else n - done

/-- What `filewrite` does under one lock of the inode: the result of `writei` and the new `f->off`;
`kernel/file.c:163–166`. -/
def writeChunk (sb : Super) (i : Nat) (src : Nat → Option UInt8) (n done off : Nat) (d : Disk) :
    Except String (Option Nat × Nat × Disk) := do
  let ip ← ilock sb i d
  let (r, _, d) ← writei sb i ip (fun k ↦ src (done + k)) off (chunkSize n done) d
  return (r, off + r.getD 0, d)

section
variable {m : Nat}

/-- The disk, `f->off`, and for each call its `i` and the value it has returned. -/
structure Sharing (m : Nat) where
  disk : Disk
  off : Nat
  done : Fin m → Nat
  ret : Fin m → Option (Option Nat)

/-- The next step of call `w`: a chunk, or the return after the loop. It has no step if it has
returned, and none if the kernel panics. -/
def Sharing.step (sb : Super) (i : Nat) (src : Fin m → Nat → Option UInt8) (n : Fin m → Nat)
    (s : Sharing m) (w : Fin m) : Option (Sharing m) :=
  let return' (s : Sharing m) : Sharing m :=
    { s with ret := Function.update s.ret w (some (if s.done w = n w then some (n w) else none)) }
  if s.ret w ≠ none then none
  else if s.done w < n w then
    match writeChunk sb i (src w) (n w) (s.done w) s.off s.disk with
    | .error _ => none
    | .ok (r, off, d) =>
      if r = some (chunkSize (n w) (s.done w)) then
        some { s with
          disk := d
          off := off
          done := Function.update s.done w (s.done w + chunkSize (n w) (s.done w)) }
      else some (return' { s with disk := d, off := off })
  else some (return' s)

/-- All calls are about to start. -/
def Sharing.start (m : Nat) (d : Disk) (off : Nat) : Sharing m := ⟨d, off, fun _ ↦ 0, fun _ ↦ none⟩

/-- The chunks into which `filewrite` cuts its bytes. -/
def chunks (xs : List UInt8) : List (List UInt8) :=
  if xs = [] then [] else xs.take maxChunk :: chunks (xs.drop maxChunk)
termination_by xs.length
decreasing_by
  have hpos := maxChunk_pos
  have hne : xs.length ≠ 0 := by simpa using ‹¬xs = []›
  rw [List.length_drop]
  omega

/-- The chunks of call `w` among those written. -/
def ownChunks (order : List (Fin m × List UInt8)) (w : Fin m) : List (List UInt8) :=
  (order.filter (fun q ↦ q.1 = w)).map Prod.snd

/-- The bytes written, in their order. -/
def written (order : List (Fin m × List UInt8)) : List UInt8 := (order.map Prod.snd).flatten

theorem chunks_nil : chunks [] = [] := by
  rw [chunks]
  exact if_pos rfl

theorem chunks_of_ne_nil {xs : List UInt8} (h : xs ≠ []) :
    chunks xs = xs.take maxChunk :: chunks (xs.drop maxChunk) := by
  rw [chunks]
  exact if_neg h

/-- What fits one transaction is one chunk. -/
theorem chunks_of_le {xs : List UInt8} (h : xs ≠ []) (hle : xs.length ≤ maxChunk) :
    chunks xs = [xs] := by
  rw [chunks_of_ne_nil h, List.take_of_length_le hle, List.drop_of_length_le hle, chunks_nil]

/-- The first of the remaining chunks. -/
theorem chunks_drop {xs : List UInt8} {done : Nat} (h : done < xs.length) :
    chunks (xs.drop done) = (xs.drop done).take (chunkSize xs.length done) ::
      chunks (xs.drop (done + chunkSize xs.length done)) := by
  have hne : xs.drop done ≠ [] := by
    intro hnil
    have := congrArg List.length hnil
    rw [List.length_drop, List.length_nil] at this
    omega
  rw [chunks_of_ne_nil hne, List.drop_drop]
  unfold chunkSize
  split
  · rfl
  · next hle =>
    have hlast : xs.drop (done + maxChunk) = [] := List.drop_of_length_le (by omega)
    have hend : xs.drop (done + (xs.length - done)) = [] := List.drop_of_length_le (by omega)
    rw [hlast, hend, List.take_of_length_le (by rw [List.length_drop]; omega),
      List.take_of_length_le (by rw [List.length_drop])]

theorem written_append (order : List (Fin m × List UInt8)) (w : Fin m) (c : List UInt8) :
    written (order ++ [(w, c)]) = written order ++ c := by
  simp [written]

theorem ownChunks_append (order : List (Fin m × List UInt8)) (w v : Fin m) (c : List UInt8) :
    ownChunks (order ++ [(w, c)]) v = if w = v then ownChunks order v ++
      [c] else ownChunks order v := by
  unfold ownChunks
  rw [List.filter_append, List.map_append]
  by_cases hwv : w = v
  · simp [hwv]
  · simp [hwv]

theorem chunkSize_pos {n done : Nat} (h : done < n) :
    0 < chunkSize n done ∧ done + chunkSize n done ≤ n := by
  have hpos := maxChunk_pos
  unfold chunkSize
  split <;> omega

/-- The condition under which the calls run: the inode is in use and its size is `f->off`, all the
bytes can be read, and the file system has room for them. -/
structure Shared (sb : Super) (i : Nat) (src : Fin m → Nat → Option UInt8)
    (xs : Fin m → List UInt8) (d : Disk) (off : Nat) : Prop where
  ownership : BlockOwnership sb d
  inum : i < sb.ninodes
  used : (dinode sb d i).type ≠ 0
  size : (dinode sb d i).size = off
  source : ∀ w k, k < (xs w).length → src w k = (xs w)[k]?
  fits : off + ∑ w, (xs w).length ≤ MAXFILE * BSIZE
  space : Enough sb d (dinode sb d i) off (∑ w, (xs w).length)

/-- The invariant: `order` is what has been written so far. -/
structure Shares (sb : Super) (i : Nat) (xs : Fin m → List UInt8) (d₀ : Disk) (off₀ : Nat)
    (order : List (Fin m × List UInt8)) (s : Sharing m) : Prop where
  content : Written sb d₀ i off₀ (written order) s.disk
  off : s.off = off₀ + (written order).length
  space : missing s.disk (dinode sb s.disk i) (off₀ / BSIZE)
    ((off₀ + ∑ w, (xs w).length + BSIZE - 1) / BSIZE) ≤ freeBlocks sb s.disk
  total : (written order).length = ∑ w, s.done w
  done : ∀ w, s.done w ≤ (xs w).length
  own : ∀ w, ownChunks order w ++ chunks ((xs w).drop (s.done w)) = chunks (xs w)
  ret : ∀ w r, s.ret w = some r → r = some (xs w).length ∧ s.done w = (xs w).length

variable {sb : Super} {i off₀ : Nat} {src : Fin m → Nat → Option UInt8} {xs : Fin m → List UInt8}
  {d₀ : Disk} {order : List (Fin m × List UInt8)} {s t : Sharing m} {w : Fin m}

/-- Each chunk is written completely, behind all that was written before. -/
theorem Shares.chunk (hd : Shared sb i src xs d₀ off₀) (h : Shares sb i xs d₀ off₀ order s)
    (hlt : s.done w < (xs w).length) :
    ∃ d, writeChunk sb i (src w) (xs w).length (s.done w) s.off s.disk =
        .ok (some (chunkSize (xs w).length (s.done w)),
          s.off + chunkSize (xs w).length (s.done w), d) ∧
      Written sb d₀ i off₀ (written order ++
        ((xs w).drop (s.done w)).take (chunkSize (xs w).length (s.done w))) d ∧
      missing d (dinode sb d i) (off₀ / BSIZE)
        ((off₀ + ∑ w, (xs w).length + BSIZE - 1) / BSIZE) ≤ freeBlocks sb d := by
  obtain ⟨hpos, hchunk⟩ := chunkSize_pos hlt
  generalize hn1 : chunkSize (xs w).length (s.done w) = n1 at hpos hchunk ⊢
  generalize hc : ((xs w).drop (s.done w)).take n1 = bs
  have hlen : bs.length = n1 := by
    rw [← hc, List.length_take, List.length_drop]
    omega
  -- the other calls have written at most all their bytes
  have hsum : (written order).length + n1 ≤ ∑ w, (xs w).length := by
    have hle := Finset.sum_le_sum (fun v (_ : v ∈ Finset.univ.erase w) ↦ h.done v)
    rw [h.total, ← Finset.add_sum_erase Finset.univ s.done (Finset.mem_univ w),
      ← Finset.add_sum_erase Finset.univ (fun w ↦ (xs w).length) (Finset.mem_univ w)]
    omega
  have hfits := hd.fits
  have hoff := h.off
  have htype : (dinode sb s.disk i).type ≠ 0 := by
    rw [h.content.type]
    exact hd.used
  have hread (k : Nat) (hk : k < bs.length) : src w (s.done w + k) = bs[k]? := by
    rw [hlen] at hk
    rw [← hc, List.getElem?_take_of_lt hk, List.getElem?_drop]
    exact hd.source w _ (by omega)
  have hsize : s.off ≤ (dinode sb s.disk i).size := by
    rw [h.content.size]
    omega
  obtain ⟨tot, d, hwi, hw, hend, hpaid⟩ := writei_written h.content.ownership hd.inum htype hsize
    (by omega) hread
  rw [hlen] at hwi hend hpaid
  have hrange : off₀ / BSIZE ≤ s.off / BSIZE ∧ (s.off + n1 + BSIZE - 1) / BSIZE ≤
      (off₀ + ∑ w, (xs w).length + BSIZE - 1) / BSIZE := by
    simp only [BSIZE]
    omega
  have hpaid := hpaid _ _ hrange.1 hrange.2
  have htot := hend.eq hpaid h.space hrange.1 hrange.2
  rw [htot] at hwi hw
  rw [List.take_of_length_le (by omega)] at hw
  refine ⟨d, ?_, ?_, ?_⟩
  · unfold writeChunk
    rw [hn1, ilock_ok htype]
    simp only [bind, Except.bind, hwi, Option.getD_some]
    rfl
  · refine h.content.trans (by rw [hd.size]) ?_
    rw [← h.off]
    exact hw
  · have := h.space
    unfold Paid at hpaid
    omega

/-- The sum of the bytes done grows by those of the chunk. -/
theorem sum_done (done : Fin m → Nat) (w : Fin m) (n1 : Nat) :
    ∑ v, Function.update done w (done w + n1) v = ∑ v, done v + n1 := by
  have hoff := sum_add_of_eq_off (f := Function.update done w (done w + n1)) (g := done) w
    (fun v hv ↦ Function.update_of_ne hv _ _)
  rw [Function.update_self] at hoff
  omega

/-- A step of a call writes its next chunk, or returns the number of its bytes. -/
theorem Shares.step (hd : Shared sb i src xs d₀ off₀) (h : Shares sb i xs d₀ off₀ order s)
    (hw : s.ret w = none) :
    ∃ t, s.step sb i src (fun v ↦ (xs v).length) w = some t ∧
      ((∃ c, Shares sb i xs d₀ off₀ (order ++ [(w, c)]) t ∧ t.ret = s.ret ∧
        ∃ n1, 0 < n1 ∧ t.done = Function.update s.done w (s.done w + n1)) ∨
      (Shares sb i xs d₀ off₀ order t ∧ t.done = s.done ∧
        t.ret = Function.update s.ret w (some (some (xs w).length)))) := by
  have hno : ¬ s.ret w ≠ none := fun hne ↦ hne hw
  by_cases hlt : s.done w < (xs w).length
  · obtain ⟨d, hchunk, hcontent, hspace⟩ := h.chunk hd hlt
    obtain ⟨hpos, hle⟩ := chunkSize_pos hlt
    have hown := chunks_drop hlt
    have hstep : s.step sb i src (fun v ↦ (xs v).length) w = some { s with
        disk := d
        off := s.off + chunkSize (xs w).length (s.done w)
        done := Function.update s.done w (s.done w + chunkSize (xs w).length (s.done w)) } := by
      unfold Sharing.step
      simp only [if_neg hno, if_pos hlt, hchunk, if_true]
    have hlen : (((xs w).drop (s.done w)).take (chunkSize (xs w).length (s.done w))).length =
        chunkSize (xs w).length (s.done w) := by
      rw [List.length_take, List.length_drop]
      omega
    generalize chunkSize (xs w).length (s.done w) = n1 at *
    generalize ((xs w).drop (s.done w)).take n1 = c at *
    refine ⟨_, hstep, Or.inl ⟨c, ⟨?_, ?_, hspace, ?_, ?_, ?_, ?_⟩, rfl, n1, hpos, rfl⟩⟩
    · rw [written_append]
      exact hcontent
    · rw [written_append, List.length_append, hlen, ← Nat.add_assoc, ← h.off]
    · rw [written_append, List.length_append, hlen, h.total]
      exact (sum_done s.done w n1).symm
    · intro v
      by_cases hv : v = w
      · rw [hv]
        simp only [Function.update_self]
        exact hle
      · simp only [Function.update_of_ne hv]
        exact h.done v
    · intro v
      rw [ownChunks_append]
      by_cases hv : v = w
      · rw [hv, if_pos rfl]
        simp only [Function.update_self]
        rw [List.append_assoc, List.singleton_append, ← hown]
        exact h.own w
      · rw [if_neg (Ne.symm hv)]
        simp only [Function.update_of_ne hv]
        exact h.own v
    · intro v r hr
      have hvw : v ≠ w := by
        rintro rfl
        rw [hw] at hr
        cases hr
      simp only [Function.update_of_ne hvw]
      exact h.ret v r hr
  · have hend : s.done w = (xs w).length := by
      have := h.done w
      omega
    refine ⟨{ s with ret := Function.update s.ret w (some (some (xs w).length)) }, ?_,
      Or.inr ⟨⟨h.content, h.off, h.space, h.total, h.done, h.own, ?_⟩, rfl, rfl⟩⟩
    · unfold Sharing.step
      simp only [if_neg hno, if_neg hlt, if_pos hend]
    · intro v r hr
      by_cases hv : v = w
      · rw [hv] at hr ⊢
        simp only [Function.update_self] at hr
        exact ⟨(Option.some.inj hr).symm, hend⟩
      · simp only [Function.update_of_ne hv] at hr
        exact h.ret v r hr

/-- The steps that are left, at most. -/
def Sharing.left (xs : Fin m → List UInt8) (s : Sharing m) : Nat :=
  ∑ w, ((xs w).length - s.done w + if s.ret w = none then 1 else 0)

/-- A run of the calls keeps the invariant, and uses up the steps that are left. -/
theorem Shares.run (hd : Shared sb i src xs d₀ off₀) (h : Shares sb i xs d₀ off₀ order s)
    {as : List (Fin m)} (hrun : run (Sharing.step sb i src (fun v ↦ (xs v).length)) s as = some t) :
    ∃ order', Shares sb i xs d₀ off₀ order' t ∧ as.length + t.left xs ≤ s.left xs := by
  induction as generalizing s order with
  | nil =>
    cases Option.some.inj hrun
    refine ⟨order, h, ?_⟩
    rw [List.length_nil]
    omega
  | cons w as ih =>
    obtain ⟨u, hu, hrest⟩ := run_cons_eq_some.mp hrun
    have hret : s.ret w = none := by
      by_contra hne
      unfold Sharing.step at hu
      rw [if_pos hne] at hu
      cases hu
    obtain ⟨u', hu', hcase⟩ := h.step hd hret
    cases Option.some.inj (hu'.symm.trans hu)
    have hoff := sum_add_of_eq_off
      (f := fun v ↦ (xs v).length - u.done v + if u.ret v = none then 1 else 0)
      (g := fun v ↦ (xs v).length - s.done v + if s.ret v = none then 1 else 0) w
    rw [List.length_cons]
    rcases hcase with ⟨c, hshares, hsame, n1, hpos, hdone⟩ | ⟨hshares, hdone, hsame⟩
    · obtain ⟨order', hend, hleft⟩ := ih hshares hrest
      refine ⟨order', hend, ?_⟩
      have hsum := hoff (fun v hv ↦ by rw [hdone, hsame, Function.update_of_ne hv])
      have hle := hshares.done w
      rw [hdone, Function.update_self] at hle
      simp only [hdone, hsame, Function.update_self, hret, if_true] at hsum
      unfold Sharing.left at hleft ⊢
      simp only [hdone, hsame] at hleft
      omega
    · obtain ⟨order', hend, hleft⟩ := ih hshares hrest
      refine ⟨order', hend, ?_⟩
      have hsum := hoff (fun v hv ↦ by rw [hdone, hsame, Function.update_of_ne hv])
      simp only [hdone, hsame, Function.update_self, hret, if_true, reduceCtorEq, if_false] at hsum
      unfold Sharing.left at hleft ⊢
      simp only [hdone, hsame] at hleft
      omega

theorem Shares.start (hd : Shared sb i src xs d₀ off₀) :
    Shares sb i xs d₀ off₀ [] (Sharing.start m d₀ off₀) where
  content := Written.refl hd.ownership (by rw [hd.size])
  off := rfl
  space := hd.space
  total := by
    change 0 = ∑ w : Fin m, 0
    rw [Finset.sum_const_zero]
  done := fun _ ↦ Nat.zero_le _
  own := fun _ ↦ rfl
  ret := fun _ _ hr ↦ nomatch hr

/-- A chunk of call `w` stands in the file as a whole. -/
theorem written_of_mem {c : List UInt8} (h : c ∈ ownChunks order w) :
    ∃ before after, written order = before ++ c ++ after := by
  unfold ownChunks at h
  obtain ⟨⟨v, c'⟩, hmem, rfl⟩ := List.mem_map.mp h
  obtain ⟨front, back, rfl⟩ := List.append_of_mem (List.mem_of_mem_filter hmem)
  refine ⟨written front, written back, ?_⟩
  simp [written]

/-- **Writes through a shared descriptor are not lost.** In every interleaving of the calls: as long
as one of them has not returned it has a next step, there is a bound on the number of steps, and
when all have returned, each with the number of its bytes, the file consists of its old content and
of the chunks of all calls in some order, those of one call in their own, and `f->off` has advanced
by all bytes. The bytes of a call that fit one chunk are contiguous. -/
theorem sharedWrites_kept (hd : Shared sb i src xs d₀ off₀) (as : List (Fin m))
    (hrun : run (Sharing.step sb i src (fun v ↦ (xs v).length)) (Sharing.start m d₀ off₀) as =
      some s) :
    as.length ≤ ∑ w, ((xs w).length + 1) ∧
    (∀ w, s.ret w = none → ∃ t, s.step sb i src (fun v ↦ (xs v).length) w = some t) ∧
    ((∀ w, s.ret w ≠ none) → ∃ order,
      content sb s.disk i = content sb d₀ i ++ written order ∧
      (∀ w, ownChunks order w = chunks (xs w)) ∧
      s.off = off₀ + ∑ w, (xs w).length ∧
      (∀ w, s.ret w = some (some (xs w).length)) ∧
      ∀ w, (xs w).length ≤ maxChunk →
        ∃ before after, content sb s.disk i = content sb d₀ i ++ (before ++ xs w ++ after)) := by
  obtain ⟨order, h, hleft⟩ := (Shares.start hd).run hd hrun
  refine ⟨?_, ?_, ?_⟩
  · have hstart : (Sharing.start m d₀ off₀).left xs = ∑ w, ((xs w).length + 1) := rfl
    rw [hstart] at hleft
    omega
  · intro w hw
    obtain ⟨t, ht, -⟩ := h.step hd hw
    exact ⟨t, ht⟩
  · intro hall
    have hret (w : Fin m) : s.ret w = some (some (xs w).length) ∧ s.done w = (xs w).length := by
      obtain ⟨r, hr⟩ := Option.ne_none_iff_exists'.mp (hall w)
      obtain ⟨rfl, hdone⟩ := h.ret w r hr
      exact ⟨hr, hdone⟩
    have hcontent : content sb s.disk i = content sb d₀ i ++ written order := by
      have hlen : (content sb d₀ i).length = off₀ := by rw [length_content, hd.size]
      rw [h.content.content, splice, List.take_of_length_le (by omega),
        List.drop_of_length_le (by omega), List.append_nil]
    have hown (w : Fin m) : ownChunks order w = chunks (xs w) := by
      have := h.own w
      rwa [(hret w).2, List.drop_length, chunks_nil, List.append_nil] at this
    refine ⟨order, hcontent, hown, ?_, fun w ↦ (hret w).1, ?_⟩
    · rw [h.off, h.total]
      congr 1
      exact Finset.sum_congr rfl (fun w _ ↦ (hret w).2)
    · intro w hle
      rw [hcontent]
      by_cases hne : xs w = []
      · exact ⟨written order, [], by rw [hne, List.append_nil, List.append_nil]⟩
      · have hmem : xs w ∈ ownChunks order w := by
          rw [hown, chunks_of_le hne hle]
          exact List.mem_singleton_self _
        obtain ⟨before, after, hw⟩ := written_of_mem hmem
        exact ⟨before, after, by rw [hw]⟩

end

/-- The bytes of two calls. -/
def tinyWrites : Fin 2 → List UInt8 := ![[7, 8, 9], [1, 2]]

/-- Two calls on the empty file of the small disk; the second one comes first. -/
theorem sharedWrites_kept_tinyFile :
    ∃ s order, run (Sharing.step tinySuper 1 (fun w k ↦ (tinyWrites w)[k]?)
        (fun w ↦ (tinyWrites w).length)) (Sharing.start 2 tinyFile 0) [1, 0, 0, 1] = some s ∧
      content tinySuper s.disk 1 = content tinySuper tinyFile 1 ++ written order ∧
      (∀ w, ownChunks order w = chunks (tinyWrites w)) ∧ s.off = 5 := by
  have hown : BlockOwnership tinySuper tinyFile :=
    let h := blockOwnership_iff.mp blockOwnership_tinyDisk
    blockOwnership_iff.mpr (ialloc_ok h.1 h.2 (by decide))
  have hd : Shared tinySuper 1 (fun w k ↦ (tinyWrites w)[k]?) tinyWrites tinyFile 0 := by
    refine ⟨hown, by decide, by decide +kernel, by decide +kernel, fun _ _ _ ↦ rfl, by decide, ?_⟩
    decide +kernel
  have hret : (run (Sharing.step tinySuper 1 (fun w k ↦ (tinyWrites w)[k]?)
      (fun w ↦ (tinyWrites w).length)) (Sharing.start 2 tinyFile 0) [1, 0, 0, 1]).map
        (fun s ↦ (s.ret 0, s.ret 1)) = some (some (some 3), some (some 2)) := by decide +kernel
  obtain ⟨s, hrun, hs⟩ := Option.map_eq_some_iff.mp hret
  obtain ⟨h0, h1⟩ := Prod.mk.inj hs
  have hall (w : Fin 2) : s.ret w ≠ none := by
    match w with
    | 0 => rw [h0]; exact Option.some_ne_none _
    | 1 => rw [h1]; exact Option.some_ne_none _
  obtain ⟨order, hcontent, hchunks, hoff, -⟩ := (sharedWrites_kept hd _ hrun).2.2 hall
  exact ⟨s, order, hrun, hcontent, hchunks, hoff⟩

end Xv6.Fs
