import Xv6.Mkfs.Run

/-!
# Well-formed images

In an image that `mkfs` leaves behind, the blocks that inodes point to and the free map agree. The
inode counter is not checked against the number of inodes, and a root directory whose entries fill
its last block gets the size of a block that it does not have.
-/

namespace Xv6.Mkfs

open Xv6.Lib Xv6.Fs Xv6.Dir

/-- The inode numbers that `ialloc` gave out. -/
def inums (st : State) : List Nat := List.range' 1 (st.freeinode - 1)

/-- The block pointers of the image that are not null: direct, indirect, and those in indirect
blocks. -/
def pointers (st : State) : List Nat :=
  ((inums st).flatMap (fun i ↦ (dinode sb st.sect i).blocks st.sect)).filter (· ≠ 0)

/-- A well-formed image. -/
structure WellFormed (st : State) : Prop where
  inums : ∀ i ∈ inums st, i < sb.ninodes
  filled : ∀ i ∈ Mkfs.inums st, ∀ k, k < ((dinode sb st.sect i).size + BSIZE - 1) / BSIZE →
    lookup st.sect (dinode sb st.sect i) k ≠ 0
  distinct : (pointers st).Nodup
  range : ∀ b ∈ pointers st, nmeta ≤ b ∧ b < FSSIZE
  bitmap : ∀ b, b < nbitmap * BPB → (used sb st.sect b = true ↔ b < nmeta ∨ b ∈ pointers st)

namespace Finished
variable {files : List HostFile} {pre st : State} (h : Finished files pre st)

include h

theorem size_pre : (dinode sb (marked pre) 1).size = DESIZE * (files.length + 2) :=
  (size_le_max h.holds (i := 0) (Nat.succ_pos _)).1.trans (length_root files)

theorem room : files.length + 1 < 200 := by
  have := h.holds.room
  rwa [images, List.length_cons, List.length_map] at this

theorem roundUp_lt : roundUp (DESIZE * (files.length + 2)) < 2 ^ 32 := by
  have := h.room
  simp only [roundUp, DESIZE, BSIZE]
  omega

theorem valid :
    ({ dinode sb (marked pre) 1 with size := roundUp (DESIZE * (files.length + 2)) } :
      Dinode).Valid :=
  { dinode_valid sb (marked pre) 1 with size := h.roundUp_lt }

theorem dinode_eq (j : Nat) : dinode sb st.sect j = if j = 1 then
    { dinode sb (marked pre) 1 with size := roundUp (DESIZE * (files.length + 2)) }
    else dinode sb (marked pre) j := by
  rw [h.sect, dinode_iupdate h.valid]

/-- The rounding changes no pointer. -/
theorem owned : Owned sb st.sect (dinode sb st.sect) 0 := by
  have hown := (blockOwnership_iff.mp h.holds.ownership).1
  rw [h.sect]
  apply Owned.iupdate _ (by rw [sb_ninodes]; decide) (fun _ _ ↦ rfl)
  apply owned_setSize _ h.roundUp_lt
  rw [Function.update_eq_self]
  exact hown

theorem type_eq (j : Nat) : (dinode sb st.sect j).type = (dinode sb (marked pre) j).type := by
  rw [h.dinode_eq]
  split
  · next hj => rw [hj]
  · rfl

theorem lookup_eq {j : Nat} (hj : j < 200) (ht : (dinode sb (marked pre) j).type ≠ 0) (k : Nat) :
    lookup st.sect (dinode sb st.sect j) k = lookup (marked pre) (dinode sb (marked pre) j) k := by
  have hsame :
      lookup st.sect (dinode sb st.sect j) k = lookup st.sect (dinode sb (marked pre) j) k := by
    rw [h.dinode_eq]
    split
    · next hj => rw [hj]; rfl
    · rfl
  rw [hsame, h.sect]
  exact lookup_iupdate (blockOwnership_iff.mp h.holds.ownership).1 (by rw [sb_ninodes]; decide)
    (by rw [sb_ninodes]; exact hj) ht _ k

theorem used_eq {b : Nat} (hb : b < 8192) : used sb st.sect b = decide (b < pre.freeblock) := by
  rw [← used_marked hb, h.sect]
  exact used_congr
    (Function.update_of_ne (sb.iblock_ne_bblock (by rw [sb_ninodes]; decide) b).symm _ _)

theorem mem_inums {i : Nat} : i ∈ inums st ↔ 1 ≤ i ∧ i < files.length + 2 := by
  rw [inums, List.mem_range'_1, h.inum]
  omega

/-- The inodes that are given out are the allocated ones. -/
theorem type_ne_zero {i : Nat} (hi : i < 200) : (dinode sb st.sect i).type ≠ 0 ↔ i ∈ inums st := by
  have hlen : (images files).length = files.length + 1 := by simp [images]
  rw [h.mem_inums, h.type_eq]
  constructor
  · intro ht
    by_contra hout
    exact ht (h.holds.free i hi (by omega))
  · rintro ⟨hlo, hhi⟩
    obtain ⟨j, rfl⟩ : ∃ j, i = j + 1 := ⟨i - 1, by omega⟩
    have hj : j < (images files).length := by omega
    rw [(h.holds.inodes j hj).1]
    exact h.holds.types _ (List.getElem_mem hj)

/-- A block occurs among the pointers as often as inodes point to it. -/
theorem count_pointers {b : Nat} (hb : b ≠ 0) :
    (pointers st).count b = totalRefs sb st.sect (dinode sb st.sect) b := by
  have hroom := h.room
  have hsub : (inums st).toFinset ⊆ Finset.range 200 := by
    intro i hi
    have := h.mem_inums.mp (List.mem_toFinset.mp hi)
    rw [Finset.mem_range]
    omega
  have hlive {i : Nat} (hi : i ∈ inums st) : liveRefs st.sect (dinode sb st.sect i) b =
      ((dinode sb st.sect i).blocks st.sect).count b := by
    have hlt := h.mem_inums.mp hi
    rw [liveRefs, if_neg ((h.type_ne_zero (by omega)).mpr hi), count_blocks _ _ hb]
  calc (pointers st).count b
      = ((inums st).flatMap (fun i ↦ (dinode sb st.sect i).blocks st.sect)).count b := by
        rw [pointers, List.count_filter (by simpa using hb)]
    _ = ((inums st).map (fun i ↦ ((dinode sb st.sect i).blocks st.sect).count b)).sum :=
        List.count_flatMap
    _ = ((inums st).map (fun i ↦ liveRefs st.sect (dinode sb st.sect i) b)).sum := by
        rw [List.map_congr_left (fun i hi ↦ (hlive hi).symm)]
    _ = ∑ i ∈ (inums st).toFinset, liveRefs st.sect (dinode sb st.sect i) b :=
        (List.sum_toFinset _ List.nodup_range').symm
    _ = ∑ i ∈ Finset.range 200, liveRefs st.sect (dinode sb st.sect i) b := by
        apply Finset.sum_subset hsub
        intro i hi hout
        rw [Finset.mem_range] at hi
        rw [List.mem_toFinset] at hout
        exact if_pos (not_not.mp (fun ht ↦ hout ((h.type_ne_zero hi).mp ht)))
    _ = totalRefs sb st.sect (dinode sb st.sect) b := by
        rw [← sb_ninodes, Finset.sum_range]
        rfl

theorem mem_pointers {b : Nat} : b ∈ pointers st ↔ 46 ≤ b ∧ b < pre.freeblock := by
  have hhi : pre.freeblock ≤ 2000 := h.holds.laid.hi
  have hmem (hb : b ≠ 0) : b ∈ pointers st ↔ sb.IsData b ∧ used sb st.sect b = true := by
    have hrefs := h.owned.refs b hb
    rw [if_neg hb, Nat.add_zero, ← h.count_pointers hb] at hrefs
    rw [← List.count_pos_iff, hrefs]
    split
    · next hm => exact ⟨fun _ ↦ hm, fun _ ↦ Nat.one_pos⟩
    · next hm => exact ⟨fun hpos ↦ absurd hpos (lt_irrefl _), fun hm' ↦ absurd hm' hm⟩
  by_cases hb : b = 0
  · have hnot : b ∉ pointers st := by
      rw [pointers, List.mem_filter]
      simp [hb]
    exact ⟨fun hin ↦ absurd hin hnot, fun hin ↦ by omega⟩
  · rw [hmem hb, isData_iff]
    constructor
    · rintro ⟨⟨hlo, hlt⟩, hu⟩
      rw [h.used_eq (by omega)] at hu
      exact ⟨hlo, of_decide_eq_true hu⟩
    · rintro ⟨hlo, hlt⟩
      refine ⟨⟨hlo, by omega⟩, ?_⟩
      rw [h.used_eq (by omega)]
      exact decide_eq_true hlt

/-- The blocks of the root below its real size are there. -/
theorem filled_pre {i k : Nat} (hi : i ∈ inums st)
    (hk : k * BSIZE < (dinode sb (marked pre) i).size) :
    lookup st.sect (dinode sb st.sect i) k ≠ 0 := by
  have hlt := h.mem_inums.mp hi
  have hroom := h.room
  have ht : (dinode sb (marked pre) i).type ≠ 0 := by
    rw [← h.type_eq]
    exact (h.type_ne_zero (by omega)).mpr hi
  rw [h.lookup_eq (by omega) ht]
  exact (blockOwnership_iff.mp h.holds.ownership).2 i (by rw [sb_ninodes]; omega) ht k hk

/-- All but the last block of the root. -/
theorem wellFormed (hroot : (files.length + 2) % 64 ≠ 0) : WellFormed st := by
  have hroom := h.room
  have hhi : pre.freeblock ≤ 2000 := h.holds.laid.hi
  have hlo := h.holds.laid.lo
  refine ⟨?_, ?_, ?_, ?_, ?_⟩
  · intro i hi
    have := h.mem_inums.mp hi
    rw [sb_ninodes]
    omega
  · intro i hi k hk
    apply h.filled_pre hi
    rw [h.dinode_eq] at hk
    split at hk
    · next hone =>
      rw [hone, h.size_pre]
      simp only [roundUp, DESIZE, BSIZE] at hk ⊢
      omega
    · simp only [BSIZE] at hk ⊢
      omega
  · apply List.nodup_iff_count_le_one.mpr
    intro b
    by_cases hb : b = 0
    · have hnot : b ∉ pointers st := fun hin ↦ by have := h.mem_pointers.mp hin; omega
      rw [List.count_eq_zero_of_not_mem hnot]
      exact Nat.zero_le _
    · rw [h.count_pointers hb]
      exact h.owned.le_one hb
  · intro b hb
    have := h.mem_pointers.mp hb
    rw [nmeta_eq]
    simp only [FSSIZE]
    omega
  · intro b hb
    rw [h.used_eq hb, h.mem_pointers, nmeta_eq, decide_eq_true_iff]
    omega

/-- The block that the size of a full root promises has no pointer. -/
theorem not_wellFormed (hroot : (files.length + 2) % 64 = 0) : ¬ WellFormed st := by
  intro hwf
  have hroom := h.room
  have hk : DESIZE * (files.length + 2) / BSIZE < NDIRECT := by
    simp only [DESIZE, BSIZE, NDIRECT]
    omega
  have hnull : (dinode sb (marked pre) 1).addrs (Fin.castSucc ⟨_, hk⟩) = 0 := by
    apply h.holds.trim 0 (Nat.succ_pos _)
    rw [Nat.zero_add, h.size_pre]
    simp only [DESIZE, BSIZE]
    omega
  have hone : 1 ∈ inums st := h.mem_inums.mpr ⟨le_refl _, by omega⟩
  apply hwf.filled 1 hone (DESIZE * (files.length + 2) / BSIZE)
  · rw [h.dinode_eq, if_pos rfl]
    simp only [roundUp, DESIZE, BSIZE]
    omega
  · rw [h.lookup_eq (by decide), lookup, dif_pos hk]
    · exact hnull
    · rw [← h.type_eq]
      exact (h.type_ne_zero (by decide)).mpr hone

end Finished

/-- The image that a run leaves behind is well formed just when there are inode numbers for all
files and the entries of the root do not end at the end of a block. -/
theorem wellFormed_iff {files : List HostFile} {st : State} (h : main files = .ok st) :
    WellFormed st ↔
      files.length ≤ NINODES - 2 ∧ (files.length + 2) % (BSIZE / DESIZE) ≠ 0 := by
  have hinum := freeinode_of_main h
  constructor
  · intro hwf
    have hn : files.length ≤ 198 := by
      by_contra hmore
      have hmem : 200 ∈ inums st := by
        rw [inums, List.mem_range'_1, hinum]
        omega
      have := hwf.inums 200 hmem
      rw [sb_ninodes] at this
      omega
    refine ⟨hn, ?_⟩
    intro hfull
    obtain ⟨pre, hfin⟩ := finished_of_main hn h
    exact hfin.not_wellFormed hfull hwf
  · rintro ⟨hn, hroot⟩
    obtain ⟨pre, hfin⟩ := finished_of_main hn h
    exact hfin.wellFormed hroot

/-- An empty file that is called `a`. -/
def emptyFile : HostFile where
  arg := [97]
  noNul := by simp
  reads := some []

theorem main_emptyFiles {n : Nat} (hn : n ≤ 198) :
    ∃ st, main (List.replicate n emptyFile) = .ok st := by
  apply main_ok
  · rw [List.length_replicate]
    exact hn
  · intro f hf
    rw [List.eq_of_mem_replicate hf]
    exact ⟨by decide, rfl, Nat.zero_le _⟩
  · rw [List.map_replicate, List.sum_replicate, show appends emptyFile = 1 from rfl]
    simp only [FSSIZE, smul_eq_mul]
    omega

/-- No file: the image is well formed. -/
theorem wellFormed_iff_noFiles : ∃ st, main [] = .ok st ∧ WellFormed st := by
  obtain ⟨st, hst⟩ := main_emptyFiles (Nat.zero_le 198)
  exact ⟨st, hst, (wellFormed_iff hst).mpr (by decide)⟩

/-- With 62 files the entries of the root fill a block, and the image is not well formed. -/
theorem not_wellFormed_sixtyTwo :
    ¬ ∀ files st, main files = .ok st → WellFormed st := by
  intro hall
  obtain ⟨st, hst⟩ := main_emptyFiles (show 62 ≤ 198 by decide)
  obtain ⟨pre, hfin⟩ := finished_of_main (by rw [List.length_replicate]; decide) hst
  exact hfin.not_wellFormed (by rw [List.length_replicate]) (hall _ _ hst)

end Xv6.Mkfs
