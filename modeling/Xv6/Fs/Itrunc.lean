import Xv6.Fs.Bmap

/-!
# Writing inodes back, truncating and freeing them

`iupdate` puts the fields that an operation worked with on the disk; `itrunc` frees exactly the
blocks that an inode points to, and `iput` and `ialloc` take and give inodes without blocks.
-/

namespace Xv6.Fs

open Xv6.Lib

variable {sb : Super} {d d' : Disk} {inode : Nat → Dinode} {i : Nat}

/-! ### Writing an inode back -/

theorem dinode_iupdate {ip : Dinode} (hv : ip.Valid) (i j : Nat) (d : Disk) :
    dinode sb (iupdate sb i ip d) j = if j = i then ip else dinode sb d j := by
  unfold dinode iupdate
  by_cases hblk : sb.iblock j = sb.iblock i
  · rw [hblk, Function.update_self]
    split
    · next hji =>
      rw [hji]
      exact getDinode_setDinode _ _ hv
    · next hji =>
      have hmod : j % IPB ≠ i % IPB := by
        simp only [Super.iblock, IPB, BSIZE] at hblk ⊢
        omega
      apply getDinode_congr
      intro k hlo hhi
      apply setDinode_apply_of_notMem
      omega
  · have hji : j ≠ i := by
      rintro rfl
      exact hblk rfl
    rw [Function.update_of_ne hblk, if_neg hji]

theorem dinode_congr (h : d' (sb.iblock i) = d (sb.iblock i)) : dinode sb d' i = dinode sb d i := by
  rw [dinode, dinode, h]

/-- The inodes below `ninodes` determine the pointers. -/
theorem Owned.congr_inode {inode' : Nat → Dinode} {pending : Nat} (h : Owned sb d inode pending)
    (heq : ∀ i, i < sb.ninodes → inode' i = inode i) (hv : ∀ i, (inode' i).Valid) :
    Owned sb d inode' pending := by
  refine ⟨?_, h.metadata, hv⟩
  intro b hb
  have htotal : totalRefs sb d inode' b = totalRefs sb d inode b := by
    apply Finset.sum_congr rfl
    intro i _
    rw [heq i i.isLt]
  rw [htotal]
  exact h.refs b hb

theorem dinode_valid (sb : Super) (d : Disk) (i : Nat) : (dinode sb d i).Valid :=
  getDinode_valid _ _

/-- After `iupdate` the inodes on the disk are those that the operation worked with. -/
theorem dinode_iupdate_update {ip : Dinode} (hv : ip.Valid)
    (hinode : ∀ j, j < sb.ninodes → inode j = dinode sb d j) {j : Nat} (hj : j < sb.ninodes) :
    dinode sb (iupdate sb i ip d) j = Function.update inode i ip j := by
  rw [dinode_iupdate hv]
  split
  · next hji => rw [hji, Function.update_self]
  · next hji => rw [Function.update_of_ne hji, hinode j hj]

/-- `iupdate` changes no indirect block. -/
theorem Owned.indirect_iupdate {pending : Nat} (h : Owned sb d inode pending) (hi : i < sb.ninodes)
    (ip : Dinode) {j : Nat} (hj : j < sb.ninodes) (ht : (inode j).type ≠ 0)
    (hne : (inode j).indirect ≠ 0) :
    iupdate sb i ip d (inode j).indirect = d (inode j).indirect :=
  Function.update_of_ne ((h.indirect_isData hj ht hne).1.ne_iblock hi) _ _

theorem Owned.iupdate {ip : Dinode} (h : Owned sb d (Function.update inode i ip) 0)
    (hi : i < sb.ninodes) (hinode : ∀ j, j < sb.ninodes → inode j = dinode sb d j) :
    Owned sb (iupdate sb i ip d) (dinode sb (iupdate sb i ip d)) 0 := by
  have hv : ip.Valid := by
    have := h.valid i
    rwa [Function.update_self] at this
  have hused (b : Nat) : used sb (Fs.iupdate sb i ip d) b = used sb d b :=
    used_congr (Function.update_of_ne (sb.iblock_ne_bblock hi b).symm _ _)
  refine Owned.congr_inode ⟨?_, ?_, h.valid⟩ (fun j hj ↦ dinode_iupdate_update hv hinode hj)
    (dinode_valid sb _)
  · intro b hb
    rw [totalRefs_congr (fun j hj ht hne ↦ h.indirect_iupdate hi ip hj ht hne), hused]
    exact h.refs b hb
  · intro b hb
    rw [hused]
    exact h.metadata b hb

/-- `iupdate` keeps the invariant. -/
theorem owned_iupdate {ip : Dinode} (hi : i < sb.ninodes)
    (h : Owned sb d (Function.update inode i ip) 0) (hf : Filled sb d (Function.update inode i ip))
    (hinode : ∀ j, j < sb.ninodes → inode j = dinode sb d j) :
    Owned sb (iupdate sb i ip d) (dinode sb (iupdate sb i ip d)) 0 ∧
      Filled sb (iupdate sb i ip d) (dinode sb (iupdate sb i ip d)) := by
  have hv : ip.Valid := by
    have := h.valid i
    rwa [Function.update_self] at this
  refine ⟨h.iupdate hi hinode, ?_⟩
  intro j hj ht k hk
  rw [dinode_iupdate_update hv hinode hj] at ht hk ⊢
  rw [lookup_congr (h.indirect_iupdate hi ip hj ht)]
  exact hf j hj ht k hk

/-! ### Truncation -/

/-- Freeing distinct marked blocks clears their marks and changes nothing but the free map. -/
theorem freeAll_ok {bs : List Nat} (hcount : ∀ b, b ≠ 0 → bs.count b ≤ 1)
    (hused : ∀ b ∈ bs, b ≠ 0 → b < sb.size ∧ used sb d b = true) :
    ∃ d', freeAll sb bs d = .ok d' ∧ (∀ x, (∀ b, b < sb.size → x ≠ sb.bblock b) → d' x = d x) ∧
      ∀ b, used sb d' b = if b ≠ 0 ∧ b ∈ bs then false else used sb d b := by
  induction bs generalizing d with
  | nil => exact ⟨d, rfl, fun _ _ ↦ rfl, fun b ↦ by simp⟩
  | cons b bs ih =>
    have hcount' (b' : Nat) (hb' : b' ≠ 0) : bs.count b' ≤ 1 :=
      le_trans (List.count_le_count_cons) (hcount b' hb')
    by_cases hz : b = 0
    · obtain ⟨d', hd', hframe, hmarks⟩ := ih hcount'
        (fun b' hb' ↦ hused b' (List.mem_cons_of_mem b hb'))
      refine ⟨d', by rw [freeAll, if_neg (by simp [hz])]; exact hd', hframe, ?_⟩
      intro b'
      rw [hmarks b']
      by_cases hb' : b' = 0
      · simp [hb']
      · simp [hb', hz]
    · obtain ⟨hlt, hu⟩ := hused b List.mem_cons_self hz
      obtain ⟨d₁, hd₁, hframe₁, hmarks₁⟩ := bfree_ok hu
      have hnot : b ∉ bs := by
        intro hmem
        have hpos := List.count_pos_iff.mpr hmem
        have hone := hcount b hz
        rw [List.count_cons_self] at hone
        omega
      obtain ⟨d', hd', hframe, hmarks⟩ := ih (d := d₁) hcount' (by
        intro b' hb' hne
        obtain ⟨hlt', hu'⟩ := hused b' (List.mem_cons_of_mem b hb') hne
        refine ⟨hlt', ?_⟩
        rw [hmarks₁, if_neg]
        · exact hu'
        · rintro rfl
          exact hnot hb')
      refine ⟨d', ?_, ?_, ?_⟩
      · rw [freeAll, if_pos hz, hd₁]
        exact hd'
      · intro x hx
        rw [hframe x hx, hframe₁ x (hx b hlt)]
      · intro b'
        rw [hmarks, hmarks₁]
        by_cases hbb : b' = b
        · simp [hbb, hz]
        · simp [hbb]

/-- The pointers of an inode, in the order in which `itrunc` frees them. -/
def Dinode.blocks (d : Disk) (ip : Dinode) : List Nat :=
  ip.direct ++ if ip.indirect = 0 then [] else entries (d ip.indirect) ++ [ip.indirect]

theorem count_blocks (d : Disk) (ip : Dinode) {b : Nat} (hb : b ≠ 0) :
    (ip.blocks d).count b = refs d ip b := by
  rw [Dinode.blocks, List.count_append, Dinode.direct, count_ofFn, refs, dataRefs]
  split
  · next hz => simp [hz, hb.symm]
  · rw [List.count_append, entries, count_ofFn, List.count_singleton, beq_eq_decide]
    simp only [decide_eq_true_eq]
    omega

/-- Freeing a list in two parts. -/
theorem freeAll_append (bs cs : List Nat) (d : Disk) :
    freeAll sb (bs ++ cs) d = (freeAll sb bs d).bind (freeAll sb cs) := by
  induction bs generalizing d with
  | nil => rfl
  | cons b bs ih =>
    simp only [List.cons_append, freeAll]
    split
    · cases bfree sb b d with
      | error e => rfl
      | ok d₁ => exact ih d₁
    · exact ih d

/-- The fields of an inode after `itrunc`. -/
def Dinode.truncated (ip : Dinode) : Dinode := { ip with addrs := fun _ ↦ 0, size := 0 }

/-- `itrunc` frees the blocks of the inode in one pass. -/
theorem itrunc_eq {ip : Dinode} {bs : List Nat} (hbs : ip.blocks d = bs)
    (hind : ∀ d₁, freeAll sb ip.direct d = .ok d₁ → ip.indirect ≠ 0 →
      d₁ ip.indirect = d ip.indirect) :
    itrunc sb i ip d =
      (freeAll sb bs d).bind (fun d ↦ .ok (ip.truncated, iupdate sb i ip.truncated d)) := by
  rw [← hbs, Dinode.blocks, freeAll_append, itrunc]
  cases h₁ : freeAll sb ip.direct d with
  | error e => rfl
  | ok d₁ =>
    by_cases hz : ip.indirect = 0
    · simp [hz, freeAll, Except.bind, bind, Dinode.truncated, pure, Except.pure]
    · have hsame := hind d₁ h₁ hz
      simp only [Except.bind, bind, hz, ne_eq, not_false_eq_true, if_true, if_false, hsame,
        freeAll_append]
      cases h₂ : freeAll sb (entries (d ip.indirect)) d₁ with
      | error e => rfl
      | ok d₂ =>
        simp only [freeAll, ne_eq, hz, not_false_eq_true, if_true]
        cases h₃ : bfree sb ip.indirect d₂ with
        | error e => rfl
        | ok d₃ => rfl

theorem refs_of_null {ip : Dinode} (h : ∀ k, ip.addrs k = 0) {b : Nat} (hb : b ≠ 0) :
    refs d ip b = 0 := by
  have hdirect : hits (fun k : Fin NDIRECT ↦ ip.addrs k.castSucc) b = 0 := by
    apply hits_eq_zero
    intro k
    rw [h]
    exact hb.symm
  have hind : ip.indirect = 0 := h _
  rw [refs, dataRefs, hdirect, if_pos hind, hind, if_neg hb.symm]

theorem refs_truncated (ip : Dinode) {b : Nat} (hb : b ≠ 0) : refs d ip.truncated b = 0 :=
  refs_of_null (fun _ ↦ rfl) hb

/-- An inode without blocks replaces one whose blocks were freed. -/
theorem owned_truncated {ip : Dinode} (h : Owned sb d inode 0) (hi : i < sb.ninodes)
    (ht : (inode i).type ≠ 0) (hv : ip.Valid) (hrefs : ∀ b, b ≠ 0 → liveRefs d' ip b = 0)
    (hframe : ∀ x, (∀ b, b < sb.size → x ≠ sb.bblock b) → d' x = d x)
    (hmarks : ∀ b, used sb d' b =
      if b ≠ 0 ∧ b ∈ (inode i).blocks d then false else used sb d b) :
    Owned sb d' (Function.update inode i ip) 0 := by
  have hmem {b : Nat} (hb : b ≠ 0) : b ∈ (inode i).blocks d ↔ 0 < refs d (inode i) b := by
    rw [← count_blocks d (inode i) hb, List.count_pos_iff]
  have hle {b : Nat} : refs d (inode i) b ≤ totalRefs sb d inode b := by
    have := le_totalRefs d inode hi b
    rwa [liveRefs, if_neg ht] at this
  have hdata {x : Nat} (hx : sb.IsData x) : d' x = d x :=
    hframe x (fun b hb ↦ hx.ne_bblock hb)
  refine ⟨?_, ?_, ?_⟩
  · intro b hb
    have hsum := totalRefs_update d' inode hi ip b
    rw [hrefs b hb, totalRefs_congr (fun j hj htj hne ↦ hdata (h.indirect_isData hj htj hne).1)]
      at hsum
    have hself : liveRefs d' (inode i) b = refs d (inode i) b := by
      rw [liveRefs, if_neg ht]
      exact refs_congr (fun hne ↦ hdata (h.indirect_isData hi ht hne).1) b
    have hold := h.refs b hb
    have hone := h.le_one hb
    have hle := hle (b := b)
    rw [if_neg hb] at hold ⊢
    by_cases hr : 0 < refs d (inode i) b
    · have hmark : used sb d' b = false := by
        rw [hmarks, if_pos ⟨hb, (hmem hb).mpr hr⟩]
      rw [hmark, if_neg (by simp)]
      omega
    · have hmark : used sb d' b = used sb d b := by
        rw [hmarks, if_neg (fun hn ↦ hr ((hmem hb).mp hn.2))]
      rw [hmark, ← hold]
      omega
  · intro b hb
    rw [hmarks, if_neg]
    · exact h.metadata b hb
    · rintro ⟨hne, hmem'⟩
      have hpos := (hmem hne).mp hmem'
      have := (h.isData hne (lt_of_lt_of_le hpos hle)).1.1
      omega
  · intro j
    by_cases hji : j = i
    · rw [hji, Function.update_self]
      exact hv
    · rw [Function.update_of_ne hji]
      exact h.valid j

/-- `itrunc` of an allocated inode clears the marks of its blocks and then writes it back. -/
theorem itrunc_freed (h : Owned sb d (dinode sb d) 0) (hi : i < sb.ninodes)
    (ht : (dinode sb d i).type ≠ 0) :
    ∃ d₁, itrunc sb i (dinode sb d i) d =
        .ok ((dinode sb d i).truncated, iupdate sb i (dinode sb d i).truncated d₁) ∧
      (∀ x, (∀ b, b < sb.size → x ≠ sb.bblock b) → d₁ x = d x) ∧
      ∀ b, used sb d₁ b =
        if b ≠ 0 ∧ b ∈ (dinode sb d i).blocks d then false else used sb d b := by
  have hle {b : Nat} : refs d (dinode sb d i) b ≤ totalRefs sb d (dinode sb d) b := by
    have := le_totalRefs d (dinode sb d) hi b
    rwa [liveRefs, if_neg ht] at this
  have hcount (b : Nat) (hb : b ≠ 0) : ((dinode sb d i).blocks d).count b ≤ 1 := by
    rw [count_blocks d _ hb]
    exact le_trans hle (h.le_one hb)
  have hused (b : Nat) (hmem : b ∈ (dinode sb d i).blocks d) (hb : b ≠ 0) :
      b < sb.size ∧ used sb d b = true := by
    have hpos : 0 < refs d (dinode sb d i) b := by
      rw [← count_blocks d _ hb]
      exact List.count_pos_iff.mpr hmem
    obtain ⟨hdata, hu⟩ := h.isData hb (lt_of_lt_of_le hpos hle)
    exact ⟨hdata.2, hu⟩
  obtain ⟨d₁, hd₁, hframe, hmarks⟩ := freeAll_ok hcount hused
  have hind : ∀ d₀, freeAll sb (dinode sb d i).direct d = .ok d₀ → (dinode sb d i).indirect ≠ 0 →
      d₀ (dinode sb d i).indirect = d (dinode sb d i).indirect := by
    -- the first loop leaves the indirect block alone
    intro d₀ hd₀ hne
    have hdata := (h.indirect_isData hi ht hne).1
    have hdirect (b : Nat) (hb : b ≠ 0) : (dinode sb d i).direct.count b ≤ 1 :=
      le_trans (List.Sublist.count_le b (List.sublist_append_left _ _)) (hcount b hb)
    obtain ⟨d₂, hd₂, hframe₂, -⟩ :=
      freeAll_ok hdirect (fun b hb ↦ hused b (List.mem_append_left _ hb))
    rw [hd₂, Except.ok.injEq] at hd₀
    rw [← hd₀]
    exact hframe₂ _ (fun b hb ↦ hdata.ne_bblock hb)
  have heq := itrunc_eq (i := i) rfl hind
  rw [hd₁] at heq
  exact ⟨d₁, heq, hframe, hmarks⟩

theorem truncated_valid {ip : Dinode} (hv : ip.Valid) : ip.truncated.Valid :=
  { hv with size := by simp [Dinode.truncated]
            addrs := fun _ ↦ by simp [Dinode.truncated] }

/-- `itrunc` frees all blocks of an allocated inode, without a panic. -/
theorem itrunc_ok (h : Owned sb d (dinode sb d) 0) (hf : Filled sb d (dinode sb d))
    (hi : i < sb.ninodes) (ht : (dinode sb d i).type ≠ 0) :
    ∃ d', itrunc sb i (dinode sb d i) d = .ok ((dinode sb d i).truncated, d') ∧
      Owned sb d' (dinode sb d') 0 ∧ Filled sb d' (dinode sb d') ∧
      dinode sb d' i = (dinode sb d i).truncated := by
  obtain ⟨d₁, heq, hframe, hmarks⟩ := itrunc_freed h hi ht
  have hv := truncated_valid (dinode_valid sb d i)
  have hinode (j : Nat) (hj : j < sb.ninodes) : dinode sb d j = dinode sb d₁ j := by
    apply (dinode_congr _).symm
    exact hframe _ (fun b _ ↦ sb.iblock_ne_bblock hj b)
  have hlive (b : Nat) (hb : b ≠ 0) : liveRefs d₁ (dinode sb d i).truncated b = 0 := by
    rw [liveRefs]
    split
    · rfl
    · exact refs_truncated _ hb
  have hown := owned_truncated h hi ht hv hlive hframe hmarks
  have hfill : Filled sb d₁ (Function.update (dinode sb d) i (dinode sb d i).truncated) := by
    intro j hj htj k hk
    by_cases hji : j = i
    · rw [hji, Function.update_self] at hk
      exact (Nat.not_lt_zero _ hk).elim
    · rw [Function.update_of_ne hji] at htj hk ⊢
      rw [lookup_congr (fun hne ↦ hframe _ (fun b hb ↦
        (h.indirect_isData hj htj hne).1.ne_bblock hb))]
      exact hf j hj htj k hk
  obtain ⟨hown', hfill'⟩ := owned_iupdate hi hown hfill hinode
  refine ⟨_, heq, hown', hfill', ?_⟩
  rw [dinode_iupdate hv, if_pos rfl]

/-- An inode without blocks replaces another one on the disk. -/
theorem owned_replace {ip : Dinode} (h : Owned sb d (dinode sb d) 0)
    (hf : Filled sb d (dinode sb d)) (hi : i < sb.ninodes) (hv : ip.Valid)
    (hold : ∀ b, b ≠ 0 → liveRefs d (dinode sb d i) b = 0) (hnew : ∀ b, b ≠ 0 → liveRefs d ip b = 0)
    (hsize : ip.size = 0) :
    Owned sb (iupdate sb i ip d) (dinode sb (iupdate sb i ip d)) 0 ∧
      Filled sb (iupdate sb i ip d) (dinode sb (iupdate sb i ip d)) := by
  refine owned_iupdate hi ⟨?_, h.metadata, ?_⟩ ?_ (fun _ _ ↦ rfl)
  · intro b hb
    have hsum := totalRefs_update d (dinode sb d) hi ip b
    rw [hnew b hb, hold b hb] at hsum
    rw [← h.refs b hb]
    omega
  · intro j
    by_cases hji : j = i
    · rw [hji, Function.update_self]
      exact hv
    · rw [Function.update_of_ne hji]
      exact h.valid j
  · intro j hj htj k hk
    by_cases hji : j = i
    · rw [hji, Function.update_self, hsize] at hk
      exact (Nat.not_lt_zero _ hk).elim
    · rw [Function.update_of_ne hji] at htj hk ⊢
      exact hf j hj htj k hk

/-- The last reference to an inode is dropped. -/
theorem iput_ok (h : Owned sb d (dinode sb d) 0) (hf : Filled sb d (dinode sb d))
    (hi : i < sb.ninodes) (ht : (dinode sb d i).type ≠ 0) :
    ∃ d', iput sb i (dinode sb d i) d = .ok d' ∧
      Owned sb d' (dinode sb d') 0 ∧ Filled sb d' (dinode sb d') := by
  unfold iput
  split
  · obtain ⟨d₁, hd₁, hown, hfill, hself⟩ := itrunc_ok h hf hi ht
    rw [hd₁]
    have hv : ({ (dinode sb d i).truncated with type := 0 } : Dinode).Valid := by
      have := dinode_valid sb d₁ i
      rw [hself] at this
      exact { this with type := by simp }
    refine ⟨_, rfl, owned_replace hown hfill hi hv ?_ (fun _ _ ↦ if_pos rfl) rfl⟩
    intro b hb
    rw [hself, liveRefs]
    split
    · rfl
    · exact refs_truncated _ hb
  · exact ⟨d, rfl, h, hf⟩

/-- A new inode has no blocks. -/
theorem ialloc_ok (h : Owned sb d (dinode sb d) 0) (hf : Filled sb d (dinode sb d)) {type : Nat}
    (htype : type < 2 ^ 16) :
    Owned sb (ialloc sb type d).2 (dinode sb (ialloc sb type d).2) 0 ∧
      Filled sb (ialloc sb type d).2 (dinode sb (ialloc sb type d).2) := by
  unfold ialloc
  split
  · next i hfind =>
    obtain ⟨hlo, hhi, hfree, -⟩ := firstFrom_eq_some hfind
    have hzero : (dinode sb d i).type = 0 := by simpa using hfree
    have hv : (newDinode type).Valid := by
      constructor
      · exact htype
      all_goals simp [newDinode]
    refine owned_replace h hf (by omega) hv (fun _ _ ↦ if_pos hzero) ?_ rfl
    intro b hb
    rw [liveRefs]
    split
    · rfl
    · exact refs_of_null (fun _ ↦ rfl) hb
  · exact ⟨h, hf⟩

end Xv6.Fs
