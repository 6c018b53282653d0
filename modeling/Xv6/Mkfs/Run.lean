import Xv6.Lib.Returns
import Xv6.Mkfs.Image

/-!
# A run of the image builder

After the loop over the arguments the image holds the root directory, with an entry for every file,
and the files. The last step rounds the size of the root up and writes the free map. A run on few
files of little content reaches its end.
-/

namespace Xv6.Mkfs

open Xv6.Lib Xv6.Fs Xv6.Dir

/-- The entries of the root directory. -/
def rootEntries (files : List HostFile) : List (List UInt8) :=
  dirent 1 [46] :: dirent 1 [46, 46] :: files.mapIdx (fun k f ↦ dirent (k + 2) f.name)

/-- The files of the image: the root directory and copies of the given ones. -/
def images (files : List HostFile) : List FileImage :=
  ⟨T_DIR, (rootEntries files).flatten⟩ :: files.map (fun f ↦ ⟨T_FILE, f.bytes⟩)

variable {st st' : State} {cs : List FileImage}

/-! ### Formatting -/

theorem zeroed_eq {n : Nat} (h : n ≤ 2 ^ 22) :
    (List.range n).foldl (fun st i ↦ wsect i zeroBlock st) created =
      ⟨n, fun _ ↦ zeroBlock, 1, nmeta⟩ := by
  induction n with
  | zero => rfl
  | succ n ih =>
    rw [List.range_succ, List.foldl_append, ih (by omega), List.foldl_cons, List.foldl_nil, wsect,
      position_eq (by omega)]
    dsimp only
    rw [Nat.max_eq_right (Nat.le_succ n), Function.update_eq_self_iff.mpr rfl]

theorem formatted_eq :
    formatted = ⟨FSSIZE, Function.update (fun _ ↦ zeroBlock) 1 superblock.store, 1, nmeta⟩ := by
  rw [formatted, zeroed_eq (by decide), wsect, position_eq (by decide)]
  rfl

/-- The formatted image holds no files. -/
theorem holds_formatted : Holds formatted [] := by
  have hsect : formatted.sect = Function.update (fun _ ↦ zeroBlock) 1 superblock.store := by
    rw [formatted_eq]
  have hfree (i : Nat) (hi : i < 200) : (dinode sb (marked formatted) i).type = 0 := by
    have hb := iblock_bounds hi
    have hzero : marked formatted (sb.iblock i) = zeroBlock := by
      rw [marked_of_ne (by omega), hsect, Function.update_of_ne (by omega)]
    rw [dinode, hzero]
    simp [getDinode, readLE, zeroBlock]
  have hnone (b : Nat) : totalRefs sb (marked formatted) (dinode sb (marked formatted)) b = 0 := by
    apply Finset.sum_eq_zero
    intro i _
    rw [liveRefs, if_pos (hfree i (lt_of_lt_of_eq i.isLt sb_ninodes))]
  have hblock : formatted.freeblock = 46 := by
    rw [formatted_eq]
    exact nmeta_eq
  have hused {b : Nat} (hb : b < 2000) : used sb (marked formatted) b = decide (b < 46) := by
    rw [used_marked (by omega), hblock]
  refine ⟨⟨?_, by omega, ?_, ?_, ?_⟩, ⟨?_, ?_, ?_, ?_, ?_⟩, ?_, by decide, ?_, ?_, ?_,
    fun i hi _ ↦ hfree i hi⟩
  · rw [formatted_eq]
  · rw [hblock]
    decide
  · rw [hsect, Function.update_self]
  · intro b hge _
    rw [hblock] at hge
    rw [hsect, Function.update_of_ne (by omega)]
  · intro b _ hpos
    rw [hnone] at hpos
    omega
  · intro b _
    rw [hnone]
    omega
  · intro b hb
    rw [sb_nmeta] at hb
    rw [hused (by omega)]
    exact decide_eq_true hb
  · intro b hdata hmark
    obtain ⟨hlo, hhi⟩ := isData_iff.mp hdata
    rw [hused hhi] at hmark
    exact absurd (of_decide_eq_true hmark) (by omega)
  · intro i hi htype
    rw [sb_ninodes] at hi
    exact absurd (hfree i hi) htype
  · rw [formatted_eq]
    rfl
  · intro c hc
    cases hc
  · intro i hi
    cases hi
  · intro i hi
    cases hi

/-! ### The loops -/

theorem appendAt_nil (cs : List FileImage) (i : Nat) : appendAt cs i [] = cs := by
  apply List.ext_getElem (length_appendAt cs i [])
  intro j hj hj'
  rw [getElem_appendAt hj hj', List.append_nil, ite_self]

theorem appendAt_appendAt (cs : List FileImage) (i : Nat) (xs ys : List UInt8) :
    appendAt (appendAt cs i xs) i ys = appendAt cs i (xs ++ ys) := by
  apply List.ext_getElem
  · rw [length_appendAt, length_appendAt, length_appendAt]
  · intro j hj hj'
    have hlt : j < cs.length := by rwa [length_appendAt] at hj'
    have hlt' : j < (appendAt cs i xs).length := by rwa [length_appendAt]
    rw [getElem_appendAt hj hlt', getElem_appendAt hj' hlt, getElem_appendAt hlt' hlt]
    split
    · rw [List.append_assoc]
    · rfl

theorem touched_le {off n : Nat} (h : n ≤ BSIZE) : touched off n ≤ 2 := by
  simp only [touched, BSIZE] at h ⊢
  split <;> omega

theorem length_dirent (inum : Nat) (name : List UInt8) : (dirent inum name).length = DESIZE := by
  rw [dirent, makeDirent, List.length_cons, List.length_cons, length_strncpyFrom]
  rfl

/-- The loop that copies a file. -/
theorem copyLoop_cases (h : Holds st cs) {i : Nat} (hi : i < cs.length) (chunks : List Chunk) :
    (∃ st', copyLoop (i + 1) chunks st = .ok st' ∧
      Holds st' (appendAt cs i (chunks.map Subtype.val).flatten) ∧
      st'.freeblock ≤ st.freeblock + 4 * chunks.length) ∨
    (∃ e, copyLoop (i + 1) chunks st = .error e) ∧
      (MAXFILE * BSIZE < cs[i].bytes.length + (chunks.map Subtype.val).flatten.length ∨
        FSSIZE < st.freeblock + 4 * chunks.length) := by
  induction chunks generalizing st cs with
  | nil =>
    refine Or.inl ⟨st, rfl, ?_, le_refl _⟩
    rw [List.map_nil, List.flatten_nil, appendAt_nil]
    exact h
  | cons c chunks ih =>
    have htouched : touched cs[i].bytes.length c.val.length ≤ 2 := touched_le c.property.2
    rw [List.map_cons, List.flatten_cons, List.length_cons, List.length_append, copyLoop]
    rcases h.iappend hi c.val with ⟨st₁, h₁, hh₁, hf₁⟩ | ⟨⟨e, he⟩, hwhy⟩
    · have hi₁ : i < (appendAt cs i c.val).length := by rwa [length_appendAt]
      have hbytes : (appendAt cs i c.val)[i].bytes.length = cs[i].bytes.length + c.val.length := by
        rw [getElem_appendAt hi₁ hi, if_pos rfl, List.length_append]
      rw [h₁]
      rcases ih hh₁ hi₁ with ⟨st', hst', hh, hf⟩ | ⟨⟨e, he⟩, hwhy⟩
      · refine Or.inl ⟨st', hst', ?_, by omega⟩
        rw [← appendAt_appendAt]
        exact hh
      · rw [hbytes] at hwhy
        exact Or.inr ⟨⟨e, he⟩, by omega⟩
    · refine Or.inr ⟨⟨e, by rw [he]; rfl⟩, ?_⟩
      omega

/-- A file that can be copied. -/
structure FileOk (f : HostFile) : Prop where
  noSlash : slash ∉ shortname f.arg
  opens : f.reads.isSome
  fits : f.bytes.length ≤ MAXFILE * BSIZE

/-- The calls of `iappend` for a file. -/
def appends (f : HostFile) : Nat := 1 + (f.reads.getD []).length

theorem images_append (files : List HostFile) (f : HostFile) :
    images (files ++ [f]) = appendAt (appendAt (images files ++ [⟨T_FILE, []⟩]) 0
      (dirent (files.length + 2) f.name)) (files.length + 1) f.bytes := by
  apply List.ext_getElem
  · simp [images, length_appendAt]
  · intro j hj hj'
    have hlen : (images files ++ [(⟨T_FILE, []⟩ : FileImage)]).length =
        files.length + 2 := by simp [images]
    have hj₂ : j < files.length + 2 := by
      rw [length_appendAt, length_appendAt, hlen] at hj'
      exact hj'
    rw [getElem_appendAt hj' (by rw [length_appendAt, hlen]; exact hj₂),
      getElem_appendAt (by rw [length_appendAt, hlen]; exact hj₂) (by rw [hlen]; exact hj₂)]
    cases j with
    | zero => simp [images, rootEntries, List.mapIdx_append]
    | succ j =>
      by_cases hlast : files.length = j
      · subst hlast
        simp [images]
      · have hlt : j < files.length := by omega
        simp [images, hlast, hlt, List.getElem_append_left]

theorem length_rootEntries (files : List HostFile) :
    (rootEntries files).length = files.length + 2 := by
  simp [rootEntries]

theorem length_of_mem_rootEntries {files : List HostFile} {e : List UInt8}
    (h : e ∈ rootEntries files) :
    e.length = DESIZE := by
  rw [rootEntries, List.mem_cons, List.mem_cons, List.mem_mapIdx] at h
  rcases h with rfl | rfl | ⟨k, hk, rfl⟩
  all_goals exact length_dirent _ _

theorem length_flatten_of_length {es : List (List UInt8)} {n : Nat} (h : ∀ e ∈ es, e.length = n) :
    es.flatten.length = n * es.length := by
  induction es with
  | nil => rfl
  | cons e es ih =>
    rw [List.flatten_cons, List.length_append, h e List.mem_cons_self,
      ih (fun e' he ↦ h e' (List.mem_cons_of_mem e he)), List.length_cons, Nat.mul_succ,
      Nat.add_comm]

theorem length_root (files : List HostFile) :
    (rootEntries files).flatten.length = DESIZE * (files.length + 2) := by
  rw [length_flatten_of_length (fun e he ↦ length_of_mem_rootEntries he), length_rootEntries]

/-- One iteration of the loop over the arguments. -/
theorem addFile_cases {done : List HostFile} (h : Holds st (images done))
    (hroom : done.length + 2 < 200) (f : HostFile) :
    (∃ st', addFile f st = .ok st' ∧ Holds st' (images (done ++ [f])) ∧
      st'.freeblock ≤ st.freeblock + 4 * appends f) ∨
    (∃ e, addFile f st = .error e) ∧ (¬ FileOk f ∨ FSSIZE < st.freeblock + 4 * appends f) := by
  have hlen : (images done).length = done.length + 1 := by simp [images]
  unfold addFile appends
  by_cases hslash : slash ∈ shortname f.arg
  · rw [if_pos hslash]
    exact Or.inr ⟨⟨_, rfl⟩, Or.inl (fun hok ↦ hok.noSlash hslash)⟩
  rw [if_neg hslash]
  cases hreads : f.reads with
  | none =>
    refine Or.inr ⟨⟨_, rfl⟩, Or.inl ?_⟩
    intro hok
    have := hok.opens
    rw [hreads] at this
    cases this
  | some chunks =>
    have hbytes : f.bytes = (chunks.map Subtype.val).flatten := by
      rw [HostFile.bytes, hreads]
      rfl
    obtain ⟨st₁, h₁, hh₁, hf₁⟩ := h.ialloc (by omega) (show T_FILE ≠ 0 by decide) (by decide)
    rw [hlen] at h₁
    simp only [bind, Except.bind, h₁, Option.getD_some]
    have hi₁ : 0 < (images done ++ [(⟨T_FILE, []⟩ : FileImage)]).length := by simp [images]
    have hroot : (images done ++ [(⟨T_FILE, []⟩ : FileImage)])[0].bytes.length =
        DESIZE * (done.length + 2) := length_root done
    have hentry := length_dirent (done.length + 2) f.name
    have htouched : touched (images done ++ [(⟨T_FILE, []⟩ : FileImage)])[0].bytes.length
        (dirent (done.length + 2) f.name).length ≤ 2 := touched_le (by rw [hentry]; decide)
    rcases hh₁.iappend hi₁ (dirent (done.length + 2) f.name) with
      ⟨st₂, h₂, hh₂, hf₂⟩ | ⟨⟨e, he⟩, hwhy⟩
    · have hi₂ : done.length + 1 < (appendAt (images done ++ [⟨T_FILE, []⟩]) 0
          (dirent (done.length + 2) f.name)).length := by simp [length_appendAt, images]
      have hempty : (appendAt (images done ++ [⟨T_FILE, []⟩]) 0
          (dirent (done.length + 2) f.name))[done.length + 1].bytes.length = 0 := by
        rw [getElem_appendAt hi₂ (by simp [images]), if_neg (by omega)]
        simp [images]
      rw [show ROOTINO = 0 + 1 from rfl, h₂]
      dsimp only
      rcases copyLoop_cases hh₂ hi₂ chunks with ⟨st', hst', hh, hf⟩ | ⟨⟨e, he⟩, hwhy⟩
      · refine Or.inl ⟨st', hst', ?_, by omega⟩
        rw [images_append, hbytes]
        exact hh
      · refine Or.inr ⟨⟨e, he⟩, ?_⟩
        rcases hwhy with hbig | hfull
        · refine Or.inl (fun hok ↦ ?_)
          have := hok.fits
          rw [hbytes] at this
          omega
        · exact Or.inr (by omega)
    · refine Or.inr ⟨⟨e, by rw [show ROOTINO = 0 + 1 from rfl, he]⟩, ?_⟩
      rcases hwhy with hbig | hfull
      · -- the root has room for the entries of all inodes
        rw [hroot, hentry] at hbig
        simp only [MAXFILE, NDIRECT, NINDIRECT, BSIZE, DESIZE] at hbig
        omega
      · exact Or.inr (by omega)

/-- The loop over the arguments. -/
theorem addFiles_cases {done : List HostFile} (h : Holds st (images done)) (files : List HostFile)
    (hroom : done.length + files.length + 2 ≤ 200) :
    (∃ st', addFiles files st = .ok st' ∧ Holds st' (images (done ++ files)) ∧
      st'.freeblock ≤ st.freeblock + 4 * (files.map appends).sum) ∨
    (∃ e, addFiles files st = .error e) ∧
      ((∃ f ∈ files, ¬ FileOk f) ∨ FSSIZE < st.freeblock + 4 * (files.map appends).sum) := by
  induction files generalizing st done with
  | nil =>
    refine Or.inl ⟨st, rfl, ?_, le_refl _⟩
    rw [List.append_nil]
    exact h
  | cons f files ih =>
    rw [List.length_cons] at hroom
    rw [addFiles, List.map_cons, List.sum_cons]
    rcases addFile_cases h (by omega) f with ⟨st₁, h₁, hh₁, hf₁⟩ | ⟨⟨e, he⟩, hwhy⟩
    · rw [h₁]
      rcases ih hh₁ (by rw [List.length_append, List.length_singleton]; omega) with
        ⟨st', hst', hh, hf⟩ | ⟨⟨e, he⟩, hwhy⟩
      · refine Or.inl ⟨st', hst', ?_, by omega⟩
        rw [List.append_assoc] at hh
        exact hh
      · refine Or.inr ⟨⟨e, he⟩, ?_⟩
        rcases hwhy with ⟨g, hg, hbad⟩ | hfull
        · exact Or.inl ⟨g, List.mem_cons_of_mem f hg, hbad⟩
        · exact Or.inr (by omega)
    · refine Or.inr ⟨⟨e, by rw [he]; rfl⟩, ?_⟩
      rcases hwhy with hbad | hfull
      · exact Or.inl ⟨f, List.mem_cons_self, hbad⟩
      · exact Or.inr (by omega)

theorem images_nil : images [] =
    appendAt ([] ++ [⟨T_DIR, []⟩]) 0 (dirent 1 [46] ++ dirent 1 [46, 46]) := by
  simp [images, rootEntries, appendAt]

theorem makeRoot_eq {st₀ st₁ st₂ st₃ : State} (h₁ : ialloc T_DIR st₀ = .ok (1, st₁))
    (h₂ : iappend 1 (dirent 1 [46]) st₁ = .ok st₂)
    (h₃ : iappend 1 (dirent 1 [46, 46]) st₂ = .ok st₃) :
    makeRoot st₀ = .ok st₃ := by
  have hroot : ¬ ¬ 1 = ROOTINO := not_not.mpr rfl
  simp only [makeRoot, bind, Except.bind, h₁, if_neg hroot, h₂, h₃]

/-- The root directory is made. -/
theorem makeRoot_ok :
    ∃ st, makeRoot formatted = .ok st ∧ Holds st (images []) ∧ st.freeblock ≤ 54 := by
  obtain ⟨st₁, h₁, hh₁, hf₁⟩ :=
    holds_formatted.ialloc (by decide) (show T_DIR ≠ 0 by decide) (by decide)
  have hstart : formatted.freeblock = 46 := by
    rw [formatted_eq]
    exact nmeta_eq
  have hentry (name : List UInt8) : (dirent 1 name).length = 16 := length_dirent 1 name
  have htouched (off : Nat) (name : List UInt8) : touched off (dirent 1 name).length ≤ 2 :=
    touched_le (by rw [hentry]; decide)
  have hmax : MAXFILE * BSIZE = 274432 := by norm_num [MAXFILE, NDIRECT, NINDIRECT, BSIZE]
  have hfs : FSSIZE = 2000 := rfl
  have hempty : ([] ++ [(⟨T_DIR, []⟩ : FileImage)])[0].bytes.length = 0 := rfl
  have hroot₁ := htouched 0 [46]
  have hroot₂ := htouched 16 [46, 46]
  have hlen₁ := hentry [46]
  have hlen₂ := hentry [46, 46]
  rcases hh₁.iappend (show 0 < 1 by decide) (dirent 1 [46]) with ⟨st₂, h₂, hh₂, hf₂⟩ | ⟨-, hwhy⟩
  · rw [hempty] at hf₂
    have hone : 0 < (appendAt ([] ++ [⟨T_DIR, []⟩]) 0 (dirent 1 [46])).length := by
      rw [length_appendAt]
      exact Nat.one_pos
    have hbytes : (appendAt ([] ++ [⟨T_DIR, []⟩]) 0 (dirent 1 [46]))[0].bytes.length = 16 := by
      rw [getElem_appendAt hone Nat.one_pos, if_pos rfl, List.length_append, hempty, hlen₁]
    rcases hh₂.iappend hone (dirent 1 [46, 46]) with ⟨st₃, h₃, hh₃, hf₃⟩ | ⟨-, hwhy⟩
    · rw [hbytes] at hf₃
      refine ⟨st₃, ?_, ?_, by omega⟩
      · rw [List.length_nil, Nat.zero_add] at h₁
        rw [Nat.zero_add] at h₂ h₃
        exact makeRoot_eq h₁ h₂ h₃
      · rw [images_nil, ← appendAt_appendAt]
        exact hh₃
    · rw [hbytes, hlen₂] at hwhy
      rw [hlen₂] at hroot₂
      omega
  · rw [hempty, hlen₁] at hwhy
    rw [hlen₁] at hroot₁
    omega

/-! ### The end -/

/-- The image `st` is what `finish` makes of `pre`, which holds the files. -/
structure Finished (files : List HostFile) (pre st : State) : Prop where
  holds : Holds pre (images files)
  inum : st.freeinode = files.length + 2
  block : st.freeblock = pre.freeblock
  sect : st.sect = iupdate sb 1
    { dinode sb (marked pre) 1 with size := roundUp (DESIZE * (files.length + 2)) } (marked pre)

theorem finish_ok {files : List HostFile} (h : Holds st (images files)) :
    ∃ st', finish st = .ok st' ∧ Finished files st st' := by
  have hcount := h.count
  have hroom := h.room
  rw [images, List.length_cons, List.length_map] at hcount hroom
  have hsize : (dinode sb (marked st) 1).size = DESIZE * (files.length + 2) :=
    (size_le_max h (i := 0) (Nat.succ_pos _)).1.trans (length_root files)
  have hx₁ : xint (DESIZE * (files.length + 2)) = DESIZE * (files.length + 2) :=
    xint_eq (by simp only [DESIZE]; omega)
  have hx₂ : xint (roundUp (DESIZE * (files.length + 2))) = roundUp (DESIZE * (files.length + 2)) :=
    xint_eq (by simp only [roundUp, DESIZE, BSIZE]; omega)
  obtain ⟨st₁, h₁, hlaid, hino, hblk, hmarked⟩ := h.laid.winode (show 1 < 200 by decide)
    { dinode sb (marked st) 1 with size := roundUp (DESIZE * (files.length + 2)) }
  have hfb := hlaid.hi
  have hbits : st₁.freeblock < BSIZE * 8 := lt_of_le_of_lt hfb (by decide)
  refine ⟨wsect sb.bmapstart (firstBits st₁.freeblock) st₁, ?_, h, ?_, hblk, ?_⟩
  · rw [finish, show ROOTINO = 1 from rfl, h.laid.rinode (by decide)]
    simp only [bind, Except.bind, hsize, hx₁, hx₂, h₁, balloc]
    rw [if_pos hbits]
  · change st₁.freeinode = _
    rw [hino, hcount]
  · rw [← hmarked, wsect, position_eq (by rw [sb_bmapstart]; decide)]
    rfl

/-- A run for which there are inode numbers reaches its end, or there is a reason why not. -/
theorem main_cases {files : List HostFile} (hn : files.length ≤ 198) :
    (∃ pre st, main files = .ok st ∧ Finished files pre st) ∨
    (∃ e, main files = .error e) ∧
      ((∃ f ∈ files, ¬ FileOk f) ∨ FSSIZE < 54 + 4 * (files.map appends).sum) := by
  obtain ⟨st₁, h₁, hh₁, hf₁⟩ := makeRoot_ok
  rw [main, h₁]
  rcases addFiles_cases hh₁ files (by rw [List.length_nil]; omega) with
    ⟨st₂, h₂, hh₂, hf₂⟩ | ⟨⟨e, he⟩, hwhy⟩
  · obtain ⟨st, hst, hfin⟩ := finish_ok hh₂
    refine Or.inl ⟨st₂, st, ?_, hfin⟩
    simp only [bind, Except.bind, h₂, hst]
  · refine Or.inr ⟨⟨e, by simp only [bind, Except.bind, he]⟩, ?_⟩
    rcases hwhy with hbad | hfull
    · exact Or.inl hbad
    · exact Or.inr (by omega)

/-- Few files with little content are copied. -/
theorem main_ok {files : List HostFile} (hn : files.length ≤ 198) (hok : ∀ f ∈ files, FileOk f)
    (hroom : 54 + 4 * (files.map appends).sum ≤ FSSIZE) : ∃ st, main files = .ok st := by
  rcases main_cases hn with ⟨pre, st, hst, -⟩ | ⟨-, ⟨f, hf, hbad⟩ | hfull⟩
  · exact ⟨st, hst⟩
  · exact absurd (hok f hf) hbad
  · omega

theorem finished_of_main {files : List HostFile} (hn : files.length ≤ 198)
    (h : main files = .ok st) :
    ∃ pre, Finished files pre st := by
  rcases main_cases hn with ⟨pre, st', hst', hfin⟩ | ⟨⟨e, he⟩, -⟩
  · rw [h] at hst'
    cases hst'
    exact ⟨pre, hfin⟩
  · rw [h] at he
    cases he

/-! ### Inode numbers -/

/-- The run goes on with `n` inode numbers more. -/
def Numbered (n : Nat) (st : State) (x : Except Failure State) : Prop :=
  Ends (fun _ ↦ True) x (fun st' ↦ st'.freeinode = st.freeinode + n)

theorem winode_numbered (inum : Nat) (ip : Dinode) (st : State) :
    Numbered 0 st (winode inum ip st) :=
  Ends.bind (Ends.trivial _) (fun _ _ ↦ rfl)

theorem iappendEntry_numbered (ind j : Nat) (st : State) :
    Ends (fun _ ↦ True) (iappendEntry ind j st) (fun r ↦ r.2.freeinode = st.freeinode) := by
  unfold iappendEntry
  apply Ends.bind (Ends.trivial _)
  intro blk _
  split
  · exact rfl
  · exact rfl

theorem iappendBlock_numbered (din : Dinode) (fbn : Nat) (st : State) :
    Ends (fun _ ↦ True) (iappendBlock din fbn st) (fun r ↦ r.2.2.freeinode = st.freeinode) := by
  unfold iappendBlock
  split
  · simp only [Ends, iappendDirect]
    split <;> rfl
  · have hind : (iappendIndirect din st).2.freeinode = st.freeinode := by
      unfold iappendIndirect
      split <;> rfl
    apply Ends.bind (iappendEntry_numbered _ _ _)
    intro r hr
    exact hr.trans hind

theorem iappendLoop_numbered (fuel : Nat) (p : List UInt8) (off : Nat) (din : Dinode) (st : State) :
    Ends (fun _ ↦ True) (iappendLoop fuel p off din st)
      (fun r ↦ r.2.2.freeinode = st.freeinode) := by
  induction fuel generalizing p off din st with
  | zero => exact rfl
  | succ fuel ih =>
    rw [iappendLoop]
    split
    · dsimp only
      split
      · exact True.intro
      · apply Ends.bind (iappendBlock_numbered din (off / BSIZE) st)
        intro r hr
        apply Ends.bind (Ends.trivial _)
        intro buf _
        apply Ends.mono (ih _ _ _ _)
        intro r' hr'
        exact hr'.trans hr
    · exact rfl

theorem iappend_numbered (inum : Nat) (p : List UInt8) (st : State) :
    Numbered 0 st (iappend inum p st) := by
  apply Ends.bind (Ends.trivial _)
  intro din _
  apply Ends.bind (iappendLoop_numbered _ _ _ _ _)
  intro r hr
  apply Ends.mono (winode_numbered _ _ _)
  intro st' hst'
  exact hst'.trans hr

theorem copyLoop_numbered (inum : Nat) (chunks : List Chunk) (st : State) :
    Numbered 0 st (copyLoop inum chunks st) := by
  induction chunks generalizing st with
  | nil => exact rfl
  | cons c chunks ih =>
    apply Ends.bind (iappend_numbered inum c.val st)
    intro st₁ h₁
    apply Ends.mono (ih st₁)
    intro st' hst'
    exact hst'.trans h₁

theorem addFile_numbered (f : HostFile) (st : State) : Numbered 1 st (addFile f st) := by
  unfold addFile
  by_cases hslash : slash ∈ shortname f.arg
  · rw [if_pos hslash]
    exact True.intro
  · rw [if_neg hslash]
    cases f.reads with
    | none => exact True.intro
    | some chunks =>
      apply Ends.bind (P := fun r : Nat × State ↦ r.2.freeinode = st.freeinode + 1)
      · exact Ends.bind (winode_numbered _ _ _) (fun st₁ h₁ ↦ h₁)
      · intro r hr
        apply Ends.bind (iappend_numbered _ _ r.2)
        intro st₂ h₂
        apply Ends.mono (copyLoop_numbered _ _ st₂)
        intro st' hst'
        exact (hst'.trans h₂).trans hr

theorem addFiles_numbered (files : List HostFile) (st : State) :
    Numbered files.length st (addFiles files st) := by
  induction files generalizing st with
  | nil => exact rfl
  | cons f files ih =>
    apply Ends.bind (addFile_numbered f st)
    intro st₁ h₁
    apply Ends.mono (ih st₁)
    intro st' hst'
    rw [hst', h₁, List.length_cons]
    omega

theorem finish_numbered (st : State) : Numbered 0 st (finish st) := by
  apply Ends.bind (Ends.trivial _)
  intro din _
  apply Ends.bind (winode_numbered _ _ _)
  intro st₁ h₁
  unfold balloc
  split
  · exact h₁
  · exact True.intro

theorem rest_numbered (files : List HostFile) (st : State) :
    Numbered files.length st (addFiles files st >>= finish) := by
  apply Ends.bind (addFiles_numbered files st)
  intro st₁ h₁
  apply Ends.mono (finish_numbered st₁)
  intro st' hst'
  exact hst'.trans h₁

/-- Every file takes an inode number, and the root takes one. -/
theorem freeinode_of_main {files : List HostFile} (h : main files = .ok st) :
    st.freeinode = files.length + 2 := by
  obtain ⟨st₁, h₁, hh₁, -⟩ := makeRoot_ok
  have hcount : st₁.freeinode = 2 := hh₁.count
  have hrest := rest_numbered files st₁
  rw [main, h₁] at h
  have hrun : (addFiles files st₁ >>= finish) = .ok st := h
  rw [hrun] at hrest
  have hfree : st.freeinode = st₁.freeinode + files.length := hrest
  rw [hfree, hcount, Nat.add_comm]

end Xv6.Mkfs
