import Xv6.Dir.Path
import Xv6.Mkfs.WellFormed

/-!
# `mkfs` and the kernel agree on the format

The kernel finds every file of an image under its name, and reads from it the bytes that `mkfs` was
given. The entries are found before the lookup comes to the block that a full root directory lacks.
-/

namespace Xv6.Mkfs

open Xv6.Lib Xv6.Fs Xv6.Dir

/-! ### Entries -/

/-- The entries of a directory that was put together entry by entry. -/
theorem slot_flatten {es : List (List UInt8)} (h : ∀ e ∈ es, e.length = DESIZE) {j : Nat}
    (hj : j < es.length) : slot es.flatten j = es[j] := by
  induction es generalizing j with
  | nil => cases hj
  | cons e es ih =>
    have he := h e List.mem_cons_self
    cases j with
    | zero =>
      rw [slot, List.flatten_cons, Nat.mul_zero, List.drop_zero, List.take_left' he]
      rfl
    | succ j =>
      have hdrop : (e ++ es.flatten).drop (DESIZE * (j + 1)) = es.flatten.drop (DESIZE * j) := by
        rw [Nat.mul_succ, Nat.add_comm, ← List.drop_drop, List.drop_left' he]
      rw [slot, List.flatten_cons, hdrop]
      exact ih (fun e' he' ↦ h e' (List.mem_cons_of_mem e he')) (by simpa using hj)

theorem key_cstring {name : List UInt8} (h : ∀ x ∈ name, x ≠ 0) :
    key (cstring name) = name.take DIRSIZ := by
  apply keyFrom_of_bytes
  · intro x hx
    exact h x (List.mem_of_mem_take hx)
  · intro j hj
    rw [List.length_take] at hj
    rw [Nat.zero_add, cstring, List.getElem_take, List.getD_eq_getElem?_getD,
      List.getElem?_eq_getElem (by omega)]
    rfl
  · rw [List.length_take]
    exact Nat.min_le_left _ _
  · intro hlt
    rw [List.length_take] at hlt ⊢
    rw [Nat.zero_add, cstring, List.getD_eq_getElem?_getD, List.getElem?_eq_none (by omega)]
    rfl

theorem name_noNul (f : HostFile) : ∀ x ∈ f.name, x ≠ 0 := by
  intro x hx
  apply f.noNul
  have hshort : x ∈ shortname f.arg := by
    unfold HostFile.name skipUnderscore at hx
    split at hx
    · exact List.mem_of_mem_tail hx
    · exact hx
  unfold shortname at hshort
  split at hshort
  · exact List.mem_of_mem_drop hshort
  · exact hshort

/-- The keys of the root directory. -/
def rootKeys (files : List HostFile) : List (List UInt8) :=
  [46] :: [46, 46] :: files.map (fun f ↦ f.name.take DIRSIZ)

/-- The inode number in entry `j`. -/
def rootInum (j : Nat) : Nat := if j < 2 then 1 else j

theorem length_rootKeys (files : List HostFile) : (rootKeys files).length = files.length + 2 := by
  simp [rootKeys]

/-- What entry `j` of the root directory binds. -/
theorem root_slot {files : List HostFile} (hn : files.length ≤ 198) {j : Nat}
    (hj : j < (rootKeys files).length) :
    slotInum (rootEntries files).flatten j = rootInum j ∧
      slotKey (rootEntries files).flatten j = (rootKeys files)[j] := by
  have hlen := length_rootKeys files
  have hj' : j < (rootEntries files).length := by
    rw [length_rootEntries]
    omega
  have hinum {inum : Nat} (hi : inum < 65536) (name : List UInt8) :
      direntInum (dirent inum name) = inum := by
    rw [dirent, xshort_eq hi]
    exact direntInum_makeDirent hi _
  have hkey (inum : Nat) {name : List UInt8} (hnul : ∀ x ∈ name, x ≠ 0) :
      key (direntName (dirent inum name)) = name.take DIRSIZ := by
    rw [dirent, key_makeDirent]
    exact key_cstring hnul
  rw [slotInum, slotKey, slot_flatten (fun e he ↦ length_of_mem_rootEntries he) hj']
  rcases j with _ | _ | j
  · exact ⟨hinum (by decide) _, hkey 1 (by simp)⟩
  · exact ⟨hinum (by decide) _, hkey 1 (by simp)⟩
  · have hlt : j < files.length := by omega
    have hentry : (rootEntries files)[j + 2] = dirent (j + 2) files[j].name := by simp [rootEntries]
    rw [hentry]
    refine ⟨?_, ?_⟩
    · rw [hinum (by omega), rootInum, if_neg (by omega)]
    · rw [hkey _ (name_noNul _)]
      simp [rootKeys]

/-! ### Reading the image -/

namespace Finished
variable {files : List HostFile} {pre st : State} (h : Finished files pre st)

include h

theorem super : readsb st.sect = superblock := by
  have hblk : st.sect 1 = superblock.store := by
    rw [h.sect, iupdate, Function.update_of_ne, marked_of_ne (by decide)]
    · exact h.holds.laid.super
    · have := iblock_bounds (show 1 < 200 by decide)
      omega
  have hword (k : Nat) (hk : k < 8) : readLE (st.sect 1) (4 * k) 4 =
      [superblock.magic, superblock.size, superblock.nblocks, superblock.ninodes, superblock.nlog,
        superblock.logstart, superblock.inodestart, superblock.bmapstart][k] := by
    have hall : ∀ k (hk : k < 8), [superblock.magic, superblock.size, superblock.nblocks,
        superblock.ninodes, superblock.nlog, superblock.logstart, superblock.inodestart,
        superblock.bmapstart][k] < 256 ^ 4 := by decide +kernel
    rw [hblk, Superblock.store, ← Nat.zero_add (4 * k)]
    exact readLE_writeWords_get _ hk (hall k hk)
  rw [readsb]
  congr 1
  · exact hword 0 (by decide)
  · exact hword 1 (by decide)
  · exact hword 2 (by decide)
  · exact hword 3 (by decide)
  · exact hword 4 (by decide)
  · exact hword 5 (by decide)
  · exact hword 6 (by decide)
  · exact hword 7 (by decide)

/-- The bytes of a file before the size of the root was rounded. -/
theorem fileByte_eq {i k : Nat} (hi : i ∈ inums st) (hk : k < (dinode sb (marked pre) i).size) :
    fileByte st.sect (dinode sb st.sect i) k =
      fileByte (marked pre) (dinode sb (marked pre) i) k := by
  have hlt := h.mem_inums.mp hi
  have hroom := h.room
  have hi' : i < sb.ninodes := by
    rw [sb_ninodes]
    omega
  have ht : (dinode sb (marked pre) i).type ≠ 0 := by
    rw [← h.type_eq]
    exact (h.type_ne_zero (by omega)).mpr hi
  obtain ⟨hown, hfill⟩ := blockOwnership_iff.mp h.holds.ownership
  have hne := hfill.lookup_ne_zero hi' ht hk
  rw [fileByte, h.lookup_eq (by omega) ht, h.sect, iupdate,
    Function.update_of_ne ((hown.lookup_isData hi' ht hne).ne_iblock (by rw [sb_ninodes]; decide))]
  rfl

/-- The kernel reads the entries of the root. -/
theorem readi_root {j : Nat} (hj : j < files.length + 2) :
    DESIZE * j < (dinode sb st.sect 1).size ∧
      readi sb (dinode sb st.sect 1) (fun _ ↦ true) (DESIZE * j) DESIZE st.sect =
        .ok (some DESIZE, slot (rootEntries files).flatten j, dinode sb st.sect 1, st.sect) := by
  have hroom := h.room
  have hone : 1 ∈ inums st := h.mem_inums.mpr ⟨le_refl _, by omega⟩
  have hpre := h.size_pre
  have hsize : (dinode sb st.sect 1).size = roundUp (DESIZE * (files.length + 2)) := by
    rw [h.dinode_eq, if_pos rfl]
  have hround : DESIZE * (files.length + 2) ≤ roundUp (DESIZE * (files.length + 2)) := by
    simp only [roundUp, DESIZE, BSIZE]
    omega
  have hin : DESIZE * j + DESIZE ≤ DESIZE * (files.length + 2) := by
    simp only [DESIZE]
    omega
  have hlt : DESIZE * j + DESIZE < 2 ^ 32 := by
    simp only [DESIZE]
    omega
  have hdesize : 0 < DESIZE := by decide
  refine ⟨by omega, ?_⟩
  have hread := readi_of_filled h.owned (show 1 < sb.ninodes by rw [sb_ninodes]; decide)
    ((h.type_ne_zero (by decide)).mpr hone) hlt
    (fun k hk ↦ h.filled_pre hone (by omega)) (fun k _ ↦ (rfl : (fun _ ↦ true) k = true))
  have hmin : min DESIZE ((dinode sb st.sect 1).size - DESIZE * j) = DESIZE := by omega
  rw [hmin] at hread
  rw [hread]
  -- the entry as bytes of the list that the root held
  have hbytes : fileBytes st.sect (dinode sb st.sect 1) (DESIZE * j) DESIZE =
      slot (rootEntries files).flatten j := by
    have hroot := (h.holds.inodes 0 (Nat.succ_pos _)).2.2
    have hcontent : content sb (marked pre) 1 = (rootEntries files).flatten := hroot
    have htake := take_drop_content sb (marked pre) 1 (DESIZE * j) DESIZE
    rw [hcontent, hpre, show min DESIZE (DESIZE * (files.length + 2) - DESIZE * j) =
      DESIZE by omega] at htake
    rw [slot, htake]
    apply List.map_congr_left
    intro k hk
    have hk' := List.mem_range.mp hk
    exact h.fileByte_eq hone (by omega)
  rw [hbytes]

/-- The kernel finds an entry of the root by its key. -/
theorem dirlookup_root (hkeys : (rootKeys files).Nodup) {j : Nat} (hj : j < (rootKeys files).length)
    {name : Name} (hname : key name = (rootKeys files)[j]) :
    dirlookup sb name (dinode sb st.sect 1) st.sect =
      .ok (some (rootInum j, DESIZE * j), dinode sb st.sect 1, st.sect) := by
  have hroom := h.room
  have hlen := length_rootKeys files
  have hn : files.length ≤ 198 := by omega
  have hslot := root_slot hn hj
  have hinum : ∀ j, rootInum j ≠ 0 := by
    intro j
    unfold rootInum
    split <;> omega
  have htype : (dinode sb st.sect 1).type = T_DIR := by
    rw [h.type_eq]
    exact (h.holds.inodes 0 (Nat.succ_pos _)).1
  rw [dirlookup, if_neg (fun hne ↦ hne htype)]
  have hsize := (h.readi_root (j := j) (by omega)).1
  rw [← hslot.1]
  apply dirlookupLoop_found (fun j' hj' ↦ h.readi_root (by omega)) _ _ (Nat.zero_le j)
  · simp only [DESIZE] at hsize
    omega
  · intro j' hj'
    have hslot' := root_slot hn (show j' < (rootKeys files).length by omega)
    apply decide_eq_false
    rintro ⟨-, hk⟩
    rw [hslot'.2, hname] at hk
    have := (List.Nodup.getElem_inj_iff hkeys).mp hk
    omega
  · apply decide_eq_true
    rw [hslot.1, hslot.2, hname]
    exact ⟨hinum j, rfl⟩

/-- The kernel's `namei` of a name of the root. -/
theorem namei_root (hkeys : (rootKeys files).Nodup) {j : Nat} (hj : j < (rootKeys files).length)
    {name : List UInt8} (hne : name ≠ []) (hslash : slash ∉ name) (hnul : ∀ x ∈ name, x ≠ 0)
    (hname : name.take DIRSIZ = (rootKeys files)[j]) (cwd : Nat) (buf : Name) :
    ∃ name', namei sb ROOTINO cwd (slash :: name) buf st.sect =
      .ok (some (rootInum j), name', st.sect) := by
  have hroot := h.holds.inodes 0 (Nat.succ_pos _)
  have hd := h.dinode_eq 1
  rw [if_pos rfl] at hd
  apply namei_single hne hslash hnul
  · rw [show ROOTINO = 1 from rfl, hd]
    exact hroot.1
  · rw [show ROOTINO = 1 from rfl, hd]
    change (dinode sb (marked pre) 1).nlink ≠ 0
    rw [hroot.2.1]
    decide
  · intro nm hnm
    exact h.dirlookup_root hkeys hj (hnm.trans hname)

/-- The kernel reads a file. -/
theorem readi_file {j : Nat} (hj : j < files.length) :
    (dinode sb st.sect (j + 2)).type = T_FILE ∧
    (dinode sb st.sect (j + 2)).size = files[j].bytes.length ∧
    ∀ dst off n, off + n < 2 ^ 32 → (∀ k, k < min n (files[j].bytes.length - off) → dst k = true) →
      readi sb (dinode sb st.sect (j + 2)) dst off n st.sect =
        .ok (some (min n (files[j].bytes.length - off)), (files[j].bytes.drop off).take n,
          dinode sb st.sect (j + 2), st.sect) := by
  have hroom := h.room
  have hlen : (images files).length = files.length + 1 := by simp [images]
  obtain ⟨htype, -, hcontent⟩ := h.holds.inodes (j + 1) (by omega)
  have hfile : (images files)[j + 1] = ⟨T_FILE, files[j].bytes⟩ := by simp [images]
  rw [hfile] at htype hcontent
  dsimp only at htype hcontent
  have hd : dinode sb st.sect (j + 2) = dinode sb (marked pre) (j + 2) := by
    rw [h.dinode_eq, if_neg (by omega)]
  have hmem : j + 2 ∈ inums st := h.mem_inums.mpr ⟨by omega, by omega⟩
  have hsize : (dinode sb st.sect (j + 2)).size = files[j].bytes.length := by
    rw [hd, ← length_content, hcontent]
  have hcontent' : content sb st.sect (j + 2) = files[j].bytes := by
    rw [← hcontent]
    apply content_congr (by rw [hd])
    intro k hk
    exact h.fileByte_eq hmem hk
  refine ⟨by rw [hd]; exact htype, hsize, ?_⟩
  intro dst off n hlt hdst
  rw [← hsize] at hdst ⊢
  rw [← hcontent', take_drop_content]
  apply readi_of_filled h.owned (by rw [sb_ninodes]; omega)
    ((h.type_ne_zero (by omega)).mpr hmem) hlt _ hdst
  intro k hk
  apply h.filled_pre hmem
  rw [← hd]
  omega

end Finished

/-- Names that `mkfs` and the kernel can tell apart. -/
structure NamesOk (files : List HostFile) : Prop where
  nonempty : ∀ f ∈ files, f.name ≠ []
  noSlash : ∀ f ∈ files, slash ∉ f.name
  notDot : ∀ f ∈ files, f.name ≠ [46] ∧ f.name ≠ [46, 46]
  distinct : (files.map (fun f ↦ f.name.take DIRSIZ)).Nodup

theorem NamesOk.keys {files : List HostFile} (h : NamesOk files) : (rootKeys files).Nodup := by
  have hdot {f : HostFile} (hf : f ∈ files) {d : List UInt8} (hd : d.length < DIRSIZ)
      (hne : f.name ≠ d) :
      f.name.take DIRSIZ ≠ d := by
    intro heq
    apply hne
    rw [← heq, List.take_of_length_le]
    have := congrArg List.length heq
    rw [List.length_take] at this
    omega
  refine List.nodup_cons.mpr ⟨?_, List.nodup_cons.mpr ⟨?_, h.distinct⟩⟩
  · intro hmem
    rcases List.mem_cons.mp hmem with heq | hmem
    · cases heq
    · obtain ⟨f, hf, heq⟩ := List.mem_map.mp hmem
      exact hdot hf (by decide) (h.notDot f hf).1 heq
  · intro hmem
    obtain ⟨f, hf, heq⟩ := List.mem_map.mp hmem
    exact hdot hf (by decide) (h.notDot f hf).2 heq

/-- `mkfs` and the kernel agree on the format. In the image that a run leaves behind the kernel
reads the superblock, `/.` and `/..` are the root, and the name of every file leads to an inode for
a file of its length from which `readi` delivers its bytes. -/
theorem image_read_by_kernel {files : List HostFile} {st : State} (h : main files = .ok st)
    (hn : files.length ≤ NINODES - 2) (hnames : NamesOk files) :
    readsb st.sect = superblock ∧
    (∀ cwd buf, ∃ name, namei sb ROOTINO cwd [slash, 46] buf st.sect =
      .ok (some ROOTINO, name, st.sect)) ∧
    (∀ cwd buf, ∃ name, namei sb ROOTINO cwd [slash, 46, 46] buf st.sect =
      .ok (some ROOTINO, name, st.sect)) ∧
    ∀ f ∈ files, ∃ i,
      (∀ cwd buf, ∃ name, namei sb ROOTINO cwd (slash :: f.name) buf st.sect =
        .ok (some i, name, st.sect)) ∧
      (dinode sb st.sect i).type = T_FILE ∧ (dinode sb st.sect i).size = f.bytes.length ∧
      ∀ dst off n, off + n < 2 ^ 32 → (∀ k, k < min n (f.bytes.length - off) → dst k = true) →
        readi sb (dinode sb st.sect i) dst off n st.sect =
          .ok (some (min n (f.bytes.length - off)), (f.bytes.drop off).take n, dinode sb st.sect i,
            st.sect) := by
  obtain ⟨pre, hfin⟩ := finished_of_main hn h
  have hkeys := hnames.keys
  have hlen := length_rootKeys files
  refine ⟨hfin.super, ?_, ?_, ?_⟩
  · intro cwd buf
    exact hfin.namei_root hkeys (j := 0) (by omega) (by decide) (by decide) (by simp) rfl cwd buf
  · intro cwd buf
    exact hfin.namei_root hkeys (j := 1) (by omega) (by decide) (by decide) (by simp) rfl cwd buf
  · intro f hf
    obtain ⟨j, hj, rfl⟩ := List.getElem_of_mem hf
    refine ⟨j + 2, ?_, hfin.readi_file hj⟩
    intro cwd buf
    have hroot :=
      hfin.namei_root hkeys (j := j + 2) (by omega) (hnames.nonempty _ hf) (hnames.noSlash _ hf)
      (name_noNul _) (by simp [rootKeys]) cwd buf
    rw [rootInum, if_neg (by omega)] at hroot
    exact hroot

/-- A file of one byte that is called `_a`. -/
def oneByteFile : HostFile where
  arg := [95, 97]
  noNul := by simp
  reads := some [⟨[7], by decide⟩]

/-- It is found as `/a`. -/
theorem image_read_by_kernel_oneByteFile : ∃ st i, main [oneByteFile] = .ok st ∧
    (∃ name, namei sb ROOTINO ROOTINO [slash, 97] (fun _ ↦ 0) st.sect =
      .ok (some i, name, st.sect)) ∧
    readi sb (dinode sb st.sect i) (fun _ ↦ true) 0 1 st.sect =
      .ok (some 1, [7], dinode sb st.sect i, st.sect) := by
  have hok : FileOk oneByteFile := ⟨by decide, rfl, by decide⟩
  have hnames : NamesOk [oneByteFile] := by
    refine ⟨?_, ?_, ?_, by decide⟩
    all_goals
      intro f hf
      rw [List.mem_singleton.mp hf]
      decide
  obtain ⟨st, hst⟩ := main_ok (show [oneByteFile].length ≤ 198 by decide)
    (fun f hf ↦ by rw [List.mem_singleton.mp hf]; exact hok) (by decide)
  obtain ⟨-, -, -, hfiles⟩ := image_read_by_kernel hst (by decide) hnames
  obtain ⟨i, hname, -, -, hread⟩ := hfiles oneByteFile List.mem_cons_self
  exact ⟨st, i, hst, hname ROOTINO (fun _ ↦ 0),
    hread (fun _ ↦ true) 0 1 (by decide) (fun _ _ ↦ rfl)⟩

end Xv6.Mkfs
