import Xv6.Vm.Image

/-!
# Loading segments

What `loadseg` (`kernel/exec.c:147`) and the loop of `exec` over the program headers put into the
new image, byte by byte. The address of a byte decides which segment it comes from, whatever the
order of the headers.
-/

namespace Xv6.Vm

open Xv6.Lib

/-- `base` with the bytes `bs` from `start` on. -/
def overlay (base : Nat → UInt8) (start : Nat) (bs : List UInt8) : Nat → UInt8 := fun va ↦
  if start ≤ va ∧ va < start + bs.length then bs.getD (va - start) 0 else base va

/-- The first `n` pages show `E`, which is zero beyond them. -/
structure Shows (m : Mem) (pt n : Nat) (E : Nat → UInt8) : Prop where
  bytes : ∀ va < n * PGSIZE, image m.cells pt va = E va
  beyond : ∀ va, n * PGSIZE ≤ va → E va = 0

section
variable {k : Kernel} {m m' : Mem} {pt n : Nat} {top : Nat → Nat} {E : Nat → UInt8}

theorem overlay_nil (base : Nat → UInt8) (start : Nat) : overlay base start [] = base := by
  funext va
  rw [overlay, if_neg]
  rw [List.length_nil]
  omega

theorem overlay_append (base : Nat → UInt8) (start : Nat) (bs cs : List UInt8) :
    overlay (overlay base start bs) (start + bs.length) cs = overlay base start (bs ++ cs) := by
  funext va
  simp only [overlay, List.length_append]
  by_cases hlo : start ≤ va
  · by_cases hb : va < start + bs.length
    · rw [if_neg (by omega), if_pos ⟨hlo, hb⟩, if_pos ⟨hlo, by omega⟩,
        List.getD_append _ _ _ _ (by omega)]
    · by_cases hc : va < start + bs.length + cs.length
      · rw [if_pos ⟨by omega, hc⟩, if_pos ⟨hlo, by omega⟩,
          List.getD_append_right _ _ _ _ (by omega)]
        congr 1
        omega
      · rw [if_neg (by omega), if_neg (by omega), if_neg (by omega)]
  · rw [if_neg (by omega), if_neg (by omega), if_neg (by omega)]

/-- Different user pages are different physical pages. -/
theorem users_inj (hs : Sound k m (space m.cells pt n)) {u v : Nat} (hu : u < n) (hv : v < n)
    (h : PTE2PA (entry m.cells 2 pt u) = PTE2PA (entry m.cells 2 pt v)) : u = v := by
  have husers : Sound k m (users m.cells pt 0 n) := hs.right
  have hnodup : (mapped m.cells pt 0 n).Nodup := List.nodup_iff_count_le_one.mpr husers.le_one
  exact List.inj_on_of_nodup_map hnodup (List.mem_range'_1.mpr ⟨Nat.zero_le u, by omega⟩)
    (List.mem_range'_1.mpr ⟨Nat.zero_le v, by omega⟩) h

/-- There are fewer user pages than `2 ^ 20`. -/
theorem Sound.users_small (hs : Sound k m (space m.cells pt n)) : n < 2 ^ 20 := by
  have husers : Sound k m (users m.cells pt 0 n) := hs.right
  have hnodup : (mapped m.cells pt 0 n).Nodup := List.nodup_iff_count_le_one.mpr husers.le_one
  have hsub : mapped m.cells pt 0 n ⊆ List.range' 1 (2 ^ 20 - 1) := by
    intro q hq
    have hpos : 0 < users m.cells pt 0 n q := List.count_pos_iff.mpr hq
    have hlt := husers.lt hpos
    have hne := husers.ne_zero hpos
    rw [List.mem_range'_1]
    omega
  have hlen := (hnodup.subperm hsub).length_le
  rw [mapped, List.length_map, List.length_range', List.length_range'] at hlen
  omega

/-- The image after a store within one user page. -/
theorem image_write {v off : Nat} {bs : List UInt8} (hs : Sound k m (space m.cells pt n))
    (hv : v < n) (hoff : off + bs.length ≤ PGSIZE) {va : Nat} (hva : va < n * PGSIZE) :
    image (m.write (PTE2PA (entry m.cells 2 pt v)) off bs).cells pt va =
      overlay (image m.cells pt) (v * PGSIZE + off) bs va := by
  have hu := page_of_lt hva
  have hdiv := Nat.div_add_mod va PGSIZE
  have hmod := Nat.mod_lt va (by decide : 0 < PGSIZE)
  rw [image, (sameTable_write hs hv off bs).entries, overlay]
  by_cases hpage : va / PGSIZE = v
  · rw [hpage, write_byte]
    have hsplit : va = v * PGSIZE + va % PGSIZE := by
      rw [← hpage, Nat.mul_comm]
      exact hdiv.symm
    by_cases hin : off ≤ va % PGSIZE ∧ va % PGSIZE < off + bs.length
    · have hlt : va % PGSIZE - off < bs.length := by omega
      have hidx : va - (v * PGSIZE + off) = va % PGSIZE - off := by omega
      rw [if_pos hin.1, if_pos (by omega), hidx, List.getD_eq_getElem _ _ hlt,
        List.getD_eq_getElem _ _ hlt]
    · have hout : ¬ (v * PGSIZE + off ≤ va ∧ va < v * PGSIZE + off + bs.length) := by omega
      rw [if_neg hout, image, hpage]
      split
      · rw [List.getD_eq_default]
        omega
      · rfl
  · have hne : PTE2PA (entry m.cells 2 pt (va / PGSIZE)) ≠ PTE2PA (entry m.cells 2 pt v) :=
      fun he ↦ hpage (users_inj hs hu hv he)
    have hout : ¬ (v * PGSIZE + off ≤ va ∧ va < v * PGSIZE + off + bs.length) := by
      rintro ⟨hlo, hhi⟩
      apply hpage
      rw [Nat.div_eq_iff (by decide)]
      omega
    rw [if_neg hout, write_other hne]
    rfl

theorem overlay_congr {base base' : Nat → UInt8} {va : Nat} (h : base va = base' va) (start : Nat)
    (bs : List UInt8) : overlay base start bs va = overlay base' start bs va := by
  rw [overlay, overlay, h]

/-! ### `loadseg` -/

/-- A read that got all it asked for. -/
theorem readi_full {file : List UInt8} {off len : Nat} (hpos : 0 < len)
    (h : (readi file off len).length = len) :
    off + len ≤ file.length ∧ readi file off len = (file.drop off).take len := by
  rw [readi] at h ⊢
  split at h
  · rw [List.length_nil] at h
    omega
  · next hc =>
    rw [List.length_take, List.length_drop] at h
    exact ⟨by omega, if_neg hc⟩

/-- What `loadseg` put into the image. -/
structure Loaded (m m' : Mem) (pt n va : Nat) (file : List UInt8) (offset sz : Nat) : Prop where
  inside : 0 < sz → offset + sz ≤ file.length
  bytes : ∀ a < n * PGSIZE, image m'.cells pt a =
    overlay (image m.cells pt) va ((file.drop offset).take sz) a

theorem Loaded.none (m : Mem) (pt n va : Nat) (file : List UInt8) (offset : Nat) :
    Loaded m m pt n va file offset 0 := by
  refine ⟨fun h ↦ absurd h (Nat.lt_irrefl 0), ?_⟩
  intro a _
  rw [List.take_zero, overlay_nil]

/-- A page, and the pages after it. -/
theorem Loaded.cons {m₁ : Mem} {va offset len sz : Nat} {file : List UInt8}
    (h : Loaded m m₁ pt n va file offset len) (hpos : 0 < len)
    (h' : Loaded m₁ m' pt n (va + len) file (offset + len) sz) :
    Loaded m m' pt n va file offset (len + sz) := by
  have hlen := h.inside hpos
  refine ⟨?_, ?_⟩
  · intro _
    by_cases hsz : 0 < sz
    · have := h'.inside hsz
      omega
    · omega
  · intro a ha
    have hbs : ((file.drop offset).take len).length = len := by
      rw [List.length_take, List.length_drop]
      omega
    have htake : (file.drop offset).take (len + sz) =
        (file.drop offset).take len ++ (file.drop (offset + len)).take sz := by
      rw [List.take_add, List.drop_drop]
    rw [h'.bytes a ha, overlay_congr (h.bytes a ha), htake, ← overlay_append, hbs]

/-- A whole page, or the last bytes of the segment, through `readi`. -/
theorem loaded_page {va offset len : Nat} {file : List UInt8}
    (hs : Sound k m (space m.cells pt n)) (hva : va % PGSIZE = 0) (hv : va / PGSIZE < n)
    (hpos : 0 < len) (hle : len ≤ PGSIZE) (hread : (readi file offset len).length = len) :
    Loaded m (m.write (PTE2PA (entry m.cells 2 pt (va / PGSIZE))) 0 (readi file offset len)) pt n va
      file offset len := by
  obtain ⟨hin, heq⟩ := readi_full hpos hread
  refine ⟨fun _ ↦ hin, ?_⟩
  intro a ha
  have hbase : va / PGSIZE * PGSIZE + 0 = va := by
    have := Nat.div_add_mod va PGSIZE
    rw [Nat.mul_comm] at this
    omega
  rw [image_write hs hv (by omega) ha, hbase, heq]

theorem loadsegLoop_spec {va offset sz cnt i : Nat} {file : List UInt8}
    (h : Layout m.cells pt n top) (hs : Sound k m (space m.cells pt n))
    (hu : UserPages m.cells pt n) (hva : va % PGSIZE = 0) (hend : va + sz ≤ n * PGSIZE)
    (hi : i % PGSIZE = 0) (hcnt : cnt = pages (sz - i)) (flags : Nat → Nat) :
    Returns (loadsegLoop pt va file offset sz cnt m i) (fun r ↦
      Resized m r.2 pt n n top flags ∧
      (r.1 = true → file.length < 2 ^ 32 → offset + i < 2 ^ 32 →
        Loaded m r.2 pt n (va + i) file (offset + i) (sz - i))) := by
  induction cnt generalizing m i with
  | zero =>
    have hzero : sz - i = 0 := by
      unfold pages PGSIZE at hcnt
      omega
    refine Returns.ok ⟨Resized.refl h flags, fun _ _ _ ↦ ?_⟩
    rw [hzero]
    exact Loaded.none ..
  | succ cnt ih =>
    have hlt : i < sz := by
      unfold pages PGSIZE at hcnt
      omega
    have hT := TOP_mul
    have hsize := Nat.mul_le_mul_right PGSIZE h.size
    have hmod : (va + i) % 2 ^ 64 = va + i := Nat.mod_eq_of_lt (by omega)
    have hv : (va + i) / PGSIZE < n := page_of_lt (by omega)
    have hN := TOP_lt
    have hpage : walkaddr m pt (va + i) = PTE2PA (entry m.cells 2 pt ((va + i) / PGSIZE)) := by
      have hn := h.size
      rw [walkaddr_eq, userPage_eq, if_pos ⟨by omega, (h.leaf _ hv).1, hu _ hv⟩]
      rfl
    have hnull : PTE2PA (entry m.cells 2 pt ((va + i) / PGSIZE)) ≠ 0 := by
      apply hs.ne_zero
      have := users_pos m.cells pt hv
      rw [space, Pi.add_apply]
      omega
    have halign : (va + i) % PGSIZE = 0 := by
      unfold PGSIZE at *
      omega
    rw [loadsegLoop]
    simp only
    rw [hmod, hpage, if_neg hnull]
    generalize hlen : (if sz - i < PGSIZE then sz - i else PGSIZE) = len
    have hlen' : len = min (sz - i) PGSIZE := by
      rw [← hlen]
      split <;> omega
    have hpos : 0 < len := by
      have : 0 < PGSIZE := by decide
      omega
    have hw := Resized.write h hs hv 0 (readi file ((offset + i) % 2 ^ 32) len) flags
    split
    · exact Returns.ok ⟨hw, (by intro h; cases h)⟩
    · next hread =>
      have hread := Classical.not_not.mp hread
      have hload := loaded_page hs halign hv hpos (by omega) hread
      by_cases hlast : sz - i ≤ PGSIZE
      · -- the last page
        have hcnt0 : cnt = 0 := by
          unfold pages PGSIZE at *
          omega
        have hall : sz - i = len := by omega
        rw [hcnt0]
        refine Returns.ok ⟨hw, fun _ _ hoff ↦ ?_⟩
        rw [Nat.mod_eq_of_lt hoff] at hload
        rw [hall, Nat.mod_eq_of_lt hoff]
        exact hload
      · have hfull : len = PGSIZE := by omega
        have hcnt' : cnt = pages (sz - (i + PGSIZE)) := by
          unfold pages PGSIZE at *
          omega
        have hi' : (i + PGSIZE) % PGSIZE = 0 := by
          rw [Nat.add_mod_right]
          exact hi
        apply (ih hw.layout (hs.moves hw.moves) ?_ hi' hcnt').mono
        · rintro r ⟨hr, hloaded⟩
          refine ⟨hw.trans hr (Or.inl (Nat.le_refl n)), ?_⟩
          intro hok hfile hoff
          rw [Nat.mod_eq_of_lt hoff] at hload hread hloaded
          have hin := (readi_full hpos hread).1
          have hrest := hloaded hok hfile (by omega)
          have hsplit : sz - i = len + (sz - (i + PGSIZE)) := by omega
          have hnext : va + (i + PGSIZE) = va + i + len := by omega
          have hoff' : offset + (i + PGSIZE) = offset + i + len := by omega
          rw [hnext, hoff'] at hrest
          rw [hsplit]
          exact hload.cons hpos hrest
        · intro v hvn
          rw [hw.kept v hvn hvn]
          exact hu v hvn

/-- `loadseg` into pages that are all mapped for the user. -/
theorem loadseg_spec {va offset sz : Nat} {file : List UInt8} (h : Layout m.cells pt n top)
    (hs : Sound k m (space m.cells pt n)) (hu : UserPages m.cells pt n) (hva : va % PGSIZE = 0)
    (hend : va + sz ≤ n * PGSIZE) (flags : Nat → Nat) :
    Returns (loadseg m pt va file offset sz) (fun r ↦
      Resized m r.2 pt n n top flags ∧
      (r.1 = true → file.length < 2 ^ 32 → Loaded m r.2 pt n va file (offset % 2 ^ 32) sz)) := by
  have hsmall : sz % 2 ^ 32 = sz := by
    have hn := hs.users_small
    apply Nat.mod_eq_of_lt
    unfold PGSIZE at hend
    omega
  rw [loadseg, hsmall]
  apply (loadsegLoop_spec h hs hu hva hend (Nat.zero_mod _) rfl flags).mono
  rintro r ⟨hr, hloaded⟩
  exact ⟨hr, fun hok hfile ↦ hloaded hok hfile (Nat.mod_lt _ (by decide))⟩

/-! ### The program headers -/

/-- The `n` program headers of a file from offset `off` on. -/
def headers (file : List UInt8) : Nat → Nat → List Proghdr
  | _, 0 => []
  | off, n + 1 =>
    Proghdr.decode ((file.drop off).take proghdrSize) :: headers file (off + proghdrSize) n

/-- The image `E` with the segment of a header. -/
def place (file : List UInt8) (E : Nat → UInt8) (ph : Proghdr) : Nat → UInt8 :=
  if ph.type = ELF_PROG_LOAD then
    overlay E ph.vaddr ((file.drop (ph.off % 2 ^ 32)).take ph.filesz)
  else E

/-- The segment of a header lies in the file, and in memory of `sz` bytes. -/
structure Fits (file : List UInt8) (sz : Nat) (ph : Proghdr) : Prop where
  filesz : ph.filesz ≤ ph.memsz
  memory : ph.vaddr + ph.memsz ≤ sz
  file : 0 < ph.filesz → ph.off % 2 ^ 32 + ph.filesz ≤ file.length

theorem Fits.mono {file : List UInt8} {sz sz' : Nat} {ph : Proghdr} (h : Fits file sz ph)
    (hle : sz ≤ sz') :
    Fits file sz' ph := ⟨h.filesz, Nat.le_trans h.memory hle, h.file⟩

/-- What the loop over the program headers has done when it has loaded them all. -/
structure AllLoaded (m m' : Mem) (pt sz sz' : Nat) (file : List UInt8) (off cnt : Nat) : Prop where
  table : 0 < cnt → off + cnt * proghdrSize ≤ file.length
  size : sz ≤ sz'
  fits : ∀ ph ∈ headers file off cnt, ph.type = ELF_PROG_LOAD → Fits file sz' ph
  shows : ∀ E, Shows m pt (pages sz) E → Shows m' pt (pages sz')
    ((headers file off cnt).foldl (place file) E)

theorem pages_mono {a b : Nat} (h : a ≤ b) : pages a ≤ pages b := by
  unfold pages PGSIZE
  omega

/-- New pages are zero. -/
theorem Shows.grown {n' : Nat} {flags : Nat → Nat} (h : Shows m pt n E)
    (hg : Grown m m' pt n n' top flags 0) (hle : n ≤ n') : Shows m' pt n' E := by
  have hmul := Nat.mul_le_mul_right PGSIZE hle
  refine ⟨?_, ?_⟩
  · intro va hva
    by_cases hn : va < n * PGSIZE
    · rw [hg.same va hn hva]
      exact h.bytes va hn
    · rw [hg.filled va (by omega) hva, h.beyond va (by omega)]
      rfl
  · intro va hva
    exact h.beyond va (by omega)

/-- A segment is placed over what was there. -/
theorem Shows.loaded {va offset sz : Nat} {file : List UInt8} (h : Shows m pt n E)
    (hl : Loaded m m' pt n va file offset sz) (hend : va + sz ≤ n * PGSIZE) :
    Shows m' pt n (overlay E va ((file.drop offset).take sz)) := by
  refine ⟨?_, ?_⟩
  · intro a ha
    rw [hl.bytes a ha]
    exact overlay_congr (h.bytes a ha) _ _
  · intro a ha
    rw [overlay, if_neg, h.beyond a ha]
    rw [List.length_take]
    omega

theorem flags2perm_lt (flags : Nat) : flags2perm flags < 1024 := by
  rw [flags2perm]
  split <;> split <;> decide

theorem field_lt (bs : List UInt8) (off : Nat) : field bs off 8 < 2 ^ 64 := by
  have h := readLE_lt (fun i ↦ bs.getD i 0) off 8
  have hpow : 256 ^ 8 = 2 ^ 64 := by decide
  rw [hpow] at h
  exact h

/-- What is true after the loop, loaded all or not. -/
structure Segments (m : Mem) (pt sz : Nat) (top : Nat → Nat) (file : List UInt8) (off cnt : Nat)
    (r : Bool × Nat × Mem) : Prop where
  layout : Layout r.2.2.cells pt (pages r.2.1) top
  moves : Moves m.toHeap r.2.2.toHeap (space m.cells pt (pages sz))
    (space r.2.2.cells pt (pages r.2.1))
  user : UserPages r.2.2.cells pt (pages r.2.1)
  loaded : r.1 = true → file.length < 2 ^ 32 → off < 2 ^ 32 →
    AllLoaded m r.2.2 pt sz r.2.1 file off cnt

theorem Segments.stop {sz : Nat} (h : Layout m.cells pt (pages sz) top)
    (hu : UserPages m.cells pt (pages sz)) (file : List UInt8) (off cnt : Nat) :
    Segments m pt sz top file off cnt (false, sz, m) :=
  ⟨h, Moves.refl _ _, hu, (fun h ↦ nomatch h)⟩

/-- A header that is not for a segment. -/
theorem AllLoaded.skip {sz sz' : Nat} {file : List UInt8} {off cnt : Nat}
    (h : AllLoaded m m' pt sz sz' file (off + proghdrSize) cnt)
    (hin : off + proghdrSize ≤ file.length)
    (htype : (Proghdr.decode ((file.drop off).take proghdrSize)).type ≠ ELF_PROG_LOAD) :
    AllLoaded m m' pt sz sz' file off (cnt + 1) := by
  refine ⟨?_, h.size, ?_, ?_⟩
  · intro _
    have := h.table
    rw [Nat.succ_mul]
    by_cases hc : 0 < cnt
    · have := h.table hc
      omega
    · have hz : cnt = 0 := by omega
      rw [hz]
      omega
  · intro ph hph htype'
    rw [headers, List.mem_cons] at hph
    rcases hph with rfl | hph
    · exact (htype htype').elim
    · exact h.fits ph hph htype'
  · intro E hE
    rw [headers, List.foldl_cons, place, if_neg htype]
    exact h.shows E hE

/-- The segment of the first header, and the rest of the table. -/
theorem AllLoaded.cons {m₂ : Mem} {sz sz₁ sz' : Nat} {file : List UInt8} {off cnt : Nat}
    (h : AllLoaded m₂ m' pt sz₁ sz' file (off + proghdrSize) cnt)
    (hin : off + proghdrSize ≤ file.length) (hsz : sz ≤ sz₁)
    (hfits : Fits file sz₁ (Proghdr.decode ((file.drop off).take proghdrSize)))
    (hshow : ∀ E, Shows m pt (pages sz) E → Shows m₂ pt (pages sz₁)
      (place file E (Proghdr.decode ((file.drop off).take proghdrSize)))) :
    AllLoaded m m' pt sz sz' file off (cnt + 1) := by
  refine ⟨?_, Nat.le_trans hsz h.size, ?_, ?_⟩
  · intro _
    rw [Nat.succ_mul]
    by_cases hc : 0 < cnt
    · have := h.table hc
      omega
    · have hz : cnt = 0 := by omega
      rw [hz]
      omega
  · intro ph hph htype
    rw [headers, List.mem_cons] at hph
    rcases hph with rfl | hph
    · exact hfits.mono h.size
    · exact h.fits ph hph htype
  · intro E hE
    rw [headers, List.foldl_cons]
    exact h.shows _ (hshow E hE)

theorem AllLoaded.nil (m : Mem) (pt sz : Nat) (file : List UInt8) (off : Nat) :
    AllLoaded m m pt sz sz file off 0 := by
  refine ⟨fun h ↦ absurd h (Nat.lt_irrefl 0), Nat.le_refl sz, ?_, fun _ h ↦ h⟩
  intro ph hph
  rw [headers] at hph
  exact absurd hph List.not_mem_nil

/-- The loop of `exec` over the program headers, whether it loads them all or not. -/
theorem loadSegments_spec {cnt off sz : Nat} {file : List UInt8}
    (h : Layout m.cells pt (pages sz) top) (hs : Sound k m (space m.cells pt (pages sz)))
    (hu : UserPages m.cells pt (pages sz)) :
    Returns (loadSegments k pt file cnt m off sz) (Segments m pt sz top file off cnt) := by
  induction cnt generalizing m off sz with
  | zero => exact Returns.ok ⟨h, Moves.refl _ _, hu, fun _ _ _ ↦ AllLoaded.nil m pt sz file off⟩
  | succ cnt ih =>
    have hstop := Segments.stop h hu file off (cnt + 1)
    have hvaddr : (Proghdr.decode (readi file off proghdrSize)).vaddr < 2 ^ 64 := field_lt _ 16
    have hmemsz : (Proghdr.decode (readi file off proghdrSize)).memsz < 2 ^ 64 := field_lt _ 40
    rw [loadSegments]
    simp only
    split
    · exact Returns.ok hstop
    · next hread =>
      have hread := readi_full (by decide) (Classical.not_not.mp hread)
      rw [hread.2] at hvaddr hmemsz ⊢
      -- the offset of the next header does not wrap
      have hnext (hfile : file.length < 2 ^ 32) :
          (off + proghdrSize) % 2 ^ 32 = off + proghdrSize :=
        Nat.mod_eq_of_lt (by omega)
      generalize hph : Proghdr.decode ((file.drop off).take proghdrSize) = ph at hvaddr hmemsz ⊢
      split
      · next htype =>
        apply (ih h hs hu).mono
        intro r hr
        refine ⟨hr.layout, hr.moves, hr.user, ?_⟩
        intro hok hfile _
        have hrest := hr.loaded hok hfile (Nat.mod_lt _ (by decide))
        rw [hnext hfile] at hrest
        apply hrest.skip hread.1
        rw [hph]
        exact htype
      · next htype =>
        have htype := Classical.not_not.mp htype
        split
        · exact Returns.ok hstop
        · next hfilesz =>
          split
          · exact Returns.ok hstop
          · next hover =>
            split
            · exact Returns.ok hstop
            · next halign =>
              have halign := Classical.not_not.mp halign
              apply (uvmalloc_spec h hs (flags2perm_lt _)).bind
              rintro ⟨sz1, m₁⟩ hm₁
              simp only at hm₁ ⊢
              split at hm₁
              · next hzero =>
                rw [if_pos hzero]
                exact Returns.pure ⟨hm₁.layout, hm₁.moves, hm₁.userPages hu, (fun h ↦ nomatch h)⟩
              · next hpos =>
                rw [if_neg hpos]
                obtain ⟨hmax, hm₁⟩ := hm₁
                have hsz1 := pages_le.mp (Nat.le_refl (pages sz1))
                have hmem : ph.vaddr + ph.memsz ≤ sz1 := by
                  rw [hmax]
                  omega
                have hend : ph.vaddr + ph.filesz ≤ pages sz1 * PGSIZE := by omega
                have hsz : sz ≤ sz1 := by omega
                apply (loadseg_spec hm₁.layout (hs.moves hm₁.moves) (hm₁.userPages hu) halign hend
                  (fun _ ↦ userFlags (flags2perm ph.flags))).bind
                rintro ⟨ok, m₂⟩ ⟨hm₂, hload⟩
                have hm := hm₁.toResized.trans hm₂ (Or.inr (Nat.le_refl _))
                cases ok with
                | false =>
                  exact Returns.ok ⟨hm.layout, hm.moves, hm.userPages hu, (fun h ↦ nomatch h)⟩
                | true =>
                  simp only [if_true]
                  apply (ih hm.layout (hs.moves hm.moves) (hm.userPages hu)).mono
                  intro r hr
                  refine ⟨hr.layout, hm.moves.trans hr.moves, hr.user, ?_⟩
                  intro hok hfile _
                  have hrest := hr.loaded hok hfile (Nat.mod_lt _ (by decide))
                  have hload := hload rfl hfile
                  rw [hnext hfile] at hrest
                  apply hrest.cons hread.1 hsz
                  · rw [hph]
                    exact ⟨by omega, hmem, hload.inside⟩
                  · intro E hE
                    rw [hph, place, if_pos htype]
                    exact (hE.grown hm₁ (pages_mono hsz)).loaded hload hend

end

end Xv6.Vm
