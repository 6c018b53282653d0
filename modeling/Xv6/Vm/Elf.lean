import Xv6.Vm.Stack

/-!
# The image of a program

What `exec` (`kernel/exec.c:42–73`) makes of the program headers of a file, compared with what the
headers say. Their fields have 64 bits, but the offsets go through the `int` of the loop and the
`uint` of `loadseg` (`kernel/exec.c:147`).
-/

namespace Xv6.Vm

open Xv6.Lib

/-- The program headers that the header of a file describes. -/
def programHeaders (file : List UInt8) : List Proghdr :=
  headers file (elfhdr file).phoff (elfhdr file).phnum

/-- Those of segments that are loaded. -/
def loadHeaders (file : List UInt8) : List Proghdr :=
  (programHeaders file).filter (fun ph ↦ ph.type = ELF_PROG_LOAD)

/-- No address is in both segments. -/
def Proghdr.Apart (a b : Proghdr) : Prop :=
  ∀ va, a.vaddr ≤ va → va < a.vaddr + a.memsz → ¬ (b.vaddr ≤ va ∧ va < b.vaddr + b.memsz)

/-- The memory `img` of `sz` bytes has the segments that the headers of the file describe. -/
structure Describes (file : List UInt8) (img : Nat → UInt8) (sz : Nat) : Prop where
  table : 0 < (elfhdr file).phnum → (elfhdr file).phoff + (elfhdr file).phnum * proghdrSize ≤
    file.length
  memory : ∀ ph ∈ loadHeaders file, ph.vaddr + ph.memsz ≤ sz
  bytes : ∀ ph ∈ loadHeaders file, ∀ i < ph.filesz, file[ph.off + i]? = some (img (ph.vaddr + i))
  zeros : ∀ ph ∈ loadHeaders file, ∀ i, ph.filesz ≤ i → i < ph.memsz → img (ph.vaddr + i) = 0

/-- The offsets in the headers fit in 32 bits, where they are used. -/
structure OffsetsFit (file : List UInt8) : Prop where
  table : 0 < (elfhdr file).phnum → (elfhdr file).phoff < 2 ^ 32
  segments : ∀ ph ∈ loadHeaders file, 0 < ph.filesz → ph.off < 2 ^ 32

section
variable {k : Kernel} {m m' : Mem} {pr : Proc} {file : List UInt8} {E : Nat → UInt8}

/-! ### Segments in any order -/

theorem place_of_notMem {ph : Proghdr} {va : Nat}
    (h : ph.type = ELF_PROG_LOAD → va < ph.vaddr ∨ ph.vaddr + ph.filesz ≤ va) :
    place file E ph va = E va := by
  rw [place]
  split
  · next htype =>
    have := h htype
    rw [overlay, if_neg]
    rw [List.length_take]
    omega
  · rfl

/-- An address in no segment keeps its byte. -/
theorem places_of_notMem {phs : List Proghdr} {va : Nat}
    (h : ∀ ph ∈ phs, ph.type = ELF_PROG_LOAD → va < ph.vaddr ∨ ph.vaddr + ph.filesz ≤ va) :
    phs.foldl (place file) E va = E va := by
  induction phs generalizing E with
  | nil => rfl
  | cons ph phs ih =>
    rw [List.foldl_cons, ih (fun x hx ↦ h x (List.mem_cons_of_mem ph hx))]
    exact place_of_notMem (h ph List.mem_cons_self)

theorem place_congr {E' : Nat → UInt8} {ph : Proghdr} {va : Nat} (h : E va = E' va) :
    place file E ph va = place file E' ph va := by
  rw [place, place]
  split
  · exact overlay_congr h _ _
  · exact h

/-- An address of one segment has the byte of that segment, if the segments are apart. -/
theorem places_of_mem {phs : List Proghdr} {ph : Proghdr} {va : Nat} (hph : ph ∈ phs)
    (htype : ph.type = ELF_PROG_LOAD)
    (happart : (phs.filter (fun ph ↦ ph.type = ELF_PROG_LOAD)).Pairwise Proghdr.Apart)
    (hsize : ∀ x ∈ phs, x.type = ELF_PROG_LOAD → x.filesz ≤ x.memsz) (hlo : ph.vaddr ≤ va)
    (hhi : va < ph.vaddr + ph.memsz) : phs.foldl (place file) E va = place file E ph va := by
  induction phs generalizing E with
  | nil => cases hph
  | cons x phs ih =>
    have hsize' : ∀ y ∈ phs, y.type = ELF_PROG_LOAD → y.filesz ≤ y.memsz :=
      fun y hy ↦ hsize y (List.mem_cons_of_mem x hy)
    rw [List.foldl_cons]
    by_cases hx : x.type = ELF_PROG_LOAD
    · rw [List.filter_cons, if_pos (decide_eq_true hx), List.pairwise_cons] at happart
      rcases List.mem_cons.mp hph with rfl | hph
      · -- the segments after it do not come back to the address
        apply places_of_notMem
        intro y hy hytype
        have hy' := happart.1 y (List.mem_filter.mpr ⟨hy, decide_eq_true hytype⟩) va hlo hhi
        have := hsize' y hy hytype
        omega
      · rw [ih hph happart.2 hsize']
        apply place_congr
        apply place_of_notMem
        intro _
        have hxph := happart.1 ph (List.mem_filter.mpr ⟨hph, decide_eq_true htype⟩)
        have := hsize x List.mem_cons_self hx
        by_contra hin
        exact hxph va (by omega) (by omega) ⟨hlo, hhi⟩
    · rw [List.filter_cons, if_neg (by simpa using hx)] at happart
      rcases List.mem_cons.mp hph with rfl | hph
      · exact (hx htype).elim
      · rw [ih hph happart hsize']
        apply place_congr
        exact place_of_notMem (fun h ↦ (hx h).elim)

/-- The bytes of a segment from its offset in the file. -/
theorem overlay_segment {ph : Proghdr} {off : Nat}
    (hfile : 0 < ph.filesz → off + ph.filesz ≤ file.length) {i : Nat} :
    (i < ph.filesz →
      file[off + i]? = some (overlay E ph.vaddr ((file.drop off).take ph.filesz) (ph.vaddr + i))) ∧
      (ph.filesz ≤ i → overlay E ph.vaddr ((file.drop off).take ph.filesz) (ph.vaddr + i) =
        E (ph.vaddr + i)) := by
  have hlen : ((file.drop off).take ph.filesz).length = ph.filesz := by
    rw [List.length_take, List.length_drop]
    by_cases hpos : 0 < ph.filesz
    · have := hfile hpos
      omega
    · omega
  refine ⟨?_, ?_⟩
  · intro hi
    have := hfile (by omega)
    rw [overlay, hlen, if_pos (by omega), Nat.add_sub_cancel_left, List.getD_eq_getElem?_getD,
      List.getElem?_take_of_lt hi, List.getElem?_drop, List.getElem?_eq_getElem (by omega),
      Option.getD_some]
  · intro hi
    rw [overlay, hlen, if_neg (by omega)]

/-! ### `exec` -/

theorem shows_empty (m : Mem) (pt : Nat) : Shows m pt 0 0 :=
  ⟨fun va hva ↦ absurd hva (by rw [Nat.zero_mul]; exact Nat.not_lt_zero va), fun _ _ ↦ rfl⟩

/-- The table of headers is read at its offset, if that fits in 32 bits. -/
theorem headers_truncated (h : OffsetsFit file) :
    headers file ((elfhdr file).phoff % 2 ^ 32) (elfhdr file).phnum = programHeaders file := by
  rw [programHeaders]
  by_cases hpos : 0 < (elfhdr file).phnum
  · rw [Nat.mod_eq_of_lt (h.table hpos)]
  · have hzero : (elfhdr file).phnum = 0 := by omega
    rw [hzero, headers, headers]

/-- What the loop over the headers has made of the file. -/
theorem AllLoaded.describes {m₁ : Mem} {new sz sz' : Nat} {img : Nat → UInt8}
    (hfits : OffsetsFit file) (happart : (loadHeaders file).Pairwise Proghdr.Apart)
    (h : AllLoaded m₁ m new 0 sz file ((elfhdr file).phoff % 2 ^ 32) (elfhdr file).phnum)
    (hsz : pages sz * PGSIZE ≤ sz')
    (himg : ∀ va < pages sz * PGSIZE, img va = image m.cells new va) :
    Describes file img sz' := by
  have hheaders := headers_truncated hfits
  have hall := h.fits
  have hshows := h.shows 0 (by rw [pages_zero]; exact shows_empty m₁ new)
  have hle := pages_le.mp (Nat.le_refl (pages sz))
  rw [hheaders] at hall hshows
  have hfit {ph : Proghdr} (hph : ph ∈ loadHeaders file) : ph ∈ programHeaders file ∧
      ph.type = ELF_PROG_LOAD ∧ Fits file sz ph := by
    obtain ⟨hmem, htype⟩ := List.mem_filter.mp hph
    have htype := of_decide_eq_true htype
    exact ⟨hmem, htype, hall ph hmem htype⟩
  -- the byte of a segment, before the stack is there
  have hbyte {ph : Proghdr} (hph : ph ∈ loadHeaders file) {i : Nat} (hi : i < ph.memsz) :
      img (ph.vaddr + i) = overlay 0 ph.vaddr ((file.drop (ph.off % 2 ^ 32)).take ph.filesz)
        (ph.vaddr + i) := by
    obtain ⟨hmem, htype, hf⟩ := hfit hph
    have := hf.memory
    rw [himg _ (by omega), hshows.bytes _ (by omega), places_of_mem hmem htype happart
      (fun x hx hxt ↦ (hall x hx hxt).filesz) (by omega) (by omega), place, if_pos htype]
  refine ⟨?_, ?_, ?_, ?_⟩
  · intro hpos
    have htable := h.table hpos
    rw [Nat.mod_eq_of_lt (hfits.table hpos)] at htable
    exact htable
  · intro ph hph
    have := (hfit hph).2.2.memory
    omega
  · intro ph hph i hi
    have hf := (hfit hph).2.2
    have hsize := hf.filesz
    rw [hbyte hph (by omega)]
    have hoff := Nat.mod_eq_of_lt (hfits.segments ph hph (by omega))
    have hin := hf.file
    rw [hoff] at hin ⊢
    exact (overlay_segment hin).1 hi
  · intro ph hph i hlo hhi
    rw [hbyte hph hhi]
    exact (overlay_segment (hfit hph).2.2.file).2 hlo

/-- When `exec` succeeds, the image is the one that the headers describe if and only if the
offsets in them fit in 32 bits. -/
theorem exec_describes_iff {it it' : Inodes} {ip new sz' argc : Nat} {argv : List Nat}
    (h : Shape k m pr)
    (hfile : file.length < 2 ^ 32) (happart : (loadHeaders file).Pairwise Proghdr.Apart)
    (hexec : exec k m it pr.pagetable pr.sz pr.trapframe (some (ip, file)) argv =
      .ok (some (new, sz', argc), it', m')) :
    Describes file (image m'.cells new) sz' ↔ OffsetsFit file := by
  have hs : Sound k m 0 := h.sound.mono (fun _ ↦ Nat.zero_le _)
  have htf : pr.trapframe < 2 ^ 52 := Nat.lt_trans h.trapframe_lt (by decide)
  constructor
  · intro hd
    refine ⟨?_, ?_⟩
    · intro hpos
      have := hd.table hpos
      omega
    · intro ph hph hpos
      have hbyte := hd.bytes ph hph 0 hpos
      have := (List.getElem?_eq_some_iff.mp hbyte).1
      omega
  · intro hfits
    obtain ⟨-, ip', bytes, m₁, sz, m₂, heq, hload, hrep⟩ :=
      (exec_spec h it (some (ip, file)) argv).elim hexec
    cases heq
    have hloaded :
        AllLoaded m₁ m₂ new 0 sz file ((elfhdr file).phoff % 2 ^ 32) (elfhdr file).phnum :=
      (hload.space hs htf).loaded.loaded rfl hfile (Nat.mod_lt _ (by decide))
    refine hloaded.describes hfits happart ?_ hrep.same
    have hsize : sz' = (pages sz + 2) * PGSIZE := hrep.size
    rw [hsize]
    exact Nat.mul_le_mul_right _ (by omega)

end

/-- The first process executes the small program. -/
theorem tinyElf_exec (wrap : Bool) : ∃ s new sz' argc it' m',
    userinit builtKernel (beforeUserinit builtKernel 0) = .ok s ∧
    Shape builtKernel (s.failing []).mem (s.procs initSlot) ∧
    exec builtKernel (s.failing []).mem s.inodes (s.procs initSlot).pagetable (s.procs initSlot).sz
      (s.procs initSlot).trapframe (some (1, tinyElf wrap)) [] =
      .ok (some (new, sz', argc), it', m') := by
  obtain ⟨s, hs, hshape, -, hfirst⟩ := builtKernel_userinit
  have hfree : 100 ≤ (s.failing []).mem.free.length := hfirst.free
  have hshape : Shape builtKernel (s.failing []).mem (s.procs initSlot) := hshape.heap rfl
  have htf : (s.procs initSlot).trapframe < 2 ^ 52 := Nat.lt_trans hshape.trapframe_lt (by decide)
  have hs₀ : Sound builtKernel (s.failing []).mem 0 := hshape.sound.mono (fun _ ↦ Nat.zero_le _)
  obtain ⟨new, m₁, m₂, sz1, m₃, hload, hstack⟩ := tinyElf_ready wrap hs₀ htf rfl (by omega)
  have hargs : Sound builtKernel (s.failing []).mem
      ((s.procs initSlot).hold (s.failing []).mem.cells + argPages []) := by
    rw [argPages_nil, add_zero]
    exact hshape.sound
  obtain ⟨-, ⟨r, it', m'⟩, hexec, hiff, -⟩ := hload.exec_layout hshape hargs (by decide)
    (fun a ha ↦ absurd ha List.not_mem_nil) hstack s.inodes 1
  cases r with
  | none =>
    rw [List.map_nil] at hiff
    exact absurd (hiff.mpr (by decide)) Bool.false_ne_true
  | some r =>
    obtain ⟨pt, sz', argc⟩ := r
    exact ⟨s, pt, sz', argc, it', m', hs, hshape, hexec⟩

theorem tinyElf_loadHeaders (wrap : Bool) : loadHeaders (tinyElf wrap) = [tinyHeader wrap] := by
  cases wrap <;> decide +kernel

/-- The small program with the offset 0 is loaded as its header says. -/
theorem exec_describes_iff_tiny : ∃ s new sz' argc it' m',
    userinit builtKernel (beforeUserinit builtKernel 0) = .ok s ∧
    exec builtKernel (s.failing []).mem s.inodes (s.procs initSlot).pagetable (s.procs initSlot).sz
      (s.procs initSlot).trapframe (some (1, tinyElf false)) [] =
      .ok (some (new, sz', argc), it', m') ∧
    Describes (tinyElf false) (image m'.cells new) sz' := by
  obtain ⟨s, new, sz', argc, it', m', hs, hshape, hexec⟩ := tinyElf_exec false
  refine ⟨s, new, sz', argc, it', m', hs, hexec,
    (exec_describes_iff hshape (by decide +kernel) ?_ hexec).mpr ?_⟩
  · rw [tinyElf_loadHeaders]
    exact List.pairwise_singleton ..
  · refine ⟨fun _ ↦ by decide +kernel, ?_⟩
    intro ph hph _
    rw [tinyElf_loadHeaders] at hph
    rw [List.mem_singleton.mp hph]
    decide

/-- `exec` loads the segment at offset `2 ^ 32` from the start of the file, which is shorter. -/
theorem exec_wrapped_offset : ∃ s new sz' argc it' m',
    userinit builtKernel (beforeUserinit builtKernel 0) = .ok s ∧
    exec builtKernel (s.failing []).mem s.inodes (s.procs initSlot).pagetable (s.procs initSlot).sz
      (s.procs initSlot).trapframe (some (1, tinyElf true)) [] =
      .ok (some (new, sz', argc), it', m') ∧
    (loadHeaders (tinyElf true)).Pairwise Proghdr.Apart ∧
    ¬ Describes (tinyElf true) (image m'.cells new) sz' := by
  obtain ⟨s, new, sz', argc, it', m', hs, -, hexec⟩ := tinyElf_exec true
  refine ⟨s, new, sz', argc, it', m', hs, hexec, ?_, ?_⟩
  · rw [tinyElf_loadHeaders]
    exact List.pairwise_singleton ..
  · intro hd
    have hbyte :=
      hd.bytes (tinyHeader true) (by rw [tinyElf_loadHeaders]; exact List.mem_cons_self) 0
      Nat.one_pos
    have hlt := (List.getElem?_eq_some_iff.mp hbyte).1
    have hlen : (tinyElf true).length = 120 := by decide +kernel
    have hoff : (tinyHeader true).off + 0 = 2 ^ 32 := rfl
    rw [hlen, hoff] at hlt
    exact absurd hlt (by decide)

end Xv6.Vm
