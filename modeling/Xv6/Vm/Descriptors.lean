import Xv6.Vm.Owners

/-!
# Descriptors, files and pipes

A file has a reference for each descriptor that refers to it, and for each that a call has in hand.
An end of a pipe is open if it has a file, and each end has one file at most. So the page of a pipe
is given back with the last reference to its second end, and only then.
-/

namespace Xv6.Vm

open Xv6.Lib

/-- Is this end open? -/
def Pipe.isOpen (pp : Pipe) (writable : Bool) : Bool :=
  if writable then pp.writeopen else pp.readopen

/-- File `f` is this end of the pipe on page `pi`. -/
def State.IsEnd (s : State) (f : Fin NFILE) (pi : Nat) (writable : Bool) : Prop :=
  (s.files f).type = .FD_PIPE pi ∧ (s.files f).writable = writable

/-- The descriptors that refer to a file. -/
def State.fds (s : State) (f : Fin NFILE) : Nat :=
  ∑ p, refsTo (s.procs p).ofile (List.finRange NOFILE) f

/-- The file table agrees with the descriptors and the pipes, when a call has the references `held`
in hand. -/
structure FilesOk (s : State) (held : Fin NFILE → Nat) : Prop where
  refs : ∀ f, (s.files f).ref = s.fds f + held f
  closed : ∀ f, (s.files f).ref = 0 → (s.files f).type = .FD_NONE
  ends : ∀ pi w, (s.pipes pi).isOpen w = true ↔ ∃ f, s.IsEnd f pi w
  alone : ∀ f g pi w, s.IsEnd f pi w → s.IsEnd g pi w → f = g

section
variable {k : Kernel} {s s' : State} {held held' : Fin NFILE → Nat} {f : Fin NFILE} {p : Slot}
  {pr : Proc}

theorem openPipes_eq (s : State) (q : Nat) :
    s.openPipes q = if ∃ w, (s.pipes q).isOpen w = true then 1 else 0 := by
  have hiff : (∃ w, (s.pipes q).isOpen w = true) ↔
      (s.pipes q).readopen = true ∨ (s.pipes q).writeopen = true := by
    rw [Bool.exists_bool]
    rfl
  unfold State.openPipes
  simp only [hiff]

/-- Only the descriptors, the files and the pipes count. -/
theorem FilesOk.congr (h : FilesOk s held) (hofile : ∀ o, (s'.procs o).ofile = (s.procs o).ofile)
    (hfiles : s'.files = s.files) (hpipes : s'.pipes = s.pipes) : FilesOk s' held := by
  have hfds : ∀ f, s'.fds f = s.fds f := by
    intro f
    apply Finset.sum_congr rfl
    intro o _
    rw [hofile o]
  refine ⟨?_, ?_, ?_, ?_⟩
  · intro f
    rw [hfiles, hfds]
    exact h.refs f
  · rw [hfiles]
    exact h.closed
  · intro pi w
    rw [hpipes]
    simp only [State.IsEnd, hfiles]
    exact h.ends pi w
  · simp only [State.IsEnd, hfiles]
    exact h.alone

/-! ### Descriptors -/

theorem refsTo_eq_hits (ofile : Fin NOFILE → Option (Fin NFILE)) (f : Fin NFILE) :
    refsTo ofile (List.finRange NOFILE) f = hits ofile (some f) :=
  countP_finRange ofile (some f)

theorem fds_pos {fd : Fin NOFILE} (h : (s.procs p).ofile fd = some f) : 0 < s.fds f := by
  have hpos : 0 < refsTo (s.procs p).ofile (List.finRange NOFILE) f := by
    rw [refsTo_eq_hits]
    exact hits_pos_iff.mpr ⟨fd, h⟩
  have hle := le_sum (fun o ↦ refsTo (s.procs o).ofile (List.finRange NOFILE) f) p
  exact Nat.lt_of_lt_of_le hpos hle

theorem FilesOk.ref_pos (h : FilesOk s held) {fd : Fin NOFILE}
    (hfd : (s.procs p).ofile fd = some f) :
    1 ≤ (s.files f).ref := by
  rw [h.refs]
  have := fds_pos hfd
  omega

/-- The references of a process that gets other descriptors. -/
theorem fds_setProc (s : State) (p : Slot) (pr : Proc) (f : Fin NFILE) :
    (s.setProc p pr).fds f + hits (s.procs p).ofile (some f) =
      s.fds f + hits pr.ofile (some f) := by
  have hsum :=
    sum_add_of_eq_off
    (f := fun o ↦ refsTo ((s.setProc p pr).procs o).ofile (List.finRange NOFILE) f)
    (g := fun o ↦ refsTo (s.procs o).ofile (List.finRange NOFILE) f) p (by
      intro o ho
      rw [State.setProc_procs, Function.update_of_ne ho])
  simp only [State.setProc_procs, Function.update_self, refsTo_eq_hits] at hsum
  simp only [State.fds, State.setProc_procs, refsTo_eq_hits]
  exact hsum

/-- References move between the descriptors of a process and the hand. -/
theorem FilesOk.setProc (h : FilesOk s held)
    (hmove : ∀ f, hits pr.ofile (some f) + held' f = hits (s.procs p).ofile (some f) + held f) :
    FilesOk (s.setProc p pr) held' := by
  refine ⟨?_, h.closed, h.ends, h.alone⟩
  intro f
  have h₁ := fds_setProc s p pr f
  have h₂ := hmove f
  have h₃ := h.refs f
  change (s.files f).ref = _
  omega

theorem hits_setFd (pr : Proc) (fd : Fin NOFILE) (o : Option (Fin NFILE)) (g : Fin NFILE) :
    hits (pr.setFd fd o).ofile (some g) + (if pr.ofile fd = some g then 1 else 0) =
      hits pr.ofile (some g) + if o = some g then 1 else 0 := by
  have hoff := hits_of_eq_off (f := (pr.setFd fd o).ofile) (g := pr.ofile) fd
    (fun fd' hne ↦ Function.update_of_ne hne _ _) (some g)
  rw [show (pr.setFd fd o).ofile fd = o from Function.update_self ..] at hoff
  exact hoff

theorem one_eq_ite (f g : Fin NFILE) : one f g = if some f = some g then 1 else 0 := by
  unfold one
  simp only [Option.some.injEq, eq_comm]

/-- A descriptor is taken away, and its reference is in hand. -/
theorem FilesOk.uninstall (h : FilesOk s held) {fd : Fin NOFILE}
    (hfd : (s.procs p).ofile fd = some f) :
    FilesOk (s.setProc p ((s.procs p).setFd fd none)) (held + one f) := by
  apply h.setProc
  intro g
  have hset := hits_setFd (s.procs p) fd none g
  rw [hfd, if_neg (fun he : none = some g ↦ nomatch he), ← one_eq_ite] at hset
  rw [Pi.add_apply]
  omega

/-! ### Files -/

theorem setFile_apply (s : State) (f : Fin NFILE) (ff : File) (g : Fin NFILE) :
    (s.setFile f ff).files g = if g = f then ff else s.files g := Function.update_apply ..

/-- Another reference count of a file, which stays open. -/
theorem FilesOk.setRef (h : FilesOk s held) {n : Nat} (hn : n ≠ 0) (hself : n = s.fds f + held' f)
    (hother : ∀ g, g ≠ f → held' g = held g) :
    FilesOk (s.setFile f { s.files f with ref := n }) held' := by
  have hend : ∀ g pi w, (s.setFile f { s.files f with ref := n }).IsEnd g pi w ↔
      s.IsEnd g pi w := by
    intro g pi w
    simp only [State.IsEnd, setFile_apply]
    split
    · next heq => rw [heq]
    · exact Iff.rfl
  refine ⟨?_, ?_, ?_, ?_⟩
  · intro g
    change ((s.setFile f { s.files f with ref := n }).files g).ref = s.fds g + held' g
    rw [setFile_apply]
    split
    · next heq => rw [heq, hself]
    · next hne => rw [hother g hne, h.refs]
  · intro g
    rw [setFile_apply]
    split
    · intro hzero
      exact absurd hzero hn
    · exact h.closed g
  · intro pi w
    simp only [hend]
    exact h.ends pi w
  · simp only [hend]
    exact h.alone

/-- A file that is the end of no pipe. -/
theorem IsEnd.none {pi : Nat} {w : Bool} (h : (s.files f).type = .FD_NONE) : ¬ s.IsEnd f pi w := by
  rintro ⟨htype, -⟩
  rw [h] at htype
  cases htype

/-- `filealloc` hands out a file with one reference. -/
theorem FilesOk.filealloc (h : FilesOk s held) (hl : filealloc s = (some f, s')) :
    FilesOk s' (held + one f) ∧ s' = s.setFile f { s.files f with ref := 1 } ∧
      (s.files f).ref = 0 := by
  unfold Vm.filealloc at hl
  split at hl
  · cases hl
  · next g hfree =>
    cases hl
    have hzero : (s.files f).ref = 0 := by
      have hp := List.find?_some hfree
      simpa using hp
    refine ⟨?_, rfl, hzero⟩
    have hrefs := h.refs f
    apply h.setRef (by decide)
    · rw [Pi.add_apply, one_self]
      omega
    · intro g hg
      rw [Pi.add_apply, one_of_ne hg, Nat.add_zero]

/-! ### Closing -/

/-- What closing files does to the rest of the state. -/
structure ClosedFiles (s s' : State) : Prop where
  procs : s'.procs = s.procs
  early : s'.early = s.early
  moves : Moves s.mem.toHeap s'.mem.toHeap s.openPipes s'.openPipes

theorem ClosedFiles.trans {s'' : State} (h : ClosedFiles s s') (h' : ClosedFiles s' s'') :
    ClosedFiles s s'' :=
  ⟨h'.procs.trans h.procs, h'.early.trans h.early, h.moves.trans h'.moves⟩

/-- The pipe with one end closed. -/
def Pipe.closeEnd (pp : Pipe) (writable : Bool) : Pipe :=
  if writable then { pp with writeopen := false } else { pp with readopen := false }

theorem isOpen_closeEnd (pp : Pipe) (w w' : Bool) :
    (pp.closeEnd w).isOpen w' = if w' = w then false else pp.isOpen w' := by
  cases w <;> cases w' <;> rfl

/-- Closing one end of a pipe. -/
def State.closeEnd (s : State) (pi : Nat) (w : Bool) : State :=
  { s with pipes := Function.update s.pipes pi ((s.pipes pi).closeEnd w) }

theorem closeEnd_isOpen (s : State) (pi q : Nat) (w w' : Bool) :
    ((s.closeEnd pi w).pipes q).isOpen w' =
      if q = pi ∧ w' = w then false else (s.pipes q).isOpen w' := by
  by_cases hq : q = pi
  · rw [hq]
    simp only [State.closeEnd, Function.update_self, isOpen_closeEnd, true_and]
  · simp only [State.closeEnd, Function.update_of_ne hq, hq, false_and, if_false]

/-- The page of a pipe is not the pipe's any more when its second end is closed. -/
theorem openPipes_closeEnd {pi : Nat} {w : Bool} (hopen : (s.pipes pi).isOpen w = true) :
    s.openPipes = (s.closeEnd pi w).openPipes +
      if (s.pipes pi).isOpen (!w) = true then 0 else one pi := by
  have hother : ∀ w', w' ≠ w → w' = !w := by
    intro w' hne
    cases w <;> cases w' <;> simp_all
  funext q
  rw [Pi.add_apply, openPipes_eq, openPipes_eq]
  simp only [closeEnd_isOpen]
  by_cases hq : q = pi
  · subst hq
    rw [if_pos ⟨w, hopen⟩]
    by_cases hleft : (s.pipes q).isOpen (!w) = true
    · rw [if_pos hleft, if_pos ⟨!w, by rw [if_neg (by simp)]; exact hleft⟩]
      rfl
    · rw [if_neg hleft, one_self, if_neg]
      rintro ⟨w', hw'⟩
      split at hw'
      · cases hw'
      · next hne =>
        rw [hother w' (fun he ↦ hne ⟨rfl, he⟩)] at hw'
        exact hleft hw'
  · have hzero : (if (s.pipes pi).isOpen (!w) = true then 0 else one pi : Nat → Nat) q = 0 := by
      split
      · rfl
      · exact one_of_ne hq
    simp only [hq, false_and, if_false, hzero, Nat.add_zero]

theorem pipeclose_eq (k : Kernel) (s : State) (pi : Nat) (w : Bool) :
    pipeclose k s pi w =
      if ((s.pipes pi).closeEnd w).readopen = false ∧
      ((s.pipes pi).closeEnd w).writeopen = false then
        kfree k s.mem pi >>= fun m ↦ pure { s.closeEnd pi w with mem := m }
      else .ok (s.closeEnd pi w) := rfl

theorem pipeclose_spec {pi : Nat} {w : Bool} (hs : Sound k s.mem s.openPipes)
    (hopen : (s.pipes pi).isOpen w = true) :
    Returns (pipeclose k s pi w) (fun s' ↦
      s'.pipes = (s.closeEnd pi w).pipes ∧ s'.files = s.files ∧ ClosedFiles s s') := by
  have heq := openPipes_closeEnd hopen
  have hlast :
      (((s.pipes pi).closeEnd w).readopen = false ∧ ((s.pipes pi).closeEnd w).writeopen = false) ↔
      ¬ (s.pipes pi).isOpen (!w) = true := by
    cases w <;> simp [Pipe.closeEnd, Pipe.isOpen]
  rw [pipeclose_eq]
  split
  · next hboth =>
    rw [if_neg (hlast.mp hboth)] at heq
    rw [heq] at hs
    apply (kfree_spec hs).bind
    rintro m ⟨hm, -⟩
    refine Returns.pure ⟨rfl, rfl, rfl, rfl, ?_⟩
    rw [heq]
    exact hm
  · next hone =>
    have hleft : (s.pipes pi).isOpen (!w) = true := by
      by_contra hno
      exact hone (hlast.mpr hno)
    rw [if_pos hleft, add_zero] at heq
    refine Returns.ok ⟨rfl, rfl, rfl, rfl, ?_⟩
    rw [heq]
    exact Moves.refl _ _

/-- The file loses its last reference, with the flags of its pipe as `hpipes` says. -/
theorem FilesOk.unref (h : FilesOk s (held + one f)) (hlast : (s.files f).ref = 1)
    (hfds : s'.procs = s.procs)
    (hfiles : s'.files = (s.setFile f { s.files f with ref := 0, type := .FD_NONE }).files)
    (hpipes : ∀ pi w, (s'.pipes pi).isOpen w = true ↔
      (s.pipes pi).isOpen w = true ∧ ¬ s.IsEnd f pi w) :
    FilesOk s' held := by
  have hother : ∀ g pi w, s'.IsEnd g pi w ↔ g ≠ f ∧ s.IsEnd g pi w := by
    intro g pi w
    simp only [State.IsEnd, hfiles, setFile_apply]
    split
    · next heq =>
      constructor
      · rintro ⟨htype, -⟩
        cases htype
      · rintro ⟨hne, -⟩
        exact absurd heq hne
    · next hne => exact ⟨fun he ↦ ⟨hne, he⟩, fun he ↦ he.2⟩
  refine ⟨?_, ?_, ?_, ?_⟩
  · intro g
    have hrefs := h.refs g
    rw [Pi.add_apply] at hrefs
    rw [hfiles, setFile_apply, State.fds, hfds]
    change _ = s.fds g + held g
    split
    · next heq =>
      rw [heq, one_self] at hrefs
      rw [heq]
      change 0 = _
      omega
    · next hne =>
      rw [one_of_ne hne] at hrefs
      exact hrefs
  · intro g
    rw [hfiles, setFile_apply]
    split
    · intro _
      rfl
    · exact h.closed g
  · intro pi w
    rw [hpipes, h.ends]
    simp only [hother]
    constructor
    · rintro ⟨⟨g, hg⟩, hf⟩
      exact ⟨g, (fun heq ↦ hf (heq ▸ hg)), hg⟩
    · rintro ⟨g, hne, hg⟩
      exact ⟨⟨g, hg⟩, fun hf ↦ hne (h.alone g f pi w hg hf)⟩
  · intro g g' pi w hg hg'
    exact h.alone g g' pi w ((hother g pi w).mp hg).2 ((hother g' pi w).mp hg').2

/-- `fileclose` of a file in hand. -/
theorem fileclose_spec (h : FilesOk s (held + one f)) (hs : Sound k s.mem s.openPipes) :
    Returns (fileclose k s f) (fun s' ↦ FilesOk s' held ∧ ClosedFiles s s') := by
  have hrefs := h.refs f
  rw [Pi.add_apply, one_self] at hrefs
  unfold fileclose
  dsimp only
  rw [if_neg (by omega)]
  split
  · next hmore =>
    refine Returns.ok ⟨?_, rfl, rfl, Moves.refl _ _⟩
    apply h.setRef (by omega) (by omega)
    intro g hg
    rw [Pi.add_apply, one_of_ne hg, Nat.add_zero]
  · next hlast =>
    have hone : (s.files f).ref = 1 := by omega
    split
    · next pi htype =>
      have hend : s.IsEnd f pi (s.files f).writable := ⟨htype, rfl⟩
      have hopen := (h.ends pi (s.files f).writable).mpr ⟨f, hend⟩
      have hclose := pipeclose_spec
        (s := s.setFile f { s.files f with ref := 0, type := .FD_NONE }) hs hopen
      apply hclose.mono
      rintro s' ⟨hpipes, hfiles, hclosed⟩
      refine ⟨h.unref hone hclosed.procs hfiles ?_, hclosed.procs, hclosed.early, hclosed.moves⟩
      intro q w
      have hiff : q = pi ∧ w = (s.files f).writable ↔ s.IsEnd f q w := by
        rw [State.IsEnd, htype, FdType.FD_PIPE.injEq]
        exact ⟨fun he ↦ ⟨he.1.symm, he.2.symm⟩, fun he ↦ ⟨he.1.symm, he.2.symm⟩⟩
      rw [hpipes]
      change ((s.closeEnd pi (s.files f).writable).pipes q).isOpen w = true ↔ _
      rw [closeEnd_isOpen]
      by_cases hf : s.IsEnd f q w
      · rw [if_pos (hiff.mpr hf)]
        exact ⟨(fun he ↦ nomatch he), (fun he ↦ absurd hf he.2)⟩
      · rw [if_neg (mt hiff.mp hf)]
        exact ⟨fun he ↦ ⟨he, hf⟩, fun he ↦ he.1⟩
    · next htype =>
      refine Returns.ok ⟨h.unref hone rfl rfl ?_, rfl, rfl, Moves.refl _ _⟩
      intro pi w
      exact ⟨fun he ↦ ⟨he, IsEnd.none htype⟩, fun he ↦ he.1⟩

theorem ClosedFiles.sound (h : ClosedFiles s s') (hs : Sound k s.mem s.openPipes) :
    Sound k s'.mem s'.openPipes :=
  hs.moves h.moves

theorem closeBoth_spec {f g : Fin NFILE} (h : FilesOk s (held + one g + one f))
    (hs : Sound k s.mem s.openPipes) :
    Returns (closeBoth k s f g) (fun s' ↦ FilesOk s' held ∧ ClosedFiles s s') := by
  apply (fileclose_spec h hs).bind
  rintro s₁ ⟨h₁, hc₁⟩
  apply (fileclose_spec h₁ (hc₁.sound hs)).mono
  rintro s₂ ⟨h₂, hc₂⟩
  exact ⟨h₂, hc₁.trans hc₂⟩

/-! ### Pipes -/

/-- The pipe on page `pi` with its two files; `kernel/pipe.c:36–49`. -/
def State.openPipe (s : State) (m : Mem) (pi : Nat) (f0 f1 : Fin NFILE) : State :=
  let pipes := Function.update s.pipes pi { readopen := true, writeopen := true }
  let s := { s with mem := m, pipes := pipes }
  let s := s.setFile f0 { s.files f0 with type := .FD_PIPE pi, readable := true, writable := false }
  s.setFile f1 { s.files f1 with type := .FD_PIPE pi, readable := false, writable := true }

theorem openPipe_files {m : Mem} {pi : Nat} {f0 f1 : Fin NFILE} (hne : f0 ≠ f1) (g : Fin NFILE) :
    (s.openPipe m pi f0 f1).files g =
      if g = f1 then { s.files f1 with type := .FD_PIPE pi, readable := false, writable := true }
      else if g = f0 then
        { s.files f0 with type := .FD_PIPE pi, readable := true, writable := false }
      else s.files g := by
  simp only [State.openPipe, setFile_apply, if_neg hne.symm]

/-- The ends of the new pipe are its two files, and those of the others stay what they are. -/
theorem openPipe_isEnd {m : Mem} {pi : Nat} {f0 f1 : Fin NFILE} (hne : f0 ≠ f1)
    (h0 : (s.files f0).type = .FD_NONE) (h1 : (s.files f1).type = .FD_NONE)
    (hpi : ∀ g w, ¬ s.IsEnd g pi w) (g : Fin NFILE) (q : Nat) (w : Bool) :
    (s.openPipe m pi f0 f1).IsEnd g q w ↔
      if q = pi then g = (if w then f1 else f0) else s.IsEnd g q w := by
  rw [State.IsEnd, openPipe_files hne]
  by_cases hg1 : g = f1
  · subst hg1
    have hno : ¬ s.IsEnd g q w := IsEnd.none h1
    rw [if_pos rfl]
    by_cases hq : q = pi
    · cases w <;> simp [hq, hne.symm]
    · simp [hq, hno, Ne.symm hq]
  · rw [if_neg hg1]
    by_cases hg0 : g = f0
    · subst hg0
      have hno : ¬ s.IsEnd g q w := IsEnd.none h0
      rw [if_pos rfl]
      by_cases hq : q = pi
      · cases w <;> simp [hq, hne]
      · simp [hq, hno, Ne.symm hq]
    · rw [if_neg hg0]
      by_cases hq : q = pi
      · have hno := hpi g w
        rw [State.IsEnd] at hno
        rw [if_pos hq, hq]
        cases w <;> simp [hno, hg0, hg1]
      · rw [if_neg hq]
        exact Iff.rfl

theorem FilesOk.openPipe {m : Mem} {pi : Nat} {f0 f1 : Fin NFILE} (h : FilesOk s held)
    (hne : f0 ≠ f1) (h0 : (s.files f0).type = .FD_NONE) (h1 : (s.files f1).type = .FD_NONE)
    (hr0 : (s.files f0).ref ≠ 0) (hr1 : (s.files f1).ref ≠ 0)
    (hpi : ∀ w, (s.pipes pi).isOpen w = false) : FilesOk (s.openPipe m pi f0 f1) held := by
  have hno : ∀ g w, ¬ s.IsEnd g pi w := by
    intro g w hg
    have hopen := (h.ends pi w).mpr ⟨g, hg⟩
    rw [hpi] at hopen
    cases hopen
  have hend := openPipe_isEnd (m := m) hne h0 h1 hno
  refine ⟨?_, ?_, ?_, ?_⟩
  · intro g
    change ((s.openPipe m pi f0 f1).files g).ref = s.fds g + held g
    rw [← h.refs, openPipe_files hne]
    split
    · next heq => rw [heq]
    · split
      · next heq => rw [heq]
      · rfl
  · intro g
    rw [openPipe_files hne]
    split
    · exact fun hzero ↦ absurd hzero hr1
    · split
      · exact fun hzero ↦ absurd hzero hr0
      · exact h.closed g
  · intro q w
    simp only [hend]
    change (Function.update s.pipes pi { readopen := true, writeopen := true } q).isOpen w =
        true ↔ _
    by_cases hq : q = pi
    · subst hq
      rw [Function.update_self]
      cases w <;> simp [Pipe.isOpen]
    · rw [Function.update_of_ne hq, h.ends]
      simp only [hq, if_false]
  · intro g g' q w hg hg'
    rw [hend] at hg hg'
    split at hg
    · next hq =>
      rw [if_pos hq] at hg'
      exact hg.trans hg'.symm
    · next hq =>
      rw [if_neg hq] at hg'
      exact h.alone g g' q w hg hg'

/-- A new pipe owns its page. -/
theorem openPipes_openPipe {m : Mem} {pi : Nat} {f0 f1 : Fin NFILE}
    (hpi : s.openPipes pi = 0) : (s.openPipe m pi f0 f1).openPipes = s.openPipes + one pi := by
  funext q
  rw [Pi.add_apply]
  change (if
    (Function.update s.pipes pi { readopen := true, writeopen := true } q).readopen = true ∨
    (Function.update s.pipes pi { readopen := true, writeopen := true } q).writeopen = true
    then 1 else 0) = _
  by_cases hq : q = pi
  · subst hq
    rw [Function.update_self, one_self, hpi]
    rfl
  · rw [Function.update_of_ne hq, one_of_ne hq]
    rfl

theorem filealloc_none (hl : filealloc s = (none, s')) : s' = s := by
  unfold filealloc at hl
  split at hl
  · cases hl
    rfl
  · cases hl

theorem isOpen_of_openPipes {pi : Nat} (h : s.openPipes pi = 0) (w : Bool) :
    (s.pipes pi).isOpen w = false := by
  rw [openPipes_eq] at h
  split at h
  · cases h
  · next hno =>
    rw [not_exists] at hno
    exact Bool.eq_false_iff.mpr (hno w)

/-- What `pipealloc` leaves: the two files of a pipe in hand, or everything as before. -/
def PipeResult (s : State) (r : Option (Fin NFILE × Fin NFILE) × State) : Prop :=
  ClosedFiles s r.2 ∧
    match r.1 with
    | none => FilesOk r.2 0
    | some (f0, f1) => FilesOk r.2 (0 + one f1 + one f0)

/-- `pipealloc` with its two files in hand. -/
theorem pipealloc_page {m : Mem} {pi : Nat} {f0 f1 : Fin NFILE} (h : FilesOk s held)
    (hs : Sound k s.mem s.openPipes) (hne : f0 ≠ f1)
    (h0 : (s.files f0).type = .FD_NONE) (h1 : (s.files f1).type = .FD_NONE)
    (hr0 : (s.files f0).ref ≠ 0) (hr1 : (s.files f1).ref ≠ 0) (hk : kalloc s.mem = (some pi, m)) :
    FilesOk (s.openPipe m pi f0 f1) held ∧ ClosedFiles s (s.openPipe m pi f0 f1) := by
  have hpi : s.openPipes pi = 0 := (kalloc_fresh hk hs).1
  refine ⟨h.openPipe hne h0 h1 hr0 hr1 (isOpen_of_openPipes hpi), rfl, rfl, ?_⟩
  rw [openPipes_openPipe hpi]
  exact kalloc_moves hk rfl (fun _ _ ↦ rfl) _

theorem pipealloc_spec (h : FilesOk s 0) (hs : Sound k s.mem s.openPipes) :
    Returns (pipealloc k s) (PipeResult s) := by
  have hidle : ClosedFiles s s := ⟨rfl, rfl, Moves.refl _ _⟩
  unfold pipealloc
  split
  · next s₁ hl =>
    rw [filealloc_none hl]
    exact Returns.ok ⟨hidle, h⟩
  · next f0 s₁ hl₀ =>
    obtain ⟨h₁, rfl, hzero₀⟩ := h.filealloc hl₀
    have htype₀ := h.closed f0 hzero₀
    generalize hs₁ : s.setFile f0 { s.files f0 with ref := 1 } = s₁ at h₁ ⊢
    have hfile₀ : s₁.files f0 = { s.files f0 with ref := 1 } := by
      rw [← hs₁, setFile_apply, if_pos rfl]
    have hc₁ : ClosedFiles s s₁ := by
      rw [← hs₁]
      exact ⟨rfl, rfl, Moves.refl _ _⟩
    split
    · next s₂ hl₁ =>
      rw [filealloc_none hl₁]
      apply (fileclose_spec h₁ (hc₁.sound hs)).bind
      rintro s₃ ⟨h₃, hc₃⟩
      exact Returns.pure ⟨hc₁.trans hc₃, h₃⟩
    · next f1 s₂ hl₁ =>
      obtain ⟨h₂, rfl, hzero₁⟩ := h₁.filealloc hl₁
      have htype₁ := h₁.closed f1 hzero₁
      have hne : f0 ≠ f1 := by
        rintro rfl
        rw [hfile₀] at hzero₁
        cases hzero₁
      generalize hs₂ : s₁.setFile f1 { s₁.files f1 with ref := 1 } = s₂ at h₂ ⊢
      have hfile₁ : s₂.files f1 = { s₁.files f1 with ref := 1 } := by
        rw [← hs₂, setFile_apply, if_pos rfl]
      have hfile₀' : s₂.files f0 = s₁.files f0 := by
        rw [← hs₂, setFile_apply, if_neg hne]
      have hc₂ : ClosedFiles s s₂ := by
        rw [← hs₂]
        exact ⟨hc₁.procs, hc₁.early, hc₁.moves⟩
      rw [add_right_comm] at h₂
      split
      · next m hk =>
        have hmem := kalloc_none hk
        have hc₃ : ClosedFiles s { s₂ with mem := m } := by
          refine ⟨hc₂.procs, hc₂.early, ?_⟩
          change Moves s.mem.toHeap m.toHeap s.openPipes s₂.openPipes
          rw [hmem]
          exact hc₂.moves
        have h₃ : FilesOk { s₂ with mem := m } (0 + one f1 + one f0) :=
          h₂.congr (fun _ ↦ rfl) rfl rfl
        apply (fileclose_spec h₃ (hc₃.sound hs)).bind
        rintro s₄ ⟨h₄, hc₄⟩
        apply (fileclose_spec h₄ (hc₄.sound (hc₃.sound hs))).bind
        rintro s₅ ⟨h₅, hc₅⟩
        exact Returns.pure ⟨hc₃.trans (hc₄.trans hc₅), h₅⟩
      · next pi m hk =>
        obtain ⟨h₃, hc₃⟩ := pipealloc_page h₂ (hc₂.sound hs) hne
          (by rw [hfile₀', hfile₀]; exact htype₀) (by rw [hfile₁]; exact htype₁)
          (by rw [hfile₀', hfile₀]; exact Nat.one_ne_zero)
          (by rw [hfile₁]; exact Nat.one_ne_zero) hk
        have hr : PipeResult s (some (f0, f1), s₂.openPipe m pi f0 f1) := ⟨hc₂.trans hc₃, h₃⟩
        exact Returns.ok hr

end

end Xv6.Vm
