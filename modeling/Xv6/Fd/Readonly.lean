import Xv6.Fd.Contents

/-!
# Directories are written by `dirlink` and `sys_unlink` only

`sys_open` refuses to open a directory in any mode but `O_RDONLY`, and `create` does not return one.
The check is made once, when the file is opened; it stays right because an inode that a file refers
to is neither freed nor allocated again.
-/

namespace Xv6.Fd

open Xv6.Lib

/-- The inode that `sys_write` gives to `writei`; `kernel/sysfile.c:82–95`,
`kernel/file.c:139–167`. -/
def writeTarget (s : State) (pr : Tree.Proc) (fd : Int) : Option Nat :=
  match Tree.argfd pr fd with
  | none => none
  | some (_, f) =>
    let ff := s.files f
    if ff.writable = false then none
    else match s.pipe f, ff.target with
    | none, .inode ip => some ip
    | _, _ => none

/-- No file in use is writable and refers to a directory; no process has a descriptor through which
it could write to one. -/
structure DirsReadonly (s : State) : Prop where
  file : ∀ f x, 0 < (s.files f).ref → (s.files f).writable = true →
    (s.files f).target.ip = some x → (s.inodes x).type ≠ .dir
  write : ∀ p pr fd x, s.procs p = some pr → writeTarget s pr fd = some x →
    (s.inodes x).type ≠ .dir

/-- What a call does to the inodes: one that a file refers to before and after the call keeps its
type, and a directory in use that is not freed changes at most by the entry that the call makes or
clears. -/
structure KeepsDirs (s : State) (c : Call) (t : State) : Prop where
  type : ∀ f g x, 0 < (s.files f).ref → (s.files f).target.ip = some x →
    0 < (t.files g).ref → (t.files g).target.ip = some x → (t.inodes x).type = (s.inodes x).type
  contents : ∀ x, InUse s.toState x → (s.inodes x).type = .dir → (t.inodes x).type ≠ .free →
    (t.inodes x).type = .dir ∧ c.writes (s.inodes x).entries (t.inodes x).entries

theorem Since.dirsReadonly {s₀ s : State} (h : Since s₀ s) : DirsReadonly s := by
  refine ⟨fun f x _ hw hf ↦ h.readonly f x hf hw, ?_⟩
  intro p pr fd x _ hx
  unfold writeTarget at hx
  split at hx
  · cases hx
  · next k f hfd =>
    simp only at hx
    split at hx
    · cases hx
    · next hw =>
      split at hx
      · next ip hpipe htarget =>
        cases Option.some.inj hx
        exact h.readonly f x (by rw [htarget]; rfl) (Bool.eq_true_of_not_eq_false hw)
      · cases hx

theorem step_keepsDirs {s t : State} {c : Call} (h : Ok s s 0 0) (hstep : step s c = some t) :
    KeepsDirs s c t := by
  have hsince := (step_ok h hstep).since
  refine ⟨fun f g x _ hf _ hg ↦ hsince.type g f x hg hf, ?_⟩
  intro x hx hdir hused
  have hcount (y : Nat) : s.toTables.refs y ≤ s.ref y := by
    have := h.counted.inodes y
    rw [Multiset.count_zero] at this
    omega
  rw [step] at hstep
  split at hstep
  · cases hstep
  · next pr hp =>
    cases hexec : c.exec s pr with
    | error e =>
      rw [hexec] at hstep
      cases hstep
    | ok s₁ =>
      rw [hexec] at hstep
      cases hstep
      rcases exec_fate hexec hcount hx (Tree.FileType.ne_free hdir) with hfree | ⟨htype, hwrites⟩
      · exact (hused hfree).elim
      · exact ⟨htype.trans hdir, hwrites⟩

/-- **Directories are never writable through a descriptor**, in every state of every run of system
calls, and each call leaves the type of an inode with a file alone and changes the contents of
directories through `dirlink` and `sys_unlink` only, in one entry. -/
theorem dirsReadonly_always (im : Tree.Image) (cs : List Call) :
    Always step DirsReadonly (boot im) cs ∧
    Along step (fun s c ↦ ∀ t, step s c = some t → KeepsDirs s c t) (boot im) cs := by
  have hkeep (s : State) (c : Call) (t : State) (h : Ok s s 0 0) (hstep : step s c = some t) :
      Ok t t 0 0 := (step_ok h hstep).restart
  constructor
  · exact always_of_invariant (fun _ h ↦ h.since.dirsReadonly) hkeep (boot_ok im) cs
  · refine along_of_invariant ?_ hkeep (boot_ok im) cs
    intro s c h t hstep
    exact step_keepsDirs h hstep

end Xv6.Fd
