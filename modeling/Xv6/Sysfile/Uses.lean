import Mathlib.Data.Multiset.Count
import Xv6.Fs.Frame
import Xv6.Lib.Returns
import Xv6.Sysfile.Model

/-!
# The references and locks of a call

A system call takes references and locks, and gives them back. `Uses` says which ones it has at a
moment, beyond those that were there before; the fields of the inodes in memory are those on the
disk. An inode without links that is on the disk is one that somebody else references, so that a
call frees no inode that it did not make.
-/

namespace Xv6.Sysfile

open Xv6.Lib Xv6.Fs Xv6.Dir

variable {sb : Super} {s s' : State} {ref : Nat → Nat} {held : Multiset Nat} {locks : List Nat}
variable {x : Nat}

/-- `iget` adds a reference; an inode that was not in the table has no fields in memory. -/
theorem iget_spec (heq : iget sb x s = .ok s') : s'.disk = s.disk ∧ s'.ip = s.ip ∧
    s'.locked = s.locked ∧ (∀ y, s'.ref y = if y = x then s.ref x + 1 else s.ref y) ∧
    ∀ y, s'.valid y = if y = x ∧ s.ref x = 0 then false else s.valid y := by
  unfold iget at heq
  split at heq
  · next hpos =>
    cases heq
    refine ⟨rfl, rfl, rfl, fun y ↦ Function.update_apply _ _ _ _, ?_⟩
    intro y
    rw [if_neg (fun hy ↦ by omega)]
  · next hzero =>
    split at heq
    · cases heq
    · cases heq
      have hz : s.ref x = 0 := by omega
      refine ⟨rfl, rfl, rfl, ?_, ?_⟩
      · intro y
        rw [hz]
        exact Function.update_apply _ _ _ _
      · intro y
        simp only [hz, and_true]
        exact Function.update_apply _ _ _ _

/-- `iput` of an inode that is not freed. -/
theorem iput_kept (hkeep : ¬ (s.ref x = 1 ∧ s.valid x = true ∧ (s.ip x).nlink = 0))
    (heq : iput sb x s = .ok s') : s'.disk = s.disk ∧ s'.ip = s.ip ∧ s'.locked = s.locked ∧
    s'.valid = s.valid ∧ ∀ y, s'.ref y = if y = x then s.ref x - 1 else s.ref y := by
  rw [iput, if_neg hkeep] at heq
  cases heq
  exact ⟨rfl, rfl, rfl, rfl, fun y ↦ Function.update_apply _ _ _ _⟩

/-- The call has the references `held` and the locks `locks`; the references of others are `ref`. -/
structure Uses (sb : Super) (ref : Nat → Nat) (held : Multiset Nat) (locks : List Nat) (s : State) :
    Prop where
  refs : ∀ y, s.ref y = ref y + held.count y
  locked : ∀ y, s.locked y = decide (y ∈ locks)
  inodes : ∀ y, 0 < s.ref y → y < sb.ninodes
  fields : ∀ y, 0 < s.ref y → s.valid y = true →
    s.ip y = dinode sb s.disk y ∧ (dinode sb s.disk y).type ≠ 0

/-- An inode without links is referenced. -/
def Linked (sb : Super) (ref : Nat → Nat) (d : Disk) (x : Nat) : Prop :=
  x < sb.ninodes → (dinode sb d x).type ≠ 0 → (dinode sb d x).nlink ≠ 0 ∨ 0 < ref x

namespace Uses

theorem ref_pos (h : Uses sb ref held locks s) (hx : x ∈ held) : 0 < s.ref x := by
  have := Multiset.count_pos.mpr hx
  rw [h.refs]
  omega

/-- The same references, with those of the call counted as those of others. -/
theorem rebase (h : Uses sb ref held locks s) : Uses sb s.ref 0 locks s := by
  refine ⟨?_, h.locked, h.inodes, h.fields⟩
  intro y
  rw [Multiset.count_zero, Nat.add_zero]

theorem unbase {ref' : Nat → Nat} (h : Uses sb ref' 0 locks s)
    (href : ∀ y, ref' y = ref y + held.count y) : Uses sb ref held locks s := by
  refine ⟨?_, h.locked, h.inodes, h.fields⟩
  intro y
  rw [h.refs, Multiset.count_zero, Nat.add_zero, href]

theorem iget (h : Uses sb ref held locks s) (hx : x < sb.ninodes)
    (heq : Sysfile.iget sb x s = .ok s') :
    Uses sb ref (x ::ₘ held) locks s' ∧ s'.disk = s.disk := by
  obtain ⟨hdisk, hip, hlocked, hrefs, hvalid⟩ := iget_spec heq
  refine ⟨⟨?_, ?_, ?_, ?_⟩, hdisk⟩
  · intro y
    rw [hrefs, Multiset.count_cons]
    split
    · next hy => rw [hy, h.refs, Nat.add_assoc]
    · rw [h.refs, Nat.add_zero]
  · intro y
    rw [hlocked, h.locked]
  · intro y hy
    rw [hrefs] at hy
    split at hy
    · next hyx => rwa [hyx]
    · exact h.inodes y hy
  · intro y hy hv
    rw [hvalid] at hv
    split at hv
    · cases hv
    · next hold =>
      rw [hip, hdisk]
      apply h.fields y _ hv
      rw [hrefs] at hy
      split at hy
      · next hyx =>
        apply Nat.pos_of_ne_zero
        intro hz
        rw [hyx] at hz
        exact hold ⟨hyx, hz⟩
      · exact hy

theorem idup (h : Uses sb ref held locks s) (hx : 0 < s.ref x) :
    Uses sb ref (x ::ₘ held) locks (Sysfile.idup x s) := by
  apply And.left
  apply h.iget (h.inodes x hx)
  exact if_pos hx

/-- A lock is taken that the call does not have; then the fields are in memory. -/
theorem ilock (h : Uses sb ref held locks s) (heq : Sysfile.ilock sb x s = .ok s') :
    Uses sb ref held (x :: locks) s' ∧ s'.disk = s.disk ∧ s'.ref = s.ref ∧ x ∉ locks ∧ 0 < s.ref x ∧
      s'.ip x = dinode sb s.disk x ∧ (dinode sb s.disk x).type ≠ 0 ∧ s'.valid x = true ∧
      ∀ y, y ≠ x → s'.valid y = s.valid y := by
  unfold Sysfile.ilock at heq
  split at heq
  · cases heq
  next href =>
  split at heq
  · cases heq
  next hfree =>
  have hnot : x ∉ locks := by
    rw [h.locked, decide_eq_true_eq] at hfree
    exact hfree
  have hlocked (y : Nat) : Function.update s.locked x true y = decide (y ∈ x :: locks) := by
    rw [Function.update_apply, h.locked]
    split
    · next hy => rw [hy, decide_eq_true List.mem_cons_self]
    · next hy =>
      apply decide_eq_decide.mpr
      rw [List.mem_cons]
      exact ⟨Or.inr, fun hm ↦ hm.resolve_left hy⟩
  split at heq
  · next hv =>
    cases heq
    obtain ⟨hip, ht⟩ := h.fields x (by omega) hv
    exact ⟨⟨h.refs, hlocked, h.inodes, h.fields⟩, rfl, rfl, hnot, by omega, hip, ht, hv,
      fun _ _ ↦ rfl⟩
  · split at heq
    · cases heq
    · next ht =>
      cases heq
      refine ⟨⟨h.refs, hlocked, h.inodes, ?_⟩, rfl, rfl, hnot, by omega, Function.update_self _ _ _,
        ht, Function.update_self _ _ _, fun y hy ↦ Function.update_of_ne hy _ _⟩
      intro y hy hv
      by_cases hyx : y = x
      · rw [hyx]
        exact ⟨Function.update_self _ _ _, ht⟩
      · have hv' : s.valid y = true := (Function.update_of_ne hyx _ _).symm.trans hv
        obtain ⟨hip, ht⟩ := h.fields y hy hv'
        exact ⟨(Function.update_of_ne hyx _ _).trans hip, ht⟩

theorem iunlock (h : Uses sb ref held (x :: locks) s) (hx : x ∉ locks)
    (heq : Sysfile.iunlock x s = .ok s') :
    Uses sb ref held locks s' ∧ s'.disk = s.disk ∧ s'.ref = s.ref ∧ s'.ip = s.ip ∧
      s'.valid = s.valid := by
  have hlocked (y : Nat) : Function.update s.locked x false y = decide (y ∈ locks) := by
    rw [Function.update_apply, h.locked]
    split
    · next hy => rw [hy, decide_eq_false hx]
    · next hy =>
      apply decide_eq_decide.mpr
      rw [List.mem_cons]
      exact ⟨fun hm ↦ hm.resolve_left hy, Or.inr⟩
  unfold Sysfile.iunlock at heq
  split at heq
  · cases heq
  · cases heq
    exact ⟨⟨h.refs, hlocked, h.inodes, h.fields⟩, rfl, rfl, rfl, rfl⟩

/-- A reference is given back to an inode that has links or other references. -/
theorem iput (h : Uses sb ref (x ::ₘ held) locks s) (hl : Linked sb ref s.disk x)
    (heq : Sysfile.iput sb x s = .ok s') : Uses sb ref held locks s' ∧ s'.disk = s.disk := by
  have hpos := h.ref_pos (Multiset.mem_cons_self x held)
  have hcount := h.refs x
  rw [Multiset.count_cons_self] at hcount
  have hkeep : ¬ (s.ref x = 1 ∧ s.valid x = true ∧ (s.ip x).nlink = 0) := by
    -- if nobody else has a reference, there are links
    rintro ⟨hone, hv, hzero⟩
    obtain ⟨hip, ht⟩ := h.fields x hpos hv
    rw [hip] at hzero
    rcases hl (h.inodes x hpos) ht with hne | hother
    · exact hne hzero
    · omega
  obtain ⟨hdisk, hip, hlocked, hvalid, hrefs⟩ := iput_kept hkeep heq
  have hkept {y : Nat} (hy : 0 < s'.ref y) : 0 < s.ref y := by
    rw [hrefs] at hy
    split at hy
    · next hyx => rwa [hyx]
    · exact hy
  refine ⟨⟨?_, ?_, fun y hy ↦ h.inodes y (hkept hy), ?_⟩, hdisk⟩
  · intro y
    rw [hrefs]
    split
    · next hy =>
      rw [hy]
      omega
    · next hy => rw [h.refs, Multiset.count_cons_of_ne hy]
  · intro y
    rw [hlocked, h.locked]
  · intro y hy hv
    rw [hip, hdisk]
    rw [hvalid] at hv
    exact h.fields y (hkept hy) hv

theorem iunlockput (h : Uses sb ref (x ::ₘ held) (x :: locks) s) (hx : x ∉ locks)
    (hl : Linked sb ref s.disk x) (heq : Sysfile.iunlockput sb x s = .ok s') :
    Uses sb ref held locks s' ∧ s'.disk = s.disk := by
  obtain ⟨s₁, hunlock, hput⟩ := bind_ok heq
  obtain ⟨h₁, hd₁, -⟩ := h.iunlock hx hunlock
  obtain ⟨h₂, hd₂⟩ := h₁.iput (by rw [hd₁]; exact hl) hput
  exact ⟨h₂, hd₂.trans hd₁⟩

end Uses

end Xv6.Sysfile
