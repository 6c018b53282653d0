import Xv6.Tree.Unlink

/-!
# References of files and processes

How the calls move references between the tables and a running call, and that the reference
count of a file is the number of descriptors of it.
-/

namespace Xv6.Tree

open Xv6.Lib

/-- The descriptors of all processes that refer to file `f`. -/
def Tables.fds (t : Tables) (f : Fin NFILE) : Nat :=
  ∑ p, (t.procs p).elim 0 (fun pr ↦ hits pr.ofile (some f))

/-- The reference counts of files are exact, and a file without references is closed. -/
structure FilesOk (t : Tables) : Prop where
  ref : ∀ f, (t.files f).ref = t.fds f
  closed : ∀ f, (t.files f).ref = 0 → (t.files f).target = .none

/-- The tables after `exit` closed the descriptors in a list. -/
def closeTables (p : Slot) : List (Fin NOFILE) → Tables → Proc → Tables
  | [], t, _ => t
  | fd :: fds, t, pr =>
    match pr.ofile fd with
    | none => closeTables p fds t pr
    | some f =>
      closeTables p fds ((t.unref f).setFd p pr fd none)
        { pr with ofile := Function.update pr.ofile fd none }

/-- The tables after `exit`. -/
def Tables.exit (t : Tables) (p : Slot) (pr : Proc) : Tables :=
  let t := closeTables p (List.finRange NOFILE) t pr
  { t with procs := Function.update t.procs p none }

/-! ### Counting -/

section
variable {t : Tables} {p : Slot} {pr : Proc}

theorem refs_update_proc (t : Tables) (p : Slot) (o : Option Proc) (x : Nat) :
    ({ t with procs := Function.update t.procs p o } : Tables).refs x +
        (if (t.procs p).map Proc.cwd = some x then 1 else 0) =
      t.refs x + if o.map Proc.cwd = some x then 1 else 0 := by
  have := hits_of_eq_off (f := fun q ↦ (Function.update t.procs p o q).map Proc.cwd)
    (g := fun q ↦ (t.procs q).map Proc.cwd) p
    (fun q hq ↦ by rw [Function.update_of_ne hq]) (some x)
  rw [Function.update_self] at this
  unfold Tables.refs
  simp only
  omega

theorem refs_update_file (t : Tables) (f : Fin NFILE) (ff : File) (x : Nat) :
    ({ t with files := Function.update t.files f ff } : Tables).refs x +
        (if (t.files f).target.ip = some x then 1 else 0) =
      t.refs x + if ff.target.ip = some x then 1 else 0 := by
  have := hits_of_eq_off (f := fun g ↦ (Function.update t.files f ff g).target.ip)
    (g := fun g ↦ (t.files g).target.ip) f
    (fun g hg ↦ by rw [Function.update_of_ne hg]) (some x)
  rw [Function.update_self] at this
  unfold Tables.refs
  simp only
  omega

theorem refs_setFd (hp : t.procs p = some pr) (fd : Fin NOFILE) (f : Option (Fin NFILE)) (x : Nat) :
    (t.setFd p pr fd f).refs x = t.refs x := by
  have := refs_update_proc t p (some { pr with ofile := Function.update pr.ofile fd f }) x
  rw [hp] at this
  exact Nat.add_right_cancel this

theorem refs_setCwd (hp : t.procs p = some pr) (y x : Nat) :
    (t.setCwd p pr y).refs x + (if x = pr.cwd then 1 else 0) =
      t.refs x + if x = y then 1 else 0 := by
  have := refs_update_proc t p (some { pr with cwd := y }) x
  rw [hp] at this
  simpa [eq_comm, Tables.setCwd] using this

/-- Closing a file gives back its inode with the last reference. -/
theorem refs_unref (t : Tables) (f : Fin NFILE) (x : Nat) :
    (t.unref f).refs x + (if t.lastIp f = some x then 1 else 0) = t.refs x := by
  unfold Tables.unref Tables.lastIp
  by_cases hpos : (t.files f).ref - 1 > 0
  · have h := refs_update_file t f { t.files f with ref := (t.files f).ref - 1 } x
    simp only [hpos, if_true, reduceCtorEq, if_false] at h ⊢
    omega
  · have h := refs_update_file t f { t.files f with ref := 0, target := .none } x
    have hnone : Target.none.ip = none := rfl
    simp only [hnone, hpos, reduceCtorEq, if_false] at h ⊢
    omega

theorem fds_unref (t : Tables) (f g : Fin NFILE) : (t.unref f).fds g = t.fds g := rfl

theorem fds_update_proc (t : Tables) (p : Slot) (o : Option Proc) (f : Fin NFILE) :
    ({ t with procs := Function.update t.procs p o } : Tables).fds f +
        (t.procs p).elim 0 (fun pr ↦ hits pr.ofile (some f)) =
      t.fds f + o.elim 0 (fun pr ↦ hits pr.ofile (some f)) := by
  have := sum_add_of_eq_off
    (f := fun q ↦ (Function.update t.procs p o q).elim 0 (fun pr ↦ hits pr.ofile (some f)))
    (g := fun q ↦ (t.procs q).elim 0 (fun pr ↦ hits pr.ofile (some f))) p
    (fun q hq ↦ by rw [Function.update_of_ne hq])
  rw [Function.update_self] at this
  exact this

theorem fds_setFd (hp : t.procs p = some pr) (fd : Fin NOFILE) (g : Option (Fin NFILE))
    (f : Fin NFILE) :
    (t.setFd p pr fd g).fds f + (if pr.ofile fd = some f then 1 else 0) =
      t.fds f + if g = some f then 1 else 0 := by
  have h1 := fds_update_proc t p (some { pr with ofile := Function.update pr.ofile fd g }) f
  have h2 := hits_of_eq_off (f := Function.update pr.ofile fd g) (g := pr.ofile) fd
    (fun q hq ↦ Function.update_of_ne hq ..) (some f)
  rw [Function.update_self] at h2
  rw [hp] at h1
  simp only [Option.elim_some] at h1
  change (t.setFd p pr fd g).fds f + _ = _ at h1
  omega

theorem fds_pos (hp : t.procs p = some pr) {fd : Fin NOFILE} {f : Fin NFILE}
    (hf : pr.ofile fd = some f) : 0 < t.fds f := by
  have h1 := le_sum (fun q ↦ (t.procs q).elim 0 (fun pr ↦ hits pr.ofile (some f))) p
  have h2 : 0 < hits pr.ofile (some f) := hits_pos_iff.mpr ⟨fd, hf⟩
  simp only [hp, Option.elim_some] at h1
  exact Nat.lt_of_lt_of_le h2 h1

/-- A descriptor less, and a reference less to the file. -/
theorem FilesOk.close (h : FilesOk t) (hp : t.procs p = some pr) {fd : Fin NOFILE} {f : Fin NFILE}
    (hf : pr.ofile fd = some f) : FilesOk ((t.setFd p pr fd none).unref f) := by
  have hpos := fds_pos hp hf
  have hcount (g : Fin NFILE) : ((t.setFd p pr fd none).unref f).fds g +
      (if f = g then 1 else 0) = t.fds g := by
    have := fds_setFd hp fd none g
    rw [hf] at this
    rw [fds_unref]
    simpa using this
  have hfile (g : Fin NFILE) (hg : g ≠ f) :
      ((t.setFd p pr fd none).unref f).files g = t.files g := Function.update_of_ne hg ..
  have hself : ((t.setFd p pr fd none).unref f).files f =
      if (t.files f).ref - 1 > 0 then { t.files f with ref := (t.files f).ref - 1 }
      else { t.files f with ref := 0, target := .none } := Function.update_self ..
  have href := h.ref f
  refine ⟨?_, ?_⟩
  · intro g
    have hg := hcount g
    by_cases hgf : g = f
    · subst hgf
      rw [hself]
      simp only [if_true] at hg
      split
      · change (t.files g).ref - 1 = _
        omega
      · change 0 = _
        omega
    · rw [hfile g hgf, h.ref g]
      rw [if_neg (Ne.symm hgf)] at hg
      omega
  · intro g hzero
    by_cases hgf : g = f
    · subst hgf
      rw [hself] at hzero ⊢
      split at hzero
      · change (t.files g).ref - 1 = 0 at hzero
        omega
      · next hn => rw [if_neg hn]
    · rw [hfile g hgf] at hzero ⊢
      exact h.closed g hzero

end

/-! ### Moving references -/

section
variable {s s' : State} {kept : List Nat}

/-- References pass between the tables and the call. -/
theorem Held.retable {own : List Nat} (h : Held s kept own) {t : Tables} {kept' : List Nat}
    (hsum : ∀ x, t.refs x + kept'.count x = s.refs x + kept.count x)
    (hv : ∀ x ∈ kept', s.valid x = true) : Held { s with toTables := t } kept' own := by
  refine ⟨?_, ?_, h.valid, hv, ?_⟩
  · intro x
    change s.ref x = t.refs x + _ + _
    rw [hsum]
    exact h.count x
  · intro x hx
    change 0 < t.refs x + _ at hx
    rw [hsum] at hx
    exact h.alloc x hx
  · intro x ht hl
    change _ ∧ 0 < t.refs x + _
    rw [hsum]
    exact h.orphan x ht hl

theorem iput_tables (s : State) (t : Tables) (x : Nat) :
    { iput s x with toTables := t } = iput { s with toTables := t } x := by
  unfold iput
  simp only
  split <;> rfl

/-- Giving back a reference of the tables. -/
theorem Held.release (h : Held s kept []) {t : Tables} {y : Nat} {kept' : List Nat}
    (hsum : ∀ x, t.refs x + kept'.count x + (if x = y then 1 else 0) = s.refs x + kept.count x)
    (hv : ∀ x ∈ kept', s.valid x = true) :
    (iput { s with toTables := t } y).toTables = t ∧
      Freed s.inodes (iput { s with toTables := t } y).inodes ∧
      Held (iput { s with toTables := t } y) kept' [] := by
  by_cases hvy : s.valid y = true
  · have hkeep : Held { s with toTables := t } (y :: kept') [] := by
      apply h.retable
      · intro x
        have := hsum x
        rw [List.count_cons]
        simp only [beq_iff_eq, eq_comm (a := y)]
        omega
      · intro x hx
        rcases List.mem_cons.mp hx with rfl | hx
        · exact hvy
        · exact hv x hx
    exact iput_kept hkeep
  · -- an inode that was never read has links
    have hown : Held { s with toTables := t } kept' [y] := by
      refine ⟨?_, ?_, h.valid, hv, ?_⟩
      · intro x
        have h1 := h.count x
        have h2 := hsum x
        rw [List.count_nil] at h1
        rw [List.count_singleton]
        simp only [beq_iff_eq, eq_comm (a := y)]
        change s.ref x = t.refs x + _ + _
        omega
      · intro x hx
        have h2 := hsum x
        change 0 < t.refs x + _ at hx
        exact h.alloc x (by omega)
      · intro x ht hl
        have ho := h.orphan x ht hl
        have h2 := hsum x
        have hxy : x ≠ y := by
          rintro rfl
          exact hvy ho.1
        rw [if_neg hxy] at h2
        refine ⟨ho.1, ?_⟩
        change 0 < t.refs x + _
        omega
    obtain ⟨hsame, hheld⟩ := iput_own hown
    refine ⟨hsame.tables, ?_, hheld⟩
    rw [hsame.inodes]
    exact Freed.refl _

/-- Closing a descriptor. -/
theorem fileclose_spec {p : Slot} {pr : Proc} (h : Held s [] []) {fd : Fin NOFILE} {f : Fin NFILE}
    (hp : s.procs p = some pr)
    (hl : fileclose { s with toTables := s.toTables.setFd p pr fd none } f = .ok s') :
    s'.toTables = (s.toTables.setFd p pr fd none).unref f ∧ Freed s.inodes s'.inodes ∧
      Held s' [] [] := by
  unfold fileclose at hl
  split at hl
  · cases hl
  · have hrefs := refs_unref (s.toTables.setFd p pr fd none) f
    simp only [refs_setFd hp] at hrefs
    simp only at hl
    split at hl
    · next hlast =>
      cases hl
      refine ⟨rfl, Freed.refl _, ?_⟩
      apply h.retable
      · intro x
        have := hrefs x
        rw [hlast] at this
        simpa using this
      · intro x hx
        cases hx
    · next y hlast =>
      cases hl
      apply h.release
      · intro x
        have := hrefs x
        rw [hlast] at this
        simpa [eq_comm] using this
      · intro x hx
        cases hx

end

end Xv6.Tree
