import Mathlib.Algebra.BigOperators.Group.Finset.Piecewise
import Mathlib.Algebra.Order.Group.Multiset
import Mathlib.Tactic.Abel
import Xv6.Sh.Wiring

/-!
# Pipelines are wired as written

The programs that were started, and those that the code of all processes still starts, are together
those of the command lines. No process keeps a file that its command has no use for, so the reader
of a pipe sees its end once the commands of the writing side are gone; and the shell starts a
command only after the commands before it have exited.
-/

namespace Xv6.Sh

open Xv6.Lib

/-! ### Parsed commands redirect standard files -/

theorem standard_wrap {cmd : Cmd Text} (h : cmd.Standard) {rs : List Redir}
    (hrs : ∀ r ∈ rs, r.fd ≤ 2) : (wrap cmd rs).Standard := by
  induction rs generalizing cmd with
  | nil => exact h
  | cons r rs ih =>
    apply ih
    · exact ⟨hrs r List.mem_cons_self, h⟩
    · exact fun r' hr' ↦ hrs r' (List.mem_cons_of_mem r hr')

theorem standard_backs {cmd : Cmd Text} (h : cmd.Standard) (n : Nat) : (backs cmd n).Standard := by
  induction n generalizing cmd with
  | zero => exact h
  | succ n ih => exact ih h

theorem DerivesRedirs.standard {ts : List Token} {rs : List Redir} (h : DerivesRedirs ts rs) :
    ∀ r ∈ rs, r.fd ≤ 2 := by
  induction h with
  | nil =>
    intro r hr
    cases hr
  | cons h _ ih =>
    intro r hr
    rcases List.mem_cons.mp hr with rfl | hr
    · cases h <;> simp
    · exact ih r hr

theorem DerivesArgs.standard {ts : List Token} {ws : List Text} {rs : List Redir}
    (h : DerivesArgs ts ws rs) : ∀ r ∈ rs, r.fd ≤ 2 := by
  induction h with
  | nil =>
    intro r hr
    cases hr
  | cons h _ ih =>
    intro r hr
    rcases List.mem_append.mp hr with hr | hr
    · exact h.standard r hr
    · exact ih r hr

theorem Derives.standard {nt : Nonterminal} {ts : List Token} {cmd : Cmd Text}
    (h : Derives nt ts cmd) : cmd.Standard := by
  induction h with
  | line n _ ih => exact standard_backs ih n
  | list n _ _ ih ih' => exact ⟨standard_backs ih n, ih'⟩
  | single _ ih => exact ih
  | pipe _ _ ih ih' => exact ⟨ih, ih'⟩
  | block _ hrs ih => exact standard_wrap ih hrs.standard
  | simple hqs hrs _ =>
    apply standard_wrap (show Cmd.Standard (.exec _) from trivial)
    intro r hr
    rcases List.mem_append.mp hr with hr | hr
    · exact hqs.standard r hr
    · exact hrs.standard r hr

theorem parsed_standard {text : Text} {cmd : Cmd Text} (h : parsed text = some cmd) :
    cmd.Standard := by
  have hnul : 0 ∉ cstring text 0 := by
    intro hmem
    have := List.mem_takeWhile_imp hmem
    simp at this
  have hsound := parsecmd_sound hnul (Nat.le_refl (steps (cstring text 0)))
  rw [parsed] at h
  cases hparse : Sh.parsecmd (steps (cstring text 0)) (cstring text 0) with
  | error e =>
    simp only [hparse] at h
    cases h
  | ok r =>
    simp only [hparse] at h
    cases h
    rw [hparse] at hsound
    exact Derives.standard hsound

/-! ### The processes -/

/-- The children of a process that were not waited for. -/
def State.children (s : State) (p : Nat) : Finset Nat :=
  (Finset.range s.next).filter (fun c ↦ s.isChild p c = true)

def State.kids (s : State) (p : Nat) : Nat := (s.children p).card

/-- A process with `kids` children that still starts the programs `M`. -/
def Process.Ok (kids : Nat) (M : Multiset Event) (pr : Process) : Prop :=
  match pr.status with
  | .shell k => Valid pr.place pr.fds kids k M
  | .program _ => pr.fds.Tidy pr.place [] ∧ kids = 0 ∧ M = 0
  | .zombie => (∀ fd, pr.fds fd = none) ∧ kids = 0 ∧ M = 0

/-- The invariant. `lost` is what a call that failed keeps from being started; `fails` says whether
calls may fail. -/
structure Inv (fails : Bool) (lines : List Text) (s : State) (plan : Nat → Multiset Event)
    (lost : Multiset Event) : Prop where
  fresh : ∀ p, s.next ≤ p → s.procs p = none
  gone : ∀ p, s.procs p = none → plan p = 0 ∧ s.kids p = 0
  ok : ∀ p pr, s.procs p = some pr → pr.Ok (s.kids p) (plan p)
  total : s.log + ∑ p ∈ Finset.range s.next, plan p + lost = session started lines 0
  lost : fails = false → lost = 0

section
variable {s t : State} {p q : Nat} {pr pr' : Process}

theorem isChild_eq (hpr : s.procs q = some pr) (p : Nat) :
    s.isChild p q = decide (pr.parent = some p) := by
  simp [State.isChild, hpr]

theorem mem_children : q ∈ s.children p ↔ q < s.next ∧ s.isChild p q = true := by
  rw [State.children, Finset.mem_filter, Finset.mem_range]

/-- The children of a process are the same in another state. -/
theorem kids_congr (hnext : t.next = s.next) (h : ∀ q, t.isChild p q = s.isChild p q) :
    t.kids p = s.kids p := by
  rw [State.kids, State.kids]
  congr 1
  ext q
  rw [mem_children, mem_children, hnext, h q]

/-- A process changes, but not its parent. -/
theorem isChild_setProc (hpr : s.procs q = some pr) (hparent : pr'.parent = pr.parent)
    (p c : Nat) : (s.setProc q pr').isChild p c = s.isChild p c := by
  by_cases hc : c = q
  · subst hc
    simp [State.isChild, State.setProc, hpr, hparent]
  · simp [State.isChild, State.setProc, Function.update_of_ne hc]

theorem kids_setProc (hpr : s.procs q = some pr) (hparent : pr'.parent = pr.parent) (p : Nat) :
    (s.setProc q pr').kids p = s.kids p := kids_congr rfl (isChild_setProc hpr hparent p)

/-- A process has one more child. -/
theorem kids_fork (fds : Fds) (child : Child) :
    (s.fork p fds child).kids q = s.kids q + if q = p then 1 else 0 := by
  have hold (c : Nat) (hc : c < s.next) : (s.fork p fds child).isChild q c = s.isChild q c := by
    simp [State.isChild, State.fork, Function.update_of_ne (Nat.ne_of_lt hc)]
  have hnew : (s.fork p fds child).isChild q s.next = decide (p = q) := by
    simp [State.isChild, State.fork]
  have hmem (c : Nat) : c ∈ (s.fork p fds child).children q ↔
      c ∈ s.children q ∨ c = s.next ∧ q = p := by
    rw [mem_children, mem_children]
    change c < s.next + 1 ∧ _ ↔ _
    constructor
    · rintro ⟨hlt, hc⟩
      rcases Nat.lt_succ_iff_lt_or_eq.mp hlt with hlt | rfl
      · exact .inl ⟨hlt, hold c hlt ▸ hc⟩
      · exact .inr ⟨rfl, (of_decide_eq_true (hnew ▸ hc)).symm⟩
    · rintro (⟨hlt, hc⟩ | ⟨rfl, rfl⟩)
      · exact ⟨Nat.lt_succ_of_lt hlt, (hold c hlt).trans hc⟩
      · exact ⟨Nat.lt_succ_self _, hnew.trans (decide_eq_true rfl)⟩
  have hnot : s.next ∉ s.children q := fun h ↦ Nat.lt_irrefl _ (mem_children.mp h).1
  rw [State.kids, State.kids]
  split
  · next hq =>
    rw [← Finset.card_insert_of_notMem hnot]
    congr 1
    ext c
    rw [hmem, Finset.mem_insert]
    constructor
    · exact fun h ↦ h.symm.imp_left And.left
    · exact fun h ↦ h.symm.imp_right (fun hc ↦ ⟨hc, hq⟩)
  · next hq =>
    have hsame : (s.fork p fds child).children q = s.children q := by
      ext c
      rw [hmem]
      exact or_iff_left (fun h ↦ hq h.2)
    rw [hsame]
    rfl

/-- A process is gone. -/
theorem kids_remove {c : Nat} (hpr : s.procs c = some pr) (hc : c < s.next) :
    (s.remove c).kids q + (if pr.parent = some q then 1 else 0) = s.kids q := by
  have herase : (s.remove c).children q = (s.children q).erase c := by
    ext d
    rw [Finset.mem_erase, mem_children, mem_children]
    by_cases hd : d = c
    · subst hd
      simp [State.isChild, State.remove]
    · simp [State.isChild, State.remove, hd]
  have hmem : c ∈ s.children q ↔ pr.parent = some q := by
    rw [mem_children, isChild_eq hpr, decide_eq_true_eq]
    exact and_iff_right hc
  rw [State.kids, State.kids, herase]
  split
  · next hparent => exact Finset.card_erase_add_one (hmem.mpr hparent)
  · next hparent =>
    rw [Finset.erase_eq_of_notMem (fun h ↦ hparent (hmem.mp h))]
    rfl

/-- A process that exits has no children, and those of other processes stay. -/
theorem kids_exit : (s.exit p).kids q = if q = p then 0 else s.kids q := by
  have hchild (c : Nat) : (s.exit p).isChild q c = (decide (q ≠ p) && s.isChild q c) := by
    simp only [State.isChild, State.exit, Option.any_map]
    cases s.procs c with
    | none => simp
    | some pr =>
      by_cases hparent : pr.parent = some p
      · by_cases hq : q = p
        · simp [hparent, hq]
        · simp [hparent, hq, Ne.symm hq]
      · by_cases hq : q = p <;> simp [hparent, hq]
  rw [State.kids, State.kids]
  split
  · next hq =>
    rw [Finset.card_eq_zero, Finset.eq_empty_iff_forall_notMem]
    intro c hc
    have := (mem_children.mp hc).2
    rw [hchild, decide_eq_false (not_not.mpr hq)] at this
    cases this
  · next hq =>
    have hsame : (s.exit p).children q = s.children q := by
      ext c
      rw [mem_children, mem_children, hchild, decide_eq_true hq]
      rfl
    rw [hsame]

/-! ### Steps -/

variable {fails : Bool} {lines : List Text} {plan : Nat → Multiset Event} {lost : Multiset Event}

theorem Inv.lt_next (h : Inv fails lines s plan lost) (hpr : s.procs p = some pr) : p < s.next := by
  by_contra hle
  rw [h.fresh p (Nat.le_of_not_lt hle)] at hpr
  cases hpr

/-- The plans of the processes after that of one has changed. -/
theorem sum_plan (plan : Nat → Multiset Event) (hp : p < s.next) {M' X : Multiset Event}
    (hplan : plan p = M' + X) :
    ∑ q ∈ Finset.range s.next, Function.update plan p M' q + X =
      ∑ q ∈ Finset.range s.next, plan q := by
  have hmem : p ∈ Finset.range s.next := Finset.mem_range.mpr hp
  rw [Finset.sum_update_of_mem hmem, ← Finset.add_sum_erase _ plan hmem, hplan,
    Finset.sdiff_singleton_eq_erase]
  exact add_right_comm _ _ _

/-- One process goes on: of its plan, `L` is done and `X` will not be. -/
theorem Inv.change (h : Inv fails lines s plan lost) (hpr : s.procs p = some pr) {fds : Fds}
    {status : Status} {place : Place} {M L X : Multiset Event}
    (hok : (Process.mk pr.parent fds status place).Ok (s.kids p) M)
    (hplan : plan p = M + (L + X)) (hlost : fails = false → X = 0) :
    Inv fails lines { s.setProc p ⟨pr.parent, fds, status, place⟩ with log := L + s.log }
      (Function.update plan p M) (X + lost) := by
  obtain ⟨pr', hpr', hparent⟩ : ∃ pr', pr' = Process.mk pr.parent fds status place ∧
    pr'.parent = pr.parent := ⟨_, rfl, rfl⟩
  rw [← hpr'] at hok ⊢
  have hp := h.lt_next hpr
  have hkids (q : Nat) : ({ s.setProc p pr' with log := L + s.log } : State).kids q = s.kids q :=
    kids_congr rfl (isChild_setProc hpr hparent q)
  refine ⟨?_, ?_, ?_, ?_, ?_⟩
  · intro q hq
    change Function.update s.procs p _ q = _
    have hne : q ≠ p := fun he ↦ Nat.not_le_of_lt hp (he ▸ hq)
    rw [Function.update_of_ne hne]
    exact h.fresh q hq
  · intro q hq
    change Function.update s.procs p _ q = _ at hq
    by_cases hqp : q = p
    · rw [hqp, Function.update_self] at hq
      cases hq
    · rw [Function.update_of_ne hqp] at hq ⊢
      rw [hkids]
      exact h.gone q hq
  · intro q qr hq
    change Function.update s.procs p _ q = _ at hq
    rw [hkids]
    by_cases hqp : q = p
    · subst hqp
      rw [Function.update_self] at hq ⊢
      cases hq
      exact hok
    · rw [Function.update_of_ne hqp] at hq ⊢
      exact h.ok q qr hq
  · have hsum := sum_plan plan hp hplan
    have htotal := h.total
    rw [← hsum] at htotal
    rw [← htotal]
    change L + s.log + (∑ q ∈ Finset.range s.next, Function.update plan p M q) + (X + lost) = _
    abel
  · intro hf
    rw [hlost hf, h.lost hf, add_zero]

/-- A process forks. -/
theorem Inv.fork (h : Inv fails lines s plan lost) (hpr : s.procs p = some pr) {status : Status}
    {child : Child} {M₁ M₂ : Multiset Event}
    (hok : (Process.mk pr.parent pr.fds status pr.place).Ok (s.kids p + 1) M₂)
    (hchild : Valid child.place pr.fds 0 child.code M₁) (hplan : plan p = M₁ + M₂) :
    Inv fails lines ((s.setProc p ⟨pr.parent, pr.fds, status, pr.place⟩).fork p pr.fds child)
      (Function.update (Function.update plan p M₂) s.next M₁) lost := by
  obtain ⟨pr', hpr', hparent⟩ : ∃ pr', pr' = Process.mk pr.parent pr.fds status pr.place ∧
    pr'.parent = pr.parent := ⟨_, rfl, rfl⟩
  rw [← hpr'] at hok ⊢
  have hp := h.lt_next hpr
  have hpn : p ≠ s.next := Nat.ne_of_lt hp
  have hkids (q : Nat) : ((s.setProc p pr').fork p pr.fds child).kids q =
      s.kids q + if q = p then 1 else 0 := by
    rw [kids_fork, kids_setProc hpr hparent]
  have hprocs (q : Nat) : ((s.setProc p pr').fork p pr.fds child).procs q =
      Function.update (Function.update s.procs p (some pr')) s.next
        (some ⟨some p, pr.fds, .shell child.code, child.place⟩) q := rfl
  refine ⟨?_, ?_, ?_, ?_, h.lost⟩
  · intro q hq
    have hq : s.next + 1 ≤ q := hq
    rw [hprocs, Function.update_of_ne (by omega), Function.update_of_ne (by omega)]
    exact h.fresh q (by omega)
  · intro q hq
    rw [hprocs] at hq
    by_cases hqn : q = s.next
    · rw [hqn, Function.update_self] at hq
      cases hq
    · rw [Function.update_of_ne hqn] at hq ⊢
      by_cases hqp : q = p
      · rw [hqp, Function.update_self] at hq
        cases hq
      · rw [Function.update_of_ne hqp] at hq ⊢
        rw [hkids, if_neg hqp]
        exact h.gone q hq
  · intro q qr hq
    rw [hprocs] at hq
    rw [hkids]
    by_cases hqn : q = s.next
    · subst hqn
      rw [Function.update_self] at hq ⊢
      cases hq
      rw [if_neg hpn.symm, (h.gone s.next (h.fresh s.next (Nat.le_refl _))).2]
      exact hchild
    · rw [Function.update_of_ne hqn] at hq ⊢
      by_cases hqp : q = p
      · subst hqp
        rw [Function.update_self] at hq ⊢
        cases hq
        rw [if_pos rfl]
        exact hok
      · rw [Function.update_of_ne hqp] at hq ⊢
        rw [if_neg hqp]
        exact h.ok q qr hq
  · have hsum := sum_plan plan hp (hplan.trans (add_comm M₁ M₂))
    have hnew : ∑ q ∈ Finset.range (s.next + 1),
        Function.update (Function.update plan p M₂) s.next M₁ q =
          ∑ q ∈ Finset.range s.next, Function.update plan p M₂ q + M₁ := by
      rw [Finset.sum_range_succ, Function.update_self]
      congr 1
      apply Finset.sum_congr rfl
      intro q hq
      exact Function.update_of_ne (Nat.ne_of_lt (Finset.mem_range.mp hq)) _ _
    change s.log + ∑ q ∈ Finset.range (s.next + 1), _ + lost = _
    rw [hnew, hsum]
    exact h.total

/-- Without the processes that are gone, nothing is planned that was not before. -/
theorem Inv.of_procs (h : Inv fails lines s plan lost) (hnext : t.next = s.next)
    (hlog : t.log = s.log) (hfresh : ∀ q, s.procs q = none → t.procs q = none)
    (hnone : ∀ q, t.procs q = none → plan q = 0 ∧ t.kids q = 0)
    (hok : ∀ q qr, t.procs q = some qr → qr.Ok (t.kids q) (plan q)) :
    Inv fails lines t plan lost := by
  refine ⟨?_, hnone, hok, ?_, h.lost⟩
  · intro q hq
    exact hfresh q (h.fresh q (hnext ▸ hq))
  · rw [hnext, hlog]
    exact h.total

/-- `wait` finds a zombie. -/
theorem Inv.wait (h : Inv fails lines s plan lost) (hpr : s.procs p = some pr) {c : Nat}
    {ch : Process} (hch : s.procs c = some ch) (hzombie : ch.status = .zombie)
    (hparent : ch.parent = some p) {k : Code} (hstatus : pr.status = .shell (.wait :: k)) :
    Inv fails lines ((s.remove c).setProc p { pr with status := .shell k }) plan lost := by
  have hcp : p ≠ c := by
    rintro rfl
    rw [hpr] at hch
    cases hch
    rw [hstatus] at hzombie
    cases hzombie
  have hchild := h.ok c ch hch
  rw [Process.Ok, hzombie] at hchild
  obtain ⟨-, hkidsc, hplanc⟩ := hchild
  have hpr' : (s.remove c).procs p = some pr := (Function.update_of_ne hcp _ _).trans hpr
  have hkids (q : Nat) : ((s.remove c).setProc p { pr with status := .shell k }).kids q +
      (if q = p then 1 else 0) = s.kids q := by
    have hset : ((s.remove c).setProc p { pr with status := .shell k }).kids q =
        (s.remove c).kids q := by
      apply kids_setProc hpr'
      rfl
    rw [hset, ← kids_remove hch (h.lt_next hch), hparent]
    simp only [Option.some.injEq, eq_comm]
  have hprocs (q : Nat) : ((s.remove c).setProc p { pr with status := .shell k }).procs q =
      Function.update (Function.update s.procs c none) p
        (some { pr with status := .shell k }) q := rfl
  refine h.of_procs ?_ ?_ ?_ ?_ ?_
  · rfl
  · rfl
  · intro q hq
    have hqp : q ≠ p := by
      rintro rfl
      rw [hpr] at hq
      cases hq
    rw [hprocs, Function.update_of_ne hqp]
    by_cases hqc : q = c
    · rw [hqc, Function.update_self]
    · rw [Function.update_of_ne hqc]
      exact hq
  · intro q hq
    have hqp : q ≠ p := by
      rintro rfl
      rw [hprocs, Function.update_self] at hq
      cases hq
    have hq' := hkids q
    rw [if_neg hqp, add_zero] at hq'
    rw [hq']
    by_cases hqc : q = c
    · exact hqc ▸ ⟨hplanc, hkidsc⟩
    · rw [hprocs, Function.update_of_ne hqp, Function.update_of_ne hqc] at hq
      exact h.gone q hq
  · intro q qr hq
    rw [hprocs] at hq
    have hq' := hkids q
    by_cases hqp : q = p
    · subst hqp
      rw [Function.update_self] at hq
      cases hq
      have hvalid := h.ok q pr hpr
      rw [Process.Ok, hstatus, ← hq', if_pos rfl] at hvalid
      obtain ⟨-, m, hm, hvalid⟩ := hvalid.wait_inv
      cases hm
      exact hvalid
    · rw [Function.update_of_ne hqp] at hq
      rw [if_neg hqp, add_zero] at hq'
      rw [hq']
      by_cases hqc : q = c
      · rw [hqc, Function.update_self] at hq
        cases hq
      · rw [Function.update_of_ne hqc] at hq
        exact h.ok q qr hq

/-- A process with nothing left to start exits. -/
theorem Inv.exit (h : Inv fails lines s plan lost) (hplan : plan p = 0) :
    Inv fails lines (s.exit p) plan lost := by
  refine h.of_procs ?_ ?_ ?_ ?_ ?_
  · rfl
  · rfl
  · intro q hq
    change (s.procs q).map _ = none
    rw [hq]
    rfl
  · intro q hq
    have hq : s.procs q = none := Option.map_eq_none_iff.mp hq
    obtain ⟨hplanq, hkids⟩ := h.gone q hq
    refine ⟨hplanq, ?_⟩
    rw [kids_exit, hkids]
    exact ite_self 0
  · intro q qr hq
    obtain ⟨qr', hqr, rfl⟩ := Option.map_eq_some_iff.mp hq
    rw [kids_exit]
    by_cases hqp : q = p
    · subst hqp
      simp only [Process.Ok, if_true]
      exact ⟨fun _ ↦ trivial, trivial, hplan⟩
    · rw [if_neg hqp, Process.Ok]
      simp only [if_neg hqp]
      exact h.ok q qr' hqr

/-- `init` finds a zombie. -/
theorem Inv.reap (h : Inv fails lines s plan lost) {c : Nat} {ch : Process}
    (hch : s.procs c = some ch) (hzombie : ch.status = .zombie) (hparent : ch.parent = none) :
    Inv fails lines (s.remove c) plan lost := by
  have hchild := h.ok c ch hch
  rw [Process.Ok, hzombie] at hchild
  obtain ⟨-, hkidsc, hplanc⟩ := hchild
  have hkids (q : Nat) : (s.remove c).kids q = s.kids q := by
    rw [← kids_remove hch (h.lt_next hch), hparent, if_neg (fun he ↦ by cases he), add_zero]
  have hprocs (q : Nat) : (s.remove c).procs q = Function.update s.procs c none q := rfl
  refine h.of_procs ?_ ?_ ?_ ?_ ?_
  · rfl
  · rfl
  · intro q hq
    rw [hprocs]
    by_cases hqc : q = c
    · rw [hqc, Function.update_self]
    · rw [Function.update_of_ne hqc]
      exact hq
  · intro q hq
    rw [hkids]
    by_cases hqc : q = c
    · exact hqc ▸ ⟨hplanc, hkidsc⟩
    · rw [hprocs, Function.update_of_ne hqc] at hq
      exact h.gone q hq
  · intro q qr hq
    rw [hkids]
    by_cases hqc : q = c
    · rw [hprocs, hqc, Function.update_self] at hq
      cases hq
    · rw [hprocs, Function.update_of_ne hqc] at hq
      exact h.ok q qr hq

/-- One process goes on and starts nothing yet; `X` will not be started. -/
theorem Inv.quiet (h : Inv fails lines s plan lost) (hpr : s.procs p = some pr) {fds : Fds}
    {status : Status} {place : Place} {M X : Multiset Event}
    (hok : (Process.mk pr.parent fds status place).Ok (s.kids p) M) (hplan : plan p = M + X)
    (hlost : fails = false → X = 0) :
    ∃ plan lost, Inv fails lines (s.setProc p ⟨pr.parent, fds, status, place⟩) plan lost := by
  have hplan' : plan p = M + (0 + X) := by rw [hplan, zero_add]
  have hc := h.change hpr hok hplan' hlost
  rw [zero_add] at hc
  exact ⟨_, _, hc⟩

/-- The same for a shell process. -/
theorem Inv.goes (h : Inv fails lines s plan lost) (hpr : s.procs p = some pr) {fds : Fds}
    {k : Code} {place : Place} {M X : Multiset Event} (hvalid : Valid place fds (s.kids p) k M)
    (hplan : plan p = M + X) (hlost : fails = false → X = 0) :
    ∃ plan lost, Inv fails lines (s.setProc p ⟨pr.parent, fds, .shell k, place⟩) plan lost := by
  have hok : (Process.mk pr.parent fds (.shell k) place).Ok (s.kids p) M := hvalid
  exact h.quiet hpr hok hplan hlost

/-- One round of the loop of `main`. -/
theorem valid_mainLoop {e : Env} (hin : e.Inside []) (lines : List Text) (n : Nat) :
    Valid [] e.fds 0 (mainLoop lines n) (session e lines n) := by
  cases lines with
  | nil => exact .exit
  | cons text lines =>
    rw [mainLoop, session]
    split
    · exact .exit
    · split
      · exact .getcmd hin rfl
      · exact .fork (hin.tidy _) (.parsecmd hin) (.wait (hin.tidy []) (.getcmd hin rfl))

/-- A shell process that has children does not find that it has none. -/
theorem any_isChild (h : s.kids p ≠ 0) : (List.range s.next).any (s.isChild p) = true := by
  obtain ⟨c, hc⟩ := Finset.card_ne_zero.mp h
  obtain ⟨hlt, hchild⟩ := mem_children.mp hc
  exact List.any_eq_true.mpr ⟨c, List.mem_range.mpr hlt, hchild⟩

/-- One instruction of a shell process. -/
theorem exec_inv (h : Inv fails lines s plan lost) (hpr : s.procs p = some pr) {i : Instr}
    {k : Code} (hstatus : pr.status = .shell (i :: k)) {ok : Bool} (hok : fails = false → ok = true)
    (ht : s.exec p pr k ok i = some t) : ∃ plan lost, Inv fails lines t plan lost := by
  have hvalid := h.ok p pr hpr
  rw [Process.Ok, hstatus] at hvalid
  have hp0 (M : Multiset Event) : M = M + 0 := (add_zero M).symm
  -- a call that failed: nothing more is started
  have hfail (hno : ok = false) :
      ∃ plan lost,
        Inv fails lines (s.setProc p { pr with status := .shell [.exit 1] }) plan lost := by
    apply h.goes hpr (.exit) (zero_add _).symm
    intro hf
    rw [hok hf] at hno
    cases hno
  cases i with
  | getcmd lines' j =>
    obtain ⟨rfl, hkids, hplace, e, hfds, hin, hM⟩ := hvalid.getcmd_inv
    cases ht
    refine h.goes hpr ?_ (hp0 _) (fun _ ↦ rfl)
    rw [hkids, hplace, hfds, hM, List.append_nil]
    exact valid_mainLoop hin lines' j
  | parsecmd text j =>
    obtain ⟨rfl, hkids, hplace, e, hfds, hin, hM⟩ := hvalid.parsecmd_inv
    unfold State.exec at ht
    dsimp only at ht
    cases hparse : parsed text with
    | none =>
      rw [hparse] at ht hM
      cases ht
      exact h.goes hpr .exit ((zero_add _).symm) (fun _ ↦ hM)
    | some cmd =>
      rw [hparse] at ht hM
      cases ht
      refine h.goes hpr ?_ (hp0 _) (fun _ ↦ rfl)
      rw [hkids, hplace, hfds, hM]
      exact .runcmd (hin.mono List.nil_suffix) List.suffix_rfl (parsed_standard hparse)
  | runcmd cmd place =>
    obtain ⟨rfl, hkids, hplace, hcmd, e, hfds, hin, hM⟩ := hvalid.runcmd_inv
    cases ht
    refine h.goes hpr ?_ (hp0 _) (fun _ ↦ rfl)
    rw [hkids, hfds, hM, List.append_nil]
    exact valid_runcmd (hin.mono hplace) hcmd
  | exec argv =>
    obtain ⟨rfl, hkids, hM, htidy⟩ := hvalid.exec_inv
    unfold State.exec at ht
    dsimp only at ht
    split at ht
    · cases ht
      have hplan : plan p = 0 + ({.exec argv pr.fds} + 0) := by rw [zero_add, add_zero, hM]
      have hprogram : (Process.mk pr.parent pr.fds (.program argv) pr.place).Ok (s.kids p) 0 :=
        ⟨htidy, hkids, rfl⟩
      exact ⟨_, _, h.change hpr hprogram hplan (fun _ ↦ rfl)⟩
    · next hno =>
      cases ht
      refine h.goes hpr .exit (zero_add _).symm ?_
      exact fun hf ↦ (hno (hok hf)).elim
  | close fd =>
    cases ht
    exact h.goes hpr hvalid.close_inv (hp0 _) (fun _ ↦ rfl)
  | dup fd =>
    cases ht
    exact h.goes hpr hvalid.dup_inv (hp0 _) (fun _ ↦ rfl)
  | openFile name mode =>
    obtain ⟨fds, hopen, hvalid⟩ := hvalid.openFile_inv
    unfold State.exec at ht
    dsimp only at ht
    rw [hopen] at ht
    cases ok with
    | true =>
      cases ht
      exact h.goes hpr hvalid (hp0 _) (fun _ ↦ rfl)
    | false =>
      cases ht
      exact hfail rfl
  | pipe left right place =>
    obtain ⟨rfl, hkids, rfl, hleft, hright, e, hfds, hin, hM⟩ := hvalid.pipe_inv
    unfold State.exec at ht
    dsimp only at ht
    rw [hfds, pipe_eq, ← hfds] at ht
    cases ok with
    | true =>
      cases ht
      have hplan : plan p = (wiring (0 :: pr.place) { e with stdout := .pipe pr.place true } left +
          wiring (1 :: pr.place) { e with stdin := .pipe pr.place false } right) +
            ({.pipe pr.place} + 0) := by
        rw [add_zero, hM, add_comm]
        rfl
      refine ⟨_, _, h.change hpr ?_ hplan (fun _ ↦ rfl)⟩
      rw [hkids, List.append_nil]
      exact valid_afterPipe hin hleft hright
    | false =>
      cases ht
      exact hfail rfl
  | fork child =>
    obtain ⟨M₁, M₂, hchild, hvalid, hM⟩ := hvalid.fork_inv
    unfold State.exec at ht
    dsimp only at ht
    split at ht
    · cases ht
      exact ⟨_, _, h.fork hpr hvalid hchild hM⟩
    · next hno =>
      cases ht
      exact hfail (Bool.eq_false_iff.mpr hno)
  | wait =>
    obtain ⟨-, m, hm, -⟩ := hvalid.wait_inv
    unfold State.exec at ht
    dsimp only at ht
    have hkids : s.kids p ≠ 0 := by
      rw [hm]
      exact Nat.succ_ne_zero m
    rw [if_pos (any_isChild hkids)] at ht
    cases ht
  | exit status =>
    cases ht
    exact ⟨_, _, h.exit hvalid.exit_inv.2⟩

/-- The step is not a call that failed. -/
def Act.Succeeds : Act → Prop
  | .step _ ok => ok = true
  | .wait _ _ | .close _ _ | .exit _ | .reap _ => True

/-- Every step keeps the invariant. -/
theorem step_inv {a : Act} (h : Inv fails lines s plan lost) (hok : fails = false → a.Succeeds)
    (ht : s.step a = some t) : ∃ plan lost, Inv fails lines t plan lost := by
  cases a with
  | step p ok =>
    unfold State.step at ht
    dsimp only at ht
    split at ht
    · next pr hpr =>
      split at ht
      · next i k hstatus => exact exec_inv h hpr hstatus hok ht
      · cases ht
    · cases ht
  | wait p c =>
    unfold State.step at ht
    dsimp only at ht
    split at ht
    · next pr ch hpr hch =>
      split at ht
      · next k hstatus hzombie =>
        obtain ⟨hparent, ht⟩ := Option.ite_none_right_eq_some.mp ht
        cases ht
        exact ⟨_, _, h.wait hpr hch hzombie hparent hstatus⟩
      · cases ht
    · cases ht
  | close p fd =>
    unfold State.step at ht
    dsimp only at ht
    split at ht
    · next pr hpr =>
      split at ht
      · next argv hstatus =>
        cases ht
        have hprogram := h.ok p pr hpr
        rw [Process.Ok, hstatus] at hprogram
        obtain ⟨htidy, hkids, hplan⟩ := hprogram
        have hweak : pr.fds.Tidy pr.place [.close fd] := by
          intro g f hf
          exact .inl ((htidy g f hf).resolve_right (fun hmem ↦ by cases hmem))
        have hprogram' :
            (Process.mk pr.parent (pr.fds.close fd) pr.status pr.place).Ok (s.kids p) 0 := by
          rw [Process.Ok]
          dsimp only
          rw [hstatus]
          exact ⟨hweak.close, hkids, rfl⟩
        exact h.quiet hpr hprogram' (hplan.trans (zero_add 0).symm) (fun _ ↦ rfl)
      · cases ht
    · cases ht
  | exit p =>
    unfold State.step at ht
    dsimp only at ht
    split at ht
    · next pr hpr =>
      split at ht
      · next argv hstatus =>
        cases ht
        have hprogram := h.ok p pr hpr
        rw [Process.Ok, hstatus] at hprogram
        exact ⟨_, _, h.exit hprogram.2.2⟩
      · cases ht
    · cases ht
  | reap c =>
    unfold State.step at ht
    dsimp only at ht
    split at ht
    · next ch hch =>
      split at ht
      · next hzombie =>
        obtain ⟨hparent, ht⟩ := Option.ite_none_right_eq_some.mp ht
        cases ht
        exact ⟨_, _, h.reap hch hzombie hparent⟩
      · cases ht
    · cases ht

theorem boot_procs (lines : List Text) {pr : Process} (hpr : (boot lines).procs p = some pr) :
    p = 0 ∧ pr = ⟨none, started.fds, .shell [.getcmd lines 0], []⟩ := by
  change Function.update (fun _ ↦ none) 0 _ p = some pr at hpr
  by_cases hp : p = 0
  · subst hp
    rw [Function.update_self] at hpr
    exact ⟨rfl, (Option.some.inj hpr).symm⟩
  · rw [Function.update_of_ne hp] at hpr
    cases hpr

theorem kids_boot (lines : List Text) (p : Nat) : (boot lines).kids p = 0 := by
  rw [State.kids, Finset.card_eq_zero, Finset.eq_empty_iff_forall_notMem]
  intro c hc
  have hchild := (mem_children.mp hc).2
  rw [State.isChild, Option.any_eq_true] at hchild
  obtain ⟨pr, hpr, hparent⟩ := hchild
  rw [(boot_procs lines hpr).2] at hparent
  simp at hparent

theorem boot_inv (fails : Bool) (lines : List Text) :
    ∃ plan lost, Inv fails lines (boot lines) plan lost := by
  refine ⟨fun p ↦ if p = 0 then session started lines 0 else 0, 0, ?_, ?_, ?_, ?_, fun _ ↦ rfl⟩
  · intro p hp
    have hne : p ≠ 0 := Nat.ne_of_gt hp
    change Function.update (fun _ ↦ none) 0 _ p = none
    rw [Function.update_of_ne hne]
  · intro p hp
    have hne : p ≠ 0 := by
      rintro rfl
      cases hp
    exact ⟨if_neg hne, kids_boot lines p⟩
  · intro p pr hpr
    obtain ⟨rfl, rfl⟩ := boot_procs lines hpr
    rw [kids_boot, if_pos rfl]
    exact .getcmd ⟨trivial, trivial, trivial⟩ rfl
  · change 0 + ∑ p ∈ Finset.range 1, (if p = 0 then _ else 0) + 0 = _
    rw [Finset.sum_range_one, if_pos rfl, zero_add, add_zero]

end

/-! ### What every run keeps -/

/-- The place of a pipe that was made. -/
def Event.pipePlace : Event → Option Place
  | .pipe place => some place
  | .exec _ _ => none

/-- The programs that were started have the files that the command lines give them, none is started
twice, and each pipe of the command lines is made once at most. -/
structure Wired (lines : List Text) (s : State) : Prop where
  log : s.log ≤ session started lines 0
  pipes : (s.log.filterMap Event.pipePlace).Nodup

/-- The process is about to close the descriptor, or to exit. -/
def Process.Drops (pr : Process) (fd : Nat) : Prop :=
  ∃ k, pr.status = .shell k ∧ (.close fd ∈ k ∨ ∃ status, k = [.exit status])

/-- A process has ends of those pipes only that its command reads from or writes to, unless it is
about to close them; while it waits for the commands of a pipe, it has no end of that pipe. -/
structure NoStray (s : State) : Prop where
  inside : ∀ p pr fd f, s.procs p = some pr → pr.fds fd = some f →
    f.Inside pr.place ∨ pr.Drops fd
  waits : ∀ p pr k fd writable, s.procs p = some pr → pr.status = .shell (.wait :: k) →
    pr.fds fd ≠ some (.pipe pr.place writable)

/-- The process runs a program, or is about to read a line or to run a command. -/
def Process.Starts (pr : Process) : Prop :=
  (∃ argv, pr.status = .program argv) ∨ ∃ i k, pr.status = .shell (i :: k) ∧ i.Starts

/-- Whatever a process started before it starts a command has exited, and was waited for. -/
def InOrder (s : State) : Prop :=
  ∀ p pr, s.procs p = some pr → pr.Starts → ∀ c, s.isChild p c = false

/-- The shell processes that are left. -/
def State.shells (s : State) : List Nat :=
  (List.range s.next).filter (fun p ↦ (s.procs p).any (fun pr ↦ pr.status.isShell))

/-- The pipes of a command. -/
def pipes (M : Multiset Event) : Multiset Place := M.filterMap Event.pipePlace

theorem pipes_add (M N : Multiset Event) : pipes (M + N) = pipes M + pipes N :=
  Multiset.filterMap_add _ _ _

theorem pipes_cons (place : Place) (M : Multiset Event) :
    pipes (.pipe place ::ₘ M) = place ::ₘ pipes M := Multiset.filterMap_cons_some _ _ _ rfl

theorem suffix_branch {m n : Nat} {place q : Place} (hm : m :: place <:+ q)
    (hn : n :: place <:+ q) :
    m = n := by
  have heq : m :: place = n :: place :=
    (List.suffix_of_suffix_length_le hm hn (Nat.le_refl _)).eq_of_length rfl
  exact (List.cons.inj heq).1

theorem pipes_branches {place : Place} {M N : Multiset Event}
    (hM : (pipes M).Nodup ∧ ∀ q ∈ pipes M, 0 :: place <:+ q)
    (hN : (pipes N).Nodup ∧ ∀ q ∈ pipes N, 1 :: place <:+ q) :
    (pipes (M + N)).Nodup ∧ ∀ q ∈ pipes (M + N), place <:+ q ∧ q ≠ place := by
  have hdeeper {n : Nat} {q : Place} (hq : n :: place <:+ q) : place <:+ q ∧ q ≠ place := by
    refine ⟨(place_suffix n place).trans hq, ?_⟩
    rintro rfl
    exact Nat.not_succ_le_self _ hq.length_le
  rw [pipes_add]
  constructor
  · rw [Multiset.nodup_add, Multiset.disjoint_left]
    refine ⟨hM.1, hN.1, ?_⟩
    intro q hq hq'
    cases suffix_branch (hM.2 q hq) (hN.2 q hq')
  · intro q hq
    rcases Multiset.mem_add.mp hq with hq | hq
    · exact hdeeper (hM.2 q hq)
    · exact hdeeper (hN.2 q hq)

/-- The pipes of a command are at different places inside of it. -/
theorem pipes_wiring (place : Place) (e : Env) (cmd : Cmd Text) :
    (pipes (wiring place e cmd)).Nodup ∧ ∀ q ∈ pipes (wiring place e cmd), place <:+ q := by
  induction cmd generalizing place e with
  | exec argv =>
    rw [wiring]
    split <;> exact ⟨Multiset.nodup_zero, fun q hq ↦ by cases hq⟩
  | redir cmd file mode fd ih =>
    obtain ⟨hnodup, hplace⟩ := ih (0 :: place) (e.set fd (.opened file mode))
    exact ⟨hnodup, fun q hq ↦ (place_suffix 0 place).trans (hplace q hq)⟩
  | list left right ihl ihr =>
    obtain ⟨hnodup, hplace⟩ := pipes_branches (ihl (0 :: place) e) (ihr (1 :: place) e)
    exact ⟨hnodup, fun q hq ↦ (hplace q hq).1⟩
  | pipe left right ihl ihr =>
    obtain ⟨hnodup, hplace⟩ := pipes_branches
      (ihl (0 :: place) { e with stdout := .pipe place true })
      (ihr (1 :: place) { e with stdin := .pipe place false })
    rw [wiring, pipes_cons, Multiset.nodup_cons]
    refine ⟨⟨fun hmem ↦ (hplace place hmem).2 rfl, hnodup⟩, ?_⟩
    intro q hq
    rcases Multiset.mem_cons.mp hq with rfl | hq
    · exact List.suffix_rfl
    · exact (hplace q hq).1
  | back cmd ih =>
    obtain ⟨hnodup, hplace⟩ := ih (0 :: place) e
    exact ⟨hnodup, fun q hq ↦ (place_suffix 0 place).trans (hplace q hq)⟩

/-- The pipes of different lines are different. -/
theorem pipes_session (e : Env) (lines : List Text) (n : Nat) :
    (pipes (session e lines n)).Nodup ∧
      ∀ q ∈ pipes (session e lines n), ∃ m, n ≤ m ∧ [m] <:+ q := by
  induction lines generalizing n with
  | nil => exact ⟨Multiset.nodup_zero, fun q hq ↦ by cases hq⟩
  | cons text lines ih =>
    obtain ⟨hnodup, hline⟩ := ih (n + 1)
    have hlater (q : Place) (hq : q ∈ pipes (session e lines (n + 1))) :
        ∃ m, n ≤ m ∧ [m] <:+ q := by
      obtain ⟨m, hm, hmq⟩ := hline q hq
      exact ⟨m, Nat.le_of_succ_le hm, hmq⟩
    rw [session]
    split
    · exact ⟨Multiset.nodup_zero, fun q hq ↦ by cases hq⟩
    · split
      · exact ⟨hnodup, hlater⟩
      · have hthis : (pipes ((parsed text).elim 0 (wiring [n] e))).Nodup ∧
            ∀ q ∈ pipes ((parsed text).elim 0 (wiring [n] e)), [n] <:+ q := by
          cases parsed text with
          | none => exact ⟨Multiset.nodup_zero, fun q hq ↦ by cases hq⟩
          | some cmd => exact pipes_wiring [n] e cmd
        rw [pipes_add]
        constructor
        · rw [Multiset.nodup_add, Multiset.disjoint_left]
          refine ⟨hthis.1, hnodup, ?_⟩
          intro q hq hq'
          obtain ⟨m, hm, hmq⟩ := hline q hq'
          have heq := suffix_branch (hthis.2 q hq) hmq
          omega
        · intro q hq
          rcases Multiset.mem_add.mp hq with hq | hq
          · exact ⟨n, Nat.le_refl n, hthis.2 q hq⟩
          · exact hlater q hq

section
variable {fails : Bool} {lines : List Text} {s : State} {plan : Nat → Multiset Event}
  {lost : Multiset Event}

theorem Inv.wired (h : Inv fails lines s plan lost) : Wired lines s := by
  have hle : s.log ≤ session started lines 0 := by
    rw [← h.total, add_assoc]
    exact Multiset.le_add_right _ _
  exact ⟨hle, Multiset.nodup_of_le (Multiset.filterMap_le_filterMap _ hle)
    (pipes_session started lines 0).1⟩

theorem Inv.noStray (h : Inv fails lines s plan lost) : NoStray s := by
  constructor
  · intro p pr fd f hpr hf
    have hok := h.ok p pr hpr
    rw [Process.Ok] at hok
    split at hok
    · next k hstatus =>
      rcases hok.tidy with htidy | ⟨status, hexit⟩
      · exact (htidy fd f hf).imp_right (fun hmem ↦ ⟨k, hstatus, .inl hmem⟩)
      · exact .inr ⟨k, hstatus, .inr ⟨status, hexit⟩⟩
    · exact .inl ((hok.1 fd f hf).resolve_right (fun hmem ↦ by cases hmem))
    · rw [hok.1 fd] at hf
      cases hf
  · intro p pr k fd writable hpr hstatus hf
    have hok := h.ok p pr hpr
    rw [Process.Ok, hstatus] at hok
    have hin := (hok.wait_inv.1 fd _ hf).resolve_right (fun hmem ↦ by cases hmem)
    exact Nat.not_succ_le_self _ (List.IsSuffix.length_le hin)

theorem Inv.inOrder (h : Inv fails lines s plan lost) : InOrder s := by
  intro p pr hpr hstarts c
  have hok := h.ok p pr hpr
  have hkids : s.kids p = 0 := by
    rcases hstarts with ⟨argv, hstatus⟩ | ⟨i, k, hstatus, hi⟩
    · rw [Process.Ok, hstatus] at hok
      exact hok.2.1
    · rw [Process.Ok, hstatus] at hok
      exact hok.childless hi
  rw [Bool.eq_false_iff]
  intro hchild
  have hlt : c < s.next := by
    obtain ⟨pr', hpr', -⟩ := (Option.any_eq_true _ _).mp hchild
    exact h.lt_next hpr'
  have hmem : c ∈ s.children p := mem_children.mpr ⟨hlt, hchild⟩
  rw [Finset.card_eq_zero.mp hkids] at hmem
  cases hmem

/-- When no shell process is left, there is nothing left to start. -/
theorem Inv.done (h : Inv false lines s plan lost) (hdone : s.shells = []) :
    s.log = session started lines 0 := by
  have hplan (p : Nat) : plan p = 0 := by
    cases hpr : s.procs p with
    | none => exact (h.gone p hpr).1
    | some pr =>
      have hok := h.ok p pr hpr
      rw [Process.Ok] at hok
      split at hok
      · next k hstatus =>
        have hmem : p ∈ s.shells := by
          rw [State.shells, List.mem_filter, List.mem_range]
          refine ⟨h.lt_next hpr, ?_⟩
          rw [hpr, Option.any_some, hstatus]
          rfl
        rw [hdone] at hmem
        cases hmem
      · exact hok.2.2
      · exact hok.2.2
  have htotal := h.total
  rw [Finset.sum_eq_zero (fun p _ ↦ hplan p), h.lost rfl, add_zero, add_zero] at htotal
  exact htotal

end

/-- What the invariant says holds in every state of every run. -/
theorem always_of_inv {lines : List Text} {P : State → Prop}
    (hP : ∀ s plan lost, Inv true lines s plan lost → P s) (as : List Act) :
    Always State.step P (boot lines) as :=
  always_of_invariant (J := fun s ↦ ∃ plan lost, Inv true lines s plan lost)
    (fun s hs ↦ hs.elim (fun plan hs ↦ hs.elim (hP s plan)))
    (fun _ _ _ hs ht ↦
      hs.elim (fun _ hs ↦ hs.elim (fun _ h ↦ step_inv h (fun he ↦ by cases he) ht)))
    (boot_inv true lines) as

/-- Whatever the lines say, which calls fail, and in which order the processes run. -/
theorem commands_wired (lines : List Text) (as : List Act) :
    Always State.step (Wired lines) (boot lines) as :=
  always_of_inv (fun _ _ _ h ↦ h.wired) as

theorem no_stray_files (lines : List Text) (as : List Act) :
    Always State.step NoStray (boot lines) as :=
  always_of_inv (fun _ _ _ h ↦ h.noStray) as

theorem commands_in_order (lines : List Text) (as : List Act) :
    Always State.step InOrder (boot lines) as :=
  always_of_inv (fun _ _ _ h ↦ h.inOrder) as

/-- If no call fails, then all programs of the command lines have been started when no shell
process is left. -/
theorem all_started {lines : List Text} {as : List Act} {s : State}
    (hok : ∀ a ∈ as, a.Succeeds) (hrun : run State.step (boot lines) as = some s)
    (hdone : s.shells = []) : s.log = session started lines 0 := by
  have hinv : ∃ plan lost, Inv false lines s plan lost := by
    refine run_invariant_along (P := fun s ↦ ∃ plan lost, Inv false lines s plan lost) ?_
      (boot_inv false lines) (Along.of_forall hok _) hrun
    rintro s a t ⟨plan, lost, h⟩ ha ht
    exact step_inv h (fun _ ↦ ha) ht
  obtain ⟨plan, lost, h⟩ := hinv
  exact h.done hdone

/-- A run for a line with one pipe. -/
def pipelineRun : List Act :=
  List.replicate 2 (.step 0 true) ++ List.replicate 7 (.step 1 true) ++
    List.replicate 6 (.step 2 true) ++ [.exit 2] ++ List.replicate 6 (.step 3 true) ++
    [.exit 3, .wait 1 2, .wait 1 3, .step 1 true, .wait 0 1, .step 0 true, .step 0 true]

theorem all_started_pipeline :
    (run State.step (boot [chars "a|b"]) pipelineRun).map State.log =
      some (session started [chars "a|b"] 0) := by
  have hend : (run State.step (boot [chars "a|b"]) pipelineRun).map State.shells = some [] := by
    decide +kernel
  obtain ⟨s, hrun, hdone⟩ := Option.map_eq_some_iff.mp hend
  have hok : ∀ a ∈ pipelineRun, a.Succeeds := by
    simp [pipelineRun, Act.Succeeds]
  rw [hrun]
  exact congrArg some (all_started hok hrun hdone)

end Xv6.Sh
