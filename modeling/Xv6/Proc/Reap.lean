import Xv6.Proc.Sections

/-!
# Exit statuses are reaped exactly once, by the parent

Every step of every process keeps the invariant, and the only step that frees a slot is the
section of the parent's `wait` that finds the zombie there.
-/

namespace Xv6.Proc

open Xv6.Lib

/-- No pid exits or is reaped twice, and a reap returns a pid that exited, with its status. -/
def ReapedOnce (s : Sys) : Prop :=
  (s.events.filterMap Event.exited).Nodup ∧ (s.events.filterMap Event.reaped).Nodup ∧
  ∀ caller pid status, .reap caller pid status ∈ s.events → .exit pid status ∈ s.events

/-- A step frees slot `i` exactly when it is the section of the parent's `wait` that finds the
zombie there; it then returns the pid and the exit status of that process. Every other
step records no reap. -/
def FreedByParent (s : Sys) (a : Act) (t : Sys) : Prop :=
  (∀ i, Live s i → ¬ Live t i →
    ∃ p havekids, a = .cont p true ∧ s.pc p = .waitScan i havekids ∧
      (s.proc i).parent = some p ∧ (s.proc i).state = .ZOMBIE ∧
      t.events = s.events ++ [Event.reap (s.proc p).pid (s.proc i).pid (s.proc i).xstate]) ∧
  ((∀ i, Live s i → Live t i) →
    t.events.filterMap Event.reaped = s.events.filterMap Event.reaped)

/-- A failing `copyout` in `wait` leaves the whole table as it was. -/
def FaultKeepsZombie (s : Sys) (a : Act) (t : Sys) : Prop :=
  ∀ (p i : Slot) (havekids : Bool), a = .cont p false → s.pc p = .waitScan i havekids →
    (s.proc i).parent = some p → (s.proc i).state = .ZOMBIE →
    t.toTable = s.toTable ∧ t.pc p = .user ∧ t.events = s.events

/-! ### Whole steps and runs -/

/-- A section of a process inside a call keeps the invariant. -/
theorem inv_cont {s t : Sys} (hs : Inv s) {p : Slot} {ok : Bool} (ht : s.cont p ok = some t)
    (hb : t.creations < 2 ^ 31 - 1) : Inv t := by
  have hok := hs.family.pcs p
  unfold Sys.cont at ht
  split at ht
  · cases ht
  · next i hpc =>
    rw [hpc] at hok
    split at ht
    · next hi =>
      split at ht
      · next hfree =>
        cases Option.some.inj ht
        cases ok with
        | true => exact inv_forkTake hs hok hfree hb
        | false => exact inv_forkFail hs hfree hb
      · cases Option.some.inj ht
        exact hs.goto hok rfl
    · cases Option.some.inj ht
      exact hs.goto True.intro rfl
  · next np hpc =>
    split at ht
    · cases Option.some.inj ht
      exact inv_forkSetParent hs hpc
    · cases ht
  · next np hpc =>
    cases Option.some.inj ht
    exact inv_forkFinish hs hpc
  · next status hpc =>
    rw [hpc] at hok
    split at ht
    · cases Option.some.inj ht
      have h : Same s { s.goto p (.exitReparent status 0) with waitLock := some p } :=
        (Same.refl s).of_table rfl rfl rfl rfl
      refine h.inv hs p (.exitReparent status 0) rfl ⟨hok.1, hok.2, ?_⟩ (Or.inl rfl)
      exact fun i hi ↦ (Nat.not_lt_zero _ hi).elim
    · cases ht
  · next status i hpc =>
    split at ht
    · next hi =>
      split at ht
      · next hpar =>
        cases Option.some.inj ht
        exact inv_giveToInit hs (i := ⟨i, hi⟩) hpc hpar
      · next hpar =>
        rw [hpc] at hok
        cases Option.some.inj ht
        refine hs.goto ⟨hok.1, hok.2.1, ?_⟩ rfl
        intro j hj
        by_cases hji : j.val = i
        · have : j = ⟨i, hi⟩ := Fin.ext hji
          rw [this]
          exact hpar
        · exact hok.2.2 j (by omega)
    · next hi =>
      rw [hpc] at hok
      cases Option.some.inj ht
      exact hs.goto ⟨hok.1, hok.2.1, fun j ↦ hok.2.2 j (by omega)⟩ rfl
  · next status i j hpc =>
    rw [hpc] at hok
    split at ht
    · cases Option.some.inj ht
      exact hs.wakeSlot hok rfl
    · cases Option.some.inj ht
      exact hs.goto hok rfl
  · next status j hpc =>
    rw [hpc] at hok
    split at ht
    · cases Option.some.inj ht
      exact hs.wakeSlot hok rfl
    · cases Option.some.inj ht
      exact hs.goto hok rfl
  · next status hpc =>
    cases Option.some.inj ht
    exact inv_becomeZombie hs hpc
  · next hpc =>
    rw [hpc] at hok
    split at ht
    · cases Option.some.inj ht
      have h : Same s { s.goto p (.waitScan 0 false) with waitLock := some p } :=
        (Same.refl s).of_table rfl rfl rfl rfl
      exact h.inv hs p (.waitScan 0 false) rfl hok (Or.inl rfl)
    · cases ht
  · next i havekids hpc =>
    rw [hpc] at hok
    split at ht
    · next hi =>
      split at ht
      · split at ht
        · next hz =>
          cases Option.some.inj ht
          cases ok with
          | true => exact inv_reap hs hz
          | false => exact hs.leave p
        · cases Option.some.inj ht
          exact hs.goto hok rfl
      · cases Option.some.inj ht
        exact hs.goto hok rfl
    · split at ht
      · cases Option.some.inj ht
        exact hs.goto hok rfl
      · cases Option.some.inj ht
        exact hs.leave p
  · next hpc =>
    rw [hpc] at hok
    split at ht
    · cases Option.some.inj ht
      exact hs.leave p
    · cases Option.some.inj ht
      exact hs.goto hok rfl
  · next hpc =>
    rw [hpc] at hok
    cases Option.some.inj ht
    have h : Same s (s.setProc p { s.proc p with chan := some p, state := .SLEEPING }) :=
      Same.setProc rfl rfl rfl (Or.inr ⟨hok, Or.inr (Or.inr rfl)⟩)
    exact Same.inv (h.of_table rfl rfl rfl rfl) hs p .waitAcquire rfl hok (Or.inl rfl)
  · next pid i hpc =>
    rw [hpc] at hok
    split at ht
    · split at ht
      · cases Option.some.inj ht
        exact Same.inv ((Same.kill _).of_table rfl rfl rfl rfl) hs p .user rfl True.intro
          (Or.inl rfl)
      · cases Option.some.inj ht
        exact hs.goto hok rfl
    · cases Option.some.inj ht
      exact hs.goto True.intro rfl

theorem inv_enter {s t : Sys} (hs : Inv s) {p : Slot} {pc : Pc} (ht : s.enter p pc = some t)
    (hok : Active s p → PcOk s p pc) (hchild : pc.child = none) : Inv t := by
  unfold Sys.enter at ht
  split at ht
  · next h =>
    cases Option.some.inj ht
    exact hs.goto (hok (Or.inr (Or.inl h.1))) hchild
  · cases ht

/-- Every step keeps the invariant while pids do not run out. -/
theorem inv_step {s t : Sys} {a : Act} (hs : Inv s) (ht : s.step a = some t)
    (hb : t.creations < 2 ^ 31 - 1) : Inv t := by
  cases a with
  | fork p => exact inv_enter hs ht id rfl
  | exit p status =>
    simp only [Sys.step] at ht
    split at ht
    · cases ht
    · next hne => exact inv_enter hs ht (fun hp ↦ ⟨hp, hne⟩) rfl
  | wait p => exact inv_enter hs ht id rfl
  | kill p pid => exact inv_enter hs ht id rfl
  | cont p ok =>
    simp only [Sys.step] at ht
    split at ht
    · exact inv_cont hs ht hb
    · cases ht
  | sched p =>
    simp only [Sys.step] at ht
    split at ht
    · next h =>
      cases Option.some.inj ht
      have hsame : Same s (s.setProc p { s.proc p with state := .RUNNING, chan := none }) :=
        Same.setProc rfl rfl rfl (Or.inr ⟨Or.inl h, Or.inr (Or.inl rfl)⟩)
      refine hsame.inv hs p (s.pc p) ?_ (hs.family.pcs p) (Or.inr rfl)
      simp [Sys.setProc]
    · cases ht
  | yield p =>
    simp only [Sys.step] at ht
    split at ht
    · next h =>
      cases Option.some.inj ht
      have hsame : Same s (s.setProc p { s.proc p with state := .RUNNABLE }) :=
        Same.setProc rfl rfl rfl (Or.inr ⟨Or.inr (Or.inl h.1), Or.inl rfl⟩)
      refine hsame.inv hs p (s.pc p) ?_ (hs.family.pcs p) (Or.inr rfl)
      simp [Sys.setProc]
    · cases ht

/-- A step that frees no slot and records no reap. -/
structure Keeps (s t : Sys) : Prop where
  live : ∀ i, Live s i → Live t i
  reaps : t.events.filterMap Event.reaped = s.events.filterMap Event.reaped
  creations : s.creations ≤ t.creations

theorem Same.keeps {s t : Sys} (h : Same s t) : Keeps s t :=
  ⟨fun i hi ↦ (h.live_iff i).mpr hi, by rw [h.events], h.creations.ge⟩

/-- Replacing a slot by one that is live, or by anything where the slot was free. -/
theorem Keeps.of_set {s t : Sys} {i : Slot} {q : Proc}
    (hproc : ∀ j, t.proc j = if j = i then q else s.proc j)
    (hq : q.state ≠ .UNUSED ∨ (s.proc i).state = .UNUSED)
    (hreaps : t.events.filterMap Event.reaped = s.events.filterMap Event.reaped)
    (hcre : s.creations ≤ t.creations) : Keeps s t := by
  refine ⟨?_, hreaps, hcre⟩
  intro j hj
  unfold Live at hj ⊢
  rw [hproc]
  split
  · next hji =>
    subst hji
    rcases hq with hq | hq
    · exact hq
    · exact (hj hq).elim
  · exact hj

/-- What a section does to the occupied slots: it frees none, or it is the reaping of a zombie
by its parent. -/
theorem keeps_or_reap {s t : Sys} {p : Slot} {ok : Bool} (ht : s.cont p ok = some t) :
    Keeps s t ∨ ∃ (i : Slot) (havekids : Bool), ok = true ∧ s.pc p = .waitScan i havekids ∧
      (s.proc i).parent = some p ∧ (s.proc i).state = .ZOMBIE ∧ t = s.reap p i := by
  have hgoto {u : Sys} (htab : u.toTable = s.toTable) (hc : u.creations = s.creations)
      (hf : u.forkedBy = s.forkedBy) (he : u.events = s.events) : Keeps s u :=
    ((Same.refl s).of_table htab hc hf he).keeps
  have hwake (q : Slot) (c : Option Slot) (j : Slot) (pc : Pc) :
      Keeps s ((s.wakeSlot q c j).goto q pc) :=
    Same.keeps ((Same.wakeSlot q c j).of_table rfl rfl rfl rfl)
  unfold Sys.cont at ht
  split at ht
  · cases ht
  · split at ht
    · split at ht
      · next hfree =>
        cases Option.some.inj ht
        refine Or.inl ?_
        split
        · exact Keeps.of_set (proc_forkTake s p _) (Or.inr hfree) rfl (Nat.le_succ _)
        · exact Keeps.of_set (proc_forkFail s p _) (Or.inr hfree) rfl (Nat.le_succ _)
      · cases Option.some.inj ht
        exact Or.inl (hgoto rfl rfl rfl rfl)
    · cases Option.some.inj ht
      exact Or.inl (hgoto rfl rfl rfl rfl)
  · next np _ =>
    split at ht
    · cases Option.some.inj ht
      refine Or.inl ⟨?_, rfl, le_refl _⟩
      intro i hi
      have hproc : (s.forkSetParent p np).proc i =
        if i = np then { s.proc np with parent := some p } else s.proc i := Table.set_proc _ _ _ _
      unfold Live at hi ⊢
      rw [hproc]
      split
      · next h => subst h; exact hi
      · exact hi
    · cases ht
  · next np _ =>
    cases Option.some.inj ht
    refine Or.inl (Keeps.of_set (i := np) (fun j ↦ Table.set_proc _ _ _ _) ?_ rfl (le_refl _))
    exact Or.inl (by simp)
  · split at ht
    · cases Option.some.inj ht
      exact Or.inl (hgoto rfl rfl rfl rfl)
    · cases ht
  · next status i _ =>
    split at ht
    · next hi =>
      split at ht
      · cases Option.some.inj ht
        refine Or.inl ⟨?_, rfl, le_refl _⟩
        intro j hj
        have hproc : (s.giveToInit p ⟨i, hi⟩ status).proc j =
          if j = ⟨i, hi⟩ then { s.proc ⟨i, hi⟩ with parent := some s.initproc }
          else s.proc j := Table.set_proc _ _ _ _
        unfold Live at hj ⊢
        rw [hproc]
        split
        · next h => subst h; exact hj
        · exact hj
      · cases Option.some.inj ht
        exact Or.inl (hgoto rfl rfl rfl rfl)
    · cases Option.some.inj ht
      exact Or.inl (hgoto rfl rfl rfl rfl)
  · split at ht
    · cases Option.some.inj ht
      exact Or.inl (hwake p _ _ _)
    · cases Option.some.inj ht
      exact Or.inl (hgoto rfl rfl rfl rfl)
  · split at ht
    · cases Option.some.inj ht
      exact Or.inl (hwake p _ _ _)
    · cases Option.some.inj ht
      exact Or.inl (hgoto rfl rfl rfl rfl)
  · next status _ =>
    cases Option.some.inj ht
    refine Or.inl (Keeps.of_set (i := p) (fun j ↦ Table.set_proc _ _ _ _) ?_ ?_ (le_refl _))
    · exact Or.inl (by simp)
    · exact filterMap_reaped_exit _ _ _
  · split at ht
    · cases Option.some.inj ht
      exact Or.inl (hgoto rfl rfl rfl rfl)
    · cases ht
  · next i havekids hpc =>
    split at ht
    · next hi =>
      split at ht
      · next hpar =>
        split at ht
        · next hz =>
          cases Option.some.inj ht
          cases ok with
          | true => exact Or.inr ⟨⟨i, hi⟩, havekids, rfl, hpc, hpar, hz, rfl⟩
          | false => exact Or.inl (hgoto rfl rfl rfl rfl)
        · cases Option.some.inj ht
          exact Or.inl (hgoto rfl rfl rfl rfl)
      · cases Option.some.inj ht
        exact Or.inl (hgoto rfl rfl rfl rfl)
    · split at ht
      · cases Option.some.inj ht
        exact Or.inl (hgoto rfl rfl rfl rfl)
      · cases Option.some.inj ht
        exact Or.inl (hgoto rfl rfl rfl rfl)
  · split at ht
    · cases Option.some.inj ht
      exact Or.inl (hgoto rfl rfl rfl rfl)
    · cases Option.some.inj ht
      exact Or.inl (hgoto rfl rfl rfl rfl)
  · cases Option.some.inj ht
    refine Or.inl (Keeps.of_set (i := p) (fun j ↦ Table.set_proc _ _ _ _) ?_ rfl (le_refl _))
    exact Or.inl (by simp)
  · split at ht
    · split at ht
      · cases Option.some.inj ht
        exact Or.inl (Same.keeps ((Same.kill _).of_table rfl rfl rfl rfl))
      · cases Option.some.inj ht
        exact Or.inl (hgoto rfl rfl rfl rfl)
    · cases Option.some.inj ht
      exact Or.inl (hgoto rfl rfl rfl rfl)

theorem keeps_enter {s t : Sys} {p : Slot} {pc : Pc} (ht : s.enter p pc = some t) :
    Keeps s t := by
  unfold Sys.enter at ht
  split at ht
  · cases Option.some.inj ht
    exact Same.keeps ((Same.refl s).of_table rfl rfl rfl rfl)
  · cases ht

/-- The same for any step of the system. -/
theorem keeps_or_reap_step {s t : Sys} {a : Act} (ht : s.step a = some t) :
    Keeps s t ∨ ∃ (p i : Slot) (havekids : Bool), a = .cont p true ∧
      s.pc p = .waitScan i havekids ∧ (s.proc i).parent = some p ∧
      (s.proc i).state = .ZOMBIE ∧ t = s.reap p i := by
  cases a with
  | fork p => exact Or.inl (keeps_enter ht)
  | exit p status =>
    simp only [Sys.step] at ht
    split at ht
    · cases ht
    · exact Or.inl (keeps_enter ht)
  | wait p => exact Or.inl (keeps_enter ht)
  | kill p pid => exact Or.inl (keeps_enter ht)
  | cont p ok =>
    simp only [Sys.step] at ht
    split at ht
    · rcases keeps_or_reap ht with h | ⟨i, havekids, rfl, h⟩
      · exact Or.inl h
      · exact Or.inr ⟨p, i, havekids, rfl, h⟩
    · cases ht
  | sched p =>
    simp only [Sys.step] at ht
    split at ht
    · cases Option.some.inj ht
      refine Or.inl (Keeps.of_set (i := p) (fun j ↦ Table.set_proc _ _ _ _) ?_ rfl (le_refl _))
      exact Or.inl (by simp)
    · cases ht
  | yield p =>
    simp only [Sys.step] at ht
    split at ht
    · cases Option.some.inj ht
      refine Or.inl (Keeps.of_set (i := p) (fun j ↦ Table.set_proc _ _ _ _) ?_ rfl (le_refl _))
      exact Or.inl (by simp)
    · cases ht

/-- The number of pids handed out never falls. -/
theorem creations_mono {s t : Sys} {a : Act} (ht : s.step a = some t) :
    s.creations ≤ t.creations := by
  rcases keeps_or_reap_step ht with h | ⟨p, i, havekids, -, -, -, -, rfl⟩
  · exact h.creations
  · exact le_refl _

theorem proc_boot (i : Slot) : Sys.boot.proc i =
    if i = 0 then { Proc.zero with state := .RUNNABLE, pid := 1 } else Proc.zero := by
  revert i
  decide

theorem inv_boot : Inv Sys.boot := by
  have hlive {i : Slot} (h : Live Sys.boot i) : i = 0 := by
    by_contra hne
    simp [Live, proc_boot, hne, Proc.zero] at h
  refine ⟨⟨rfl, ?_, ?_⟩, ⟨Or.inl rfl, ?_, fun _ ↦ True.intro, fun _ _ _ h ↦ by cases h⟩, ?_⟩
  · intro i hi
    rw [hlive hi]
    decide
  · intro i j hi hj _
    rw [hlive hi, hlive hj]
  · intro i hne hst
    refine (hne ?_).elim
    apply hlive
    rcases hst with ha | hz
    · exact ha.live
    · simp [Live, hz]
  · refine ⟨?_, fun _ _ h ↦ (by cases h), List.nodup_nil, fun _ _ _ h ↦ (by cases h),
      List.nodup_nil⟩
    intro i hz
    exfalso
    revert i
    decide

/-- Every state of a run in which fewer than `2 ^ 31 - 1` pids were handed out satisfies the
invariant. -/
theorem inv_run {s : Sys} {as : List Act} (hrun : run Sys.step Sys.boot as = some s)
    (hb : s.creations < 2 ^ 31 - 1) : Inv s := by
  have h : Reaches Sys.step Sys.boot s := ⟨as, hrun⟩
  refine h.invariant (P := fun s ↦ s.creations < 2 ^ 31 - 1 → Inv s) ?_ (fun _ ↦ inv_boot) hb
  intro s a t hs ht hb
  exact inv_step (hs (lt_of_le_of_lt (creations_mono ht) hb)) ht hb

/-- Only the parent's `wait` frees a slot. -/
theorem freedByParent_step {s t : Sys} {a : Act} (ht : s.step a = some t) :
    FreedByParent s a t := by
  rcases keeps_or_reap_step ht with h | ⟨p, i, havekids, rfl, hpc, hpar, hz, rfl⟩
  · exact ⟨fun i hi hn ↦ (hn (h.live i hi)).elim, fun _ ↦ h.reaps⟩
  · have hproc (j : Slot) : (s.reap p i).proc j =
        if j = i then (s.proc i).free else s.proc j := Table.set_proc _ _ _ _
    constructor
    · intro j hj hn
      have hji : j = i := by
        by_contra hne
        simp only [Live, hproc, if_neg hne] at hn
        exact hn hj
      subst hji
      exact ⟨p, havekids, rfl, hpc, hpar, hz, rfl⟩
    · intro hall
      have := hall i (by simp [Live, hz])
      simp [Live, hproc, Proc.free] at this

theorem faultKeepsZombie_step {s t : Sys} {a : Act} (ht : s.step a = some t) :
    FaultKeepsZombie s a t := by
  rintro p i havekids rfl hpc hpar hz
  simp only [Sys.step] at ht
  split at ht
  · simp only [Sys.cont, hpc, i.isLt, dif_pos, Fin.eta, hpar, hz, if_true] at ht
    cases Option.some.inj ht
    exact ⟨rfl, Function.update_self p _ _, rfl⟩
  · cases ht

/-- In every run that hands out fewer than `2 ^ 31 - 1` pids: pids of live processes are
distinct, parent pointers lead to the process that forked a child or to init, each exit
status is reaped at most once, by the parent and with the right status, a slot is freed only
then, and a failing `copyout` leaves the zombie. -/
theorem exits_reaped_once {s : Sys} {as : List Act} (hrun : run Sys.step Sys.boot as = some s)
    (hb : s.creations < 2 ^ 31 - 1) :
    DistinctPids s ∧ ParentsValid s ∧ ReapedOnce s ∧
    ∀ a t, s.step a = some t → FreedByParent s a t ∧ FaultKeepsZombie s a t := by
  have h := inv_run hrun hb
  refine ⟨h.pids.distinct, h.family.parents, ⟨h.history.exits, h.history.reaps, ?_⟩, ?_⟩
  · intro caller pid status he
    exact (h.history.reaped caller pid status he).1
  · intro a t ht
    exact ⟨freedByParent_step ht, faultKeepsZombie_step ht⟩

/-- Init forks a child, which exits with status 7, and waits for it. -/
def forkExitWait : List Act :=
  [Act.sched 0, Act.fork 0] ++ List.replicate 4 (Act.cont 0 true) ++ [Act.sched 1, Act.exit 1 7] ++
    List.replicate 132 (Act.cont 1 true) ++ [Act.wait 0] ++ List.replicate 3 (Act.cont 0 true)

theorem exits_reaped_once_forkExitWait :
    ∃ s, run Sys.step Sys.boot forkExitWait = some s ∧ s.creations < 2 ^ 31 - 1 ∧
      s.events = [.exit 2 7, .reap 1 2 7] ∧ ReapedOnce s := by
  have hs : (run Sys.step Sys.boot forkExitWait).map (fun s ↦ (s.creations, s.events)) =
      some (2, [.exit 2 7, .reap 1 2 7]) := by decide +kernel
  obtain ⟨s, hrun, he⟩ := Option.map_eq_some_iff.mp hs
  obtain ⟨hc, he⟩ := Prod.mk.inj he
  have hb : s.creations < 2 ^ 31 - 1 := by rw [hc]; decide
  exact ⟨s, hrun, hb, he, (exits_reaped_once hrun hb).2.2.1⟩

end Xv6.Proc
