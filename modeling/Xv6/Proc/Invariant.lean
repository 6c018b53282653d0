import Xv6.Proc.Lifecycle

/-!
# The invariant of the interleaved process table

It bounds the pids by `nextpid`, keeps the parent pointer of every started process on the
process that forked it or on init, and ties the recorded history of exits and reaps to the
zombies in the table. Most sections change nothing that the invariant mentions but the
position of one process (`Same.inv`).
-/

namespace Xv6.Proc

open Xv6.Lib

/-- A process that the scheduler may run, now or after a wakeup. -/
def Active (s : Sys) (i : Slot) : Prop :=
  (s.proc i).state = .RUNNABLE ∨ (s.proc i).state = .RUNNING ∨ (s.proc i).state = .SLEEPING

/-- A slot that is not `UNUSED`. -/
def Live (s : Sys) (i : Slot) : Prop := (s.proc i).state ≠ .UNUSED

/-- A process that `fork` has finished building: active or a zombie. -/
def Started (s : Sys) (i : Slot) : Prop := Active s i ∨ (s.proc i).state = .ZOMBIE

/-- Live processes have pairwise distinct pids. -/
def DistinctPids (s : Sys) : Prop :=
  ∀ i j, Live s i → Live s j → (s.proc i).pid = (s.proc j).pid → i = j

/-- The parent pointer of every started process but init leads to an active process, which is
init or the very process that forked it. -/
def ParentsValid (s : Sys) : Prop :=
  ∀ i, i ≠ s.initproc → Started s i → ∃ q, (s.proc i).parent = some q ∧ Active s q ∧
    (q = s.initproc ∨ (s.proc q).pid = s.forkedBy i)
/-- What the position of process `p` says about the table. -/
def PcOk (s : Sys) (p : Slot) : Pc → Prop
  | .user => True
  | .forkParent np => Active s p ∧ (s.proc np).state = .USED
  | .forkRun np => Active s p ∧ (s.proc np).state = .USED ∧ (s.proc np).parent = some p ∧
      s.forkedBy np = (s.proc p).pid
  | .exitAcquire _ => Active s p ∧ p ≠ s.initproc
  | .exitReparent _ k => Active s p ∧ p ≠ s.initproc ∧
      ∀ i : Slot, i.val < k → (s.proc i).parent ≠ some p
  | .exitWakeInit _ k _ => Active s p ∧ p ≠ s.initproc ∧
      ∀ i : Slot, i.val < k + 1 → (s.proc i).parent ≠ some p
  | .exitWakeParent _ _ | .exitZombie _ => Active s p ∧ p ≠ s.initproc ∧
      ∀ i : Slot, (s.proc i).parent ≠ some p
  | _ => Active s p

/-- The child that a process at this position is building. -/
def Pc.child : Pc → Option Slot
  | .forkParent np | .forkRun np => some np
  | _ => none

/-- Pids are handed out in increasing order, and a live process has one of its own. -/
structure PidInv (s : Sys) : Prop where
  nextpid : s.nextpid = s.creations + 1
  range : ∀ i, Live s i → 1 ≤ (s.proc i).pid ∧ (s.proc i).pid < s.nextpid
  distinct : DistinctPids s

/-- Init stays active, parents are valid, each position fits the table, and no two processes
build the same child. -/
structure FamilyInv (s : Sys) : Prop where
  init : Active s s.initproc
  parents : ParentsValid s
  pcs : ∀ p, PcOk s p (s.pc p)
  forker : ∀ p q np, (s.pc p).child = some np → (s.pc q).child = some np → p = q

/-- The zombies in the table are the processes that exited and were not reaped. -/
structure HistoryInv (s : Sys) : Prop where
  zombie : ∀ i, (s.proc i).state = .ZOMBIE → .exit (s.proc i).pid (s.proc i).xstate ∈ s.events
  exited : ∀ pid status, .exit pid status ∈ s.events → pid < s.nextpid ∧
    ∀ i, Live s i → (s.proc i).pid = pid → (s.proc i).state = .ZOMBIE
  exits : (s.events.filterMap Event.exited).Nodup
  reaped : ∀ caller pid status, .reap caller pid status ∈ s.events →
    .exit pid status ∈ s.events ∧ ∀ i, Live s i → (s.proc i).pid ≠ pid
  reaps : (s.events.filterMap Event.reaped).Nodup

/-- The invariant of the interleaved process table. -/
structure Inv (s : Sys) : Prop where
  pids : PidInv s
  family : FamilyInv s
  history : HistoryInv s

theorem Active.live {s : Sys} {i : Slot} (h : Active s i) : Live s i := by
  rcases h with h | h | h <;> simp [Live, h]

theorem Active.not_zombie {s : Sys} {i : Slot} (h : Active s i) :
    (s.proc i).state ≠ .ZOMBIE := by
  rcases h with h | h | h <;> simp [h]

theorem Active.not_used {s : Sys} {i : Slot} (h : Active s i) : (s.proc i).state ≠ .USED := by
  rcases h with h | h | h <;> simp [h]

theorem PcOk.active {s : Sys} {p : Slot} {pc : Pc} (h : PcOk s p pc) (hpc : pc ≠ .user) :
    Active s p := by
  cases pc with
  | user => exact (hpc rfl).elim
  | forkParent _ => exact h.1
  | forkRun _ => exact h.1
  | exitAcquire _ => exact h.1
  | exitReparent _ _ => exact h.1
  | exitWakeInit _ _ _ => exact h.1
  | exitWakeParent _ _ => exact h.1
  | exitZombie _ => exact h.1
  | _ => exact h

/-! ### What a section has to respect -/

/-- Fewer live processes with the same pids, and the same supply. -/
theorem PidInv.mono {s t : Sys} (h : PidInv s) (hnext : t.nextpid = s.nextpid)
    (hcre : t.creations = s.creations)
    (hlive : ∀ i, Live t i → Live s i ∧ (t.proc i).pid = (s.proc i).pid) : PidInv t where
  nextpid := by rw [hnext, hcre]; exact h.nextpid
  range := by
    intro i hi
    obtain ⟨hs, hpid⟩ := hlive i hi
    rw [hpid, hnext]
    exact h.range i hs
  distinct := by
    intro i j hi hj he
    obtain ⟨hsi, hpi⟩ := hlive i hi
    obtain ⟨hsj, hpj⟩ := hlive j hj
    exact h.distinct i j hsi hsj (by rw [← hpi, ← hpj]; exact he)

/-- A section without an event: no process becomes a zombie or stops being one without being
freed, and a process that is new has a pid that was not handed out before. -/
theorem HistoryInv.mono {s t : Sys} (h : HistoryInv s) (hevents : t.events = s.events)
    (hnext : s.nextpid ≤ t.nextpid)
    (hzombie : ∀ i, (t.proc i).state = .ZOMBIE → (s.proc i).state = .ZOMBIE ∧
      (t.proc i).pid = (s.proc i).pid ∧ (t.proc i).xstate = (s.proc i).xstate)
    (hlive : ∀ i, Live t i → (Live s i ∧ (t.proc i).pid = (s.proc i).pid ∧
      ((s.proc i).state = .ZOMBIE → (t.proc i).state = .ZOMBIE)) ∨
      s.nextpid ≤ (t.proc i).pid) : HistoryInv t where
  zombie := by
    intro i hi
    obtain ⟨hz, hpid, hx⟩ := hzombie i hi
    rw [hpid, hx, hevents]
    exact h.zombie i hz
  exited := by
    intro pid status he
    rw [hevents] at he
    obtain ⟨hlt, hz⟩ := h.exited pid status he
    refine ⟨by omega, ?_⟩
    intro i hi hpid
    rcases hlive i hi with ⟨hs, hp, hkeep⟩ | hnew
    · exact hkeep (hz i hs (by rw [← hp]; exact hpid))
    · omega
  exits := by rw [hevents]; exact h.exits
  reaped := by
    intro caller pid status he
    rw [hevents] at he ⊢
    obtain ⟨hex, hno⟩ := h.reaped caller pid status he
    refine ⟨hex, ?_⟩
    intro i hi
    rcases hlive i hi with ⟨hs, hp, -⟩ | hnew
    · rw [hp]; exact hno i hs
    · have := (h.exited pid status hex).1
      omega
  reaps := by rw [hevents]; exact h.reaps

/-- A position keeps fitting when its process stays active, its child stays as it is, and no
slot gets this process as its new parent. -/
theorem PcOk.mono {s t : Sys} {q : Slot} {pc : Pc} (h : PcOk s q pc)
    (hinit : t.initproc = s.initproc) (hactive : Active s q → Active t q)
    (hpid : (t.proc q).pid = (s.proc q).pid)
    (hchild : ∀ np, pc.child = some np → (t.proc np).state = (s.proc np).state)
    (hrun : ∀ np, pc = .forkRun np → (t.proc np).parent = (s.proc np).parent ∧
      t.forkedBy np = s.forkedBy np)
    (hparent : q ≠ s.initproc → ∀ i, (t.proc i).parent = some q →
      (s.proc i).parent = some q) : PcOk t q pc := by
  cases pc with
  | user => exact True.intro
  | forkParent np => exact ⟨hactive h.1, (hchild np rfl).trans h.2⟩
  | forkRun np =>
    obtain ⟨hpar, hfork⟩ := hrun np rfl
    exact ⟨hactive h.1, (hchild np rfl).trans h.2.1, hpar.trans h.2.2.1,
      (hfork.trans h.2.2.2).trans hpid.symm⟩
  | exitAcquire _ => exact ⟨hactive h.1, hinit ▸ h.2⟩
  | exitReparent _ _ =>
    exact ⟨hactive h.1, hinit ▸ h.2.1, fun i hi hp ↦ h.2.2 i hi (hparent h.2.1 i hp)⟩
  | exitWakeInit _ _ _ =>
    exact ⟨hactive h.1, hinit ▸ h.2.1, fun i hi hp ↦ h.2.2 i hi (hparent h.2.1 i hp)⟩
  | exitWakeParent _ _ =>
    exact ⟨hactive h.1, hinit ▸ h.2.1, fun i hp ↦ h.2.2 i (hparent h.2.1 i hp)⟩
  | exitZombie _ =>
    exact ⟨hactive h.1, hinit ▸ h.2.1, fun i hp ↦ h.2.2 i (hparent h.2.1 i hp)⟩
  | _ => exact hactive h

/-- The slot that a process is building is `USED`. -/
theorem PcOk.child_used {s : Sys} {p np : Slot} {pc : Pc} (h : PcOk s p pc)
    (hc : pc.child = some np) : (s.proc np).state = .USED := by
  cases pc with
  | forkParent _ => cases Option.some.inj hc; exact h.2
  | forkRun _ => cases Option.some.inj hc; exact h.2.1
  | _ => cases hc

/-- After a section of `p`, look at the new position of `p`, and at the others inside a call. -/
theorem pcs_update {s t : Sys} (h : FamilyInv s) (p : Slot) (pc : Pc)
    (hpc : t.pc = Function.update s.pc p pc) (hp : PcOk t p pc)
    (hother : ∀ q, q ≠ p → Active s q → PcOk s q (s.pc q) → PcOk t q (s.pc q)) (q : Slot) :
    PcOk t q (t.pc q) := by
  rw [hpc]
  by_cases hq : q = p
  · subst hq
    simpa using hp
  · rw [Function.update_of_ne hq]
    have hok := h.pcs q
    by_cases hu : s.pc q = .user
    · rw [hu]; exact True.intro
    · exact hother q hq (hok.active hu) hok

/-- Moving one process keeps the forkers apart if it goes on with its own child, or takes one
that nobody builds. -/
theorem forker_update {s : Sys}
    (h : ∀ p q np, (s.pc p).child = some np → (s.pc q).child = some np → p = q) {p : Slot} {pc : Pc}
    (hchild : ∀ np, pc.child = some np →
      (s.pc p).child = some np ∨ ∀ q, (s.pc q).child ≠ some np) (a b np : Slot)
    (ha : (Function.update s.pc p pc a).child = some np)
    (hb : (Function.update s.pc p pc b).child = some np) : a = b := by
  by_cases hap : a = p
  · by_cases hbp : b = p
    · rw [hap, hbp]
    · subst hap
      rw [Function.update_self] at ha
      rw [Function.update_of_ne hbp] at hb
      rcases hchild np ha with hown | hno
      · exact h a b np hown hb
      · exact (hno b hb).elim
  · rw [Function.update_of_ne hap] at ha
    by_cases hbp : b = p
    · subst hbp
      rw [Function.update_self] at hb
      rcases hchild np hb with hown | hno
      · exact h a b np ha hown
      · exact (hno a ha).elim
    · rw [Function.update_of_ne hbp] at hb
      exact h a b np ha hb

/-! ### Sections that only move a process, wake or mark others -/

/-- Two states with the same pids, parents, exit statuses and history, in which each slot has
the same state up to being active. -/
structure Same (s t : Sys) : Prop where
  pid : ∀ i, (t.proc i).pid = (s.proc i).pid
  parent : ∀ i, (t.proc i).parent = (s.proc i).parent
  xstate : ∀ i, (t.proc i).xstate = (s.proc i).xstate
  state : ∀ i, (t.proc i).state = (s.proc i).state ∨ (Active s i ∧ Active t i)
  nextpid : t.nextpid = s.nextpid
  initproc : t.initproc = s.initproc
  creations : t.creations = s.creations
  forkedBy : t.forkedBy = s.forkedBy
  events : t.events = s.events

namespace Same

variable {s t : Sys}

theorem refl (s : Sys) : Same s s :=
  ⟨fun _ ↦ rfl, fun _ ↦ rfl, fun _ ↦ rfl, fun _ ↦ Or.inl rfl, rfl, rfl, rfl, rfl, rfl⟩

theorem active_iff (h : Same s t) (i : Slot) : Active t i ↔ Active s i := by
  rcases h.state i with he | ⟨hs, ht⟩
  · simp only [Active, he]
  · exact ⟨fun _ ↦ hs, fun _ ↦ ht⟩

theorem live_iff (h : Same s t) (i : Slot) : Live t i ↔ Live s i := by
  rcases h.state i with he | ⟨hs, ht⟩
  · simp only [Live, he]
  · exact ⟨fun _ ↦ hs.live, fun _ ↦ ht.live⟩

theorem zombie_iff (h : Same s t) (i : Slot) :
    (t.proc i).state = .ZOMBIE ↔ (s.proc i).state = .ZOMBIE := by
  rcases h.state i with he | ⟨hs, ht⟩
  · rw [he]
  · exact ⟨fun hz ↦ (ht.not_zombie hz).elim, fun hz ↦ (hs.not_zombie hz).elim⟩

theorem used (h : Same s t) {i : Slot} (hi : (s.proc i).state = .USED) :
    (t.proc i).state = (s.proc i).state := by
  rcases h.state i with he | ⟨hs, -⟩
  · exact he
  · exact (hs.not_used hi).elim

/-- Positions and the lock are not part of what two such states share. -/
theorem of_table {u : Sys} (h : Same s t) (htab : u.toTable = t.toTable)
    (hc : u.creations = t.creations) (hf : u.forkedBy = t.forkedBy)
    (he : u.events = t.events) : Same s u := by
  obtain ⟨h1, h2, h3, h4, h5, h6, h7, h8, h9⟩ := h
  refine ⟨?_, ?_, ?_, ?_, ?_, ?_, hc.trans h7, hf.trans h8, he.trans h9⟩
  all_goals simpa only [Active, htab] using by assumption

/-- Replacing a slot by one that differs at most in being active, killed or on a channel. -/
theorem setProc {i : Slot} {q : Proc} (hpid : q.pid = (s.proc i).pid)
    (hparent : q.parent = (s.proc i).parent) (hx : q.xstate = (s.proc i).xstate)
    (hstate : q.state = (s.proc i).state ∨ (Active s i ∧
      (q.state = .RUNNABLE ∨ q.state = .RUNNING ∨ q.state = .SLEEPING))) :
    Same s (s.setProc i q) := by
  have hset (j : Slot) : (s.setProc i q).proc j = if j = i then q else s.proc j :=
    Table.set_proc _ _ _ _
  refine ⟨?_, ?_, ?_, ?_, rfl, rfl, rfl, rfl, rfl⟩
  all_goals
    intro j
    by_cases hj : j = i
    · subst hj
      simp only [Active, hset, if_true]
      assumption
    · simp [hset, hj]

theorem wakeSlot (p : Slot) (chan : Option Slot) (j : Slot) :
    Same s (s.wakeSlot p chan j) := by
  unfold Sys.wakeSlot
  cases chan with
  | none => exact refl s
  | some c =>
    dsimp only
    split
    · exact refl s
    · unfold Proc.wake
      split
      · next h => exact setProc rfl rfl rfl (Or.inr ⟨Or.inr (Or.inr h.1), Or.inl rfl⟩)
      · exact setProc rfl rfl rfl (Or.inl rfl)

theorem kill (i : Slot) : Same s (s.setProc i (s.proc i).kill) := by
  refine setProc rfl rfl rfl ?_
  unfold Proc.kill
  by_cases h : (s.proc i).state = .SLEEPING
  · exact Or.inr ⟨Or.inr (Or.inr h), by simp [h]⟩
  · exact Or.inl (by simp [h])

theorem pidInv (h : Same s t) (hs : PidInv s) : PidInv t :=
  hs.mono h.nextpid h.creations (fun i hi ↦ ⟨(h.live_iff i).mp hi, h.pid i⟩)

theorem historyInv (h : Same s t) (hs : HistoryInv s) : HistoryInv t :=
  hs.mono h.events h.nextpid.ge
    (fun i hi ↦ ⟨(h.zombie_iff i).mp hi, h.pid i, h.xstate i⟩)
    (fun i hi ↦ Or.inl ⟨(h.live_iff i).mp hi, h.pid i, (h.zombie_iff i).mpr⟩)

theorem parentsValid (h : Same s t) (hs : ParentsValid s) : ParentsValid t := by
  intro i hne hst
  rw [h.initproc] at hne
  have hst' : Started s i := by
    simpa only [Started, h.active_iff, h.zombie_iff] using hst
  obtain ⟨q, hq, hact, hor⟩ := hs i hne hst'
  refine ⟨q, by rw [h.parent]; exact hq, (h.active_iff q).mpr hact, ?_⟩
  rw [h.initproc, h.pid, h.forkedBy]
  exact hor

theorem pcOk (h : Same s t) {p : Slot} {pc : Pc} (hs : PcOk s p pc) : PcOk t p pc :=
  hs.mono h.initproc (h.active_iff p).mpr (h.pid p)
    (fun np hc ↦ h.used (hs.child_used hc))
    (fun np _ ↦ ⟨h.parent np, congrFun h.forkedBy np⟩)
    (fun _ i hi ↦ by rw [← h.parent i]; exact hi)

/-- Such a step that moves one process to a position that fits and starts no child keeps the
invariant. -/
theorem inv (h : Same s t) (hs : Inv s) (p : Slot) (pc : Pc)
    (hpc : t.pc = Function.update s.pc p pc) (hok : PcOk s p pc)
    (hchild : pc.child = none ∨ pc = s.pc p) : Inv t where
  pids := h.pidInv hs.pids
  history := h.historyInv hs.history
  family := by
    refine ⟨?_, h.parentsValid hs.family.parents, ?_, ?_⟩
    · rw [h.initproc]
      exact (h.active_iff _).mpr hs.family.init
    · exact pcs_update hs.family p pc hpc (h.pcOk hok) (fun _ _ _ hq ↦ h.pcOk hq)
    · rw [hpc]
      apply forker_update hs.family.forker
      intro np hnp
      rcases hchild with hnone | hown
      · rw [hnone] at hnp; cases hnp
      · exact Or.inl (hown ▸ hnp)

end Same

theorem Inv.goto {s : Sys} (hs : Inv s) {p : Slot} {pc : Pc} (hok : PcOk s p pc)
    (hchild : pc.child = none) : Inv (s.goto p pc) := by
  have h : Same s (s.goto p pc) := (Same.refl s).of_table rfl rfl rfl rfl
  exact h.inv hs p pc rfl hok (Or.inl hchild)

theorem Inv.wakeSlot {s : Sys} (hs : Inv s) {p : Slot} {pc : Pc} {chan : Option Slot}
    {j : Slot} (hok : PcOk s p pc) (hchild : pc.child = none) :
    Inv ((s.wakeSlot p chan j).goto p pc) := by
  have h : Same s ((s.wakeSlot p chan j).goto p pc) :=
    (Same.wakeSlot p chan j).of_table rfl rfl rfl rfl
  refine h.inv hs p pc ?_ hok (Or.inl hchild)
  simp only [Sys.goto, Sys.wakeSlot_pc]

theorem Inv.leave {s : Sys} (hs : Inv s) (p : Slot) : Inv (s.leave p) := by
  have h : Same s (s.leave p) := (Same.refl s).of_table rfl rfl rfl rfl
  exact h.inv hs p .user rfl True.intro (Or.inl rfl)

end Xv6.Proc
