import Xv6.Proc.Invariant

/-!
# No process waits in vain

A process that sleeps in `wait` has children, and none of them is a zombie while `wait_lock` is
free. `exit` wakes the parent before it becomes a zombie, and it wakes init after it gave it a
child that may be one; both happen under `wait_lock`, which a process has to hold to go to sleep.
-/

namespace Xv6.Proc

open Xv6.Lib

/-- A process asleep in `wait` on its own address has a child, and no zombie among its children. -/
def NoStranded (s : Sys) : Prop :=
  s.waitLock = none → ∀ p, (s.proc p).state = .SLEEPING → s.pc p = .waitAcquire →
    (s.proc p).chan = some p →
    (∃ i, Live s i ∧ (s.proc i).parent = some p) ∧
    ∀ i, (s.proc i).parent = some p → (s.proc i).state ≠ .ZOMBIE

/-- The positions at which a process holds `wait_lock`. -/
def Pc.locked : Pc → Bool
  | .exitReparent _ _ | .exitWakeInit _ _ _ | .exitWakeParent _ _ | .exitZombie _ => true
  | .waitScan _ _ | .waitKilled | .waitSleep => true
  | _ => false

/-- The positions in `wakeup(initproc)`. -/
def Pc.wakesInit : Pc → Bool
  | .exitWakeInit _ _ _ => true
  | _ => false

/-- Slot `i` is a child of `p`, and a zombie. -/
def ZombieChild (s : Sys) (p i : Slot) : Prop :=
  (s.proc i).parent = some p ∧ (s.proc i).state = .ZOMBIE

/-- What a process has found out, or seen to, at its position under `wait_lock`. -/
def Seen (s : Sys) (p : Slot) : Pc → Prop
  | .waitScan k havekids => (∀ i : Slot, i.val < k → ¬ ZombieChild s p i) ∧
      (havekids = true → ∃ i, (s.proc i).parent = some p)
  | .waitKilled | .waitSleep => (∀ i, ¬ ZombieChild s p i) ∧ ∃ i, (s.proc i).parent = some p
  | .exitWakeParent _ j => ∀ q : Slot, (s.proc p).parent = some q → q.val < j →
      (s.proc q).state ≠ .SLEEPING
  | .exitZombie _ => ∀ q, (s.proc p).parent = some q → (s.proc q).state ≠ .SLEEPING
  | _ => True

/-- The invariant. Only init can be asleep with a zombie child, while the exiting process that gave
it the child holds `wait_lock` and has not yet come to init in `wakeup`. -/
structure WaitInv (s : Sys) : Prop where
  lock : ∀ p, s.waitLock = some p ↔ (s.pc p).locked = true
  running : ∀ p, s.waitLock = some p → (s.proc p).state = .RUNNING
  sleeper : ∀ p, (s.proc p).state = .SLEEPING → s.pc p = .waitAcquire ∧ (s.proc p).chan = some p
  unused : ∀ i, (s.proc i).state = .UNUSED → (s.proc i).parent = none
  building : ∀ p np, (s.pc p).child = some np → (s.proc np).state = .USED
  orphan : ∀ p np, s.pc p = .forkParent np → (s.proc np).parent = none
  forker : ∀ p q np, (s.pc p).child = some np → (s.pc q).child = some np → p = q
  seen : ∀ p, Seen s p (s.pc p)
  kids : ∀ p, (s.proc p).state = .SLEEPING → ∃ i, (s.proc i).parent = some p
  quiet : ∀ p i, (s.proc p).state = .SLEEPING → ZombieChild s p i → p = s.initproc ∧
    ∃ q status k j, s.waitLock = some q ∧ s.pc q = .exitWakeInit status k j ∧ j ≤ p.val

/-- A step of `p` to position `pc` that changes no parent, puts no process to sleep, makes no zombie
and frees no slot. -/
structure Calm (s t : Sys) (p : Slot) (pc : Pc) : Prop where
  pc : t.pc = Function.update s.pc p pc
  initproc : t.initproc = s.initproc
  parent : ∀ i, (t.proc i).parent = (s.proc i).parent
  sleep : ∀ i, (t.proc i).state = .SLEEPING →
    (s.proc i).state = .SLEEPING ∧ (t.proc i).chan = (s.proc i).chan
  zombie : ∀ i, (t.proc i).state = .ZOMBIE → (s.proc i).state = .ZOMBIE
  unused : ∀ i, (t.proc i).state = .UNUSED → (s.proc i).state = .UNUSED
  running : ∀ q, s.waitLock = some q → (t.proc q).state = .RUNNING
  used : ∀ q np, q ≠ p → (s.pc q).child = some np → (t.proc np).state = .USED
  awake : (t.proc p).state ≠ .SLEEPING

section
variable {s t : Sys} {p : Slot} {pc : Pc}

theorem WaitInv.noStranded (h : WaitInv s) : NoStranded s := by
  intro hfree p hsleep _ _
  refine ⟨?_, ?_⟩
  · obtain ⟨i, hi⟩ := h.kids p hsleep
    refine ⟨i, ?_, hi⟩
    intro hunused
    rw [h.unused i hunused] at hi
    cases hi
  · intro i hi hz
    obtain ⟨-, q, status, k, j, hlock, -⟩ := h.quiet p i hsleep ⟨hi, hz⟩
    rw [hfree] at hlock
    cases hlock

/-- Nothing is claimed about a process that does not hold `wait_lock`. -/
theorem Seen.of_unlocked {q : Slot} (h : pc.locked = false) : Seen s q pc := by
  cases pc with
  | exitReparent _ _ => exact True.intro
  | exitWakeInit _ _ _ => exact True.intro
  | exitWakeParent _ _ => cases h
  | exitZombie _ => cases h
  | waitScan _ _ => cases h
  | waitKilled => cases h
  | waitSleep => cases h
  | _ => exact True.intro

/-- What is seen stays true when there are no new zombies, sleepers or children. -/
theorem Seen.mono {q : Slot} (h : Seen s q pc)
    (hparent : ∀ i, (t.proc i).parent = (s.proc i).parent)
    (hzombie : ∀ i, (t.proc i).state = .ZOMBIE → (s.proc i).state = .ZOMBIE)
    (hsleep : ∀ i, (t.proc i).state = .SLEEPING → (s.proc i).state = .SLEEPING) : Seen t q pc := by
  have hchild (i : Slot) : ZombieChild t q i → ZombieChild s q i := by
    rintro ⟨hp, hz⟩
    exact ⟨(hparent i).symm.trans hp, hzombie i hz⟩
  have hkid : (∃ i, (s.proc i).parent = some q) → ∃ i, (t.proc i).parent = some q := by
    rintro ⟨i, hi⟩
    exact ⟨i, (hparent i).trans hi⟩
  cases pc with
  | waitScan k havekids =>
    exact ⟨fun i hi hz ↦ h.1 i hi (hchild i hz), fun hk ↦ hkid (h.2 hk)⟩
  | waitKilled => exact ⟨fun i hz ↦ h.1 i (hchild i hz), hkid h.2⟩
  | waitSleep => exact ⟨fun i hz ↦ h.1 i (hchild i hz), hkid h.2⟩
  | exitWakeParent _ j =>
    intro r hr hj hs
    exact h r ((hparent q).symm.trans hr) hj (hsleep r hs)
  | exitZombie _ =>
    intro r hr hs
    exact h r ((hparent q).symm.trans hr) (hsleep r hs)
  | _ => exact True.intro

/-- A calm step, with what the new position of the process has to bring along. -/
theorem WaitInv.calm (h : WaitInv s) (hc : Calm s t p pc)
    (hlock : ∀ q, t.waitLock = some q ↔ (Function.update s.pc p pc q).locked = true)
    (hheld : ∀ q, t.waitLock = some q → s.waitLock = some q ∨ (t.proc q).state = .RUNNING)
    (hseen : Seen t p pc)
    (hbuild : ∀ np, pc.child = some np → (t.proc np).state = .USED)
    (horphan : ∀ np, pc = .forkParent np → (s.proc np).parent = none)
    (hforker : ∀ np, pc.child = some np → (s.pc p).child = some np ∨ ∀ q, (s.pc q).child ≠ some np)
    (hquiet : ∀ status k j, s.pc p = .exitWakeInit status k j → j ≤ s.initproc.val →
      (t.proc s.initproc).state = .SLEEPING →
      ∃ k' j', pc = .exitWakeInit status k' j' ∧ j' ≤ s.initproc.val)
    (hkeep : s.waitLock ≠ some p → ∀ q, s.waitLock = some q → t.waitLock = some q) :
    WaitInv t := by
  have hpc (q : Slot) (hq : q ≠ p) : t.pc q = s.pc q := by
    rw [hc.pc, Function.update_of_ne hq]
  have hself : t.pc p = pc := by rw [hc.pc, Function.update_self]
  refine ⟨?_, ?_, ?_, ?_, ?_, ?_, ?_, ?_, ?_, ?_⟩
  · intro q
    rw [hc.pc]
    exact hlock q
  · intro q hq
    rcases hheld q hq with hs | hr
    · exact hc.running q hs
    · exact hr
  · intro q hq
    obtain ⟨hs, hchan⟩ := hc.sleep q hq
    have hqp : q ≠ p := by
      rintro rfl
      exact hc.awake hq
    rw [hpc q hqp, hchan]
    exact h.sleeper q hs
  · intro i hi
    rw [hc.parent]
    exact h.unused i (hc.unused i hi)
  · intro q np hnp
    by_cases hq : q = p
    · rw [hq, hself] at hnp
      exact hbuild np hnp
    · rw [hpc q hq] at hnp
      exact hc.used q np hq hnp
  · intro q np hnp
    rw [hc.parent]
    by_cases hq : q = p
    · rw [hq, hself] at hnp
      exact horphan np hnp
    · rw [hpc q hq] at hnp
      exact h.orphan q np hnp
  · rw [hc.pc]
    exact forker_update h.forker hforker
  · intro q
    by_cases hq : q = p
    · rw [hq, hself]
      exact hseen
    · rw [hpc q hq]
      exact (h.seen q).mono hc.parent hc.zombie (fun i hi ↦ (hc.sleep i hi).1)
  · intro q hq
    obtain ⟨i, hi⟩ := h.kids q (hc.sleep q hq).1
    exact ⟨i, (hc.parent i).trans hi⟩
  · intro q i hq hz
    obtain ⟨hinit, r, status, k, j, hr, hrpc, hj⟩ := h.quiet q i (hc.sleep q hq).1
      ⟨(hc.parent i).symm.trans hz.1, hc.zombie i hz.2⟩
    refine ⟨hinit.trans hc.initproc.symm, ?_⟩
    by_cases hrp : r = p
    · rw [hrp] at hrpc
      rw [hinit] at hj hq
      obtain ⟨k', j', hpc', hj'⟩ := hquiet status k j hrpc hj hq
      refine ⟨p, status, k', j', ?_, by rw [hself, hpc'], by rw [hinit]; exact hj'⟩
      rw [hlock p, Function.update_self, hpc']
      rfl
    · refine ⟨r, status, k, j, hkeep ?_ r hr, by rw [hpc r hrp]; exact hrpc, hj⟩
      rw [hr]
      intro he
      exact hrp (Option.some.inj he)

/-! ### Calm sections -/

/-- A calm step of a process that keeps `wait_lock` if it has it, and takes no new child. -/
theorem WaitInv.move (h : WaitInv s) (hc : Calm s t p pc) (hkeep : t.waitLock = s.waitLock)
    (hlocked : pc.locked = (s.pc p).locked) (hseen : Seen t p pc)
    (hchild : pc.child = none ∨ pc = s.pc p ∧ ∀ np, pc.child = some np → (t.proc np).state = .USED)
    (hquiet : ∀ status k j, s.pc p = .exitWakeInit status k j → j ≤ s.initproc.val →
      (t.proc s.initproc).state = .SLEEPING →
      ∃ k' j', pc = .exitWakeInit status k' j' ∧ j' ≤ s.initproc.val) : WaitInv t := by
  have hown (np : Slot) (hnp : pc.child = some np) : pc = s.pc p ∧ (t.proc np).state = .USED := by
    rcases hchild with hnone | hown
    · rw [hnone] at hnp
      cases hnp
    · exact ⟨hown.1, hown.2 np hnp⟩
  refine h.calm hc ?_ ?_ hseen (fun np hnp ↦ (hown np hnp).2) ?_ ?_ hquiet ?_
  · intro q
    rw [hkeep, h.lock q]
    by_cases hq : q = p
    · rw [hq, Function.update_self, hlocked]
    · rw [Function.update_of_ne hq]
  · intro q hq
    rw [hkeep] at hq
    exact Or.inl hq
  · intro np hnp
    have hsame := (hown np (by rw [hnp]; rfl)).1
    exact h.orphan p np (hsame.symm.trans hnp)
  · intro np hnp
    have hsame := (hown np hnp).1
    rw [hsame] at hnp
    exact Or.inl hnp
  · intro _ q hq
    rw [hkeep]
    exact hq

/-- A process takes `wait_lock`. -/
theorem WaitInv.take (h : WaitInv s) (hfree : s.waitLock = none) (hc : Calm s t p pc)
    (hlock : t.waitLock = some p) (hrun : (t.proc p).state = .RUNNING)
    (hlocked : pc.locked = true) (hseen : Seen t p pc) (hchild : pc.child = none) : WaitInv t := by
  have hnone (q : Slot) : (s.pc q).locked = false := by
    have hq := h.lock q
    rw [hfree] at hq
    simpa using hq
  have hno (np : Slot) (hnp : pc.child = some np) : False := by
    rw [hchild] at hnp
    cases hnp
  refine h.calm hc ?_ ?_ hseen (fun np hnp ↦ (hno np hnp).elim) ?_
    (fun np hnp ↦ (hno np hnp).elim) ?_ ?_
  · intro q
    rw [hlock]
    by_cases hq : q = p
    · rw [hq, Function.update_self, hlocked]
      exact iff_of_true rfl rfl
    · rw [Function.update_of_ne hq, hnone q]
      simp [Ne.symm hq]
  · intro q hq
    rw [hlock] at hq
    cases Option.some.inj hq
    exact Or.inr hrun
  · intro np hnp
    rw [hnp] at hchild
    cases hchild
  · intro status k j hpc
    have := hnone p
    rw [hpc] at this
    cases this
  · intro _ q hq
    rw [hfree] at hq
    cases hq

/-- A process that holds `wait_lock` releases it. -/
theorem WaitInv.drop (h : WaitInv s) (hheld : s.waitLock = some p) (hc : Calm s t p .user)
    (hlock : t.waitLock = none) (hpc : ∀ status k j, s.pc p ≠ .exitWakeInit status k j) :
    WaitInv t := by
  refine h.calm hc ?_ ?_ True.intro (fun np hnp ↦ by cases hnp) (fun np hnp ↦ by cases hnp)
    (fun np hnp ↦ by cases hnp) (fun status k j he ↦ (hpc status k j he).elim)
    (fun hne ↦ (hne hheld).elim)
  · intro q
    rw [hlock]
    by_cases hq : q = p
    · rw [hq, Function.update_self]
      simp [Pc.locked]
    · rw [Function.update_of_ne hq, ← h.lock q, hheld]
      simp [Ne.symm hq]
  · intro q hq
    rw [hlock] at hq
    cases hq

/-- Only the position of `p` changes. -/
theorem WaitInv.calm_goto (h : WaitInv s) (htab : t.toTable = s.toTable)
    (hpc : t.pc = Function.update s.pc p pc) (hp : (s.proc p).state = .RUNNING) :
    Calm s t p pc := by
  refine ⟨hpc, by rw [htab], ?_, ?_, ?_, ?_, ?_, ?_, ?_⟩
  all_goals rw [htab]
  · exact fun _ ↦ rfl
  · exact fun _ hs ↦ ⟨hs, rfl⟩
  · exact fun _ hz ↦ hz
  · exact fun _ hu ↦ hu
  · exact h.running
  · exact fun q np _ hnp ↦ h.building q np hnp
  · rw [hp]
    exact fun hs ↦ nomatch hs

/-- Only slot `i` changes, and it keeps its parent. -/
theorem WaitInv.calm_set (h : WaitInv s) {i : Slot} {q : Proc} (hinit : t.initproc = s.initproc)
    (hproc : ∀ j, t.proc j = if j = i then q else s.proc j)
    (hpc : t.pc = Function.update s.pc p pc) (hparent : q.parent = (s.proc i).parent)
    (hsleep : q.state = .SLEEPING → (s.proc i).state = .SLEEPING ∧ q.chan = (s.proc i).chan)
    (hzombie : q.state = .ZOMBIE → (s.proc i).state = .ZOMBIE)
    (hunused : q.state = .UNUSED → (s.proc i).state = .UNUSED)
    (hrunning : s.waitLock = some i → q.state = .RUNNING)
    (hused : ∀ r, r ≠ p → (s.pc r).child = some i → q.state = .USED)
    (hawake : (t.proc p).state ≠ .SLEEPING) : Calm s t p pc := by
  refine ⟨hpc, hinit, ?_, ?_, ?_, ?_, ?_, ?_, hawake⟩
  · intro j
    rw [hproc]
    split
    · next hj => rw [hj]; exact hparent
    · rfl
  · intro j hj
    rw [hproc] at hj ⊢
    split at hj
    · next hji => rw [hji, if_pos rfl]; exact hsleep hj
    · next hji => rw [if_neg hji]; exact ⟨hj, rfl⟩
  · intro j hj
    rw [hproc] at hj
    split at hj
    · next hji => rw [hji]; exact hzombie hj
    · exact hj
  · intro j hj
    rw [hproc] at hj
    split at hj
    · next hji => rw [hji]; exact hunused hj
    · exact hj
  · intro r hr
    rw [hproc]
    split
    · next hri => rw [hri] at hr; exact hrunning hr
    · exact h.running r hr
  · intro r np hrp hnp
    rw [hproc]
    split
    · next hni => rw [hni] at hnp; exact hused r hrp hnp
    · exact h.building r np hnp

/-- A wakeup of slot `j`, with a move of the waking process. -/
theorem WaitInv.calm_wake (h : WaitInv s) (chan : Option Slot) (j : Slot)
    (hp : (s.proc p).state = .RUNNING) : Calm s ((s.wakeSlot p chan j).goto p pc) p pc := by
  cases chan with
  | none => exact h.calm_goto rfl rfl hp
  | some c =>
    by_cases hj : j = p
    · have hsame : s.wakeSlot p (some c) j = s := by simp [Sys.wakeSlot, hj]
      rw [hsame]
      exact h.calm_goto rfl rfl hp
    · have hset : s.wakeSlot p (some c) j = s.setProc j ((s.proc j).wake c) := by
        simp [Sys.wakeSlot, hj]
      rw [hset]
      have hproc (i : Slot) : (s.setProc j ((s.proc j).wake c)).proc i =
          if i = j then (s.proc j).wake c else s.proc i := Table.set_proc _ _ _ _
      have hawake : ((s.setProc j ((s.proc j).wake c)).proc p).state ≠ .SLEEPING := by
        rw [hproc, if_neg (Ne.symm hj), hp]
        exact fun hs ↦ nomatch hs
      -- a wakeup does nothing to a slot that is not asleep
      have hother (hs : (s.proc j).state ≠ .SLEEPING) : (s.proc j).wake c = s.proc j := by
        simp [Proc.wake, hs]
      refine h.calm_set (i := j) rfl hproc rfl ?_ ?_ ?_ ?_ ?_ ?_ hawake
      · unfold Proc.wake
        split <;> rfl
      · unfold Proc.wake
        split
        · exact fun hs ↦ nomatch hs
        · exact fun hs ↦ ⟨hs, rfl⟩
      · unfold Proc.wake
        split
        · exact fun hs ↦ nomatch hs
        · exact id
      · unfold Proc.wake
        split
        · exact fun hs ↦ nomatch hs
        · exact id
      · intro hl
        have hr := h.running j hl
        rw [hother (by rw [hr]; exact fun hs ↦ nomatch hs)]
        exact hr
      · intro r _ hr
        have hu := h.building r j hr
        rw [hother (by rw [hu]; exact fun hs ↦ nomatch hs)]
        exact hu

/-- `kill` marks slot `i`, with a move of the killing process. -/
theorem WaitInv.calm_kill (h : WaitInv s) (i : Slot) (hp : (s.proc p).state = .RUNNING) :
    Calm s ((s.setProc i (s.proc i).kill).goto p pc) p pc := by
  have hproc (j : Slot) : (s.setProc i (s.proc i).kill).proc j =
      if j = i then (s.proc i).kill else s.proc j := Table.set_proc _ _ _ _
  have hstate : (s.proc i).kill.state =
      if (s.proc i).state = .SLEEPING then .RUNNABLE else (s.proc i).state := rfl
  refine h.calm_set (i := i) rfl hproc rfl rfl ?_ ?_ ?_ ?_ ?_ ?_
  · rw [hstate]
    split
    · exact fun hs ↦ nomatch hs
    · exact fun hs ↦ ⟨hs, rfl⟩
  · rw [hstate]
    split
    · exact fun hs ↦ nomatch hs
    · exact id
  · rw [hstate]
    split
    · exact fun hs ↦ nomatch hs
    · exact id
  · intro hl
    rw [hstate, h.running i hl]
    rfl
  · intro r _ hr
    rw [hstate, h.building r i hr]
    rfl
  · change ((s.setProc i (s.proc i).kill).proc p).state ≠ .SLEEPING
    rw [hproc]
    split
    · next hpi =>
      rw [hstate, ← hpi, hp]
      exact fun hs ↦ nomatch hs
    · rw [hp]
      exact fun hs ↦ nomatch hs

/-- A step after which `wait_lock` is free. What it may do to parents, zombies and sleepers is left
open; every sleeper has to be fine afterwards. -/
theorem WaitInv.freed (h : WaitInv s) (hpc : t.pc = Function.update s.pc p pc)
    (hlock : t.waitLock = none) (hheld : ∀ q, q ≠ p → s.waitLock ≠ some q)
    (hunlocked : pc.locked = false)
    (hforker : ∀ np, pc.child = some np → (s.pc p).child = some np ∨ ∀ q, (s.pc q).child ≠ some np)
    (hsleep : ∀ q, q ≠ p → (t.proc q).state = .SLEEPING →
      (s.proc q).state = .SLEEPING ∧ (t.proc q).chan = (s.proc q).chan)
    (hself : (t.proc p).state = .SLEEPING → pc = .waitAcquire ∧ (t.proc p).chan = some p)
    (hunused : ∀ i, (t.proc i).state = .UNUSED → (t.proc i).parent = none)
    (hbuild : ∀ q np, q ≠ p ∧ (s.pc q).child = some np ∨ pc.child = some np →
      (t.proc np).state = .USED)
    (horphan : ∀ q np, q ≠ p → s.pc q = .forkParent np → (t.proc np).parent = none)
    (hsound : ∀ q, (t.proc q).state = .SLEEPING →
      (∃ i, (t.proc i).parent = some q) ∧ ∀ i, ¬ ZombieChild t q i)
    (hnew : ∀ np, pc ≠ .forkParent np) : WaitInv t := by
  have hother (q : Slot) (hq : q ≠ p) : t.pc q = s.pc q := by
    rw [hpc, Function.update_of_ne hq]
  have hp : t.pc p = pc := by rw [hpc, Function.update_self]
  have hnone (q : Slot) : (t.pc q).locked = false := by
    by_cases hq : q = p
    · rw [hq, hp]
      exact hunlocked
    · rw [hother q hq]
      have hiff := h.lock q
      have hne := hheld q hq
      simpa [hne] using hiff
  refine ⟨?_, ?_, ?_, hunused, ?_, ?_, ?_, ?_, fun q hq ↦ (hsound q hq).1, ?_⟩
  · intro q
    rw [hlock, hnone q]
    simp
  · intro q hq
    rw [hlock] at hq
    cases hq
  · intro q hq
    by_cases hqp : q = p
    · subst hqp
      rw [hp]
      exact hself hq
    · obtain ⟨hs, hchan⟩ := hsleep q hqp hq
      rw [hother q hqp, hchan]
      exact h.sleeper q hs
  · intro q np hnp
    by_cases hqp : q = p
    · rw [hqp, hp] at hnp
      exact hbuild p np (Or.inr hnp)
    · rw [hother q hqp] at hnp
      exact hbuild q np (Or.inl ⟨hqp, hnp⟩)
  · intro q np hnp
    by_cases hqp : q = p
    · rw [hqp, hp] at hnp
      exact (hnew np hnp).elim
    · rw [hother q hqp] at hnp
      exact horphan q np hqp hnp
  · rw [hpc]
    exact forker_update h.forker hforker
  · intro q
    exact Seen.of_unlocked (hnone q)
  · intro q i hq hz
    exact ((hsound q hq).2 i hz).elim

end

end Xv6.Proc
