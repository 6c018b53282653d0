import Xv6.Proc.Sections
import Xv6.Proc.Waiters

/-!
# The critical sections of `fork`, `exit` and `wait` strand no waiter

The sections that are not calm: `fork` sets the parent of its child, `exit` gives a child to init
and becomes a zombie, `wait` frees a zombie or goes to sleep. All of them hold `wait_lock`.
-/

namespace Xv6.Proc

open Xv6.Lib

section
variable {s t : Sys} {p : Slot} {pc : Pc} {k : Nat}

/-! ### The sections of `fork` -/

theorem waitInv_forkTake (h : WaitInv s) {i : Slot} (hp : (s.proc p).state = .RUNNING)
    (hpc : s.pc p = .forkScan k) (hfree : (s.proc i).state = .UNUSED) :
    WaitInv (s.forkTake p i) := by
  have hproc := proc_forkTake s p i
  have hno (q : Slot) : (s.pc q).child ≠ some i := by
    intro hq
    cases (h.building q i hq).symm.trans hfree
  have hc : Calm s (s.forkTake p i) p (.forkParent i) := by
    refine h.calm_set (i := i) rfl hproc rfl rfl ?_ ?_ ?_ ?_ ?_ ?_
    · exact fun hs ↦ nomatch hs
    · exact fun hs ↦ nomatch hs
    · exact fun hs ↦ nomatch hs
    · intro hl
      cases (h.running i hl).symm.trans hfree
    · exact fun r _ hr ↦ rfl
    · rw [hproc]
      split
      · exact fun hs ↦ nomatch hs
      · rw [hp]
        exact fun hs ↦ nomatch hs
  refine h.calm hc ?_ (fun q hq ↦ Or.inl hq) True.intro ?_ ?_ ?_ ?_ (fun _ q hq ↦ hq)
  · intro q
    by_cases hq : q = p
    · rw [hq, Function.update_self]
      have := h.lock p
      rw [hpc] at this
      exact this
    · rw [Function.update_of_ne hq]
      exact h.lock q
  · intro np hnp
    cases Option.some.inj hnp
    rw [hproc, if_pos rfl]
  · intro np hnp
    cases hnp
    exact h.unused i hfree
  · intro np hnp
    cases Option.some.inj hnp
    exact Or.inr hno
  · intro status k' j he
    rw [hpc] at he
    cases he

theorem waitInv_forkFail (h : WaitInv s) {i : Slot} (hp : (s.proc p).state = .RUNNING)
    (hpc : s.pc p = .forkScan k) (hfree : (s.proc i).state = .UNUSED) :
    WaitInv (s.forkFail p i) := by
  have hproc := proc_forkFail s p i
  have hc : Calm s (s.forkFail p i) p .user := by
    refine h.calm_set (i := i) rfl hproc rfl (h.unused i hfree).symm ?_ ?_ ?_ ?_ ?_ ?_
    · exact fun hs ↦ nomatch hs
    · exact fun hs ↦ nomatch hs
    · exact fun _ ↦ hfree
    · intro hl
      cases (h.running i hl).symm.trans hfree
    · intro r _ hr
      cases (h.building r i hr).symm.trans hfree
    · rw [hproc]
      split
      · exact fun hs ↦ nomatch hs
      · rw [hp]
        exact fun hs ↦ nomatch hs
  refine h.move hc rfl (by rw [hpc]; rfl) True.intro (Or.inl rfl) ?_
  intro status k' j he
  rw [hpc] at he
  cases he

/-- The child leaves the orphans; it is no zombie, and it had no parent to miss it. -/
theorem waitInv_forkSetParent (h : WaitInv s) {np : Slot} (hp : (s.proc p).state = .RUNNING)
    (hpc : s.pc p = .forkParent np) (hfree : s.waitLock = none) :
    WaitInv (s.forkSetParent p np) := by
  have hused := h.building p np (by rw [hpc]; rfl)
  have hnone := h.orphan p np hpc
  have hproc (j : Slot) : (s.forkSetParent p np).proc j =
      if j = np then { s.proc np with parent := some p } else s.proc j := Table.set_proc _ _ _ _
  have hstate (j : Slot) : ((s.forkSetParent p np).proc j).state = (s.proc j).state := by
    rw [hproc]
    split
    · next hj => rw [hj]
    · rfl
  have hchan (j : Slot) : ((s.forkSetParent p np).proc j).chan = (s.proc j).chan := by
    rw [hproc]
    split
    · next hj => rw [hj]
    · rfl
  have hparent {j : Slot} (hj : j ≠ np) :
      ((s.forkSetParent p np).proc j).parent = (s.proc j).parent := by rw [hproc, if_neg hj]
  have hpc' : (s.forkSetParent p np).pc = Function.update s.pc p (.forkRun np) := rfl
  refine h.freed hpc' hfree ?_ rfl ?_ ?_ ?_ ?_ ?_ ?_ ?_ (fun _ he ↦ nomatch he)
  · intro q _ hq
    rw [hfree] at hq
    cases hq
  · intro c hc
    rw [hpc]
    exact Or.inl hc
  · intro q hqp hq
    rw [hstate] at hq
    rw [hchan]
    exact ⟨hq, rfl⟩
  · intro hs
    rw [hstate, hp] at hs
    cases hs
  · intro i hi
    rw [hstate] at hi
    have hne : i ≠ np := by
      rintro rfl
      cases hi.symm.trans hused
    rw [hparent hne]
    exact h.unused i hi
  · intro q c hc
    rw [hstate]
    rcases hc with ⟨-, hc⟩ | hc
    · exact h.building q c hc
    · cases Option.some.inj hc
      exact hused
  · intro q c hq hc
    have hne : c ≠ np := by
      rintro rfl
      exact hq (h.forker q p c (by rw [hc]; rfl) (by rw [hpc]; rfl))
    rw [hparent hne]
    exact h.orphan q c hc
  · intro q hq
    rw [hstate] at hq
    refine ⟨?_, ?_⟩
    · obtain ⟨i, hi⟩ := h.kids q hq
      have hne : i ≠ np := by
        rintro rfl
        cases hi.symm.trans hnone
      exact ⟨i, by rw [hparent hne]; exact hi⟩
    · intro i hz
      have hzs : (s.proc i).state = .ZOMBIE := by rw [← hstate]; exact hz.2
      have hne : i ≠ np := by
        rintro rfl
        cases hzs.symm.trans hused
      obtain ⟨-, r, status, k, j, hr, -⟩ :=
        h.quiet q i hq ⟨by rw [← hparent hne]; exact hz.1, hzs⟩
      rw [hfree] at hr
      cases hr

theorem waitInv_forkFinish (h : WaitInv s) {np : Slot} (hp : (s.proc p).state = .RUNNING)
    (hpc : s.pc p = .forkRun np) : WaitInv (s.forkFinish p np) := by
  have hused := h.building p np (by rw [hpc]; rfl)
  have hproc (j : Slot) : (s.forkFinish p np).proc j =
      if j = np then { s.proc np with state := .RUNNABLE } else s.proc j := Table.set_proc _ _ _ _
  have hc : Calm s (s.forkFinish p np) p .user := by
    refine h.calm_set (i := np) rfl hproc rfl rfl ?_ ?_ ?_ ?_ ?_ ?_
    · exact fun hs ↦ nomatch hs
    · exact fun hs ↦ nomatch hs
    · exact fun hs ↦ nomatch hs
    · intro hl
      cases (h.running np hl).symm.trans hused
    · intro r hrp hr
      exact (hrp (h.forker r p np hr (by rw [hpc]; rfl))).elim
    · rw [hproc]
      split
      · exact fun hs ↦ nomatch hs
      · rw [hp]
        exact fun hs ↦ nomatch hs
  refine h.move hc rfl (by rw [hpc]; rfl) True.intro (Or.inl rfl) ?_
  intro status k' j he
  rw [hpc] at he
  cases he

/-! ### The sections of `exit` and `wait` -/

/-- The holder of `wait_lock` is the process at a locked position. -/
theorem WaitInv.holder (h : WaitInv s) (hpc : (s.pc p).locked = true) : s.waitLock = some p :=
  (h.lock p).mpr hpc

/-- No zombie has a sleeping parent while the holder of `wait_lock` wakes nobody for init. -/
theorem WaitInv.no_zombie (h : WaitInv s) (hlock : s.waitLock = some p)
    (hpc : ∀ status k j, s.pc p ≠ .exitWakeInit status k j) {q : Slot}
    (hq : (s.proc q).state = .SLEEPING) (i : Slot) : ¬ ZombieChild s q i := by
  intro hz
  obtain ⟨-, r, status, k, j, hr, hrpc, -⟩ := h.quiet q i hq hz
  rw [hlock] at hr
  cases Option.some.inj hr
  exact hpc status k j hrpc

/-- Init may now have a zombie among its children, but the wakeups start at slot 0. -/
theorem waitInv_giveToInit (h : WaitInv s) {i : Slot} {status : Int}
    (hpc : s.pc p = .exitReparent status k) (hi : (s.proc i).parent = some p) :
    WaitInv (s.giveToInit p i status) := by
  have hlock : s.waitLock = some p := h.holder (by rw [hpc]; rfl)
  have hrun := h.running p hlock
  have hproc (j : Slot) : (s.giveToInit p i status).proc j =
      if j = i then { s.proc i with parent := some s.initproc } else s.proc j :=
    Table.set_proc _ _ _ _
  have hstate (j : Slot) : ((s.giveToInit p i status).proc j).state = (s.proc j).state := by
    rw [hproc]
    split
    · next hj => rw [hj]
    · rfl
  have hchan (j : Slot) : ((s.giveToInit p i status).proc j).chan = (s.proc j).chan := by
    rw [hproc]
    split
    · next hj => rw [hj]
    · rfl
  have hparent {j : Slot} (hj : (s.proc j).parent ≠ some p) :
      ((s.giveToInit p i status).proc j).parent = (s.proc j).parent := by
    rw [hproc, if_neg]
    rintro rfl
    exact hj hi
  have hother (q : Slot) (hq : q ≠ p) : (s.giveToInit p i status).pc q = s.pc q :=
    Function.update_of_ne hq _ _
  have hself : (s.giveToInit p i status).pc p = .exitWakeInit status i 0 :=
    Function.update_self _ _ _
  have hawake {q : Slot} (hq : (s.proc q).state = .SLEEPING) : q ≠ p := by
    rintro rfl
    cases hq.symm.trans hrun
  have hlocked (q : Slot) : ((s.giveToInit p i status).pc q).locked = (s.pc q).locked := by
    by_cases hq : q = p
    · rw [hq, hself, hpc]
      rfl
    · rw [hother q hq]
  refine ⟨?_, ?_, ?_, ?_, ?_, ?_, ?_, ?_, ?_, ?_⟩
  · intro q
    rw [hlocked]
    exact h.lock q
  · intro q hq
    rw [hstate]
    exact h.running q hq
  · intro q hq
    rw [hstate] at hq
    rw [hchan, hother q (hawake hq)]
    exact h.sleeper q hq
  · intro j hj
    rw [hstate] at hj
    have hnone := h.unused j hj
    rw [hparent (by rw [hnone]; exact fun he ↦ nomatch he)]
    exact hnone
  · intro q np hnp
    rw [hstate]
    by_cases hq : q = p
    · rw [hq, hself] at hnp
      cases hnp
    · rw [hother q hq] at hnp
      exact h.building q np hnp
  · intro q np hnp
    by_cases hq : q = p
    · rw [hq, hself] at hnp
      cases hnp
    · rw [hother q hq] at hnp
      have hnone := h.orphan q np hnp
      rw [hparent (by rw [hnone]; exact fun he ↦ nomatch he)]
      exact hnone
  · exact forker_update h.forker (fun np hnp ↦ nomatch hnp)
  · intro q
    by_cases hq : q = p
    · rw [hq, hself]
      exact True.intro
    · apply Seen.of_unlocked
      rw [hlocked, Bool.eq_false_iff]
      intro hl
      have hlq := h.holder hl
      rw [hlock] at hlq
      exact hq (Option.some.inj hlq).symm
  · intro q hq
    rw [hstate] at hq
    obtain ⟨j, hj⟩ := h.kids q hq
    have hne : (s.proc j).parent ≠ some p := by
      rw [hj]
      intro he
      exact hawake hq (Option.some.inj he)
    exact ⟨j, by rw [hparent hne]; exact hj⟩
  · intro q j hq hz
    rw [hstate] at hq
    refine ⟨?_, p, status, i, 0, hlock, hself, Nat.zero_le _⟩
    by_cases hj : j = i
    · have hz1 := hz.1
      rw [hproc, if_pos hj] at hz1
      exact (Option.some.inj hz1).symm
    · have hz' : ZombieChild s q j := by
        have := hz
        unfold ZombieChild at this
        rw [hproc, if_neg hj] at this
        exact this
      refine (h.no_zombie hlock ?_ hq j hz').elim
      rw [hpc]
      exact fun _ _ _ he ↦ nomatch he

/-- The new zombie's parent was woken up before. -/
theorem waitInv_becomeZombie (h : WaitInv s) {status : Int} (hpc : s.pc p = .exitZombie status) :
    WaitInv (s.becomeZombie p status) := by
  have hlock : s.waitLock = some p := h.holder (by rw [hpc]; rfl)
  have hrun := h.running p hlock
  have hseen := h.seen p
  rw [hpc] at hseen
  have hproc (j : Slot) : (s.becomeZombie p status).proc j =
      if j = p then { s.proc p with xstate := status, state := .ZOMBIE } else s.proc j :=
    Table.set_proc _ _ _ _
  have hparent (j : Slot) : ((s.becomeZombie p status).proc j).parent = (s.proc j).parent := by
    rw [hproc]
    split
    · next hj => rw [hj]
    · rfl
  have hpc' : (s.becomeZombie p status).pc = Function.update s.pc p .user := rfl
  have hkeep {j : Slot} (hj : j ≠ p) : (s.becomeZombie p status).proc j = s.proc j := by
    rw [hproc, if_neg hj]
  have hself : ((s.becomeZombie p status).proc p).state = .ZOMBIE := by rw [hproc, if_pos rfl]
  refine h.freed hpc' rfl ?_ rfl (fun np hnp ↦ nomatch hnp) ?_ ?_ ?_ ?_ ?_ ?_
    (fun _ he ↦ nomatch he)
  · intro q hq hl
    rw [hlock] at hl
    exact hq (Option.some.inj hl).symm
  · intro q hq hs
    rw [hkeep hq] at hs ⊢
    exact ⟨hs, rfl⟩
  · intro hs
    cases hs.symm.trans hself
  · intro i hi
    have hip : i ≠ p := by
      rintro rfl
      cases hi.symm.trans hself
    rw [hkeep hip] at hi ⊢
    exact h.unused i hi
  · intro q np hnp
    rcases hnp with ⟨-, hnp⟩ | hnp
    · have hused := h.building q np hnp
      have hne : np ≠ p := by
        rintro rfl
        cases hused.symm.trans hrun
      rw [hkeep hne]
      exact hused
    · cases hnp
  · intro q np _ hnp
    rw [hparent]
    exact h.orphan q np hnp
  · intro q hq
    have hqp : q ≠ p := by
      rintro rfl
      cases hq.symm.trans hself
    rw [hkeep hqp] at hq
    refine ⟨?_, ?_⟩
    · obtain ⟨i, hi⟩ := h.kids q hq
      exact ⟨i, (hparent i).trans hi⟩
    · intro i hz
      have hz1 := (hparent i).symm.trans hz.1
      by_cases hip : i = p
      · rw [hip] at hz1
        exact hseen q hz1 hq
      · refine h.no_zombie hlock ?_ hq i ⟨hz1, by rw [← hkeep hip]; exact hz.2⟩
        rw [hpc]
        exact fun _ _ _ he ↦ nomatch he

/-- The freed zombie was a child of the caller, which is awake. -/
theorem waitInv_reap (h : WaitInv s) {i : Slot} {havekids : Bool}
    (hpc : s.pc p = .waitScan k havekids) (hi : (s.proc i).parent = some p)
    (hz : (s.proc i).state = .ZOMBIE) : WaitInv (s.reap p i) := by
  have hlock : s.waitLock = some p := h.holder (by rw [hpc]; rfl)
  have hrun := h.running p hlock
  have hproc (j : Slot) : (s.reap p i).proc j = if j = i then (s.proc i).free else s.proc j :=
    Table.set_proc _ _ _ _
  have hkeep {j : Slot} (hj : j ≠ i) : (s.reap p i).proc j = s.proc j := by rw [hproc, if_neg hj]
  have hself : (s.reap p i).proc i = (s.proc i).free := by rw [hproc, if_pos rfl]
  have hpi : p ≠ i := by
    rintro rfl
    cases hz.symm.trans hrun
  have hpc' : (s.reap p i).pc = Function.update s.pc p .user := rfl
  refine h.freed hpc' rfl ?_ rfl (fun np hnp ↦ nomatch hnp) ?_ ?_ ?_ ?_ ?_ ?_
    (fun _ he ↦ nomatch he)
  · intro q hq hl
    rw [hlock] at hl
    exact hq (Option.some.inj hl).symm
  · intro q _ hs
    rw [hproc] at hs ⊢
    split at hs
    · cases hs
    · next hq => rw [if_neg hq]; exact ⟨hs, rfl⟩
  · intro hs
    rw [hkeep hpi] at hs
    cases hs.symm.trans hrun
  · intro j hj
    rw [hproc] at hj ⊢
    split at hj
    · next hji => rw [if_pos hji]; rfl
    · next hji => rw [if_neg hji]; exact h.unused j hj
  · intro q np hnp
    rcases hnp with ⟨-, hnp⟩ | hnp
    · have hused := h.building q np hnp
      have hne : np ≠ i := by
        rintro rfl
        cases hused.symm.trans hz
      rw [hkeep hne]
      exact hused
    · cases hnp
  · intro q np _ hnp
    rw [hproc]
    split
    · rfl
    · exact h.orphan q np hnp
  · intro q hq
    have hqi : q ≠ i := by
      rintro rfl
      rw [hself] at hq
      cases hq
    rw [hkeep hqi] at hq
    refine ⟨?_, ?_⟩
    · obtain ⟨j, hj⟩ := h.kids q hq
      have hji : j ≠ i := by
        rintro rfl
        rw [hi] at hj
        cases Option.some.inj hj
        cases hq.symm.trans hrun
      exact ⟨j, by rw [hkeep hji]; exact hj⟩
    · rintro j ⟨hj1, hj2⟩
      have hji : j ≠ i := by
        rintro rfl
        rw [hself] at hj2
        cases hj2
      rw [hkeep hji] at hj1 hj2
      refine h.no_zombie hlock ?_ hq j ⟨hj1, hj2⟩
      rw [hpc]
      exact fun _ _ _ he ↦ nomatch he

/-- The caller looked at all its children since it took `wait_lock`. -/
theorem waitInv_waitSleep (h : WaitInv s) (hpc : s.pc p = .waitSleep)
    (hproc : ∀ j, t.proc j = if j = p then { s.proc p with chan := some p, state := .SLEEPING }
      else s.proc j)
    (hpc' : t.pc = Function.update s.pc p .waitAcquire) (hfree : t.waitLock = none) :
    WaitInv t := by
  have hlock : s.waitLock = some p := h.holder (by rw [hpc]; rfl)
  have hrun := h.running p hlock
  have hseen := h.seen p
  rw [hpc] at hseen
  have hkeep {j : Slot} (hj : j ≠ p) : t.proc j = s.proc j := by rw [hproc, if_neg hj]
  have hparent (j : Slot) : (t.proc j).parent = (s.proc j).parent := by
    rw [hproc]
    split
    · next hj => rw [hj]
    · rfl
  have hself : (t.proc p).state = .SLEEPING := by rw [hproc, if_pos rfl]
  have hzombie {q i : Slot} (hz : ZombieChild t q i) : ZombieChild s q i := by
    refine ⟨(hparent i).symm.trans hz.1, ?_⟩
    have hip : i ≠ p := by
      rintro rfl
      cases hz.2.symm.trans hself
    rw [← hkeep hip]
    exact hz.2
  refine h.freed hpc' hfree ?_ rfl (fun np hnp ↦ nomatch hnp) ?_ ?_ ?_ ?_ ?_ ?_
    (fun _ he ↦ nomatch he)
  · intro q hq hl
    rw [hlock] at hl
    exact hq (Option.some.inj hl).symm
  · intro q hq hs
    rw [hkeep hq] at hs ⊢
    exact ⟨hs, rfl⟩
  · intro _
    refine ⟨rfl, ?_⟩
    rw [hproc, if_pos rfl]
  · intro i hi
    have hip : i ≠ p := by
      rintro rfl
      cases hi.symm.trans hself
    rw [hkeep hip] at hi ⊢
    exact h.unused i hi
  · intro q np hnp
    rcases hnp with ⟨-, hnp⟩ | hnp
    · have hused := h.building q np hnp
      have hne : np ≠ p := by
        rintro rfl
        cases hused.symm.trans hrun
      rw [hkeep hne]
      exact hused
    · cases hnp
  · intro q np _ hnp
    rw [hparent]
    exact h.orphan q np hnp
  · intro q hq
    by_cases hqp : q = p
    · rw [hqp]
      obtain ⟨i, hi⟩ := hseen.2
      exact ⟨⟨i, (hparent i).trans hi⟩, fun i hz ↦ hseen.1 i (hzombie hz)⟩
    · rw [hkeep hqp] at hq
      obtain ⟨i, hi⟩ := h.kids q hq
      refine ⟨⟨i, (hparent i).trans hi⟩, fun i hz ↦ ?_⟩
      refine h.no_zombie hlock ?_ hq i (hzombie hz)
      rw [hpc]
      exact fun _ _ _ he ↦ nomatch he

/-! ### Whole steps and runs -/

/-- A move that leaves `wait_lock` alone and does not break off a wakeup of init. -/
theorem WaitInv.goto (h : WaitInv s) (hp : (s.proc p).state = .RUNNING)
    (hlocked : pc.locked = (s.pc p).locked) (hchild : pc.child = none) (hseen : Seen s p pc)
    (hquiet : ∀ status k j, s.pc p = .exitWakeInit status k j → ¬ j ≤ s.initproc.val) :
    WaitInv (s.goto p pc) := by
  refine h.move (h.calm_goto rfl rfl hp) rfl hlocked (hseen.mono ?_ ?_ ?_) (Or.inl hchild) ?_
  · exact fun _ ↦ rfl
  · exact fun _ hz ↦ hz
  · exact fun _ hs ↦ hs
  · intro status k j hpc hj
    exact (hquiet status k j hpc hj).elim

/-- A move from a position outside `wakeup(initproc)`. -/
theorem WaitInv.walk (h : WaitInv s) (hp : (s.proc p).state = .RUNNING) {pc₀ : Pc}
    (hpc : s.pc p = pc₀) (hwakes : pc₀.wakesInit = false) (hlocked : pc.locked = pc₀.locked)
    (hchild : pc.child = none) (hseen : Seen s p pc) : WaitInv (s.goto p pc) := by
  refine h.goto hp (by rw [hpc]; exact hlocked) hchild hseen ?_
  intro status k j he
  rw [← hpc, he] at hwakes
  cases hwakes

theorem WaitInv.leave (h : WaitInv s) {pc₀ : Pc} (hpc : s.pc p = pc₀)
    (hlocked : pc₀.locked = true) (hwakes : pc₀.wakesInit = false) : WaitInv (s.leave p) := by
  have hlock : s.waitLock = some p := h.holder (by rw [hpc]; exact hlocked)
  refine h.drop hlock (h.calm_goto rfl rfl (h.running p hlock)) rfl ?_
  intro status k j he
  rw [← hpc, he] at hwakes
  cases hwakes

/-- A process whose slot is looked at by a wakeup for it is awake afterwards. -/
theorem wakeSlot_awake (h : WaitInv s) (hrun : (s.proc p).state = .RUNNING) (q : Slot) :
    ((s.wakeSlot p (some q) q).proc q).state ≠ .SLEEPING := by
  unfold Sys.wakeSlot
  dsimp only
  split
  · next hqp =>
    rw [hqp, hrun]
    exact fun hs ↦ nomatch hs
  · change ((s.toTable.set q ((s.proc q).wake q)).proc q).state ≠ .SLEEPING
    rw [Table.set_proc, if_pos rfl]
    unfold Proc.wake
    split
    · exact fun hs ↦ nomatch hs
    · next hno =>
      intro hs
      exact hno ⟨hs, (h.sleeper q hs).2⟩

theorem wakeSlot_waitLock (chan : Option Slot) (j : Slot) :
    (s.wakeSlot p chan j).waitLock = s.waitLock := by
  unfold Sys.wakeSlot
  cases chan with
  | none => rfl
  | some c => dsimp only; split <;> rfl

/-- One section of `wakeup(initproc)` in `reparent`. -/
theorem waitInv_exitWakeInit (h : WaitInv s) {status : Int} {i : Nat} {j : Slot}
    (hpc : s.pc p = .exitWakeInit status i j) :
    WaitInv ((s.wakeSlot p (some s.initproc) j).goto p (.exitWakeInit status i (j + 1))) := by
  have hrun := h.running p (h.holder (by rw [hpc]; rfl))
  refine h.move (h.calm_wake (some s.initproc) j hrun) (wakeSlot_waitLock _ j) (by rw [hpc]; rfl)
    True.intro (Or.inl rfl) ?_
  intro status' i' j' he hle hsleep
  rw [hpc] at he
  cases he
  refine ⟨i, j + 1, rfl, ?_⟩
  -- init is still asleep, so its slot comes later
  by_contra hlt
  have hj : j = s.initproc := Fin.ext (by omega)
  rw [hj] at hsleep
  exact wakeSlot_awake h hrun s.initproc hsleep

/-- One section of `wakeup(p->parent)`. -/
theorem waitInv_exitWakeParent (h : WaitInv s) {status : Int} {j : Slot}
    (hpc : s.pc p = .exitWakeParent status j) :
    WaitInv ((s.wakeSlot p (s.proc p).parent j).goto p (.exitWakeParent status (j + 1))) := by
  have hrun := h.running p (h.holder (by rw [hpc]; rfl))
  have hc : Calm s ((s.wakeSlot p (s.proc p).parent j).goto p (.exitWakeParent status (j + 1))) p
      (.exitWakeParent status (j + 1)) := h.calm_wake (s.proc p).parent j hrun
  have hseen := h.seen p
  rw [hpc] at hseen
  refine h.move hc (wakeSlot_waitLock _ j) (by rw [hpc]; rfl) ?_ (Or.inl rfl) ?_
  · intro q hq hlt hsleep
    rw [hc.parent] at hq
    by_cases hqj : q = j
    · rw [← hqj, hq] at hsleep
      exact wakeSlot_awake h hrun q hsleep
    · have hne : q.val ≠ j.val := fun he ↦ hqj (Fin.ext he)
      exact hseen q hq (by omega) (hc.sleep q hsleep).1
  · intro status' k' j' he
    rw [hpc] at he
    cases he

/-- What a scan of `wait` has seen after one more slot without a zombie child. -/
theorem Seen.scan {i : Slot} {havekids : Bool} (h : Seen s p (.waitScan i havekids))
    (hi : ¬ ZombieChild s p i) {b : Bool}
    (hb : b = true → havekids = true ∨ (s.proc i).parent = some p) :
    Seen s p (.waitScan (i + 1) b) := by
  refine ⟨?_, ?_⟩
  · intro j hj
    by_cases hji : j = i
    · rw [hji]
      exact hi
    · have hne : j.val ≠ i.val := fun he ↦ hji (Fin.ext he)
      exact h.1 j (by omega)
  · intro htrue
    rcases hb htrue with hk | hpar
    · exact h.2 hk
    · exact ⟨i, hpar⟩

/-- A section of a process inside a call keeps the invariant. -/
theorem waitInv_cont (h : WaitInv s) (hp : (s.proc p).state = .RUNNING) {ok : Bool}
    (ht : s.cont p ok = some t) : WaitInv t := by
  have hseen := h.seen p
  unfold Sys.cont at ht
  split at ht
  · cases ht
  · next i hpc =>
    split at ht
    · next hi =>
      split at ht
      · next hfree =>
        cases Option.some.inj ht
        cases ok with
        | true => exact waitInv_forkTake h hp hpc hfree
        | false => exact waitInv_forkFail h hp hpc hfree
      · cases Option.some.inj ht
        exact h.walk hp hpc rfl rfl rfl True.intro
    · cases Option.some.inj ht
      exact h.walk hp hpc rfl rfl rfl True.intro
  · next np hpc =>
    split at ht
    · next hfree =>
      cases Option.some.inj ht
      exact waitInv_forkSetParent h hp hpc hfree
    · cases ht
  · next np hpc =>
    cases Option.some.inj ht
    exact waitInv_forkFinish h hp hpc
  · next status hpc =>
    split at ht
    · next hfree =>
      cases Option.some.inj ht
      exact h.take hfree (h.calm_goto rfl rfl hp) rfl hp rfl True.intro rfl
    · cases ht
  · next status i hpc =>
    split at ht
    · next hi =>
      split at ht
      · next hpar =>
        cases Option.some.inj ht
        exact waitInv_giveToInit h hpc hpar
      · cases Option.some.inj ht
        exact h.walk hp hpc rfl rfl rfl True.intro
    · cases Option.some.inj ht
      refine h.walk hp hpc rfl rfl rfl ?_
      exact fun q _ hlt ↦ (Nat.not_lt_zero _ hlt).elim
  · next status i j hpc =>
    split at ht
    · next hj =>
      cases Option.some.inj ht
      exact waitInv_exitWakeInit h (j := ⟨j, hj⟩) hpc
    · next hj =>
      cases Option.some.inj ht
      refine h.goto hp (by rw [hpc]; rfl) rfl True.intro ?_
      intro status' k' j' he
      rw [hpc] at he
      cases he
      have := s.initproc.isLt
      omega
  · next status j hpc =>
    rw [hpc] at hseen
    split at ht
    · next hj =>
      cases Option.some.inj ht
      exact waitInv_exitWakeParent h (j := ⟨j, hj⟩) hpc
    · next hj =>
      cases Option.some.inj ht
      refine h.walk hp hpc rfl rfl rfl ?_
      intro q hq
      exact hseen q hq (by have := q.isLt; omega)
  · next status hpc =>
    cases Option.some.inj ht
    exact waitInv_becomeZombie h hpc
  · next hpc =>
    split at ht
    · next hfree =>
      cases Option.some.inj ht
      refine h.take hfree (h.calm_goto rfl rfl hp) rfl hp rfl ⟨?_, fun he ↦ nomatch he⟩ rfl
      exact fun i hi ↦ (Nat.not_lt_zero _ hi).elim
    · cases ht
  · next i havekids hpc =>
    rw [hpc] at hseen
    split at ht
    · next hi =>
      split at ht
      · next hpar =>
        split at ht
        · next hz =>
          cases Option.some.inj ht
          cases ok with
          | true => exact waitInv_reap h hpc hpar hz
          | false => exact h.leave hpc rfl rfl
        · next hz =>
          cases Option.some.inj ht
          refine h.walk hp hpc rfl rfl rfl ?_
          exact hseen.scan (i := ⟨i, hi⟩) (fun hc ↦ hz hc.2) (fun _ ↦ Or.inr hpar)
      · next hpar =>
        cases Option.some.inj ht
        refine h.walk hp hpc rfl rfl rfl ?_
        exact hseen.scan (i := ⟨i, hi⟩) (fun hc ↦ hpar hc.1) (fun hb ↦ Or.inl hb)
    · next hi =>
      split at ht
      · next hkids =>
        cases Option.some.inj ht
        refine h.walk hp hpc rfl rfl rfl ?_
        exact ⟨fun j ↦ hseen.1 j (by have := j.isLt; omega), hseen.2 hkids⟩
      · cases Option.some.inj ht
        exact h.leave hpc rfl rfl
  · next hpc =>
    rw [hpc] at hseen
    split at ht
    · cases Option.some.inj ht
      exact h.leave hpc rfl rfl
    · cases Option.some.inj ht
      exact h.walk hp hpc rfl rfl rfl hseen
  · next hpc =>
    cases Option.some.inj ht
    exact waitInv_waitSleep h hpc (fun j ↦ Table.set_proc _ _ _ _) rfl rfl
  · next pid i hpc =>
    split at ht
    · next hi =>
      split at ht
      · cases Option.some.inj ht
        refine h.move (h.calm_kill ⟨i, hi⟩ hp) rfl (by rw [hpc]; rfl) True.intro (Or.inl rfl) ?_
        intro status' k' j' he
        rw [hpc] at he
        cases he
      · cases Option.some.inj ht
        exact h.walk hp hpc rfl rfl rfl True.intro
    · cases Option.some.inj ht
      exact h.walk hp hpc rfl rfl rfl True.intro

theorem waitInv_enter (h : WaitInv s) (ht : s.enter p pc = some t) (hlocked : pc.locked = false)
    (hchild : pc.child = none) : WaitInv t := by
  unfold Sys.enter at ht
  split at ht
  · next hu =>
    cases Option.some.inj ht
    refine h.goto hu.1 (by rw [hu.2]; exact hlocked) hchild (Seen.of_unlocked hlocked) ?_
    rw [hu.2]
    exact fun _ _ _ he ↦ nomatch he
  · cases ht

/-- The scheduler changes the state of a process that neither sleeps nor holds `wait_lock`. -/
theorem waitInv_setState (h : WaitInv s) {q : Proc} (hparent : q.parent = (s.proc p).parent)
    (hlock : s.waitLock ≠ some p)
    (hs : (s.proc p).state = .RUNNABLE ∨ (s.proc p).state = .RUNNING)
    (hq : q.state = .RUNNABLE ∨ q.state = .RUNNING) : WaitInv (s.setProc p q) := by
  have hproc (j : Slot) : (s.setProc p q).proc j = if j = p then q else s.proc j :=
    Table.set_proc _ _ _ _
  have hused {r : Slot} (hr : (s.pc r).child = some p) : False := by
    have := h.building r p hr
    rcases hs with hs | hs <;> cases this.symm.trans hs
  have hc : Calm s (s.setProc p q) p (s.pc p) := by
    refine h.calm_set (i := p) rfl hproc ?_ hparent ?_ ?_ ?_ ?_ ?_ ?_
    · simp [Sys.setProc]
    · intro he
      rcases hq with hq | hq <;> cases he.symm.trans hq
    · intro he
      rcases hq with hq | hq <;> cases he.symm.trans hq
    · intro he
      rcases hq with hq | hq <;> cases he.symm.trans hq
    · exact fun hl ↦ (hlock hl).elim
    · exact fun r _ hr ↦ (hused hr).elim
    · rw [hproc, if_pos rfl]
      intro he
      rcases hq with hq | hq <;> cases he.symm.trans hq
  refine h.move hc rfl rfl ?_ (Or.inr ⟨rfl, ?_⟩) ?_
  · exact (h.seen p).mono hc.parent hc.zombie (fun i hi ↦ (hc.sleep i hi).1)
  · intro np hnp
    have hne : np ≠ p := by
      rintro rfl
      exact hused hnp
    rw [hproc, if_neg hne]
    exact h.building p np hnp
  · intro status k j hpc
    refine (hlock (h.holder ?_)).elim
    rw [hpc]
    rfl

/-- Every step keeps the invariant. -/
theorem waitInv_step (h : WaitInv s) {a : Act} (ht : s.step a = some t) : WaitInv t := by
  cases a with
  | fork p => exact waitInv_enter h ht rfl rfl
  | exit p status =>
    simp only [Sys.step] at ht
    split at ht
    · cases ht
    · exact waitInv_enter h ht rfl rfl
  | wait p => exact waitInv_enter h ht rfl rfl
  | kill p pid => exact waitInv_enter h ht rfl rfl
  | cont p ok =>
    simp only [Sys.step] at ht
    split at ht
    · next hp => exact waitInv_cont h hp ht
    · cases ht
  | sched p =>
    simp only [Sys.step] at ht
    split at ht
    · next hr =>
      cases Option.some.inj ht
      refine waitInv_setState h rfl ?_ (Or.inl hr) (Or.inr rfl)
      intro hl
      cases hr.symm.trans (h.running p hl)
    · cases ht
  | yield p =>
    simp only [Sys.step] at ht
    split at ht
    · next hr =>
      cases Option.some.inj ht
      exact waitInv_setState h rfl hr.2 (Or.inr hr.1) (Or.inl rfl)
    · cases ht

theorem waitInv_boot : WaitInv Sys.boot := by
  have hstate (i : Slot) : (Sys.boot.proc i).state ≠ .SLEEPING ∧
      (Sys.boot.proc i).state ≠ .ZOMBIE ∧ (Sys.boot.proc i).parent = none := by
    revert i
    decide
  refine ⟨?_, ?_, ?_, fun i _ ↦ (hstate i).2.2, ?_, ?_, ?_, fun _ ↦ True.intro, ?_, ?_⟩
  · intro p
    simp [Sys.boot, Pc.locked]
  · intro p hp
    cases hp
  · exact fun p hp ↦ ((hstate p).1 hp).elim
  · intro p np hnp
    cases hnp
  · intro p np hnp
    cases hnp
  · intro p q np hnp
    cases hnp
  · exact fun p hp ↦ ((hstate p).1 hp).elim
  · exact fun p i hp ↦ ((hstate p).1 hp).elim

/-- **No stranded waiter.** In every order of the critical sections of `fork`, `exit`, `wait` and
`kill`, whenever `wait_lock` is free a process asleep in `wait` has a child and no zombie. -/
theorem noStranded_always (as : List Act) : Always Sys.step NoStranded Sys.boot as :=
  always_of_invariant (fun _ h ↦ h.noStranded) (fun _ _ _ h ht ↦ waitInv_step h ht) waitInv_boot as

end

end Xv6.Proc
