import Mathlib.Data.BitVec
import Xv6.Base.Param

/-!
# `sleep` in the two kernels

`sys_sleep` of `pgtbl/system_backup/kernel/sysproc.c:52` and of `syscall/kernel/sysproc.c:52`, which
differ in one guard, against the clock interrupts (`kernel/trap.c:164`), wakeups, kills and choices
of the scheduler that come after the call. The tick counter and the argument are 32-bit words; the
number of ticks that have really passed is kept beside them.
-/

namespace Xv6.Ticks

/-- What happens while a process is in `sys_sleep`. -/
inductive Event where
  /-- `clockintr` adds a tick and wakes the sleepers; `kernel/trap.c:164–170`. -/
  | tick
  /-- Another `wakeup(&ticks)`. -/
  | wakeup
  | kill
  /-- The scheduler runs the process, if it is runnable. -/
  | sched
  deriving DecidableEq, Repr

/-- A process in `sys_sleep` and the counter that it reads. `passed` counts the ticks since the
call, without a bound. -/
structure Sleeper where
  ticks : BitVec 32
  ticks0 : BitVec 32
  state : ProcState
  killed : Bool
  passed : Nat

/-- `wakeup(&ticks)`; `kernel/proc.c:570`. -/
def Sleeper.wake (s : Sleeper) : Sleeper := { s with state := .RUNNABLE }

/-- `sleep(&ticks, &tickslock)`; `kernel/proc.c:539`. -/
def Sleeper.sleep (s : Sleeper) : Sleeper := { s with state := .SLEEPING }

/-- One test of the loop of `sys_sleep`, with the value that is returned there if any;
`kernel/sysproc.c:62–68`. The comparison converts `n` to unsigned. -/
def test (n : BitVec 32) (s : Sleeper) : Option Int :=
  if s.ticks - s.ticks0 < n then
    if s.killed then some (-1) else none
  else some 0

/-- The test as it is meant, on the ticks that have passed. -/
def due (n : BitVec 32) (s : Sleeper) : Option Int :=
  if max n.toInt 0 ≤ s.passed then some 0
  else if s.killed then some (-1)
  else none

/-- The loop from a `sleep` on: the value it returns and the ticks passed then. -/
def asleep (check : Sleeper → Option Int) : Sleeper → List Event → Option (Int × Nat)
  | _, [] => none
  | s, .tick :: es => asleep check { s.wake with ticks := s.ticks + 1, passed := s.passed + 1 } es
  | s, .wakeup :: es => asleep check s.wake es
  | s, .kill :: es => asleep check { s.wake with killed := true } es
  | s, .sched :: es =>
    if s.state = .RUNNABLE then
      match check s with
      | some r => some (r, s.passed)
      | none => asleep check s.sleep es
    else asleep check s es

/-- The loop from a test on. -/
def awake (check : Sleeper → Option Int) (s : Sleeper) (es : List Event) : Option (Int × Nat) :=
  match check s with
  | some r => some (r, s.passed)
  | none => asleep check s.sleep es

/-- A process that has just read `ticks0`. -/
def enter (ticks : BitVec 32) (killed : Bool) : Sleeper := ⟨ticks, ticks, .RUNNING, killed, 0⟩

/-- `sys_sleep` of `pgtbl/system_backup/kernel/sysproc.c:52–71`. -/
def sysSleepPgtbl (n ticks : BitVec 32) (killed : Bool) (es : List Event) : Option (Int × Nat) :=
  awake (test n) (enter ticks killed) es

/-- `sys_sleep` of `syscall/kernel/sysproc.c:52–72`. -/
def sysSleepSyscall (n ticks : BitVec 32) (killed : Bool) (es : List Event) : Option (Int × Nat) :=
  let n := if n.slt 0 then 0 else n
  awake (test n) (enter ticks killed) es

/-- 0 at the first test at which `max(n, 0)` ticks have passed, -1 at an earlier one that finds the
process killed. -/
def sleepSpec (n ticks : BitVec 32) (killed : Bool) (es : List Event) : Option (Int × Nat) :=
  awake (due n) (enter ticks killed) es

/-- Both kernels return what is meant, when it is meant. -/
def SleepsAgree (n ticks : BitVec 32) (killed : Bool) (es : List Event) : Prop :=
  sysSleepPgtbl n ticks killed es = sleepSpec n ticks killed es ∧
    sysSleepSyscall n ticks killed es = sleepSpec n ticks killed es

section
variable {n : BitVec 32} {s : Sleeper}

theorem asleep_sched (check : Sleeper → Option Int) (s : Sleeper) (es : List Event) :
    asleep check s (.sched :: es) =
      if s.state = .RUNNABLE then awake check s es else asleep check s es := rfl

/-- The counter shows the ticks passed, up to a wrap. -/
def Counts (s : Sleeper) : Prop := (s.ticks - s.ticks0).toNat = s.passed % 2 ^ 32

theorem counts_enter (ticks : BitVec 32) (killed : Bool) : Counts (enter ticks killed) := by
  rw [Counts, enter, BitVec.sub_self]
  rfl

theorem Counts.tick (h : Counts s) :
    Counts { s.wake with ticks := s.ticks + 1, passed := s.passed + 1 } := by
  have hone : (1 : BitVec 32).toNat = 1 := rfl
  unfold Counts at *
  simp only [Sleeper.wake, BitVec.toNat_sub, BitVec.toNat_add, hone] at *
  omega

theorem test_of_lt (h : Counts s) (hlt : s.passed % 2 ^ 32 < n.toNat) :
    test n s = if s.killed then some (-1) else none := by
  apply if_pos
  rw [BitVec.lt_def, h]
  exact hlt

theorem test_of_ge (h : Counts s) (hge : n.toNat ≤ s.passed % 2 ^ 32) : test n s = some 0 := by
  apply if_neg
  rw [BitVec.lt_def, h]
  omega

/-! ### When the counter lets a process go -/

theorem awake_test_zero_of {e : Nat} {es : List Event} (h : Counts s)
    (ih : asleep (test n) s.sleep es = some (0, e) → n.toNat ≤ e % 2 ^ 32)
    (hr : awake (test n) s es = some (0, e)) : n.toNat ≤ e % 2 ^ 32 := by
  unfold awake at hr
  by_cases hlt : s.passed % 2 ^ 32 < n.toNat
  · rw [test_of_lt h hlt] at hr
    cases hk : s.killed with
    | true =>
      rw [hk] at hr
      cases hr
    | false =>
      rw [hk] at hr
      exact ih hr
  · have hge := Nat.not_lt.mp hlt
    rw [test_of_ge h hge] at hr
    cases hr
    exact hge

theorem asleep_test_zero {e : Nat} {es : List Event} (h : Counts s)
    (hr : asleep (test n) s es = some (0, e)) : n.toNat ≤ e % 2 ^ 32 := by
  induction es generalizing s with
  | nil => cases hr
  | cons ev es ih =>
    cases ev with
    | tick => exact ih h.tick hr
    | wakeup => exact ih (s := s.wake) h hr
    | kill => exact ih (s := { s.wake with killed := true }) h hr
    | sched =>
      rw [asleep_sched] at hr
      split at hr
      · exact awake_test_zero_of h (ih (s := s.sleep) h) hr
      · exact ih h hr

/-- A kernel returns 0 only when its counter says so. -/
theorem awake_test_zero {e : Nat} {es : List Event} (h : Counts s)
    (hr : awake (test n) s es = some (0, e)) : n.toNat ≤ e % 2 ^ 32 :=
  awake_test_zero_of h (asleep_test_zero (s := s.sleep) h) hr

/-! ### The test as it is and as it is meant -/

/-- The loops agree if the meant one does not end between two wraps of the counter. -/
def InTime (n : BitVec 32) (r : Option (Int × Nat)) : Prop :=
  ∀ e, r = some (0, e) → n.toNat ≤ e % 2 ^ 32

theorem toNat_of_nonneg (hn : 0 ≤ n.toInt) : (n.toNat : Int) = n.toInt ∧ n.toNat < 2 ^ 31 := by
  rw [BitVec.toInt_eq_toNat_cond] at *
  split at hn
  · next hlt =>
    rw [if_pos hlt]
    exact ⟨rfl, by omega⟩
  · have := n.isLt
    omega

theorem due_of_nonneg (hn : 0 ≤ n.toInt) : due n s =
    if n.toNat ≤ s.passed then some 0 else if s.killed then some (-1) else none := by
  have hz : max n.toInt 0 ≤ s.passed ↔ n.toNat ≤ s.passed := by
    rw [max_eq_left hn, ← (toNat_of_nonneg hn).1, Int.ofNat_le]
  simp only [due, hz]

theorem awake_eq_iff_of {es : List Event} (hn : 0 ≤ n.toInt) (h : Counts s)
    (ih : asleep (test n) s.sleep es = asleep (due n) s.sleep es ↔
      InTime n (asleep (due n) s.sleep es)) :
    awake (test n) s es = awake (due n) s es ↔ InTime n (awake (due n) s es) := by
  have hsmall := (toNat_of_nonneg hn).2
  by_cases hle : n.toNat ≤ s.passed
  · -- the meant loop ends here
    have hdue : awake (due n) s es = some (0, s.passed) := by
      rw [awake, due_of_nonneg hn, if_pos hle]
    rw [hdue]
    constructor
    · intro heq e he
      cases he
      exact awake_test_zero h heq
    · intro hin
      rw [awake, test_of_ge h (hin _ rfl)]
  · have hlt : s.passed % 2 ^ 32 < n.toNat := by omega
    unfold awake
    rw [due_of_nonneg hn, if_neg hle, test_of_lt h hlt]
    cases s.killed with
    | true => exact ⟨fun _ _ he ↦ (nomatch he), fun _ ↦ rfl⟩
    | false => exact ih

theorem asleep_eq_iff (es : List Event) (hn : 0 ≤ n.toInt) (h : Counts s) :
    asleep (test n) s es = asleep (due n) s es ↔ InTime n (asleep (due n) s es) := by
  induction es generalizing s with
  | nil => exact ⟨fun _ _ he ↦ (nomatch he), fun _ ↦ rfl⟩
  | cons ev es ih =>
    cases ev with
    | tick => exact ih h.tick
    | wakeup => exact ih (s := s.wake) h
    | kill => exact ih (s := { s.wake with killed := true }) h
    | sched =>
      rw [asleep_sched, asleep_sched]
      split
      · exact awake_eq_iff_of hn h (ih (s := s.sleep) h)
      · exact ih h

end

/-- For `n < 0` only the kernel with the guard does what is meant; otherwise both do, unless they
first look when the counter has wrapped past `ticks0` again. -/
theorem sleepsAgree_iff (n ticks : BitVec 32) (killed : Bool) (es : List Event) :
    SleepsAgree n ticks killed es ↔ 0 ≤ n.toInt ∧
      ∀ passed, sleepSpec n ticks killed es = some (0, passed) → n.toNat ≤ passed % 2 ^ 32 := by
  have hcounts := counts_enter ticks killed
  by_cases hn : 0 ≤ n.toInt
  · have hguard : sysSleepSyscall n ticks killed es = sysSleepPgtbl n ticks killed es := by
      have hslt : n.slt 0 = false := by
        rw [BitVec.slt, decide_eq_false_iff_not]
        exact Int.not_lt.mpr hn
      rw [sysSleepSyscall, hslt]
      rfl
    have heq := awake_eq_iff_of hn hcounts (asleep_eq_iff es hn hcounts)
    rw [SleepsAgree, hguard, and_self]
    exact heq.trans (and_iff_right hn).symm
  · constructor
    · rintro ⟨hpgtbl, -⟩
      -- what is meant is to return at once
      have hspec : sleepSpec n ticks killed es = some (0, 0) := by
        have hdue : due n (enter ticks killed) = some 0 := by
          apply if_pos
          rw [max_eq_right (by omega)]
          exact Int.le_refl 0
        rw [sleepSpec, awake, hdue]
        rfl
      have hzero := awake_test_zero hcounts (hpgtbl.trans hspec)
      have hn0 : n = 0 := BitVec.eq_of_toNat_eq (Nat.le_zero.mp hzero)
      rw [hn0] at hn
      exact absurd (Int.le_refl 0) hn
    · intro h
      exact absurd h.1 hn

/-- `sleep(-1)` with no tick to come. -/
theorem sleep_negative_disagrees :
    sysSleepSyscall (-1) 0 false [] = some (0, 0) ∧ sysSleepPgtbl (-1) 0 false [] = none ∧
      ¬ SleepsAgree (-1) 0 false [] := by
  have hpgtbl : sysSleepPgtbl (-1) 0 false [] = none := by decide
  refine ⟨by decide, hpgtbl, ?_⟩
  rintro ⟨hspec, -⟩
  rw [hpgtbl] at hspec
  exact absurd hspec (by decide)

end Xv6.Ticks
