import Xv6.Lib.Run
import Xv6.Proc.Table

/-!
# `kill` and the slots it can reach

`kill` compares pids without looking at a slot's state, and `freeproc` leaves pid 0 in a free
slot. The module says for which arguments `kill` concerns a live process only, over every
sequence of completed calls, and what this means for the processes that `fork` creates.
-/

namespace Xv6.Proc.Table

open Xv6.Lib

/-- Completed system calls, and the scheduler's choices between them. -/
inductive Call where
  | fork (me : Slot) (mem copy : Bool)
  | exit (me : Slot) (status : Int)
  | wait (me : Slot) (fault : Bool)
  | kill (pid : Int)
  | sched (me : Slot)
  | yield (me : Slot)

/-- Perform a call of a running process. A process woken inside `wait` may go on with any
call, so the runs include those in which it repeats its loop. -/
def call (s : Table) : Call → Option Table
  | .fork me mem copy =>
    if (s.proc me).state = .RUNNING then some (fork me mem copy s).2 else none
  | .exit me status => if (s.proc me).state = .RUNNING then exit me status s else none
  | .wait me fault => if (s.proc me).state = .RUNNING then some (wait me fault s).2 else none
  | .kill pid => some (kill pid s).2
  | .sched me =>
    if (s.proc me).state = .RUNNABLE then
      some (s.set me { s.proc me with state := .RUNNING, chan := none })
    else none
  | .yield me =>
    if (s.proc me).state = .RUNNING then some (s.set me { s.proc me with state := .RUNNABLE })
    else none

/-- A slot whose state is not `UNUSED`. -/
def Live (s : Table) (i : Slot) : Prop := (s.proc i).state ≠ .UNUSED

instance (s : Table) (i : Slot) : Decidable (Live s i) := inferInstanceAs (Decidable (_ ≠ _))

/-- What a caller may expect of `kill(pid)`: it returns 0 exactly when a live process has the
pid, it then marks that process and nothing else, and otherwise it changes nothing. -/
def KillSpec (s : Table) (pid : Int) : Prop :=
  ((kill pid s).1 = 0 ↔ ∃ i, Live s i ∧ (s.proc i).pid = pid) ∧
  ((kill pid s).1 = 0 → ∃ i, Live s i ∧ (s.proc i).pid = pid ∧
    (kill pid s).2 = s.set i (s.proc i).kill) ∧
  ((kill pid s).1 ≠ 0 → kill pid s = (-1, s))

/-- The argument is not 0, or every free slot comes after a live process with pid 0. Pids
start at 1, so without a wrap of `nextpid` the latter says that no slot is free. -/
def NamesLive (s : Table) (pid : Int) : Prop :=
  pid = 0 → ∀ i, ¬ Live s i → ∃ j < i, Live s j ∧ (s.proc j).pid = 0

/-- The condition on a run: each `kill` in it names a live process in this sense. -/
def KillsLive (s : Table) : Call → Prop
  | .kill pid => NamesLive s pid
  | _ => True

/-- Free slots have pid 0 and are not marked killed. -/
def FreeClean (s : Table) : Prop :=
  ∀ i, (s.proc i).state = .UNUSED → (s.proc i).pid = 0 ∧ (s.proc i).killed = false

theorem FreeClean.set {s : Table} (h : FreeClean s) {i : Slot} {p : Proc}
    (hp : p.state = .UNUSED → p.pid = 0 ∧ p.killed = false) : FreeClean (s.set i p) := by
  intro j hj
  rw [set_proc] at hj ⊢
  split at hj
  · next he => simpa only [he, if_true] using hp hj
  · next he => simpa only [he, if_false] using h j hj

theorem FreeClean.freeproc {s : Table} (h : FreeClean s) (i : Slot) :
    FreeClean (freeproc i s) :=
  h.set (fun _ ↦ ⟨rfl, rfl⟩)

theorem FreeClean.takeSlot {s : Table} (h : FreeClean s) (i : Slot) :
    FreeClean (takeSlot i s) := by
  intro j hj
  exact (h.set (by simp)) j hj

theorem FreeClean.fork {s : Table} (h : FreeClean s) (me : Slot) (mem copy : Bool) :
    FreeClean (fork me mem copy s).2 := by
  unfold Table.fork allocproc
  cases find (fun i ↦ (s.proc i).state = .UNUSED) with
  | none => exact h
  | some i =>
    cases mem with
    | false => exact (h.takeSlot i).freeproc i
    | true =>
      cases copy with
      | false => exact (h.takeSlot i).freeproc i
      | true => exact (h.takeSlot i).set (by simp)

theorem FreeClean.wakeup {s : Table} (h : FreeClean s) (me chan : Slot) :
    FreeClean (wakeup me chan s) := by
  intro i hi
  unfold Table.wakeup Proc.wake at hi ⊢
  dsimp only at hi ⊢
  split at hi
  · next he => simpa only [he, if_true] using h me (he ▸ hi)
  · next he =>
    split at hi
    · cases hi
    · next hw => simpa only [he, hw, if_false] using h i hi

theorem FreeClean.reparent {s : Table} (h : FreeClean s) (me : Slot) :
    FreeClean (reparent me s) := by
  unfold Table.reparent
  generalize List.finRange NPROC = l
  induction l generalizing s with
  | nil => exact h
  | cons i l ih =>
    apply ih
    unfold reparentSlot
    split
    · refine FreeClean.wakeup (h.set ?_) _ _
      exact h i
    · exact h

theorem FreeClean.exit {s t : Table} (h : FreeClean s) {me : Slot} {status : Int}
    (ht : exit me status s = some t) : FreeClean t := by
  unfold Table.exit at ht
  split at ht
  · cases ht
  · cases Option.some.inj ht
    have hr := h.reparent me
    refine FreeClean.set ?_ (by simp)
    split
    · exact hr.wakeup _ _
    · exact hr

theorem FreeClean.wait {s : Table} (h : FreeClean s) (me : Slot) (fault : Bool) :
    FreeClean (wait me fault s).2 := by
  unfold Table.wait
  split
  · split
    · exact h
    · exact h.freeproc _
  · split
    · exact h
    · exact h.set (by simp)

/-- Under the condition, the slot that `kill` finds is live. -/
theorem live_of_find {s : Table} (h : FreeClean s) {pid : Int} (hn : NamesLive s pid) {i : Slot}
    (hi : find (fun i ↦ (s.proc i).pid = pid) = some i) : Live s i := by
  intro hfree
  have hpid : (s.proc i).pid = pid := by simpa using find_some hi
  have hzero : pid = 0 := by rw [← hpid]; exact (h i hfree).1
  obtain ⟨j, hji, -, hj⟩ := hn hzero i (fun hl ↦ hl hfree)
  have := find_lt hi hji
  simp [hj, hzero] at this

theorem FreeClean.kill {s : Table} (h : FreeClean s) {pid : Int} (hn : NamesLive s pid) :
    FreeClean (kill pid s).2 := by
  unfold Table.kill
  split
  · next i hi =>
    have hlive := live_of_find h hn hi
    apply h.set
    intro hk
    unfold Proc.kill at hk
    dsimp only at hk
    split at hk
    · cases hk
    · exact (hlive hk).elim
  · exact h

theorem freeClean_boot : FreeClean boot := by
  intro i hi
  revert i
  decide

/-- Every call that meets the condition keeps the free slots clean. -/
theorem freeClean_call {s t : Table} {c : Call} (h : FreeClean s) (hok : KillsLive s c)
    (ht : call s c = some t) : FreeClean t := by
  cases c with
  | fork me mem copy =>
    simp only [call, Option.ite_none_right_eq_some, Option.some.injEq] at ht
    rw [← ht.2]
    exact h.fork me mem copy
  | exit me status =>
    simp only [call, Option.ite_none_right_eq_some] at ht
    exact h.exit ht.2
  | wait me fault =>
    simp only [call, Option.ite_none_right_eq_some, Option.some.injEq] at ht
    rw [← ht.2]
    exact h.wait me fault
  | kill pid =>
    cases Option.some.inj ht
    exact h.kill hok
  | sched me =>
    simp only [call, Option.ite_none_right_eq_some, Option.some.injEq] at ht
    rw [← ht.2]
    exact h.set (by simp)
  | yield me =>
    simp only [call, Option.ite_none_right_eq_some, Option.some.injEq] at ht
    rw [← ht.2]
    exact h.set (by simp)

/-- In a table with clean free slots, `kill(pid)` does what it should exactly when the pid
names a live process. -/
theorem killSpec_iff {s : Table} (h : FreeClean s) (pid : Int) :
    KillSpec s pid ↔ NamesLive s pid := by
  constructor
  · intro hspec hzero i hfree
    have hfree : (s.proc i).state = .UNUSED := not_not.mp hfree
    -- slot `i` matches, so `kill` finds some slot `k` and returns 0
    cases hf : find (fun i ↦ (s.proc i).pid = pid) with
    | none =>
      have := find_none hf i
      simp [(h i hfree).1, hzero] at this
    | some k =>
      have hkill : kill pid s = (0, s.set k (s.proc k).kill) := by simp [kill, hf]
      obtain ⟨j, hlive, hpid, heq⟩ := hspec.2.1 (by rw [hkill])
      have hk : (s.proc k).pid = pid := by simpa using find_some hf
      have hklive : Live s k := by
        intro hkfree
        have hjk : k ≠ j := by rintro rfl; exact hlive hkfree
        have := congrArg (fun t ↦ (t.proc k).killed) heq
        simp [hkill, set_proc, Proc.kill, hjk, (h k hkfree).2] at this
      refine ⟨k, ?_, hklive, by rw [hk, hzero]⟩
      rcases lt_trichotomy k i with hlt | heq | hgt
      · exact hlt
      · rw [heq] at hklive
        exact (hklive hfree).elim
      · have := find_lt hf hgt
        simp [(h i hfree).1, hzero] at this
  · intro hn
    unfold KillSpec kill
    cases hf : find (fun i ↦ (s.proc i).pid = pid) with
    | none =>
      refine ⟨⟨fun h0 ↦ by simp at h0, ?_⟩, fun h0 ↦ by simp at h0, fun _ ↦ rfl⟩
      rintro ⟨i, -, hi⟩
      have := find_none hf i
      simp [hi] at this
    | some i =>
      have hlive := live_of_find h hn hf
      have hpid : (s.proc i).pid = pid := by simpa using find_some hf
      exact ⟨⟨fun _ ↦ ⟨i, hlive, hpid⟩, fun _ ↦ rfl⟩, fun _ ↦ ⟨i, hlive, hpid, rfl⟩,
        fun h0 ↦ (h0 rfl).elim⟩

/-- A process that `fork` creates in a table with clean free slots is not marked killed. -/
theorem fork_not_killed {s : Table} (h : FreeClean s) (me : Slot) (mem copy : Bool) {i : Slot}
    (hbefore : ¬ Live s i) (hafter : Live (fork me mem copy s).2 i) :
    ((fork me mem copy s).2.proc i).killed = false := by
  have hfree : (s.proc i).state = .UNUSED := not_not.mp hbefore
  unfold Live fork allocproc at *
  cases hf : find (fun i ↦ (s.proc i).state = .UNUSED) with
  | none => simp [hf, hfree] at hafter
  | some k =>
    cases mem <;> cases copy <;>
      simp only [hf, if_true, Bool.false_eq_true, if_false] at hafter ⊢
    all_goals
      simp only [freeproc, takeSlot, set_proc, Proc.free] at hafter ⊢
      by_cases hik : i = k
      · subst hik
        simp_all [(h i hfree).2]
      · simp_all

/-- In every run whose `kill` calls all name live processes, and in every state it reaches,
`kill(pid)` does what it should exactly for the arguments that name live processes, and every
process that a `fork` creates starts without the killed mark. -/
theorem kill_names_live {s : Table} {cs : List Call} (hok : Along call KillsLive boot cs)
    (hrun : run call boot cs = some s) :
    (∀ pid, KillSpec s pid ↔ NamesLive s pid) ∧
    ∀ me mem copy i, ¬ Live s i → Live (fork me mem copy s).2 i →
      ((fork me mem copy s).2.proc i).killed = false := by
  have h : FreeClean s :=
    run_invariant_along (fun _ _ _ hs hok ht ↦ freeClean_call hs hok ht) freeClean_boot hok hrun
  exact ⟨killSpec_iff h, fun me mem copy i ↦ fork_not_killed h me mem copy⟩

/-- `kill(0)` at boot returns 0 although no live process has pid 0, and marks the first free
slot; the first process that the init process then forks starts out killed. -/
theorem kill_zero_marks_free_slot :
    ¬ KillSpec boot 0 ∧
    ∃ s, run call boot [.kill 0, .sched 0] = some s ∧
      ¬ Live s 1 ∧ Live (fork 0 true true s).2 1 ∧
      ((fork 0 true true s).2.proc 1).killed = true := by
  constructor
  · intro h
    obtain ⟨i, hlive, hpid⟩ := h.1.mp (by decide)
    revert i
    decide
  · refine ⟨_, rfl, ?_⟩
    decide

/-- A run with a `fork` and a `kill` of the child, from which `kill(2)` still works. -/
theorem kill_names_live_child :
    ∃ s, run call boot [.sched 0, .fork 0 true true, .kill 2] = some s ∧ KillSpec s 2 := by
  have hok : Along call KillsLive boot [.sched 0, .fork 0 true true, .kill 2] := by
    simp [Along, KillsLive, NamesLive]
  refine ⟨_, rfl, ?_⟩
  exact ((kill_names_live hok rfl).1 2).mpr (by simp [NamesLive])

end Xv6.Proc.Table
