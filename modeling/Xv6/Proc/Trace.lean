import Xv6.Proc.Stranded

/-!
# Trace masks belong to processes, not to slots

`trace` sets the caller's mask and `fork` copies it to the child; `allocproc` and `freeproc` leave
`trace_mask` as it was. To say whose mask a slot should hold, the interleaved table is run together
with a record of history: each process gets a number of its own when `fork` creates it, and the
record keeps every `trace` and every `fork`. The program does not see any of this.
-/

namespace Xv6.Proc

open Xv6.Lib

/-- A recorded call: `trace(mask)` by process `id`, or a fork of `child` by a process whose mask
was `mask` at that moment. -/
inductive Entry where
  | trace (id : Nat) (mask : Int)
  | fork (child : Nat) (mask : Int)
  deriving DecidableEq, Repr

/-- The argument of the most recent `trace` of a process. The latest entry comes first. -/
def lastTrace (id : Nat) : List Entry → Option Int
  | [] => none
  | .trace i mask :: es => if i = id then some mask else lastTrace id es
  | .fork _ _ :: es => lastTrace id es

/-- The mask that the creator of a process had when it forked the process. -/
def creatorMask (id : Nat) : List Entry → Option Int
  | [] => none
  | .trace _ _ :: es => creatorMask id es
  | .fork i mask :: es => if i = id then some mask else creatorMask id es

/-- The mask a process should have: its own last choice, or else its creator's, or else 0. -/
def ownMask (id : Nat) (es : List Entry) : Int :=
  (lastTrace id es).getD ((creatorMask id es).getD 0)

/-- The process that a recorded fork created. -/
def Entry.child : Entry → Option Nat
  | .trace _ _ => none
  | .fork child _ => some child

/-- The interleaved table with its history: the process that occupies each slot, the next unused
process number, and what was called. -/
structure Traced extends Sys where
  occupant : Slot → Nat
  fresh : Nat
  log : List Entry

/-- The steps of the table, and the calls that only this module looks at. -/
inductive TraceAct where
  | act (a : Act)
  | trace (p : Slot) (mask : Int)
  | exec (p : Slot)

/-- The child slot of a section in which process `p` creates a process: the section of `fork` that
finds a free slot and all the memory it needs. -/
def Sys.newborn (s : Sys) : Act → Option (Slot × Slot)
  | .cont p true =>
    match s.pc p with
    | .forkScan i =>
      if h : i < NPROC then
        if (s.proc p).state = .RUNNING ∧ (s.proc ⟨i, h⟩).state = .UNUSED then some (p, ⟨i, h⟩)
        else none
      else none
    | _ => none
  | _ => none

namespace Traced

/-- Number the new process and record the mask of its creator. -/
def born (s : Traced) (t : Sys) : Option (Slot × Slot) → Traced
  | none => { s with toSys := t }
  | some (p, i) =>
    { toSys := t
      occupant := Function.update s.occupant i s.fresh
      fresh := s.fresh + 1
      log := .fork s.fresh (s.proc p).traceMask :: s.log }

/-- `trace(mask)`; `kernel/proc.c:689–693`. -/
def trace (p : Slot) (mask : Int) (s : Sys) : Sys :=
  s.setProc p { s.proc p with traceMask := mask }

/-- The step function. That a process calls `trace` is recorded here, whatever the call does. `exec`
replaces the memory and the name of a process, which the table does not have; it touches no other
field. -/
def step (s : Traced) : TraceAct → Option Traced
  | .act a => (s.toSys.step a).map (fun t ↦ s.born t (s.toSys.newborn a))
  | .trace p mask =>
    if (s.proc p).state = .RUNNING ∧ s.pc p = .user then
      some { s with toSys := trace p mask s.toSys, log := .trace (s.occupant p) mask :: s.log }
    else none
  | .exec p => if (s.proc p).state = .RUNNING ∧ s.pc p = .user then some s else none

/-- The first process has number 0. -/
def boot : Traced where
  toSys := Sys.boot
  occupant := fun _ ↦ 0
  fresh := 1
  log := []

end Traced

/-- Each process is created once, live slots are occupied by different processes, and each of them
holds the mask of its occupant. -/
structure OwnMasks (s : Traced) : Prop where
  created : (0 :: s.log.filterMap Entry.child).Nodup
  distinct : ∀ i j, Live s.toSys i → Live s.toSys j → s.occupant i = s.occupant j → i = j
  mask : ∀ i, Live s.toSys i → (s.proc i).traceMask = ownMask (s.occupant i) s.log

/-- A step of the table that creates no process leaves every mask alone and starts no slot. -/
def KeepsMasks (s t : Sys) : Prop :=
  ∀ j, (t.proc j).traceMask = (s.proc j).traceMask ∧ (Live t j → Live s j)

section
variable {s t : Sys} {p : Slot}

theorem KeepsMasks.of_table (h : t.toTable = s.toTable) : KeepsMasks s t := by
  intro j
  unfold Live
  rw [h]
  exact ⟨rfl, id⟩

theorem KeepsMasks.of_set {i : Slot} {q : Proc}
    (hproc : ∀ j, t.proc j = if j = i then q else s.proc j)
    (hmask : q.traceMask = (s.proc i).traceMask)
    (hlive : q.state ≠ .UNUSED → (s.proc i).state ≠ .UNUSED) : KeepsMasks s t := by
  intro j
  unfold Live
  rw [hproc]
  split
  · next hj =>
    rw [hj]
    exact ⟨hmask, hlive⟩
  · exact ⟨rfl, id⟩

theorem KeepsMasks.wakeSlot (chan : Option Slot) (j : Slot) (pc : Pc) :
    KeepsMasks s ((s.wakeSlot p chan j).goto p pc) := by
  cases chan with
  | none => exact KeepsMasks.of_table rfl
  | some c =>
    unfold Sys.wakeSlot
    dsimp only
    split
    · exact KeepsMasks.of_table rfl
    · refine KeepsMasks.of_set (i := j) (fun i ↦ Table.set_proc _ _ _ _) ?_ ?_
      · unfold Proc.wake
        split <;> rfl
      · unfold Proc.wake
        split
        · next h =>
          rw [h.1]
          exact fun _ hu ↦ nomatch hu
        · exact id

theorem KeepsMasks.kill (i : Slot) (pc : Pc) :
    KeepsMasks s ((s.setProc i (s.proc i).kill).goto p pc) := by
  refine KeepsMasks.of_set (i := i) (fun j ↦ Table.set_proc _ _ _ _) rfl ?_
  intro h hu
  apply h
  simp [Proc.kill, hu]

/-- A position outside `allocproc` creates no process. -/
theorem newborn_none {ok : Bool} (h : ∀ i, s.pc p ≠ .forkScan i) :
    s.newborn (.cont p ok) = none := by
  unfold Sys.newborn
  split
  · next p' heq =>
    cases heq
    split
    · next i hpc => exact (h i hpc).elim
    · rfl
  · rfl

/-- What a section does to the masks: `fork` copies one to the slot it takes, the others leave them
alone. -/
theorem cont_masks {ok : Bool} (hs : WaitInv s) (hp : (s.proc p).state = .RUNNING)
    (ht : s.cont p ok = some t) :
    (∃ i, s.newborn (.cont p ok) = some (p, i) ∧ (s.proc i).state = .UNUSED ∧
      t = s.forkTake p i) ∨
    (s.newborn (.cont p ok) = none ∧ KeepsMasks s t) := by
  have hlive : (s.proc p).state ≠ .UNUSED := by
    rw [hp]
    exact fun h ↦ nomatch h
  unfold Sys.cont at ht
  split at ht
  · cases ht
  · next i hpc =>
    split at ht
    · next hi =>
      split at ht
      · next hfree =>
        cases Option.some.inj ht
        cases ok with
        | true =>
          refine Or.inl ⟨⟨i, hi⟩, ?_, hfree, rfl⟩
          simp only [Sys.newborn, hpc, hi, hp, hfree, dif_pos, and_self, if_true]
        | false =>
          refine Or.inr ⟨rfl, ?_⟩
          refine KeepsMasks.of_set (proc_forkFail s p ⟨i, hi⟩) rfl ?_
          exact fun h ↦ (h rfl).elim
      · next hused =>
        cases Option.some.inj ht
        refine Or.inr ⟨?_, KeepsMasks.of_table rfl⟩
        cases ok with
        | true => simp only [Sys.newborn, hpc, hi, hused, dif_pos, and_false, if_false]
        | false => rfl
    · next hi =>
      cases Option.some.inj ht
      refine Or.inr ⟨?_, KeepsMasks.of_table rfl⟩
      cases ok with
      | true => simp only [Sys.newborn, hpc, dif_neg hi]
      | false => rfl
  all_goals refine Or.inr ⟨newborn_none (by simp [*]), ?_⟩
  · next np hpc =>
    split at ht
    · cases Option.some.inj ht
      exact KeepsMasks.of_set (i := np) (fun j ↦ Table.set_proc _ _ _ _) rfl id
    · cases ht
  · next np hpc =>
    cases Option.some.inj ht
    refine KeepsMasks.of_set (i := np) (fun j ↦ Table.set_proc _ _ _ _) rfl ?_
    rw [hs.building p np (by rw [hpc]; rfl)]
    exact fun _ h ↦ nomatch h
  · split at ht
    · cases Option.some.inj ht
      exact KeepsMasks.of_table rfl
    · cases ht
  · split at ht
    · next hi =>
      split at ht
      · cases Option.some.inj ht
        exact KeepsMasks.of_set (i := ⟨_, hi⟩) (fun j ↦ Table.set_proc _ _ _ _) rfl id
      · cases Option.some.inj ht
        exact KeepsMasks.of_table rfl
    · cases Option.some.inj ht
      exact KeepsMasks.of_table rfl
  · split at ht
    · cases Option.some.inj ht
      exact KeepsMasks.wakeSlot _ _ _
    · cases Option.some.inj ht
      exact KeepsMasks.of_table rfl
  · split at ht
    · cases Option.some.inj ht
      exact KeepsMasks.wakeSlot _ _ _
    · cases Option.some.inj ht
      exact KeepsMasks.of_table rfl
  · cases Option.some.inj ht
    exact KeepsMasks.of_set (i := p) (fun j ↦ Table.set_proc _ _ _ _) rfl (fun _ ↦ hlive)
  · split at ht
    · cases Option.some.inj ht
      exact KeepsMasks.of_table rfl
    · cases ht
  · split at ht
    · next hi =>
      split at ht
      · split at ht
        · cases Option.some.inj ht
          cases ok with
          | true =>
            exact KeepsMasks.of_set (i := ⟨_, hi⟩) (fun j ↦ Table.set_proc _ _ _ _) rfl
              (fun h ↦ (h rfl).elim)
          | false => exact KeepsMasks.of_table rfl
        · cases Option.some.inj ht
          exact KeepsMasks.of_table rfl
      · cases Option.some.inj ht
        exact KeepsMasks.of_table rfl
    · split at ht
      · cases Option.some.inj ht
        exact KeepsMasks.of_table rfl
      · cases Option.some.inj ht
        exact KeepsMasks.of_table rfl
  · split at ht
    · cases Option.some.inj ht
      exact KeepsMasks.of_table rfl
    · cases Option.some.inj ht
      exact KeepsMasks.of_table rfl
  · cases Option.some.inj ht
    exact KeepsMasks.of_set (i := p) (fun j ↦ Table.set_proc _ _ _ _) rfl (fun _ ↦ hlive)
  · split at ht
    · split at ht
      · cases Option.some.inj ht
        exact KeepsMasks.kill _ _
      · cases Option.some.inj ht
        exact KeepsMasks.of_table rfl
    · cases Option.some.inj ht
      exact KeepsMasks.of_table rfl

/-- What a step of the table does to the masks. -/
theorem step_masks {a : Act} (hs : WaitInv s) (ht : s.step a = some t) :
    (∃ p i, s.newborn a = some (p, i) ∧ Live s p ∧ (s.proc i).state = .UNUSED ∧
      t = s.forkTake p i) ∨
    (s.newborn a = none ∧ KeepsMasks s t) := by
  have henter {p : Slot} {pc : Pc} (he : s.enter p pc = some t) : KeepsMasks s t := by
    unfold Sys.enter at he
    split at he
    · cases Option.some.inj he
      exact KeepsMasks.of_table rfl
    · cases he
  have hstate {p : Slot} {q : Proc} (hmask : q.traceMask = (s.proc p).traceMask)
      (hp : (s.proc p).state ≠ .UNUSED) : KeepsMasks s (s.setProc p q) :=
    KeepsMasks.of_set (i := p) (fun j ↦ Table.set_proc _ _ _ _) hmask (fun _ ↦ hp)
  cases a with
  | fork p => exact Or.inr ⟨rfl, henter ht⟩
  | exit p status =>
    simp only [Sys.step] at ht
    split at ht
    · cases ht
    · exact Or.inr ⟨rfl, henter ht⟩
  | wait p => exact Or.inr ⟨rfl, henter ht⟩
  | kill p pid => exact Or.inr ⟨rfl, henter ht⟩
  | cont p ok =>
    simp only [Sys.step] at ht
    split at ht
    · next hp =>
      rcases cont_masks hs hp ht with ⟨i, hnew, hfree, rfl⟩ | hkeep
      · refine Or.inl ⟨p, i, hnew, ?_, hfree, rfl⟩
        unfold Live
        rw [hp]
        intro h
        cases h
      · exact Or.inr hkeep
    · cases ht
  | sched p =>
    simp only [Sys.step] at ht
    split at ht
    · next h =>
      cases Option.some.inj ht
      exact Or.inr ⟨rfl, hstate rfl (by rw [h]; intro hu; cases hu)⟩
    · cases ht
  | yield p =>
    simp only [Sys.step] at ht
    split at ht
    · next h =>
      cases Option.some.inj ht
      exact Or.inr ⟨rfl, hstate rfl (by rw [h.1]; intro hu; cases hu)⟩
    · cases ht

end

/-- The number of the process that an entry is about. -/
def Entry.id : Entry → Nat
  | .trace id _ => id
  | .fork child _ => child

/-- The invariant: numbers are handed out once, and the record mentions no other. -/
structure TraceInv (s : Traced) : Prop where
  waits : WaitInv s.toSys
  masks : OwnMasks s
  started : 0 < s.fresh
  numbered : ∀ i, Live s.toSys i → s.occupant i < s.fresh
  recorded : ∀ e ∈ s.log, e.id < s.fresh

/-- A process without an entry did not call `trace`. -/
theorem lastTrace_unknown {id : Nat} {es : List Entry} (h : ∀ e ∈ es, e.id ≠ id) :
    lastTrace id es = none := by
  induction es with
  | nil => rfl
  | cons e es ih =>
    have hl := ih (fun e he ↦ h e (List.mem_cons_of_mem _ he))
    have hne : e.id ≠ id := h e List.mem_cons_self
    cases e with
    | trace i mask =>
      change i ≠ id at hne
      rw [lastTrace, if_neg hne, hl]
    | fork child mask => exact hl

theorem ownMask_trace (id i : Nat) (mask : Int) (es : List Entry) :
    ownMask id (.trace i mask :: es) = if i = id then mask else ownMask id es := by
  unfold ownMask
  rw [lastTrace, creatorMask]
  split <;> rfl

theorem ownMask_fork_ne {id child : Nat} (hne : child ≠ id) (mask : Int) (es : List Entry) :
    ownMask id (.fork child mask :: es) = ownMask id es := by
  unfold ownMask
  rw [lastTrace, creatorMask, if_neg hne]

section
variable {s t : Traced}

theorem TraceInv.trace (h : TraceInv s) {p : Slot} (hp : (s.proc p).state = .RUNNING)
    (hpc : s.pc p = .user) (mask : Int) :
    TraceInv { s with
      toSys := Traced.trace p mask s.toSys, log := .trace (s.occupant p) mask :: s.log } := by
  have hproc (j : Slot) : (Traced.trace p mask s.toSys).proc j =
      if j = p then { s.proc p with traceMask := mask } else s.proc j := Table.set_proc _ _ _ _
  have hlive (j : Slot) : Live (Traced.trace p mask s.toSys) j ↔ Live s.toSys j := by
    unfold Live
    rw [hproc]
    split
    · next hj => rw [hj]
    · rfl
  have hpl : Live s.toSys p := by
    unfold Live
    rw [hp]
    exact fun hu ↦ nomatch hu
  have hlock : s.waitLock ≠ some p := by
    intro hl
    have := (h.waits.lock p).mp hl
    rw [hpc] at this
    cases this
  refine ⟨?_, ⟨h.masks.created, ?_, ?_⟩, h.started, ?_, ?_⟩
  · exact waitInv_setState h.waits rfl hlock (Or.inr hp) (Or.inr hp)
  · intro i j hi hj
    exact h.masks.distinct i j ((hlive i).mp hi) ((hlive j).mp hj)
  · intro i hi
    have hi := (hlive i).mp hi
    change ((Traced.trace p mask s.toSys).proc i).traceMask =
      ownMask (s.occupant i) (.trace (s.occupant p) mask :: s.log)
    rw [ownMask_trace, hproc]
    by_cases hip : i = p
    · rw [if_pos hip, if_pos (by rw [hip])]
    · rw [if_neg hip, if_neg (fun he ↦ hip (h.masks.distinct p i hpl hi he).symm)]
      exact h.masks.mask i hi
  · intro i hi
    exact h.numbered i ((hlive i).mp hi)
  · intro e he
    rcases List.mem_cons.mp he with rfl | he
    · exact h.numbered p hpl
    · exact h.recorded e he

/-- The new process gets a number that the record does not know, and its creator's mask. -/
theorem TraceInv.born (h : TraceInv s) {p i : Slot} (hp : Live s.toSys p)
    (hfree : (s.proc i).state = .UNUSED) (hw : WaitInv (s.toSys.forkTake p i)) :
    TraceInv (s.born (s.toSys.forkTake p i) (some (p, i))) := by
  have hproc := proc_forkTake s.toSys p i
  have hpi : p ≠ i := by
    rintro rfl
    exact hp hfree
  have hlive {j : Slot} (hj : Live (s.toSys.forkTake p i) j) (hji : j ≠ i) : Live s.toSys j := by
    unfold Live at hj
    rw [hproc, if_neg hji] at hj
    exact hj
  have hocc {j : Slot} (hji : j ≠ i) :
      (s.born (s.toSys.forkTake p i) (some (p, i))).occupant j = s.occupant j :=
    Function.update_of_ne hji _ _
  have hnew : (s.born (s.toSys.forkTake p i) (some (p, i))).occupant i = s.fresh :=
    Function.update_self _ _ _
  have hold {j : Slot} (hj : Live (s.toSys.forkTake p i) j) (hji : j ≠ i) :
      s.occupant j < s.fresh := h.numbered j (hlive hj hji)
  refine ⟨hw, ⟨?_, ?_, ?_⟩, Nat.succ_pos _, ?_, ?_⟩
  · have hunused : s.fresh ∉ s.log.filterMap Entry.child := by
      intro hm
      obtain ⟨e, he, hc⟩ := List.mem_filterMap.mp hm
      have hlt := h.recorded e he
      cases e with
      | trace id mask => cases hc
      | fork child mask =>
        cases Option.some.inj hc
        exact lt_irrefl _ hlt
    have hcreated := List.nodup_cons.mp h.masks.created
    have hpos := h.started
    change (0 :: s.fresh :: s.log.filterMap Entry.child).Nodup
    refine List.nodup_cons.mpr ⟨?_, List.nodup_cons.mpr ⟨hunused, hcreated.2⟩⟩
    intro hm
    rcases List.mem_cons.mp hm with h0 | hm
    · omega
    · exact hcreated.1 hm
  · intro a b ha hb he
    by_cases hai : a = i
    · by_cases hbi : b = i
      · rw [hai, hbi]
      · rw [hai, hnew, hocc hbi] at he
        have := hold hb hbi
        omega
    · by_cases hbi : b = i
      · rw [hbi, hnew, hocc hai] at he
        have := hold ha hai
        omega
      · rw [hocc hai, hocc hbi] at he
        exact h.masks.distinct a b (hlive ha hai) (hlive hb hbi) he
  · intro j hj
    change ((s.toSys.forkTake p i).proc j).traceMask =
      ownMask _ (.fork s.fresh (s.proc p).traceMask :: s.log)
    by_cases hji : j = i
    · have hunknown : ∀ e ∈ s.log, e.id ≠ s.fresh := fun e he ↦ (h.recorded e he).ne
      have hlast := lastTrace_unknown hunknown
      rw [hji, hnew, hproc, if_pos rfl]
      unfold ownMask
      rw [lastTrace, creatorMask, hlast, if_pos rfl]
      simp [Table.takeSlot, Table.set_proc, hpi]
    · rw [hocc hji, ownMask_fork_ne (hold hj hji).ne', hproc, if_neg hji]
      exact h.masks.mask j (hlive hj hji)
  · intro j hj
    change _ < s.fresh + 1
    by_cases hji : j = i
    · rw [hji, hnew]
      omega
    · rw [hocc hji]
      have := hold hj hji
      omega
  · intro e he
    change _ < s.fresh + 1
    rcases List.mem_cons.mp he with rfl | he
    · exact Nat.lt_succ_self _
    · have := h.recorded e he
      omega

/-- Every step keeps the invariant. -/
theorem traceInv_step (h : TraceInv s) {a : TraceAct} (ht : s.step a = some t) : TraceInv t := by
  cases a with
  | act a =>
    obtain ⟨u, hu, rfl⟩ := Option.map_eq_some_iff.mp ht
    have hw := waitInv_step h.waits hu
    rcases step_masks h.waits hu with ⟨p, i, hnew, hp, hfree, rfl⟩ | ⟨hnew, hkeep⟩
    · rw [hnew]
      exact h.born hp hfree hw
    · rw [hnew]
      refine ⟨hw, ⟨h.masks.created, ?_, ?_⟩, h.started, ?_, h.recorded⟩
      · intro i j hi hj
        exact h.masks.distinct i j ((hkeep i).2 hi) ((hkeep j).2 hj)
      · intro i hi
        exact (hkeep i).1.trans (h.masks.mask i ((hkeep i).2 hi))
      · intro i hi
        exact h.numbered i ((hkeep i).2 hi)
  | trace p mask =>
    simp only [Traced.step] at ht
    split at ht
    · next hp =>
      cases Option.some.inj ht
      exact h.trace hp.1 hp.2 mask
    · cases ht
  | exec p =>
    simp only [Traced.step] at ht
    split at ht
    · cases Option.some.inj ht
      exact h
    · cases ht

end

theorem traceInv_boot : TraceInv Traced.boot := by
  have hinit (i : Slot) : (Sys.boot.proc i).state ≠ .UNUSED → i = Sys.boot.initproc := by
    revert i
    decide
  have hmask (i : Slot) : (Sys.boot.proc i).traceMask = 0 := by
    revert i
    decide
  refine ⟨waitInv_boot, ⟨List.nodup_singleton 0, ?_, fun i _ ↦ hmask i⟩, Nat.zero_lt_one,
    fun _ _ ↦ Nat.zero_lt_one, fun e he ↦ nomatch he⟩
  intro i j hi hj _
  rw [hinit i hi, hinit j hj]

/-- **Trace masks are inherited and do not leak.** In every order of the sections of all calls,
every live process has the mask of its own last `trace`, or the one its creator had at the fork. -/
theorem ownMasks_always (as : List TraceAct) : Always Traced.step OwnMasks Traced.boot as :=
  always_of_invariant (fun _ h ↦ h.masks) (fun _ _ _ h ht ↦ traceInv_step h ht) traceInv_boot as

/-- Init chooses a mask, forks a child, and chooses another mask. -/
def traceForkTrace : List TraceAct :=
  [.act (.sched 0), .trace 0 5, .act (.fork 0)] ++ List.replicate 4 (.act (.cont 0 true)) ++
    [.trace 0 9]

/-- The child keeps the mask that init had when it forked. -/
theorem ownMasks_always_traceForkTrace :
    ∃ s, run Traced.step Traced.boot traceForkTrace = some s ∧ Live s.toSys 1 ∧
      s.log = [.trace 0 9, .fork 1 5, .trace 0 5] ∧ s.occupant 1 = 1 ∧
      (s.proc 1).traceMask = 5 := by
  have hcheck : (run Traced.step Traced.boot traceForkTrace).map
      (fun s ↦ ((s.proc 1).state, s.log, s.occupant 1)) =
        some (.RUNNABLE, [.trace 0 9, .fork 1 5, .trace 0 5], 1) := by
    decide +kernel
  obtain ⟨s, hrun, heq⟩ := Option.map_eq_some_iff.mp hcheck
  obtain ⟨hstate, hlog, hocc⟩ : (s.proc 1).state = .RUNNABLE ∧
      s.log = [.trace 0 9, .fork 1 5, .trace 0 5] ∧ s.occupant 1 = 1 := by
    simpa only [Prod.mk.injEq] using heq
  have hlive : Live s.toSys 1 := by
    unfold Live
    rw [hstate]
    exact fun h ↦ nomatch h
  have hmasks : OwnMasks s := Always.last (ownMasks_always traceForkTrace) hrun
  refine ⟨s, hrun, hlive, hlog, hocc, ?_⟩
  rw [hmasks.mask 1 hlive, hocc, hlog]
  rfl

end Xv6.Proc
