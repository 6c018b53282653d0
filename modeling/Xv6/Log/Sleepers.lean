import Xv6.Log.Protocol

/-!
# Who sleeps on the log

A process sleeps on `&log` in `begin_op` only as long as a commit is under way or the log may run
out. Three counters decide this. Those that could end the wait change in `end_op`, which wakes all
sleepers, or in `commit`, while `log.committing` is set.
-/

namespace Xv6.Log

open Xv6.Lib

variable {P : Type}

/-- The tests of `begin_op` on which a process sleeps; `kernel/log.c:131–133`. -/
def MustWait (s : State P) : Prop :=
  s.committing = true ∨ LOGSIZE < s.lh.length + (s.outstanding + 1) * MAXOPBLOCKS

/-- Whoever sleeps on `&log` has to. -/
def SleepersWait (s : State P) : Prop := ∀ p, s.pos p = .sleeping → MustWait s

/-- `outstanding` counts the operations; during a commit there are none, and nobody can log a
block; `end_op` does not find a commit under way; and nobody sleeps in vain. -/
structure NoStranded [Fintype P] [DecidableEq P] (c : Cfg) (s : State P) : Prop where
  outstanding : s.outstanding = ∑ p, if s.pos p = .inOp then 1 else 0
  quiet : s.committing = true → s.outstanding = 0 ∧ ∀ p b, s.step c (.logWrite p b) = none
  noPanic : s.mode ≠ .panicked "log.committing"
  wait : SleepersWait s

/-- The invariant: in a machine that recovers from its log all is idle, in any other one the
processes follow the protocol. -/
structure Calm [Fintype P] (s : State P) : Prop where
  boot : s.mode.Boots → Booting s
  ops : ¬ s.mode.Boots → Ops s
  noPanic : s.mode ≠ .panicked "log.committing"
  wait : SleepersWait s

theorem running_iff {pos : Pos} : pos.phase = .running ↔ pos = .inOp := by
  cases pos <;> simp [Pos.phase]

/-- Nobody sleeps after a `wakeup`. -/
theorem wakeup_not_sleeping (s : State P) (q : P) : s.wakeup.pos q ≠ .sleeping := by
  simp only [State.wakeup]
  split
  · exact Pos.noConfusion
  · next h => exact h

section
variable {s t : State P}

/-- Processes that are awake do not matter, nor do counters that only grow. -/
theorem SleepersWait.mono (h : SleepersWait s)
    (hpos : ∀ q, t.pos q = .sleeping → s.pos q = .sleeping)
    (hcom : s.committing = true → t.committing = true) (hlh : s.lh.length ≤ t.lh.length)
    (hout : s.outstanding ≤ t.outstanding) : SleepersWait t := by
  intro q hq
  rcases h q (hpos q hq) with hc | hroom
  · exact Or.inl (hcom hc)
  · apply Or.inr
    have : (s.outstanding + 1) * MAXOPBLOCKS ≤ (t.outstanding + 1) * MAXOPBLOCKS :=
      Nat.mul_le_mul_right _ (by omega)
    omega

theorem SleepersWait.of_awake (h : ∀ q, s.pos q ≠ .sleeping) : SleepersWait s :=
  fun q hq ↦ (h q hq).elim

theorem wait_logWrite (h : SleepersWait s) (c : Cfg) (p : P) (b : Nat) :
    SleepersWait (s.logWrite c p b) := by
  unfold State.logWrite
  split
  · exact h
  · split
    · exact h
    · unfold State.record
      dsimp only
      split
      · exact h
      · refine h.mono (fun _ hq ↦ hq) id ?_ (Nat.le_refl _)
        rw [List.length_append]
        exact Nat.le_add_right _ _

variable [DecidableEq P]

theorem goto_sleeping {p q : P} {pos : Pos} (hpos : pos ≠ .sleeping)
    (h : (s.goto p pos).pos q = .sleeping) : s.pos q = .sleeping := by
  change Function.update s.pos p pos q = .sleeping at h
  by_cases hq : q = p
  · rw [hq, Function.update_self] at h
    exact (hpos h).elim
  · rw [Function.update_of_ne hq] at h
    exact h

theorem wait_beginOp (h : SleepersWait s) (p : P) : SleepersWait (s.beginOp p) := by
  have hsleep (hwait : MustWait s) : SleepersWait (s.goto p .sleeping) := fun _ _ ↦ hwait
  unfold State.beginOp
  split
  · next hc => exact hsleep (Or.inl hc)
  · split
    · next hroom => exact hsleep (Or.inr hroom)
    · refine h.mono ?_ id (Nat.le_refl _) (Nat.le_succ _)
      intro q hq
      have hgoto : (s.goto p .inOp).pos q = .sleeping := hq
      exact goto_sleeping Pos.noConfusion hgoto

theorem wait_endOp (h : SleepersWait s) (p : P) : SleepersWait (s.endOp p) := by
  unfold State.endOp
  split
  · exact h
  · split
    · exact fun _ _ ↦ Or.inl rfl
    · apply SleepersWait.of_awake
      intro q hq
      exact wakeup_not_sleeping _ q (goto_sleeping Pos.noConfusion hq)

variable [Fintype P]

/-- The step of `commit` that resets `log.lh.n` is taken while `log.committing` is set. -/
theorem wait_commit (h : SleepersWait s) (hops : Ops s) {c : Cfg} {p : P}
    (ht : CommitStep c p s t) : SleepersWait t := by
  cases ht with
  | copy | copied | head | install | installed =>
    exact h.mono (fun _ hq ↦ goto_sleeping Pos.noConfusion hq) id (Nat.le_refl _) (Nat.le_refl _)
  | clear hpos =>
    intro q _
    apply Or.inl
    apply hops.committing p
    rw [State.phase, hpos]
    exact Or.inr (Or.inl rfl)
  | ended =>
    apply SleepersWait.of_awake
    intro q hq
    exact wakeup_not_sleeping _ q (goto_sleeping Pos.noConfusion hq)

/-- A step of a machine that is up. -/
theorem wait_step {c : Cfg} {a : Act P} (h : SleepersWait s) (hops : Ops s) (hmode : s.mode = .up)
    (ha : a ≠ .crash) (ht : Step c s a t) : SleepersWait t := by
  cases ht with
  | crash => exact (ha rfl).elim
  | recover hr => cases hr <;> simp_all
  | evict | bread | store | brelse => exact h
  | beginOp => exact wait_beginOp h _
  | endOp => exact wait_endOp h _
  | logWrite => exact wait_logWrite h c _ _
  | commit _ hc => exact wait_commit h hops hc
  | kill =>
    exact h.mono (fun _ hq ↦ goto_sleeping Pos.noConfusion hq) id (Nat.le_refl _) (Nat.le_refl _)

/-- `end_op` is not called while a commit is under way, and nobody else panics with its text. -/
theorem noPanic_step {c : Cfg} {a : Act P} (hops : Ops s) (hmode : s.mode = .up)
    (ht : Step c s a t) : t.mode ≠ .panicked "log.committing" := by
  have hs : s.mode ≠ .panicked "log.committing" := by
    rw [hmode]
    exact Mode.noConfusion
  cases ht with
  | crash => exact Mode.noConfusion
  | recover hr => cases hr <;> simp_all
  | evict | bread | store | brelse | kill => exact hs
  | beginOp =>
    unfold State.beginOp
    split
    · exact hs
    · split <;> exact hs
  | @endOp p _ hpos =>
    have hcom : s.committing = false := by
      apply hops.not_committing (p := p)
      rw [State.phase, hpos]
      rfl
    unfold State.endOp
    rw [hcom]
    split
    · next hc => cases hc
    · split <;> exact hs
  | logWrite =>
    unfold State.logWrite
    split
    · simp
    · split
      · simp
      · unfold State.record
        dsimp only
        split <;> exact hs
  | commit _ hc => cases hc <;> exact hs

theorem calm_step {c : Cfg} {a : Act P} (h : Calm s) (ht : Step c s a t) : Calm t := by
  by_cases ha : a = .crash
  · cases ht <;> cases ha
    exact ⟨fun _ ↦ ⟨rfl, rfl, fun _ ↦ rfl, fun _ ↦ rfl, fun _ ↦ rfl, rfl⟩,
      fun hb ↦ (hb True.intro).elim, Mode.noConfusion,
      SleepersWait.of_awake (fun _ ↦ Pos.noConfusion)⟩
  by_cases hmode : s.mode = .up
  · have hops := h.ops (by rw [hmode]; exact id)
    exact ⟨fun hb ↦ (step_not_boots hmode ha ht hb).elim, fun _ ↦ ops_step hops hmode ha ht,
      noPanic_step hops hmode ht, wait_step h.wait hops hmode ha ht⟩
  -- the machine is in `recover_from_log` or has panicked
  cases ht with
  | evict => exact ⟨fun hb ↦ { h.boot hb with }, fun hb ↦ { h.ops hb with }, h.noPanic, h.wait⟩
  | recover hr =>
    have hboots : s.mode.Boots := by
      cases hr with
      | readHead hm | install hm | installed hm | clear hm => rw [hm]; trivial
    have hboot := h.boot hboots
    have hawake : ∀ q, s.pos q ≠ .sleeping := by
      intro q
      rw [hboot.pos q]
      exact Pos.noConfusion
    cases hr with
    | readHead | install | installed =>
      exact ⟨fun _ ↦ { hboot with }, fun hb ↦ (hb True.intro).elim, Mode.noConfusion,
        SleepersWait.of_awake hawake⟩
    | clear =>
      exact ⟨fun hb ↦ hb.elim, fun _ ↦ ops_of_booting { hboot with } rfl, Mode.noConfusion,
        SleepersWait.of_awake hawake⟩
  | _ => simp_all

theorem Calm.noStranded (h : Calm s) (c : Cfg) : NoStranded c s := by
  by_cases hb : s.mode.Boots
  · have hboot := h.boot hb
    refine ⟨?_, ?_, h.noPanic, h.wait⟩
    · rw [hboot.outstanding]
      simp [hboot.pos]
    · rw [hboot.committing]
      exact fun hc ↦ nomatch hc
  · have hops := h.ops hb
    refine ⟨?_, ?_, h.noPanic, h.wait⟩
    · rw [hops.outstanding]
      simp only [State.phase, running_iff]
    · intro hc
      refine ⟨hops.quiet hc, ?_⟩
      intro p b
      have hp : s.pos p ≠ .inOp := by
        intro hp
        have := hops.not_committing (running_iff.mpr hp)
        rw [hc] at this
        cases this
      exact if_neg (fun hg ↦ hp hg.2.2.1)

end

/-- In every state of every run of the machine, whoever sleeps on the log has to. -/
theorem log_noStranded [Fintype P] [DecidableEq P] (c : Cfg) (d : Disk) (as : List (Act P)) :
    Always (State.step c) (NoStranded c) (State.off d) as := by
  refine always_of_invariant (J := Calm) (fun _ h ↦ h.noStranded c) ?_ ?_ as
  · intro s a t h ht
    exact calm_step h (step_of_eq_some ht)
  · exact ⟨fun _ ↦ ⟨rfl, rfl, fun _ ↦ rfl, fun _ ↦ rfl, fun _ ↦ rfl, rfl⟩,
      fun hb ↦ (hb True.intro).elim, Mode.noConfusion,
      SleepersWait.of_awake (fun _ ↦ Pos.noConfusion)⟩

end Xv6.Log
