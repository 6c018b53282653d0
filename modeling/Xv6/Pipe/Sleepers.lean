import Xv6.Pipe.Model

/-!
# Who sleeps on a pipe

A process that sleeps on `&pi->nread` should find the pipe empty and a writer left, and one
that sleeps on `&pi->nwrite` should find it full and a reader left. The invariant weakens
this while a process is inside its critical section and has not yet issued the wakeup it
owes. `pipewrite` has one exit without that wakeup: the one of a killed writer.
-/

namespace Xv6.Pipe

open Xv6.Lib

variable {P : Type}

/-- Process `p` is `SLEEPING` on the channel `ch`. -/
def SleepsOn (s : State P) (p : P) (ch : Chan) : Prop :=
  (s.thread p).state = .SLEEPING ∧ (s.thread p).chan = some ch

instance (s : State P) (p : P) (ch : Chan) : Decidable (SleepsOn s p ch) :=
  inferInstanceAs (Decidable (_ ∧ _))

/-- Every sleeper has a reason to sleep. -/
def SleepersWait (s : State P) : Prop :=
  ∀ p, (SleepsOn s p .nread → s.pipe.empty = true ∧ s.pipe.writeopen = true) ∧
    (SleepsOn s p .nwrite → s.pipe.full = true ∧ s.pipe.readopen = true)

/-- No process is stranded on the pipe whenever its lock is free. -/
def NoStranded (s : State P) : Prop := s.lock = none → SleepersWait s

/-- An iteration of `pipewrite` does not find its caller killed after it has stored a byte in
this critical section while some reader sleeps. Every other step is free. -/
def WakesReaders (s : State P) : Act P → Prop
  | .writeIter p _ => ∀ n i₀ i, (s.thread p).pc = .writeLoop n i₀ i → (i : Int) < n → i₀ < i →
      (s.thread p).killed = true → ∀ q, ¬ SleepsOn s q .nread
  | _ => True

/-- What holds while `p` is inside its critical section. -/
def InSection (s : State P) (p : P) : Prop :=
  match (s.thread p).pc with
  | .writeLoop _ i₀ i => i₀ ≤ i ∧ i ≤ i₀ + s.pipe.count ∧ (i₀ < i → s.pipe.readopen = true) ∧
      ∀ q, (SleepsOn s q .nread →
          (s.pipe.empty = true ∨ i₀ < i) ∧ s.pipe.writeopen = true) ∧
        (SleepsOn s q .nwrite → s.pipe.full = true ∧ s.pipe.readopen = true)
  | .readWait _ => SleepersWait s
  | .readCopy _ _ => ∀ q, ¬ SleepsOn s q .nread
  | _ => False

/-- The invariant of the pipe and its users. -/
structure Inv (s : State P) : Prop where
  count_le : s.pipe.count ≤ PIPESIZE
  awake : ∀ p, s.lock = some p → (s.thread p).state = .RUNNING
  free : s.lock = none → SleepersWait s
  held : ∀ p, s.lock = some p → InSection s p

/-- A fresh pipe satisfies the invariant. -/
theorem inv_init {s : State P} (h : Init s) : Inv s where
  count_le := by rw [h.pipe, count_alloc]; exact Nat.zero_le _
  awake := by intro p hp; rw [h.lock] at hp; cases hp
  free := by
    intro _ p
    exact ⟨fun hs ↦ (h.awake p hs.1).elim, fun hs ↦ (h.awake p hs.1).elim⟩
  held := by intro p hp; rw [h.lock] at hp; cases hp

/-- An invariant state with the lock free needs no more than reasons for its sleepers. -/
theorem Inv.of_free {s : State P} (hc : s.pipe.count ≤ PIPESIZE) (hl : s.lock = none)
    (hs : SleepersWait s) : Inv s where
  count_le := hc
  awake := by intro p hp; rw [hl] at hp; cases hp
  free := fun _ ↦ hs
  held := by intro p hp; rw [hl] at hp; cases hp

/-- The running holder of the lock does not sleep. -/
theorem Inv.not_sleepsOn {s : State P} (h : Inv s) {p : P} (hp : s.lock = some p) (ch : Chan) :
    ¬ SleepsOn s p ch := by
  intro hs
  rw [SleepsOn, h.awake p hp] at hs
  cases hs.1

/-- An invariant state with the lock held needs a running holder and its section's condition. -/
theorem Inv.of_held {s : State P} {p : P} (hc : s.pipe.count ≤ PIPESIZE) (hl : s.lock = some p)
    (hrun : (s.thread p).state = .RUNNING) (hsec : InSection s p) : Inv s where
  count_le := hc
  awake := by intro q hq; cases hl.symm.trans hq; exact hrun
  free := by intro hn; cases hl.symm.trans hn
  held := by intro q hq; cases hl.symm.trans hq; exact hsec

/-- Fewer sleepers need fewer reasons. -/
theorem SleepersWait.mono {s s' : State P} (h : SleepersWait s) (hpipe : s'.pipe = s.pipe)
    (hsleep : ∀ q ch, SleepsOn s' q ch → SleepsOn s q ch) : SleepersWait s' := by
  intro q
  rw [hpipe]
  exact ⟨fun hs ↦ (h q).1 (hsleep q _ hs), fun hs ↦ (h q).2 (hsleep q _ hs)⟩

/-- A step that keeps the pipe and its lock, leaves the holder where it is and puts nobody to
sleep keeps the invariant. -/
theorem Inv.mono {s s' : State P} (h : Inv s) (hpipe : s'.pipe = s.pipe)
    (hlock : s'.lock = s.lock) (hsleep : ∀ q ch, SleepsOn s' q ch → SleepsOn s q ch)
    (hrun : ∀ p, s.lock = some p → (s'.thread p).state = (s.thread p).state)
    (hpc : ∀ p, s.lock = some p → (s'.thread p).pc = (s.thread p).pc) : Inv s' where
  count_le := by rw [hpipe]; exact h.count_le
  awake := by
    intro p hp
    rw [hlock] at hp
    rw [hrun p hp]
    exact h.awake p hp
  free := by
    intro hn
    rw [hlock] at hn
    exact (h.free hn).mono hpipe hsleep
  held := by
    intro p hp
    rw [hlock] at hp
    have hsec := h.held p hp
    unfold InSection at hsec ⊢
    rw [hpc p hp]
    split at hsec
    · obtain ⟨h1, h2, h3, h4⟩ := hsec
      rw [hpipe]
      exact ⟨h1, h2, h3, fun q ↦ ⟨fun hs ↦ (h4 q).1 (hsleep q _ hs),
        fun hs ↦ (h4 q).2 (hsleep q _ hs)⟩⟩
    · exact hsec.mono hpipe hsleep
    · exact fun q hs ↦ hsec q (hsleep q _ hs)
    · exact hsec.elim

/-- The holder of the lock is inside the pipe code. -/
theorem Inv.pc_ne_user {s : State P} (h : Inv s) {p : P} (hp : s.lock = some p) :
    (s.thread p).pc ≠ .user := by
  intro hu
  have := h.held p hp
  simp [InSection, hu] at this

section Steps

variable [DecidableEq P]

/-! ### What each primitive does to the sleepers -/

theorem sleepsOn_wakeup {me q : P} {ch c : Chan} {s : State P} :
    SleepsOn (wakeup me ch s) q c ↔ SleepsOn s q c ∧ (c = ch → q = me) := by
  unfold SleepsOn wakeup
  dsimp only
  split
  · next h =>
    obtain ⟨hq, -, hc⟩ := h
    simp only [reduceCtorEq, false_and, hc, Option.some.injEq, false_iff, not_and]
    rintro ⟨-, rfl⟩ hme
    exact hq (hme rfl)
  · next h =>
    constructor
    · intro hs
      refine ⟨hs, ?_⟩
      rintro rfl
      apply Classical.byContradiction
      intro hq
      exact h ⟨hq, hs⟩
    · exact And.left

theorem sleepsOn_finish {me q : P} {r : Int} {c : Chan} {s : State P} :
    SleepsOn (finish me r s) q c ↔ SleepsOn s q c := by
  unfold SleepsOn finish State.setThread
  by_cases h : q = me
  · subst h; simp
  · simp [h]

theorem sleepsOn_sleep {me q : P} {ch c : Chan} {pc : Pc} {s : State P} :
    SleepsOn (sleep me ch pc s) q c ↔ if q = me then c = ch else SleepsOn s q c := by
  unfold SleepsOn sleep State.setThread
  by_cases h : q = me
  · subst h; simp [eq_comm]
  · simp [h]

/-- Moving a process to another program point neither wakes it nor puts it to sleep. -/
theorem sleepsOn_setPc {s s' : State P} {p q : P} {c : Chan} {pc : Pc}
    (h : s'.thread = Function.update s.thread p { s.thread p with pc := pc }) :
    SleepsOn s' q c ↔ SleepsOn s q c := by
  unfold SleepsOn
  rw [h]
  by_cases hq : q = p
  · subst hq; simp
  · simp [hq]

theorem sleepsOn_kill {p q : P} {c : Chan} {s : State P} (h : SleepsOn (kill p s) q c) :
    SleepsOn s q c := by
  unfold SleepsOn kill State.setThread at h
  by_cases hq : q = p
  · subst hq
    simp only [Function.update_self] at h
    split at h
    · simp at h
    · next hn => exact absurd h.1 hn
  · simp only [ne_eq, hq, not_false_eq_true, Function.update_of_ne] at h
    exact h

@[simp] theorem wakeup_pipe (me : P) (ch : Chan) (s : State P) :
    (wakeup me ch s).pipe = s.pipe := rfl

@[simp] theorem finish_pipe (me : P) (r : Int) (s : State P) : (finish me r s).pipe = s.pipe := rfl

@[simp] theorem sleep_pipe (me : P) (ch : Chan) (pc : Pc) (s : State P) :
    (sleep me ch pc s).pipe = s.pipe := rfl

/-! ### The steps of the holder -/

/-- After `pipewrite`'s wakeup no reader sleeps, and a sleeping writer still finds the pipe full. -/
theorem sleepersWait_write {s : State P} (h : Inv s) {p : P} (hp : s.lock = some p)
    {n : Int} {i₀ i : Nat} (hpc : (s.thread p).pc = .writeLoop n i₀ i) :
    SleepersWait (wakeup p .nread s) := by
  have hsec := h.held p hp
  simp only [InSection, hpc] at hsec
  obtain ⟨-, -, -, hq⟩ := hsec
  intro q
  constructor
  · intro hs
    obtain ⟨hs, hme⟩ := sleepsOn_wakeup.mp hs
    rw [hme rfl] at hs
    exact (h.not_sleepsOn hp _ hs).elim
  · intro hs
    exact (hq q).2 (sleepsOn_wakeup.mp hs).1

theorem inv_finish {s : State P} {p : P} {r : Int} (hc : s.pipe.count ≤ PIPESIZE)
    (hs : SleepersWait s) : Inv (finish p r s) := by
  apply Inv.of_free
  · exact hc
  · rfl
  · intro q
    simp only [sleepsOn_finish, finish_pipe]
    exact hs q

theorem inv_writeIter {s : State P} (h : Inv s) {p : P} (hp : s.lock = some p) {n : Int}
    {i₀ i : Nat} (hpc : (s.thread p).pc = .writeLoop n i₀ i) (ch : Option UInt8)
    (hok : (i : Int) < n → i₀ < i → (s.thread p).killed = true → ∀ q, ¬ SleepsOn s q .nread) :
    Inv (writeIter p ch n i₀ i s) := by
  have hwake := sleepersWait_write h hp hpc
  have hsec := h.held p hp
  simp only [InSection, hpc] at hsec
  obtain ⟨hle, hcount, hopen, hq⟩ := hsec
  unfold writeIter
  split
  · next hi =>
    split
    · next hexit =>
      apply inv_finish h.count_le
      intro q
      refine ⟨?_, (hq q).2⟩
      intro hs
      obtain ⟨hemp | hlt, hw⟩ := (hq q).1 hs
      · exact ⟨hemp, hw⟩
      · -- a byte was stored: the pipe has a reader, so the writer is killed
        rcases hexit with hr | hk
        · rw [hopen hlt] at hr; cases hr
        · exact (hok hi hlt hk q hs).elim
    · next hexit =>
      have hro : s.pipe.readopen = true := by
        cases hr : s.pipe.readopen with
        | true => rfl
        | false => exact (hexit (Or.inl hr)).elim
      split
      · next hfull =>
        refine Inv.of_free (by simpa using h.count_le) rfl ?_
        intro q
        simp only [sleepsOn_sleep, sleep_pipe, wakeup_pipe]
        by_cases hqp : q = p
        · subst hqp
          simp [hfull, hro]
        · simpa only [hqp, if_false, wakeup_pipe] using hwake q
      · next hfull =>
        cases ch with
        | none => exact inv_finish h.count_le hwake
        | some c =>
          have hlt : s.pipe.count < PIPESIZE := by
            have := h.count_le
            have hne : s.pipe.count ≠ PIPESIZE := fun he ↦ hfull ((full_iff_count _).mpr he)
            omega
          have hput := count_put s.pipe c hlt
          refine Inv.of_held ?_ hp ?_ ?_
          · change (s.pipe.put c).count ≤ PIPESIZE
            omega
          · simpa [State.setThread] using h.awake p hp
          · simp only [InSection, State.setThread, Function.update_self]
            refine ⟨by omega, by omega, fun _ ↦ hro, ?_⟩
            intro q
            constructor
            · intro hs
              exact ⟨Or.inr (by omega), ((hq q).1 ((sleepsOn_setPc rfl).mp hs)).2⟩
            · intro hs
              exact absurd ((hq q).2 ((sleepsOn_setPc rfl).mp hs)).1 hfull
  · exact inv_finish h.count_le hwake

theorem inv_readTest {s : State P} (h : Inv s) {p : P} (hp : s.lock = some p) {n : Int}
    (hpc : (s.thread p).pc = .readWait n) : Inv (readTest p n s) := by
  have hsec := h.held p hp
  simp only [InSection, hpc] at hsec
  unfold readTest
  split
  · next hwait =>
    split
    · exact inv_finish h.count_le hsec
    · refine Inv.of_free (by simpa using h.count_le) rfl ?_
      intro q
      simp only [sleepsOn_sleep, sleep_pipe]
      by_cases hqp : q = p
      · subst hqp
        simp [hwait.1, hwait.2]
      · simpa only [hqp, if_false] using hsec q
  · next hwait =>
    refine Inv.of_held h.count_le hp ?_ ?_
    · simpa [State.setThread] using h.awake p hp
    · simp only [InSection, State.setThread, Function.update_self]
      intro q hs
      rw [sleepsOn_setPc rfl] at hs
      exact hwait ((hsec q).1 hs)

/-- After `piperead`'s wakeup nobody sleeps on the pipe. -/
theorem sleepersWait_read {s : State P} (h : Inv s) {p : P} (hp : s.lock = some p)
    (hq : ∀ q, ¬ SleepsOn s q .nread) : SleepersWait (wakeup p .nwrite s) := by
  intro q
  constructor
  · intro hs
    exact (hq q (sleepsOn_wakeup.mp hs).1).elim
  · intro hs
    obtain ⟨hs, hme⟩ := sleepsOn_wakeup.mp hs
    rw [hme rfl] at hs
    exact (h.not_sleepsOn hp _ hs).elim

theorem inv_readIter {s : State P} (h : Inv s) {p : P} (hp : s.lock = some p) {n : Int}
    {i : Nat} (hpc : (s.thread p).pc = .readCopy n i) (ok : Bool) : Inv (readIter p ok n i s) := by
  have hsec := h.held p hp
  simp only [InSection, hpc] at hsec
  have hwake := sleepersWait_read h hp hsec
  unfold readIter
  split
  · split
    · exact inv_finish h.count_le hwake
    · next hemp =>
      have hpos : 0 < s.pipe.count := by
        have : s.pipe.count ≠ 0 := fun he ↦ hemp ((empty_iff_count _).mpr he)
        omega
      have htake := count_take s.pipe hpos
      have hle := h.count_le
      dsimp only
      split
      · refine Inv.of_held ?_ hp ?_ ?_
        · change s.pipe.take.count ≤ PIPESIZE
          omega
        · simpa [State.setThread] using h.awake p hp
        · simp only [InSection, State.setThread, Function.update_self]
          intro q hs
          rw [sleepsOn_setPc rfl] at hs
          exact hsec q hs
      · apply inv_finish
        · change s.pipe.take.count ≤ PIPESIZE
          omega
        · -- no one sleeps any more, so the new contents do not matter
          intro q
          constructor
          · intro hs
            exact (hsec q (sleepsOn_wakeup.mp hs).1).elim
          · intro hs
            obtain ⟨hs, hme⟩ := sleepsOn_wakeup.mp hs
            rw [hme rfl] at hs
            exact (h.not_sleepsOn hp _ hs).elim
  · exact inv_finish h.count_le hwake

/-! ### The other steps -/

/-- The wakeup clears the channel whose condition the closed end falsifies. -/
theorem inv_closeEnd {s : State P} (h : Inv s) (hl : s.lock = none) {p : P}
    (hp : s.Running p) (writable : Bool) : Inv (closeEnd p writable s) := by
  have hw := h.free hl
  have hnot (ch : Chan) : ¬ SleepsOn s p ch := by
    intro hs
    cases hp.symm.trans hs.1
  unfold closeEnd
  split
  · refine Inv.of_free h.count_le hl ?_
    intro q
    refine ⟨fun hs ↦ ?_, fun hs ↦ (hw q).2 (sleepsOn_wakeup.mp hs).1⟩
    obtain ⟨hs, hme⟩ := sleepsOn_wakeup.mp hs
    rw [hme rfl] at hs
    exact (hnot _ hs).elim
  · refine Inv.of_free h.count_le hl ?_
    intro q
    refine ⟨fun hs ↦ (hw q).1 (sleepsOn_wakeup.mp hs).1, fun hs ↦ ?_⟩
    obtain ⟨hs, hme⟩ := sleepsOn_wakeup.mp hs
    rw [hme rfl] at hs
    exact (hnot _ hs).elim

theorem inv_pipeclose {s : State P} (h : Inv s) (hl : s.lock = none) {p : P}
    (hp : s.Running p) (writable : Bool) : Inv (pipeclose p writable s) := by
  have hclosed := inv_closeEnd h hl hp writable
  unfold pipeclose
  dsimp only
  split
  · exact ⟨hclosed.count_le, hclosed.awake, hclosed.free, hclosed.held⟩
  · exact hclosed

/-- A process outside the critical section that only moves to another program point. -/
theorem inv_setPc {s : State P} (h : Inv s) {p : P} (hp : s.lock ≠ some p) (pc : Pc) :
    Inv (s.setThread p { s.thread p with pc := pc }) := by
  refine h.mono rfl rfl ?_ ?_ ?_
  · intro q ch hs
    exact (sleepsOn_setPc rfl).mp hs
  · intro q hq
    have : q ≠ p := by rintro rfl; exact hp hq
    simp [State.setThread, this]
  · intro q hq
    have : q ≠ p := by rintro rfl; exact hp hq
    simp [State.setThread, this]

/-- A process awake before and after a step that leaves its program point alone. -/
theorem inv_setState {s : State P} (h : Inv s) {p : P} {t : Thread} (hp : s.lock ≠ some p)
    (ht : t.state ≠ .SLEEPING) : Inv (s.setThread p t) := by
  refine h.mono rfl rfl ?_ ?_ ?_
  · intro q ch hs
    by_cases hq : q = p
    · subst hq
      simp only [SleepsOn, State.setThread, Function.update_self] at hs
      exact (ht hs.1).elim
    · simp only [SleepsOn, State.setThread, ne_eq, hq, not_false_eq_true,
        Function.update_of_ne] at hs
      exact hs
  · intro q hq
    have : q ≠ p := by rintro rfl; exact hp hq
    simp [State.setThread, this]
  · intro q hq
    have : q ≠ p := by rintro rfl; exact hp hq
    simp [State.setThread, this]

theorem inv_kill {s : State P} (h : Inv s) (p : P) : Inv (kill p s) := by
  refine h.mono rfl rfl ?_ ?_ ?_
  · intro q ch hs
    exact sleepsOn_kill hs
  · intro q hq
    by_cases hqp : q = p
    · subst hqp
      simp [kill, State.setThread, h.awake q hq]
    · simp [kill, State.setThread, hqp]
  · intro q hq
    by_cases hqp : q = p
    · subst hqp
      simp [kill, State.setThread]
    · simp [kill, State.setThread, hqp]

theorem inv_acquire {s t : State P} (h : Inv s) {p : P} (hs : step s (.acquire p) = some t) :
    Inv t := by
  simp only [step] at hs
  split at hs
  · next hen =>
    obtain ⟨hrun, hl, -⟩ := hen
    have hw := h.free hl
    have hsleep {pc : Pc} (q : P) (ch : Chan) :
        SleepsOn { s.setThread p { s.thread p with pc := pc } with lock := some p } q ch ↔
          SleepsOn s q ch := sleepsOn_setPc rfl
    split at hs
    · cases Option.some.inj hs
      refine Inv.of_held h.count_le rfl ?_ ?_
      · simpa [State.setThread, State.Running] using hrun
      · simp only [InSection, State.setThread, Function.update_self]
        refine ⟨Nat.le_refl _, Nat.le_add_right _ _, fun hlt ↦ (Nat.lt_irrefl _ hlt).elim, ?_⟩
        intro q
        refine ⟨fun hq ↦ ?_, fun hq ↦ (hw q).2 ((hsleep q _).mp hq)⟩
        have := (hw q).1 ((hsleep q _).mp hq)
        exact ⟨Or.inl this.1, this.2⟩
    · cases Option.some.inj hs
      refine Inv.of_held h.count_le rfl ?_ ?_
      · simpa [State.setThread, State.Running] using hrun
      · simp only [InSection, State.setThread, Function.update_self]
        exact hw.mono rfl (fun q ch ↦ (hsleep q ch).mp)
    · cases hs
  · cases hs

/-- Every step that meets the condition keeps the invariant. -/
theorem inv_step {s t : State P} {a : Act P} (h : Inv s) (hok : WakesReaders s a)
    (hs : step s a = some t) : Inv t := by
  cases a with
  | pipewrite p n =>
    simp only [step] at hs
    split at hs
    · next hen =>
      cases Option.some.inj hs
      exact inv_setPc h (fun hp ↦ h.pc_ne_user hp hen.2) _
    · cases hs
  | piperead p n =>
    simp only [step] at hs
    split at hs
    · next hen =>
      cases Option.some.inj hs
      exact inv_setPc h (fun hp ↦ h.pc_ne_user hp hen.2) _
    · cases hs
  | pipeclose p writable =>
    simp only [step] at hs
    split at hs
    · next hen =>
      cases Option.some.inj hs
      exact inv_pipeclose h hen.2.2.1 hen.1 writable
    · cases hs
  | acquire p => exact inv_acquire h hs
  | writeIter p ch =>
    simp only [step] at hs
    split at hs
    · next hp =>
      split at hs
      · next n i₀ i hpc =>
        cases Option.some.inj hs
        exact inv_writeIter h hp hpc ch (hok n i₀ i hpc)
      · cases hs
    · cases hs
  | readTest p =>
    simp only [step] at hs
    split at hs
    · next hp =>
      split at hs
      · next n hpc =>
        cases Option.some.inj hs
        exact inv_readTest h hp hpc
      · cases hs
    · cases hs
  | readIter p ok =>
    simp only [step] at hs
    split at hs
    · next hp =>
      split at hs
      · next n i hpc =>
        cases Option.some.inj hs
        exact inv_readIter h hp hpc ok
      · cases hs
    · cases hs
  | sched p =>
    simp only [step] at hs
    split at hs
    · next hen =>
      cases Option.some.inj hs
      refine inv_setState h ?_ (by simp)
      intro hp
      cases (h.awake p hp).symm.trans hen
    · cases hs
  | yield p =>
    simp only [step] at hs
    split at hs
    · next hen =>
      cases Option.some.inj hs
      exact inv_setState h hen.2 (by simp)
    · cases hs
  | kill p =>
    cases Option.some.inj hs
    exact inv_kill h p

/-- A step that misses the condition leaves a reader asleep beside a byte it could read. -/
theorem stranded_step {s t : State P} {a : Act P} (h : Inv s) (hok : ¬ WakesReaders s a)
    (hs : step s a = some t) : ¬ NoStranded t := by
  cases a with
  | writeIter p ch =>
    simp only [WakesReaders, not_forall, not_not] at hok
    obtain ⟨n, i₀, i, hpc, hi, hlt, hk, q, hq⟩ := hok
    simp only [step] at hs
    split at hs
    · next hp =>
      rw [hpc] at hs
      cases Option.some.inj hs
      have hsec := h.held p hp
      simp only [InSection, hpc] at hsec
      obtain ⟨-, hcount, -, -⟩ := hsec
      have hfin : writeIter p ch n i₀ i s = finish p (-1) s := by
        simp [writeIter, hi, hk]
      rw [hfin]
      intro hn
      have := ((hn rfl q).1 (sleepsOn_finish.mpr hq)).1
      rw [finish_pipe, empty_iff_count] at this
      omega
    · cases hs
  | _ => exact (hok True.intro).elim

/-- Along a run from a fresh pipe no process is ever stranded exactly when no iteration of
`pipewrite` finds its caller killed after storing a byte while a reader sleeps. -/
theorem noStranded_iff_wakesReaders {s t : State P} {as : List (Act P)} (h : Init s)
    (hrun : run step s as = some t) :
    Always step NoStranded s as ↔ Along step WakesReaders s as :=
  always_iff_along (fun _ hi ↦ hi.free) (fun _ _ _ hi hok hs ↦ inv_step hi hok hs)
    (fun _ _ _ hi hok hs ↦ stranded_step hi hok hs) (inv_init h) hrun

end Steps

/-! ### A killed writer strands a reader -/

/-- The reader sleeps in `piperead`; the writer stores one of two bytes and is then killed. -/
def killedWriter : List (Act (Fin 2)) :=
  [.sched reader, .piperead reader 1, .acquire reader, .readTest reader, .sched writer,
    .pipewrite writer 2, .acquire writer, .writeIter writer (some 65), .kill writer,
    .writeIter writer (some 66)]

/-- Not every interleaving keeps the sleepers' condition. -/
theorem stranded_reader :
    ¬ ∀ (s t : State (Fin 2)) (as : List (Act (Fin 2))), Init s → run step s as = some t →
      NoStranded t := by
  intro h
  have hwait := (h twoProcs _ killedWriter init_twoProcs rfl rfl 0).1 (by decide)
  exact absurd hwait.1 (by decide)

/-- Up to the kill the run meets the condition and strands nobody; the whole run misses it. -/
theorem noStranded_iff_wakesReaders_killedWriter :
    Always step NoStranded twoProcs (killedWriter.take 7) ∧
      ¬ Along step WakesReaders twoProcs killedWriter := by
  constructor
  · apply (noStranded_iff_wakesReaders init_twoProcs rfl).mpr
    simp [killedWriter, Along, WakesReaders]
  · intro h
    have hlast := ((noStranded_iff_wakesReaders init_twoProcs rfl).mpr h).last rfl
    exact absurd ((hlast rfl 0).1 (by decide)).1 (by decide)

end Xv6.Pipe
