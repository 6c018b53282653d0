import Xv6.Smp.Invariant

/-!
# Every step keeps the invariant

One lemma for each kind of instruction: those that only touch the CPU, those that touch a
lock, those that touch a slot, and the context switches. The rule of the instruction gives
what it needs and what is left to prove of the rest of the code.
-/

namespace Xv6.Smp

open State

variable {L H : Type} [DecidableEq L] {s : State L H} {c : Hart} {k : Code L H}

/-! ### Instructions of a CPU -/

omit [DecidableEq L] in
theorem setCode_setCpu_self (k : Code L H) :
    (s.setCode c k).setCpu c (s.cpu c) = s.setCode c k := by
  have hcpu : Function.update (s.setCode c k).cpu c (s.cpu c) = (s.setCode c k).cpu := by
    rw [setCode_cpu, Function.update_eq_self]
  rw [State.setCpu, hcpu]

/-- A lock changes, and the CPU that runs the thread. -/
theorem beside_of_setCpu {v : Cpu L} {lk : Lock L} {l : Spinlock}
    (hthread : v.thread = (s.cpu c).thread)
    (hproc : ∀ p, (s.cpu c).thread = some p → v.proc = (s.cpu c).proc)
    (hnext : v.next = (s.cpu c).next) :
    Beside c s (((s.setCode c k).setLock lk l).setCpu c v) := by
  have hself : (((s.setCode c k).setLock lk l).setCpu c v).cpu c = v := Function.update_self _ _ _
  refine ⟨?_, ?_, ?_, ?_, fun p ↦ setCode_kern k, fun c' ↦ setCode_sched k, ?_, ?_⟩
  · intro c' hc
    change Function.update (s.setCode c k).cpu c v c' = s.cpu c'
    rw [Function.update_of_ne hc, setCode_cpu]
  · rw [hself, hthread]
  · intro p hp
    rw [hself, hproc p hp]
  · rw [hself, hnext]
  · intro p _
    exact congrFun (setCode_want k) p
  · intro p _
    exact congrFun (setCode_proc k) p

theorem setLock_self (s : State L H) (lk : Lock L) : s.setLock lk (s.lock lk) = s := by
  rw [State.setLock, Function.update_eq_self]

omit [DecidableEq L] in
/-- Locks are as before if no CPU took or released one. -/
theorem LocksOk.congr {t : State L H} (h : LocksOk s) (hlock : t.lock = s.lock)
    (hok : ∀ c, (t.cpu c).Ok) (hheld : ∀ c, (t.cpu c).held = (s.cpu c).held)
    (hpending : ∀ c, (t.cpu c).pending = (s.cpu c).pending) : LocksOk t := by
  refine ⟨hok, ?_, ?_, ?_⟩
  · intro c c' lk
    rw [hheld, hheld]
    exact h.excl c c' lk
  · intro lk
    simp only [hlock, hheld]
    exact h.locked lk
  · intro lk c
    rw [hlock, hheld, hpending]
    exact h.owner lk c

omit [DecidableEq L] in
theorem update_ok {v : Cpu L} (h : LocksOk s) (hok : v.Ok) (c' : Hart) :
    (Function.update s.cpu c v c').Ok := by
  by_cases hc : c' = c
  · subst hc
    rw [Function.update_self]
    exact hok
  · rw [Function.update_of_ne hc]
    exact h.cpus c'

omit [DecidableEq L] in
/-- One CPU changes, but not what it holds. -/
theorem LocksOk.setCpu {t : State L H} (h : LocksOk s) {v : Cpu L} (hlock : t.lock = s.lock)
    (hcpu : t.cpu = Function.update s.cpu c v) (hok : v.Ok) (hheld : v.held = (s.cpu c).held)
    (hpending : v.pending = (s.cpu c).pending) : LocksOk t := by
  have hsame (c' : Hart) : (Function.update s.cpu c v c').held = (s.cpu c').held ∧
      (Function.update s.cpu c v c').pending = (s.cpu c').pending := by
    by_cases hc : c' = c
    · subst hc
      rw [Function.update_self]
      exact ⟨hheld, hpending⟩
    · rw [Function.update_of_ne hc]
      exact ⟨rfl, rfl⟩
  apply h.congr hlock
  · rw [hcpu]
    exact update_ok h hok
  · rw [hcpu]
    exact fun c' ↦ (hsame c').1
  · rw [hcpu]
    exact fun c' ↦ (hsame c').2

/-- The thread goes on, on a CPU whose nesting or interrupts changed. -/
theorem Inv.advance (h : Inv s) {v : Cpu L} {me : Own H} (hthread : v.thread = (s.cpu c).thread)
    (hproc : ∀ p, (s.cpu c).thread = some p → v.proc = (s.cpu c).proc)
    (hnext : v.next = (s.cpu c).next) (hheld : v.held = (s.cpu c).held)
    (hpending : v.pending = (s.cpu c).pending) (hok : v.Ok) (hme : s.Knows c me)
    (hvalid : Valid (s.wants c) v me k) : Inv ((s.setCode c k).setCpu c v) := by
  obtain ⟨lk⟩ : Nonempty (Lock L) := ⟨.proc 0⟩
  have hbeside : Beside c s (((s.setCode c k).setLock lk (s.lock lk)).setCpu c v) :=
    beside_of_setCpu hthread hproc hnext
  have hlock : (s.setCode c k).setLock lk (s.lock lk) = s.setCode c k := by
    rw [← setCode_lock k, setLock_self]
  rw [hlock] at hbeside
  have hself : ((s.setCode c k).setCpu c v).cpu c = v := Function.update_self _ _ _
  have hcpu : ((s.setCode c k).setCpu c v).cpu = Function.update s.cpu c v := by
    rw [State.setCpu, setCode_cpu]
  refine ⟨?_, ?_, (setCode_panicked k).trans h.calm⟩
  · have hl : ((s.setCode c k).setCpu c v).lock = s.lock := setCode_lock k
    exact h.toLocksOk.setCpu hl hcpu hok hheld hpending
  · apply h.toThreadsOk.beside hbeside
    · intro q hq
      rw [hself, hheld]
      exact (h.next c q hq).2.2.2
    · refine ⟨me, ⟨?_, ?_⟩, ?_⟩
      · intro p hp
        rw [hself, hthread] at hp
        change me.Of ((s.setCode c k).proc p)
        rw [setCode_proc]
        exact hme.own p hp
      · rw [hself, hthread, hheld]
        exact hme.awake
      · have hcode : ((s.setCode c k).setCpu c v).code c = k := by
          have hk := setCode_code (s := s) (c := c) k
          rw [State.code, setCode_cpu] at hk
          rw [State.code, hself, hthread]
          exact hk
        have hwants : ((s.setCode c k).setCpu c v).wants c = s.wants c := by
          rw [State.wants, State.wants, hself, hthread]
          exact congrArg _ (setCode_want k)
        rw [hcode, hwants, hself]
        exact hvalid

/-- The thread goes on with other code. -/
theorem Inv.goes (h : Inv s) {me : Own H} (hme : s.Knows c me)
    (hvalid : Valid (s.wants c) (s.cpu c) me k) : Inv (s.setCode c k) := by
  have := h.advance rfl (fun _ _ ↦ rfl) rfl rfl rfl (h.cpus c) hme hvalid
  rwa [setCode_setCpu_self] at this

/-- The process asks for interrupts, or not. -/
theorem Inv.setWant (h : Inv s) {p : Slot} {me : Own H} {want : Bool}
    (hthread : (s.cpu c).thread = some p) (hme : s.Knows c me)
    (hvalid : Valid want (s.cpu c) me k) :
    Inv { s.setCode c k with want := Function.update s.want p want } := by
  have hcpu : (s.setCode c k).cpu = s.cpu := setCode_cpu k
  refine ⟨?_, ?_, (setCode_panicked k).trans h.calm⟩
  · refine h.toLocksOk.congr (t := { s.setCode c k with want := _ }) (setCode_lock k) ?_ ?_ ?_
    · exact fun c' ↦ congrFun hcpu c' ▸ h.cpus c'
    · exact fun c' ↦ congrArg Cpu.held (congrFun hcpu c')
    · exact fun c' ↦ congrArg Cpu.pending (congrFun hcpu c')
  · have hbeside : Beside c s { s.setCode c k with want := Function.update s.want p want } := by
      refine ⟨fun c' _ ↦ congrFun hcpu c', ?_, ?_, ?_, fun q ↦ setCode_kern k,
        fun c' ↦ setCode_sched k, ?_, fun q _ ↦ congrFun (setCode_proc k) q⟩
      · exact congrArg Cpu.thread (congrFun hcpu c)
      · exact fun q _ ↦ congrArg Cpu.proc (congrFun hcpu c)
      · exact congrArg Cpu.next (congrFun hcpu c)
      · intro q hq
        have hne : q ≠ p := fun he ↦ hq (he ▸ hthread)
        exact Function.update_of_ne hne _ _
    apply h.toThreadsOk.beside hbeside
    · intro q hq
      exact congrArg Cpu.held (congrFun hcpu c) ▸ (h.next c q hq).2.2.2
    · refine ⟨me, ⟨?_, ?_⟩, ?_⟩
      · intro q hq
        have hq' := (congrArg Cpu.thread (congrFun hcpu c)).symm.trans hq
        exact (congrFun (setCode_proc (s := s) (c := c) k) q) ▸ hme.own q hq'
      · intro hno
        exact hme.awake (hcpu ▸ hno)
      · have hcode : (s.setCode c k).code c = k := setCode_code k
        change Valid (((s.setCode c k).cpu c).thread.elim _ (Function.update s.want p want))
          ((s.setCode c k).cpu c) me ((s.setCode c k).code c)
        rw [hcode, hcpu, hthread]
        change Valid (Function.update s.want p want p) _ _ _
        rw [Function.update_self]
        exact hvalid

/-! ### Locks -/

/-- One lock changes hands between nobody and the CPU. -/
theorem LocksOk.update (h : LocksOk s) {lk : Lock L} {l : Spinlock} {v : Cpu L} (hok : v.Ok)
    (hpending : ∀ lk', lk' ≠ lk → (s.cpu c).pending ≠ some lk')
    (hpending' : ∀ lk', lk' ≠ lk → v.pending ≠ some lk')
    (hheld : ∀ lk', lk' ≠ lk → (lk' ∈ v.held ↔ lk' ∈ (s.cpu c).held))
    (hothers : ∀ c', c' ≠ c → lk ∉ (s.cpu c').held) (hlocked : l.locked = true ↔ lk ∈ v.held)
    (howner : ∀ c', l.cpu = some c' ↔ c' = c ∧ lk ∈ v.held ∧ v.pending ≠ some lk) :
    LocksOk (((s.setCode c k).setLock lk l).setCpu c v) := by
  have hcpu : (((s.setCode c k).setLock lk l).setCpu c v).cpu = Function.update s.cpu c v := by
    rw [State.setCpu, State.setLock, setCode_cpu]
  have hlock : (((s.setCode c k).setLock lk l).setCpu c v).lock = Function.update s.lock lk l := by
    rw [State.setCpu, State.setLock, setCode_lock]
  have hmem {c' : Hart} {lk' : Lock L} (hne : lk' ≠ lk) :
      lk' ∈ (Function.update s.cpu c v c').held ↔ lk' ∈ (s.cpu c').held := by
    by_cases hc : c' = c
    · subst hc
      rw [Function.update_self]
      exact hheld lk' hne
    · rw [Function.update_of_ne hc]
  have hlk {c' : Hart} : lk ∈ (Function.update s.cpu c v c').held ↔ c' = c ∧ lk ∈ v.held := by
    by_cases hc : c' = c
    · subst hc
      simp
    · rw [Function.update_of_ne hc]
      simp [hc, hothers c' hc]
  constructor
  · rw [hcpu]
    exact update_ok h hok
  · rw [hcpu]
    intro c₁ c₂ lk' h₁ h₂
    by_cases hne : lk' = lk
    · subst hne
      exact (hlk.mp h₁).1.trans (hlk.mp h₂).1.symm
    · exact h.excl c₁ c₂ lk' ((hmem hne).mp h₁) ((hmem hne).mp h₂)
  · rw [hcpu, hlock]
    intro lk'
    by_cases hne : lk' = lk
    · subst hne
      rw [Function.update_self]
      simp only [hlk]
      constructor
      · exact fun hl ↦ ⟨c, rfl, hlocked.mp hl⟩
      · rintro ⟨c', -, hl⟩
        exact hlocked.mpr hl
    · rw [Function.update_of_ne hne]
      simp only [hmem hne]
      exact h.locked lk'
  · rw [hcpu, hlock]
    intro lk' c'
    by_cases hne : lk' = lk
    · subst hne
      rw [Function.update_self, howner]
      by_cases hc : c' = c
      · subst hc
        rw [Function.update_self]
        simp
      · rw [Function.update_of_ne hc]
        simp [hc, hothers c' hc]
    · rw [Function.update_of_ne hne, hmem hne, h.owner]
      by_cases hc : c' = c
      · subst hc
        rw [Function.update_self]
        simp [hpending lk' hne, hpending' lk' hne]
      · rw [Function.update_of_ne hc]

/-- A step on a lock, for a CPU whose held locks stay right for its thread. -/
theorem Inv.lockStep (h : Inv s) {lk : Lock L} {l : Spinlock} {v : Cpu L} {me : Own H}
    (hlocks : LocksOk (((s.setCode c k).setLock lk l).setCpu c v))
    (hthread : v.thread = (s.cpu c).thread) (hproc : v.proc = (s.cpu c).proc)
    (hnext : v.next = (s.cpu c).next) (hkeep : ∀ q, v.next = some q → .proc q ∈ v.held)
    (hme : s.Knows c me)
    (hawake : ∀ p, v.thread = some p → .proc p ∉ v.held → .proc p ∈ (s.cpu c).held → me = .awake)
    (hvalid : Valid (s.wants c) v me k) :
    Inv (((s.setCode c k).setLock lk l).setCpu c v) := by
  have hself : (((s.setCode c k).setLock lk l).setCpu c v).cpu c = v := Function.update_self _ _ _
  refine ⟨hlocks, ?_, (setCode_panicked k).trans h.calm⟩
  apply h.toThreadsOk.beside (beside_of_setCpu hthread (fun _ _ ↦ hproc) hnext)
  · intro q hq
    rw [hself]
    exact hkeep q (hnext.trans hq)
  · refine ⟨me, ⟨?_, ?_⟩, ?_⟩
    · intro p hp
      rw [hself, hthread] at hp
      change me.Of ((s.setCode c k).proc p)
      rw [setCode_proc]
      exact hme.own p hp
    · rw [hself]
      intro hno
      apply Classical.byContradiction
      intro hne
      apply hne
      apply hme.awake
      intro p hp hmem
      exact hne (hawake p (hthread.trans hp) (hno p (hthread.trans hp)) hmem)
    · have hcode : (((s.setCode c k).setLock lk l).setCpu c v).code c = k := by
        have hk := setCode_code (s := s) (c := c) k
        rw [State.code, setCode_cpu] at hk
        rw [State.code, hself, hthread]
        exact hk
      have hwants : (((s.setCode c k).setLock lk l).setCpu c v).wants c = s.wants c := by
        rw [State.wants, State.wants, hself, hthread]
        exact congrArg _ (setCode_want k)
      rw [hcode, hwants, hself]
      exact hvalid

omit [DecidableEq L] in
/-- Nobody else holds a lock that this CPU holds. -/
theorem LocksOk.not_others (h : LocksOk s) {lk : Lock L} (hlk : lk ∈ (s.cpu c).held) {c' : Hart}
    (hc : c' ≠ c) : lk ∉ (s.cpu c').held :=
  fun hmem ↦ hc (h.excl c' c lk hmem hlk)

omit [DecidableEq L] in
theorem LocksOk.holding (h : LocksOk s) (lk : Lock L) :
    s.holding c lk = true ↔ lk ∈ (s.cpu c).held ∧ (s.cpu c).pending ≠ some lk := by
  rw [State.holding, Bool.and_eq_true, decide_eq_true_eq, h.owner, h.locked]
  exact ⟨fun hh ↦ hh.2, fun hh ↦ ⟨⟨c, hh.1⟩, hh⟩⟩

section
variable {lk : Lock L} {me : Own H} (h : Inv s) (hme : s.Knows c me)
include h hme

theorem inv_testAndSet (hfree : (s.lock lk).locked = false)
    (hv : Valid (s.wants c) (s.cpu c) me (.testAndSet lk :: k)) :
    Inv (((s.setCode c k).setLock lk { s.lock lk with locked := true }).setCpu c
      { s.cpu c with held := lk :: (s.cpu c).held, pending := some lk }) := by
  have hnone (c' : Hart) : lk ∉ (s.cpu c').held := by
    intro hmem
    rw [(h.locked lk).mpr ⟨c', hmem⟩] at hfree
    cases hfree
  cases hv with
  | testAndSet hsie hpending hlk hdepth hv =>
    refine h.lockStep ?_ rfl rfl rfl ?_ hme ?_ hv
    · refine h.toLocksOk.update ?_ ?_ ?_ ?_ (fun c' _ ↦ hnone c') ?_ ?_
      · refine ⟨List.nodup_cons.mpr ⟨hlk, (h.cpus c).nodup⟩, hdepth, (h.cpus c).off, ?_,
          (h.cpus c).idle⟩
        intro lk' he
        cases he
        exact List.mem_cons_self
      · intro lk' _
        rw [hpending]
        exact (Option.some_ne_none lk').symm
      · intro lk' hne he
        cases he
        exact hne rfl
      · intro lk' hne
        simp [hne]
      · simp
      · intro c'
        simp only [h.owner lk c', hnone c', List.mem_cons_self, ne_eq, not_true_eq_false,
          and_false, false_and]
    · intro q hq
      exact List.mem_cons_of_mem _ (h.next c q hq).2.2.2
    · intro p _ hno hmem
      exact (hno (List.mem_cons_of_mem _ hmem)).elim

theorem inv_setCpu (hv : Valid (s.wants c) (s.cpu c) me (.setCpu lk :: k)) :
    Inv (((s.setCode c k).setLock lk { s.lock lk with cpu := some c }).setCpu c
      { s.cpu c with pending := none }) := by
  cases hv with
  | setCpu hsie hpending hv =>
    have hlk := (h.cpus c).pending lk hpending
    refine h.lockStep ?_ rfl rfl rfl (fun q hq ↦ (h.next c q hq).2.2.2) hme ?_ hv
    · refine h.toLocksOk.update ?_ ?_ ?_ (fun _ _ ↦ Iff.rfl) (fun _ ↦ h.not_others hlk) ?_ ?_
      · refine ⟨(h.cpus c).nodup, (h.cpus c).depth, (h.cpus c).off, ?_, (h.cpus c).idle⟩
        intro lk' he
        cases he
      · intro lk' hne he
        rw [hpending] at he
        cases he
        exact hne rfl
      · intro lk' _ he
        cases he
      · exact ⟨fun _ ↦ hlk, fun _ ↦ (h.locked lk).mpr ⟨c, hlk⟩⟩
      · intro c'
        simp [hlk, eq_comm]
    · intro p _ hno hmem
      exact (hno hmem).elim

theorem inv_clearCpu (hv : Valid (s.wants c) (s.cpu c) me (.clearCpu lk :: k)) :
    Inv (((s.setCode c k).setLock lk { s.lock lk with cpu := none }).setCpu c
      { s.cpu c with pending := some lk }) := by
  cases hv with
  | clearCpu hsie hpending hlk hv =>
    refine h.lockStep ?_ rfl rfl rfl (fun q hq ↦ (h.next c q hq).2.2.2) hme ?_ hv
    · refine h.toLocksOk.update ?_ ?_ ?_ (fun _ _ ↦ Iff.rfl) (fun _ ↦ h.not_others hlk) ?_ ?_
      · refine ⟨(h.cpus c).nodup, (h.cpus c).depth, (h.cpus c).off, ?_, (h.cpus c).idle⟩
        intro lk' he
        cases he
        exact hlk
      · intro lk' _
        rw [hpending]
        exact (Option.some_ne_none lk').symm
      · intro lk' hne he
        cases he
        exact hne rfl
      · exact ⟨fun _ ↦ hlk, fun _ ↦ (h.locked lk).mpr ⟨c, hlk⟩⟩
      · intro c'
        simp
    · intro p _ hno hmem
      exact (hno hmem).elim

theorem inv_lockRelease (hv : Valid (s.wants c) (s.cpu c) me (.lockRelease lk :: k)) :
    Inv (((s.setCode c k).setLock lk { s.lock lk with locked := false }).setCpu c
      { s.cpu c with held := (s.cpu c).held.erase lk, pending := none }) := by
  cases hv with
  | lockRelease hsie hpending hnext hown hv =>
    have hlk := (h.cpus c).pending lk hpending
    have hnot : lk ∉ (s.cpu c).held.erase lk := (h.cpus c).nodup.not_mem_erase
    refine h.lockStep ?_ rfl rfl rfl ?_ hme ?_ hv
    · refine h.toLocksOk.update ?_ ?_ ?_ ?_ (fun _ ↦ h.not_others hlk) ?_ ?_
      · refine ⟨(h.cpus c).nodup.erase lk, ?_, (h.cpus c).off, ?_, (h.cpus c).idle⟩
        · exact Nat.le_trans List.length_erase_le (h.cpus c).depth
        · intro lk' he
          cases he
      · intro lk' hne he
        rw [hpending] at he
        cases he
        exact hne rfl
      · intro lk' _ he
        cases he
      · intro lk' hne
        exact List.mem_erase_of_ne hne
      · simp [hnot]
      · intro c'
        simp only [h.owner lk c', hnot, false_and, and_false, iff_false, not_and, ne_eq,
          Decidable.not_not]
        intro hmem
        rw [h.excl c' c lk hmem hlk]
        exact hpending
    · intro q hq
      rw [hnext] at hq
      cases hq
    · intro p hp hno hmem
      apply hown p hp
      apply Classical.byContradiction
      intro hne
      exact hno ((List.mem_erase_of_ne (fun he ↦ hne he.symm)).mpr hmem)

end

/-! ### Slots -/

/-- A store of a process to its own slot, whose lock it holds. -/
theorem Inv.setOwn (h : Inv s) {p : Slot} {r : Proc H} {me : Own H}
    (hthread : (s.cpu c).thread = some p) (hlk : .proc p ∈ (s.cpu c).held) (hme : me.Of r)
    (hvalid : Valid (s.wants c) (s.cpu c) me k) : Inv ((s.setCode c k).setProc p r) := by
  have hcpu : ((s.setCode c k).setProc p r).cpu = s.cpu := setCode_cpu k
  have hproc : ((s.setCode c k).setProc p r).proc p = r := Function.update_self _ _ _
  refine ⟨?_, ?_, (setCode_panicked k).trans h.calm⟩
  · have hlock : ((s.setCode c k).setProc p r).lock = s.lock := setCode_lock k
    apply h.toLocksOk.congr hlock
    · rw [hcpu]
      exact h.cpus
    · exact fun c' ↦ by rw [hcpu]
    · exact fun c' ↦ by rw [hcpu]
  · have hbeside : Beside c s ((s.setCode c k).setProc p r) := by
      refine ⟨?_, ?_, ?_, ?_, fun q ↦ setCode_kern k, fun c' ↦ setCode_sched k, ?_, ?_⟩
      · exact fun c' _ ↦ congrFun hcpu c'
      · rw [hcpu]
      · exact fun q _ ↦ by rw [hcpu]
      · rw [hcpu]
      · exact fun q _ ↦ congrFun (setCode_want k) q
      · intro q hq
        have hne : q ≠ p := fun he ↦ hq (he ▸ hthread)
        exact (Function.update_of_ne hne _ _).trans (congrFun (setCode_proc k) q)
    apply h.toThreadsOk.beside hbeside
    · rw [hcpu]
      exact fun q hq ↦ (h.next c q hq).2.2.2
    · refine ⟨me, ⟨?_, ?_⟩, ?_⟩
      · intro q hq
        rw [hcpu, hthread] at hq
        cases hq
        rw [hproc]
        exact hme
      · intro hno
        rw [hcpu] at hno
        exact (hno p hthread hlk).elim
      · have hcode : ((s.setCode c k).setProc p r).code c = k := setCode_code k
        have hwants : ((s.setCode c k).setProc p r).wants c = s.wants c := by
          rw [State.wants, State.wants, hcpu]
          exact congrArg _ (setCode_want k)
        rw [hcode, hwants, hcpu]
        exact hvalid

/-- A process that a CPU runs is RUNNING, unless that CPU holds the lock of its slot. -/
theorem Inv.state_of_runs (h : Inv s) {p : Slot} (hthread : (s.cpu c).thread = some p)
    (hlk : .proc p ∉ (s.cpu c).held) :
    (s.proc p).state = .RUNNING ∧ (s.proc p).dozing = none := by
  obtain ⟨me, hknows, -⟩ := h.runs c
  have hawake : me = .awake := by
    apply hknows.awake
    intro q hq
    rw [hthread] at hq
    cases hq
    exact hlk
  have hof := hknows.own p hthread
  rw [hawake] at hof
  exact ⟨hof.state.symm, hof.dozing.symm⟩

/-- No CPU runs a slot of which another thread holds the lock, unless it is RUNNING. -/
theorem Inv.off_of_held (h : Inv s) {q : Slot} (hlk : .proc q ∈ (s.cpu c).held)
    (hother : (s.cpu c).thread ≠ some q) (hstate : (s.proc q).state ≠ .RUNNING) : s.Off q := by
  intro c' hc
  have hne : c' ≠ c := by
    rintro rfl
    exact hother hc
  exact hstate (h.state_of_runs hc (h.not_others hlk hne)).1

/-- The thread that holds the lock of another slot stores to it. -/
theorem Inv.setOther (h : Inv s) {q : Slot} {r : Proc H} {kq : Code L H}
    (hlk : .proc q ∈ (s.cpu c).held) (hother : (s.cpu c).thread ≠ some q)
    (hidle : (s.proc q).state ≠ .RUNNING) (hrun : r.state ≠ .RUNNING) (hrests : r.Rests)
    (hparked : r.HasContext → ∀ v : Cpu L, v.thread = some q → v.Switched q →
      Valid (s.want q) v .awake kq) :
    Inv { s.setProc q r with kern := Function.update s.kern q kq } := by
  have hoff := h.off_of_held hlk hother hidle
  exact ⟨⟨h.cpus, h.excl, h.locked, h.owner⟩,
    h.toThreadsOk.setProc hoff hidle hrun hrests hparked, h.calm⟩

omit [DecidableEq L] in
theorem setProc_kern_self (s : State L H) (q : Slot) (r : Proc H) :
    { s.setProc q r with kern := Function.update s.kern q (s.kern q) } = s.setProc q r := by
  rw [Function.update_eq_self]
  rfl

/-- A store that leaves the context of the slot. -/
theorem Inv.store (h : Inv s) {q : Slot} {r : Proc H} (hlk : .proc q ∈ (s.cpu c).held)
    (hother : (s.cpu c).thread ≠ some q) (hidle : (s.proc q).state ≠ .RUNNING)
    (hrun : r.state ≠ .RUNNING) (hrests : r.Rests)
    (hctx : r.HasContext → (s.proc q).HasContext) : Inv (s.setProc q r) := by
  have hoff := h.off_of_held hlk hother hidle
  have := h.setOther hlk hother hidle hrun hrests (fun hr ↦ h.parked q hoff (hctx hr))
  rwa [setProc_kern_self] at this

/-- A sleeping process is woken. -/
theorem Inv.rouse (h : Inv s) {q : Slot} (hlk : .proc q ∈ (s.cpu c).held)
    (hother : (s.cpu c).thread ≠ some q) (hsleeping : (s.proc q).state = .SLEEPING) :
    Inv (s.rouse q) := by
  apply h.store hlk hother
  · rw [hsleeping]
    exact fun he ↦ by cases he
  · exact fun he ↦ by cases he
  · exact ⟨(fun he ↦ by cases he), fun _ ↦ rfl⟩
  · intro _
    rw [Proc.HasContext, hsleeping]
    exact ⟨(fun he ↦ by cases he), (fun he ↦ by cases he)⟩

/-! ### Context switches -/

/-- `swtch` to the scheduler. -/
theorem inv_swtch (h : Inv s) {me : Own H} (hme : s.Knows c me)
    (hv : Valid (s.wants c) (s.cpu c) me (.swtch :: k)) :
    Inv ((s.setCode c k).setCpu c { s.cpu c with thread := none }) := by
  cases hv with
  | @swtch _ _ _ p hthread hsw hpark hv =>
    have hof := hme.own p hthread
    have hwants : s.wants c = s.want p := by
      rw [State.wants, hthread]
      rfl
    have hcode : s.setCode c k = { s with kern := Function.update s.kern p k } := by
      unfold State.setCode
      rw [hthread]
    rw [hcode]
    have hself : Function.update s.cpu c { s.cpu c with thread := none } c =
        { s.cpu c with thread := none } := Function.update_self _ _ _
    have hother {c' : Hart} (hc : c' ≠ c) :
        Function.update s.cpu c { s.cpu c with thread := none } c' = s.cpu c' :=
      Function.update_of_ne hc _ _
    -- the other threads that run are on other CPUs
    have hruns {c' : Hart} {q : Slot} (hq : (Function.update s.cpu c
        { s.cpu c with thread := none } c').thread = some q) :
        c' ≠ c ∧ (s.cpu c').thread = some q := by
      by_cases hc : c' = c
      · subst hc
        rw [hself] at hq
        cases hq
      · rw [hother hc] at hq
        exact ⟨hc, hq⟩
    have hoff {q : Slot} (hq : q ≠ p) (hoff : (State.setCpu c { s.cpu c with thread := none }
        { s with kern := Function.update s.kern p k }).Off q) : s.Off q := by
      intro c' hc'
      by_cases hc : c' = c
      · subst hc
        rw [hthread] at hc'
        exact hq (Option.some.inj hc').symm
      · exact hoff c' ((congrArg Cpu.thread (hother hc)).trans hc')
    have hstate : (s.proc p).state ≠ .RUNNING := by
      rw [← hof.state]
      rcases hpark with ⟨hz, -⟩ | ⟨hr, -⟩ | ⟨hsl, -⟩ <;> simp [*]
    refine ⟨?_, ⟨?_, ?_, ?_, ?_, ?_, ?_, ?_, ?_⟩, h.calm⟩
    · refine h.toLocksOk.setCpu (v := { s.cpu c with thread := none }) rfl rfl ?_ rfl rfl
      refine ⟨(h.cpus c).nodup, (h.cpus c).depth, (h.cpus c).off, (h.cpus c).pending, ?_⟩
      intro hz
      rw [hsw.noff] at hz
      cases hz
    · intro c'
      by_cases hc : c' = c
      · subst hc
        refine ⟨.awake, ⟨?_, fun _ ↦ rfl⟩, ?_⟩
        · intro q hq
          exact ((hruns hq).1 rfl).elim
        · have hvalid := h.saved c' p hthread { s.cpu c' with thread := none } rfl
            ⟨hsw.noff, hsw.sie, hsw.held, hsw.pending, hsw.proc, hsw.next⟩
          change Valid ((Function.update s.cpu c' _ c').thread.elim _ _)
            (Function.update s.cpu c' _ c') _ ((Function.update s.cpu c' _ c').thread.elim _ _)
          rw [hself]
          exact hvalid
      · apply h.toThreadsOk.runs_other (hother hc)
        · intro q hq
          have hne : q ≠ p := fun he ↦ hc (h.one c' c p (he ▸ hq) hthread)
          exact ⟨Function.update_of_ne hne _ _, rfl, rfl⟩
        · exact fun _ ↦ rfl
    · intro c₁ c₂ q h₁ h₂
      exact h.one c₁ c₂ q (hruns h₁).2 (hruns h₂).2
    · intro c' q hq
      exact (congrArg Cpu.proc (hother (hruns hq).1)).trans (h.own c' q (hruns hq).2)
    · intro c' q hq
      exact h.saved c' q (hruns hq).2
    · intro q hq hctx
      by_cases hqp : q = p
      · subst hqp
        have hparked : me.Parked := by
          rcases hpark with ⟨hz, -⟩ | hp
          · exact (hctx.2 (hof.state.symm.trans hz)).elim
          · exact hp
        intro v hvt hvs
        change Valid (s.want q) v _ (Function.update s.kern q k q)
        rw [Function.update_self, ← hwants]
        exact hv hparked v hvt hvs
      · change ∀ v : Cpu L, _ → _ → Valid (s.want q) v _ (Function.update s.kern p k q)
        rw [Function.update_of_ne hqp]
        exact h.parked q (hoff hqp hq) hctx
    · intro q hq
      by_cases hqp : q = p
      · subst hqp
        change (s.proc q).Rests
        rw [Proc.Rests, ← hof.state, ← hof.dozing]
        rcases hpark with ⟨hz, hd⟩ | ⟨hr, hd⟩ | ⟨hsl, hd, hch⟩
        · exact ⟨(fun he ↦ by rw [hz] at he; cases he), fun _ ↦ hd⟩
        · exact ⟨(fun he ↦ by rw [hr] at he; cases he), fun _ ↦ hd⟩
        · refine ⟨fun _ ↦ ⟨hd, ?_⟩, fun hne ↦ (hne hsl).elim⟩
          rw [← hch, hof.chan (by rw [hch]; exact hd)]
      · exact h.rests q (hoff hqp hq)
    · intro c' q hq
      have hq' : (s.cpu c').next = some q := by
        by_cases hc : c' = c
        · subst hc
          exact (congrArg Cpu.next hself).symm.trans hq
        · exact (congrArg Cpu.next (hother hc)).symm.trans hq
      obtain ⟨hnone, hoff', hst, hmem⟩ := h.next c' q hq'
      have hc : c' ≠ c := by
        rintro rfl
        rw [hthread] at hnone
        cases hnone
      refine ⟨(congrArg Cpu.thread (hother hc)).trans hnone, ?_, hst, ?_⟩
      · exact fun c'' hc'' ↦ hoff' c'' (hruns hc'').2
      · exact (congrArg Cpu.held (hother hc)) ▸ hmem
    · intro q hq hrun
      have hqp : q ≠ p := by
        rintro rfl
        exact hstate hrun
      obtain ⟨c', hc'⟩ := h.running q (hoff hqp hq) hrun
      have hc : c' ≠ c := by
        rintro rfl
        rw [hsw.next] at hc'
        cases hc'
      exact ⟨c', (congrArg Cpu.next (hother hc)).trans hc'⟩

/-- `swtch` to a process. -/
theorem inv_swtchTo (h : Inv s) {q : Slot} {me : Own H}
    (hv : Valid (s.wants c) (s.cpu c) me (.swtchTo q :: k)) (hme : s.Knows c me) :
    Inv ((s.setCode c k).setCpu c { s.cpu c with thread := some q, next := none }) := by
  cases hv with
  | swtchTo hthread hnext hsw hback =>
    obtain ⟨-, hoffq, hrunq, hmemq⟩ := h.next c q hnext
    have hawake : me = .awake := by
      apply hme.awake
      intro p hp
      rw [hthread] at hp
      cases hp
    subst hawake
    have hwants : s.wants c = false := by
      rw [State.wants, hthread]
      rfl
    have hcode : s.setCode c k = { s with sched := Function.update s.sched c k } := by
      unfold State.setCode
      rw [hthread]
    rw [hcode]
    have hself : Function.update s.cpu c { s.cpu c with thread := some q, next := none } c =
        { s.cpu c with thread := some q, next := none } := Function.update_self _ _ _
    have hother {c' : Hart} (hc : c' ≠ c) :
        Function.update s.cpu c { s.cpu c with thread := some q, next := none } c' = s.cpu c' :=
      Function.update_of_ne hc _ _
    -- a thread that runs is `q`, or it ran before, on another CPU
    have hruns {c' : Hart} {p : Slot} (hp : (Function.update s.cpu c
        { s.cpu c with thread := some q, next := none } c').thread = some p) :
        c' = c ∧ p = q ∨ c' ≠ c ∧ (s.cpu c').thread = some p := by
      by_cases hc : c' = c
      · subst hc
        rw [hself] at hp
        exact .inl ⟨rfl, (Option.some.inj hp).symm⟩
      · rw [hother hc] at hp
        exact .inr ⟨hc, hp⟩
    have hoff {p : Slot} (hp : (State.setCpu c { s.cpu c with thread := some q, next := none }
        { s with sched := Function.update s.sched c k }).Off p) : p ≠ q ∧ s.Off p := by
      have hne : p ≠ q := by
        rintro rfl
        exact hp c (congrArg Cpu.thread hself)
      refine ⟨hne, ?_⟩
      intro c' hc'
      by_cases hc : c' = c
      · subst hc
        rw [hthread] at hc'
        cases hc'
      · exact hp c' ((congrArg Cpu.thread (hother hc)).trans hc')
    have hnoff : (s.cpu c).noff = 1 := hsw.noff
    refine ⟨?_, ⟨?_, ?_, ?_, ?_, ?_, ?_, ?_, ?_⟩, h.calm⟩
    · refine h.toLocksOk.setCpu (v := { s.cpu c with thread := some q, next := none }) rfl rfl ?_
        rfl rfl
      refine ⟨(h.cpus c).nodup, (h.cpus c).depth, (h.cpus c).off, (h.cpus c).pending, ?_⟩
      intro hz
      rw [hnoff] at hz
      cases hz
    · intro c'
      by_cases hc : c' = c
      · subst hc
        refine ⟨.awake, ⟨?_, fun _ ↦ rfl⟩, ?_⟩
        · intro p hp
          rcases hruns hp with ⟨-, rfl⟩ | ⟨hc, -⟩
          · refine ⟨hrunq.symm, ((h.rests p hoffq).2 ?_).symm, fun hne ↦ (hne rfl).elim⟩
            rw [hrunq]
            exact fun he ↦ by cases he
          · exact (hc rfl).elim
        · have hctx : (s.proc q).HasContext := by
            rw [Proc.HasContext, hrunq]
            exact ⟨(fun he ↦ by cases he), (fun he ↦ by cases he)⟩
          have hvalid := h.parked q hoffq hctx { s.cpu c' with thread := some q, next := none } rfl
            ⟨hsw.noff, hsw.sie, hsw.held, hsw.pending, hsw.proc, rfl⟩
          change Valid ((Function.update s.cpu c' _ c').thread.elim _ _)
            (Function.update s.cpu c' _ c') _ ((Function.update s.cpu c' _ c').thread.elim _ _)
          rw [hself]
          exact hvalid
      · apply h.toThreadsOk.runs_other (hother hc)
        · exact fun p _ ↦ ⟨rfl, rfl, rfl⟩
        · exact fun _ ↦ Function.update_of_ne hc _ _
    · intro c₁ c₂ p h₁ h₂
      rcases hruns h₁ with ⟨hc₁, hp₁⟩ | ⟨-, ho₁⟩ <;> rcases hruns h₂ with ⟨hc₂, hp₂⟩ | ⟨-, ho₂⟩
      · exact hc₁.trans hc₂.symm
      · exact (hoffq c₂ (hp₁ ▸ ho₂)).elim
      · exact (hoffq c₁ (hp₂ ▸ ho₁)).elim
      · exact h.one c₁ c₂ p ho₁ ho₂
    · intro c' p hp
      rcases hruns hp with ⟨rfl, rfl⟩ | ⟨hc, hp⟩
      · exact (congrArg Cpu.proc hself).trans hsw.proc
      · exact (congrArg Cpu.proc (hother hc)).trans (h.own c' p hp)
    · intro c' p hp
      change ∀ v : Cpu L, _ → _ → Valid false v _ (Function.update s.sched c k c')
      rcases hruns hp with ⟨rfl, rfl⟩ | ⟨hc, hp⟩
      · rw [Function.update_self, ← hwants]
        exact hback
      · rw [Function.update_of_ne hc]
        exact h.saved c' p hp
    · intro p hp
      exact h.parked p (hoff hp).2
    · intro p hp
      exact h.rests p (hoff hp).2
    · intro c' p hp
      have hc : c' ≠ c := by
        rintro rfl
        have := (congrArg Cpu.next hself).symm.trans hp
        cases this
      obtain ⟨hnone, hoff', hst, hmem⟩ :=
        h.next c' p ((congrArg Cpu.next (hother hc)).symm.trans hp)
      refine ⟨(congrArg Cpu.thread (hother hc)).trans hnone, ?_, hst, ?_⟩
      · intro c'' hc''
        rcases hruns hc'' with ⟨-, rfl⟩ | ⟨-, hp'⟩
        · exact h.not_others hmemq hc hmem
        · exact hoff' c'' hp'
      · exact (congrArg Cpu.held (hother hc)) ▸ hmem
    · intro p hp hrun
      obtain ⟨hpq, hp⟩ := hoff hp
      obtain ⟨c', hc'⟩ := h.running p hp hrun
      have hc : c' ≠ c := by
        rintro rfl
        exact hpq (Option.some.inj (hc'.symm.trans hnext))
      exact ⟨c', (congrArg Cpu.next (hother hc)).trans hc'⟩

/-- `scheduler` has found a process. -/
theorem inv_tryRun (h : Inv s) {q : Slot} {me : Own H}
    (hv : Valid (s.wants c) (s.cpu c) me (.tryRun q :: k)) (hme : s.Knows c me)
    (hstate : (s.proc q).state = .RUNNABLE) :
    Inv (((s.setCode c (.swtchTo q :: .clearProc :: k)).setProc q
      { s.proc q with state := .RUNNING }).setCpu c
      { s.cpu c with proc := some q, next := some q }) := by
  cases hv with
  | tryRun hsie hthread hsw _ hback =>
    have hnext : (s.cpu c).next = none := hsw.next
    have hheld : (s.cpu c).held = [.proc q] := hsw.held
    have hnoff : (s.cpu c).noff = 1 := hsw.noff
    have hoffq : s.Off q := by
      apply h.off_of_held (c := c)
      · rw [hheld]
        exact List.mem_singleton_self _
      · rw [hthread]
        exact (Option.some_ne_none q).symm
      · rw [hstate]
        exact fun he ↦ by cases he
    have hawake : me = .awake := by
      apply hme.awake
      intro p hp
      rw [hthread] at hp
      cases hp
    subst hawake
    have hcode : s.setCode c (.swtchTo q :: .clearProc :: k) =
        { s with sched := Function.update s.sched c (.swtchTo q :: .clearProc :: k) } := by
      unfold State.setCode
      rw [hthread]
    rw [hcode]
    have hself : Function.update s.cpu c { s.cpu c with proc := some q, next := some q } c =
        { s.cpu c with proc := some q, next := some q } := Function.update_self _ _ _
    have hother {c' : Hart} (hc : c' ≠ c) :
        Function.update s.cpu c { s.cpu c with proc := some q, next := some q } c' = s.cpu c' :=
      Function.update_of_ne hc _ _
    have hth (c' : Hart) : (Function.update s.cpu c
        { s.cpu c with proc := some q, next := some q } c').thread = (s.cpu c').thread := by
      by_cases hc : c' = c
      · subst hc
        rw [hself]
      · rw [hother hc]
    have hslot {p : Slot} (hp : p ≠ q) : Function.update s.proc q
        { s.proc q with state := .RUNNING } p = s.proc p := Function.update_of_ne hp _ _
    have hslotq : Function.update s.proc q { s.proc q with state := .RUNNING } q =
        { s.proc q with state := .RUNNING } := Function.update_self _ _ _
    -- the other CPUs run other threads
    have hruns {c' : Hart} {p : Slot} (hp : (s.cpu c').thread = some p) : c' ≠ c ∧ p ≠ q := by
      constructor
      · rintro rfl
        rw [hthread] at hp
        cases hp
      · rintro rfl
        exact hoffq c' hp
    refine ⟨?_, ⟨?_, ?_, ?_, ?_, ?_, ?_, ?_, ?_⟩, h.calm⟩
    · refine h.toLocksOk.setCpu (v := { s.cpu c with proc := some q, next := some q }) rfl rfl ?_
        rfl rfl
      refine ⟨(h.cpus c).nodup, (h.cpus c).depth, (h.cpus c).off, (h.cpus c).pending, ?_⟩
      intro hz
      rw [hnoff] at hz
      cases hz
    · intro c'
      by_cases hc : c' = c
      · subst hc
        refine ⟨.awake, ⟨?_, fun _ ↦ rfl⟩, ?_⟩
        · intro p hp
          exact ((hruns ((hth c').symm.trans hp)).1 rfl).elim
        · have hvalid : Valid (s.wants c') { s.cpu c' with proc := some q, next := some q }
              (.awake : Own H) (.swtchTo q :: .clearProc :: k) :=
            .swtchTo hthread rfl ⟨hnoff, hsie, hheld, hsw.pending, rfl, rfl⟩ hback
          rw [State.wants, hthread] at hvalid
          change Valid ((Function.update s.cpu c' _ c').thread.elim _ _)
            (Function.update s.cpu c' _ c') _ ((Function.update s.cpu c' _ c').thread.elim
              (Function.update s.sched c' _ c') _)
          rw [hself, Function.update_self, hthread]
          exact hvalid
      · apply h.toThreadsOk.runs_other (hother hc)
        · exact fun p hp ↦ ⟨rfl, rfl, hslot (hruns hp).2⟩
        · exact fun _ ↦ Function.update_of_ne hc _ _
    · intro c₁ c₂ p h₁ h₂
      exact h.one c₁ c₂ p ((hth c₁).symm.trans h₁) ((hth c₂).symm.trans h₂)
    · intro c' p hp
      have hp' := (hth c').symm.trans hp
      exact (congrArg Cpu.proc (hother (hruns hp').1)).trans (h.own c' p hp')
    · intro c' p hp
      have hp' := (hth c').symm.trans hp
      change ∀ v : Cpu L, _ → _ → Valid false v _ (Function.update s.sched c _ c')
      rw [Function.update_of_ne (hruns hp').1]
      exact h.saved c' p hp'
    · intro p hp hctx
      have hp' : s.Off p := fun c' hc' ↦ hp c' ((hth c').trans hc')
      by_cases hpq : p = q
      · subst hpq
        apply h.parked p hp'
        rw [Proc.HasContext, hstate]
        exact ⟨(fun he ↦ by cases he), (fun he ↦ by cases he)⟩
      · apply h.parked p hp'
        rw [← hslot hpq]
        exact hctx
    · intro p hp
      have hp' : s.Off p := fun c' hc' ↦ hp c' ((hth c').trans hc')
      change (Function.update s.proc q _ p).Rests
      by_cases hpq : p = q
      · subst hpq
        rw [hslotq]
        refine ⟨(fun he ↦ by cases he), fun _ ↦ (h.rests p hp').2 ?_⟩
        rw [hstate]
        exact fun he ↦ by cases he
      · rw [hslot hpq]
        exact h.rests p hp'
    · intro c' p hp
      by_cases hc : c' = c
      · subst hc
        have hpq : q = p := Option.some.inj ((congrArg Cpu.next hself).symm.trans hp)
        subst hpq
        refine ⟨(hth c').trans hthread, fun c'' hc'' ↦ hoffq c'' ((hth c'').symm.trans hc''),
          congrArg Proc.state hslotq, ?_⟩
        refine (congrArg Cpu.held hself) ▸ ?_
        change Lock.proc q ∈ (s.cpu c').held
        rw [hheld]
        exact List.mem_singleton_self _
      · obtain ⟨hnone, hoff', hst, hmem⟩ :=
          h.next c' p ((congrArg Cpu.next (hother hc)).symm.trans hp)
        have hpq : p ≠ q := by
          rintro rfl
          rw [hstate] at hst
          cases hst
        refine ⟨(hth c').trans hnone, fun c'' hc'' ↦ hoff' c'' ((hth c'').symm.trans hc''),
          (congrArg Proc.state (hslot hpq)).trans hst, ?_⟩
        exact (congrArg Cpu.held (hother hc)) ▸ hmem
    · intro p hp hrun
      have hp' : s.Off p := fun c' hc' ↦ hp c' ((hth c').trans hc')
      by_cases hpq : p = q
      · subst hpq
        exact ⟨c, congrArg Cpu.next hself⟩
      · obtain ⟨c', hc'⟩ := h.running p hp' ((congrArg Proc.state (hslot hpq)).symm.trans hrun)
        have hc : c' ≠ c := by
          rintro rfl
          rw [hnext] at hc'
          cases hc'
        exact ⟨c', (congrArg Cpu.next (hother hc)).trans hc'⟩

end Xv6.Smp
