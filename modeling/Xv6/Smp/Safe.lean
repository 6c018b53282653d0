import Xv6.Smp.Steps

/-!
# Locks, CPUs and interrupts

From the start of the schedulers on, whatever the CPUs run and whenever they are interrupted:
no test of `spinlock.c` or of `sched` panics, a lock has one holder, a process is on one CPU
at most, and a process that gave up its CPU finds its interrupts as it left them.
-/

namespace Xv6.Smp

open State Lib

variable {L H : Type} [DecidableEq L] [DecidableEq H] {s : State L H} {c : Hart} {k : Code L H}

omit [DecidableEq H] in
/-- Nesting and interrupts change, nothing is taken or released. -/
theorem Inv.nesting (h : Inv s) {me : Own H} {noff : Nat} {sie intena : Bool}
    (hme : s.Knows c me) (hdepth : (s.cpu c).held.length ≤ noff) (hoff : sie = true → noff = 0)
    (hidle : noff = 0 → (s.cpu c).proc = (s.cpu c).thread)
    (hvalid : Valid (s.wants c) { s.cpu c with noff := noff, sie := sie, intena := intena } me k) :
    Inv ((s.setCode c k).setCpu c { s.cpu c with noff := noff, sie := sie, intena := intena }) :=
  h.advance rfl (fun _ _ ↦ rfl) rfl rfl rfl
    ⟨(h.cpus c).nodup, hdepth, hoff, (h.cpus c).pending, hidle⟩ hme hvalid

omit [DecidableEq H] in
/-- The invariant does not mention who asked to sleep. -/
theorem Inv.setAsked (h : Inv s) (asked : Slot → Option (H × Lock L)) :
    Inv { s with asked := asked } :=
  ⟨⟨h.cpus, h.excl, h.locked, h.owner⟩,
    ⟨fun _ ↦ h.runs_other rfl (fun _ _ ↦ ⟨rfl, rfl, rfl⟩) (fun _ ↦ rfl), h.one, h.own, h.saved,
      h.parked, h.rests, h.next, h.running⟩, h.calm⟩

/-- An instruction keeps the invariant. -/
theorem exec_inv (h : Inv s) {i : Instr L H} (hcode : s.code c = i :: k) :
    Inv (s.execInstr c k i) := by
  obtain ⟨me, hme, hv⟩ := h.runs c
  rw [hcode] at hv
  have hok := h.cpus c
  cases i with
  | intrGet =>
    cases hv with
    | intrGet hv =>
      refine h.goes hme (.intrOff ?_)
      intro j hj
      refine .noffInc rfl ?_
      have heq : (if (s.cpu c).noff = 0 then (s.cpu c).sie else j) =
          if (s.cpu c).noff = 0 then (s.cpu c).sie else (s.cpu c).intena := by
        by_cases hn : (s.cpu c).noff = 0
        · rw [if_pos hn, if_pos hn]
        · rw [if_neg hn, if_neg hn, hj hn]
      simp only [heq]
      exact hv
  | intrOff =>
    cases hv with
    | intrOff hv =>
      exact h.nesting hme hok.depth (fun he ↦ by cases he) hok.idle (hv _ (fun _ ↦ rfl))
  | intrOn =>
    cases hv with
    | intrOn hfree hv => exact h.nesting hme hok.depth (fun _ ↦ hfree.noff) hok.idle (hv _)
  | sret =>
    cases hv with
    | sret hsie hfree hv => exact h.nesting hme hok.depth (fun _ ↦ hfree.noff) hok.idle (hv _)
  | noffInc old =>
    cases hv with
    | noffInc hsie hv =>
      refine h.nesting hme (Nat.le_succ_of_le hok.depth) ?_ (fun he ↦ by cases he) hv
      intro he
      rw [hsie] at he
      cases he
  | notHolding lk =>
    cases hv with
    | notHolding hsie hlk hv =>
      have hno : ¬ s.holding c lk = true := fun hh ↦ hlk ((h.holding lk).mp hh).1
      rw [execInstr, if_neg hno]
      exact h.goes hme hv
  | testAndSet lk =>
    rw [execInstr]
    split
    · exact h
    · next hfree => exact inv_testAndSet h hme (Bool.not_eq_true _ ▸ hfree) hv
  | setCpu lk => exact inv_setCpu h hme hv
  | isHolding lk =>
    cases hv with
    | isHolding hsie hpending hlk hv =>
      have hyes : s.holding c lk = true := by
        rw [h.holding, hpending]
        exact ⟨hlk, (Option.some_ne_none lk).symm⟩
      rw [execInstr, if_pos hyes]
      exact h.goes hme hv
  | clearCpu lk => exact inv_clearCpu h hme hv
  | lockRelease lk => exact inv_lockRelease h hme hv
  | popTest =>
    cases hv with
    | popTest hsie hnoff hv =>
      rw [execInstr, if_neg (by rw [hsie]; exact Bool.false_ne_true), if_neg (by omega)]
      exact h.goes hme hv
  | noffDec =>
    cases hv with
    | noffDec hsie hdepth hidle hv =>
      refine h.nesting hme (by omega) ?_ (fun hz ↦ hidle (by omega)) hv
      intro he
      rw [hsie] at he
      cases he
  | intrRestore =>
    cases hv with
    | intrRestore hsie hv =>
      refine h.nesting hme hok.depth ?_ hok.idle ?_
      · intro he
        rw [hsie, Bool.false_or, Bool.and_eq_true, decide_eq_true_eq] at he
        exact he.1
      · rw [hsie, Bool.false_or]
        exact hv
  | readProc u =>
    cases hv with
    | readProc hsie hself hv => exact h.goes hme hv
  | setState p state =>
    cases hv with
    | setState hsie hthread hlk hv =>
      have hof := hme.own p hthread
      refine h.setOwn hthread hlk ?_ hv
      exact ⟨rfl, hof.dozing, hof.chan⟩
  | setChan p chan =>
    cases hv with
    | setChan hsie hthread hlk hv =>
      have hof := hme.own p hthread
      refine h.setOwn hthread hlk ?_ hv
      exact ⟨hof.state, hof.dozing, fun _ ↦ rfl⟩
  | doze p chan =>
    cases hv with
    | doze hsie hthread hlk hv =>
      have hof := hme.own p hthread
      refine (h.setOwn hthread hlk ?_ hv).setAsked _
      exact ⟨hof.state, rfl, hof.chan⟩
  | wake q chan =>
    cases hv with
    | wake hsie hlk hother hv =>
      have hgo := h.goes hme hv
      rw [execInstr]
      split
      · next hsl =>
        apply hgo.rouse (c := c)
        · rw [setCode_cpu]
          exact hlk
        · rw [setCode_cpu]
          exact hother
        · rw [setCode_proc]
          exact hsl.1
      · exact hgo
  | schedTest p =>
    cases hv with
    | schedTest hthread hsw hstate hv =>
      have hyes : s.holding c (.proc p) = true := by
        rw [h.holding, hsw.held, hsw.pending]
        exact ⟨List.mem_singleton_self _, (Option.some_ne_none _).symm⟩
      have hrun : ¬ (s.proc p).state = .RUNNING := by
        rw [← (hme.own p hthread).state]
        exact hstate
      rw [execInstr, if_neg (by rw [hyes]; exact Bool.false_ne_true.symm),
        if_neg (fun hn ↦ hn hsw.noff), if_neg hrun,
        if_neg (by rw [hsw.sie]; exact Bool.false_ne_true)]
      exact h.goes hme hv
  | saveIntena =>
    cases hv with
    | saveIntena hsie hv => exact h.goes hme hv
  | swtch => exact inv_swtch h hme hv
  | setIntena intena =>
    cases hv with
    | setIntena hsie hv => exact h.nesting hme hok.depth hok.off hok.idle hv
  | tryRun q =>
    rw [execInstr]
    split
    · next hstate => exact inv_tryRun h hv hme hstate
    · cases hv with
      | tryRun hsie hthread hsw hv => exact h.goes hme hv
  | swtchTo q => exact inv_swtchTo h hv hme
  | clearProc =>
    cases hv with
    | clearProc hsie hthread hnext hv =>
      refine h.advance rfl ?_ rfl rfl rfl
        ⟨hok.nodup, hok.depth, hok.off, hok.pending, fun _ ↦ hthread.symm⟩ hme hv
      intro p hp
      rw [hthread] at hp
      cases hp
  | loop =>
    cases hv with
    | loop hthread hproc hfree =>
      rw [execInstr, List.append_nil]
      exact h.goes hme (valid_scan hthread hproc hfree)
  | trapYield p =>
    cases hv with
    | trapYield hsie hthread hawake hv =>
      have hrun : (s.proc p).state = .RUNNING := by
        rw [← (hme.own p hthread).state, hawake]
        rfl
      rw [execInstr, if_pos hrun]
      exact h.goes hme hv
  | panic msg => cases hv
  | wakeBegin chan =>
    cases hv with
    | wakeBegin hv => exact h.goes hme (hv _)
  | wakeEnd chan due =>
    cases hv with
    | wakeEnd hv => exact h.goes hme hv
  | adopt =>
    cases hv with
    | @adopt _ _ p hthread hawake hfree =>
      have hvalid : Valid (s.cpu c).sie (s.cpu c) me [] := by
        refine .client hthread hawake hfree.pending hfree.next ?_ (if_pos hfree.noff)
        rw [hfree.noff, hfree.held]
        rfl
      simp only [execInstr, hthread]
      exact h.setWant hthread hme hvalid

/-! ### Calls -/

omit [DecidableEq H] in
/-- Between calls. -/
theorem client_cases (h : Inv s) {p : Slot} (hthread : (s.cpu c).thread = some p)
    (hk : s.kern p = []) :
    s.Knows c .awake ∧ (s.cpu c).pending = none ∧ (s.cpu c).next = none ∧
      (s.cpu c).noff = (s.cpu c).held.length ∧
      (if (s.cpu c).noff = 0 then (s.cpu c).sie else (s.cpu c).intena) = s.want p := by
  obtain ⟨me, hme, hv⟩ := h.runs c
  have hcode : s.code c = [] := by
    rw [State.code, hthread]
    exact hk
  rw [hcode] at hv
  cases hv with
  | client hthread' hawake hpending hnext hnoff hwant =>
    rw [State.wants, hthread] at hwant
    exact ⟨hawake ▸ hme, hpending, hnext, hnoff, hwant⟩

section
variable {p : Slot} {f : Call L H} (h : Inv s) (hthread : (s.cpu c).thread = some p)
  (hk : s.kern p = [])
include h hthread hk

omit [DecidableEq H] in
/-- A process that is between calls, and the code of its next call. -/
theorem inv_call (hvalid : Valid (s.want p) (s.cpu c) .awake k) : Inv (s.setCode c k) := by
  refine h.goes (client_cases h hthread hk).1 ?_
  rw [State.wants, hthread]
  exact hvalid

omit [DecidableEq H] in
theorem client_runs (hheld : (s.cpu c).held = []) : (s.cpu c).Runs p := by
  obtain ⟨-, hpending, hnext, hnoff, -⟩ := client_cases h hthread hk
  refine ⟨hthread, h.own c p hthread, ?_, hheld, hpending, hnext⟩
  rw [hnoff, hheld]
  rfl

omit [DecidableEq H] in
theorem client_holds {lk : Lock L} (hheld : (s.cpu c).held = [lk]) : (s.cpu c).Holds p lk := by
  obtain ⟨-, hpending, hnext, hnoff, -⟩ := client_cases h hthread hk
  have hone : (s.cpu c).noff = 1 := by
    rw [hnoff, hheld]
    rfl
  refine ⟨hthread, h.own c p hthread, hone, ?_, hheld, hpending, hnext⟩
  cases hsie : (s.cpu c).sie with
  | false => rfl
  | true =>
    rw [(h.cpus c).off hsie] at hone
    cases hone

omit [DecidableEq H] in
/-- Another slot whose lock the process holds. -/
theorem client_other {q : Slot} (hstate : (s.proc q).state ≠ .RUNNING) :
    (s.cpu c).thread ≠ some q := by
  intro hq
  have hof := (client_cases h hthread hk).1.own q hq
  exact hstate hof.state.symm

omit [DecidableEq H] in
theorem inv_acquire {lk : Lock L} (hlk : lk ∉ (s.cpu c).held) : Inv (s.setCode c (acquire lk)) := by
  obtain ⟨-, hpending, hnext, hnoff, hwant⟩ := client_cases h hthread hk
  apply inv_call h hthread hk
  rw [← List.append_nil (acquire lk)]
  apply valid_acquire hpending hlk (Nat.le_of_eq hnoff.symm)
  refine .client hthread rfl rfl hnext ?_ ?_
  · exact congrArg Nat.succ hnoff
  · exact (if_neg (Nat.succ_ne_zero _)).trans hwant

omit [DecidableEq H] in
theorem inv_release {lk : Lock L} (hlk : lk ∈ (s.cpu c).held) : Inv (s.setCode c (release lk)) := by
  obtain ⟨-, hpending, hnext, hnoff, hwant⟩ := client_cases h hthread hk
  have hpos : 0 < (s.cpu c).noff := by
    rw [hnoff]
    exact List.length_pos_of_mem hlk
  have hsie : (s.cpu c).sie = false := by
    cases hs : (s.cpu c).sie with
    | false => rfl
    | true => exact (Nat.ne_of_gt hpos ((h.cpus c).off hs)).elim
  rw [if_neg (Nat.ne_of_gt hpos)] at hwant
  apply inv_call h hthread hk
  rw [← List.append_nil (release lk)]
  refine valid_release hsie hpending hlk (Nat.le_of_eq hnoff.symm) hnext (fun _ _ _ ↦ rfl)
    (fun _ ↦ (h.own c p hthread).trans hthread.symm) ?_
  refine .client hthread rfl rfl hnext ?_ ?_
  · change (s.cpu c).noff - 1 = ((s.cpu c).held.erase lk).length
    rw [List.length_erase_of_mem hlk, hnoff]
  · change (if (s.cpu c).noff - 1 = 0 then decide ((s.cpu c).noff - 1 = 0) && (s.cpu c).intena
      else (s.cpu c).intena) = s.want p
    by_cases hz : (s.cpu c).noff - 1 = 0
    · simp [hz, hwant]
    · rw [if_neg hz, hwant]

omit [DecidableEq H] in
theorem inv_sleep {chan : H} {lk : Lock L} (hheld : (s.cpu c).held = [lk])
    (hlk : lk ≠ .proc p) : Inv (s.setCode c (sleep chan lk)) := by
  obtain ⟨-, -, -, -, hwant⟩ := client_cases h hthread hk
  have hholds := client_holds h hthread hk hheld
  rw [if_neg (by rw [hholds.noff]; exact Nat.one_ne_zero)] at hwant
  apply inv_call h hthread hk
  rw [← List.append_nil (sleep chan lk)]
  apply valid_sleep hholds hlk
  intro v hv hi
  refine .client hv.thread rfl hv.pending hv.next ?_ ?_
  · rw [hv.noff, hv.held]
    rfl
  · rw [if_neg (by rw [hv.noff]; exact Nat.one_ne_zero), hi, hwant]

omit [DecidableEq H] in
theorem inv_exit {lk : Lock L} (hheld : (s.cpu c).held = [lk]) (hlk : lk ≠ .proc p) :
    Inv (s.setCode c (exitTail lk)) := by
  apply inv_call h hthread hk
  rw [← List.append_nil (exitTail lk)]
  exact valid_exit (client_holds h hthread hk hheld) hlk

omit [DecidableEq H] in
theorem inv_yield (hheld : (s.cpu c).held = []) : Inv (s.setCode c yield) := by
  obtain ⟨-, -, -, -, hwant⟩ := client_cases h hthread hk
  have hruns := client_runs h hthread hk hheld
  rw [if_pos hruns.free.noff] at hwant
  apply inv_call h hthread hk
  rw [← List.append_nil yield]
  apply valid_yield hruns
  intro v hv hi
  refine .client hv.thread rfl hv.free.pending hv.free.next ?_ ?_
  · rw [hv.free.noff, hv.free.held]
    rfl
  · rw [if_pos hv.free.noff, hi, hwant]

omit [DecidableEq H] in
theorem inv_wakeup {chan : H} (hnot : ∀ q, .proc q ∉ (s.cpu c).held) :
    Inv (s.setCode c [.wakeBegin chan]) := by
  obtain ⟨-, hpending, hnext, hnoff, hwant⟩ := client_cases h hthread hk
  apply inv_call h hthread hk
  have hsteady : (s.cpu c).Steady :=
    ⟨(h.cpus c).off, (h.cpus c).depth, hpending, hnext, (h.own c p hthread).trans hthread.symm⟩
  apply (valid_wakeups [chan] hsteady rfl hnot ?_).valid
  intro i hi
  refine .client hthread rfl hpending hnext hnoff ?_
  by_cases hz : (s.cpu c).noff = 0
  · rw [if_pos hz] at hwant ⊢
    exact hwant
  · rw [if_neg hz] at hwant ⊢
    rw [hi hz, hwant]

omit [DecidableEq H] in
/-- `intr_on` and `intr_off` outside of critical sections. -/
theorem inv_intr (on : Bool) (hheld : (s.cpu c).held = []) :
    Inv { s.setCode c [if on then .intrOn else .intrOff] with
      want := Function.update s.want p on } := by
  have hruns := client_runs h hthread hk hheld
  have hclient (i : Bool) :
      Valid on { s.cpu c with sie := on, intena := i } (.awake : Own H) [] := by
    refine .client hthread rfl hruns.free.pending hruns.free.next ?_ (if_pos hruns.free.noff)
    rw [hruns.free.noff, hheld]
    rfl
  apply h.setWant hthread (client_cases h hthread hk).1
  cases on with
  | true => exact .intrOn hruns.free hclient
  | false => exact .intrOff (fun i _ ↦ hclient i)

end

omit [DecidableEq H] in
theorem valid_forkret {want : Bool} {v : Cpu L} {q : Slot} (hthread : v.thread = some q)
    (hsw : v.Switched q) : Valid want v (.awake : Own H) forkret := by
  have hn : v.noff ≠ 0 := by
    rw [hsw.noff]
    exact Nat.one_ne_zero
  have hbody : Valid want v (.awake : Own H) ((Use.forkret : Use L H).body v.proc) := by
    rw [hsw.proc]
    exact valid_back hsw hthread (fun hruns _ ↦ .adopt hruns.thread rfl hruns.free)
  have hcall : Valid want v (.awake : Own H) (withMyproc .forkret ++ []) := by
    apply valid_withMyproc
    · intro hs
      rw [hsw.sie] at hs
      cases hs
    · rw [hsw.held, hsw.noff]
      exact Nat.le_refl 1
    · exact fun hz ↦ (hn hz).elim
    · intro q chan hu
      cases hu
    · rw [touched_of_pos hn, List.append_nil]
      exact hbody
  rwa [List.append_nil] at hcall

omit [DecidableEq H] in
/-- A call of a process keeps the invariant. -/
theorem call_inv {p : Slot} {f : Call L H} (h : Inv s) (hthread : (s.cpu c).thread = some p)
    (hk : s.kern p = []) (hf : f.Allowed (s.cpu c) p (fun q ↦ (s.proc q).state)) :
    Inv (s.execCall c p f) := by
  have hidle {q : Slot} {x : ProcState} (hq : (s.proc q).state = x) (hx : x ≠ .RUNNING) :
      (s.proc q).state ≠ .RUNNING := hq ▸ hx
  -- a slot that another thread may store to, and that does not sleep
  have hrests {q : Slot} {r : Proc H} {x : ProcState} (hlk : .proc q ∈ (s.cpu c).held)
      (hq : (s.proc q).state = x) (hx : x ≠ .RUNNING) (hx' : x ≠ .SLEEPING)
      (hr : r.state ≠ .SLEEPING) (hd : r.dozing = (s.proc q).dozing) : r.Rests := by
    refine ⟨fun he ↦ (hr he).elim, fun _ ↦ ?_⟩
    rw [hd]
    exact (h.rests q (h.off_of_held hlk (client_other h hthread hk (hq ▸ hx)) (hq ▸ hx))).2
      (hq ▸ hx')
  cases f with
  | acquire lk => exact inv_acquire h hthread hk hf
  | release lk => exact inv_release h hthread hk hf
  | sleep chan lk => exact (inv_sleep h hthread hk hf.1 hf.2).setAsked _
  | wakeup chan => exact inv_wakeup h hthread hk hf
  | yield => exact inv_yield h hthread hk hf
  | exit lk => exact inv_exit h hthread hk hf.1 hf.2
  | intrOn => exact inv_intr h hthread hk true hf
  | intrOff => exact inv_intr h hthread hk false hf
  | allocproc q =>
    rw [execCall]
    split
    · next hun =>
      refine h.setOther hf (client_other h hthread hk (hidle hun (by simp))) (hidle hun (by simp))
        (by simp) (hrests hf hun (by simp) (by simp) (by simp) rfl) ?_
      exact fun _ v hv hsw ↦ valid_forkret hv hsw
    · exact h
  | start q =>
    obtain ⟨hlk, hused⟩ := hf
    refine h.store hlk (client_other h hthread hk (hidle hused (by simp))) (hidle hused (by simp))
      (by simp) (hrests hlk hused (by simp) (by simp) (by simp) rfl) ?_
    have hu : (s.proc q).state = .USED := hused
    have hctx : (s.proc q).HasContext := by
      rw [Proc.HasContext, hu]
      exact ⟨by simp, by simp⟩
    exact fun _ ↦ hctx
  | freeproc q =>
    obtain ⟨hlk, hdead⟩ := hf
    have hdead' : ∃ x, (s.proc q).state = x ∧ x ≠ .RUNNING ∧ x ≠ .SLEEPING := by
      rcases hdead with hd | hd <;> exact ⟨_, hd, by simp, by simp⟩
    obtain ⟨x, hx, hrun, hsl⟩ := hdead'
    refine h.store hlk (client_other h hthread hk (hidle hx hrun)) (hidle hx hrun)
      (by simp) (hrests hlk hx hrun hsl (by simp) rfl) ?_
    exact fun hctx ↦ (hctx.1 rfl).elim
  | kill q =>
    rw [execCall]
    split
    · next hsl => exact h.rouse hf (client_other h hthread hk (hidle hsl (by simp))) hsl
    · exact h

omit [DecidableEq H] in
/-- An interrupt keeps the invariant. -/
theorem interrupt_inv (h : Inv s) (i : Interrupt L H) (hsie : (s.cpu c).sie = true) :
    Inv ((s.setCode c (i.handler ++ s.code c)).setCpu c { s.cpu c with sie := false }) := by
  obtain ⟨me, hme, hv⟩ := h.runs c
  have hn := (h.cpus c).off hsie
  have hheld : (s.cpu c).held = [] := by
    have hdepth := (h.cpus c).depth
    rw [hn] at hdepth
    exact List.length_eq_zero_iff.mp (Nat.le_zero.mp hdepth)
  have hnone {lk : Lock L} : lk ∉ (s.cpu c).held := by
    rw [hheld]
    exact List.not_mem_nil
  have hfree : Cpu.Free { s.cpu c with sie := false } := by
    refine ⟨hn, hheld, ?_, ?_⟩
    · cases hp : (s.cpu c).pending with
      | none => rfl
      | some lk => exact (hnone ((h.cpus c).pending lk hp)).elim
    · cases hnext : (s.cpu c).next with
      | none => rfl
      | some q => exact (hnone (h.next c q hnext).2.2.2).elim
  have hawake : me = .awake := hme.awake (fun _ _ ↦ hnone)
  subst hawake
  have hback (j : Bool) : Valid (s.wants c) { s.cpu c with sie := true, intena := j } .awake
      (s.code c) := by
    have := hv.interruptible hsie hn j
    rwa [← hsie]
  exact h.nesting hme (h.cpus c).depth (fun he ↦ by cases he) (h.cpus c).idle
    (valid_handler i rfl hfree ((h.cpus c).idle hn) hback)

/-- Every step keeps the invariant. -/
theorem step_inv {t : State L H} {a : Act L H} (h : Inv s) (hstep : s.step a = some t) : Inv t := by
  cases a with
  | exec c =>
    rw [step] at hstep
    cases hcode : s.code c with
    | nil =>
      rw [hcode] at hstep
      cases hstep
    | cons i k =>
      rw [hcode] at hstep
      cases hstep
      exact exec_inv h hcode
  | call c f =>
    rw [step] at hstep
    cases hthread : (s.cpu c).thread with
    | none =>
      rw [hthread] at hstep
      cases hstep
    | some p =>
      rw [hthread] at hstep
      obtain ⟨⟨hk, hf⟩, hstep⟩ := Option.ite_none_right_eq_some.mp hstep
      cases hstep
      exact call_inv h hthread hk hf
  | interrupt c i =>
    rw [step] at hstep
    obtain ⟨hsie, hstep⟩ := Option.ite_none_right_eq_some.mp hstep
    cases hstep
    exact interrupt_inv h i hsie

omit [DecidableEq H] in
theorem boot_inv : Inv (boot : State L H) := by
  have hfree : (enterScheduler : Cpu L).Free := ⟨rfl, rfl, rfl, rfl⟩
  have hslot (p : Slot) : ((boot : State L H).proc p).state ≠ .SLEEPING ∧
      ((boot : State L H).proc p).state ≠ .RUNNING := by
    change (if p = 0 then ProcState.RUNNABLE else .UNUSED) ≠ _ ∧
      (if p = 0 then ProcState.RUNNABLE else .UNUSED) ≠ _
    split <;> simp
  refine ⟨⟨?_, ?_, ?_, ?_⟩, ⟨?_, ?_, ?_, ?_, ?_, ?_, ?_, ?_⟩, rfl⟩
  · intro c
    exact ⟨List.nodup_nil, Nat.le_refl 0, (fun he ↦ by cases he), (fun _ he ↦ by cases he),
      fun _ ↦ rfl⟩
  · intro c c' lk hmem
    cases hmem
  · intro lk
    simp [boot, enterScheduler]
  · intro lk c
    simp [boot, enterScheduler]
  · intro c
    refine ⟨.awake, ⟨(fun _ hp ↦ by cases hp), fun _ ↦ rfl⟩, ?_⟩
    exact .clearProc rfl rfl rfl (.loop rfl rfl hfree)
  · intro c c' p hp
    cases hp
  · intro c p hp
    cases hp
  · intro c p hp
    cases hp
  · intro p _ hctx v hv hsw
    have hzero : p = 0 := by
      by_contra hne
      exact hctx.1 (if_neg hne)
    have hkern : (boot : State L H).kern p = forkret := if_pos hzero
    rw [hkern]
    exact valid_forkret hv hsw
  · intro p _
    exact ⟨fun he ↦ ((hslot p).1 he).elim, fun _ ↦ rfl⟩
  · intro c q hq
    cases hq
  · intro p _ hrun
    exact ((hslot p).2 hrun).elim

/-! ### What every run keeps -/

/-- The panics of `spinlock.c` and `sched` do not happen, and `holding` tells the truth: a lock
is taken exactly while one CPU has it, whose interrupts are off. Between calls, `noff` is the
number of locks. -/
structure LocksSafe (s : State L H) : Prop where
  noPanic : s.panicked = none
  excl : ∀ c c' lk, lk ∈ (s.cpu c).held → lk ∈ (s.cpu c').held → c = c'
  locked : ∀ lk, (s.lock lk).locked = true ↔ ∃ c, lk ∈ (s.cpu c).held
  owner : ∀ lk c, (s.lock lk).cpu = some c → lk ∈ (s.cpu c).held
  off : ∀ c lk, lk ∈ (s.cpu c).held → (s.cpu c).sie = false
  nesting : ∀ c p, (s.cpu c).thread = some p → s.kern p = [] →
    (s.cpu c).noff = (s.cpu c).held.length ∧ ∀ lk ∈ (s.cpu c).held, (s.lock lk).cpu = some c

/-- A process is on one CPU at most, where `myproc()` returns it and its slot is RUNNING or
locked by that CPU; a RUNNING process that nobody holds is on a CPU. -/
structure OneCpu (s : State L H) : Prop where
  one : ∀ c c' p, (s.cpu c).thread = some p → (s.cpu c').thread = some p → c = c'
  myproc : ∀ c p, (s.cpu c).thread = some p → (s.cpu c).proc = some p
  idle : ∀ c, (s.cpu c).thread = none → (s.cpu c).noff = 0 → (s.cpu c).proc = none
  state : ∀ c p, (s.cpu c).thread = some p →
    (s.proc p).state = .RUNNING ∨ .proc p ∈ (s.cpu c).held
  running : ∀ p, (s.proc p).state = .RUNNING → (s.lock (.proc p)).locked = false →
    ∃ c, (s.cpu c).thread = some p

/-- Between calls, a process has its interrupts as it asked for, or will have them when it has
released its last lock. -/
def InterruptsKept (s : State L H) : Prop :=
  ∀ c p, (s.cpu c).thread = some p → s.kern p = [] →
    ((s.cpu c).held = [] → (s.cpu c).sie = s.want p) ∧
      ((s.cpu c).held ≠ [] → (s.cpu c).sie = false ∧ (s.cpu c).intena = s.want p)

omit [DecidableEq H] in
theorem Inv.sie_of_held (h : Inv s) {lk : Lock L} (hlk : lk ∈ (s.cpu c).held) :
    (s.cpu c).sie = false := by
  cases hsie : (s.cpu c).sie with
  | false => rfl
  | true =>
    have hdepth := (h.cpus c).depth
    have hpos := List.length_pos_of_mem hlk
    have hn := (h.cpus c).off hsie
    omega

omit [DecidableEq H] in
theorem Inv.locksSafe (h : Inv s) : LocksSafe s := by
  refine ⟨h.calm, h.excl, h.locked, fun lk c hc ↦ ((h.owner lk c).mp hc).1,
    fun c lk hlk ↦ h.sie_of_held hlk, ?_⟩
  intro c p hthread hk
  obtain ⟨-, hpending, -, hnoff, -⟩ := client_cases h hthread hk
  refine ⟨hnoff, ?_⟩
  intro lk hlk
  rw [h.owner, hpending]
  exact ⟨hlk, (Option.some_ne_none lk).symm⟩

omit [DecidableEq H] in
theorem Inv.oneCpu (h : Inv s) : OneCpu s := by
  refine ⟨h.one, h.own, fun c ht hn ↦ ((h.cpus c).idle hn).trans ht, ?_, ?_⟩
  · intro c p hthread
    by_cases hlk : .proc p ∈ (s.cpu c).held
    · exact .inr hlk
    · exact .inl (h.state_of_runs hthread hlk).1
  · intro p hrun hfree
    apply Classical.byContradiction
    intro hno
    have hoff : s.Off p := fun c hc ↦ hno ⟨c, hc⟩
    obtain ⟨c, hc⟩ := h.running p hoff hrun
    have hlocked := (h.locked (.proc p)).mpr ⟨c, (h.next c p hc).2.2.2⟩
    rw [hfree] at hlocked
    cases hlocked

omit [DecidableEq H] in
theorem Inv.interruptsKept (h : Inv s) : InterruptsKept s := by
  intro c p hthread hk
  obtain ⟨-, -, -, hnoff, hwant⟩ := client_cases h hthread hk
  constructor
  · intro hheld
    have hn : (s.cpu c).noff = 0 := by rw [hnoff, hheld, List.length_nil]
    rwa [if_pos hn] at hwant
  · intro hheld
    obtain ⟨lk, hlk⟩ := List.exists_mem_of_ne_nil _ hheld
    have hn : (s.cpu c).noff ≠ 0 := by
      rw [hnoff]
      exact Nat.ne_of_gt (List.length_pos_of_mem hlk)
    rw [if_neg hn] at hwant
    exact ⟨h.sie_of_held hlk, hwant⟩

theorem locks_safe (as : List (Act L H)) : Always State.step LocksSafe boot as :=
  always_of_invariant (fun _ ↦ Inv.locksSafe) (fun _ _ _ ↦ step_inv) boot_inv as

theorem process_on_one_cpu (as : List (Act L H)) : Always State.step OneCpu boot as :=
  always_of_invariant (fun _ ↦ Inv.oneCpu) (fun _ _ _ ↦ step_inv) boot_inv as

/-- CPU 2 dispatches the first process, which comes out of `forkret`. -/
example : (run State.step (boot : State Unit Unit) (List.replicate 25 (.exec (2 : Fin 8)))).map
    (fun s ↦ ((s.cpu (2 : Fin 8)).proc, (s.kern 0).length)) = some (some 0, 0) := by decide

theorem interrupts_kept (as : List (Act L H)) : Always State.step InterruptsKept boot as :=
  always_of_invariant (fun _ ↦ Inv.interruptsKept) (fun _ _ _ ↦ step_inv) boot_inv as

end Xv6.Smp
