import Xv6.Smp.Safe

/-!
# From the call of `sleep` to the nap

The caller of `sleep` holds a lock, and tested a condition under it. Until it has begun to sleep,
it is on its CPU, with interrupts off, and that CPU holds the lock: the code on the way takes the
lock of the slot, but gives up none.
-/

namespace Xv6.Smp

open State

variable {L H : Type}

/-- The instruction neither gives up a lock nor leaves the CPU. -/
def Instr.Quiet : Instr L H → Prop
  | .intrGet | .intrOff | .noffInc _ | .notHolding _ | .testAndSet _ | .setCpu _ | .popTest
  | .noffDec | .intrRestore => True
  | _ => False

/-- The code of process `p` leads to its nap on `chan` by quiet instructions. -/
inductive Asks (p : Slot) (chan : H) (lk : Lock L) : Code L H → Prop
  | doze {k : Code L H} : Asks p chan lk (.doze p chan :: k)
  | call {k : Code L H} : Asks p chan lk (.readProc (.sleep chan lk) :: k)
  | quiet {i : Instr L H} {k : Code L H} (hi : i.Quiet) (h : Asks p chan lk k) :
      Asks p chan lk (i :: k)

/-- A process that asked to sleep is on a CPU that has taken the lock. -/
def AskOk (s : State L H) : Prop :=
  ∀ p chan lk, s.asked p = some (chan, lk) → Asks p chan lk (s.kern p) ∧
    ∃ c, (s.cpu c).thread = some p ∧ lk ∈ (s.cpu c).held ∧ (s.cpu c).pending ≠ some lk

section
variable {p : Slot} {chan : H} {lk : Lock L} {k : Code L H}

theorem Asks.prepend {new : Code L H} (hnew : ∀ i ∈ new, i.Quiet) (h : Asks p chan lk k) :
    Asks p chan lk (new ++ k) := by
  induction new with
  | nil => exact h
  | cons i new ih =>
    exact .quiet (hnew i List.mem_cons_self) (ih (fun j hj ↦ hnew j (List.mem_cons_of_mem i hj)))

theorem asks_sleep : Asks p chan lk (sleep chan lk) :=
  .quiet True.intro .call

/-- The code of `sleep`, once `myproc()` has returned the process. -/
theorem asks_body : Asks p chan lk (popOff ++ (Use.sleep chan lk).body (some p) ++ k) := by
  have hquiet : ∀ i ∈ (popOff ++ acquire (.proc p) : Code L H), i.Quiet := by
    intro i hi
    simp only [popOff, acquire, pushOff, List.cons_append, List.nil_append, List.mem_cons,
      List.not_mem_nil, or_false] at hi
    rcases hi with rfl | rfl | rfl | rfl | rfl | rfl | rfl <;> trivial
  have hdoze : Asks p chan lk (popOff ++ acquire (.proc p) ++ .doze p chan :: (release lk ++
      [.setChan p (some chan), .setState p .SLEEPING] ++ Smp.sched ++ [.setChan p none] ++
      release (.proc p) ++ acquire lk ++ k)) := Asks.doze.prepend hquiet
  simpa only [Use.body, Option.elim, List.append_assoc, List.cons_append, List.nil_append]
    using hdoze

end

section
variable [DecidableEq L] [DecidableEq H] {s : State L H} {c : Hart} {k : Code L H}

/-! ### What an instruction leaves alone -/

theorem exec_cpu (i : Instr L H) {c' : Hart} (hc : c' ≠ c) :
    (s.execInstr c k i).cpu c' = s.cpu c' := by
  have hset (t : State L H) (v : Cpu L) (ht : t.cpu = s.cpu) :
      (t.setCpu c v).cpu c' = s.cpu c' := by
    rw [← ht]
    exact Function.update_of_ne hc _ _
  cases i <;> simp only [execInstr] <;> repeat' split
  all_goals first
    | rfl
    | exact congrFun (setCode_cpu _) c'
    | exact hset _ _ (setCode_cpu _)

theorem exec_kern (i : Instr L H) {p : Slot} (hp : (s.cpu c).thread ≠ some p) :
    (s.execInstr c k i).kern p = s.kern p := by
  cases i <;> simp only [execInstr] <;> repeat' split
  all_goals first
    | rfl
    | exact setCode_kern _ hp

theorem exec_asked {i : Instr L H} (hi : ∀ q chan, i ≠ .doze q chan) :
    (s.execInstr c k i).asked = s.asked := by
  cases i with
  | doze q chan => exact (hi q chan rfl).elim
  | _ =>
    simp only [execInstr]
    repeat' split
    all_goals first
      | rfl
      | exact setCode_asked _

/-- Who asked to sleep after an instruction asked before it, and did not begin to sleep. -/
theorem asked_of_exec {i : Instr L H} {p : Slot} {x : H × Lock L}
    (h : (s.execInstr c k i).asked p = some x) :
    s.asked p = some x ∧ ∀ chan, i ≠ .doze p chan := by
  cases i with
  | doze q chan =>
    change Function.update s.asked q none p = some x at h
    by_cases hpq : p = q
    · rw [hpq, Function.update_self] at h
      cases h
    · rw [Function.update_of_ne hpq] at h
      refine ⟨h, ?_⟩
      intro chan' he
      cases he
      exact hpq rfl
  | _ =>
    rw [exec_asked (fun _ _ he ↦ by cases he)] at h
    exact ⟨h, fun _ he ↦ by cases he⟩

/-! ### Steps -/

/-- A quiet instruction on the way to the nap. -/
theorem exec_quiet (h : LocksOk s) {i : Instr L H} (hi : i.Quiet) {p : Slot} {chan : H}
    {lk : Lock L} (hthread : (s.cpu c).thread = some p) (hkern : s.kern p = i :: k)
    (hk : Asks p chan lk k) (hlk : lk ∈ (s.cpu c).held) (hpending : (s.cpu c).pending ≠ some lk) :
    Asks p chan lk ((s.execInstr c k i).kern p) ∧
      ((s.execInstr c k i).cpu c).thread = some p ∧ lk ∈ ((s.execInstr c k i).cpu c).held ∧
      ((s.execInstr c k i).cpu c).pending ≠ some lk := by
  -- the CPU waits, or stops in a panic
  have hstay : Asks p chan lk (s.kern p) ∧ (s.cpu c).thread = some p ∧ lk ∈ (s.cpu c).held ∧
      (s.cpu c).pending ≠ some lk := by
    rw [hkern]
    exact ⟨.quiet hi hk, hthread, hlk, hpending⟩
  have hgo (new : Code L H) (hnew : Asks p chan lk new) :
      Asks p chan lk ((s.setCode c new).kern p) := by
    rw [setCode_kern_self new hthread]
    exact hnew
  have hcpu (new : Code L H) : (s.setCode c new).cpu c = s.cpu c := by rw [setCode_cpu]
  have hset (v : Cpu L) : ((s.setCode c k).setCpu c v).cpu c = v := Function.update_self _ _ _
  cases i with
  | intrGet =>
    rw [execInstr, hcpu]
    exact ⟨hgo _ (.quiet True.intro (.quiet True.intro hk)), hthread, hlk, hpending⟩
  | intrOff | noffInc | noffDec | intrRestore =>
    rw [execInstr, hset]
    exact ⟨hgo k hk, hthread, hlk, hpending⟩
  | notHolding | popTest =>
    rw [execInstr]
    repeat' split
    all_goals first
      | exact hstay
      | exact ⟨hgo k hk, by rw [hcpu]; exact hthread, by rw [hcpu]; exact hlk,
          by rw [hcpu]; exact hpending⟩
  | testAndSet lk' =>
    rw [execInstr]
    split
    · exact hstay
    · next hfree =>
      have hne : lk' ≠ lk := by
        rintro rfl
        exact hfree ((h.locked lk').mpr ⟨c, hlk⟩)
      have hself : (((s.setCode c k).setLock lk' { s.lock lk' with locked := true }).setCpu c
          { s.cpu c with held := lk' :: (s.cpu c).held, pending := some lk' }).cpu c =
          { s.cpu c with held := lk' :: (s.cpu c).held, pending := some lk' } :=
        Function.update_self _ _ _
      rw [hself]
      exact ⟨hgo k hk, hthread, List.mem_cons_of_mem _ hlk, fun he ↦ hne (Option.some.inj he)⟩
  | setCpu lk' =>
    have hself : ((s.execInstr c k (.setCpu lk')).cpu c) = { s.cpu c with pending := none } :=
      Function.update_self _ _ _
    rw [hself]
    exact ⟨hgo k hk, hthread, hlk, (Option.some_ne_none lk).symm⟩
  | _ => exact hi.elim

/-- An instruction keeps it that whoever asked to sleep holds the lock. -/
theorem exec_ask (h : Inv s) (ha : AskOk s) {i : Instr L H} (hcode : s.code c = i :: k) :
    AskOk (s.execInstr c k i) := by
  intro p chan lk hp
  obtain ⟨hasked, hdoze⟩ := asked_of_exec hp
  obtain ⟨hask, c', hthread, hlk, hpending⟩ := ha p chan lk hasked
  by_cases hc : (s.cpu c).thread = some p
  · obtain rfl := h.one c' c p hthread hc
    have hkern : s.kern p = i :: k := by
      rw [State.code, hc] at hcode
      exact hcode
    rw [hkern] at hask
    cases hask with
    | doze => exact (hdoze chan rfl).elim
    | call =>
      rw [execInstr, setCode_kern_self _ hc, h.own c' p hc]
      exact ⟨asks_body, c', by rw [setCode_cpu]; exact ⟨hthread, hlk, hpending⟩⟩
    | quiet hi hk =>
      obtain ⟨hask', hrest⟩ := exec_quiet h.toLocksOk hi hc hkern hk hlk hpending
      exact ⟨hask', c', hrest⟩
  · have hne : c' ≠ c := by
      rintro rfl
      exact hc hthread
    rw [exec_kern i hc]
    refine ⟨hask, c', ?_⟩
    rw [exec_cpu i hne]
    exact ⟨hthread, hlk, hpending⟩

omit [DecidableEq H] [DecidableEq L] in
/-- Whoever asked to sleep, in a state that differs in nothing that matters. -/
theorem AskOk.congr {t : State L H} (ha : AskOk s) (hcpu : t.cpu = s.cpu)
    (hasked : t.asked = s.asked)
    (hkern : ∀ p x, s.asked p = some x → t.kern p = s.kern p) : AskOk t := by
  intro p chan lk hp
  rw [hasked] at hp
  rw [hkern p _ hp, hcpu]
  exact ha p chan lk hp

omit [DecidableEq H] in
theorem call_ask {p : Slot} {f : Call L H} (h : Inv s) (ha : AskOk s)
    (hthread : (s.cpu c).thread = some p) (hk : s.kern p = [])
    (hf : f.Allowed (s.cpu c) p (fun q ↦ (s.proc q).state)) : AskOk (s.execCall c p f) := by
  -- the caller has no code left, so it did not ask
  have hne {q : Slot} {x : H × Lock L} (hq : s.asked q = some x) : q ≠ p := by
    rintro rfl
    obtain ⟨hask, -⟩ := ha q x.1 x.2 hq
    rw [hk] at hask
    cases hask
  have hgo (new : Code L H) : AskOk (s.setCode c new) := by
    refine ha.congr (setCode_cpu _) (setCode_asked _) ?_
    intro q x hq
    apply setCode_kern
    rw [hthread]
    exact fun he ↦ hne hq (Option.some.inj he).symm
  cases f with
  | acquire | release | wakeup | yield | exit => exact hgo _
  | sleep chan lk =>
    intro q chan' lk' hq
    change Function.update s.asked p (some (chan, lk)) q = some (chan', lk') at hq
    by_cases hqp : q = p
    · rw [hqp, Function.update_self] at hq
      cases hq
      obtain ⟨-, hpending, -⟩ := client_cases h hthread hk
      have hcpu : (s.execCall c p (.sleep chan lk)).cpu = s.cpu := setCode_cpu _
      have hkern : (s.execCall c p (.sleep chan lk)).kern p = sleep chan lk :=
        setCode_kern_self _ hthread
      rw [hqp, hkern, hcpu]
      refine ⟨asks_sleep, c, hthread, ?_, ?_⟩
      · rw [hf.1]
        exact List.mem_singleton_self lk
      · rw [hpending]
        exact (Option.some_ne_none lk).symm
    · rw [Function.update_of_ne hqp] at hq
      exact hgo (sleep chan lk) q chan' lk' (by rw [setCode_asked]; exact hq)
  | intrOn | intrOff => exact (hgo _).congr rfl rfl (fun _ _ _ ↦ rfl)
  | allocproc q =>
    rw [execCall]
    split
    · next hfree =>
      refine ha.congr rfl rfl ?_
      intro q' x hq'
      obtain ⟨-, c', hc', -⟩ := ha q' x.1 x.2 hq'
      have hrun : (s.proc q).state ≠ .RUNNING := by
        rw [hfree]
        exact ProcState.noConfusion
      have hoff := h.off_of_held hf (client_other h hthread hk hrun) hrun
      have hqq : q' ≠ q := by
        rintro rfl
        exact hoff c' hc'
      exact Function.update_of_ne hqq _ _
    · exact ha
  | start | freeproc => exact ha.congr rfl rfl (fun _ _ _ ↦ rfl)
  | kill q =>
    rw [execCall]
    split
    · exact ha.congr rfl rfl (fun _ _ _ ↦ rfl)
    · exact ha

omit [DecidableEq H] in
theorem interrupt_ask (h : Inv s) (ha : AskOk s) (i : Interrupt L H)
    (hsie : (s.cpu c).sie = true) :
    AskOk ((s.setCode c (i.handler ++ s.code c)).setCpu c { s.cpu c with sie := false }) := by
  intro p chan lk hp
  have hp' : s.asked p = some (chan, lk) := by
    rw [← setCode_asked (s := s) (c := c)]
    exact hp
  obtain ⟨hask, c', hthread, hlk, hpending⟩ := ha p chan lk hp'
  -- a CPU that holds a lock takes no interrupt
  have hne : c' ≠ c := by
    rintro rfl
    rw [h.sie_of_held hlk] at hsie
    cases hsie
  have hother : (s.cpu c).thread ≠ some p := fun hc ↦ hne (h.one c' c p hthread hc)
  refine ⟨?_, c', ?_⟩
  · change Asks p chan lk ((s.setCode c (i.handler ++ s.code c)).kern p)
    rw [setCode_kern _ hother]
    exact hask
  · have hcpu : ((s.setCode c (i.handler ++ s.code c)).setCpu c
        { s.cpu c with sie := false }).cpu c' = (s.setCode c (i.handler ++ s.code c)).cpu c' :=
      Function.update_of_ne hne _ _
    rw [hcpu, setCode_cpu]
    exact ⟨hthread, hlk, hpending⟩

/-- Every step keeps it that whoever asked to sleep holds the lock. -/
theorem step_ask {t : State L H} {a : Act L H} (h : Inv s) (ha : AskOk s)
    (hstep : s.step a = some t) : AskOk t := by
  cases a with
  | exec c =>
    rw [step] at hstep
    cases hcode : s.code c with
    | nil =>
      rw [hcode] at hstep
      cases hstep
    | cons i k =>
      rw [hcode] at hstep
      cases hstep
      exact exec_ask h ha hcode
  | call c f =>
    rw [step] at hstep
    cases hthread : (s.cpu c).thread with
    | none =>
      rw [hthread] at hstep
      cases hstep
    | some p =>
      rw [hthread] at hstep
      obtain ⟨⟨hk, hf⟩, hstep⟩ := Option.ite_none_right_eq_some.mp hstep
      cases hstep
      exact call_ask h ha hthread hk hf
  | interrupt c i =>
    rw [step] at hstep
    obtain ⟨hsie, hstep⟩ := Option.ite_none_right_eq_some.mp hstep
    cases hstep
    exact interrupt_ask h ha i hsie

omit [DecidableEq L] [DecidableEq H] in
theorem boot_ask : AskOk (boot : State L H) := by
  intro p chan lk hp
  cases hp

end

end Xv6.Smp
