import Xv6.Smp.Asked

/-!
# No wakeup is lost

`sleep` takes the lock of the slot before it releases the lock of its caller, so that a process
has begun to sleep before anyone can take that lock again. `wakeup` takes the lock of each slot
in turn. So the loop of a `wakeup` passes every slot that had begun to sleep on its channel when
the loop began, at a time when that process is off its CPU and its slot says that it sleeps.
While the loop runs, a slot that it still has to wake is one that it still has to visit.
-/

namespace Xv6.Smp

open State Lib

variable {L H : Type}

/-- The instruction is about to wake slot `q`, if it sleeps on `chan`. -/
def Instr.Visits (q : Slot) (chan : H) : Instr L H → Prop
  | .readProc (.wakeup q' chan') | .wake q' chan' => q' = q ∧ chan' = chan
  | _ => False

/-- No loop of `wakeup` ends in this code. -/
def Straight (k : Code L H) : Prop := ∀ chan due, .wakeEnd chan due ∉ k

/-- Each loop of `wakeup` that ends in the code `k` still visits the slots that were asleep
when it began and are so in the same nap. -/
def DueOk (proc : Slot → Proc H) (k : Code L H) : Prop :=
  ∀ (before after : Code L H) (chan : H) (due : List (Slot × Nat)),
    k = before ++ .wakeEnd chan due :: after → ∀ q n, (q, n) ∈ due →
      n ≤ (proc q).naps ∧ ((proc q).naps = n → (proc q).dozing = some chan →
        ∃ i ∈ before, i.Visits q chan)

/-- The same for the code of all threads. -/
structure WakeOk (s : State L H) : Prop where
  kern : ∀ p, DueOk s.proc (s.kern p)
  sched : ∀ c, DueOk s.proc (s.sched c)

theorem Straight.dueOk {proc : Slot → Proc H} {k : Code L H} (hk : Straight k) :
    DueOk proc k := by
  intro before after chan due heq
  exact (hk chan due (heq ▸ List.mem_append_right _ List.mem_cons_self)).elim

theorem straight_nil : Straight ([] : Code L H) := fun _ _ hmem ↦ by cases hmem

/-- Straight code in front of other code. -/
theorem Straight.split {new k before after : Code L H} {chan : H} {due : List (Slot × Nat)}
    (hnew : Straight new) (heq : new ++ k = before ++ .wakeEnd chan due :: after) :
    ∃ rest, before = new ++ rest ∧ k = rest ++ .wakeEnd chan due :: after := by
  rcases List.append_eq_append_iff.mp heq with ⟨rest, hb, hk⟩ | ⟨rest, hn, hk⟩
  · exact ⟨rest, hb, hk⟩
  · cases rest with
    | nil =>
      rw [List.append_nil] at hn
      exact ⟨[], by rw [hn, List.append_nil], hk.symm⟩
    | cons i rest =>
      have hi := (List.cons.inj hk).1
      refine (hnew chan due ?_).elim
      rw [hn, hi]
      exact List.mem_append_right _ List.mem_cons_self

/-- The head of the code is replaced by code that visits what it was to visit. -/
theorem DueOk.replace {proc : Slot → Proc H} {i : Instr L H} {k new : Code L H}
    (h : DueOk proc (i :: k)) (hnew : Straight new)
    (hvisit : ∀ q chan, i.Visits q chan → (proc q).dozing = some chan →
      ∃ j ∈ new, j.Visits q chan) : DueOk proc (new ++ k) := by
  intro before after chan due heq q n hmem
  obtain ⟨rest, rfl, hk⟩ := hnew.split heq
  obtain ⟨hle, hdue⟩ := h (i :: rest) after chan due (by rw [hk]; rfl) q n hmem
  refine ⟨hle, ?_⟩
  intro hn hd
  obtain ⟨j, hj, hv⟩ := hdue hn hd
  rcases List.mem_cons.mp hj with rfl | hj
  · obtain ⟨j', hj', hv'⟩ := hvisit q chan hv hd
    exact ⟨j', List.mem_append_left _ hj', hv'⟩
  · exact ⟨j, List.mem_append_right _ hj, hv⟩

/-- An instruction that visits no slot is done. -/
theorem DueOk.tail {proc : Slot → Proc H} {i : Instr L H} {k : Code L H}
    (h : DueOk proc (i :: k)) (hi : ∀ q chan, i.Visits q chan → (proc q).dozing ≠ some chan) :
    DueOk proc k :=
  h.replace straight_nil (fun q chan hv hd ↦ (hi q chan hv hd).elim)

/-- A handler goes in front of the code that it interrupts. -/
theorem DueOk.prepend {proc : Slot → Proc H} {k new : Code L H} (h : DueOk proc k)
    (hnew : Straight new) : DueOk proc (new ++ k) := by
  intro before after chan due heq q n hmem
  obtain ⟨rest, rfl, hk⟩ := hnew.split heq
  obtain ⟨hle, hdue⟩ := h rest after chan due hk q n hmem
  refine ⟨hle, ?_⟩
  intro hn hd
  obtain ⟨j, hj, hv⟩ := hdue hn hd
  exact ⟨j, List.mem_append_right _ hj, hv⟩

/-- Slots may wake, or begin another nap. -/
structure Settles (proc proc' : Slot → Proc H) : Prop where
  naps : ∀ q, (proc q).naps ≤ (proc' q).naps
  dozing : ∀ q chan, (proc' q).naps = (proc q).naps → (proc' q).dozing = some chan →
    (proc q).dozing = some chan

theorem DueOk.settle {proc proc' : Slot → Proc H} {k : Code L H} (h : DueOk proc k)
    (hs : Settles proc proc') : DueOk proc' k := by
  intro before after chan due heq q n hmem
  obtain ⟨hle, hdue⟩ := h before after chan due heq q n hmem
  refine ⟨hle.trans (hs.naps q), ?_⟩
  intro hn hd
  have hsame : (proc' q).naps = (proc q).naps :=
    Nat.le_antisymm (hn ▸ hle) (hs.naps q)
  exact hdue (hsame ▸ hn) (hs.dozing q chan hsame hd)

theorem settles_update {proc : Slot → Proc H} {q : Slot} {r : Proc H}
    (hnaps : (proc q).naps ≤ r.naps)
    (hdozing : ∀ chan, r.naps = (proc q).naps → r.dozing = some chan →
      (proc q).dozing = some chan) : Settles proc (Function.update proc q r) := by
  constructor
  · intro p
    by_cases hp : p = q
    · subst hp
      rw [Function.update_self]
      exact hnaps
    · rw [Function.update_of_ne hp]
  · intro p chan
    by_cases hp : p = q
    · subst hp
      rw [Function.update_self]
      exact hdozing chan
    · rw [Function.update_of_ne hp]
      exact fun _ hd ↦ hd

section
variable {s : State L H} {c : Hart} {k : Code L H}

theorem WakeOk.code (h : WakeOk s) : DueOk s.proc (s.code c) := by
  rw [State.code]
  cases (s.cpu c).thread with
  | none => exact h.sched c
  | some p => exact h.kern p

theorem WakeOk.setCode (h : WakeOk s) (hk : DueOk s.proc k) : WakeOk (s.setCode c k) := by
  constructor
  · intro p
    rw [setCode_proc]
    by_cases hp : (s.cpu c).thread = some p
    · rw [setCode_kern_self k hp]
      exact hk
    · rw [setCode_kern k hp]
      exact h.kern p
  · intro c'
    rw [setCode_proc]
    by_cases hc : c' ≠ c ∨ (s.cpu c).thread ≠ none
    · rw [setCode_sched k hc]
      exact h.sched c'
    · obtain ⟨hc, ht⟩ := not_or.mp hc
      have hself : (s.setCode c k).sched c' = k := by
        unfold State.setCode
        rw [Decidable.not_not.mp ht, Decidable.not_not.mp hc]
        exact Function.update_self _ _ _
      rw [hself]
      exact hk

theorem WakeOk.settle {t : State L H} (h : WakeOk s) (hkern : t.kern = s.kern)
    (hsched : t.sched = s.sched) (hs : Settles s.proc t.proc) : WakeOk t := by
  constructor
  · intro p
    rw [hkern]
    exact (h.kern p).settle hs
  · intro c'
    rw [hsched]
    exact (h.sched c').settle hs

theorem WakeOk.setProc (h : WakeOk s) {q : Slot} {r : Proc H} (hnaps : (s.proc q).naps ≤ r.naps)
    (hdozing : ∀ chan, r.naps = (s.proc q).naps → r.dozing = some chan →
      (s.proc q).dozing = some chan) : WakeOk (s.setProc q r) :=
  h.settle rfl rfl (settles_update hnaps hdozing)

theorem settles_rouse {q : Slot} : Settles s.proc (s.rouse q).proc :=
  settles_update (Nat.le_refl _) (fun chan _ he ↦ by cases he)

theorem WakeOk.rouse (h : WakeOk s) {q : Slot} : WakeOk (s.rouse q) :=
  h.settle rfl rfl settles_rouse

theorem rouse_proc_self {q : Slot} :
    (s.rouse q).proc q = { s.proc q with state := .RUNNABLE, dozing := none } :=
  Function.update_self _ _ _

theorem setCode_rouse {q : Slot} : (s.setCode c k).rouse q = (s.rouse q).setCode c k := by
  have hcpu : (s.rouse q).cpu = s.cpu := rfl
  simp only [State.setCode, hcpu]
  cases (s.cpu c).thread with
  | none => rfl
  | some p => rfl

end

/-! ### Code without the end of a loop -/

theorem straight_acquire (lk : Lock L) : Straight (acquire lk : Code L H) := by
  intro chan due hmem
  simp [acquire, pushOff] at hmem

theorem straight_release (lk : Lock L) : Straight (release lk : Code L H) := by
  intro chan due hmem
  simp [release, popOff] at hmem

theorem straight_withMyproc (u : Use L H) : Straight (withMyproc u) := by
  intro chan due hmem
  simp [withMyproc, pushOff] at hmem

theorem straight_wakeLoop (chan : H) : Straight (wakeLoop chan : Code L H) := by
  intro chan' due hmem
  simp [wakeLoop, withMyproc, pushOff] at hmem

theorem straight_scan : Straight (scan : Code L H) := by
  intro chan due hmem
  simp [scan, scanSlot, acquire, release, pushOff, popOff] at hmem

theorem straight_body (p : Option Slot) (u : Use L H) : Straight (popOff ++ u.body p) := by
  intro chan due hmem
  cases u <;> cases p <;>
    simp [Use.body, popOff, nullProc, acquire, release, pushOff, Smp.sched, withMyproc] at hmem

theorem straight_handler (i : Interrupt L H) : Straight i.handler := by
  intro chan due hmem
  cases i with
  | timer ticks =>
    cases ticks <;>
      simp [Interrupt.handler, notify, withMyproc, acquire, release, pushOff, popOff] at hmem
  | device sections =>
    simp [Interrupt.handler, notify, acquire, release, pushOff, popOff] at hmem

/-- The loop of `wakeup` visits every slot. -/
theorem wakeLoop_visits (q : Slot) (chan : H) :
    ∃ i ∈ (wakeLoop chan : Code L H), i.Visits q chan := by
  refine ⟨.readProc (.wakeup q chan), ?_, rfl, rfl⟩
  apply List.mem_flatMap_of_mem (List.mem_finRange q)
  exact List.mem_append_right _ List.mem_cons_self

/-! ### Steps -/

section
variable [DecidableEq L] [DecidableEq H] {s : State L H} {c : Hart} {k : Code L H}

omit [DecidableEq L] in
theorem mem_asleep {chan : H} {q : Slot} {n : Nat} :
    (q, n) ∈ s.asleep chan ↔ (s.proc q).dozing = some chan ∧ (s.proc q).naps = n := by
  simp only [State.asleep, List.mem_map, List.mem_filter, List.mem_finRange, true_and,
    decide_eq_true_eq, Prod.mk.injEq]
  constructor
  · rintro ⟨p, hd, rfl, rfl⟩
    exact ⟨hd, rfl⟩
  · rintro ⟨hd, rfl⟩
    exact ⟨q, hd, rfl, rfl⟩

omit [DecidableEq L] in
/-- A loop of `wakeup` begins with all the slots that are asleep before it. -/
theorem due_wakeBegin {chan : H} (h : DueOk s.proc (.wakeBegin chan :: k)) :
    DueOk s.proc (wakeLoop chan ++ .wakeEnd chan (s.asleep chan) :: k) := by
  have hk : DueOk s.proc k := h.tail (fun _ _ hv ↦ by cases hv)
  intro before after chan' due heq q n hmem
  obtain ⟨rest, rfl, hrest⟩ := (straight_wakeLoop chan).split heq
  cases rest with
  | nil =>
    cases hrest
    obtain ⟨hd, rfl⟩ := mem_asleep.mp hmem
    refine ⟨Nat.le_refl _, fun _ _ ↦ ?_⟩
    obtain ⟨i, hi, hv⟩ := wakeLoop_visits (L := L) q chan
    exact ⟨i, List.mem_append_left _ hi, hv⟩
  | cons i rest =>
    obtain ⟨hle, hdue⟩ := hk rest after chan' due (List.cons.inj hrest).2 q n hmem
    refine ⟨hle, fun hn hd ↦ ?_⟩
    obtain ⟨j, hj, hv⟩ := hdue hn hd
    exact ⟨j, List.mem_append_right _ (List.mem_cons_of_mem _ hj), hv⟩

omit [DecidableEq H] in
/-- A process on a CPU does not doze, unless it holds the lock of its slot. -/
theorem Inv.not_dozing (h : Inv s) {q : Slot} (hlk : .proc q ∈ (s.cpu c).held)
    (hother : (s.cpu c).thread ≠ some q) {chan : H} (hd : (s.proc q).dozing = some chan) :
    (s.proc q).state = .SLEEPING ∧ (s.proc q).chan = some chan := by
  have hsl : (s.proc q).state = .SLEEPING := by
    by_contra hne
    by_cases hoff : s.Off q
    · rw [(h.rests q hoff).2 hne] at hd
      cases hd
    · obtain ⟨c', hc'⟩ := not_forall.mp hoff
      have hthread := Decidable.not_not.mp hc'
      have hc : c' ≠ c := by
        rintro rfl
        exact hother hthread
      rw [(h.state_of_runs hthread (h.not_others hlk hc)).2] at hd
      cases hd
  have hoff := h.off_of_held hlk hother (by rw [hsl]; exact fun he ↦ by cases he)
  exact ⟨hsl, ((h.rests q hoff).1 hsl).2.trans hd⟩

theorem exec_wake (h : Inv s) (hw : WakeOk s) {i : Instr L H} (hcode : s.code c = i :: k) :
    WakeOk (s.execInstr c k i) := by
  obtain ⟨me, hme, hv⟩ := h.runs c
  rw [hcode] at hv
  have hdue : DueOk s.proc (i :: k) := hcode ▸ hw.code
  -- instructions that visit no slot
  have hplain (hi : ∀ q chan, ¬ i.Visits q chan) : WakeOk (s.setCode c k) :=
    hw.setCode (hdue.tail (fun q chan hv _ ↦ hi q chan hv))
  have hnew (new : Code L H) (hi : ∀ q chan, ¬ i.Visits q chan) (hs : Straight new) :
      WakeOk (s.setCode c (new ++ k)) :=
    hw.setCode (hdue.replace hs (fun q chan hv _ ↦ (hi q chan hv).elim))
  have hfail (msg : String) : WakeOk (s.fail msg) := ⟨hw.kern, hw.sched⟩
  cases i with
  | intrGet =>
    refine hnew [.intrOff, .noffInc (s.cpu c).sie] (fun _ _ hv ↦ by cases hv) ?_
    intro chan due hmem
    simp at hmem
  | intrOff | intrOn | sret | noffInc | noffDec | intrRestore | swtch | setIntena | swtchTo
  | clearProc | setCpu | clearCpu | lockRelease =>
    have := hplain (fun _ _ hv ↦ by cases hv)
    exact ⟨this.kern, this.sched⟩
  | wakeEnd => exact hplain (fun _ _ hv ↦ by cases hv)
  | notHolding lk | isHolding lk | popTest | schedTest p =>
    rw [execInstr]
    have := hplain (fun _ _ hv ↦ by cases hv)
    repeat' split
    all_goals first | exact hfail _ | exact this
  | testAndSet lk =>
    rw [execInstr]
    split
    · exact hw
    · have := hplain (fun _ _ hv ↦ by cases hv)
      exact ⟨this.kern, this.sched⟩
  | readProc u =>
    rw [execInstr]
    refine hw.setCode (hdue.replace (straight_body _ _) ?_)
    intro q chan hvis hd
    cases hv with
    | readProc hsie hself hv =>
      cases u with
      | wakeup q' chan' =>
        obtain ⟨rfl, rfl⟩ := hvis
        obtain ⟨hproc, hawake⟩ := hself q' chan' rfl
        -- the process that runs the loop is not asleep
        have hne : (s.cpu c).proc ≠ some q' := by
          intro hp
          have hof := hme.own q' (hproc.symm.trans hp)
          rw [← hof.dozing, hawake] at hd
          cases hd
        refine ⟨.wake q' chan', List.mem_append_right _ ?_, rfl, rfl⟩
        rw [Use.body, if_neg hne]
        simp
      | sched | yield | sleep | exit | forkret | trapLive | trapState => cases hvis
  | setState p state | setChan p chan =>
    have := hplain (fun _ _ hv ↦ by cases hv)
    apply this.setProc
    · rw [setCode_proc]
    · rw [setCode_proc]
      exact fun _ _ hd ↦ hd
  | doze p chan =>
    have hset := (hplain (fun _ _ hv ↦ by cases hv)).setProc (q := p)
      (r := { s.proc p with naps := (s.proc p).naps + 1, dozing := some chan }) ?_ ?_
    · exact ⟨hset.kern, hset.sched⟩
    · rw [setCode_proc]
      exact Nat.le_succ _
    · rw [setCode_proc]
      exact fun _ he ↦ (Nat.succ_ne_self _ he).elim
  | wake q chan =>
    cases hv with
    | wake hsie hlk hother hv =>
      rw [execInstr]
      split
      · next hsl =>
        have hk : DueOk (s.rouse q).proc k := by
          have hsettled := hdue.settle (settles_rouse (s := s) (q := q))
          apply hsettled.tail
          rintro q' chan' ⟨rfl, rfl⟩
          rw [rouse_proc_self]
          exact fun he ↦ by cases he
        rw [setCode_rouse]
        exact hw.rouse.setCode hk
      · next hno =>
        apply hw.setCode
        apply hdue.tail
        rintro q' chan' ⟨rfl, rfl⟩ hd
        exact hno (h.not_dozing hlk hother hd)
  | saveIntena =>
    refine hnew [.swtch, .setIntena (s.cpu c).intena] (fun _ _ hv ↦ by cases hv) ?_
    intro chan due hmem
    simp at hmem
  | tryRun q =>
    rw [execInstr]
    split
    · have hn : WakeOk (s.setCode c (.swtchTo q :: .clearProc :: k)) := by
        refine hnew [.swtchTo q, .clearProc] (fun _ _ hv ↦ by cases hv) ?_
        intro chan due hmem
        simp at hmem
      have hp := hn.setProc (q := q) (r := { s.proc q with state := .RUNNING }) ?_ ?_
      · exact ⟨hp.kern, hp.sched⟩
      · rw [setCode_proc]
      · rw [setCode_proc]
        exact fun _ _ hd ↦ hd
    · exact hplain (fun _ _ hv ↦ by cases hv)
  | loop => exact hnew _ (fun _ _ hv ↦ by cases hv) straight_scan
  | trapYield p =>
    rw [execInstr]
    split
    · exact hnew _ (fun _ _ hv ↦ by cases hv) (straight_withMyproc _)
    · exact hplain (fun _ _ hv ↦ by cases hv)
  | panic msg => exact hfail msg
  | wakeBegin chan => exact hw.setCode (due_wakeBegin hdue)
  | adopt =>
    have := hplain (fun _ _ hv ↦ by cases hv)
    rw [execInstr]
    split
    · exact ⟨this.kern, this.sched⟩
    · exact this

omit [DecidableEq L] [DecidableEq H] in
/-- A thread starts a call where it has no code left. -/
theorem call_wake (p : Slot) (f : Call L H) (hw : WakeOk s) : WakeOk (s.execCall c p f) := by
  have hstraight (new : Code L H) (hnew : Straight new) : WakeOk (s.setCode c new) :=
    hw.setCode hnew.dueOk
  cases f with
  | acquire lk => exact hstraight _ (straight_acquire lk)
  | release lk => exact hstraight _ (straight_release lk)
  | yield | exit => exact hstraight _ (straight_withMyproc _)
  | sleep chan lk =>
    have h := hstraight (sleep chan lk) (straight_withMyproc _)
    exact ⟨h.kern, h.sched⟩
  | wakeup chan =>
    apply hstraight
    intro chan' due hmem
    simp at hmem
  | intrOn =>
    have h := hstraight [.intrOn] (fun chan due hmem ↦ by simp at hmem)
    exact ⟨h.kern, h.sched⟩
  | intrOff =>
    have h := hstraight [.intrOff] (fun chan due hmem ↦ by simp at hmem)
    exact ⟨h.kern, h.sched⟩
  | allocproc q =>
    rw [execCall]
    split
    · have hp := hw.setProc (q := q) (r := { s.proc q with state := .USED }) (Nat.le_refl _)
        (fun _ _ hd ↦ hd)
      refine ⟨?_, hp.sched⟩
      intro p'
      change DueOk _ (Function.update s.kern q forkret p')
      by_cases hp' : p' = q
      · rw [hp', Function.update_self]
        exact (straight_withMyproc _).dueOk
      · rw [Function.update_of_ne hp']
        exact hp.kern p'
    · exact hw
  | start q | freeproc q => exact hw.setProc (Nat.le_refl _) (fun _ _ hd ↦ hd)
  | kill q =>
    rw [execCall]
    split
    · exact hw.rouse
    · exact hw

omit [DecidableEq L] [DecidableEq H] in
theorem interrupt_wake (hw : WakeOk s) (i : Interrupt L H) :
    WakeOk ((s.setCode c (i.handler ++ s.code c)).setCpu c { s.cpu c with sie := false }) := by
  have h := hw.setCode (c := c) ((hw.code (c := c)).prepend (straight_handler i))
  exact ⟨h.kern, h.sched⟩

/-- Every step keeps it that no loop of `wakeup` passes over a slot. -/
theorem step_wake {t : State L H} {a : Act L H} (h : Inv s) (hw : WakeOk s)
    (hstep : s.step a = some t) : WakeOk t := by
  cases a with
  | exec c =>
    rw [step] at hstep
    cases hcode : s.code c with
    | nil =>
      rw [hcode] at hstep
      cases hstep
    | cons i k =>
      rw [hcode] at hstep
      cases hstep
      exact exec_wake h hw hcode
  | call c f =>
    rw [step] at hstep
    cases hthread : (s.cpu c).thread with
    | none =>
      rw [hthread] at hstep
      cases hstep
    | some p =>
      rw [hthread] at hstep
      obtain ⟨-, hstep⟩ := Option.ite_none_right_eq_some.mp hstep
      cases hstep
      exact call_wake p f hw
  | interrupt c i =>
    rw [step] at hstep
    obtain ⟨-, hstep⟩ := Option.ite_none_right_eq_some.mp hstep
    cases hstep
    exact interrupt_wake hw i

omit [DecidableEq L] [DecidableEq H] in
theorem boot_wake : WakeOk (boot : State L H) := by
  constructor
  · intro p
    apply Straight.dueOk
    change Straight (if p = 0 then forkret else [])
    split
    · exact straight_withMyproc _
    · exact fun _ _ hmem ↦ by cases hmem
  · intro c
    apply Straight.dueOk
    intro chan due hmem
    simp [boot] at hmem

/-! ### What every run keeps -/

/-- From its call of `sleep` until it begins to sleep, a process is on a CPU that holds the lock
that it passed. From then on it is found by `wakeup` as soon as its slot is unlocked: it is
SLEEPING on its channel. When a loop of `wakeup` is over, each process that had begun to sleep on
the channel when the loop began has been woken, and maybe sleeps again. -/
structure NoLostWakeup (s : State L H) : Prop where
  asked : ∀ p chan lk, s.asked p = some (chan, lk) →
    ∃ c, (s.cpu c).thread = some p ∧ s.holding c lk = true
  asleep : ∀ p chan, (s.lock (.proc p)).locked = false →
    ((s.proc p).dozing = some chan ↔
      (s.proc p).state = .SLEEPING ∧ (s.proc p).chan = some chan)
  ended : ∀ c chan due k, s.code c = .wakeEnd chan due :: k → ∀ q n, (q, n) ∈ due →
    n ≤ (s.proc q).naps ∧ ((s.proc q).naps = n → (s.proc q).dozing ≠ some chan)

omit [DecidableEq H] in
theorem Inv.asleep (h : Inv s) {p : Slot} {chan : H} (hfree : (s.lock (.proc p)).locked = false) :
    (s.proc p).dozing = some chan ↔
      (s.proc p).state = .SLEEPING ∧ (s.proc p).chan = some chan := by
  by_cases hoff : s.Off p
  · obtain ⟨hsl, hno⟩ := h.rests p hoff
    constructor
    · intro hd
      have hstate : (s.proc p).state = .SLEEPING := by
        by_contra hne
        rw [hno hne] at hd
        cases hd
      exact ⟨hstate, (hsl hstate).2.trans hd⟩
    · rintro ⟨hstate, hchan⟩
      exact (hsl hstate).2.symm.trans hchan
  · obtain ⟨c, hc⟩ := not_forall.mp hoff
    have hlk : .proc p ∉ (s.cpu c).held := by
      intro hmem
      have hlocked := (h.locked (.proc p)).mpr ⟨c, hmem⟩
      rw [hfree] at hlocked
      cases hlocked
    obtain ⟨hrun, hd⟩ := h.state_of_runs (Decidable.not_not.mp hc) hlk
    rw [hrun, hd]
    simp

omit [DecidableEq L] [DecidableEq H] in
theorem WakeOk.ended (hw : WakeOk s) {chan : H} {due : List (Slot × Nat)}
    (hcode : s.code c = .wakeEnd chan due :: k) {q : Slot} {n : Nat} (hmem : (q, n) ∈ due) :
    n ≤ (s.proc q).naps ∧ ((s.proc q).naps = n → (s.proc q).dozing ≠ some chan) := by
  obtain ⟨hle, hdue⟩ := hw.code [] k chan due hcode q n hmem
  refine ⟨hle, ?_⟩
  intro hn hd
  obtain ⟨i, hi, -⟩ := hdue hn hd
  cases hi

omit [DecidableEq H] in
theorem AskOk.holds (ha : AskOk s) (h : Inv s) {p : Slot} {chan : H} {lk : Lock L}
    (hp : s.asked p = some (chan, lk)) :
    ∃ c, (s.cpu c).thread = some p ∧ s.holding c lk = true := by
  obtain ⟨-, c, hthread, hlk, hpending⟩ := ha p chan lk hp
  exact ⟨c, hthread, (h.holding lk).mpr ⟨hlk, hpending⟩⟩

theorem no_wakeup_lost (as : List (Act L H)) : Always State.step NoLostWakeup boot as :=
  always_of_invariant (J := fun s ↦ Inv s ∧ AskOk s ∧ WakeOk s)
    (fun _ hs ↦ ⟨fun _ _ _ ↦ hs.2.1.holds hs.1, fun _ _ ↦ hs.1.asleep,
      fun _ _ _ _ hcode _ _ ↦ hs.2.2.ended hcode⟩)
    (fun _ _ _ hs hstep ↦
      ⟨step_inv hs.1 hstep, step_ask hs.1 hs.2.1 hstep, step_wake hs.1 hs.2.2 hstep⟩)
    ⟨boot_inv, boot_ask, boot_wake⟩ as

end

end Xv6.Smp
