import Xv6.Smp.Model

/-!
# Rules for kernel code

What a thread may rely on at each instruction: the nesting of `push_off`, the interrupts and
the locks of its CPU, and the state of its own slot. A rule says what an instruction needs and
what it leaves to the rest of the code. A thread that gives up its CPU comes back on any CPU,
which then holds the lock of its slot and nothing else.
-/

namespace Xv6.Smp

variable {L H : Type}

/-- The CPU has just switched threads: it holds the lock of slot `p` alone. -/
structure Cpu.Switched (p : Slot) (v : Cpu L) : Prop where
  noff : v.noff = 1
  sie : v.sie = false
  held : v.held = [.proc p]
  pending : v.pending = none
  proc : v.proc = some p
  next : v.next = none

/-- The CPU is in no critical section. -/
structure Cpu.Free (v : Cpu L) : Prop where
  noff : v.noff = 0
  held : v.held = []
  pending : v.pending = none
  next : v.next = none

/-- What a thread knows of its own slot. It need not know `p->chan`. -/
structure Own (H : Type) where
  state : ProcState
  dozing : Option H
  chan : Option H

/-- The process runs; all that a thread knows without the lock of its slot. -/
def Own.awake : Own H := ⟨.RUNNING, none, none⟩

/-- The slot is as the thread believes. -/
structure Own.Of (r : Proc H) (me : Own H) : Prop where
  state : me.state = r.state
  dozing : me.dozing = r.dozing
  chan : me.chan ≠ none → me.chan = r.chan

/-- The process waits to run, or for a `wakeup`. -/
def Own.Parked (me : Own H) : Prop :=
  me.state = .RUNNABLE ∧ me.dozing = none ∨
    me.state = .SLEEPING ∧ me.dozing ≠ none ∧ me.chan = me.dozing

/-- After `push_off`. -/
def Cpu.pushed (v : Cpu L) : Cpu L :=
  { v with sie := false, intena := if v.noff = 0 then v.sie else v.intena, noff := v.noff + 1 }

/-- After the decrement of `pop_off`. -/
def Cpu.popped (v : Cpu L) : Cpu L :=
  { v with noff := v.noff - 1, sie := decide (v.noff - 1 = 0) && v.intena }

/-- The code `k` is valid for a thread on a CPU in state `v`, which knows `me` of its slot, and
which asked for interrupts as `want` says. -/
inductive Valid [DecidableEq L] (want : Bool) : Cpu L → Own H → Code L H → Prop
  | client {v : Cpu L} {me : Own H} {p : Slot} (hthread : v.thread = some p) (hme : me = .awake)
      (hpending : v.pending = none) (hnext : v.next = none) (hnoff : v.noff = v.held.length)
      (hwant : (if v.noff = 0 then v.sie else v.intena) = want) : Valid want v me []
  | intrGet {v : Cpu L} {me : Own H} {k : Code L H} (h : Valid want v.pushed me k) :
      Valid want v me (.intrGet :: k)
  | intrOff {v : Cpu L} {me : Own H} {k : Code L H}
      (h : ∀ i, (v.noff ≠ 0 → i = v.intena) →
        Valid want { v with sie := false, intena := i } me k) : Valid want v me (.intrOff :: k)
  | intrOn {v : Cpu L} {me : Own H} {k : Code L H} (hfree : v.Free)
      (h : ∀ i, Valid want { v with sie := true, intena := i } me k) :
      Valid want v me (.intrOn :: k)
  | sret {v : Cpu L} {me : Own H} {k : Code L H} (hsie : v.sie = false) (hfree : v.Free)
      (h : ∀ i, Valid want { v with sie := true, intena := i } me k) :
      Valid want v me (.sret :: k)
  | noffInc {v : Cpu L} {me : Own H} {k : Code L H} {old : Bool} (hsie : v.sie = false)
      (h : Valid want { v with
        intena := if v.noff = 0 then old else v.intena, noff := v.noff + 1 } me k) :
      Valid want v me (.noffInc old :: k)
  | notHolding {v : Cpu L} {me : Own H} {k : Code L H} {lk : Lock L} (hsie : v.sie = false)
      (hlk : lk ∉ v.held) (h : Valid want v me k) : Valid want v me (.notHolding lk :: k)
  | testAndSet {v : Cpu L} {me : Own H} {k : Code L H} {lk : Lock L} (hsie : v.sie = false)
      (hpending : v.pending = none) (hlk : lk ∉ v.held) (hdepth : v.held.length < v.noff)
      (h : Valid want { v with held := lk :: v.held, pending := some lk } me k) :
      Valid want v me (.testAndSet lk :: k)
  | setCpu {v : Cpu L} {me : Own H} {k : Code L H} {lk : Lock L} (hsie : v.sie = false)
      (hpending : v.pending = some lk) (h : Valid want { v with pending := none } me k) :
      Valid want v me (.setCpu lk :: k)
  | isHolding {v : Cpu L} {me : Own H} {k : Code L H} {lk : Lock L} (hsie : v.sie = false)
      (hpending : v.pending = none) (hlk : lk ∈ v.held) (h : Valid want v me k) :
      Valid want v me (.isHolding lk :: k)
  | clearCpu {v : Cpu L} {me : Own H} {k : Code L H} {lk : Lock L} (hsie : v.sie = false)
      (hpending : v.pending = none) (hlk : lk ∈ v.held)
      (h : Valid want { v with pending := some lk } me k) : Valid want v me (.clearCpu lk :: k)
  | lockRelease {v : Cpu L} {me : Own H} {k : Code L H} {lk : Lock L} (hsie : v.sie = false)
      (hpending : v.pending = some lk) (hnext : v.next = none)
      (hown : ∀ p, v.thread = some p → lk = .proc p → me = .awake)
      (h : Valid want { v with held := v.held.erase lk, pending := none } me k) :
      Valid want v me (.lockRelease lk :: k)
  | popTest {v : Cpu L} {me : Own H} {k : Code L H} (hsie : v.sie = false) (hnoff : 1 ≤ v.noff)
      (h : Valid want v me k) : Valid want v me (.popTest :: k)
  | noffDec {v : Cpu L} {me : Own H} {k : Code L H} (hsie : v.sie = false)
      (hdepth : v.held.length < v.noff) (hidle : v.noff = 1 → v.proc = v.thread)
      (h : Valid want { v with noff := v.noff - 1 } me k) :
      Valid want v me (.noffDec :: k)
  | intrRestore {v : Cpu L} {me : Own H} {k : Code L H} (hsie : v.sie = false)
      (h : Valid want { v with sie := decide (v.noff = 0) && v.intena } me k) :
      Valid want v me (.intrRestore :: k)
  | readProc {v : Cpu L} {me : Own H} {k : Code L H} {u : Use L H} (hsie : v.sie = false)
      (hself : ∀ q chan, u = .wakeup q chan → v.proc = v.thread ∧ me.dozing = none)
      (h : Valid want v me (popOff ++ u.body v.proc ++ k)) : Valid want v me (.readProc u :: k)
  | setState {v : Cpu L} {me : Own H} {k : Code L H} {p : Slot} {state : ProcState}
      (hsie : v.sie = false) (hthread : v.thread = some p) (hlk : .proc p ∈ v.held)
      (h : Valid want v { me with state := state } k) : Valid want v me (.setState p state :: k)
  | setChan {v : Cpu L} {me : Own H} {k : Code L H} {p : Slot} {chan : Option H}
      (hsie : v.sie = false) (hthread : v.thread = some p) (hlk : .proc p ∈ v.held)
      (h : Valid want v { me with chan := chan } k) : Valid want v me (.setChan p chan :: k)
  | doze {v : Cpu L} {me : Own H} {k : Code L H} {p : Slot} {chan : H} (hsie : v.sie = false)
      (hthread : v.thread = some p) (hlk : .proc p ∈ v.held)
      (h : Valid want v { me with dozing := some chan } k) :
      Valid want v me (.doze p chan :: k)
  | wake {v : Cpu L} {me : Own H} {k : Code L H} {q : Slot} {chan : H} (hsie : v.sie = false)
      (hlk : .proc q ∈ v.held) (hother : v.thread ≠ some q) (h : Valid want v me k) :
      Valid want v me (.wake q chan :: k)
  | schedTest {v : Cpu L} {me : Own H} {k : Code L H} {p : Slot} (hthread : v.thread = some p)
      (hsw : v.Switched p) (hstate : me.state ≠ .RUNNING) (h : Valid want v me k) :
      Valid want v me (.schedTest p :: k)
  | saveIntena {v : Cpu L} {me : Own H} {k : Code L H} (hsie : v.sie = false)
      (h : Valid want v me (.swtch :: .setIntena v.intena :: k)) :
      Valid want v me (.saveIntena :: k)
  | swtch {v : Cpu L} {me : Own H} {k : Code L H} {p : Slot} (hthread : v.thread = some p)
      (hsw : v.Switched p) (hme : me.state = .ZOMBIE ∧ me.dozing = none ∨ me.Parked)
      (h : me.Parked → ∀ v' : Cpu L, v'.thread = some p → v'.Switched p →
        Valid want v' .awake k) : Valid want v me (.swtch :: k)
  | setIntena {v : Cpu L} {me : Own H} {k : Code L H} {intena : Bool} (hsie : v.sie = false)
      (h : Valid want { v with intena := intena } me k) :
      Valid want v me (.setIntena intena :: k)
  | tryRun {v : Cpu L} {me : Own H} {k : Code L H} {q : Slot} (hsie : v.sie = false)
      (hthread : v.thread = none) (hsw : { v with proc := some q }.Switched q)
      (h : Valid want v me k)
      (hback : ∀ v' : Cpu L, v'.thread = none → v'.Switched q →
        Valid want v' me (.clearProc :: k)) : Valid want v me (.tryRun q :: k)
  | swtchTo {v : Cpu L} {me : Own H} {k : Code L H} {q : Slot} (hthread : v.thread = none)
      (hnext : v.next = some q) (hsw : { v with next := none }.Switched q)
      (hback : ∀ v' : Cpu L, v'.thread = none → v'.Switched q → Valid want v' me k) :
      Valid want v me (.swtchTo q :: k)
  | clearProc {v : Cpu L} {me : Own H} {k : Code L H} (hsie : v.sie = false)
      (hthread : v.thread = none) (hnext : v.next = none)
      (h : Valid want { v with proc := none } me k) : Valid want v me (.clearProc :: k)
  | loop {v : Cpu L} {me : Own H} (hthread : v.thread = none) (hproc : v.proc = none)
      (hfree : v.Free) : Valid want v me [.loop]
  | trapYield {v : Cpu L} {me : Own H} {k : Code L H} {p : Slot} (hsie : v.sie = false)
      (hthread : v.thread = some p) (hme : me = .awake) (h : Valid want v me (yield ++ k)) :
      Valid want v me (.trapYield p :: k)
  | wakeBegin {v : Cpu L} {me : Own H} {k : Code L H} {chan : H}
      (h : ∀ due, Valid want v me (wakeLoop chan ++ .wakeEnd chan due :: k)) :
      Valid want v me (.wakeBegin chan :: k)
  | wakeEnd {v : Cpu L} {me : Own H} {k : Code L H} {chan : H} {due : List (Slot × Nat)}
      (h : Valid want v me k) : Valid want v me (.wakeEnd chan due :: k)
  | adopt {v : Cpu L} {me : Own H} {p : Slot} (hthread : v.thread = some p) (hme : me = .awake)
      (hfree : v.Free) : Valid want v me [.adopt]

/-! ### Locks -/

/-- After `acquire`. -/
def Cpu.acquired (lk : Lock L) (v : Cpu L) : Cpu L :=
  { v.pushed with held := lk :: v.held, pending := none }

/-- After `release`. -/
def Cpu.released [DecidableEq L] (lk : Lock L) (v : Cpu L) : Cpu L :=
  { v.popped with held := v.held.erase lk, pending := none }

/-- After `push_off` and `pop_off`, or `acquire` and `release`: `intena` matters only inside. -/
def Cpu.touched (v : Cpu L) : Cpu L :=
  { v with intena := if v.noff = 0 then v.sie else v.intena }

theorem pushed_popped {v : Cpu L} (hoff : v.sie = true → v.noff = 0) :
    v.pushed.popped = v.touched := by
  have hsie : (decide (v.noff = 0) && if v.noff = 0 then v.sie else v.intena) = v.sie := by
    by_cases hn : v.noff = 0
    · simp [hn]
    · cases hs : v.sie with
      | false => simp [hn]
      | true => exact (hn (hoff hs)).elim
  simp only [Cpu.popped, Cpu.pushed, Cpu.touched, Nat.add_sub_cancel, hsie]

theorem touched_of_pos {v : Cpu L} (hn : v.noff ≠ 0) : v.touched = v := by
  simp only [Cpu.touched, if_neg hn]

section
variable [DecidableEq L] {want : Bool} {v : Cpu L} {me : Own H} {k : Code L H} {lk : Lock L}

theorem acquired_released (hoff : v.sie = true → v.noff = 0) (hpending : v.pending = none) :
    (v.acquired lk).released lk = v.touched := by
  have h := pushed_popped hoff
  simp only [Cpu.popped, Cpu.touched] at h
  simp [Cpu.released, Cpu.acquired, Cpu.popped, Cpu.touched, Cpu.pushed] at h ⊢
  exact ⟨h, hpending.symm⟩

theorem valid_popOff (hsie : v.sie = false) (hdepth : v.held.length < v.noff)
    (hidle : v.noff = 1 → v.proc = v.thread) (h : Valid want v.popped me k) :
    Valid want v me (popOff ++ k) :=
  .popTest hsie (by omega) (.noffDec hsie hdepth hidle (.intrRestore hsie h))

theorem valid_acquire (hpending : v.pending = none) (hlk : lk ∉ v.held)
    (hdepth : v.held.length ≤ v.noff) (h : Valid want (v.acquired lk) me k) :
    Valid want v me (acquire lk ++ k) := by
  refine .intrGet (.notHolding rfl ?_ (.testAndSet rfl ?_ ?_ ?_ (.setCpu rfl rfl h)))
  · exact hlk
  · exact hpending
  · exact hlk
  · exact Nat.lt_succ_of_le hdepth

theorem valid_release (hsie : v.sie = false) (hpending : v.pending = none) (hlk : lk ∈ v.held)
    (hdepth : v.held.length ≤ v.noff) (hnext : v.next = none)
    (hown : ∀ p, v.thread = some p → lk = .proc p → me = .awake)
    (hidle : v.noff = 1 → v.proc = v.thread) (h : Valid want (v.released lk) me k) :
    Valid want v me (release lk ++ k) := by
  have hlen := List.length_erase_of_mem hlk
  have hpos := List.length_pos_of_mem hlk
  have hpop : Valid want { v with held := v.held.erase lk, pending := none } me (popOff ++ k) := by
    refine valid_popOff ?_ ?_ ?_ h
    · exact hsie
    · change (v.held.erase lk).length < v.noff
      omega
    · exact hidle
  refine .isHolding hsie hpending hlk (.clearCpu hsie hpending hlk (.lockRelease ?_ rfl ?_ ?_ hpop))
  · exact hsie
  · exact hnext
  · exact hown

theorem valid_withMyproc {u : Use L H} (hoff : v.sie = true → v.noff = 0)
    (hdepth : v.held.length ≤ v.noff)
    (hidle : v.noff = 0 → v.proc = v.thread)
    (hself : ∀ q chan, u = .wakeup q chan → v.proc = v.thread ∧ me.dozing = none)
    (h : Valid want v.touched me (u.body v.proc ++ k)) :
    Valid want v me (withMyproc u ++ k) := by
  have hpop : Valid want v.pushed me (popOff ++ (u.body v.proc ++ k)) := by
    refine valid_popOff rfl ?_ ?_ ?_
    · exact Nat.lt_succ_of_le hdepth
    · exact fun hn ↦ hidle (Nat.succ.inj hn)
    · rw [pushed_popped hoff]
      exact h
  refine .intrGet (.readProc rfl ?_ ?_)
  · exact hself
  · rw [List.append_assoc]
    exact hpop

/-! ### Giving up the CPU -/

/-- `sched`: the thread comes back with `intena` as it was. -/
theorem valid_sched {p : Slot} (hthread : v.thread = some p) (hsw : v.Switched p)
    (hstate : me.state ≠ .RUNNING) (hme : me.state = .ZOMBIE ∧ me.dozing = none ∨ me.Parked)
    (h : me.Parked → ∀ v' : Cpu L, v'.thread = some p → v'.Switched p →
      Valid want { v' with intena := v.intena } .awake k) :
    Valid want v me (sched ++ k) := by
  have hn : v.noff ≠ 0 := by
    rw [hsw.noff]
    exact Nat.one_ne_zero
  have hbody : Valid want v me (.schedTest p :: .saveIntena :: k) := by
    refine .schedTest hthread hsw hstate (.saveIntena hsw.sie (.swtch hthread hsw hme ?_))
    intro hp v' hthread' hsw'
    exact .setIntena hsw'.sie (h hp v' hthread' hsw')
  apply valid_withMyproc
  · intro hs
    rw [hsw.sie] at hs
    cases hs
  · rw [hsw.held, hsw.noff]
    exact Nat.le_refl 1
  · exact fun hz ↦ (hn hz).elim
  · intro q chan hu
    cases hu
  · rw [touched_of_pos hn, hsw.proc]
    exact hbody

/-- The CPU runs process `p`, in no critical section. -/
structure Cpu.Runs (p : Slot) (v : Cpu L) : Prop where
  thread : v.thread = some p
  proc : v.proc = some p
  free : v.Free

/-- `release(&p->lock)` by a thread that just came back. -/
theorem Cpu.Switched.released {p : Slot} {v : Cpu L} (hsw : v.Switched p) (i : Bool)
    (hthread : v.thread = some p) :
    (({ v with intena := i } : Cpu L).released (.proc p)).Runs p ∧
      (({ v with intena := i } : Cpu L).released (.proc p)).sie = i := by
  refine ⟨⟨hthread, hsw.proc, ?_, ?_, rfl, hsw.next⟩, ?_⟩
  · simp [Cpu.released, Cpu.popped, hsw.noff]
  · simp [Cpu.released, hsw.held]
  · simp [Cpu.released, Cpu.popped, hsw.noff]

/-- A thread that came back releases the lock of its slot. -/
theorem valid_back {p : Slot} {i : Bool} (hsw : v.Switched p) (hthread : v.thread = some p)
    (h : (({ v with intena := i } : Cpu L).released (.proc p)).Runs p →
      (({ v with intena := i } : Cpu L).released (.proc p)).sie = i →
      Valid want (({ v with intena := i } : Cpu L).released (.proc p)) .awake k) :
    Valid want { v with intena := i } .awake (release (.proc p) ++ k) := by
  obtain ⟨hruns, hsie⟩ := hsw.released i hthread
  refine valid_release ?_ ?_ ?_ ?_ ?_ (fun _ _ _ ↦ rfl) ?_ (h hruns hsie)
  · exact hsw.sie
  · exact hsw.pending
  · simp [hsw.held]
  · simp [hsw.held, hsw.noff]
  · exact hsw.next
  · exact fun _ ↦ hsw.proc.trans hthread.symm

omit [DecidableEq L] in
/-- `acquire(&p->lock)` by the process itself. -/
theorem Cpu.Runs.acquired {p : Slot} {v : Cpu L} (hv : v.Runs p) :
    (v.acquired (.proc p)).Switched p ∧ (v.acquired (.proc p)).thread = some p ∧
      (v.acquired (.proc p)).intena = v.sie := by
  have hn := hv.free.noff
  refine ⟨⟨?_, rfl, ?_, rfl, hv.proc, hv.free.next⟩, hv.thread, ?_⟩
  · simp [Cpu.acquired, Cpu.pushed, hn]
  · simp [Cpu.acquired, hv.free.held]
  · simp [Cpu.acquired, Cpu.pushed, hn]

omit [DecidableEq L] in
theorem Cpu.Runs.idle {p : Slot} {v : Cpu L} (hv : v.Runs p) : v.proc = v.thread :=
  hv.proc.trans hv.thread.symm

omit [DecidableEq L] in
theorem Cpu.Runs.touched {p : Slot} {v : Cpu L} (hv : v.Runs p) : v.touched.Runs p :=
  ⟨hv.thread, hv.proc, hv.free.noff, hv.free.held, hv.free.pending, hv.free.next⟩

omit [DecidableEq L] in
/-- What `acquire` needs. -/
theorem Cpu.Free.not_held {v : Cpu L} (hv : v.Free) (lk : Lock L) : lk ∉ v.held := by
  rw [hv.held]
  exact List.not_mem_nil

omit [DecidableEq L] in
theorem Cpu.Free.depth {v : Cpu L} (hv : v.Free) : v.held.length ≤ v.noff := by
  rw [hv.held]
  exact Nat.zero_le _

/-- `yield`: the thread comes back with its interrupts as they were. -/
theorem valid_yield {p : Slot} (hv : v.Runs p)
    (h : ∀ v' : Cpu L, v'.Runs p → v'.sie = v.sie → Valid want v' .awake k) :
    Valid want v .awake (yield ++ k) := by
  obtain ⟨hsw, hthread, hintena⟩ := hv.touched.acquired
  have hrest : Valid want (v.touched.acquired (.proc p)) { Own.awake with state := .RUNNABLE }
      (sched ++ (release (.proc p) ++ k)) := by
    refine valid_sched hthread hsw ?_ (.inr (.inl ⟨rfl, rfl⟩)) ?_
    · intro hrun
      cases hrun
    intro _ v' hthread' hsw'
    apply valid_back hsw' hthread'
    intro hruns hsie
    apply h _ hruns
    rw [hsie, hintena]
    rfl
  apply valid_withMyproc (fun _ ↦ hv.free.noff) hv.free.depth (fun _ ↦ hv.idle)
    (fun _ _ hu ↦ by cases hu)
  rw [hv.proc]
  change Valid want v.touched .awake ((acquire (.proc p) ++ [.setState p .RUNNABLE] ++ sched ++
    release (.proc p)) ++ k)
  simp only [List.append_assoc]
  apply valid_acquire hv.touched.free.pending (hv.touched.free.not_held _) hv.touched.free.depth
  exact .setState hsw.sie hthread (by simp [hsw.held]) hrest

/-- The CPU runs process `p`, which holds the lock `lk` and no other. -/
structure Cpu.Holds (p : Slot) (lk : Lock L) (v : Cpu L) : Prop where
  thread : v.thread = some p
  proc : v.proc = some p
  noff : v.noff = 1
  sie : v.sie = false
  held : v.held = [lk]
  pending : v.pending = none
  next : v.next = none

omit [DecidableEq L] in
theorem Cpu.Holds.touched {p : Slot} (hv : v.Holds p lk) : v.touched = v := by
  apply touched_of_pos
  rw [hv.noff]
  exact Nat.one_ne_zero

omit [DecidableEq L] in
/-- `acquire(lk)` by a process that holds no lock. -/
theorem Cpu.Runs.holds {p : Slot} (hv : v.Runs p) (lk : Lock L) :
    (v.acquired lk).Holds p lk ∧ (v.acquired lk).intena = v.sie := by
  have hn := hv.free.noff
  refine ⟨⟨hv.thread, hv.proc, ?_, rfl, ?_, rfl, hv.free.next⟩, ?_⟩
  · simp [Cpu.acquired, Cpu.pushed, hn]
  · simp [Cpu.acquired, hv.free.held]
  · simp [Cpu.acquired, Cpu.pushed, hn]

/-- `acquire(&p->lock); release(lk);`, with code in between that needs both locks. -/
theorem valid_exchange {p : Slot} {mid : Code L H} {me' : Own H} (hv : v.Holds p lk)
    (hlk : lk ≠ .proc p)
    (hmid : ∀ {v' : Cpu L} {k' : Code L H}, v'.sie = false → v'.thread = some p →
      .proc p ∈ v'.held → Valid want v' me' k' → Valid want v' me (mid ++ k'))
    (h : ∀ v' : Cpu L, v'.thread = some p → v'.Switched p → v'.intena = v.intena →
      Valid want v' me' k) :
    Valid want v me (acquire (.proc p) ++ (mid ++ (release lk ++ k))) := by
  have hnot : Lock.proc p ∉ v.held := by
    rw [hv.held, List.mem_singleton]
    exact fun he ↦ hlk he.symm
  have hthread : (v.acquired (.proc p)).thread = some p := hv.thread
  have hboth : (v.acquired (.proc p)).held = [.proc p, lk] := by
    simp [Cpu.acquired, hv.held]
  have hnoff : (v.acquired (.proc p)).noff = 2 := by
    simp [Cpu.acquired, Cpu.pushed, hv.noff]
  have hintena : (v.acquired (.proc p)).intena = v.intena := by
    simp [Cpu.acquired, Cpu.pushed, hv.noff]
  apply valid_acquire hv.pending hnot (by simp [hv.held, hv.noff])
  apply hmid rfl hthread (by simp [hboth])
  refine valid_release rfl rfl (by simp [hboth]) (by simp [hboth, hnoff]) ?_ ?_ ?_ ?_
  · exact hv.next
  · intro q hq he
    rw [hthread] at hq
    cases hq
    exact (hlk he).elim
  · exact fun _ ↦ hv.proc.trans hv.thread.symm
  · have hsw : ((v.acquired (.proc p)).released lk).Switched p := by
      refine ⟨?_, ?_, ?_, rfl, hv.proc, hv.next⟩
      · simp [Cpu.released, Cpu.popped, hnoff]
      · simp [Cpu.released, Cpu.popped, hnoff]
      · simp [Cpu.released, hboth, hlk.symm]
    exact h _ hthread hsw hintena

/-- `sleep`: the thread comes back with the lock again, and `intena` as it was. -/
theorem valid_sleep {p : Slot} {chan : H} (hv : v.Holds p lk) (hlk : lk ≠ .proc p)
    (h : ∀ v' : Cpu L, v'.Holds p lk → v'.intena = v.intena → Valid want v' .awake k) :
    Valid want v .awake (sleep chan lk ++ k) := by
  have hbody : Valid want v .awake (acquire (.proc p) ++ ([.doze p chan] ++ (release lk ++
      ([.setChan p (some chan), .setState p .SLEEPING] ++ (sched ++ ([.setChan p none] ++
        (release (.proc p) ++ (acquire lk ++ k)))))))) := by
    apply valid_exchange hv hlk
      (fun hsie hthread hmem hk ↦ .doze hsie hthread hmem hk)
    intro v' hthread hsw hintena
    have hmem : Lock.proc p ∈ v'.held := by simp [hsw.held]
    refine .setChan hsw.sie hthread hmem (.setState hsw.sie hthread hmem ?_)
    refine valid_sched hthread hsw ?_ (.inr (.inr ⟨rfl, ?_, rfl⟩)) ?_
    · intro hrun
      cases hrun
    · intro hnone
      cases hnone
    intro _ v'' hthread' hsw'
    have hmem' : Lock.proc p ∈ v''.held := by simp [hsw'.held]
    refine .setChan hsw'.sie hthread' hmem' (valid_back hsw' hthread' ?_)
    intro hruns hsie
    apply valid_acquire hruns.free.pending (hruns.free.not_held lk) hruns.free.depth
    obtain ⟨hholds, hi⟩ := hruns.holds lk
    apply h _ hholds
    rw [hi, hsie, hintena]
  apply valid_withMyproc
  · intro hs
    rw [hv.sie] at hs
    cases hs
  · simp [hv.held, hv.noff]
  · exact fun _ ↦ hv.proc.trans hv.thread.symm
  · exact fun _ _ hu ↦ by cases hu
  · rw [hv.touched, hv.proc]
    simpa only [Use.body, Option.elim, List.append_assoc] using hbody

/-- The end of `exit`: the thread does not come back. -/
theorem valid_exit {p : Slot} (hv : v.Holds p lk) (hlk : lk ≠ .proc p) :
    Valid want v .awake (exitTail lk ++ k) := by
  have hbody : Valid want v .awake (acquire (.proc p) ++ ([.setState p .ZOMBIE] ++ (release lk ++
      (sched ++ ([.panic "zombie exit"] ++ k))))) := by
    apply valid_exchange hv hlk
      (fun hsie hthread hmem hk ↦ .setState hsie hthread hmem hk)
    intro v' hthread hsw _
    refine valid_sched hthread hsw ?_ (.inl ⟨rfl, rfl⟩) ?_
    · intro hrun
      cases hrun
    · rintro (⟨hstate, -⟩ | ⟨hstate, -⟩) <;> cases hstate
  apply valid_withMyproc
  · intro hs
    rw [hv.sie] at hs
    cases hs
  · simp [hv.held, hv.noff]
  · exact fun _ ↦ hv.proc.trans hv.thread.symm
  · exact fun _ _ hu ↦ by cases hu
  · rw [hv.touched, hv.proc]
    simpa only [Use.body, Option.elim, List.append_assoc] using hbody

/-! ### `wakeup` and interrupts -/

/-- The CPU is between calls: no `acquire`, `release` or `swtch` is under way. -/
structure Cpu.Steady (v : Cpu L) : Prop where
  off : v.sie = true → v.noff = 0
  depth : v.held.length ≤ v.noff
  pending : v.pending = none
  next : v.next = none
  proc : v.proc = v.thread

omit [DecidableEq L] in
theorem touched_touched : v.touched.touched = v.touched := by
  by_cases hn : v.noff = 0 <;> simp [Cpu.touched, hn]

omit [DecidableEq L] in
theorem Cpu.Steady.touched (hv : v.Steady) : v.touched.Steady :=
  ⟨hv.off, hv.depth, hv.pending, hv.next, hv.proc⟩

/-- The rest of the code does not rely on `intena`, unless the CPU is in a critical section. -/
def ValidAfter (want : Bool) (v : Cpu L) (me : Own H) (k : Code L H) : Prop :=
  ∀ i, (v.noff ≠ 0 → i = v.intena) → Valid want { v with intena := i } me k

theorem ValidAfter.valid (h : ValidAfter want v me k) : Valid want v me k :=
  h v.intena (fun _ ↦ rfl)

theorem ValidAfter.touched (h : ValidAfter want v me k) : ValidAfter want v.touched me k := by
  intro i hi
  apply h i
  intro hn
  rw [hi hn, touched_of_pos hn]

/-- One round of the loop of `wakeup`. -/
theorem valid_wakeSlot {q : Slot} {chan : H} (hv : v.Steady) (hme : me.dozing = none)
    (hnot : .proc q ∉ v.held) (h : Valid want v.touched me k) :
    Valid want v me (withMyproc (.wakeup q chan) ++ k) := by
  apply valid_withMyproc hv.off hv.depth (fun _ ↦ hv.proc) (fun _ _ _ ↦ ⟨hv.proc, hme⟩)
  by_cases hq : v.proc = some q
  · rw [Use.body, if_pos hq]
    exact h
  · rw [Use.body, if_neg hq]
    have hother : v.touched.thread ≠ some q := fun ht ↦ hq (hv.proc.trans ht)
    rw [List.append_assoc, List.append_assoc]
    apply valid_acquire hv.touched.pending hnot hv.touched.depth
    refine .wake rfl List.mem_cons_self hother ?_
    refine valid_release rfl rfl List.mem_cons_self ?_ ?_ ?_ ?_ ?_
    · exact Nat.succ_le_succ hv.depth
    · exact hv.next
    · intro p hp he
      cases he
      exact (hother hp).elim
    · exact fun _ ↦ hv.proc
    · rw [acquired_released hv.touched.off hv.touched.pending, touched_touched]
      exact h

theorem valid_wakeSlots {chan : H} (qs : List Slot) (hv : v.Steady) (hme : me.dozing = none)
    (hnot : ∀ q, .proc q ∉ v.held) (h : ValidAfter want v me k) :
    Valid want v me (qs.flatMap (fun q ↦ withMyproc (.wakeup q chan)) ++ k) := by
  induction qs generalizing v with
  | nil => exact h.valid
  | cons q qs ih =>
    rw [List.flatMap_cons, List.append_assoc]
    exact valid_wakeSlot hv hme (hnot q) (ih hv.touched hnot h.touched)

/-- Calls of `wakeup`, one after the other. -/
theorem valid_wakeups (chans : List H) (hv : v.Steady) (hme : me.dozing = none)
    (hnot : ∀ q, .proc q ∉ v.held) (h : ValidAfter want v me k) :
    ValidAfter want v me (chans.map .wakeBegin ++ k) := by
  induction chans generalizing v with
  | nil => exact h
  | cons chan chans ih =>
    intro i hi
    have hrest := ih hv hnot h
    refine .wakeBegin ?_
    intro due
    apply valid_wakeSlots
    · exact ⟨hv.off, hv.depth, hv.pending, hv.next, hv.proc⟩
    · exact hme
    · exact hnot
    · intro j hj
      refine .wakeEnd (hrest j ?_)
      intro hn
      rw [hj hn, hi hn]

/-- A critical section of a handler. -/
theorem valid_notify (l : L) (chans : List H) (hv : v.Steady) (hfree : v.Free)
    (hme : me.dozing = none) (h : Valid want v.touched me k) :
    Valid want v me (notify l chans ++ k) := by
  have hn : (v.acquired (.other l)).noff = 1 := by simp [Cpu.acquired, Cpu.pushed, hfree.noff]
  have hheld : (v.acquired (.other l)).held = [.other l] := by simp [Cpu.acquired, hfree.held]
  have hacq : (v.acquired (.other l)).Steady := by
    refine ⟨?_, ?_, rfl, hv.next, hv.proc⟩
    · intro hs
      cases hs
    · rw [hheld, hn]
      exact Nat.le_refl 1
  rw [notify, List.append_assoc, List.append_assoc]
  apply valid_acquire hv.pending (hfree.not_held _) hv.depth
  apply ValidAfter.valid
  apply valid_wakeups chans hacq hme
  · intro q hq
    rw [hheld, List.mem_singleton] at hq
    cases hq
  · intro i hi
    cases hi (by rw [hn]; exact Nat.one_ne_zero)
    refine valid_release rfl rfl ?_ hacq.depth hacq.next ?_ ?_ ?_
    · rw [hheld]
      exact List.mem_singleton_self _
    · intro p _ he
      cases he
    · exact fun _ ↦ hacq.proc
    · rw [acquired_released hv.off hv.pending]
      exact h

omit [DecidableEq L] in
theorem Cpu.Free.steady (hfree : v.Free) (hproc : v.proc = v.thread) : v.Steady :=
  ⟨fun _ ↦ hfree.noff, hfree.depth, hfree.pending, hfree.next, hproc⟩

omit [DecidableEq L] in
theorem Cpu.Free.touched (hfree : v.Free) : v.touched.Free :=
  ⟨hfree.noff, hfree.held, hfree.pending, hfree.next⟩

/-- The critical sections of a handler, and the return from the interrupt. -/
theorem valid_sections (sections : List (L × List H)) (hsie : v.sie = false) (hv : v.Steady)
    (hfree : v.Free) (hme : me.dozing = none)
    (h : ∀ i, Valid want { v with sie := true, intena := i } me k) :
    Valid want v me (sections.flatMap (fun x ↦ notify x.1 x.2) ++ (.sret :: k)) := by
  induction sections generalizing v with
  | nil => exact .sret hsie hfree h
  | cons x sections ih =>
    rw [List.flatMap_cons, List.append_assoc]
    exact valid_notify x.1 x.2 hv hfree hme (ih hsie hv.touched hfree.touched h)

/-- The end of `kerneltrap`: a process gives up the CPU. -/
theorem valid_trap (hsie : v.sie = false) (hfree : v.Free) (hproc : v.proc = v.thread)
    (h : ∀ i, Valid want { v with sie := true, intena := i } .awake k) :
    Valid want v .awake (withMyproc .trapLive ++ (.sret :: k)) := by
  have hoff : v.sie = true → v.noff = 0 := fun _ ↦ hfree.noff
  apply valid_withMyproc hoff hfree.depth (fun _ ↦ hproc) (fun _ _ hu ↦ by cases hu)
  cases ht : v.thread with
  | none =>
    rw [hproc, ht]
    exact .sret hsie hfree.touched h
  | some p =>
    rw [hproc, ht]
    have hruns : v.touched.Runs p := ⟨ht, hproc.trans ht, hfree.touched⟩
    refine valid_withMyproc (u := .trapState) hoff hfree.touched.depth (fun _ ↦ hproc) ?_ ?_
    · exact fun _ _ hu ↦ by cases hu
    rw [hruns.proc]
    refine .trapYield hsie ht rfl (valid_yield hruns.touched ?_)
    intro v' hv' hsie'
    -- the CPU that the thread comes back on differs in nothing that matters
    have heq (i : Bool) : { v' with sie := true, intena := i } =
        ({ v with sie := true, intena := i } : Cpu L) := by
      simp only [hv'.free.noff, hfree.noff, hv'.proc, hproc.trans ht, hv'.thread, ht,
        hv'.free.held, hfree.held, hv'.free.pending, hfree.pending, hv'.free.next, hfree.next]
    refine .sret (hsie'.trans hsie) hv'.free ?_
    intro i
    rw [heq]
    exact h i

/-- An interrupt handler leaves the interrupted code as it was. -/
theorem valid_handler (i : Interrupt L H) (hsie : v.sie = false) (hfree : v.Free)
    (hproc : v.proc = v.thread)
    (h : ∀ i, Valid want { v with sie := true, intena := i } .awake k) :
    Valid want v .awake (i.handler ++ k) := by
  have hsteady : v.Steady := hfree.steady hproc
  cases i with
  | timer ticks =>
    cases ticks with
    | none =>
      rw [Interrupt.handler]
      simpa only [Option.elim, List.nil_append, List.append_assoc, List.cons_append] using
        valid_trap hsie hfree hproc h
    | some t =>
      have hnotify := valid_notify t.1 [t.2] hsteady hfree rfl
        (valid_trap hsie hfree.touched hproc h)
      rw [Interrupt.handler]
      simpa only [Option.elim, List.append_assoc, List.cons_append, List.nil_append] using hnotify
  | device sections =>
    have hsections := valid_sections sections hsie hsteady hfree rfl h
    rw [Interrupt.handler]
    simpa only [List.append_assoc, List.cons_append, List.nil_append] using hsections

/-- A thread that can be interrupted does not rely on `intena`. -/
theorem Valid.interruptible (h : Valid want v me k) (hsie : v.sie = true) (hn : v.noff = 0)
    (i : Bool) : Valid want { v with intena := i } me k := by
  have hsie' {v : Cpu L} (hs : v.sie = true) (hf : v.sie = false) : False := by
    rw [hs] at hf
    cases hf
  induction h generalizing i with
  | client hthread hme hpending hnext hnoff hwant =>
    refine .client hthread hme hpending hnext hnoff ?_
    rw [if_pos hn] at hwant ⊢
    exact hwant
  | @intrGet v me k h ih =>
    have heq : Cpu.pushed { v with intena := i } = v.pushed := by simp [Cpu.pushed, hn]
    refine .intrGet ?_
    rw [heq]
    exact h
  | intrOff h ih => exact .intrOff (fun j _ ↦ h j (fun hne ↦ (hne hn).elim))
  | intrOn hfree h ih =>
    exact .intrOn ⟨hfree.noff, hfree.held, hfree.pending, hfree.next⟩ h
  | loop hthread hproc hfree =>
    exact .loop hthread hproc ⟨hfree.noff, hfree.held, hfree.pending, hfree.next⟩
  | adopt hthread hme hfree =>
    exact .adopt hthread hme ⟨hfree.noff, hfree.held, hfree.pending, hfree.next⟩
  | wakeBegin h ih => exact .wakeBegin (fun due ↦ ih due hsie hn i)
  | wakeEnd h ih => exact .wakeEnd (ih hsie hn i)
  | schedTest hthread hsw => exact (hsie' hsie hsw.sie).elim
  | swtch hthread hsw => exact (hsie' hsie hsw.sie).elim
  | swtchTo hthread hnext hsw => exact (hsie' hsie hsw.sie).elim
  | sret hf | noffInc hf | notHolding hf | testAndSet hf | setCpu hf | isHolding hf
  | clearCpu hf | lockRelease hf | popTest hf | noffDec hf | intrRestore hf | readProc hf
  | setState hf | setChan hf | doze hf | wake hf | saveIntena hf | setIntena hf | tryRun hf
  | clearProc hf | trapYield hf => exact (hsie' hsie hf).elim

/-! ### The scheduler -/

/-- `scheduler` looks at one slot. -/
theorem valid_scanSlot {q : Slot} (hthread : v.thread = none) (hproc : v.proc = none)
    (hfree : v.Free)
    (h : ∀ v' : Cpu L, v'.thread = none → v'.proc = none → v'.Free → Valid want v' me k) :
    Valid want v me (scanSlot q ++ k) := by
  have hback {v' : Cpu L} (hthread' : v'.thread = none)
      (hsw : { v' with proc := some q }.Switched q)
      (hproc' : v'.proc = none) : Valid want v' me (release (.proc q) ++ k) := by
    refine valid_release hsw.sie hsw.pending ?_ ?_ hsw.next ?_ (fun _ ↦ hproc'.trans hthread'.symm)
      (h _ hthread' hproc' ?_)
    · have hheld := hsw.held
      simp only at hheld
      simp [hheld]
    · have hheld := hsw.held
      have hnoff := hsw.noff
      simp only at hheld hnoff
      simp [hheld, hnoff]
    · intro p hp
      rw [hthread'] at hp
      cases hp
    · have hheld := hsw.held
      have hnoff := hsw.noff
      simp only at hheld hnoff
      exact ⟨by simp [Cpu.released, Cpu.popped, hnoff], by simp [Cpu.released, hheld], rfl,
        hsw.next⟩
  have hsw : { v.acquired (.proc q) with proc := some q }.Switched q := by
    refine ⟨?_, rfl, ?_, rfl, rfl, hfree.next⟩
    · simp [Cpu.acquired, Cpu.pushed, hfree.noff]
    · simp [Cpu.acquired, hfree.held]
  rw [scanSlot, List.append_assoc, List.append_assoc]
  apply valid_acquire hfree.pending (hfree.not_held _) hfree.depth
  refine .tryRun rfl hthread hsw (hback hthread hsw hproc) ?_
  intro v' hthread' hsw'
  refine .clearProc hsw'.sie hthread' hsw'.next (hback hthread' ?_ rfl)
  exact ⟨hsw'.noff, hsw'.sie, hsw'.held, hsw'.pending, rfl, hsw'.next⟩

/-- The code of `scheduler` is valid for ever. -/
theorem valid_scan (hthread : v.thread = none) (hproc : v.proc = none) (hfree : v.Free) :
    Valid want v me scan := by
  have hslots (qs : List Slot) : ∀ v' : Cpu L, v'.thread = none → v'.proc = none → v'.Free →
      Valid want v' me (qs.flatMap scanSlot ++ [.loop]) := by
    induction qs with
    | nil => exact fun v' ht hp hf ↦ .loop ht hp hf
    | cons q qs ih =>
      intro v' ht hp hf
      rw [List.flatMap_cons, List.append_assoc]
      exact valid_scanSlot ht hp hf ih
  rw [scan, List.append_assoc]
  refine .intrOn hfree ?_
  intro i
  exact hslots _ _ hthread hproc ⟨hfree.noff, hfree.held, hfree.pending, hfree.next⟩

end

end Xv6.Smp
