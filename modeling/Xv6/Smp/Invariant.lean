import Xv6.Smp.Rules

/-!
# The invariant of the CPUs

The fields that `holding` looks at are those of the CPU that took the lock, every thread is on
at most one CPU, and the code left of each thread is valid: of those that run, for the CPU
they run on; of those that do not, for any CPU that switches to them. A step changes one CPU,
the locks and the slot of its thread, or a slot whose lock it holds and whose thread does not
run.
-/

namespace Xv6.Smp

variable {L H : Type}

/-- Nesting, interrupts and locks of one CPU. -/
structure Cpu.Ok (v : Cpu L) : Prop where
  nodup : v.held.Nodup
  depth : v.held.length ≤ v.noff
  off : v.sie = true → v.noff = 0
  pending : ∀ lk, v.pending = some lk → lk ∈ v.held
  idle : v.noff = 0 → v.proc = v.thread

/-- A slot that no CPU runs sleeps exactly while `wakeup` has to find it. -/
def Proc.Rests (r : Proc H) : Prop :=
  (r.state = .SLEEPING → r.dozing ≠ none ∧ r.chan = r.dozing) ∧
    (r.state ≠ .SLEEPING → r.dozing = none)

/-- The slot has a context to switch to. -/
def Proc.HasContext (r : Proc H) : Prop := r.state ≠ .UNUSED ∧ r.state ≠ .ZOMBIE

namespace State

/-- No CPU runs the process. -/
def Off (s : State L H) (p : Slot) : Prop := ∀ c, (s.cpu c).thread ≠ some p

/-- The thread on CPU `c` knows `me` of its slot. -/
structure Knows (s : State L H) (c : Hart) (me : Own H) : Prop where
  own : ∀ p, (s.cpu c).thread = some p → me.Of (s.proc p)
  awake : (∀ p, (s.cpu c).thread = some p → .proc p ∉ (s.cpu c).held) → me = .awake

/-- The interrupts that the thread on CPU `c` asked for. -/
def wants (s : State L H) (c : Hart) : Bool := (s.cpu c).thread.elim false s.want

end State

/-- Locks: who holds them. -/
structure LocksOk (s : State L H) : Prop where
  cpus : ∀ c, (s.cpu c).Ok
  excl : ∀ c c' lk, lk ∈ (s.cpu c).held → lk ∈ (s.cpu c').held → c = c'
  locked : ∀ lk, (s.lock lk).locked = true ↔ ∃ c, lk ∈ (s.cpu c).held
  owner : ∀ lk c, (s.lock lk).cpu = some c ↔ lk ∈ (s.cpu c).held ∧ (s.cpu c).pending ≠ some lk

/-- Threads: where they run, and what they do next. -/
structure ThreadsOk [DecidableEq L] (s : State L H) : Prop where
  runs : ∀ c, ∃ me, s.Knows c me ∧ Valid (s.wants c) (s.cpu c) me (s.code c)
  one : ∀ c c' p, (s.cpu c).thread = some p → (s.cpu c').thread = some p → c = c'
  own : ∀ c p, (s.cpu c).thread = some p → (s.cpu c).proc = some p
  saved : ∀ c p, (s.cpu c).thread = some p → ∀ v : Cpu L, v.thread = none → v.Switched p →
    Valid false v .awake (s.sched c)
  parked : ∀ p, s.Off p → (s.proc p).HasContext → ∀ v : Cpu L, v.thread = some p →
    v.Switched p → Valid (s.want p) v .awake (s.kern p)
  rests : ∀ p, s.Off p → (s.proc p).Rests
  next : ∀ c q, (s.cpu c).next = some q → (s.cpu c).thread = none ∧ s.Off q ∧
    (s.proc q).state = .RUNNING ∧ .proc q ∈ (s.cpu c).held
  running : ∀ p, s.Off p → (s.proc p).state = .RUNNING → ∃ c, (s.cpu c).next = some p

/-- The invariant of the kernel's threads. -/
structure Inv [DecidableEq L] (s : State L H) : Prop extends LocksOk s, ThreadsOk s where
  calm : s.panicked = none

namespace State

variable {s : State L H} {c : Hart}

@[simp] theorem setCode_cpu (k : Code L H) : (s.setCode c k).cpu = s.cpu := by
  unfold setCode
  split <;> rfl

@[simp] theorem setCode_lock (k : Code L H) : (s.setCode c k).lock = s.lock := by
  unfold setCode
  split <;> rfl

@[simp] theorem setCode_proc (k : Code L H) : (s.setCode c k).proc = s.proc := by
  unfold setCode
  split <;> rfl

@[simp] theorem setCode_want (k : Code L H) : (s.setCode c k).want = s.want := by
  unfold setCode
  split <;> rfl

@[simp] theorem setCode_asked (k : Code L H) : (s.setCode c k).asked = s.asked := by
  unfold setCode
  split <;> rfl

@[simp] theorem setCode_panicked (k : Code L H) : (s.setCode c k).panicked = s.panicked := by
  unfold setCode
  split <;> rfl

@[simp] theorem setCode_code (k : Code L H) : (s.setCode c k).code c = k := by
  unfold code
  rw [setCode_cpu]
  unfold setCode
  cases (s.cpu c).thread <;> simp

theorem setCode_kern_self (k : Code L H) {p : Slot} (hp : (s.cpu c).thread = some p) :
    (s.setCode c k).kern p = k := by
  unfold setCode
  rw [hp]
  exact Function.update_self _ _ _

theorem setCode_kern (k : Code L H) {p : Slot} (hp : (s.cpu c).thread ≠ some p) :
    (s.setCode c k).kern p = s.kern p := by
  unfold setCode
  split
  · next q hq =>
    have hne : p ≠ q := fun he ↦ hp (he ▸ hq)
    exact Function.update_of_ne hne _ _
  · rfl

theorem setCode_sched (k : Code L H) {c' : Hart} (h : c' ≠ c ∨ (s.cpu c).thread ≠ none) :
    (s.setCode c k).sched c' = s.sched c' := by
  unfold setCode
  split
  · rfl
  · next hn =>
    have hne : c' ≠ c := h.resolve_right (fun ht ↦ ht hn)
    exact Function.update_of_ne hne _ _

end State

section
variable [DecidableEq L] {s t : State L H} {c : Hart}

/-- What a step of the thread on CPU `c` leaves as it was. -/
structure Beside (c : Hart) (s t : State L H) : Prop where
  cpu : ∀ c', c' ≠ c → t.cpu c' = s.cpu c'
  thread : (t.cpu c).thread = (s.cpu c).thread
  proc : ∀ p, (s.cpu c).thread = some p → (t.cpu c).proc = (s.cpu c).proc
  next : (t.cpu c).next = (s.cpu c).next
  kern : ∀ p, (s.cpu c).thread ≠ some p → t.kern p = s.kern p
  sched : ∀ c', c' ≠ c ∨ (s.cpu c).thread ≠ none → t.sched c' = s.sched c'
  want : ∀ p, (s.cpu c).thread ≠ some p → t.want p = s.want p
  slot : ∀ p, (s.cpu c).thread ≠ some p → t.proc p = s.proc p

omit [DecidableEq L] in
theorem Beside.threads (h : Beside c s t) (c' : Hart) :
    (t.cpu c').thread = (s.cpu c').thread := by
  by_cases hc : c' = c
  · subst hc
    exact h.thread
  · rw [h.cpu c' hc]

omit [DecidableEq L] in
theorem Beside.off (h : Beside c s t) {p : Slot} : t.Off p ↔ s.Off p := by
  unfold State.Off
  constructor <;> intro hp c' hc
  · exact hp c' ((h.threads c').trans hc)
  · exact hp c' ((h.threads c').symm.trans hc)

/-- A CPU whose thread a step does not concern. -/
theorem ThreadsOk.runs_other (hs : ThreadsOk s) {c' : Hart} (hcpu : t.cpu c' = s.cpu c')
    (hthread : ∀ p, (s.cpu c').thread = some p →
      t.kern p = s.kern p ∧ t.want p = s.want p ∧ t.proc p = s.proc p)
    (hsched : (s.cpu c').thread = none → t.sched c' = s.sched c') :
    ∃ me, t.Knows c' me ∧ Valid (t.wants c') (t.cpu c') me (t.code c') := by
  obtain ⟨me, hknows, hvalid⟩ := hs.runs c'
  refine ⟨me, ⟨?_, ?_⟩, ?_⟩
  · intro p hp
    rw [hcpu] at hp
    rw [(hthread p hp).2.2]
    exact hknows.own p hp
  · rw [hcpu]
    exact hknows.awake
  · rw [State.wants, State.code] at hvalid ⊢
    rw [hcpu]
    cases ht : (s.cpu c').thread with
    | none =>
      rw [ht] at hvalid
      rw [hsched ht]
      exact hvalid
    | some p =>
      rw [ht] at hvalid
      change Valid (t.want p) _ _ (t.kern p)
      rw [(hthread p ht).1, (hthread p ht).2.1]
      exact hvalid

/-- A step of a thread that stays on its CPU keeps the threads in order, if what is left of its
code is valid. -/
theorem ThreadsOk.beside (hs : ThreadsOk s) (h : Beside c s t)
    (hheld : ∀ q, (s.cpu c).next = some q → .proc q ∈ (t.cpu c).held)
    (hruns : ∃ me, t.Knows c me ∧ Valid (t.wants c) (t.cpu c) me (t.code c)) : ThreadsOk t := by
  have hnot {p : Slot} (hp : s.Off p) : (s.cpu c).thread ≠ some p := hp c
  have hother {c' : Hart} (hc : c' ≠ c) {p : Slot} (hp : (s.cpu c').thread = some p) :
      (s.cpu c).thread ≠ some p := fun hp' ↦ hc (hs.one c' c p hp hp')
  refine ⟨?_, ?_, ?_, ?_, ?_, ?_, ?_, ?_⟩
  · intro c'
    by_cases hc : c' = c
    · subst hc
      exact hruns
    exact hs.runs_other (h.cpu c' hc)
      (fun p hp ↦ ⟨h.kern p (hother hc hp), h.want p (hother hc hp), h.slot p (hother hc hp)⟩)
      (fun _ ↦ h.sched c' (.inl hc))
  · intro c₁ c₂ p h₁ h₂
    rw [h.threads] at h₁ h₂
    exact hs.one c₁ c₂ p h₁ h₂
  · intro c' p hp
    rw [h.threads] at hp
    have hproc := hs.own c' p hp
    by_cases hc : c' = c
    · subst hc
      rw [h.proc p hp]
      exact hproc
    · rw [h.cpu c' hc]
      exact hproc
  · intro c' p hp
    rw [h.threads] at hp
    rw [h.sched c']
    · exact hs.saved c' p hp
    · by_cases hc : c' = c
      · subst hc
        exact .inr (by rw [hp]; exact Option.some_ne_none p)
      · exact .inl hc
  · intro p hp
    rw [h.off] at hp
    rw [h.slot p (hnot hp), h.want p (hnot hp), h.kern p (hnot hp)]
    exact hs.parked p hp
  · intro p hp
    rw [h.off] at hp
    rw [h.slot p (hnot hp)]
    exact hs.rests p hp
  · intro c' q hq
    have hq' : (s.cpu c').next = some q := by
      by_cases hc : c' = c
      · subst hc
        exact h.next ▸ hq
      · rwa [h.cpu c' hc] at hq
    obtain ⟨hthread, hoff, hstate, hmem⟩ := hs.next c' q hq'
    refine ⟨(h.threads c').trans hthread, h.off.mpr hoff, ?_, ?_⟩
    · rw [h.slot q (hnot hoff)]
      exact hstate
    · by_cases hc : c' = c
      · subst hc
        exact hheld q hq'
      · rw [h.cpu c' hc]
        exact hmem
  · intro p hp hrun
    rw [h.off] at hp
    rw [h.slot p (hnot hp)] at hrun
    obtain ⟨c', hc'⟩ := hs.running p hp hrun
    refine ⟨c', ?_⟩
    by_cases hc : c' = c
    · subst hc
      exact h.next.trans hc'
    · rw [h.cpu c' hc]
      exact hc'

/-- A store to a slot that no CPU runs, or is about to run. -/
theorem ThreadsOk.setProc (hs : ThreadsOk s) {q : Slot} {r : Proc H} {k : Code L H}
    (hoff : s.Off q) (hidle : (s.proc q).state ≠ .RUNNING) (hrun : r.state ≠ .RUNNING)
    (hrests : r.Rests)
    (hparked : r.HasContext → ∀ v : Cpu L, v.thread = some q → v.Switched q →
      Valid (s.want q) v .awake k) :
    ThreadsOk { s.setProc q r with kern := Function.update s.kern q k } := by
  have hne {c : Hart} {p : Slot} (hp : (s.cpu c).thread = some p) : p ≠ q :=
    fun he ↦ hoff c (he ▸ hp)
  have hslot {p : Slot} (hp : p ≠ q) : (s.setProc q r).proc p = s.proc p :=
    Function.update_of_ne hp _ _
  have hself : (s.setProc q r).proc q = r := Function.update_self _ _ _
  refine ⟨?_, hs.one, hs.own, hs.saved, ?_, ?_, ?_, ?_⟩
  · intro c
    refine hs.runs_other rfl ?_ (fun _ ↦ rfl)
    exact fun p hp ↦ ⟨Function.update_of_ne (hne hp) _ _, rfl, hslot (hne hp)⟩
  · intro p hp
    change ((s.setProc q r).proc p).HasContext → ∀ v : Cpu L, _ → _ →
      Valid (s.want p) v _ (Function.update s.kern q k p)
    by_cases hpq : p = q
    · subst hpq
      rw [hself, Function.update_self]
      exact hparked
    · rw [hslot hpq, Function.update_of_ne hpq]
      exact hs.parked p hp
  · intro p hp
    change ((s.setProc q r).proc p).Rests
    by_cases hpq : p = q
    · subst hpq
      rw [hself]
      exact hrests
    · rw [hslot hpq]
      exact hs.rests p hp
  · intro c p hp
    obtain ⟨hthread, hoff', hstate, hmem⟩ := hs.next c p hp
    refine ⟨hthread, hoff', ?_, hmem⟩
    have hpq : p ≠ q := by
      rintro rfl
      exact hidle hstate
    exact (congrArg Proc.state (hslot hpq)).trans hstate
  · intro p hp hr
    apply hs.running p hp
    have hpq : p ≠ q := by
      rintro rfl
      exact hrun ((congrArg Proc.state hself).symm.trans hr)
    exact (congrArg Proc.state (hslot hpq)).symm.trans hr

end

end Xv6.Smp
