import Xv6.Uart.Safe

/-!
# The buffer drains

From every state that a run reaches, the device, the thread that has the lock and the interrupt
handler of one idle CPU can send all that `uartputc` has stored, unless a panic froze the output.
-/

namespace Xv6.Uart

open Xv6.Lib State

variable {P H : Type} [DecidableEq P] [DecidableEq H] {s t u : State P H}
variable {lock : Option (Thread P H)} {g : H}

/-- The threads that send: the one that has the lock in the beginning, and the handler of CPU
`g`. -/
def Sender (lock : Option (Thread P H)) (g : H) (a : Thread P H) : Prop :=
  lock = some a ∨ a = .hart g

/-- Steps of the device and of these threads, and the interrupt of CPU `g`: no new calls, nothing
that another thread does, and no panic. -/
def Act.Sends (lock : Option (Thread P H)) (g : H) : Act P H → Prop
  | .device => True
  | .step a => Sender lock g a
  | .uartintr h => h = g
  | .uartputc _ _ | .uartputc_sync _ _ | .kill _ | .panic => False

/-- Such steps lead from `s` to `t`. -/
def Drives (lock : Option (Thread P H)) (g : H) (s t : State P H) : Prop :=
  ∃ as, run State.step s as = some t ∧ ∀ b ∈ as, b.Sends lock g

theorem Drives.refl (s : State P H) : Drives lock g s s := ⟨[], rfl, fun _ hb ↦ by cases hb⟩

/-- One step that sends, and then others. -/
theorem Drives.cons (act : Act P H) (hact : act.Sends lock g) (hstep : s.step act = some t)
    (h : Drives lock g t u) : Drives lock g s u := by
  obtain ⟨as, hrun, has⟩ := h
  refine ⟨act :: as, run_cons_eq_some.mpr ⟨t, hstep, hrun⟩, ?_⟩
  intro b hb
  rcases List.mem_cons.mp hb with rfl | hb
  · exact hact
  · exact has b hb

theorem Drives.trans (h : Drives lock g s t) (h' : Drives lock g t u) : Drives lock g s u := by
  obtain ⟨as, hrun, has⟩ := h
  induction as generalizing s with
  | nil =>
    cases hrun
    exact h'
  | cons a as ih =>
    obtain ⟨v, hv, hrest⟩ := run_cons_eq_some.mp hrun
    have hsends := has a List.mem_cons_self
    exact .cons a hsends hv (ih hrest (fun b hb ↦ has b (List.mem_cons_of_mem a hb)))

/-- What the device has left to send does not concern the threads. -/
structure Flushed (s t : State P H) : Prop where
  fifo : t.fifo = []
  inv : Inv s → Inv t
  pc : t.pc = s.pc
  lock : t.lock = s.lock
  put : t.put = s.put
  r : t.r = s.r
  w : t.w = s.w

/-- The device sends all bytes it was given. -/
theorem drives_flush (s : State P H) : ∃ t, Drives lock g s t ∧ Flushed s t := by
  generalize hn : s.fifo.length = n
  induction n generalizing s with
  | zero =>
    exact ⟨s, .refl s, List.length_eq_zero_iff.mp hn, id, rfl, rfl, rfl, rfl, rfl⟩
  | succ n ih =>
    cases hfifo : s.fifo with
    | nil =>
      rw [hfifo] at hn
      cases hn
    | cons x rest =>
      have hstep : s.step .device = some { s with
          fifo := rest, line := s.line ++ [x], irq := s.irq || rest.isEmpty } := by
        simp only [State.step, hfifo]
      have hrest : rest.length = n := by
        rw [hfifo] at hn
        exact Nat.succ.inj hn
      obtain ⟨t, ht, hf⟩ := ih { s with
          fifo := rest, line := s.line ++ [x], irq := s.irq || rest.isEmpty } hrest
      refine ⟨t, .cons .device trivial hstep ht, hf.fifo, ?_, hf.pc, hf.lock, hf.put,
        hf.r, hf.w⟩
      exact fun h ↦ hf.inv (inv_device h hfifo)

/-- Sending, with the lock free in the end and nothing left in the buffer. -/
structure Emptied (s t : State P H) : Prop where
  inv : Inv t
  lock : t.lock = none
  empty : t.w = t.r
  put : t.put = s.put

/-- One byte less is waiting. -/
theorem count_take {r w : UInt64} (h : w ≠ r) : (w - (r + 1)).toNat < (w - r).toNat := by
  have hne : w.toNat ≠ r.toNat := fun he ↦ h (UInt64.toNat_inj.mp he)
  have hw := w.toNat_lt
  have hr := r.toNat_lt
  simp only [UInt64.toNat_sub, UInt64.toNat_add, UInt64.toNat_one]
  omega

/-- The thread at the top of the loop of `uartstart` sends the buffer. -/
theorem drives_start {a : Thread P H} (ha : Sender lock g a) (h : Inv s) (hpc : s.pc a = .start) :
    ∃ t, Drives lock g s t ∧ Emptied s t := by
  generalize hn : (s.w - s.r).toNat = n
  induction n using Nat.strongRecOn generalizing s with
  | _ n ih =>
    obtain ⟨u, hu, hf⟩ := drives_flush s
    have hinv := hf.inv h
    have hpcu : u.pc a = .start := by rw [hf.pc, hpc]
    by_cases he : u.w = u.r
    · have hstep : u.step (.step a) = some (u.leave a) := by
        simp only [State.step, State.advance, hpcu, State.uartstart, if_pos he]
      refine ⟨u.leave a, hu.trans (.cons (.step a) ha hstep (.refl _)), ?_⟩
      exact ⟨inv_leave hinv hpcu (.inl he), rfl, he, hf.put⟩
    · -- one round of the loop, and the write of its byte
      have hfetch : u.step (.step a) = some (u.fetch a) := by
        simp only [State.step, State.advance, hpcu, State.uartstart, if_neg he, hf.fifo, ne_eq,
          not_true_eq_false, if_false]
      have hpcv : (u.fetch a).pc a = .send (u.buf (slot u.r)) := Function.update_self _ _ _
      have hinv' := inv_fetch hinv hpcu he
      have hsend : (u.fetch a).step (.step a) =
          some ((u.fetch a).send a (u.buf (slot u.r))) := by
        simp only [State.step, State.advance, hpcv]
      have hless : (u.w - (u.r + 1)).toNat < n := by
        rw [← hn, ← hf.r, ← hf.w]
        exact count_take he
      obtain ⟨t, ht, hempty⟩ := ih _ hless (inv_send hinv' hpcv) (goto_self .start) rfl
      refine ⟨t, hu.trans (.cons (.step a) ha hfetch (.cons (.step a) ha hsend ht)), ?_⟩
      exact ⟨hempty.inv, hempty.lock, hempty.empty, hempty.put.trans hf.put⟩

/-- The thread that has the lock sends the buffer and releases it. -/
theorem drives_unlock (h : Inv s) (hpanic : s.panicked = false) {a : Thread P H}
    (hlock : s.lock = some a) : ∃ t, Drives s.lock g s t ∧ Emptied s t := by
  have ha : Sender s.lock g a := .inl hlock
  rcases h.held a hlock with hpc | ⟨c, hpc⟩ | ⟨-, hp⟩
  · exact drives_start ha h hpc
  · have hsend : s.step (.step a) = some (s.send a c) := by
      simp only [State.step, State.advance, hpc]
    obtain ⟨t, ht, hempty⟩ := drives_start ha (inv_send h hpc) (goto_self .start)
    exact ⟨t, .cons (.step a) ha hsend ht, hempty.inv, hempty.lock, hempty.empty, hempty.put⟩
  · rw [hpanic] at hp
    cases hp

/-- With the lock free, an interrupt of an idle CPU sends the buffer. -/
theorem drives_intr (h : Inv s) (hidle : s.pc (.hart g) = .out) (hfree : s.lock = none) :
    ∃ t, Drives lock g s t ∧ Emptied s t := by
  have hg : Sender lock g (.hart g) := .inr rfl
  have hintr : s.step (.uartintr g) = some { s.goto (.hart g) .intr with irq := false } :=
    if_pos hidle
  have hinv := inv_step h hintr
  obtain ⟨u, hu⟩ : ∃ u, u = ({ s.goto (.hart g) .intr with irq := false } : State P H) := ⟨_, rfl⟩
  rw [← hu] at hintr hinv
  have hfreeu : u.lock = none := by rw [hu]; exact hfree
  have hpcu : u.pc (.hart g) = .intr := by rw [hu]; exact goto_self _
  have hstep : u.step (.step (.hart g)) =
      some { u.goto (.hart g) .start with lock := some (.hart g) } := by
    simp only [State.step, State.advance, hpcu, hfreeu, if_true]
  obtain ⟨t, ht, hempty⟩ := drives_start hg (inv_step hinv hstep) (goto_self .start)
  refine ⟨t, .cons (.uartintr g) rfl hintr (.cons (.step (.hart g)) hg hstep ht), ?_⟩
  refine ⟨hempty.inv, hempty.lock, hempty.empty, hempty.put.trans ?_⟩
  rw [hu]
  rfl

omit [DecidableEq P] [DecidableEq H] in
/-- All that was stored is on the line, and nobody has to wait for room. -/
theorem Emptied.line (h : Emptied s t) (hf : Flushed t u) :
    u.line.filterMap Output.stored = u.put ∧ ∀ a c, u.pc a ≠ .asleep c := by
  have hinv := hf.inv h.inv
  have hfree : u.lock = none := hf.lock.trans h.lock
  have hempty : u.w = u.r := by rw [hf.w, hf.r, h.empty]
  constructor
  · have hring : u.ring = [] := by
      rw [← List.length_eq_zero_iff, length_ring, hempty, UInt64.sub_self]
      rfl
    have hput := hinv.fifo.order
    rw [hring, List.append_nil, taken_free hfree, State.written, hf.fifo, List.append_nil] at hput
    exact hput.symm
  · intro a c ha
    have hfull := hinv.noStranded.asleep a c ha
    rw [length_ring, hempty, UInt64.sub_self] at hfull
    cases hfull

/-- Whatever the processes and the interrupts did, without a panic the device, the thread that has
the lock and one CPU that takes interrupts bring all bytes that were stored onto the line, and then
nobody sleeps. -/
theorem output_drains {as : List (Act P H)} (hrun : run State.step init as = some s)
    (hpanic : s.panicked = false) (hidle : s.pc (.hart g) = .out) :
    ∃ t, Drives s.lock g s t ∧ t.put = s.put ∧ t.line.filterMap Output.stored = s.put ∧
      ∀ a c, t.pc a ≠ .asleep c := by
  have hinv : Inv s :=
    (always_of_invariant (fun _ h ↦ h) (fun _ _ _ ↦ inv_step) inv_init as).last hrun
  obtain ⟨t, ht, hempty⟩ : ∃ t, Drives s.lock g s t ∧ Emptied s t := by
    cases hlock : s.lock with
    | none => exact drives_intr hinv hidle hlock
    | some a =>
      rw [← hlock]
      exact drives_unlock hinv hpanic hlock
  obtain ⟨u, hu, hf⟩ := drives_flush t
  obtain ⟨hline, hawake⟩ := hempty.line hf
  have hput : u.put = s.put := hf.put.trans hempty.put
  exact ⟨u, ht.trans hu, hput, hline.trans hput, hawake⟩

/-- Two writers; the first byte is in the hand of `uartstart`. -/
def twoWriters : List (Act (Fin 2) Unit) :=
  let p : Fin 2 := ⟨0, Nat.two_pos⟩
  let q : Fin 2 := ⟨1, Nat.one_lt_two⟩
  [.uartputc p 65, .uartputc q 66, .step (.proc p), .step (.proc p), .step (.proc p),
    .step (.proc p), .step (.proc q)]

theorem output_drains_twoWriters : ∃ s t : State (Fin 2) Unit,
    run State.step init twoWriters = some s ∧ s.ring = [66] ∧ Drives s.lock () s t ∧
      t.line.filterMap Output.stored = [65, 66] := by
  have hrun : ∃ s : State (Fin 2) Unit, run State.step init twoWriters = some s ∧
      s.panicked = false ∧ s.pc (.hart ()) = .out ∧ s.put = [65, 66] ∧ s.ring = [66] :=
    ⟨_, rfl, rfl, rfl, rfl, rfl⟩
  obtain ⟨s, hs, hpanic, hidle, hput, hring⟩ := hrun
  obtain ⟨t, ht, -, hline, -⟩ := output_drains hs hpanic hidle
  exact ⟨s, t, hs, hring, ht, hline.trans hput⟩

end Xv6.Uart
