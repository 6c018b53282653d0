import Mathlib.Data.List.Basic
import Xv6.Uart.Model

/-!
# Output comes out in order, and does not stop

Both counters run free; what they delimit is what `uartputc` has stored and `uartstart` has not
taken yet. While the lock is free and bytes wait in the buffer, the device is busy or an interrupt
is due, which sends them; a process sleeps in `uartputc` only while the buffer is full.
-/

namespace Xv6.Uart

open Xv6.Lib State

variable {P H : Type}

/-- The byte, if `uartstart` wrote it. -/
def Output.stored : Output → Option UInt8
  | .buffered c => some c
  | .direct _ => none

/-- The byte that a thread has taken from the buffer and not written to THR. -/
def Pc.sending : Pc → List UInt8
  | .send c => [c]
  | _ => []

/-- What `uartstart` wrote to THR. -/
def State.written (s : State P H) : List UInt8 := (s.line ++ s.fifo).filterMap Output.stored

/-- What `uartstart` took from the buffer. -/
def State.taken (s : State P H) : List UInt8 :=
  s.written ++ s.lock.elim [] (fun a ↦ (s.pc a).sending)

/-- The buffer holds what was stored and not taken. -/
structure Holds (s : State P H) (taken : List UInt8) : Prop where
  r : s.r = UInt64.ofNat taken.length
  w : s.w = UInt64.ofNat s.put.length
  order : taken <+: s.put
  room : s.put.length ≤ taken.length + UART_TX_BUF_SIZE
  cells : ∀ i, taken.length ≤ i → i < s.put.length →
    s.put[i]? = some (s.buf (slot (UInt64.ofNat i)))

/-- Where a thread may be: inside `uartstart` with the lock only, and asleep when the buffer is
full. -/
def Pc.Fits (lock : Option (Thread P H)) (full : Bool) (a : Thread P H) : Pc → Prop
  | .start | .send _ => lock = some a
  | .asleep _ => full = true
  | _ => True

/-- Who has the lock, and who waits. -/
structure Waits (s : State P H) : Prop where
  fits : ∀ a, (s.pc a).Fits s.lock s.full a
  held : ∀ a, s.lock = some a → s.pc a = .start ∨ (∃ c, s.pc a = .send c) ∨
    s.pc a = .frozen ∧ s.panicked = true
  busy : s.lock = none → s.w ≠ s.r →
    s.fifo ≠ [] ∨ s.irq = true ∨ ∃ h, s.pc (.hart h) = .intr

/-- The invariant. -/
structure Inv (s : State P H) : Prop extends Waits s where
  holds : Holds s s.taken

/-! ### The counters -/

theorem slot_ofNat (i : Nat) : slot (UInt64.ofNat i) = Fin.ofNat UART_TX_BUF_SIZE i := by
  apply Fin.ext
  have hdvd : UART_TX_BUF_SIZE ∣ 2 ^ 64 := by decide
  simp only [slot, Fin.val_ofNat, UInt64.toNat_ofNat']
  exact Nat.mod_mod_of_dvd _ hdvd

theorem slot_ne {i j : Nat} (hij : i < j) (hj : j < i + UART_TX_BUF_SIZE) :
    slot (UInt64.ofNat i) ≠ slot (UInt64.ofNat j) := by
  rw [slot_ofNat, slot_ofNat]
  intro h
  have hval := congrArg Fin.val h
  simp only [Fin.val_ofNat] at hval
  simp only [UART_TX_BUF_SIZE] at hval hj
  omega

theorem ofNat_ne {i j : Nat} (hij : i < j) (hj : j ≤ i + UART_TX_BUF_SIZE) :
    UInt64.ofNat j ≠ UInt64.ofNat i := by
  intro h
  have hval := congrArg UInt64.toNat h
  simp only [UInt64.toNat_ofNat', UART_TX_BUF_SIZE] at hval hj
  omega

section
variable {s t : State P H} {taken : List UInt8}

theorem Holds.length_le (h : Holds s taken) : taken.length ≤ s.put.length := h.order.length_le

/-- The test of `uartstart`. -/
theorem Holds.empty_iff (h : Holds s taken) : s.w = s.r ↔ s.put.length = taken.length := by
  rw [h.w, h.r]
  constructor
  · intro he
    by_contra hne
    exact ofNat_ne (Nat.lt_of_le_of_ne h.length_le (Ne.symm hne)) h.room he
  · intro he
    rw [he]

/-- The test of `uartputc`. -/
theorem Holds.full_iff (h : Holds s taken) :
    s.full = true ↔ s.put.length = taken.length + UART_TX_BUF_SIZE := by
  rw [State.full, decide_eq_true_eq, h.w, h.r, ← UInt64.ofNat_add]
  constructor
  · intro he
    by_contra hne
    have hlt : s.put.length < taken.length + UART_TX_BUF_SIZE := Nat.lt_of_le_of_ne h.room hne
    have hle := h.length_le
    exact ofNat_ne hlt (Nat.add_le_add_right hle _) he.symm
  · intro he
    rw [he]

/-- A step that leaves the buffer alone. -/
theorem Holds.congr (h : Holds s taken) (hbuf : t.buf = s.buf) (hr : t.r = s.r) (hw : t.w = s.w)
    (hput : t.put = s.put) : Holds t taken := by
  refine ⟨hr.trans h.r, ?_, ?_, ?_, ?_⟩
  · rw [hw, hput]
    exact h.w
  · rw [hput]
    exact h.order
  · rw [hput]
    exact h.room
  · rw [hput, hbuf]
    exact h.cells

/-- `uartputc` stores a byte. -/
theorem Holds.push (h : Holds s taken) (hroom : s.put.length < taken.length + UART_TX_BUF_SIZE)
    {c : UInt8} (hbuf : t.buf = Function.update s.buf (slot s.w) c) (hr : t.r = s.r)
    (hw : t.w = s.w + 1) (hput : t.put = s.put ++ [c]) : Holds t taken := by
  refine ⟨hr.trans h.r, ?_, ?_, ?_, ?_⟩
  · rw [hw, hput, h.w, List.length_append, UInt64.ofNat_add]
    rfl
  · rw [hput]
    exact h.order.trans (List.prefix_append _ _)
  · rw [hput, List.length_append]
    exact hroom
  · intro i hle hi
    have hlen : t.put.length = s.put.length + 1 := by rw [hput, List.length_append]; rfl
    rw [hput, hbuf, h.w]
    by_cases hlast : i < s.put.length
    · rw [Function.update_of_ne (slot_ne hlast (by omega)), List.getElem?_append_left hlast]
      exact h.cells i hle hlast
    · have hi' : i = s.put.length := by omega
      rw [hi', Function.update_self, List.getElem?_concat_length]

/-- `uartstart` takes the oldest byte. -/
theorem Holds.take (h : Holds s taken) (hne : s.w ≠ s.r) (hbuf : t.buf = s.buf)
    (hr : t.r = s.r + 1) (hw : t.w = s.w) (hput : t.put = s.put) :
    Holds t (taken ++ [s.buf (slot s.r)]) := by
  have hlt : taken.length < s.put.length :=
    Nat.lt_of_le_of_ne h.length_le (fun he ↦ hne (h.empty_iff.mpr he.symm))
  have hhead : s.put[taken.length]? = some (s.buf (slot s.r)) := by
    rw [h.r]
    exact h.cells taken.length (Nat.le_refl _) hlt
  have hlen : (taken ++ [s.buf (slot s.r)]).length = taken.length + 1 := List.length_append
  refine ⟨?_, ?_, ?_, ?_, ?_⟩
  · rw [hlen, hr, h.r, UInt64.ofNat_add]
    rfl
  · rw [hw, hput]
    exact h.w
  · have htake : taken = s.put.take taken.length := List.prefix_iff_eq_take.mp h.order
    have hnext : taken ++ [s.buf (slot s.r)] = s.put.take (taken.length + 1) := by
      rw [List.take_add_one, ← htake, hhead]
      rfl
    rw [hput, hnext]
    exact List.take_prefix _ _
  · rw [hput, hlen]
    have := h.room
    omega
  · rw [hlen, hput, hbuf]
    exact fun i hle ↦ h.cells i (by omega)

end

/-! ### What a step does to the threads -/

/-- A thread that does not have the lock, after a step of another one. -/
theorem Pc.Fits.other {lock lock' : Option (Thread P H)} {full full' : Bool} {b : Thread P H}
    {pc : Pc} (h : pc.Fits lock full b) (hlock : lock ≠ some b)
    (hfull : full = true → full' = true) : pc.Fits lock' full' b := by
  cases pc with
  | start | send => exact (hlock h).elim
  | asleep => exact hfull h
  | out | putc | woken | intr | sync | syncWait | syncSend | frozen => trivial

section
variable [DecidableEq P] [DecidableEq H] {s : State P H} {a b : Thread P H}

@[simp] theorem goto_self (pc : Pc) : (s.goto a pc).pc a = pc := Function.update_self _ _ _

theorem goto_of_ne (pc : Pc) (h : b ≠ a) : (s.goto a pc).pc b = s.pc b :=
  Function.update_of_ne h _ _

omit [DecidableEq P] [DecidableEq H] in
/-- The lock belongs to a thread inside of `uartstart`, unless that thread is frozen. -/
theorem Inv.lock_ne (h : Inv s) (hstart : s.pc a ≠ .start) (hsend : ∀ c, s.pc a ≠ .send c)
    (hfrozen : s.pc a ≠ .frozen) : s.lock ≠ some a := by
  intro hlock
  rcases h.held a hlock with hpc | ⟨c, hpc⟩ | ⟨hpc, -⟩
  · exact hstart hpc
  · exact hsend c hpc
  · exact hfrozen hpc

/-- What was taken does not change with a thread that has no lock. -/
theorem taken_goto (pc : Pc) (h : s.lock ≠ some a) : (s.goto a pc).taken = s.taken := by
  change s.written ++ s.lock.elim [] _ = s.written ++ s.lock.elim [] _
  cases hlock : s.lock with
  | none => rfl
  | some b =>
    have hb : b ≠ a := fun he ↦ h (he ▸ hlock)
    simp only [Option.elim_some, goto_of_ne pc hb]

omit [DecidableEq P] [DecidableEq H] in
theorem taken_free (h : s.lock = none) : s.taken = s.written := by
  rw [State.taken, h]
  exact List.append_nil _

omit [DecidableEq P] [DecidableEq H] in
theorem taken_held {pc : Pc} (h : s.lock = some a) (hpc : s.pc a = pc) :
    s.taken = s.written ++ pc.sending := by
  rw [State.taken, h, ← hpc]
  rfl

omit [DecidableEq P] [DecidableEq H] in
theorem Holds.of_held {taken : List UInt8} {pc : Pc} (hlock : s.lock = some a)
    (hpc : s.pc a = pc) (htaken : taken = s.written ++ pc.sending) (h : Holds s taken) :
    Holds s s.taken := by
  rw [taken_held hlock hpc, ← htaken]
  exact h

/-- A handler that is due stays so while other threads move. -/
theorem intr_goto (pc : Pc) (hintr : s.pc a ≠ .intr) (h : ∃ g, s.pc (.hart g) = .intr) :
    ∃ g, (s.goto a pc).pc (.hart g) = .intr := by
  obtain ⟨g, hg⟩ := h
  have hga : Thread.hart g ≠ a := fun he ↦ hintr (he ▸ hg)
  exact ⟨g, (goto_of_ne pc hga).trans hg⟩

/-- A thread without the lock moves. -/
theorem Inv.move (h : Inv s) {pc : Pc} (hlock : s.lock ≠ some a) (hintr : s.pc a ≠ .intr)
    (hfits : pc.Fits s.lock s.full a) : Inv (s.goto a pc) := by
  refine ⟨⟨?_, ?_, ?_⟩, ?_⟩
  · intro b
    by_cases hba : b = a
    · subst hba
      rw [goto_self]
      exact hfits
    · rw [goto_of_ne pc hba]
      exact h.fits b
  · intro b hb
    have hba : b ≠ a := fun he ↦ hlock (he ▸ hb)
    rw [goto_of_ne pc hba]
    exact h.held b hb
  · intro hfree hne
    exact (h.busy hfree hne).imp_right (Or.imp_right (intr_goto pc hintr))
  · rw [taken_goto pc hlock]
    exact h.holds.congr rfl rfl rfl rfl

omit [DecidableEq P] [DecidableEq H] in
/-- `wakeup` leaves nobody asleep. -/
theorem fits_wakeup {lock : Option (Thread P H)} {full full' : Bool}
    (h : (s.pc b).Fits lock full b) :
    (s.wakeup.pc b).Fits lock full' b := by
  unfold State.wakeup
  dsimp only
  split
  · trivial
  · next hno =>
    cases hpc : s.pc b with
    | asleep c => exact (hno c hpc).elim
    | start | send =>
      rw [hpc] at h
      exact h
    | out | putc | woken | intr | sync | syncWait | syncSend | frozen => trivial

end

/-! ### Steps -/

section
variable [DecidableEq P] [DecidableEq H] {s t : State P H} {a : Thread P H}

/-- With the lock free, `uartputc` stores its byte or goes to sleep. -/
theorem inv_store (h : Inv s) (hfree : s.lock = none) (c : UInt8) (hintr : s.pc a ≠ .intr) :
    Inv (s.store a c) := by
  have hnone (b : Thread P H) : s.lock ≠ some b := by
    rw [hfree]
    exact fun he ↦ by cases he
  rw [State.store]
  split
  · next hfull => exact h.move (hnone a) hintr hfull
  · next hfull =>
    have hroom : s.put.length < s.taken.length + UART_TX_BUF_SIZE := by
      refine Nat.lt_of_le_of_ne h.holds.room ?_
      exact fun he ↦ hfull (h.holds.full_iff.mpr he)
    refine ⟨⟨?_, ?_, ?_⟩, ?_⟩
    · intro b
      by_cases hba : b = a
      · subst hba
        change Pc.Fits _ _ _ (Function.update s.pc b .start b)
        rw [Function.update_self]
        rfl
      · change Pc.Fits _ _ _ (Function.update s.pc a .start b)
        rw [Function.update_of_ne hba]
        exact (h.fits b).other (hnone b) (fun hf ↦ (hfull hf).elim)
    · intro b hb
      cases hb
      exact .inl (Function.update_self _ _ _)
    · intro hb
      cases hb
    · refine .of_held rfl (Function.update_self _ _ _) ?_ (h.holds.push hroom rfl rfl rfl rfl)
      rw [taken_free hfree]
      exact (List.append_nil _).symm

/-- A thread acquires the lock to start sending, or to freeze. -/
theorem inv_enter (h : Inv s) (hfree : s.lock = none) {pc : Pc}
    (hpc : pc = .start ∨ pc = .frozen ∧ s.panicked = true) :
    Inv { s.goto a pc with lock := some a } := by
  have hnone (b : Thread P H) : s.lock ≠ some b := by
    rw [hfree]
    exact fun he ↦ by cases he
  refine ⟨⟨?_, ?_, ?_⟩, ?_⟩
  · intro b
    change Pc.Fits (some a) s.full b ((s.goto a pc).pc b)
    by_cases hba : b = a
    · subst hba
      rw [goto_self]
      rcases hpc with rfl | ⟨rfl, -⟩
      · rfl
      · trivial
    · rw [goto_of_ne _ hba]
      exact (h.fits b).other (hnone b) id
  · intro b hb
    cases hb
    change (s.goto a pc).pc a = _ ∨ (∃ c, (s.goto a pc).pc a = _) ∨ _
    rw [goto_self]
    exact hpc.imp_right .inr
  · intro hb
    cases hb
  · have hsending : pc.sending = [] := by
      rcases hpc with rfl | ⟨rfl, -⟩ <;> rfl
    refine .of_held rfl (goto_self pc) ?_ (h.holds.congr rfl rfl rfl rfl)
    rw [taken_free hfree, hsending]
    exact (List.append_nil _).symm

/-- `uartstart` returns and the lock is released, when there is nothing to send or the device is
busy. -/
theorem inv_leave (h : Inv s) (hpc : s.pc a = .start) (hdone : s.w = s.r ∨ s.fifo ≠ []) :
    Inv (s.leave a) := by
  have hlock : s.lock = some a := by
    have := h.fits a
    rwa [hpc] at this
  refine ⟨⟨?_, ?_, ?_⟩, ?_⟩
  · intro b
    change Pc.Fits none s.full b ((s.goto a .out).pc b)
    by_cases hba : b = a
    · subst hba
      rw [goto_self]
      trivial
    · rw [goto_of_ne _ hba]
      refine (h.fits b).other ?_ id
      rw [hlock]
      exact fun he ↦ hba (Option.some.inj he).symm
  · intro b hb
    cases hb
  · intro _ hne
    exact .inl (hdone.resolve_left hne)
  · have htaken : s.taken = s.written := by
      rw [taken_held hlock hpc]
      exact List.append_nil _
    rw [taken_free rfl]
    change Holds _ s.written
    rw [← htaken]
    exact h.holds.congr rfl rfl rfl rfl

/-- `uartstart` takes a byte and wakes the writers. -/
theorem inv_fetch (h : Inv s) (hpc : s.pc a = .start) (hne : s.w ≠ s.r) : Inv (s.fetch a) := by
  have hlock : s.lock = some a := by
    have := h.fits a
    rwa [hpc] at this
  refine ⟨⟨?_, ?_, ?_⟩, ?_⟩
  · intro b
    change Pc.Fits s.lock _ b (Function.update s.wakeup.pc a _ b)
    by_cases hba : b = a
    · subst hba
      rw [Function.update_self]
      exact hlock
    · rw [Function.update_of_ne hba]
      exact fits_wakeup (h.fits b)
  · intro b hb
    have hb' : s.lock = some b := hb
    rw [hlock] at hb'
    cases hb'
    exact .inr (.inl ⟨_, Function.update_self _ _ _⟩)
  · intro hb
    have hb' : s.lock = none := hb
    rw [hlock] at hb'
    cases hb'
  · have htaken : s.taken = s.written := by
      rw [taken_held hlock hpc]
      exact List.append_nil _
    refine .of_held hlock (Function.update_self _ _ _) ?_ (h.holds.take hne rfl rfl rfl rfl)
    rw [htaken]
    rfl

/-- `uartstart` writes the byte to THR. -/
theorem inv_send (h : Inv s) {c : UInt8} (hpc : s.pc a = .send c) : Inv (s.send a c) := by
  have hlock : s.lock = some a := by
    have := h.fits a
    rwa [hpc] at this
  refine ⟨⟨?_, ?_, ?_⟩, ?_⟩
  · intro b
    change Pc.Fits s.lock s.full b ((s.goto a .start).pc b)
    by_cases hba : b = a
    · subst hba
      rw [goto_self]
      exact hlock
    · rw [goto_of_ne _ hba]
      exact h.fits b
  · intro b hb
    have hb' : s.lock = some b := hb
    rw [hlock] at hb'
    cases hb'
    exact .inl (goto_self _)
  · intro hb
    have hb' : s.lock = none := hb
    rw [hlock] at hb'
    cases hb'
  · have htaken : s.taken = s.written ++ [c] := taken_held hlock hpc
    refine .of_held hlock (goto_self _) ?_ (h.holds.congr rfl rfl rfl rfl)
    simp [htaken, State.written, State.send, Output.stored, State.goto, Pc.sending]

/-- `uartputc_sync` writes its byte to THR. -/
theorem inv_syncSend (h : Inv s) {c : UInt8} (hpc : s.pc a = .syncSend c) :
    Inv { s.goto a .out with fifo := s.fifo ++ [.direct c] } := by
  have hlock : s.lock ≠ some a := by
    apply h.lock_ne <;> rw [hpc] <;> simp
  have hmove : Inv (s.goto a .out) := h.move hlock (by rw [hpc]; simp) trivial
  refine ⟨⟨hmove.fits, hmove.held, ?_⟩, ?_⟩
  · exact fun _ _ ↦ .inl (List.append_ne_nil_of_right_ne_nil _ (List.cons_ne_nil _ _))
  · have hwritten : ({ s.goto a .out with fifo := s.fifo ++ [.direct c] } : State P H).written =
        (s.goto a .out).written := by
      simp [State.written, Output.stored, State.goto]
    have htaken : ({ s.goto a .out with fifo := s.fifo ++ [.direct c] } : State P H).taken =
        (s.goto a .out).taken := by
      rw [State.taken, hwritten]
      rfl
    rw [htaken]
    exact hmove.holds.congr rfl rfl rfl rfl

omit [DecidableEq P] [DecidableEq H] in
/-- The device sends a byte. -/
theorem inv_device (h : Inv s) {x : Output} {rest : List Output} (hfifo : s.fifo = x :: rest) :
    Inv { s with fifo := rest, line := s.line ++ [x], irq := s.irq || rest.isEmpty } := by
  refine ⟨⟨h.fits, h.held, ?_⟩, ?_⟩
  · intro _ _
    cases rest with
    | nil => exact .inr (.inl (Bool.or_true _))
    | cons y rest => exact .inl (List.cons_ne_nil y rest)
  · have hwritten : ({ s with
        fifo := rest, line := s.line ++ [x], irq := s.irq || rest.isEmpty } : State P H).written =
        s.written := by
      simp [State.written, hfifo]
    rw [State.taken, hwritten]
    exact h.holds.congr rfl rfl rfl rfl

/-- The next step of a thread. -/
theorem inv_advance (h : Inv s) (ht : s.advance a = some t) : Inv t := by
  unfold State.advance at ht
  split at ht
  · next c hpc =>
    obtain ⟨hfree, ht⟩ := Option.ite_none_right_eq_some.mp ht
    cases ht
    split
    · next hpanic => exact inv_enter h hfree (.inr ⟨rfl, hpanic⟩)
    · exact inv_store h hfree c (by rw [hpc]; simp)
  · next c hpc =>
    obtain ⟨hfree, ht⟩ := Option.ite_none_right_eq_some.mp ht
    cases ht
    exact inv_store h hfree c (by rw [hpc]; simp)
  · next hpc =>
    obtain ⟨hfree, ht⟩ := Option.ite_none_right_eq_some.mp ht
    cases ht
    exact inv_enter h hfree (.inl rfl)
  · next hpc =>
    cases ht
    rw [State.uartstart]
    split
    · next he => exact inv_leave h hpc (.inl he)
    · next hne =>
      split
      · next hbusy => exact inv_leave h hpc (.inr hbusy)
      · exact inv_fetch h hpc hne
  · next c hpc =>
    cases ht
    exact inv_send h hpc
  · next c hpc =>
    cases ht
    have hlock : s.lock ≠ some a := by
      apply h.lock_ne <;> rw [hpc] <;> simp
    apply h.move hlock
    · rw [hpc]
      simp
    · split <;> trivial
  · next c hpc =>
    obtain ⟨-, ht⟩ := Option.ite_none_right_eq_some.mp ht
    cases ht
    have hlock : s.lock ≠ some a := by
      apply h.lock_ne <;> rw [hpc] <;> simp
    exact h.move hlock (by rw [hpc]; simp) trivial
  · next c hpc =>
    cases ht
    exact inv_syncSend h hpc
  · cases ht
  · cases ht
  · cases ht

/-- Every step keeps the invariant. -/
theorem inv_step {act : Act P H} (h : Inv s) (ht : s.step act = some t) : Inv t := by
  cases act with
  | uartputc p c =>
    obtain ⟨hpc, ht⟩ := Option.ite_none_right_eq_some.mp ht
    cases ht
    have hlock : s.lock ≠ some (.proc p) := by
      apply h.lock_ne <;> rw [hpc] <;> simp
    exact h.move hlock (by rw [hpc]; simp) trivial
  | uartputc_sync a c =>
    obtain ⟨hpc, ht⟩ := Option.ite_none_right_eq_some.mp ht
    cases ht
    have hlock : s.lock ≠ some a := by
      apply h.lock_ne <;> rw [hpc] <;> simp
    exact h.move hlock (by rw [hpc]; simp) trivial
  | uartintr g =>
    obtain ⟨hpc, ht⟩ := Option.ite_none_right_eq_some.mp ht
    cases ht
    have hlock : s.lock ≠ some (.hart g) := by
      apply h.lock_ne <;> rw [hpc] <;> simp
    have hmove : Inv (s.goto (.hart g) .intr) := h.move hlock (by rw [hpc]; simp) trivial
    refine ⟨⟨hmove.fits, hmove.held, ?_⟩, hmove.holds.congr rfl rfl rfl rfl⟩
    exact fun _ _ ↦ .inr (.inr ⟨g, goto_self _⟩)
  | step a => exact inv_advance h ht
  | device =>
    unfold State.step at ht
    dsimp only at ht
    split at ht
    · cases ht
    · next x rest hfifo =>
      cases ht
      exact inv_device h hfifo
  | kill p =>
    unfold State.step at ht
    dsimp only at ht
    split at ht
    · next c hpc =>
      cases ht
      have hlock : s.lock ≠ some (.proc p) := by
        apply h.lock_ne <;> rw [hpc] <;> simp
      exact h.move hlock (by rw [hpc]; simp) trivial
    · cases ht
  | panic =>
    cases ht
    refine ⟨⟨h.fits, ?_, h.busy⟩, h.holds.congr rfl rfl rfl rfl⟩
    exact fun b hb ↦ (h.held b hb).imp_right (Or.imp_right (fun hf ↦ ⟨hf.1, rfl⟩))

omit [DecidableEq P] [DecidableEq H] in
theorem inv_init : Inv (init : State P H) := by
  refine ⟨⟨fun _ ↦ trivial, ?_, ?_⟩, ?_⟩
  · intro a ha
    cases ha
  · intro _ hne
    exact (hne rfl).elim
  · refine ⟨rfl, rfl, List.nil_prefix, Nat.zero_le _, ?_⟩
    intro i _ hi
    cases hi

/-! ### What every run keeps -/

/-- The bytes that the counters delimit. -/
def State.ring (s : State P H) : List UInt8 :=
  (List.range (s.w - s.r).toNat).map (fun j ↦ s.buf (slot (s.r + UInt64.ofNat j)))

/-- What `uartputc` stored is what was written to THR, in that order, then the byte that
`uartstart` has in hand, then at most `UART_TX_BUF_SIZE` bytes in the buffer. -/
structure Fifo (s : State P H) : Prop where
  order : s.put = s.taken ++ s.ring
  bounded : s.ring.length ≤ UART_TX_BUF_SIZE

/-- A process sleeps only while the buffer is full; and while bytes wait in the buffer and the
lock is free, the device is sending or an interrupt is due. -/
structure NoStranded (s : State P H) : Prop where
  asleep : ∀ a c, s.pc a = .asleep c → s.ring.length = UART_TX_BUF_SIZE
  busy : s.lock = none → s.ring ≠ [] →
    s.fifo ≠ [] ∨ s.irq = true ∨ ∃ h, s.pc (.hart h) = .intr

omit [DecidableEq P] [DecidableEq H] in
theorem Holds.count {taken : List UInt8} (h : Holds s taken) :
    (s.w - s.r).toNat = s.put.length - taken.length := by
  have hle := h.length_le
  have hroom := h.room
  rw [h.w, h.r, UInt64.toNat_sub]
  simp only [UInt64.toNat_ofNat', UART_TX_BUF_SIZE] at hroom ⊢
  omega

omit [DecidableEq P] [DecidableEq H] in
theorem length_ring (s : State P H) : s.ring.length = (s.w - s.r).toNat := by
  simp [State.ring]

omit [DecidableEq P] [DecidableEq H] in
theorem Holds.put_eq {taken : List UInt8} (h : Holds s taken) : s.put = taken ++ s.ring := by
  apply List.ext_getElem?
  intro i
  by_cases hi : i < taken.length
  · rw [List.getElem?_append_left hi]
    obtain ⟨rest, hrest⟩ := h.order
    rw [← hrest, List.getElem?_append_left hi]
  · have hle : taken.length ≤ i := Nat.le_of_not_lt hi
    rw [List.getElem?_append_right hle, State.ring, h.count, List.getElem?_map]
    by_cases hlt : i < s.put.length
    · have hin : i - taken.length < s.put.length - taken.length := by omega
      have hadd : taken.length + (i - taken.length) = i := by omega
      rw [List.getElem?_range hin, h.cells i hle hlt, h.r, Option.map_some, ← UInt64.ofNat_add,
        hadd]
    · have hout : (List.range (s.put.length - taken.length)).length ≤ i - taken.length := by
        rw [List.length_range]
        omega
      rw [List.getElem?_eq_none (Nat.le_of_not_lt hlt), List.getElem?_eq_none hout]
      rfl

omit [DecidableEq P] [DecidableEq H] in
theorem Inv.fifo (h : Inv s) : Fifo s := by
  refine ⟨h.holds.put_eq, ?_⟩
  have := h.holds.room
  rw [length_ring, h.holds.count]
  omega

omit [DecidableEq P] [DecidableEq H] in
theorem Inv.noStranded (h : Inv s) : NoStranded s := by
  constructor
  · intro a c ha
    have hfits := h.fits a
    rw [ha] at hfits
    have hfull := h.holds.full_iff.mp hfits
    rw [length_ring, h.holds.count]
    omega
  · intro hfree hring
    apply h.busy hfree
    intro he
    apply hring
    rw [← List.length_eq_zero_iff, length_ring, he, UInt64.sub_self]
    rfl

theorem output_fifo (as : List (Act P H)) : Always State.step Fifo init as :=
  always_of_invariant (fun _ ↦ Inv.fifo) (fun _ _ _ ↦ inv_step) inv_init as

theorem no_writer_stranded (as : List (Act P H)) : Always State.step NoStranded init as :=
  always_of_invariant (fun _ ↦ Inv.noStranded) (fun _ _ _ ↦ inv_step) inv_init as

end

end Xv6.Uart
