import Xv6.Pipe.Model

/-!
# The pipe is a bounded queue

A run is recorded together with the bytes that `pipewrite` put into the pipe and those that
`piperead` took out of it. What was put in is what was taken out followed by what the counters
delimit, also after they have wrapped.
-/

namespace Xv6.Pipe

open Xv6.Lib

/-- A byte put into the pipe: who wrote it, in which of its calls of `pipewrite`, and from which
offset of that call's buffer. -/
structure Entry (P : Type) where
  writer : P
  call : Nat
  offset : Nat
  byte : UInt8
  deriving DecidableEq, Repr

/-- The bytes put in and taken out so far, and the number of calls of `pipewrite` each process has
made. -/
structure History (P : Type) where
  put : List (Entry P)
  taken : List UInt8
  calls : P → Nat

/-- Nothing has happened. -/
def History.start {P : Type} : History P := ⟨[], [], fun _ ↦ 0⟩

/-- The offset a writer has come to. -/
def Pc.offset : Pc → Option Nat
  | .writeAcquire _ i => some i
  | .writeLoop _ _ i => some i
  | _ => none

section
variable {P : Type} [DecidableEq P]

/-- What a step from `s` to `t` adds to the history: a byte was put in when `nwrite` moved, and
one was taken out when `nread` moved. -/
def History.record (h : History P) (s t : State P) : Act P → History P
  | .pipewrite p _ => { h with calls := Function.update h.calls p (h.calls p + 1) }
  | .writeIter p (some ch) =>
    if t.pipe.nwrite = s.pipe.nwrite then h
    else
      let e := ⟨p, h.calls p, (s.thread p).pc.offset.getD 0, ch⟩
      { h with put := h.put ++ [e] }
  | .readIter _ _ =>
    if t.pipe.nread = s.pipe.nread then h
    else { h with taken := h.taken ++ [s.pipe.data (slot s.pipe.nread)] }
  | _ => h

/-- A step with its history. -/
def recordStep (x : State P × History P) (a : Act P) : Option (State P × History P) :=
  (step x.1 a).map (fun t ↦ (t, x.2.record x.1 t a))

/-- The bytes from `nread` to `nwrite`. -/
def contents (pi : Pipe) : List UInt8 :=
  (List.range pi.count).map (fun j ↦ pi.data (slot (pi.nread + UInt32.ofNat j)))

/-- The entries of one call. -/
def History.ofCall (h : History P) (p : P) (c : Nat) : List (Entry P) :=
  h.put.filter (fun e ↦ e.writer = p ∧ e.call = c)

/-- The pipe is a bounded queue: its count is in bounds, what was taken out is a prefix of what
was put in, and each writer's bytes were put in in its order: those of a call from the front of
its buffer without a gap, and those of its calls one call after the other. -/
structure Fifo (x : State P × History P) : Prop where
  bounded : x.1.pipe.count ≤ PIPESIZE
  order : x.2.taken <+: x.2.put.map (·.byte)
  offsets : ∀ p c, ∃ k, (x.2.ofCall p c).map (·.offset) = List.range k
  calls : x.2.put.Pairwise (fun d e ↦ d.writer = e.writer → d.call ≤ e.call)

/-- The invariant behind it. -/
structure Recorded (x : State P × History P) : Prop where
  bounded : x.1.pipe.count ≤ PIPESIZE
  queue : x.2.put.map (·.byte) = x.2.taken ++ contents x.1.pipe
  offsets : ∀ p c, ∃ k, (x.2.ofCall p c).map (·.offset) = List.range k
  calls : x.2.put.Pairwise (fun d e ↦ d.writer = e.writer → d.call ≤ e.call)
  begun : ∀ e ∈ x.2.put, e.call ≤ x.2.calls e.writer
  current : ∀ p i, (x.1.thread p).pc.offset = some i →
    (x.2.ofCall p (x.2.calls p)).map (·.offset) = List.range i

theorem Recorded.fifo {x : State P × History P} (h : Recorded x) : Fifo x := by
  refine ⟨h.bounded, ?_, h.offsets, h.calls⟩
  rw [h.queue]
  exact List.prefix_append _ _

end

/-! ### The ring buffer -/

theorem slot_add (c : UInt32) (j : Nat) :
    (slot (c + UInt32.ofNat j)).val = (c.toNat + j) % PIPESIZE := by
  simp only [slot, UInt32.toNat_add, UInt32.toNat_ofNat', PIPESIZE]
  omega

/-- Positions less than `PIPESIZE` apart are different. -/
theorem slot_ne {c : UInt32} {i j : Nat} (hij : i < j) (hj : j < i + PIPESIZE) :
    slot (c + UInt32.ofNat i) ≠ slot (c + UInt32.ofNat j) := by
  intro h
  have hval := congrArg Fin.val h
  rw [slot_add, slot_add] at hval
  unfold PIPESIZE at *
  omega

/-- The writer's position is the one after the last byte. -/
theorem nwrite_eq (pi : Pipe) : pi.nwrite = pi.nread + UInt32.ofNat pi.count := by
  rw [← UInt32.toNat_inj]
  simp only [count, UInt32.toNat_sub, UInt32.toNat_add, UInt32.toNat_ofNat']
  have := pi.nread.toNat_lt
  have := pi.nwrite.toNat_lt
  omega

theorem contents_alloc (data : Fin PIPESIZE → UInt8) : contents (alloc data) = [] := by
  rw [contents, count_alloc]
  rfl

/-- A byte is put in at the end, and overwrites none. -/
theorem contents_put {pi : Pipe} (ch : UInt8) (h : pi.count < PIPESIZE) :
    contents (pi.put ch) = contents pi ++ [ch] := by
  rw [contents, count_put pi ch h, List.range_succ, List.map_append]
  congr 1
  · apply List.map_congr_left
    intro j hj
    rw [List.mem_range] at hj
    have hne : slot (pi.nread + UInt32.ofNat j) ≠ slot pi.nwrite := by
      rw [nwrite_eq]
      exact slot_ne hj (by omega)
    exact Function.update_of_ne hne _ _
  · have hlast : slot (pi.nread + UInt32.ofNat pi.count) = slot pi.nwrite := by rw [← nwrite_eq]
    change [Function.update pi.data (slot pi.nwrite) ch (slot (pi.nread + UInt32.ofNat pi.count))] =
        [ch]
    rw [hlast, Function.update_self]

/-- A byte is taken out at the front. -/
theorem contents_take {pi : Pipe} (h : 0 < pi.count) :
    contents pi = pi.data (slot pi.nread) :: contents pi.take := by
  have hcount := count_take pi h
  rw [contents, ← hcount, List.range_succ_eq_map, List.map_cons, List.map_map]
  congr 1
  · rw [show UInt32.ofNat 0 = 0 from rfl, UInt32.add_zero]
  · apply List.map_congr_left
    intro j _
    change pi.data (slot (pi.nread + UInt32.ofNat (j + 1))) =
        pi.data (slot (pi.nread + 1 + UInt32.ofNat j))
    congr 2
    rw [UInt32.ofNat_add, UInt32.add_assoc, UInt32.add_comm (UInt32.ofNat j)]
    rfl

/-! ### What a step does -/

section
variable {P : Type} [DecidableEq P]

/-- The part of the pipe that holds bytes. -/
def buffer (pi : Pipe) : (Fin PIPESIZE → UInt8) × UInt32 × UInt32 :=
  (pi.data, pi.nread, pi.nwrite)

/-- No writer but `p` comes to another offset, except that a call may end. -/
def OthersStay (s t : State P) (p : P) : Prop :=
  ∀ q ≠ p, ∀ i, (t.thread q).pc.offset = some i → (s.thread q).pc.offset = some i

/-- The label starts a `pipewrite`. -/
def Act.isWrite : Act P → Bool
  | .pipewrite _ _ => true
  | _ => false

/-- What a step does to the bytes and to the writers' offsets. -/
inductive Effect (s t : State P) : Act P → Prop
  | call {p : P} {n : Int} (hbuf : buffer t.pipe = buffer s.pipe)
      (hp : (t.thread p).pc.offset = some 0) (hq : OthersStay s t p) : Effect s t (.pipewrite p n)
  | put {p : P} {ch : UInt8} {i : Nat} (hfull : s.pipe.full = false)
      (hbuf : buffer t.pipe = buffer (s.pipe.put ch))
      (hs : (s.thread p).pc.offset = some i) (hp : (t.thread p).pc.offset = some (i + 1))
      (hq : OthersStay s t p) : Effect s t (.writeIter p (some ch))
  | take {p : P} {ok : Bool} (hempty : s.pipe.empty = false)
      (hbuf : buffer t.pipe = buffer s.pipe.take)
      (hq : ∀ q i, (t.thread q).pc.offset = some i → (s.thread q).pc.offset = some i) :
      Effect s t (.readIter p ok)
  | none {a : Act P} (ha : a.isWrite = false)
      (hbuf : buffer t.pipe = buffer s.pipe)
      (hq : ∀ q i, (t.thread q).pc.offset = some i → (s.thread q).pc.offset = some i) :
      Effect s t a

/-- A changed record of one process. -/
theorem offset_update {f : P → Thread} {p : P} {th : Thread}
    (h : ∀ i, th.pc.offset = some i → (f p).pc.offset = some i) (q : P) (i : Nat)
    (hq : (Function.update f p th q).pc.offset = some i) : (f q).pc.offset = some i := by
  by_cases he : q = p
  · rw [he] at hq ⊢
    rw [Function.update_self] at hq
    exact h i hq
  · rw [Function.update_of_ne he] at hq
    exact hq

theorem othersStay_update (s : State P) (p : P) (th : Thread) {t : State P}
    (ht : t.thread = Function.update s.thread p th) : OthersStay s t p := by
  intro q hq i hi
  rw [ht, Function.update_of_ne hq] at hi
  exact hi

theorem wakeup_offset (me : P) (ch : Chan) (s : State P) (q : P) :
    ((wakeup me ch s).thread q).pc = (s.thread q).pc := by
  simp only [wakeup]
  split <;> rfl

theorem finish_offset {me : P} {r : Int} {s₀ s : State P}
    (h : ∀ q, (s₀.thread q).pc = (s.thread q).pc) (q : P) (i : Nat)
    (hq : ((finish me r s₀).thread q).pc.offset = some i) : (s.thread q).pc.offset = some i := by
  rw [← h q]
  refine offset_update ?_ q i hq
  intro j hj
  cases hj

theorem writeIter_effect {p : P} {ch : Option UInt8} {n : Int} {i₀ i : Nat} {s : State P}
    (hpc : (s.thread p).pc = .writeLoop n i₀ i) :
    Effect s (writeIter p ch n i₀ i s) (.writeIter p ch) := by
  have hend (r : Int) : Effect s (finish p r (wakeup p .nread s)) (.writeIter p ch) :=
    Effect.none rfl rfl (finish_offset (wakeup_offset p .nread s))
  unfold writeIter
  split
  · split
    · exact Effect.none rfl rfl (finish_offset (fun _ ↦ rfl))
    · split
      · refine Effect.none rfl rfl ?_
        intro q j hj
        rw [← wakeup_offset p .nread s q]
        apply offset_update _ q j hj
        intro j hj
        rw [wakeup_offset, hpc]
        exact hj
      · next hfull =>
        cases ch with
        | none => exact hend i
        | some c =>
          refine Effect.put (i := i) (Bool.not_eq_true _ ▸ hfull) rfl ?_ ?_ ?_
          · rw [hpc]
            rfl
          · exact congrArg (fun th : Thread ↦ th.pc.offset) (Function.update_self p _ s.thread)
          · exact othersStay_update s p _ rfl
  · exact hend i

theorem readTest_effect {p : P} {n : Int} {s : State P} :
    Effect s (readTest p n s) (.readTest p) := by
  unfold readTest
  split
  · split
    · exact Effect.none rfl rfl (finish_offset (fun _ ↦ rfl))
    · exact Effect.none rfl rfl (offset_update (fun _ h ↦ nomatch h))
  · exact Effect.none rfl rfl (offset_update (fun _ h ↦ nomatch h))

theorem readIter_effect {p : P} {ok : Bool} {n : Int} {i : Nat} {s : State P} :
    Effect s (readIter p ok n i s) (.readIter p ok) := by
  have hend (r : Int) : Effect s (finish p r (wakeup p .nwrite s)) (.readIter p ok) :=
    Effect.none rfl rfl (finish_offset (wakeup_offset p .nwrite s))
  unfold readIter
  split
  · split
    · exact hend i
    · next hempty =>
      have hne : s.pipe.empty = false := Bool.not_eq_true _ ▸ hempty
      dsimp only
      split
      · exact Effect.take hne rfl (offset_update (fun _ h ↦ nomatch h))
      · exact Effect.take hne rfl (finish_offset (wakeup_offset p .nwrite _))
  · exact hend i

theorem pipeclose_effect {p : P} {writable : Bool} {s : State P} :
    Effect s (pipeclose p writable s) (.pipeclose p writable) := by
  have hclose : buffer (closeEnd p writable s).pipe = buffer s.pipe ∧
      ∀ q, ((closeEnd p writable s).thread q).pc = (s.thread q).pc := by
    unfold closeEnd
    split
    · exact ⟨rfl, fun q ↦ wakeup_offset p .nread _ q⟩
    · exact ⟨rfl, fun q ↦ wakeup_offset p .nwrite _ q⟩
  have hpipe : (pipeclose p writable s).pipe = (closeEnd p writable s).pipe ∧
      (pipeclose p writable s).thread = (closeEnd p writable s).thread := by
    unfold pipeclose
    dsimp only
    split <;> exact ⟨rfl, rfl⟩
  refine Effect.none rfl ?_ ?_
  · rw [hpipe.1]
    exact hclose.1
  · intro q i hi
    rw [hpipe.2, hclose.2] at hi
    exact hi

theorem step_effect {s t : State P} {a : Act P} (h : step s a = some t) : Effect s t a := by
  cases a with
  | pipewrite p n =>
    simp only [step] at h
    split at h
    · cases Option.some.inj h
      refine Effect.call rfl ?_ ?_
      · exact congrArg (fun th : Thread ↦ th.pc.offset) (Function.update_self p _ s.thread)
      · exact othersStay_update s p _ rfl
    · cases h
  | piperead p n =>
    simp only [step] at h
    split at h
    · cases Option.some.inj h
      exact Effect.none rfl rfl (offset_update (fun _ h ↦ nomatch h))
    · cases h
  | pipeclose p writable =>
    simp only [step] at h
    split at h
    · cases Option.some.inj h
      exact pipeclose_effect
    · cases h
  | acquire p =>
    simp only [step] at h
    split at h
    · split at h
      · next hpc =>
        cases Option.some.inj h
        refine Effect.none rfl rfl ?_
        refine offset_update ?_
        intro j hj
        rw [hpc]
        exact hj
      · cases Option.some.inj h
        exact Effect.none rfl rfl (offset_update (fun _ h ↦ nomatch h))
      · cases h
    · cases h
  | writeIter p ch =>
    simp only [step] at h
    split at h
    · split at h
      · next hpc =>
        cases Option.some.inj h
        exact writeIter_effect hpc
      · cases h
    · cases h
  | readTest p =>
    simp only [step] at h
    split at h
    · split at h
      · cases Option.some.inj h
        exact readTest_effect
      · cases h
    · cases h
  | readIter p ok =>
    simp only [step] at h
    split at h
    · split at h
      · cases Option.some.inj h
        exact readIter_effect
      · cases h
    · cases h
  | sched p =>
    simp only [step] at h
    split at h
    · cases Option.some.inj h
      exact Effect.none rfl rfl (offset_update (fun _ h ↦ h))
    · cases h
  | yield p =>
    simp only [step] at h
    split at h
    · cases Option.some.inj h
      exact Effect.none rfl rfl (offset_update (fun _ h ↦ h))
    · cases h
  | kill p =>
    cases Option.some.inj h
    exact Effect.none rfl rfl (offset_update (fun _ h ↦ h))

/-! ### The history of a run -/

theorem count_congr {pi pi' : Pipe} (h : buffer pi' = buffer pi) : pi'.count = pi.count := by
  obtain ⟨-, h⟩ := Prod.mk.inj h
  obtain ⟨hr, hw⟩ := Prod.mk.inj h
  rw [count, count, hr, hw]

theorem contents_congr {pi pi' : Pipe} (h : buffer pi' = buffer pi) :
    contents pi' = contents pi := by
  have hc := count_congr h
  obtain ⟨hd, h⟩ := Prod.mk.inj h
  obtain ⟨hr, -⟩ := Prod.mk.inj h
  rw [contents, contents, hc, hd, hr]

/-- A step that moves no counter adds nothing, unless it starts a `pipewrite`. -/
theorem record_eq {s t : State P} {a : Act P} (h : History P) (ha : a.isWrite = false)
    (hbuf : buffer t.pipe = buffer s.pipe) : h.record s t a = h := by
  obtain ⟨-, hbuf⟩ := Prod.mk.inj hbuf
  obtain ⟨hr, hw⟩ := Prod.mk.inj hbuf
  cases a with
  | pipewrite p n => cases ha
  | writeIter p ch =>
    cases ch with
    | none => rfl
    | some c => exact if_pos hw
  | readIter p ok => exact if_pos hr
  | _ => rfl

theorem succ_ne (c : UInt32) : c + 1 ≠ c := by
  rw [Ne, ← UInt32.toNat_inj, UInt32.toNat_add, UInt32.toNat_one]
  have := c.toNat_lt
  omega

section
variable {s t : State P} {h : History P}

theorem recorded_call (hi : Recorded (s, h)) {p : P} (hbuf : buffer t.pipe = buffer s.pipe)
    (hp : (t.thread p).pc.offset = some 0) (hq : OthersStay s t p) :
    Recorded (t, { h with calls := Function.update h.calls p (h.calls p + 1) }) := by
  refine ⟨?_, ?_, hi.offsets, hi.calls, ?_, ?_⟩
  · change t.pipe.count ≤ PIPESIZE
    rw [count_congr hbuf]
    exact hi.bounded
  · change h.put.map (·.byte) = h.taken ++ contents t.pipe
    rw [contents_congr hbuf]
    exact hi.queue
  · intro e he
    have hle := hi.begun e he
    change e.call ≤ Function.update h.calls p (h.calls p + 1) e.writer
    by_cases hw : e.writer = p
    · rw [hw, Function.update_self]
      rw [hw] at hle
      exact Nat.le_succ_of_le hle
    · rw [Function.update_of_ne hw]
      exact hle
  · intro q i hoff
    change (h.ofCall q (Function.update h.calls p (h.calls p + 1) q)).map (·.offset) = List.range i
    by_cases hqp : q = p
    · -- the new call has put in nothing yet
      rw [hqp] at hoff ⊢
      cases hp.symm.trans hoff
      have hnil : h.ofCall p (h.calls p + 1) = [] := by
        rw [History.ofCall, List.filter_eq_nil_iff]
        intro e he hc
        rw [decide_eq_true_eq] at hc
        have hle : e.call ≤ h.calls e.writer := hi.begun e he
        rw [hc.1, hc.2] at hle
        omega
      rw [Function.update_self, hnil]
      rfl
    · rw [Function.update_of_ne hqp]
      exact hi.current q i (hq q hqp i hoff)

/-- The entries of a call, after one more. -/
theorem ofCall_append (h : History P) (e : Entry P) (p : P) (c : Nat) :
    History.ofCall { h with put := h.put ++ [e] } p c =
      h.ofCall p c ++ if e.writer = p ∧ e.call = c then [e] else [] := by
  rw [History.ofCall, History.ofCall, List.filter_append]
  congr 1
  by_cases hc : e.writer = p ∧ e.call = c
  · rw [if_pos hc]
    exact List.filter_cons_of_pos (decide_eq_true hc)
  · rw [if_neg hc]
    exact List.filter_cons_of_neg (by rw [decide_eq_true_eq]; exact hc)

theorem recorded_put (hi : Recorded (s, h)) {p : P} {ch : UInt8} {i : Nat}
    (hfull : s.pipe.full = false) (hbuf : buffer t.pipe = buffer (s.pipe.put ch))
    (hs : (s.thread p).pc.offset = some i) (hp : (t.thread p).pc.offset = some (i + 1))
    (hq : OthersStay s t p) :
    Recorded (t, { h with put := h.put ++ [⟨p, h.calls p, i, ch⟩] }) := by
  have hbounded : s.pipe.count ≤ PIPESIZE := hi.bounded
  have hne : s.pipe.count ≠ PIPESIZE := by
    intro hc
    rw [← full_iff_count, hfull] at hc
    cases hc
  have hroom : s.pipe.count < PIPESIZE := by omega
  have hcurrent : (h.ofCall p (h.calls p)).map (·.offset) = List.range i := hi.current p i hs
  have hqueue : h.put.map (·.byte) = h.taken ++ contents s.pipe := hi.queue
  refine ⟨?_, ?_, ?_, ?_, ?_, ?_⟩
  · change t.pipe.count ≤ PIPESIZE
    rw [count_congr hbuf, count_put _ _ hroom]
    omega
  · change List.map (fun e : Entry P ↦ e.byte) (h.put ++ [_]) = h.taken ++ contents t.pipe
    rw [contents_congr hbuf, contents_put ch hroom, List.map_append, hqueue, List.append_assoc]
    rfl
  · intro q c
    obtain ⟨k, hk⟩ := hi.offsets q c
    change ∃ k, (History.ofCall { h with put := h.put ++ [_] } q c).map (·.offset) = List.range k
    rw [ofCall_append]
    split
    · next hc =>
      refine ⟨i + 1, ?_⟩
      rw [← hc.1, ← hc.2, List.map_append, hcurrent, List.range_succ]
      rfl
    · rw [List.append_nil]
      exact ⟨k, hk⟩
  · change (h.put ++ [_]).Pairwise _
    rw [List.pairwise_append]
    refine ⟨hi.calls, List.pairwise_singleton _ _, ?_⟩
    intro e he e' he' hw
    rw [List.mem_singleton.mp he'] at hw ⊢
    have hle : e.call ≤ h.calls e.writer := hi.begun e he
    rw [hw] at hle
    exact hle
  · intro e he
    change e ∈ h.put ++ [_] at he
    rcases List.mem_append.mp he with he | he
    · exact hi.begun e he
    · exact Nat.le_of_eq (by rw [List.mem_singleton.mp he])
  · intro q j hoff
    change (History.ofCall { h with put := h.put ++ [_] } q (h.calls q)).map (·.offset) =
      List.range j
    rw [ofCall_append]
    by_cases hqp : q = p
    · rw [hqp] at hoff ⊢
      cases hp.symm.trans hoff
      rw [if_pos ⟨rfl, rfl⟩, List.map_append, hcurrent, List.range_succ]
      rfl
    · rw [if_neg (fun hc ↦ hqp hc.1.symm), List.append_nil]
      exact hi.current q j (hq q hqp j hoff)

theorem recorded_take (hi : Recorded (s, h)) (hempty : s.pipe.empty = false)
    (hbuf : buffer t.pipe = buffer s.pipe.take)
    (hq : ∀ q i, (t.thread q).pc.offset = some i → (s.thread q).pc.offset = some i) :
    Recorded (t, { h with taken := h.taken ++ [s.pipe.data (slot s.pipe.nread)] }) := by
  have hbounded : s.pipe.count ≤ PIPESIZE := hi.bounded
  have hpos : 0 < s.pipe.count := by
    apply Nat.pos_of_ne_zero
    intro hc
    rw [← empty_iff_count, hempty] at hc
    cases hc
  have hqueue : h.put.map (·.byte) = h.taken ++ contents s.pipe := hi.queue
  refine ⟨?_, ?_, hi.offsets, hi.calls, hi.begun, ?_⟩
  · change t.pipe.count ≤ PIPESIZE
    have := count_take s.pipe hpos
    rw [count_congr hbuf]
    omega
  · change h.put.map (·.byte) = (h.taken ++ [_]) ++ contents t.pipe
    rw [contents_congr hbuf, hqueue, contents_take hpos, List.append_assoc]
    rfl
  · exact fun q i hoff ↦ hi.current q i (hq q i hoff)

end

/-- Every step keeps the history and the pipe together. -/
theorem recorded_step {x y : State P × History P} {a : Act P} (hi : Recorded x)
    (hs : recordStep x a = some y) : Recorded y := by
  obtain ⟨s, h⟩ := x
  obtain ⟨t, ht, rfl⟩ := Option.map_eq_some_iff.mp hs
  cases step_effect ht with
  | call hbuf hp hq => exact recorded_call hi hbuf hp hq
  | @put p ch i hfull hbuf hoff hp hq =>
    have hne : ¬ t.pipe.nwrite = s.pipe.nwrite := by
      have hw : t.pipe.nwrite = s.pipe.nwrite + 1 := congrArg (fun b ↦ b.2.2) hbuf
      rw [hw]
      exact succ_ne _
    have hrecord : h.record s t (.writeIter p (some ch)) =
        { h with put := h.put ++ [⟨p, h.calls p, i, ch⟩] } := by
      rw [History.record, if_neg hne, hoff]
      rfl
    rw [hrecord]
    exact recorded_put hi hfull hbuf hoff hp hq
  | @take p ok hempty hbuf hq =>
    have hne : ¬ t.pipe.nread = s.pipe.nread := by
      have hr : t.pipe.nread = s.pipe.nread + 1 := congrArg (fun b ↦ b.2.1) hbuf
      rw [hr]
      exact succ_ne _
    have hrecord : h.record s t (.readIter p ok) =
        { h with taken := h.taken ++ [s.pipe.data (slot s.pipe.nread)] } := by
      rw [History.record, if_neg hne]
    rw [hrecord]
    exact recorded_take hi hempty hbuf hq
  | none ha hbuf hq =>
    rw [record_eq h ha hbuf]
    refine ⟨?_, ?_, hi.offsets, hi.calls, hi.begun, ?_⟩
    · change t.pipe.count ≤ PIPESIZE
      rw [count_congr hbuf]
      exact hi.bounded
    · change h.put.map (·.byte) = h.taken ++ contents t.pipe
      rw [contents_congr hbuf]
      exact hi.queue
    · exact fun q i hoff ↦ hi.current q i (hq q i hoff)

theorem recorded_init {s : State P} (h : Init s) : Recorded (s, History.start) := by
  refine ⟨?_, ?_, fun _ _ ↦ ⟨0, rfl⟩, List.Pairwise.nil, ?_, ?_⟩
  · change s.pipe.count ≤ PIPESIZE
    rw [h.pipe, count_alloc]
    exact Nat.zero_le _
  · change [] = [] ++ contents s.pipe
    rw [h.pipe, contents_alloc]
    rfl
  · intro e he
    cases he
  · intro p i hoff
    rw [h.user p] at hoff
    cases hoff

/-- In every state of every run from a fresh pipe the pipe is a bounded queue. -/
theorem fifo_always {s : State P} (h : Init s) (as : List (Act P)) :
    Always recordStep Fifo (s, History.start) as :=
  always_of_invariant (fun _ hi ↦ hi.fifo) (fun _ _ _ hi hs ↦ recorded_step hi hs)
    (recorded_init h) as

end

/-- Process 1 writes two bytes, of which process 0 reads one. -/
def oneByteRead : List (Act (Fin 2)) :=
  [.sched writer, .pipewrite writer 2, .acquire writer, .writeIter writer (some 65),
    .writeIter writer (some 66), .writeIter writer none, .sched reader, .piperead reader 1,
    .acquire reader, .readTest reader, .readIter reader true]

/-- The byte that is out is the first of the two. -/
theorem fifo_always_oneByteRead :
    ∃ x, run recordStep (twoProcs, History.start) oneByteRead = some x ∧ Fifo x ∧
      x.2.taken = [65] ∧ x.2.put.map (·.byte) = [65, 66] := by
  refine ⟨_, rfl, ?_, by decide, by decide⟩
  exact (fifo_always init_twoProcs oneByteRead).last rfl

end Xv6.Pipe
