import Xv6.Console.Line

/-!
# The console implements the line discipline

Every step of the console is one of the line model, so every run of keystrokes and calls of
`consoleread` is. A call that sleeps is woken by the keystroke that commits a line.
-/

namespace Xv6.Console

open Xv6.Lib

/-- The value that `consoleread` returns for a result. -/
def retval : Option (List UInt8) → Int
  | none => -1
  | some bytes => bytes.length

/-- A call and what it stands for. A result has been stored byte by byte. -/
structure Call.Refines (c : Call) (a : Line.Call) : Prop where
  got : c.out = a.got
  killed : c.killed = a.killed
  ret : c.ret = a.ret.map retval
  stored : ∀ bytes, a.ret = some (some bytes) → c.out = bytes
  left : a.ret = none → c.n = a.left ∧ c.target = c.n + c.out.length
  dst : ∀ k, k < c.target → c.dst k = true

/-- The console implements the line model; a call sleeps only while the queue is empty. -/
structure Refines (s : State) (a : Line.State) : Prop where
  holds : Holds s.cons a.Q a.L
  calls : ∀ id, Option.Rel Call.Refines (s.calls id) (a.calls id)
  asleep : ∀ id c, s.calls id = some c → c.asleep = true → a.Q = []

/-- The destination of a call is valid. -/
def Act.ValidDst : Act → Prop
  | .read _ n dst => ∀ k : Nat, (k : Int) < n → dst k = true
  | _ => True

section
variable {s t : State} {a : Line.State}

theorem rel_update {calls : Nat → Option Call} {acalls : Nat → Option Line.Call}
    (h : ∀ id, Option.Rel Call.Refines (calls id) (acalls id)) (id : Nat) {c : Call} {b : Line.Call}
    (hc : c.Refines b) (j : Nat) :
    Option.Rel Call.Refines (Function.update calls id (some c) j)
      (Function.update acalls id (some b) j) := by
  by_cases hj : j = id
  · rw [hj, Function.update_self, Function.update_self]
    exact .some hc
  · rw [Function.update_of_ne hj, Function.update_of_ne hj]
    exact h j

theorem Refines.none_of (h : Refines s a) {id : Nat} (hs : s.calls id = none) :
    a.calls id = none := by
  have := h.calls id
  rw [hs] at this
  cases hb : a.calls id with
  | none => rfl
  | some b =>
    rw [hb] at this
    cases this

theorem Refines.some_of (h : Refines s a) {id : Nat} {c : Call} (hs : s.calls id = some c) :
    ∃ b, a.calls id = some b ∧ c.Refines b := by
  have := h.calls id
  rw [hs] at this
  cases hb : a.calls id with
  | none =>
    rw [hb] at this
    cases this
  | some b =>
    rw [hb] at this
    cases this with
    | some hc => exact ⟨b, rfl, hc⟩

theorem step_intr (s : State) (c : UInt8) : step s (.intr c) = some {
    cons := (consoleintr c s.cons).1
    calls := if (consoleintr c s.cons).2 then wakeup s.calls else s.calls } := rfl

/-- A keystroke. -/
theorem Refines.intr (h : Refines s a) (c : UInt8) (ht : step s (.intr c) = some t) :
    ∃ b, Line.step a (.intr c) = some b ∧ Refines t b := by
  obtain ⟨hholds, hquiet⟩ := h.holds.consoleintr c
  refine ⟨_, rfl, ?_⟩
  rw [step_intr] at ht
  have heq := Option.some.inj ht
  subst heq
  cases hw : (Console.consoleintr c s.cons).2 with
  | true =>
    refine ⟨hholds, ?_, ?_⟩
    · intro id
      simp only [if_true, wakeup]
      cases hs : s.calls id with
      | none =>
        rw [h.none_of hs]
        exact .none
      | some c =>
        obtain ⟨b, hb, hc⟩ := h.some_of hs
        rw [hb]
        exact .some ⟨hc.got, hc.killed, hc.ret, hc.stored, hc.left, hc.dst⟩
    · intro id c' hid hsleep
      simp only [if_true, wakeup] at hid
      obtain ⟨c₀, -, rfl⟩ := Option.map_eq_some_iff.mp hid
      cases hsleep
  | false =>
    refine ⟨hholds, ?_, ?_⟩
    · intro id
      simp only [Bool.false_eq_true, if_false]
      exact h.calls id
    · intro id c' hid hsleep
      simp only [Bool.false_eq_true, if_false] at hid
      change (Line.key c a.Q a.L).1 = []
      rw [hquiet hw]
      exact h.asleep id c' hid hsleep

/-- A call that was served. -/
theorem Call.Refines.settle {c : Call} {b : Line.Call} (hc : c.Refines b) (hready : c.ret = none)
    (hret : b.ret = none) (Q : List UInt8) :
    (c.after (Line.serve b.left b.got Q).1).Refines (b.settle (Line.serve b.left b.got Q).1) := by
  obtain ⟨hn, htarget⟩ := hc.left hret
  have hsize : ∀ left got, (Line.serve b.left b.got Q).1 = .wait left got →
      left + got.length = c.target := by
    rw [htarget, hc.got, hn]
    generalize b.left = n
    generalize b.got = got₀
    induction n generalizing got₀ Q with
    | zero =>
      intro left got h
      cases h
    | succ n ih =>
      intro left got h
      cases Q with
      | nil =>
        rw [Line.serve] at h
        cases h
        rfl
      | cons ch Q =>
        rw [Line.serve] at h
        split at h
        · cases h
        · split at h
          · cases h
          · have := ih Q (got₀ ++ [ch]) left got h
            rw [List.length_append, List.length_singleton] at this
            omega
  generalize hserve : (Line.serve b.left b.got Q).1 = o at hsize ⊢
  cases o with
  | wait left got =>
    have hlen := hsize left got rfl
    refine ⟨rfl, hc.killed, ?_, ?_, ?_, hc.dst⟩
    · simp only [Call.after, Line.Call.settle, hc.killed, hready]
      split <;> rfl
    · intro bytes hb
      simp only [Line.Call.settle] at hb
      split at hb <;> cases hb
    · intro _
      exact ⟨rfl, hlen.symm⟩
  | done bytes =>
    refine ⟨rfl, hc.killed, rfl, ?_, (by intro hb; cases hb), hc.dst⟩
    intro bytes' hb
    cases hb
    rfl

/-- A call waits only when it has emptied the queue. -/
theorem serve_wait {left n : Nat} {got got' Q : List UInt8}
    (h : (Line.serve n got Q).1 = .wait left got') : (Line.serve n got Q).2 = [] := by
  induction n generalizing got Q with
  | zero => cases h
  | succ n ih =>
    cases Q with
    | nil => rfl
    | cons ch Q =>
      rw [Line.serve] at h ⊢
      split at h
      · cases h
      · next hd =>
        rw [if_neg hd]
        split at h
        · cases h
        · next hnl =>
          rw [if_neg hnl]
          exact ih h

/-- Nothing is taken from an empty queue. -/
theorem serve_nil (n : Nat) (got : List UInt8) : (Line.serve n got []).2 = [] := by
  cases n <;> rfl

/-- The part of a call that runs without interruption. -/
theorem Refines.go (h : Refines s a) {id : Nat} (ht : step s (.go id) = some t) :
    ∃ b, Line.step a (.go id) = some b ∧ Refines t b := by
  unfold step at ht
  dsimp only at ht
  split at ht
  · cases ht
  · next c hs =>
    split at ht
    · next hready =>
      have heq := Option.some.inj ht
      subst heq
      obtain ⟨b, hb, hc⟩ := h.some_of hs
      have hret : b.ret = none := by
        have := hc.ret
        rw [hready.1] at this
        exact Option.map_eq_none_iff.mp this.symm
      obtain ⟨hn, htarget⟩ := hc.left hret
      obtain ⟨hholds, hafter⟩ := readLoop_serve h.holds rfl htarget hc.dst hready.1
      rw [hc.got, hn] at hholds hafter
      unfold Line.step
      simp only [hb, hret, if_true]
      rw [hn]
      refine ⟨_, rfl, hholds, ?_, ?_⟩
      · refine rel_update h.calls id ?_
        rw [hafter]
        exact hc.settle hready.1 hret a.Q
      · intro j c' hj hsleep
        change (Line.serve b.left b.got a.Q).2 = []
        by_cases hji : j = id
        · -- this call goes to sleep
          rw [hji] at hj
          simp only [Function.update_self] at hj
          cases Option.some.inj hj
          rw [hafter] at hsleep
          cases ho : (Line.serve b.left b.got a.Q).1 with
          | wait left got => exact serve_wait ho
          | done bytes =>
            rw [ho] at hsleep
            cases hready.2.symm.trans hsleep
        · simp only [Function.update_of_ne hji] at hj
          rw [h.asleep j c' hj hsleep]
          exact serve_nil _ _
    · cases ht

/-- Every step is one of the line model. -/
theorem Refines.step (h : Refines s a) {act : Act} (hvalid : act.ValidDst)
    (ht : step s act = some t) : ∃ b, Line.step a act = some b ∧ Refines t b := by
  cases act with
  | intr c => exact h.intr c ht
  | go id => exact h.go ht
  | read id n dst =>
    unfold Console.step at ht
    dsimp only at ht
    split at ht
    · next hs =>
      cases Option.some.inj ht
      unfold Line.step
      simp only [h.none_of hs]
      refine ⟨_, rfl, h.holds, rel_update h.calls id ?_, ?_⟩
      · refine ⟨rfl, rfl, rfl, fun bytes hb ↦ (nomatch hb), fun _ ↦ ⟨rfl, rfl⟩, ?_⟩
        intro k hk
        change k < n.toNat at hk
        exact hvalid k (by omega)
      · intro j c hj hsleep
        by_cases hji : j = id
        · rw [hji] at hj
          simp only [Function.update_self] at hj
          cases Option.some.inj hj
          cases hsleep
        · simp only [Function.update_of_ne hji] at hj
          exact h.asleep j c hj hsleep
    · cases ht
  | kill id =>
    unfold Console.step at ht
    dsimp only at ht
    split at ht
    · cases ht
    · next c hs =>
      cases Option.some.inj ht
      obtain ⟨b, hb, hc⟩ := h.some_of hs
      unfold Line.step
      simp only [hb]
      refine ⟨_, rfl, h.holds, rel_update h.calls id ?_, ?_⟩
      · exact ⟨hc.got, rfl, hc.ret, hc.stored, hc.left, hc.dst⟩
      · intro j c' hj hsleep
        by_cases hji : j = id
        · rw [hji] at hj
          simp only [Function.update_self] at hj
          cases Option.some.inj hj
          cases hsleep
        · simp only [Function.update_of_ne hji] at hj
          exact h.asleep j c' hj hsleep

theorem refines_init : Refines init Line.init where
  holds := ⟨rfl, rfl, Nat.zero_le _, rfl, List.not_mem_nil⟩
  calls := fun _ ↦ .none
  asleep := fun _ _ hc ↦ nomatch hc

theorem Refines.run (h : Refines s a) {as : List Act} (hvalid : ∀ act ∈ as, act.ValidDst)
    (hrun : run Console.step s as = some t) :
    ∃ b, Lib.run Line.step a as = some b ∧ Refines t b := by
  induction as generalizing s a with
  | nil =>
    cases Option.some.inj hrun
    exact ⟨a, rfl, h⟩
  | cons act as ih =>
    obtain ⟨u, hu, hrest⟩ := run_cons_eq_some.mp hrun
    obtain ⟨b, hb, hub⟩ := h.step (hvalid act List.mem_cons_self) hu
    obtain ⟨b', hb', hend⟩ := ih hub (fun x hx ↦ hvalid x (List.mem_cons_of_mem _ hx)) hrest
    exact ⟨b', run_cons_eq_some.mpr ⟨b, hb, hb'⟩, hend⟩

/-- **The console line discipline.** Every run of keystrokes and reads with valid destinations is a
run of the line model, and the counters stay in order and at most a buffer apart. -/
theorem console_refines_line {as : List Act} (hvalid : ∀ act ∈ as, act.ValidDst)
    (hrun : run step init as = some s) :
    ((s.cons.w - s.cons.r).toNat ≤ (s.cons.e - s.cons.r).toNat ∧
      (s.cons.e - s.cons.r).toNat ≤ INPUT_BUF_SIZE) ∧
    ∃ a, run Line.step Line.init as = some a ∧ Refines s a := by
  obtain ⟨a, ha, h⟩ := refines_init.run hvalid hrun
  obtain ⟨hq, -, hall⟩ := h.holds.distances
  refine ⟨?_, a, ha, h⟩
  rw [hq, hall]
  exact ⟨Nat.le_add_right _ _, h.holds.fits⟩

end

/-- The line "a", typed with a carriage return, and a read of up to five bytes. -/
def typedLine : List Act := [.intr 97, .read 0 5 (fun _ ↦ true), .intr carriageReturn, .go 0]

/-- The read returns the line. -/
theorem console_refines_line_typedLine :
    ∃ s a, run step init typedLine = some s ∧ run Line.step Line.init typedLine = some a ∧
      Refines s a ∧ (s.calls 0).bind (·.ret) = some 2 := by
  have hrun : (run step init typedLine).map (fun s ↦ (s.calls 0).bind (·.ret)) = some (some 2) :=
    rfl
  obtain ⟨s, hs, hret⟩ := Option.map_eq_some_iff.mp hrun
  have hvalid : ∀ act ∈ typedLine, act.ValidDst := by
    intro act hact
    simp only [typedLine, List.mem_cons, List.not_mem_nil, or_false] at hact
    rcases hact with rfl | rfl | rfl | rfl
    · exact True.intro
    · exact fun _ _ ↦ rfl
    · exact True.intro
    · exact True.intro
  obtain ⟨-, a, ha, href⟩ := console_refines_line hvalid hs
  exact ⟨s, a, hs, ha, href, hret⟩

end Xv6.Console
