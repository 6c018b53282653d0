import Mathlib.Algebra.BigOperators.Group.Finset.Basic
import Mathlib.Algebra.Order.BigOperators.Group.Finset
import Mathlib.Tactic.Ring
import Xv6.User.Primes

/-!
# Runs of the prime sieve

The processes of `utilities/primes.c` are a chain: all but the last have forked and wait for their
child, and the last one is a stage that filters its pipe. The invariant says, for each place in the
program where the last one can be, what is still to be printed; a bound on the work that is left
falls with every step.
-/

namespace Xv6.Primes

open Xv6.Lib

/-! ### The invariant -/

/-- Places of a process that has forked. -/
def Older : Pc → Prop
  | .closeP0 _ _ | .wait _ | .closeRead _ | .exit | .zombie | .reaped => True
  | _ => False

/-- Places of a process that has no child any more. -/
def Past : Pc → Prop
  | .closeRead _ | .exit | .zombie | .reaped => True
  | _ => False

/-- No write end is open, apart from that of `p`. -/
def WritesOnly (ofile : Nat → Bool → Bool) (p : Option Nat) : Prop :=
  ∀ q, ofile q true = true → some q = p

/-- What a stage passes on. -/
def filtered (cur : Int) (xs : List Int) : List Int := xs.filter (fun x ↦ !divides cur x)

/-- What one process sees of the system. -/
structure View where
  npipes : Nat
  pipe : Nat → List Int
  printed : List Int
  ofile : Nat → Bool → Bool

def State.view (s : State) (i : Nat) : View := ⟨s.npipes, s.pipe, s.printed, (s.proc i).ofile⟩

/-- A stage that has not made its pipe yet. -/
structure Reading (v : View) (n p0 : Nat) : Prop where
  left : p0 + 1 = n
  fresh : v.npipes = n
  isOpen : v.ofile p0 false = true
  writes : WritesOnly v.ofile none
  fits : (v.pipe p0).length ≤ CAPACITY

/-- A stage that reads one pipe and writes another, with `pending` numbers on the way. -/
structure Filtering (v : View) (n p0 : Nat) (cur : Int) (p pending : Nat) : Prop where
  left : p0 + 1 = n
  right : p = n
  fresh : v.npipes = n + 1
  cur : 2 ≤ cur
  isOpen : v.ofile p0 false = true
  ends : ∀ w, v.ofile p w = true
  writes : WritesOnly v.ofile (some p)
  fits : (v.pipe p).length + pending + (v.pipe p0).length ≤ CAPACITY

/-- A process whose pipe is filled, for the next stage. -/
structure Filled (target : List Int) (v : View) (n p : Nat) : Prop where
  right : p = n
  fresh : v.npipes = n + 1
  isOpen : v.ofile p false = true
  drained : ∀ q < n, v.pipe q = []
  fits : (v.pipe p).length ≤ CAPACITY
  todo : v.printed ++ sieve divides (v.pipe p) = target

/-- What the last process of the chain, number `n`, has done. -/
def Stage (target : List Int) (v : View) (n : Nat) : Pc → Prop
  | .fork p0 _ => Filled target v n p0 ∧ WritesOnly v.ofile none
  | .readCur p0 _ => Reading v n p0 ∧ v.printed ++ sieve divides (v.pipe p0) = target
  | .print p0 cur => Reading v n p0 ∧ 2 ≤ cur ∧
      v.printed ++ cur :: sieve divides (filtered cur (v.pipe p0)) = target
  | .pipe p0 cur => Reading v n p0 ∧ 2 ≤ cur ∧
      v.printed ++ sieve divides (filtered cur (v.pipe p0)) = target
  | .readTmp p0 cur p => Filtering v n p0 cur p 0 ∧
      v.printed ++ sieve divides (v.pipe p ++ filtered cur (v.pipe p0)) = target
  | .test p0 cur p tmp => Filtering v n p0 cur p 1 ∧ 2 ≤ tmp ∧
      v.printed ++ sieve divides (v.pipe p ++ filtered cur (tmp :: v.pipe p0)) = target
  | .closeLeft p0 p => Filled target v n p ∧ p0 + 1 = n ∧ WritesOnly v.ofile (some p)
  | .closeWrite p => Filled target v n p ∧ WritesOnly v.ofile (some p)
  | .closeP0 _ _ | .wait _ => False
  | .closeRead _ | .exit | .zombie | .reaped => v.printed = target ∧ WritesOnly v.ofile none

/-- The chain of processes 0 to `n`. -/
structure Chain (target : List Int) (s : State) (n : Nat) : Prop where
  count : s.count = n + 1
  root : (s.proc 0).parent = none
  parent : ∀ i < n, (s.proc (i + 1)).parent = some i
  left : ∀ i ≤ n, ∀ q, (s.proc i).left = some q → q + 1 = i
  older : ∀ i < n, Older (s.proc i).pc
  past : ∀ i < n, Past (s.proc i).pc ↔ (s.proc (i + 1)).pc = .reaped
  writes : ∀ i < n, WritesOnly (s.proc i).ofile none
  positive : ∀ q, ∀ x ∈ s.pipe q, 2 ≤ x
  drained : ∀ q, q + 1 < n → s.pipe q = []
  stage : Stage target (s.view n) n (s.proc n).pc

/-! ### The work that is left -/

/-- The steps of a stage with `m` numbers in its pipe, and of all later stages. -/
def stageWork (m : Nat) : Nat := m * m + 10 * m + 3

/-- The steps of a process, and of its descendants to come. -/
def work (pipe : Nat → List Int) : Pc → Nat
  | .fork p0 _ => stageWork (pipe p0).length + 5
  | .readCur p0 _ => stageWork (pipe p0).length
  | .print p0 _ => stageWork (pipe p0).length + 2 * (pipe p0).length + 10
  | .pipe p0 _ => stageWork (pipe p0).length + 2 * (pipe p0).length + 9
  | .readTmp p0 _ p => stageWork ((pipe p).length + (pipe p0).length) + 2 * (pipe p0).length + 8
  | .test p0 _ p _ => stageWork ((pipe p).length + 1 + (pipe p0).length) + 2 * (pipe p0).length + 9
  | .closeLeft _ p => stageWork (pipe p).length + 7
  | .closeWrite p => stageWork (pipe p).length + 6
  | .closeP0 _ _ => 4
  | .wait _ => 3
  | .closeRead _ => 2
  | .exit => 1
  | .zombie => 0
  | .reaped => 0

/-- The work of all processes. -/
def totalWork (s : State) : Nat := ∑ i ∈ Finset.range s.count, work s.pipe (s.proc i).pc

section
variable {target : List Int} {s t : State} {n i : Nat}

theorem stageWork_succ (m : Nat) : stageWork (m + 1) = stageWork m + 2 * m + 11 := by
  unfold stageWork
  ring

theorem work_older {pc : Pc} (h : Older pc) (f g : Nat → List Int) : work f pc = work g pc := by
  cases pc <;> first | rfl | exact h.elim

/-- One process does some of its work, and no other gets more. -/
theorem totalWork_lt (hcount : t.count = s.count) (hi : i < s.count)
    (hlt : work t.pipe (t.proc i).pc < work s.pipe (s.proc i).pc)
    (hle : ∀ j < s.count, j ≠ i → work t.pipe (t.proc j).pc ≤ work s.pipe (s.proc j).pc) :
    totalWork t < totalWork s := by
  rw [totalWork, totalWork, hcount]
  apply Finset.sum_lt_sum
  · intro j hj
    by_cases hji : j = i
    · rw [hji]
      exact Nat.le_of_lt hlt
    · exact hle j (Finset.mem_range.mp hj) hji
  · exact ⟨i, Finset.mem_range.mpr hi, hlt⟩

/-! ### Replacing one process -/

/-- Replace the record of one process. -/
def State.setProc (s : State) (i : Nat) (pr : Proc) : State :=
  { s with proc := Function.update s.proc i pr }

theorem setProc_self (s : State) (i : Nat) (pr : Proc) : (s.setProc i pr).proc i = pr :=
  Function.update_self ..

theorem setProc_of_ne {j : Nat} (h : j ≠ i) (s : State) (pr : Proc) :
    (s.setProc i pr).proc j = s.proc j := Function.update_of_ne h _ _

theorem totalWork_setProc (hi : i < s.count) {pr : Proc}
    (h : work s.pipe pr.pc < work s.pipe (s.proc i).pc) :
    totalWork (s.setProc i pr) < totalWork s := by
  apply totalWork_lt (s := s) (t := s.setProc i pr) rfl hi
  · rw [setProc_self]
    exact h
  · intro j _ hji
    rw [setProc_of_ne hji]
    exact Nat.le_refl _

/-- A step of a process that has forked. -/
theorem Chain.setProc (h : Chain target s n) (hi : i < n) {pr : Proc}
    (hparent : pr.parent = (s.proc i).parent) (hleft : pr.left = (s.proc i).left)
    (hwrites : WritesOnly pr.ofile none) (holder : Older pr.pc)
    (hpast : Past pr.pc ↔ (s.proc (i + 1)).pc = .reaped)
    (hreaped : pr.pc = .reaped ↔ (s.proc i).pc = .reaped) : Chain target (s.setProc i pr) n := by
  have hfield (j : Nat) : ((s.setProc i pr).proc j).parent = (s.proc j).parent ∧
      ((s.setProc i pr).proc j).left = (s.proc j).left := by
    by_cases hj : j = i
    · rw [hj, setProc_self]
      exact ⟨hparent, hleft⟩
    · rw [setProc_of_ne hj]
      exact ⟨rfl, rfl⟩
  have hreaped' (j : Nat) : ((s.setProc i pr).proc j).pc = .reaped ↔ (s.proc j).pc = .reaped := by
    by_cases hj : j = i
    · rw [hj, setProc_self]
      exact hreaped
    · rw [setProc_of_ne hj]
  have hlast := setProc_of_ne (Nat.ne_of_gt hi) s pr
  refine ⟨h.count, ?_, ?_, ?_, ?_, ?_, ?_, h.positive, h.drained, ?_⟩
  · rw [(hfield 0).1]
    exact h.root
  · intro j hj
    rw [(hfield _).1]
    exact h.parent j hj
  · intro j hj q hq
    rw [(hfield j).2] at hq
    exact h.left j hj q hq
  · intro j hj
    by_cases hji : j = i
    · rw [hji, setProc_self]
      exact holder
    · rw [setProc_of_ne hji]
      exact h.older j hj
  · intro j hj
    rw [hreaped']
    by_cases hji : j = i
    · rw [hji, setProc_self]
      exact hpast
    · rw [setProc_of_ne hji]
      exact h.past j hj
  · intro j hj
    by_cases hji : j = i
    · rw [hji, setProc_self]
      exact hwrites
    · rw [setProc_of_ne hji]
      exact h.writes j hj
  · have hview : (s.setProc i pr).view n = s.view n := by
      rw [State.view, hlast]
      rfl
    rw [hview, hlast]
    exact h.stage

/-- A step of process `n`, in all that it can change. -/
def State.advance (s : State) (n : Nat) (pc : Pc) (ofile : Nat → Bool → Bool) (npipes : Nat)
    (pipe : Nat → List Int) (out : List Int) : State :=
  ⟨s.count, Function.update s.proc n { s.proc n with pc := pc, ofile := ofile }, npipes, pipe, out⟩

/-- A step of the last process. -/
theorem Chain.advance (h : Chain target s n) (pc : Pc) (ofile : Nat → Bool → Bool) (npipes : Nat)
    (pipe : Nat → List Int) (out : List Int) (hlive : (s.proc n).pc ≠ .reaped) (hpc : pc ≠ .reaped)
    (hpositive : ∀ q, ∀ x ∈ pipe q, 2 ≤ x) (hpipe : ∀ q, q + 1 < n → pipe q = s.pipe q)
    (hstage : Stage target ⟨npipes, pipe, out, ofile⟩ n pc)
    (hwork : work pipe pc < work s.pipe (s.proc n).pc) :
    Chain target (s.advance n pc ofile npipes pipe out) n ∧
      totalWork (s.advance n pc ofile npipes pipe out) < totalWork s := by
  have hself : (s.advance n pc ofile npipes pipe out).proc n =
      { s.proc n with pc := pc, ofile := ofile } := Function.update_self ..
  have hother (j : Nat) (hj : j ≠ n) : (s.advance n pc ofile npipes pipe out).proc j = s.proc j :=
    Function.update_of_ne hj _ _
  have hfield (j : Nat) :
      ((s.advance n pc ofile npipes pipe out).proc j).parent = (s.proc j).parent ∧
      ((s.advance n pc ofile npipes pipe out).proc j).left = (s.proc j).left ∧
      (((s.advance n pc ofile npipes pipe out).proc j).pc = .reaped ↔ (s.proc j).pc = .reaped) := by
    by_cases hj : j = n
    · rw [hj, hself]
      exact ⟨rfl, rfl, fun heq ↦ absurd heq hpc, fun heq ↦ absurd heq hlive⟩
    · rw [hother j hj]
      exact ⟨rfl, rfl, Iff.rfl⟩
  refine ⟨⟨h.count, ?_, ?_, ?_, ?_, ?_, ?_, hpositive, ?_, ?_⟩, ?_⟩
  · rw [(hfield 0).1]
    exact h.root
  · intro j hj
    rw [(hfield _).1]
    exact h.parent j hj
  · intro j hj q hq
    rw [(hfield j).2.1] at hq
    exact h.left j hj q hq
  · intro j hj
    rw [hother j (Nat.ne_of_lt hj)]
    exact h.older j hj
  · intro j hj
    rw [hother j (Nat.ne_of_lt hj), (hfield _).2.2]
    exact h.past j hj
  · intro j hj
    rw [hother j (Nat.ne_of_lt hj)]
    exact h.writes j hj
  · intro q hq
    exact (hpipe q hq).trans (h.drained q hq)
  · rw [State.view, hself]
    exact hstage
  · apply totalWork_lt (s := s) (t := s.advance n pc ofile npipes pipe out) (i := n) rfl
      (by rw [h.count]; omega)
    · rw [hself]
      exact hwork
    · intro j hj hjn
      rw [hother j hjn]
      rw [h.count] at hj
      exact (work_older (h.older j (by omega)) _ _).le

/-! ### Steps of older processes -/

theorem writesOnly_close {ofile : Nat → Bool → Bool} {p : Option Nat} (h : WritesOnly ofile p)
    (q : Nat) (w : Bool) :
    WritesOnly (fun q' w' ↦ if q' = q ∧ w' = w then false else ofile q' w') p := by
  intro q' hq'
  apply h
  simp only at hq'
  split at hq'
  · cases hq'
  · exact hq'

theorem writesOnly_closed : WritesOnly (fun _ _ ↦ false) none := fun _ h ↦ nomatch h

/-- The child that `wait` finds is the next process of the chain. -/
theorem Chain.deadChild (h : Chain target s n) {j : Nat} (hj : s.deadChild i = some j) :
    j = i + 1 ∧ (s.proc j).pc = .zombie := by
  have hfound := List.find?_some hj
  have hmem := List.mem_range.mp (List.mem_of_find?_eq_some hj)
  simp only [decide_eq_true_eq] at hfound
  obtain ⟨hparent, hpc⟩ := hfound
  refine ⟨?_, hpc⟩
  cases j with
  | zero =>
    rw [h.root] at hparent
    cases hparent
  | succ j =>
    rw [h.count] at hmem
    rw [h.parent j (by omega)] at hparent
    rw [Option.some.inj hparent]

/-- A process that waits for its child has one. -/
theorem Chain.hasChild (h : Chain target s n) (hi : i < n) {ret : Option Nat}
    (hpc : (s.proc i).pc = .wait ret) : s.HasChild i := by
  refine ⟨i + 1, by rw [h.count]; omega, h.parent i hi, ?_⟩
  intro hreaped
  have := (h.past i hi).mpr hreaped
  rw [hpc] at this
  exact this

/-- `wait` in a process whose child has exited. -/
theorem Chain.reap (h : Chain target s n) (hi : i < n) {ret : Option Nat}
    (hpc : (s.proc i).pc = .wait ret) (hchild : (s.proc (i + 1)).pc = .zombie) :
    Chain target ((s.goto (i + 1) .reaped).goto i (back ret)) n ∧
      totalWork ((s.goto (i + 1) .reaped).goto i (back ret)) < totalWork s := by
  have hself : ((s.goto (i + 1) .reaped).goto i (back ret)).proc i =
      { s.proc i with pc := back ret } := by
    rw [State.goto, State.goto]
    simp only [Function.update_self, Function.update_of_ne (Nat.ne_of_lt (Nat.lt_succ_self i))]
  have hnext : ((s.goto (i + 1) .reaped).goto i (back ret)).proc (i + 1) =
      { s.proc (i + 1) with pc := .reaped } := by
    rw [State.goto, State.goto]
    simp only [Function.update_self, Function.update_of_ne (Nat.ne_of_gt (Nat.lt_succ_self i))]
  have hother (j : Nat) (h1 : j ≠ i) (h2 : j ≠ i + 1) :
      ((s.goto (i + 1) .reaped).goto i (back ret)).proc j = s.proc j := by
    rw [State.goto, State.goto]
    simp only [Function.update_of_ne h1, Function.update_of_ne h2]
  have hback : Older (back ret) ∧ Past (back ret) ∧ back ret ≠ .reaped ∧
      work s.pipe (back ret) < 3 := by
    cases ret with
    | none => exact ⟨trivial, trivial, nofun, by show 1 < 3; decide⟩
    | some p => exact ⟨trivial, trivial, nofun, by show 2 < 3; decide⟩
  generalize ht : (s.goto (i + 1) .reaped).goto i (back ret) = t at *
  have hcells : t.count = s.count ∧ t.pipe = s.pipe ∧ t.npipes = s.npipes ∧
      t.printed = s.printed := by
    rw [← ht]
    exact ⟨rfl, rfl, rfl, rfl⟩
  obtain ⟨hcount, hpipe, hnpipes, hprinted⟩ := hcells
  have hfield (j : Nat) : (t.proc j).parent = (s.proc j).parent ∧
      (t.proc j).left = (s.proc j).left ∧ (t.proc j).ofile = (s.proc j).ofile := by
    by_cases h1 : j = i
    · rw [h1, hself]
      exact ⟨rfl, rfl, rfl⟩
    · by_cases h2 : j = i + 1
      · rw [h2, hnext]
        exact ⟨rfl, rfl, rfl⟩
      · rw [hother j h1 h2]
        exact ⟨rfl, rfl, rfl⟩
  refine ⟨⟨hcount.trans h.count, ?_, ?_, ?_, ?_, ?_, ?_, ?_, ?_, ?_⟩, ?_⟩
  · rw [(hfield 0).1]
    exact h.root
  · intro j hj
    rw [(hfield _).1]
    exact h.parent j hj
  · intro j hj q hq
    rw [(hfield j).2.1] at hq
    exact h.left j hj q hq
  · intro j hj
    by_cases h1 : j = i
    · rw [h1, hself]
      exact hback.1
    · by_cases h2 : j = i + 1
      · rw [h2, hnext]
        trivial
      · rw [hother j h1 h2]
        exact h.older j hj
  · intro j hj
    by_cases h1 : j = i
    · rw [h1, hself, hnext]
      exact ⟨fun _ ↦ rfl, fun _ ↦ hback.2.1⟩
    · by_cases h2 : j = i + 1
      · -- both before and after, the child has no child itself
        have hold := h.past (i + 1) (by omega)
        rw [hchild] at hold
        rw [h2, hnext, hother (i + 1 + 1) (by omega) (by omega)]
        exact hold
      · rw [hother j h1 h2]
        by_cases h3 : j + 1 = i
        · have hold := h.past j hj
          rw [h3, hpc] at hold
          rw [h3, hself]
          exact ⟨fun hp ↦ (nomatch hold.mp hp), fun hr ↦ absurd hr hback.2.2.1⟩
        · rw [hother (j + 1) h3 (by omega)]
          exact h.past j hj
  · intro j hj
    rw [(hfield j).2.2]
    exact h.writes j hj
  · rw [hpipe]
    exact h.positive
  · rw [hpipe]
    exact h.drained
  · have hview : t.view n = s.view n := by
      rw [State.view, State.view, hnpipes, hpipe, hprinted, (hfield n).2.2]
    have hstage := h.stage
    rw [hview]
    by_cases h2 : n = i + 1
    · rw [h2, hchild] at hstage
      rw [h2, hnext]
      exact hstage
    · rw [hother n (by omega) h2]
      exact hstage
  · apply totalWork_lt (i := i) hcount (by rw [h.count]; omega)
    · rw [hpipe, hself, hpc]
      exact hback.2.2.2
    · intro j hj h1
      rw [hpipe]
      by_cases h2 : j = i + 1
      · rw [h2, hnext]
        exact Nat.zero_le _
      · rw [hother j h1 h2]

theorem Chain.step_older (h : Chain target s n) (hi : i < n) (hs : step s i = some t) :
    Chain target t n ∧ totalWork t < totalWork s := by
  have hcount : i < s.count := by
    rw [h.count]
    omega
  have holder := h.older i hi
  have hpast := h.past i hi
  have hwrites := h.writes i hi
  rw [step, if_pos hcount] at hs
  cases hpc : (s.proc i).pc with
  | closeP0 p0 ret =>
    rw [hpc] at hs hpast
    cases hs
    refine ⟨h.setProc hi rfl rfl (writesOnly_close hwrites p0 false) trivial hpast ?_, ?_⟩
    · rw [hpc]
      exact ⟨(by intro hc; cases hc), (by intro hc; cases hc)⟩
    · exact totalWork_setProc hcount (by rw [hpc]; show 3 < 4; decide)
  | wait ret =>
    rw [hpc] at hs
    simp only at hs
    cases hdead : s.deadChild i with
    | some j =>
      rw [hdead] at hs
      cases hs
      obtain ⟨rfl, hchild⟩ := h.deadChild hdead
      exact h.reap hi hpc hchild
    | none =>
      rw [hdead] at hs
      simp only [if_pos (h.hasChild hi hpc)] at hs
      cases hs
  | closeRead p =>
    rw [hpc] at hs hpast
    cases hs
    refine ⟨h.setProc hi rfl rfl (writesOnly_close hwrites p false) trivial hpast ?_, ?_⟩
    · rw [hpc]
      exact ⟨(by intro hc; cases hc), (by intro hc; cases hc)⟩
    · exact totalWork_setProc hcount (by rw [hpc]; show 1 < 2; decide)
  | exit =>
    rw [hpc] at hs hpast
    cases hs
    refine ⟨h.setProc hi rfl rfl writesOnly_closed trivial hpast ?_, ?_⟩
    · rw [hpc]
      exact ⟨(by intro hc; cases hc), (by intro hc; cases hc)⟩
    · exact totalWork_setProc hcount (by rw [hpc]; show 0 < 1; decide)
  | zombie =>
    rw [hpc] at hs
    cases hs
  | reaped =>
    rw [hpc] at hs
    cases hs
  | _ =>
    rw [hpc] at holder
    exact holder.elim

/-! ### Steps of the last process -/

/-- No process can write to a pipe that the last one does not write to. -/
theorem Chain.no_writer (h : Chain target s n) {p : Option Nat} {q : Nat}
    (hlast : WritesOnly (s.proc n).ofile p) (hq : some q ≠ p) : ¬ s.HasEnd q true := by
  rintro ⟨i, hi, hopen⟩
  rw [h.count] at hi
  by_cases hin : i = n
  · rw [hin] at hopen
    exact hq (hlast q hopen)
  · exact nomatch h.writes i (by omega) q hopen

/-- The last process forks the next stage. -/
theorem Chain.fork (h : Chain target s n) {p0 : Nat} {ret : Option Nat}
    (hpc : (s.proc n).pc = .fork p0 ret) :
    Chain target (s.fork n p0 ret) (n + 1) ∧ totalWork (s.fork n p0 ret) < totalWork s := by
  have hstage := h.stage
  rw [hpc] at hstage
  obtain ⟨hfilled, hwrites⟩ := hstage
  have hnew : (s.fork n p0 ret).proc (n + 1) =
      ⟨some n, some p0, .readCur p0 ret, (s.proc n).ofile⟩ := by
    rw [State.fork, h.count]
    exact Function.update_self ..
  have hself : (s.fork n p0 ret).proc n = { s.proc n with pc := .closeP0 p0 ret } := by
    rw [State.fork, h.count]
    exact (Function.update_of_ne (Nat.ne_of_lt (Nat.lt_succ_self n)) _ _).trans
      (Function.update_self ..)
  have hother (j : Nat) (hj : j < n) : (s.fork n p0 ret).proc j = s.proc j := by
    rw [State.fork, h.count]
    exact (Function.update_of_ne (Nat.ne_of_lt (Nat.lt_succ_of_lt hj)) _ _).trans
      (Function.update_of_ne (Nat.ne_of_lt hj) _ _)
  have hfield (j : Nat) (hj : j ≤ n) : ((s.fork n p0 ret).proc j).parent = (s.proc j).parent ∧
      ((s.fork n p0 ret).proc j).left = (s.proc j).left := by
    rcases Nat.lt_or_eq_of_le hj with hlt | rfl
    · rw [hother j hlt]
      exact ⟨rfl, rfl⟩
    · rw [hself]
      exact ⟨rfl, rfl⟩
  refine ⟨⟨congrArg (· + 1) h.count, ?_, ?_, ?_, ?_, ?_, ?_, h.positive, ?_, ?_⟩, ?_⟩
  · rw [(hfield 0 (Nat.zero_le n)).1]
    exact h.root
  · intro j hj
    rcases Nat.lt_or_eq_of_le (Nat.lt_succ_iff.mp hj) with hlt | rfl
    · rw [(hfield (j + 1) hlt).1]
      exact h.parent j hlt
    · rw [hnew]
  · intro j hj q hq
    rcases Nat.lt_or_eq_of_le hj with hlt | rfl
    · rw [(hfield j (Nat.lt_succ_iff.mp hlt)).2] at hq
      exact h.left j (Nat.lt_succ_iff.mp hlt) q hq
    · rw [hnew] at hq
      rw [← Option.some.inj hq, hfilled.right]
  · intro j hj
    rcases Nat.lt_or_eq_of_le (Nat.lt_succ_iff.mp hj) with hlt | rfl
    · rw [hother j hlt]
      exact h.older j hlt
    · rw [hself]
      trivial
  · intro j hj
    rcases Nat.lt_or_eq_of_le (Nat.lt_succ_iff.mp hj) with hlt | rfl
    · rw [hother j hlt, h.past j hlt]
      by_cases heq : j + 1 = n
      · rw [heq, hself, hpc]
        exact ⟨(by intro hc; cases hc), (by intro hc; cases hc)⟩
      · rw [hother (j + 1) (by omega)]
    · rw [hself, hnew]
      exact ⟨False.elim, nofun⟩
  · intro j hj
    rcases Nat.lt_or_eq_of_le (Nat.lt_succ_iff.mp hj) with hlt | rfl
    · rw [hother j hlt]
      exact h.writes j hlt
    · rw [hself]
      exact hwrites
  · intro q hq
    exact hfilled.drained q (by omega)
  · rw [State.view, hnew]
    refine ⟨⟨congrArg (· + 1) hfilled.right, hfilled.fresh, hfilled.isOpen, hwrites, hfilled.fits⟩,
      ?_⟩
    exact hfilled.todo
  · have hcount : (s.fork n p0 ret).count = n + 1 + 1 := congrArg (· + 1) h.count
    have hpipe : (s.fork n p0 ret).pipe = s.pipe := rfl
    rw [totalWork, totalWork, hcount, h.count, Finset.sum_range_succ, Finset.sum_range_succ,
      Finset.sum_range_succ, hnew, hself, hpc, hpipe]
    have hsum : ∑ j ∈ Finset.range n, work s.pipe ((s.fork n p0 ret).proc j).pc =
        ∑ j ∈ Finset.range n, work s.pipe (s.proc j).pc := by
      apply Finset.sum_congr rfl
      intro j hj
      rw [hother j (Finset.mem_range.mp hj)]
    rw [hsum]
    simp only [work]
    omega

theorem back_spec (ret : Option Nat) (pipe : Nat → List Int) :
    work pipe (back ret) < 3 ∧ back ret ≠ .reaped ∧ ∀ target v n,
      Stage target v n (back ret) ↔ v.printed = target ∧ WritesOnly v.ofile none := by
  cases ret with
  | none => exact ⟨by show 1 < 3; decide, nofun, fun _ _ _ ↦ Iff.rfl⟩
  | some p => exact ⟨by show 2 < 3; decide, nofun, fun _ _ _ ↦ Iff.rfl⟩

theorem positive_update (h : ∀ q, ∀ x ∈ s.pipe q, 2 ≤ x) {p : Nat} {ys : List Int}
    (hys : ∀ y ∈ ys, 2 ≤ y) : ∀ q, ∀ x ∈ Function.update s.pipe p ys q, 2 ≤ x := by
  intro q x hx
  by_cases hq : q = p
  · rw [hq, Function.update_self] at hx
    exact hys x hx
  · rw [Function.update_of_ne hq] at hx
    exact h q x hx

theorem sieve_cons (x : Int) (xs : List Int) :
    sieve divides (x :: xs) = x :: sieve divides (filtered x xs) := by
  rw [sieve, filtered]

theorem sieve_nil : sieve divides [] = [] := by rw [sieve]

/-- The stage reads its first number. -/
theorem Chain.readCur (h : Chain target s n) {p0 : Nat} {ret : Option Nat}
    (hpc : (s.proc n).pc = .readCur p0 ret) (hs : step s n = some t) :
    Chain target t n ∧ totalWork t < totalWork s := by
  have hstage := h.stage
  rw [hpc] at hstage
  obtain ⟨hread, htodo⟩ := hstage
  have hopen : (s.proc n).ofile p0 false = true := hread.isOpen
  have hlive : (s.proc n).pc ≠ .reaped := by
    rw [hpc]
    exact nofun
  rw [step, if_pos (by rw [h.count]; omega), hpc] at hs
  simp only [State.read, if_pos hopen] at hs
  cases hpipe : s.pipe p0 with
  | nil =>
    obtain ⟨hsmall, hne, hback⟩ := back_spec ret s.pipe
    rw [hpipe] at hs
    simp only [if_neg (h.no_writer hread.writes (q := p0) nofun)] at hs
    cases hs
    refine h.advance (back ret) (s.proc n).ofile s.npipes s.pipe s.printed hlive hne h.positive
      (fun _ _ ↦ rfl) ?_ ?_
    · rw [show (s.view n).pipe p0 = [] from hpipe, sieve_nil, List.append_nil] at htodo
      rw [hback]
      exact ⟨htodo, hread.writes⟩
    · rw [hpc, work, hpipe]
      exact hsmall
  | cons x xs =>
    rw [hpipe] at hs
    cases hs
    have hmem (y : Int) (hy : y ∈ x :: xs) : 2 ≤ y := h.positive p0 y (by rw [hpipe]; exact hy)
    have hupd : Function.update s.pipe p0 xs p0 = xs := Function.update_self ..
    have hleft := hread.left
    have hfits := hread.fits
    rw [show (s.view n).pipe p0 = x :: xs from hpipe] at hfits htodo
    rw [List.length_cons] at hfits
    refine h.advance (.print p0 x) (s.proc n).ofile s.npipes
      (Function.update s.pipe p0 xs) s.printed
      hlive nofun (positive_update h.positive (fun y hy ↦ hmem y (List.mem_cons_of_mem x hy)))
      (fun q hq ↦ Function.update_of_ne (by omega) _ _) ?_ ?_
    · refine ⟨⟨hleft, hread.fresh, hread.isOpen, hread.writes, ?_⟩, hmem x List.mem_cons_self, ?_⟩
      · simp only [hupd]
        omega
      · simp only [hupd]
        rw [← sieve_cons]
        exact htodo
    · rw [hpc, work, work, hupd, hpipe, List.length_cons, stageWork_succ]
      omega

/-- The stage reads another number, or the end of file. -/
theorem Chain.readTmp (h : Chain target s n) {p0 p : Nat} {cur : Int}
    (hpc : (s.proc n).pc = .readTmp p0 cur p) (hs : step s n = some t) :
    Chain target t n ∧ totalWork t < totalWork s := by
  have hstage := h.stage
  rw [hpc] at hstage
  obtain ⟨hfilter, htodo⟩ := hstage
  have hopen : (s.proc n).ofile p0 false = true := hfilter.isOpen
  have hleft := hfilter.left
  have hright := hfilter.right
  have hfits := hfilter.fits
  have hlive : (s.proc n).pc ≠ .reaped := by
    rw [hpc]
    exact nofun
  rw [step, if_pos (by rw [h.count]; omega), hpc] at hs
  simp only [State.read, if_pos hopen] at hs
  cases hpipe : s.pipe p0 with
  | nil =>
    have hne : some p0 ≠ some p := by
      rw [ne_eq, Option.some_inj]
      omega
    rw [hpipe] at hs
    simp only [if_neg (h.no_writer hfilter.writes hne)] at hs
    cases hs
    rw [show (s.view n).pipe p0 = [] from hpipe] at htodo hfits
    refine h.advance (.closeLeft p0 p) (s.proc n).ofile s.npipes s.pipe s.printed hlive nofun
      h.positive (fun _ _ ↦ rfl) ⟨⟨hright, hfilter.fresh, hfilter.ends false, ?_, ?_, ?_⟩, hleft,
        hfilter.writes⟩ ?_
    · intro q hq
      by_cases heq : q = p0
      · rw [heq]
        exact hpipe
      · exact h.drained q (by omega)
    · rw [List.length_nil] at hfits
      exact hfits
    · rw [filtered, List.filter_nil, List.append_nil] at htodo
      exact htodo
    · simp only [hpc, work, hpipe, List.length_nil, Nat.add_zero]
      omega
  | cons x xs =>
    rw [hpipe] at hs
    cases hs
    have hmem (y : Int) (hy : y ∈ x :: xs) : 2 ≤ y := h.positive p0 y (by rw [hpipe]; exact hy)
    have hupd : Function.update s.pipe p0 xs p0 = xs := Function.update_self ..
    have hupd' : Function.update s.pipe p0 xs p = s.pipe p := Function.update_of_ne (by omega) _ _
    rw [show (s.view n).pipe p0 = x :: xs from hpipe] at hfits htodo
    rw [List.length_cons] at hfits
    refine h.advance (.test p0 cur p x) (s.proc n).ofile s.npipes (Function.update s.pipe p0 xs)
      s.printed hlive nofun
        (positive_update h.positive (fun y hy ↦ hmem y (List.mem_cons_of_mem x hy)))
      (fun q hq ↦ Function.update_of_ne (by omega) _ _) ⟨⟨hleft, hright, hfilter.fresh, hfilter.cur,
        hfilter.isOpen, hfilter.ends, hfilter.writes, ?_⟩, hmem x List.mem_cons_self, ?_⟩ ?_
    · simp only [hupd, hupd']
      have hlen : ((s.view n).pipe p).length = (s.pipe p).length := rfl
      omega
    · simp only [hupd, hupd']
      exact htodo
    · have hsum :
          (s.pipe p).length + (xs.length + 1) = (s.pipe p).length + 1 + xs.length := by omega
      rw [hpc, work, work, hupd, hupd', hpipe, List.length_cons, hsum]
      omega

/-- The stage passes a number on, or drops it. -/
theorem Chain.test (h : Chain target s n) {p0 p : Nat} {cur tmp : Int}
    (hpc : (s.proc n).pc = .test p0 cur p tmp) (hs : step s n = some t) :
    Chain target t n ∧ totalWork t < totalWork s := by
  have hstage := h.stage
  rw [hpc] at hstage
  obtain ⟨hfilter, htmp, htodo⟩ := hstage
  have hcur := hfilter.cur
  have hleft := hfilter.left
  have hright := hfilter.right
  have hfits : (s.pipe p).length + 1 + (s.pipe p0).length ≤ CAPACITY := hfilter.fits
  have hlive : (s.proc n).pc ≠ .reaped := by
    rw [hpc]
    exact nofun
  have hn : n < s.count := by
    rw [h.count]
    omega
  rw [step, if_pos hn, hpc] at hs
  simp only [if_neg (show cur ≠ 0 by omega)] at hs
  rw [filtered, List.filter_cons, divides] at htodo
  by_cases hdiv : tmp.tmod cur = 0
  · simp only [ne_eq, hdiv, not_true_eq_false, if_false] at hs
    cases hs
    simp only [hdiv, decide_true, Bool.not_true, Bool.false_eq_true, if_false] at htodo
    refine h.advance (.readTmp p0 cur p) (s.proc n).ofile s.npipes s.pipe s.printed hlive nofun
      h.positive (fun _ _ ↦ rfl) ⟨⟨hleft, hright, hfilter.fresh, hcur, hfilter.isOpen, hfilter.ends,
        hfilter.writes, ?_⟩, htodo⟩ ?_
    · simp only
      omega
    · have hmore := stageWork_succ ((s.pipe p).length + (s.pipe p0).length)
      rw [Nat.add_right_comm] at hmore
      rw [hpc, work, work, hmore]
      omega
  · have hends (w : Bool) : (s.proc n).ofile p w = true := hfilter.ends w
    have hwrite : (s.proc n).ofile p true = true ∧ s.HasEnd p false ∧
        (s.pipe p).length < CAPACITY :=
      ⟨hends true, ⟨n, hn, hends false⟩, by omega⟩
    simp only [ne_eq, hdiv, not_false_eq_true, if_true, State.write, if_pos hwrite] at hs
    cases hs
    simp only [hdiv, decide_false, Bool.not_false, if_true] at htodo
    have hupd : Function.update s.pipe p (s.pipe p ++ [tmp]) p = s.pipe p ++ [tmp] :=
      Function.update_self ..
    have hupd' : Function.update s.pipe p (s.pipe p ++ [tmp]) p0 = s.pipe p0 :=
      Function.update_of_ne (by omega) _ _
    have hmem (y : Int) (hy : y ∈ s.pipe p ++ [tmp]) : 2 ≤ y := by
      rcases List.mem_append.mp hy with hy | hy
      · exact h.positive p y hy
      · rw [List.mem_singleton.mp hy]
        exact htmp
    refine h.advance (.readTmp p0 cur p) (s.proc n).ofile s.npipes
      (Function.update s.pipe p (s.pipe p ++ [tmp])) s.printed hlive nofun
      (positive_update h.positive hmem) (fun q hq ↦ Function.update_of_ne (by omega) _ _)
      ⟨⟨hleft, hright, hfilter.fresh, hcur, hfilter.isOpen, hfilter.ends, hfilter.writes, ?_⟩, ?_⟩
      ?_
    · simp only [hupd, hupd', List.length_append, List.length_singleton]
      omega
    · simp only [hupd, hupd']
      rw [List.append_assoc]
      exact htodo
    · simp only [hpc, work, hupd, hupd', List.length_append, List.length_singleton]
      omega

theorem Chain.step_last (h : Chain target s n) (hs : step s n = some t) :
    ∃ n', Chain target t n' ∧ totalWork t < totalWork s := by
  have hn : n < s.count := by
    rw [h.count]
    omega
  have hstage := h.stage
  cases hpc : (s.proc n).pc with
  | fork p0 ret =>
    rw [step, if_pos hn, hpc] at hs
    cases hs
    exact ⟨n + 1, h.fork hpc⟩
  | readCur p0 ret => exact ⟨n, h.readCur hpc hs⟩
  | print p0 cur =>
    rw [step, if_pos hn, hpc] at hs
    rw [hpc] at hstage
    obtain ⟨hread, hcur, htodo⟩ := hstage
    cases hs
    refine ⟨n, h.advance (.pipe p0 cur) (s.proc n).ofile s.npipes s.pipe (s.printed ++ [cur])
      (by rw [hpc]; exact nofun) nofun h.positive (fun _ _ ↦ rfl) ⟨⟨hread.left, hread.fresh,
        hread.isOpen, hread.writes, hread.fits⟩, hcur, ?_⟩ ?_⟩
    · rw [List.append_assoc]
      exact htodo
    · rw [hpc, work, work]
      omega
  | pipe p0 cur =>
    rw [step, if_pos hn, hpc] at hs
    rw [hpc] at hstage
    obtain ⟨hread, hcur, htodo⟩ := hstage
    have hleft := hread.left
    have hfresh : s.npipes = n := hread.fresh
    have hupd : Function.update s.pipe s.npipes [] s.npipes = [] := Function.update_self ..
    have hupd' : Function.update s.pipe s.npipes [] p0 = s.pipe p0 :=
      Function.update_of_ne (by omega) _ _
    cases hs
    refine ⟨n, h.advance (.readTmp p0 cur s.npipes)
      (fun q' w ↦ if q' = s.npipes then true else (s.proc n).ofile q' w) (s.npipes + 1)
      (Function.update s.pipe s.npipes []) s.printed (by rw [hpc]; exact nofun) nofun
      (positive_update h.positive nofun) (fun q hq ↦ Function.update_of_ne (by omega) _ _)
      ⟨⟨hleft, hfresh, congrArg (· + 1) hfresh, hcur, ?_, fun w ↦ if_pos rfl, ?_, ?_⟩, ?_⟩ ?_⟩
    · simp only [if_neg (show p0 ≠ s.npipes by omega)]
      exact hread.isOpen
    · intro q hq
      simp only at hq
      split at hq
      · next heq => rw [heq]
      · exact nomatch hread.writes q hq
    · simp only [hupd, hupd', List.length_nil, Nat.zero_add]
      exact hread.fits
    · simp only [hupd, hupd', List.nil_append]
      exact htodo
    · simp only [hpc, work, hupd, hupd', List.length_nil, Nat.zero_add]
      omega
  | readTmp p0 cur p => exact ⟨n, h.readTmp hpc hs⟩
  | test p0 cur p tmp => exact ⟨n, h.test hpc hs⟩
  | closeLeft p0 p =>
    rw [step, if_pos hn, hpc] at hs
    rw [hpc] at hstage
    obtain ⟨hfilled, hleft, hwrites⟩ := hstage
    have hright := hfilled.right
    cases hs
    refine ⟨n, h.advance (.closeWrite p)
      (fun q' w' ↦ if q' = p0 ∧ w' = false then false else (s.proc n).ofile q' w') s.npipes s.pipe
      s.printed (by rw [hpc]; exact nofun) nofun h.positive (fun _ _ ↦ rfl)
      ⟨⟨hright, hfilled.fresh, ?_, hfilled.drained, hfilled.fits, hfilled.todo⟩,
        writesOnly_close hwrites p0 false⟩ ?_⟩
    · have hne : ¬ (p = p0 ∧ false = false) := fun hc ↦ absurd hc.1 (by omega)
      exact (if_neg hne).trans hfilled.isOpen
    · rw [hpc, work, work]
      omega
  | closeWrite p =>
    rw [step, if_pos hn, hpc] at hs
    rw [hpc] at hstage
    obtain ⟨hfilled, hwrites⟩ := hstage
    cases hs
    refine ⟨n, h.advance (.fork p (some p))
      (fun q' w' ↦ if q' = p ∧ w' = true then false else (s.proc n).ofile q' w') s.npipes s.pipe
      s.printed (by rw [hpc]; exact nofun) nofun h.positive (fun _ _ ↦ rfl)
      ⟨⟨hfilled.right, hfilled.fresh, ?_, hfilled.drained, hfilled.fits, hfilled.todo⟩, ?_⟩ ?_⟩
    · simp only [Bool.false_eq_true, and_false, if_false]
      exact hfilled.isOpen
    · intro q hq
      simp only [and_true] at hq
      split at hq
      · cases hq
      · next hne => exact absurd (Option.some.inj (hwrites q hq)) hne
    · rw [hpc, work, work]
      omega
  | closeRead p =>
    rw [step, if_pos hn, hpc] at hs
    rw [hpc] at hstage
    cases hs
    refine ⟨n, h.advance .exit
      (fun q' w' ↦ if q' = p ∧ w' = false then false else (s.proc n).ofile q' w') s.npipes s.pipe
      s.printed (by rw [hpc]; exact nofun) nofun h.positive (fun _ _ ↦ rfl)
      ⟨hstage.1, writesOnly_close hstage.2 p false⟩ ?_⟩
    rw [hpc]
    show 1 < 2
    decide
  | exit =>
    rw [step, if_pos hn, hpc] at hs
    rw [hpc] at hstage
    cases hs
    refine ⟨n, h.advance .zombie (fun _ _ ↦ false) s.npipes s.pipe s.printed
      (by rw [hpc]; exact nofun)
      nofun h.positive (fun _ _ ↦ rfl) ⟨hstage.1, writesOnly_closed⟩ ?_⟩
    rw [hpc]
    show 0 < 1
    decide
  | zombie =>
    rw [step, if_pos hn, hpc] at hs
    cases hs
  | reaped =>
    rw [step, if_pos hn, hpc] at hs
    cases hs
  | closeP0 p0 ret =>
    rw [hpc] at hstage
    exact hstage.elim
  | wait ret =>
    rw [hpc] at hstage
    exact hstage.elim

/-- A step of any process keeps the chain, and leaves less work. -/
theorem Chain.any_step (h : Chain target s n) (hs : step s i = some t) :
    ∃ n', Chain target t n' ∧ totalWork t < totalWork s := by
  by_cases hi : i < s.count
  · rw [h.count] at hi
    by_cases hin : i = n
    · rw [hin] at hs
      exact h.step_last hs
    · exact ⟨n, h.step_older (by omega) hs⟩
  · rw [step, if_neg hi] at hs
    cases hs

end

end Xv6.Primes
