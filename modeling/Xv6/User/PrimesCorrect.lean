import Xv6.User.PrimesRun

/-!
# The prime sieve is correct

No run of `utilities/primes.c` gets stuck, every run ends after a bounded number of steps, and then
the numbers printed are those that no number printed before them divides: for 2 to `N`, the primes.
-/

namespace Xv6.Primes

open Xv6.Lib

section
variable {target : List Int} {s t : State} {n i : Nat}

/-! ### No process gets stuck -/

/-- The process has exited. -/
def State.Exited (s : State) (i : Nat) : Prop := (s.proc i).pc = .zombie ∨ (s.proc i).pc = .reaped

/-- A read from a pipe that is open and has no writer returns. -/
theorem read_isSome {q : Nat} (hopen : (s.proc i).ofile q false = true) (hw : ¬ s.HasEnd q true) :
    ∃ r, s.read i q = some r := by
  rw [State.read, if_pos hopen]
  cases s.pipe q with
  | nil => exact ⟨none, if_neg hw⟩
  | cons x xs => exact ⟨_, rfl⟩

/-- The last process can go on until it has exited. -/
theorem Chain.enabled_last (h : Chain target s n) (hlive : ¬ s.Exited n) :
    ∃ t, step s n = some t := by
  have hn : n < s.count := by
    rw [h.count]
    omega
  have hstage := h.stage
  rw [step, if_pos hn]
  cases hpc : (s.proc n).pc with
  | readCur p0 ret =>
    rw [hpc] at hstage
    obtain ⟨r, hr⟩ :=
      read_isSome hstage.1.isOpen (h.no_writer hstage.1.writes (q := p0) (by intro hc; cases hc))
    simp only [hr]
    cases r with
    | none => exact ⟨_, rfl⟩
    | some r => exact ⟨_, rfl⟩
  | readTmp p0 cur p =>
    rw [hpc] at hstage
    have hne : some p0 ≠ some p := by
      have hleft := hstage.1.left
      have hright := hstage.1.right
      rw [ne_eq, Option.some_inj]
      omega
    obtain ⟨r, hr⟩ := read_isSome hstage.1.isOpen (h.no_writer hstage.1.writes hne)
    simp only [hr]
    cases r with
    | none => exact ⟨_, rfl⟩
    | some r => exact ⟨_, rfl⟩
  | test p0 cur p tmp =>
    rw [hpc] at hstage
    have hcur := hstage.1.cur
    have hfits : (s.pipe p).length + 1 + (s.pipe p0).length ≤ CAPACITY := hstage.1.fits
    have hends (w : Bool) : (s.proc n).ofile p w = true := hstage.1.ends w
    have hwrite : (s.proc n).ofile p true = true ∧ s.HasEnd p false ∧
        (s.pipe p).length < CAPACITY :=
      ⟨hends true, ⟨n, hn, hends false⟩, by omega⟩
    simp only [if_neg (show cur ≠ 0 by omega), State.write, if_pos hwrite]
    split
    · exact ⟨_, rfl⟩
    · exact ⟨_, rfl⟩
  | closeP0 p0 ret =>
    rw [hpc] at hstage
    exact hstage.elim
  | wait ret =>
    rw [hpc] at hstage
    exact hstage.elim
  | zombie => exact absurd (Or.inl hpc) hlive
  | reaped => exact absurd (Or.inr hpc) hlive
  | _ => exact ⟨_, rfl⟩

/-- An older process can go on once its child has exited. -/
theorem Chain.enabled_older (h : Chain target s n) (hi : i < n) (hchild : s.Exited (i + 1))
    (hlive : ¬ s.Exited i) : ∃ t, step s i = some t := by
  have hcount : i + 1 < s.count := by
    rw [h.count]
    omega
  have holder := h.older i hi
  rw [step, if_pos (by omega)]
  cases hpc : (s.proc i).pc with
  | closeP0 p0 ret => exact ⟨_, rfl⟩
  | wait ret =>
    -- a child that was waited for already would have let its parent go on
    have hzombie : (s.proc (i + 1)).pc = .zombie := by
      rcases hchild with hz | hr
      · exact hz
      · have hpast := (h.past i hi).mpr hr
        rw [hpc] at hpast
        exact hpast.elim
    have hfound : (s.deadChild i).isSome = true := by
      rw [State.deadChild, List.find?_isSome]
      refine ⟨i + 1, List.mem_range.mpr hcount, ?_⟩
      rw [decide_eq_true_eq]
      exact ⟨h.parent i hi, hzombie⟩
    obtain ⟨j, hj⟩ := Option.isSome_iff_exists.mp hfound
    simp only [hj]
    exact ⟨_, rfl⟩
  | closeRead p => exact ⟨_, rfl⟩
  | exit => exact ⟨_, rfl⟩
  | zombie => exact absurd (Or.inl hpc) hlive
  | reaped => exact absurd (Or.inr hpc) hlive
  | _ =>
    rw [hpc] at holder
    exact holder.elim

theorem Chain.progress (h : Chain target s n) : s.Done ∨ ∃ i t, step s i = some t := by
  by_cases hstuck : ∃ i t, step s i = some t
  · exact Or.inr hstuck
  · -- from the last process down the chain, each one has exited
    have hexited (d : Nat) : ∀ i, i + d = n → s.Exited i := by
      induction d with
      | zero =>
        intro i hi
        rw [Nat.add_zero] at hi
        rw [hi]
        by_contra hlive
        exact hstuck ⟨n, h.enabled_last hlive⟩
      | succ d ih =>
        intro i hi
        by_contra hlive
        exact hstuck ⟨i, h.enabled_older (by omega) (ih (i + 1) (by omega)) hlive⟩
    apply Or.inl
    intro i hi
    rw [h.count] at hi
    exact hexited (n - i) i (by omega)

/-! ### What has been printed -/

theorem Stage.begins {v : View} {pc : Pc} (h : Stage target v n pc) : v.printed <+: target := by
  cases pc with
  | fork p0 ret => exact ⟨_, h.1.todo⟩
  | readCur p0 ret => exact ⟨_, h.2⟩
  | print p0 cur => exact ⟨_, h.2.2⟩
  | pipe p0 cur => exact ⟨_, h.2.2⟩
  | readTmp p0 cur p => exact ⟨_, h.2⟩
  | test p0 cur p tmp => exact ⟨_, h.2.2⟩
  | closeLeft p0 p => exact ⟨_, h.1.todo⟩
  | closeWrite p => exact ⟨_, h.1.todo⟩
  | closeP0 p0 ret => exact h.elim
  | wait ret => exact h.elim
  | _ => exact ⟨[], (List.append_nil _).trans h.1⟩

/-- The last process writes to its own pipe only. -/
theorem Stage.writes {v : View} {pc : Pc} (h : Stage target v n pc) {q : Nat}
    (hq : v.ofile q true = true) : q = n := by
  cases pc with
  | fork p0 ret => exact nomatch h.2 q hq
  | readCur p0 ret => exact nomatch h.1.writes q hq
  | print p0 cur => exact nomatch h.1.writes q hq
  | pipe p0 cur => exact nomatch h.1.writes q hq
  | readTmp p0 cur p => exact (Option.some.inj (h.1.writes q hq)).trans h.1.right
  | test p0 cur p tmp => exact (Option.some.inj (h.1.writes q hq)).trans h.1.right
  | closeLeft p0 p => exact (Option.some.inj (h.2.2 q hq)).trans h.1.right
  | closeWrite p => exact (Option.some.inj (h.2 q hq)).trans h.1.right
  | closeP0 p0 ret => exact h.elim
  | wait ret => exact h.elim
  | _ => exact nomatch h.2 q hq

theorem Chain.done (h : Chain target s n) (hdone : s.Done) : s.printed = target := by
  have hstage := h.stage
  rcases hdone n (by rw [h.count]; omega) with hz | hr
  · rw [hz] at hstage
    exact hstage.1
  · rw [hr] at hstage
    exact hstage.1

theorem Chain.readsAll (h : Chain target s n) : s.ReadsAll := by
  intro i hi j hj hparent q hq
  rw [h.count] at hi hj
  have hchild : j = i + 1 := by
    cases j with
    | zero =>
      rw [h.root] at hparent
      cases hparent
    | succ j =>
      rw [h.parent j (by omega)] at hparent
      rw [Option.some.inj hparent]
  have hleft := h.left i (by omega) q hq
  refine ⟨h.drained q (by omega), ?_⟩
  rintro ⟨k, hk, hopen⟩
  rw [h.count] at hk
  by_cases hkn : k = n
  · rw [hkn] at hopen
    have := h.stage.writes hopen
    omega
  · exact nomatch h.writes k (by omega) q hopen

/-! ### Runs -/

theorem chain_start {xs : List Int} (hxs : ∀ x ∈ xs, 2 ≤ x) (hfit : 4 * xs.length ≤ PIPESIZE) :
    Chain (sieve divides xs) (start xs) 0 := by
  refine ⟨rfl, rfl, nofun, nofun, nofun, nofun, nofun, ?_, nofun, ?_⟩
  · intro q x hx
    simp only [start] at hx
    split at hx
    · exact hxs x hx
    · cases hx
  · refine ⟨⟨rfl, rfl, rfl, nofun, ?_, rfl⟩, ?_⟩
    · show xs.length ≤ CAPACITY
      have hP : PIPESIZE = 512 := rfl
      have hC : CAPACITY = 128 := rfl
      omega
    · intro q hq
      have := of_decide_eq_true hq
      cases this.2

theorem Chain.after_run (h : Chain target s n) {as : List Nat} (hrun : run step s as = some t) :
    (∃ n', Chain target t n') ∧ as.length + totalWork t ≤ totalWork s := by
  induction as generalizing s n with
  | nil =>
    cases Option.some.inj hrun
    exact ⟨⟨n, h⟩, by rw [List.length_nil, Nat.zero_add]⟩
  | cons i as ih =>
    obtain ⟨u, hu, hrest⟩ := run_cons_eq_some.mp hrun
    obtain ⟨n', hchain, hless⟩ := h.any_step hu
    obtain ⟨hend, hwork⟩ := ih hchain hrest
    exact ⟨hend, by rw [List.length_cons]; omega⟩

end

/-! ### What the sieve keeps -/

theorem sieve_eq_undivided (xs : List Int) : sieve divides xs = undivided xs := by
  have hdvd : divides = fun p x ↦ decide (p ∣ x) := by
    funext p x
    exact decide_eq_decide.mpr Int.dvd_iff_tmod_eq_zero.symm
  rw [sieve_eq_kept, hdvd, undivided]

/-- Natural numbers as `int`s. -/
def ints (js : List Nat) : List Int := js.map (fun j : Nat ↦ (j : Int))

/-- The numbers from `m` on, once the primes below `m` were seen. -/
theorem kept_range' (k : Nat) {m : Nat} {seen : List Int} (hm : 2 ≤ m)
    (hseen : ∀ y, y ∈ seen ↔ ∃ p : Nat, p.Prime ∧ p < m ∧ y = p) :
    kept (fun p x ↦ decide (p ∣ x)) seen (ints (List.range' m k)) =
      ints ((List.range' m k).filter (fun j ↦ decide j.Prime)) := by
  induction k generalizing m seen with
  | zero => rfl
  | succ k ih =>
    have hany : seen.any (fun p ↦ decide (p ∣ (m : Int))) = true ↔ ¬ m.Prime := by
      rw [List.any_eq_true]
      constructor
      · rintro ⟨y, hy, hdvd⟩ hprime
        obtain ⟨p, hp, hlt, rfl⟩ := (hseen y).mp hy
        rw [decide_eq_true_eq, Int.natCast_dvd_natCast] at hdvd
        have := (Nat.prime_dvd_prime_iff_eq hp hprime).mp hdvd
        omega
      · intro hcomp
        have hfac := Nat.minFac_prime (show m ≠ 1 by omega)
        have hlt : m.minFac < m :=
          Nat.lt_of_le_of_ne (Nat.minFac_le (by omega)) (fun heq ↦ hcomp (heq ▸ hfac))
        refine ⟨(m.minFac : Int), (hseen _).mpr ⟨_, hfac, hlt, rfl⟩, ?_⟩
        rw [decide_eq_true_eq, Int.natCast_dvd_natCast]
        exact Nat.minFac_dvd m
    rw [List.range'_succ, ints, List.map_cons, kept, List.filter_cons]
    by_cases hprime : m.Prime
    · have hno : ¬ seen.any (fun p ↦ decide (p ∣ (m : Int))) = true := fun h ↦ hany.mp h hprime
      simp only [hno, hprime, decide_true, if_true, if_false, Bool.false_eq_true]
      apply congrArg ((m : Int) :: ·)
      apply ih (by omega)
      intro y
      rw [List.mem_append, List.mem_singleton, hseen]
      constructor
      · rintro (⟨p, hp, hlt, rfl⟩ | rfl)
        · exact ⟨p, hp, by omega, rfl⟩
        · exact ⟨m, hprime, by omega, rfl⟩
      · rintro ⟨p, hp, hlt, rfl⟩
        by_cases hpm : p = m
        · exact Or.inr (by rw [hpm])
        · exact Or.inl ⟨p, hp, by omega, rfl⟩
    · simp only [hany.mpr hprime, hprime, decide_false, if_true, if_false, Bool.false_eq_true]
      apply ih (by omega)
      intro y
      rw [hseen]
      constructor
      · rintro ⟨p, hp, hlt, rfl⟩
        exact ⟨p, hp, by omega, rfl⟩
      · rintro ⟨p, hp, hlt, rfl⟩
        have hpm : p ≠ m := fun heq ↦ hprime (heq ▸ hp)
        exact ⟨p, hp, by omega, rfl⟩

/-- The list 2, 3, …, `N`. -/
def upTo (N : Nat) : List Nat := List.range' 2 (N - 1)

theorem undivided_upTo (N : Nat) :
    undivided (ints (upTo N)) = ints ((upTo N).filter (fun j ↦ decide j.Prime)) := by
  apply kept_range' _ (Nat.le_refl 2)
  intro y
  constructor
  · intro hy
    cases hy
  · rintro ⟨p, hp, hlt, -⟩
    have := hp.two_le
    omega

/-- Every run of `readleft` on a pipe that holds `xs` can go on until all processes have exited,
ends after a bounded number of steps, reads each pipe to its end before the next stage is forked,
and prints the elements that none printed before them divides; for 2 to `N`, the primes. -/
theorem readleft_sieves {xs : List Int} (hxs : ∀ x ∈ xs, 2 ≤ x) (hfit : 4 * xs.length ≤ PIPESIZE) :
    (∀ as s, run step (start xs) as = some s →
      s.printed <+: undivided xs ∧ s.ReadsAll ∧ (s.Done ∨ ∃ i t, step s i = some t) ∧
      (s.Done → s.printed = undivided xs) ∧
      as.length ≤ xs.length * xs.length + 10 * xs.length + 8) ∧
    ∀ N, xs = ints (upTo N) →
      undivided xs = ints ((upTo N).filter (fun j ↦ decide j.Prime)) := by
  constructor
  · intro as s hrun
    obtain ⟨⟨n, hchain⟩, hwork⟩ := (chain_start hxs hfit).after_run hrun
    rw [sieve_eq_undivided] at hchain
    have hstart : totalWork (start xs) = xs.length * xs.length + 10 * xs.length + 8 := by
      rw [totalWork]
      exact Finset.sum_range_one _
    exact ⟨hchain.stage.begins, hchain.readsAll, hchain.progress, hchain.done, by omega⟩
  · rintro N rfl
    exact undivided_upTo N

/-- The list of `utilities/primes.c:37`, and the start of a run on it. -/
theorem readleft_sieves_35 :
    (ints (upTo 35)).length = 34 ∧
    (∃ s, run step (start (ints (upTo 35))) [0, 1, 0, 1] = some s ∧
      s.printed = [2] ∧ s.printed <+: undivided (ints (upTo 35))) ∧
    undivided (ints (upTo 35)) = [2, 3, 5, 7, 11, 13, 17, 19, 23, 29, 31] := by
  have hpositive : ∀ x ∈ ints (upTo 35), 2 ≤ x := by decide
  have hsieves := readleft_sieves hpositive (by decide)
  refine ⟨by decide, ?_, (hsieves.2 35 rfl).trans (by decide)⟩
  obtain ⟨s, hs⟩ : ∃ s, run step (start (ints (upTo 35))) [0, 1, 0, 1] = some s :=
    ⟨_, rfl⟩
  refine ⟨s, hs, ?_, (hsieves.1 _ s hs).1⟩
  cases Option.some.inj hs
  rfl

end Xv6.Primes
