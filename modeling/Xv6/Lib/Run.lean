import Mathlib.Logic.Basic

/-!
# Runs of a labelled step function

A system is a partial step function `σ → α → Option σ`: `none` says that the label is not
enabled in that state. The module has finite runs, what it means for a condition to hold at
every step of a run and for a property to hold in every state of it, and the induction
rules that turn a step lemma into a run lemma.
-/

namespace Xv6.Lib

universe u v

variable {σ : Type u} {α : Type v} (step : σ → α → Option σ)

/-- Perform the labels one after the other; `none` as soon as one of them is not enabled. -/
def run : σ → List α → Option σ
  | s, [] => some s
  | s, a :: as => (step s a).bind (fun t ↦ run t as)

/-- The condition `ok` holds of the state before each step of the run and of its label. -/
def Along (ok : σ → α → Prop) : σ → List α → Prop
  | _, [] => True
  | s, a :: as => ok s a ∧ ∀ t, step s a = some t → Along ok t as

/-- The property `P` holds in every state of the run, the first and the last included. -/
def Always (P : σ → Prop) : σ → List α → Prop
  | s, [] => P s
  | s, a :: as => P s ∧ ∀ t, step s a = some t → Always P t as

/-- Conditions along a run can be tested by performing it. -/
instance Along.decidable (ok : σ → α → Prop) [∀ s a, Decidable (ok s a)] :
    ∀ s as, Decidable (Along step ok s as)
  | _, [] => isTrue True.intro
  | s, a :: as =>
    match h : step s a with
    | none => decidable_of_iff (ok s a) (by simp [Along, h])
    | some t =>
      haveI := Along.decidable ok t as
      decidable_of_iff (ok s a ∧ Along step ok t as) (by simp [Along, h])

/-- Some run from `s` ends in `t`. -/
def Reaches (s t : σ) : Prop := ∃ as, run step s as = some t

variable {step}

/-- A run starts with one step, and goes on from the state that step leads to. -/
theorem run_cons_eq_some {s t : σ} {a : α} {as : List α} :
    run step s (a :: as) = some t ↔ ∃ u, step s a = some u ∧ run step u as = some t := by
  simp only [run, Option.bind_eq_some_iff]

theorem Along.mono {ok ok' : σ → α → Prop} (h : ∀ s a, ok s a → ok' s a) {s : σ} {as : List α}
    (hok : Along step ok s as) : Along step ok' s as := by
  induction as generalizing s with
  | nil => trivial
  | cons a as ih =>
    refine ⟨h s a hok.1, ?_⟩
    intro t ht
    exact ih (hok.2 t ht)

/-- A condition on the labels alone. -/
theorem Along.of_forall {ok : α → Prop} {as : List α} (h : ∀ a ∈ as, ok a) (s : σ) :
    Along step (fun _ a ↦ ok a) s as := by
  induction as generalizing s with
  | nil => trivial
  | cons a as ih =>
    refine ⟨h a List.mem_cons_self, ?_⟩
    intro t _
    exact ih (fun b hb ↦ h b (List.mem_cons_of_mem a hb)) t

/-- A property that each admissible step preserves holds at the end of every run whose steps
are all admissible. -/
theorem run_invariant_along {ok : σ → α → Prop} {P : σ → Prop}
    (hstep : ∀ s a t, P s → ok s a → step s a = some t → P t) {s t : σ} {as : List α}
    (hs : P s) (hok : Along step ok s as) (hrun : run step s as = some t) : P t := by
  induction as generalizing s with
  | nil =>
    cases Option.some.inj hrun
    exact hs
  | cons a as ih =>
    obtain ⟨u, hu, hrest⟩ := run_cons_eq_some.mp hrun
    exact ih (hstep s a u hs hok.1 hu) (hok.2 u hu) hrest

/-- A property that each step preserves holds in every state a run reaches. -/
theorem Reaches.invariant {P : σ → Prop} (hstep : ∀ s a t, P s → step s a = some t → P t)
    {s t : σ} (h : Reaches step s t) (hs : P s) : P t := by
  obtain ⟨as, has⟩ := h
  induction as generalizing s with
  | nil =>
    cases Option.some.inj has
    exact hs
  | cons a as ih =>
    obtain ⟨u, hu, hrest⟩ := run_cons_eq_some.mp has
    exact ih (hstep s a u hs hu) hrest

/-- A property of all states of a run holds in its last state. -/
theorem Always.last {P : σ → Prop} {s t : σ} {as : List α} (h : Always step P s as)
    (hrun : run step s as = some t) : P t := by
  induction as generalizing s with
  | nil =>
    cases Option.some.inj hrun
    exact h
  | cons a as ih =>
    obtain ⟨u, hu, hrest⟩ := run_cons_eq_some.mp hrun
    exact ih (h.2 u hu) hrest

/-- An invariant that the admissible steps keep holds, with what it implies, in every state of
a run whose steps are all admissible. -/
theorem Along.always {ok : σ → α → Prop} {P J : σ → Prop} (hP : ∀ s, J s → P s)
    (hkeep : ∀ s a t, J s → ok s a → step s a = some t → J t) {s : σ} {as : List α} (hs : J s)
    (hok : Along step ok s as) : Always step P s as := by
  induction as generalizing s with
  | nil => exact hP s hs
  | cons a as ih =>
    refine ⟨hP s hs, ?_⟩
    intro t ht
    exact ih (hkeep s a t hs hok.1 ht) (hok.2 t ht)

/-- An invariant that every step keeps holds, with what it implies, in every state of every run. -/
theorem always_of_invariant {P J : σ → Prop} (hP : ∀ s, J s → P s)
    (hkeep : ∀ s a t, J s → step s a = some t → J t) {s : σ} (hs : J s) (as : List α) :
    Always step P s as := by
  induction as generalizing s with
  | nil => exact hP s hs
  | cons a as ih =>
    refine ⟨hP s hs, ?_⟩
    intro t ht
    exact ih (hkeep s a t hs ht)

/-- What an invariant that every step keeps says about the steps holds of each step of a run. -/
theorem along_of_invariant {ok : σ → α → Prop} {J : σ → Prop} (hok : ∀ s a, J s → ok s a)
    (hkeep : ∀ s a t, J s → step s a = some t → J t) {s : σ} (hs : J s) (as : List α) :
    Along step ok s as := by
  induction as generalizing s with
  | nil => trivial
  | cons a as ih =>
    refine ⟨hok s a hs, ?_⟩
    intro t ht
    exact ih (hkeep s a t hs ht)

/-- A run of an abstract step relation. -/
inductive Trace {τ : Type*} (R : τ → α → τ → Prop) : τ → List α → τ → Prop
  | nil (x : τ) : Trace R x [] x
  | cons {x y z : τ} {a : α} {as : List α} : R x a y → Trace R y as z → Trace R x (a :: as) z

/-- If each admissible step from a state with the invariant keeps it and is a step of the
abstract relation, then a run is one of the abstract relation. -/
theorem Along.simulates {τ : Type*} {ok : σ → α → Prop} {J : σ → Prop} {abs : σ → τ}
    {R : τ → α → τ → Prop}
    (hstep : ∀ s a t, J s → ok s a → step s a = some t → J t ∧ R (abs s) a (abs t))
    {s t : σ} {as : List α} (hs : J s) (hok : Along step ok s as) (hrun : run step s as = some t) :
    J t ∧ Trace R (abs s) as (abs t) := by
  induction as generalizing s with
  | nil =>
    cases Option.some.inj hrun
    exact ⟨hs, Trace.nil _⟩
  | cons a as ih =>
    obtain ⟨u, hu, hrest⟩ := run_cons_eq_some.mp hrun
    obtain ⟨hJ, hR⟩ := hstep s a u hs hok.1 hu
    obtain ⟨ht, htrace⟩ := ih hJ (hok.2 u hu) hrest
    exact ⟨ht, Trace.cons hR htrace⟩

/-- If an invariant implies `P`, is kept by the admissible steps, and each other step ends in a
state without `P`, then `P` holds throughout a run exactly when its steps are all admissible. -/
theorem always_iff_along {ok : σ → α → Prop} {P J : σ → Prop} (hP : ∀ s, J s → P s)
    (hkeep : ∀ s a t, J s → ok s a → step s a = some t → J t)
    (hbreak : ∀ s a t, J s → ¬ ok s a → step s a = some t → ¬ P t)
    {s t : σ} {as : List α} (hs : J s) (hrun : run step s as = some t) :
    Always step P s as ↔ Along step ok s as := by
  induction as generalizing s with
  | nil => exact ⟨fun _ ↦ True.intro, fun _ ↦ hP s hs⟩
  | cons a as ih =>
    obtain ⟨u, hu, hrest⟩ := run_cons_eq_some.mp hrun
    constructor
    · intro h
      have hPu : P u := by
        have := h.2 u hu
        cases as with
        | nil => exact this
        | cons b bs => exact this.1
      have hok : ok s a := by
        apply Classical.byContradiction
        intro hn
        exact hbreak s a u hs hn hu hPu
      refine ⟨hok, ?_⟩
      intro v hv
      cases Option.some.inj (hu.symm.trans hv)
      exact (ih (hkeep s a u hs hok hu) hrest).mp (h.2 u hu)
    · exact Along.always hP hkeep hs

end Xv6.Lib
