import Xv6.Lib.Sum
import Xv6.Log.Model

/-!
# Operations and transactions

The part of the log's invariant that is about `struct log` and the processes: `outstanding`
counts the processes between `begin_op` and `end_op`, one process at most commits and then no
operation is running, and `log.lh` lists the blocks of the current transaction once each.
-/

namespace Xv6.Log

open Xv6.Lib

/-- What the invariants need to know about a position. -/
inductive Phase where
  | outside
  | running
  | logging
  | installing
  | ending
  deriving DecidableEq

/-- The phase of a position. -/
def Pos.phase : Pos → Phase
  | .idle | .sleeping | .woken => .outside
  | .inOp => .running
  | .writeLog _ | .writeHead => .logging
  | .install _ | .clearHead => .installing
  | .endCommit => .ending

/-- A process inside `commit`, or on its way out of it. -/
def Phase.Commits (f : Phase) : Prop := f = .logging ∨ f = .installing ∨ f = .ending

variable {P : Type}

/-- The phase of a process. -/
def State.phase (s : State P) (p : P) : Phase := (s.pos p).phase

/-- The blocks of the current transaction. -/
def State.blocks (s : State P) : List Nat := s.cur.map (·.blockno)

/-- The invariant of a machine that is up. -/
structure Ops [Fintype P] (s : State P) : Prop where
  outstanding : s.outstanding = ∑ p, if s.phase p = .running then 1 else 0
  committing : ∀ p, (s.phase p).Commits → s.committing = true
  alone : ∀ p q, (s.phase p).Commits → (s.phase q).Commits → p = q
  quiet : s.committing = true → s.outstanding = 0
  empty : s.outstanding = 0 → s.committing = false → s.lh = []
  nodup : s.lh.Nodup
  logged : (∀ p, s.phase p ≠ .installing) → ∀ b, b ∈ s.lh ↔ b ∈ s.blocks
  installed : ∀ p, s.phase p = .installing → s.cur = []
  ended : ∀ p, s.phase p = .ending → s.lh = []
  opOf : ∀ p, s.phase p = .running → s.opOf p < s.nextOp
  opOf_inj : ∀ p q, s.phase p = .running → s.phase q = .running → s.opOf p = s.opOf q → p = q

/-- The volatile state of a machine that recovers from its log. -/
structure Booting (s : State P) : Prop where
  outstanding : s.outstanding = 0
  committing : s.committing = false
  pos : ∀ p, s.pos p = .idle
  holder : ∀ b, s.holder b = none
  dirty : ∀ b, s.dirty b = false
  cur : s.cur = []

/-- The machine is in `recover_from_log`. -/
def Mode.Boots : Mode → Prop
  | .readHead | .recover _ | .clear => True
  | .up | .panicked _ => False

/-- The invariant of the log in every mode. -/
structure Protocol [Fintype P] (s : State P) : Prop where
  up : s.mode = .up → Ops s
  boot : s.mode.Boots → Booting s

section
variable [Fintype P] {s t : State P}

theorem Ops.not_commits (h : Ops s) (hc : s.committing = false) (p : P) :
    ¬ (s.phase p).Commits := by
  intro hp
  simp [h.committing p hp] at hc

theorem Ops.pos_of_running (h : Ops s) {p : P} (hp : s.phase p = .running) :
    0 < s.outstanding := by
  have hle := le_sum (fun q ↦ if s.phase q = .running then 1 else 0) p
  simp only [hp, if_true] at hle
  rw [h.outstanding]
  omega

/-- While an operation runs, nobody commits. -/
theorem Ops.not_committing (h : Ops s) {p : P} (hp : s.phase p = .running) :
    s.committing = false := by
  cases hc : s.committing with
  | false => rfl
  | true =>
    have hpos := h.pos_of_running hp
    rw [h.quiet hc] at hpos
    omega

/-- Before and during an operation the header in memory lists the blocks of the transaction. -/
theorem Ops.mem_lh_iff (h : Ops s) (hc : s.committing = false) (b : Nat) :
    b ∈ s.lh ↔ b ∈ s.blocks := by
  apply h.logged
  intro p hp
  exact h.not_commits hc p (Or.inr (Or.inl hp))

/-- The invariant looks at phases, `struct log` and the history of the transaction. -/
theorem Ops.congr (h : Ops s) (hphase : ∀ p, t.phase p = s.phase p)
    (hout : t.outstanding = s.outstanding) (hcom : t.committing = s.committing)
    (hlh : t.lh = s.lh) (hcur : t.cur = s.cur) (hop : t.opOf = s.opOf)
    (hnext : t.nextOp = s.nextOp) : Ops t := by
  have hphase : t.phase = s.phase := funext hphase
  have hblocks : t.blocks = s.blocks := by rw [State.blocks, State.blocks, hcur]
  constructor
  · rw [hout, hphase]; exact h.outstanding
  · rw [hphase, hcom]; exact h.committing
  · rw [hphase]; exact h.alone
  · rw [hcom, hout]; exact h.quiet
  · rw [hcom, hout, hlh]; exact h.empty
  · rw [hlh]; exact h.nodup
  · rw [hphase, hlh, hblocks]; exact h.logged
  · rw [hphase, hcur]; exact h.installed
  · rw [hphase, hlh]; exact h.ended
  · rw [hphase, hop, hnext]; exact h.opOf
  · rw [hphase, hop]; exact h.opOf_inj

theorem ops_setMode (h : Ops s) (mode : Mode) : Ops { s with mode := mode } :=
  h.congr (fun _ ↦ rfl) rfl rfl rfl rfl rfl rfl

/-- A machine that has recovered has no operation yet. -/
theorem ops_of_booting (h : Booting s) (hlh : s.lh = []) : Ops s := by
  have hphase (p : P) : s.phase p = .outside := by rw [State.phase, h.pos]; rfl
  have hnot (p : P) : ¬ (s.phase p).Commits := by rw [hphase]; simp [Phase.Commits]
  constructor
  · simp [hphase, h.outstanding]
  · exact fun p hp ↦ (hnot p hp).elim
  · exact fun p _ hp ↦ (hnot p hp).elim
  · exact fun _ ↦ h.outstanding
  · exact fun _ _ ↦ hlh
  · rw [hlh]
    exact List.nodup_nil
  · intro _ b
    rw [hlh, State.blocks, h.cur]
    rfl
  · exact fun _ _ ↦ h.cur
  · exact fun _ _ ↦ hlh
  · simp [hphase]
  · simp [hphase]

end

/-! ### Moves between phases -/

theorem phase_wakeup (s : State P) (q : P) : s.wakeup.phase q = s.phase q := by
  simp only [State.phase, State.wakeup]
  split
  · next h => rw [h]; rfl
  · rfl

theorem lh_record (s : State P) (p : P) (b : Nat) :
    (s.record p b).lh = if b ∈ s.lh then s.lh else s.lh ++ [b] := by
  unfold State.record
  dsimp only
  split <;> rfl

theorem cur_record (s : State P) (p : P) (b : Nat) :
    (s.record p b).cur = s.cur ++ [⟨s.opOf p, b, s.contents b⟩] := by
  unfold State.record
  dsimp only
  split <;> rfl

theorem mem_lh_record (s : State P) (p : P) (b b' : Nat) :
    b' ∈ (s.record p b).lh ↔ b' ∈ s.lh ∨ b' = b := by
  rw [lh_record]
  split
  · next hb =>
    constructor
    · exact Or.inl
    · rintro (hb' | rfl)
      · exact hb'
      · exact hb
  · simp

/-- A `log_write` that does not panic adds an update and, unless the block is absorbed, its
block. -/
theorem ops_record [Fintype P] {s : State P} (h : Ops s) {p : P} (hp : s.phase p = .running)
    (b : Nat) :
    Ops (s.record p b) := by
  have hc := h.not_committing hp
  have hnot := h.not_commits hc
  have hpos := h.pos_of_running hp
  have hphase : (s.record p b).phase = s.phase := by
    unfold State.record
    dsimp only
    split <;> rfl
  obtain ⟨hout, hcom, hop, hnext⟩ : (s.record p b).outstanding = s.outstanding ∧
      (s.record p b).committing = s.committing ∧ (s.record p b).opOf = s.opOf ∧
      (s.record p b).nextOp = s.nextOp := by
    unfold State.record
    dsimp only
    split <;> exact ⟨rfl, rfl, rfl, rfl⟩
  constructor
  · rw [hout, hphase]; exact h.outstanding
  · rw [hphase, hcom]; exact h.committing
  · rw [hphase]; exact h.alone
  · rw [hcom, hout]; exact h.quiet
  · intro h0
    omega
  · rw [lh_record]
    split
    · exact h.nodup
    · next hb =>
      apply List.nodup_append.mpr
      refine ⟨h.nodup, List.nodup_singleton b, ?_⟩
      intro b' hb' b'' hb'' he
      rw [List.mem_singleton] at hb''
      rw [he, hb''] at hb'
      exact hb hb'
  · intro _ b'
    rw [mem_lh_record, State.blocks, cur_record, List.map_append, List.mem_append,
      h.mem_lh_iff hc b']
    simp [State.blocks]
  · rw [hphase]
    exact fun q hq ↦ (hnot q (Or.inr (Or.inl hq))).elim
  · rw [hphase]
    exact fun q hq ↦ (hnot q (Or.inr (Or.inr hq))).elim
  · rw [hphase, hop, hnext]; exact h.opOf
  · rw [hphase, hop]; exact h.opOf_inj

section
variable [DecidableEq P]

theorem phase_goto (s : State P) (p q : P) (pos : Pos) :
    (s.goto p pos).phase q = if q = p then pos.phase else s.phase q := by
  simp only [State.phase, State.goto, Function.update_apply]
  split <;> rfl

theorem phase_goto_same (s : State P) {p : P} {pos : Pos} (h : pos.phase = s.phase p) (q : P) :
    (s.goto p pos).phase q = s.phase q := by
  rw [phase_goto]
  split
  · next hq => rw [hq, h]
  · rfl

end

variable [Fintype P] [DecidableEq P] {s : State P}

/-- The number of running operations after one process changed its phase. -/
theorem sum_running_goto (s : State P) (p : P) (pos : Pos) :
    (∑ q, if (s.goto p pos).phase q = .running then 1 else 0) +
        (if s.phase p = .running then 1 else 0) =
      (∑ q, if s.phase q = .running then 1 else 0) + if pos.phase = .running then 1 else 0 := by
  have h := sum_add_of_eq_off (f := fun q ↦ if (s.goto p pos).phase q = .running then 1 else 0)
    (g := fun q ↦ if s.phase q = .running then 1 else 0) p
    (by intro q hq; simp only [phase_goto, if_neg hq])
  simpa only [phase_goto, if_true] using h

/-- Nobody commits but a process that just moved into a committing phase. -/
theorem not_commits_goto (h : Ops s) (hc : s.committing = false) {p q : P} {pos : Pos}
    (hq : ((s.goto p pos).phase q).Commits) : q = p ∧ pos.phase.Commits := by
  rw [phase_goto] at hq
  split at hq
  · next hqp => exact ⟨hqp, hq⟩
  · exact (h.not_commits hc q hq).elim

/-- `begin_op` lets an operation start. -/
theorem ops_enterOp (h : Ops s) {p : P} (hp : s.phase p = .outside) (hc : s.committing = false) :
    Ops (s.enterOp p) := by
  have hphase : (s.enterOp p).phase = (s.goto p .inOp).phase := rfl
  have hnot (q : P) : ¬ ((s.enterOp p).phase q).Commits := by
    intro hq
    rw [hphase] at hq
    have := (not_commits_goto h hc hq).2
    simp [Phase.Commits, Pos.phase] at this
  have hrunning {q : P} (hq : (s.enterOp p).phase q = .running) : q = p ∨ s.phase q = .running := by
    rw [hphase, phase_goto] at hq
    split at hq
    · next hqp => exact Or.inl hqp
    · exact Or.inr hq
  have hopOf : (s.enterOp p).opOf = Function.update s.opOf p s.nextOp := rfl
  constructor
  · have hsum := sum_running_goto s p .inOp
    simp only [hp, Pos.phase, reduceCtorEq, if_false, if_true] at hsum
    change s.outstanding + 1 = _
    rw [h.outstanding, hphase]
    omega
  · exact fun q hq ↦ (hnot q hq).elim
  · exact fun q _ hq ↦ (hnot q hq).elim
  · intro hcom
    change s.committing = true at hcom
    simp [hc] at hcom
  · intro hout
    change s.outstanding + 1 = 0 at hout
    omega
  · exact h.nodup
  · exact fun _ b ↦ h.mem_lh_iff hc b
  · exact fun q hq ↦ (hnot q (Or.inr (Or.inl hq))).elim
  · exact fun q hq ↦ (hnot q (Or.inr (Or.inr hq))).elim
  · intro q hq
    change _ < s.nextOp + 1
    rw [hopOf]
    by_cases hqp : q = p
    · simp [hqp]
    · have := h.opOf q ((hrunning hq).resolve_left hqp)
      rw [Function.update_of_ne hqp]
      omega
  · intro q r hq hr he
    rw [hopOf] at he
    by_cases hqp : q = p
    · by_cases hrp : r = p
      · rw [hqp, hrp]
      · have := h.opOf r ((hrunning hr).resolve_left hrp)
        rw [hqp, Function.update_self, Function.update_of_ne hrp] at he
        omega
    · have hq' := (hrunning hq).resolve_left hqp
      by_cases hrp : r = p
      · have := h.opOf q hq'
        rw [hrp, Function.update_self, Function.update_of_ne hqp] at he
        omega
      · rw [Function.update_of_ne hqp, Function.update_of_ne hrp] at he
        exact h.opOf_inj q r hq' ((hrunning hr).resolve_left hrp) he

/-- One test of `begin_op`. -/
theorem ops_beginOp (h : Ops s) {p : P} (hp : s.phase p = .outside) : Ops (s.beginOp p) := by
  have hsleep : Ops (s.goto p .sleeping) :=
    h.congr (phase_goto_same s (by rw [hp]; rfl)) rfl rfl rfl rfl rfl rfl
  unfold State.beginOp
  split
  · exact hsleep
  · next hc =>
    split
    · exact hsleep
    · exact ops_enterOp h hp (by simpa using hc)

/-- The last operation ends. -/
theorem ops_startCommit (h : Ops s) {p : P} (hp : s.phase p = .running)
    (hout : s.outstanding - 1 = 0) : Ops (s.startCommit p) := by
  have hc := h.not_committing hp
  have hpos := h.pos_of_running hp
  have hphase : (s.startCommit p).phase =
      (s.goto p (if 0 < s.lh.length then .writeLog 0 else .endCommit)).phase := rfl
  have hnew : (if 0 < s.lh.length then Pos.writeLog 0 else .endCommit).phase =
      if 0 < s.lh.length then .logging else .ending := by
    split <;> rfl
  have hnone : ∑ q, (if (s.startCommit p).phase q = .running then 1 else 0) = 0 := by
    have hsum := sum_running_goto s p (if 0 < s.lh.length then .writeLog 0 else .endCommit)
    rw [hp, hnew, ← h.outstanding, ← hphase] at hsum
    have hne : (if 0 < s.lh.length then Phase.logging else .ending) ≠ .running := by
      split <;> simp
    rw [if_pos rfl, if_neg hne] at hsum
    omega
  have hcommits {q : P} (hq : ((s.startCommit p).phase q).Commits) : q = p := by
    rw [hphase] at hq
    exact (not_commits_goto h hc hq).1
  have hrunning (q : P) : (s.startCommit p).phase q ≠ .running := by
    intro hq
    have hle := le_sum (fun q ↦ if (s.startCommit p).phase q = .running then 1 else 0) q
    simp only [hq, if_true] at hle
    omega
  have hself : (s.startCommit p).phase p = if 0 < s.lh.length then .logging else .ending := by
    rw [hphase, phase_goto, if_pos rfl, hnew]
  constructor
  · change s.outstanding - 1 = _
    rw [hnone, hout]
  · exact fun _ _ ↦ rfl
  · intro q r hq hr
    rw [hcommits hq, hcommits hr]
  · exact fun _ ↦ hout
  · intro _ hcom
    cases hcom
  · exact h.nodup
  · exact fun _ b ↦ h.mem_lh_iff hc b
  · intro q hq
    rw [hcommits (Or.inr (Or.inl hq)), hself] at hq
    split at hq <;> cases hq
  · intro q hq
    rw [hcommits (Or.inr (Or.inr hq)), hself] at hq
    split at hq
    · cases hq
    · next hlen => exact List.length_eq_zero_iff.mp (by change s.lh.length = 0; omega)
  · exact fun q hq ↦ (hrunning q hq).elim
  · exact fun q _ hq ↦ (hrunning q hq).elim

omit [Fintype P] in
theorem phase_leaveOp (s : State P) (p q : P) :
    (s.leaveOp p).phase q = if q = p then .outside else s.phase q := by
  rw [State.leaveOp, phase_goto]
  split
  · rfl
  · exact phase_wakeup _ q

/-- An operation ends while others run. -/
theorem ops_leaveOp (h : Ops s) {p : P} (hp : s.phase p = .running)
    (hout : s.outstanding - 1 ≠ 0) : Ops (s.leaveOp p) := by
  have hc := h.not_committing hp
  have hnot (q : P) : ¬ ((s.leaveOp p).phase q).Commits := by
    rw [phase_leaveOp]
    split
    · simp [Phase.Commits]
    · exact h.not_commits hc q
  have hrunning {q : P} (hq : (s.leaveOp p).phase q = .running) : s.phase q = .running := by
    rw [phase_leaveOp] at hq
    split at hq
    · cases hq
    · exact hq
  constructor
  · have hsum := sum_running_goto s p .idle
    simp only [hp, phase_goto, Pos.phase, reduceCtorEq, if_false, if_true] at hsum
    change s.outstanding - 1 = _
    simp only [h.outstanding, phase_leaveOp]
    omega
  · exact fun q hq ↦ (hnot q hq).elim
  · exact fun q _ hq ↦ (hnot q hq).elim
  · intro hq
    change s.committing = true at hq
    simp [hc] at hq
  · exact fun hq ↦ (hout hq).elim
  · exact h.nodup
  · exact fun _ b ↦ h.mem_lh_iff hc b
  · exact fun q hq ↦ (hnot q (Or.inr (Or.inl hq))).elim
  · exact fun q hq ↦ (hnot q (Or.inr (Or.inr hq))).elim
  · exact fun q hq ↦ h.opOf q (hrunning hq)
  · exact fun q r hq hr ↦ h.opOf_inj q r (hrunning hq) (hrunning hr)

/-- The header of the transaction reaches the disk. -/
theorem ops_endTxn (h : Ops s) {p : P} (hp : s.phase p = .logging) :
    Ops (State.goto p (.install 0) (s.endTxn true)) := by
  have hcommits (q : P) : ((State.goto p (.install 0) (s.endTxn true)).phase q).Commits ↔
      (s.phase q).Commits := by
    rw [phase_goto]
    split
    · next hq => simp [hq, hp, Phase.Commits, Pos.phase]
    · rfl
  have hrunning (q : P) : (State.goto p (.install 0) (s.endTxn true)).phase q = .running ↔
      s.phase q = .running := by
    rw [phase_goto]
    split
    · next hq => simp [hq, hp, Pos.phase]
    · rfl
  have hself : (State.goto p (.install 0) (s.endTxn true)).phase p = .installing := by
    rw [phase_goto, if_pos rfl]
    rfl
  constructor
  · simp only [hrunning]
    exact h.outstanding
  · intro q hq
    exact h.committing q ((hcommits q).mp hq)
  · intro q r hq hr
    exact h.alone q r ((hcommits q).mp hq) ((hcommits r).mp hr)
  · exact h.quiet
  · exact h.empty
  · exact h.nodup
  · exact fun hnone ↦ (hnone p hself).elim
  · exact fun _ _ ↦ rfl
  · intro q hq
    have hqp : q = p := h.alone q p ((hcommits q).mp (Or.inr (Or.inr hq))) (Or.inl hp)
    rw [hqp, hself] at hq
    cases hq
  · exact fun q hq ↦ h.opOf q ((hrunning q).mp hq)
  · exact fun q r hq hr ↦ h.opOf_inj q r ((hrunning q).mp hq) ((hrunning r).mp hr)

/-- The transaction is erased from the log. -/
theorem ops_clearHead (h : Ops s) {p : P} (hp : s.phase p = .installing) :
    Ops (State.goto p .endCommit { s with lh := [] }) := by
  have hphase (q : P) : (State.goto p .endCommit { s with lh := [] }).phase q =
      if q = p then .ending else s.phase q := phase_goto _ p q _
  have hcommits (q : P) (hq : Phase.Commits (if q = p then .ending else s.phase q)) :
      (s.phase q).Commits := by
    split at hq
    · next hqp => rw [hqp]; exact Or.inr (Or.inl hp)
    · exact hq
  have hrunning (q : P) : (if q = p then Phase.ending else s.phase q) = .running ↔
      s.phase q = .running := by
    split
    · next hq => simp [hq, hp]
    · rfl
  have hcur : s.cur = [] := h.installed p hp
  constructor
  · simp only [hphase, hrunning]
    exact h.outstanding
  · simp only [hphase]
    exact fun q hq ↦ h.committing q (hcommits q hq)
  · simp only [hphase]
    exact fun q r hq hr ↦ h.alone q r (hcommits q hq) (hcommits r hr)
  · exact h.quiet
  · exact fun _ _ ↦ rfl
  · exact List.nodup_nil
  · intro _ b
    change b ∈ [] ↔ b ∈ s.cur.map (·.blockno)
    rw [hcur]
    rfl
  · exact fun _ _ ↦ hcur
  · exact fun _ _ ↦ rfl
  · simp only [hphase, hrunning]
    exact h.opOf
  · simp only [hphase, hrunning]
    exact h.opOf_inj

/-- `commit` is over, and the next operations may begin. -/
theorem ops_endCommit (h : Ops s) {p : P} (hp : s.phase p = .ending) :
    Ops (State.goto p .idle (State.wakeup { s with committing := false })) := by
  have hphase (q : P) : (State.goto p .idle (State.wakeup { s with committing := false })).phase q =
      if q = p then .outside else s.phase q := by
    rw [phase_goto]
    split
    · rfl
    · exact phase_wakeup _ q
  have hnot (q : P) : ¬ Phase.Commits (if q = p then .outside else s.phase q) := by
    intro hq
    split at hq
    · simp [Phase.Commits] at hq
    · next hqp => exact hqp (h.alone q p hq (Or.inr (Or.inr hp)))
  have hrunning (q : P) : (if q = p then Phase.outside else s.phase q) = .running ↔
      s.phase q = .running := by
    split
    · next hq => simp [hq, hp]
    · rfl
  have hlogged := h.logged (by
    intro q hq
    have hqp := h.alone q p (Or.inr (Or.inl hq)) (Or.inr (Or.inr hp))
    rw [hqp, hp] at hq
    cases hq)
  constructor
  · simp only [hphase, hrunning]
    exact h.outstanding
  · simp only [hphase]
    exact fun q hq ↦ (hnot q hq).elim
  · simp only [hphase]
    exact fun q _ hq ↦ (hnot q hq).elim
  · intro hc
    cases hc
  · exact fun _ _ ↦ h.ended p hp
  · exact h.nodup
  · exact fun _ b ↦ hlogged b
  · simp only [hphase]
    exact fun q hq ↦ (hnot q (Or.inr (Or.inl hq))).elim
  · exact fun _ _ ↦ h.ended p hp
  · simp only [hphase, hrunning]
    exact h.opOf
  · simp only [hphase, hrunning]
    exact h.opOf_inj

/-! ### Whole steps -/

omit [DecidableEq P] in
/-- `log_write`, panics included. -/
theorem ops_logWrite (h : Ops s) {c : Cfg} {p : P} (hp : s.phase p = .running) (b : Nat) :
    Ops (s.logWrite c p b) := by
  unfold State.logWrite
  split
  · exact ops_setMode h _
  · split
    · exact ops_setMode h _
    · exact ops_record h hp b

/-- The critical section of `end_op`. -/
theorem ops_endOp (h : Ops s) {p : P} (hp : s.phase p = .running) : Ops (s.endOp p) := by
  unfold State.endOp
  split
  · exact ops_setMode h _
  · split
    · next hout => exact ops_startCommit h hp hout
    · next hout => exact ops_leaveOp h hp hout

/-- A step inside `commit`. -/
theorem ops_commit (h : Ops s) {c : Cfg} {p : P} {t : State P} (ht : CommitStep c p s t) :
    Ops t := by
  cases ht with
  | copy hpos =>
    refine h.congr (phase_goto_same _ ?_) rfl rfl rfl rfl rfl rfl
    change _ = (s.pos p).phase
    rw [hpos]
    rfl
  | copied hpos =>
    refine h.congr (phase_goto_same _ ?_) rfl rfl rfl rfl rfl rfl
    rw [State.phase, hpos]
    rfl
  | head hpos =>
    have hp : s.phase p = .logging := by rw [State.phase, hpos]; rfl
    exact (ops_endTxn h hp).congr (fun _ ↦ rfl) rfl rfl rfl rfl rfl rfl
  | install hpos =>
    refine h.congr (phase_goto_same _ ?_) rfl rfl rfl rfl rfl rfl
    change _ = (s.pos p).phase
    rw [hpos]
    rfl
  | installed hpos =>
    refine h.congr (phase_goto_same _ ?_) rfl rfl rfl rfl rfl rfl
    rw [State.phase, hpos]
    rfl
  | clear hpos =>
    have hp : s.phase p = .installing := by rw [State.phase, hpos]; rfl
    exact (ops_clearHead h hp).congr (fun _ ↦ rfl) rfl rfl rfl rfl rfl rfl
  | ended hpos => exact ops_endCommit h (by rw [State.phase, hpos]; rfl)

omit [Fintype P] in
/-- Processes do not restart the machine. -/
theorem step_not_boots {c : Cfg} {a : Act P} {t : State P} (hmode : s.mode = .up)
    (ha : a ≠ .crash) (ht : Step c s a t) : ¬ t.mode.Boots := by
  have hs : ¬ s.mode.Boots := by
    rw [hmode]
    exact id
  cases ht with
  | crash => exact (ha rfl).elim
  | recover h => cases h <;> simp_all
  | evict | bread | store | brelse | kill => exact hs
  | beginOp =>
    unfold State.beginOp
    split
    · exact hs
    · split <;> exact hs
  | endOp =>
    unfold State.endOp
    split
    · exact id
    · split <;> exact hs
  | @logWrite p b =>
    unfold State.logWrite
    split
    · exact id
    · split
      · exact id
      · unfold State.record
        dsimp only
        split <;> exact hs
  | commit _ h => cases h <;> exact hs

/-- Processes and the cache keep the invariant of a machine that is up, also when it panics. -/
theorem ops_step {c : Cfg} {a : Act P} {t : State P} (h : Ops s) (hmode : s.mode = .up)
    (ha : a ≠ .crash) (ht : Step c s a t) : Ops t := by
  cases ht with
  | crash => exact (ha rfl).elim
  | recover hr => cases hr <;> simp_all
  | beginOp _ hpos =>
    apply ops_beginOp h
    rcases hpos with hpos | hpos <;> rw [State.phase, hpos] <;> rfl
  | endOp _ hpos => exact ops_endOp h (by rw [State.phase, hpos]; rfl)
  | logWrite _ _ hpos => exact ops_logWrite h (by rw [State.phase, hpos]; rfl) _
  | evict | bread | store | brelse => exact { h with }
  | commit _ hc => exact ops_commit h hc
  | kill _ hpos =>
    exact h.congr (phase_goto_same s (by rw [State.phase, hpos]; rfl)) rfl rfl rfl rfl rfl rfl

/-- Every step keeps the protocol's invariant. -/
theorem protocol_step {c : Cfg} {a : Act P} {t : State P} (h : Protocol s) (ht : Step c s a t) :
    Protocol t := by
  have hup (hmode : s.mode = .up) (ha : a ≠ .crash) : Protocol t :=
    ⟨fun _ ↦ ops_step (h.up hmode) hmode ha ht,
      fun hb ↦ (step_not_boots hmode ha ht hb).elim⟩
  cases ht with
  | crash =>
    exact ⟨fun hm ↦ (by cases hm), fun _ ↦ ⟨rfl, rfl, fun _ ↦ rfl, fun _ ↦ rfl, fun _ ↦ rfl, rfl⟩⟩
  | recover hr =>
    cases hr with
    | readHead hmode =>
      exact ⟨fun hm ↦ (by cases hm), fun _ ↦ { h.boot (by rw [hmode]; trivial) with }⟩
    | install hmode =>
      exact ⟨fun hm ↦ (by cases hm), fun _ ↦ { h.boot (by rw [hmode]; trivial) with }⟩
    | installed hmode =>
      exact ⟨fun hm ↦ (by cases hm), fun _ ↦ { h.boot (by rw [hmode]; trivial) with }⟩
    | clear hmode =>
      exact ⟨fun _ ↦ ops_of_booting { h.boot (by rw [hmode]; trivial) with } rfl, fun hm ↦ hm.elim⟩
  | evict => exact ⟨fun hm ↦ { h.up hm with }, fun hm ↦ { h.boot hm with }⟩
  | beginOp hmode => exact hup hmode (by simp)
  | endOp hmode => exact hup hmode (by simp)
  | bread hmode => exact hup hmode (by simp)
  | store hmode => exact hup hmode (by simp)
  | logWrite hmode => exact hup hmode (by simp)
  | brelse hmode => exact hup hmode (by simp)
  | commit hmode => exact hup hmode (by simp)
  | kill hmode => exact hup hmode (by simp)

omit [DecidableEq P] in
/-- The machine before its first boot. -/
theorem protocol_off (d : Disk) : Protocol (State.off d : State P) :=
  ⟨fun hm ↦ (by cases hm), fun _ ↦ ⟨rfl, rfl, fun _ ↦ rfl, fun _ ↦ rfl, fun _ ↦ rfl, rfl⟩⟩

end Xv6.Log
