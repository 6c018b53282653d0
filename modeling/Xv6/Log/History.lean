import Xv6.Log.Protocol

/-!
# The log writes of an operation belong to one transaction

A transaction ends only when no operation runs, so an operation that has logged a block in a
transaction logs all its blocks there.
-/

namespace Xv6.Log

open Xv6.Lib

variable {P : Type}

/-- The log writes of the transactions that ended and of the current one. -/
def State.txns (s : State P) : List (List Update) := s.past.map (·.updates) ++ [s.cur]

/-- No operation has log writes in two transactions. -/
def OneTxn (s : State P) : Prop :=
  s.txns.Pairwise (fun T U ↦ ∀ u ∈ T, ∀ v ∈ U, u.op ≠ v.op)

/-- Operation numbers are handed out in order, and a running operation has no log write in an
earlier transaction. -/
structure History (s : State P) : Prop where
  old : ∀ T ∈ s.txns, ∀ u ∈ T, u.op < s.nextOp
  oneTxn : OneTxn s
  running : s.mode = .up → ∀ p, s.phase p = .running →
    ∀ T ∈ s.past, ∀ u ∈ T.updates, u.op ≠ s.opOf p

/-- No step but `begin_op`, `log_write` and the end of a transaction touches the history. -/
theorem History.congr {s t : State P} (h : History s) (hpast : t.past = s.past)
    (hcur : t.cur = s.cur) (hnext : t.nextOp = s.nextOp) (hop : t.opOf = s.opOf)
    (hmode : t.mode = .up → s.mode = .up)
    (hrun : t.mode = .up → ∀ p, t.phase p = .running → s.phase p = .running) : History t := by
  have htxns : t.txns = s.txns := by rw [State.txns, State.txns, hpast, hcur]
  constructor
  · rw [htxns, hnext]
    exact h.old
  · rw [OneTxn, htxns]
    exact h.oneTxn
  · intro hm p hp
    rw [hpast, hop]
    exact h.running (hmode hm) p (hrun hm p hp)

/-- The end of a transaction while no operation runs. -/
theorem history_endTxn {s t : State P} (h : History s) {committed : Bool}
    (hpast : t.past = s.past ++ [⟨s.cur, committed⟩]) (hcur : t.cur = [])
    (hnext : t.nextOp = s.nextOp) (hrun : t.mode = .up → ∀ p, t.phase p ≠ .running) :
    History t := by
  have htxns : t.txns = s.txns ++ [[]] := by
    rw [State.txns, State.txns, hpast, hcur, List.map_append]
    rfl
  constructor
  · rw [htxns, hnext]
    intro T hT u hu
    rcases List.mem_append.mp hT with hT | hT
    · exact h.old T hT u hu
    · rw [List.mem_singleton.mp hT] at hu
      cases hu
  · rw [OneTxn, htxns]
    apply List.pairwise_append.mpr
    refine ⟨h.oneTxn, List.pairwise_singleton _ _, ?_⟩
    intro T _ U hU u _ v hv
    rw [List.mem_singleton.mp hU] at hv
    cases hv
  · exact fun hm p hp ↦ (hrun hm p hp).elim

/-- A log write of a running operation. -/
theorem history_record [Fintype P] {s : State P} (hs : Ops s) (h : History s) {p : P} {b : Nat}
    (hmode : s.mode = .up) (hp : s.phase p = .running) : History (s.record p b) := by
  have hpast : (s.record p b).past = s.past := by
    unfold State.record
    dsimp only
    split <;> rfl
  obtain ⟨hnext, hop, hphase⟩ : (s.record p b).nextOp = s.nextOp ∧
      (s.record p b).opOf = s.opOf ∧ (s.record p b).phase = s.phase := by
    unfold State.record
    dsimp only
    split <;> exact ⟨rfl, rfl, rfl⟩
  have hpair := List.pairwise_append.mp h.oneTxn
  constructor
  · intro T hT u hu
    rw [State.txns, hpast, cur_record, List.mem_append, List.mem_singleton] at hT
    rw [hnext]
    rcases hT with hT | rfl
    · exact h.old T (List.mem_append_left _ hT) u hu
    · rcases List.mem_append.mp hu with hu | hu
      · exact h.old s.cur (List.mem_append_right _ List.mem_cons_self) u hu
      · rw [List.mem_singleton.mp hu]
        exact hs.opOf p hp
  · rw [OneTxn, State.txns, hpast, cur_record]
    apply List.pairwise_append.mpr
    refine ⟨hpair.1, List.pairwise_singleton _ _, ?_⟩
    intro T hT U hU u hu v hv
    rw [List.mem_singleton.mp hU] at hv
    rcases List.mem_append.mp hv with hv | hv
    · exact hpair.2.2 T hT s.cur List.mem_cons_self u hu v hv
    · -- the new log write is made by an operation that the earlier transactions do not know
      obtain ⟨T', hT', rfl⟩ := List.mem_map.mp hT
      rw [List.mem_singleton.mp hv]
      exact h.running hmode p hp T' hT' u hu
  · intro _ q hq
    rw [hpast, hop]
    rw [hphase] at hq
    exact h.running hmode q hq

/-- A new operation has a number that no log write has. -/
theorem history_enterOp [DecidableEq P] {s : State P} (h : History s) (p : P)
    (hmode : s.mode = .up) : History (s.enterOp p) := by
  constructor
  · intro T hT u hu
    have := h.old T hT u hu
    change u.op < s.nextOp + 1
    omega
  · exact h.oneTxn
  · intro _ q hq T hT u hu
    change u.op ≠ Function.update s.opOf p s.nextOp q
    by_cases hqp : q = p
    · have := h.old T.updates (List.mem_append_left _ (List.mem_map_of_mem hT)) u hu
      rw [hqp, Function.update_self]
      omega
    · have hq' : s.phase q = .running := by
        have hphase : (s.enterOp p).phase q = (s.goto p .inOp).phase q := rfl
        rw [hphase, phase_goto, if_neg hqp] at hq
        exact hq
      rw [Function.update_of_ne hqp]
      exact h.running hmode q hq' T hT u hu

variable [Fintype P] [DecidableEq P] {s : State P}

/-- A step inside `commit`. -/
theorem history_commit (hs : Ops s) (h : History s) {c : Cfg} {p : P} {t : State P}
    (ht : CommitStep c p s t) : History t := by
  have hgoto {u : State P} {pos : Pos} (hu : u.phase = s.phase) (hpos : pos.phase ≠ .running)
      (q : P) (hq : (u.goto p pos).phase q = .running) : s.phase q = .running := by
    rw [phase_goto] at hq
    split at hq
    · exact (hpos hq).elim
    · rw [← hu]
      exact hq
  cases ht with
  | copy => exact h.congr rfl rfl rfl rfl id (fun _ ↦ hgoto rfl (by simp [Pos.phase]))
  | copied => exact h.congr rfl rfl rfl rfl id (fun _ ↦ hgoto rfl (by simp [Pos.phase]))
  | head hpos =>
    have hp : s.phase p = .logging := by rw [State.phase, hpos]; rfl
    have hout := hs.quiet (hs.committing p (Or.inl hp))
    refine history_endTxn h rfl rfl rfl ?_
    intro _ q hq
    have hq := hgoto rfl (by simp [Pos.phase]) q hq
    have := hs.pos_of_running hq
    omega
  | install => exact h.congr rfl rfl rfl rfl id (fun _ ↦ hgoto rfl (by simp [Pos.phase]))
  | installed => exact h.congr rfl rfl rfl rfl id (fun _ ↦ hgoto rfl (by simp [Pos.phase]))
  | clear => exact h.congr rfl rfl rfl rfl id (fun _ ↦ hgoto rfl (by simp [Pos.phase]))
  | ended =>
    exact h.congr rfl rfl rfl rfl id
      (fun _ ↦ hgoto (funext (phase_wakeup _)) (by simp [Pos.phase]))

/-- Every step keeps operations within one transaction. -/
theorem history_step {c : Cfg} {a : Act P} {t : State P} (hs : Protocol s) (h : History s)
    (ht : Step c s a t) : History t := by
  cases ht with
  | crash => exact history_endTxn h rfl rfl rfl (fun hm ↦ (by cases hm))
  | recover hr =>
    cases hr with
    | readHead | install | installed =>
      exact h.congr rfl rfl rfl rfl (fun hm ↦ (by cases hm)) (fun hm ↦ (by cases hm))
    | clear hmode =>
      have hb := hs.boot (by rw [hmode]; trivial)
      have hrun (p : P) : s.phase p ≠ .running := by
        rw [State.phase, hb.pos]
        simp [Pos.phase]
      exact ⟨h.old, h.oneTxn, fun _ p hp ↦ (hrun p hp).elim⟩
  | evict | bread | store | brelse => exact h.congr rfl rfl rfl rfl id (fun _ _ hp ↦ hp)
  | @beginOp p hmode =>
    have hsleep : History (s.goto p .sleeping) := by
      refine h.congr rfl rfl rfl rfl id ?_
      intro _ q hq
      rw [phase_goto] at hq
      split at hq
      · cases hq
      · exact hq
    unfold State.beginOp
    split
    · exact hsleep
    · split
      · exact hsleep
      · exact history_enterOp h p hmode
  | @endOp p hmode =>
    have hmove (pos : Pos) (hpos : pos.phase ≠ .running) (q : P)
        (hq : (s.goto p pos).phase q = .running) : s.phase q = .running := by
      rw [phase_goto] at hq
      split at hq
      · exact (hpos hq).elim
      · exact hq
    unfold State.endOp
    split
    · exact h.congr rfl rfl rfl rfl (fun hm ↦ (by cases hm)) (fun hm ↦ (by cases hm))
    · split
      · exact h.congr rfl rfl rfl rfl id (fun _ ↦ hmove _ (by split <;> simp [Pos.phase]))
      · refine h.congr rfl rfl rfl rfl id ?_
        intro _ q hq
        rw [phase_leaveOp] at hq
        split at hq
        · cases hq
        · exact hq
  | logWrite hmode _ hpos =>
    unfold State.logWrite
    split
    · exact h.congr rfl rfl rfl rfl (fun hm ↦ (by cases hm)) (fun hm ↦ (by cases hm))
    · split
      · exact h.congr rfl rfl rfl rfl (fun hm ↦ (by cases hm)) (fun hm ↦ (by cases hm))
      · exact history_record (hs.up hmode) h hmode (by rw [State.phase, hpos]; rfl)
  | commit hmode hc => exact history_commit (hs.up hmode) h hc
  | @kill p =>
    refine h.congr rfl rfl rfl rfl id ?_
    intro _ q hq
    rw [phase_goto] at hq
    split at hq
    · cases hq
    · exact hq

omit [Fintype P] [DecidableEq P] in
theorem history_off (d : Disk) : History (State.off d : State P) := by
  refine ⟨?_, List.pairwise_singleton _ _, fun hm ↦ (by cases hm)⟩
  intro T hT u hu
  rw [List.mem_singleton.mp hT] at hu
  cases hu

end Xv6.Log
