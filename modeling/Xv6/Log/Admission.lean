import Mathlib.Algebra.BigOperators.Ring.Finset
import Mathlib.Data.Finset.Dedup
import Xv6.Log.History

/-!
# Admission to the log

`begin_op` admits an operation while `log.lh.n + (log.outstanding + 1) * MAXOPBLOCKS` is at
most `LOGSIZE`; `log_write` panics from `log.size - 1` blocks on, and `mkfs` makes `log.size`
equal to `LOGSIZE`. The blocks logged and the blocks that running operations may still log never
exceed what was admitted, which is one block more than `log_write` takes.
-/

namespace Xv6.Log

open Xv6.Lib

variable {P : Type}

/-- The blocks that the operation of process `p` has logged. -/
def State.opBlocks (s : State P) (p : P) : Finset Nat :=
  ((s.cur.filter (fun u ↦ u.op = s.opOf p)).map (·.blockno)).toFinset

/-- No operation logs more than `q` distinct blocks. -/
def Quota (q : Nat) (s : State P) : Act P → Prop
  | .logWrite p b => (insert b (s.opBlocks p)).card ≤ q
  | _ => True

instance (q : Nat) (s : State P) : ∀ a, Decidable (Quota q s a)
  | .logWrite p b => inferInstanceAs (Decidable ((insert b (s.opBlocks p)).card ≤ q))
  | .beginOp _ | .endOp _ | .bread _ _ | .store _ _ _ | .brelse _ _ | .commit _ | .kill _
  | .evict _ | .crash | .recover => inferInstanceAs (Decidable True)

/-- A log write comes before `LOGSIZE - 1` distinct blocks of the transaction were logged. -/
def Below (s : State P) : Act P → Prop
  | .logWrite _ _ => s.blocks.toFinset.card < LOGSIZE - 1
  | _ => True

/-- The machine has not stopped in the first panic of `log_write`. -/
def Fits (s : State P) : Prop := s.mode ≠ .panicked "too big a transaction"

/-- The blocks that the operation of process `p`, if it runs one, may still log. -/
def State.allowance (s : State P) (p : P) : Nat :=
  if s.phase p = .running then MAXOPBLOCKS - (s.opBlocks p).card else 0

/-- The blocks that the running operations may still log. -/
def State.reserved [Fintype P] (s : State P) : Nat := ∑ p, s.allowance p

/-- The space that was admitted is enough when operations log at most `q` blocks. An
operation that runs alone got its space from an empty log, or outlived one that left some. -/
structure Admitted [Fintype P] (q : Nat) (s : State P) : Prop where
  quota : ∀ p, s.phase p = .running → (s.opBlocks p).card ≤ q
  space : s.lh.length + s.reserved + (if s.outstanding = 1 then MAXOPBLOCKS - q else 0) ≤ LOGSIZE

section
variable [Fintype P] {s : State P}

theorem reserved_le (h : Ops s) : s.reserved ≤ s.outstanding * MAXOPBLOCKS := by
  rw [State.reserved, h.outstanding, Finset.sum_mul]
  apply Finset.sum_le_sum
  intro p _
  rw [State.allowance]
  split <;> omega

theorem le_reserved {q : Nat} (h : Ops s) (ha : Admitted q s) :
    s.outstanding * (MAXOPBLOCKS - q) ≤ s.reserved := by
  rw [State.reserved, h.outstanding, Finset.sum_mul]
  apply Finset.sum_le_sum
  intro p _
  rw [State.allowance]
  split
  · next hp =>
    have := ha.quota p hp
    omega
  · omega

/-- The blocks of the transaction are those in the header in memory. -/
theorem card_blocks (h : Ops s) (hc : s.committing = false) :
    s.blocks.toFinset.card = s.lh.length := by
  have heq : s.blocks.toFinset = s.lh.toFinset := by
    ext b
    simp only [List.mem_toFinset]
    exact (h.mem_lh_iff hc b).symm
  rw [heq, List.toFinset_card_of_nodup h.nodup]

/-- Nothing that admission counts has changed. -/
theorem Admitted.congr {t : State P} {q : Nat} (h : Admitted q s)
    (hphase : ∀ p, t.phase p = s.phase p) (hout : t.outstanding = s.outstanding)
    (hlh : t.lh = s.lh) (hcur : t.cur = s.cur) (hop : t.opOf = s.opOf) : Admitted q t := by
  have hblocks (p : P) : t.opBlocks p = s.opBlocks p := by
    rw [State.opBlocks, State.opBlocks, hcur, hop]
  constructor
  · intro p hp
    rw [hblocks]
    exact h.quota p (hphase p ▸ hp)
  · simp only [State.reserved, State.allowance, hphase, hblocks, hlh, hout]
    exact h.space

/-- Nothing is reserved when no operation runs. -/
theorem admitted_of_not_running {q : Nat} (hp : ∀ p, s.phase p ≠ .running)
    (hout : s.outstanding = 0) (hlh : s.lh.length ≤ LOGSIZE) : Admitted q s := by
  constructor
  · exact fun p hr ↦ (hp p hr).elim
  · simp [State.reserved, State.allowance, hp, hout, hlh]

theorem Ops.not_running (h : Ops s) (hout : s.outstanding = 0) (p : P) :
    s.phase p ≠ .running := by
  intro hp
  have := h.pos_of_running hp
  omega

end

variable [Fintype P] [DecidableEq P] {s : State P} {q : Nat}

/-- A new operation has logged nothing, and its whole quota was found free. -/
theorem admitted_enterOp (h : Ops s) (ha : Admitted q s) (hq : q ≤ MAXOPBLOCKS) {p : P}
    (hp : s.phase p = .outside) (hc : s.committing = false)
    (hold : ∀ u ∈ s.cur, u.op < s.nextOp)
    (hroom : s.lh.length + (s.outstanding + 1) * MAXOPBLOCKS ≤ LOGSIZE) :
    Admitted q (s.enterOp p) := by
  have hphase (r : P) : (s.enterOp p).phase r = if r = p then .running else s.phase r :=
    phase_goto s p r .inOp
  have hself : (s.enterOp p).opBlocks p = ∅ := by
    have hnone : s.cur.filter (fun u ↦ u.op = s.nextOp) = [] := by
      apply List.filter_eq_nil_iff.mpr
      intro u hu
      have := hold u hu
      simp only [decide_eq_true_eq]
      omega
    simp [State.opBlocks, State.enterOp, hnone]
  have hother (r : P) (hr : r ≠ p) : (s.enterOp p).opBlocks r = s.opBlocks r := by
    simp [State.opBlocks, State.enterOp, hr]
  constructor
  · intro r hr
    by_cases hrp : r = p
    · rw [hrp, hself]
      simp
    · rw [hphase, if_neg hrp] at hr
      rw [hother r hrp]
      exact ha.quota r hr
  · have hsum : (s.enterOp p).reserved + s.allowance p =
        s.reserved + (s.enterOp p).allowance p := by
      apply sum_add_of_eq_off
      intro r hr
      rw [State.allowance, State.allowance, hphase, if_neg hr, hother r hr]
    have hbefore : s.allowance p = 0 := by simp [State.allowance, hp]
    have hafter : (s.enterOp p).allowance p = MAXOPBLOCKS := by
      simp [State.allowance, hphase, hself]
    have hle := reserved_le h
    change s.lh.length + (s.enterOp p).reserved +
      (if s.outstanding + 1 = 1 then MAXOPBLOCKS - q else 0) ≤ LOGSIZE
    split
    · next hout =>
      have hzero : s.outstanding = 0 := by omega
      rw [h.empty hzero hc, List.length_nil]
      simp only [hzero, Nat.zero_mul] at hle
      simp only [LOGSIZE]
      omega
    · rw [Nat.add_mul] at hroom
      omega

/-- The end of an operation gives back at least what it may not use. -/
theorem admitted_endOp (h : Ops s) (ha : Admitted q s) (hq : q ≤ MAXOPBLOCKS) {p : P}
    (hp : s.phase p = .running) : Admitted q (s.endOp p) := by
  have hc := h.not_committing hp
  have hpos := h.pos_of_running hp
  unfold State.endOp
  rw [hc]
  simp only [Bool.false_eq_true, if_false]
  split
  · next hout =>
    have hops := ops_startCommit h hp hout
    apply admitted_of_not_running (hops.not_running hout) hout
    have := ha.space
    change s.lh.length ≤ LOGSIZE
    omega
  · next hout =>
    have hblocks (r : P) : (s.leaveOp p).opBlocks r = s.opBlocks r := rfl
    have hsum : (s.leaveOp p).reserved + s.allowance p =
        s.reserved + (s.leaveOp p).allowance p := by
      apply sum_add_of_eq_off
      intro r hr
      rw [State.allowance, State.allowance, phase_leaveOp, if_neg hr, hblocks]
    have hbefore : s.allowance p = MAXOPBLOCKS - (s.opBlocks p).card := by
      simp [State.allowance, hp]
    have hafter : (s.leaveOp p).allowance p = 0 := by simp [State.allowance, phase_leaveOp]
    constructor
    · intro r hr
      rw [phase_leaveOp] at hr
      split at hr
      · cases hr
      · exact ha.quota r hr
    · have hspace := ha.space
      have hquota := ha.quota p hp
      change s.lh.length + (s.leaveOp p).reserved +
        (if s.outstanding - 1 = 1 then MAXOPBLOCKS - q else 0) ≤ LOGSIZE
      split <;> split at hspace <;> omega

/-- A log write within the quota uses reserved space. -/
theorem admitted_record (h : Ops s) (ha : Admitted q s) (hq : q ≤ MAXOPBLOCKS) {p : P} {b : Nat}
    (hp : s.phase p = .running) (hquota : (insert b (s.opBlocks p)).card ≤ q) :
    Admitted q (s.record p b) := by
  have hc := h.not_committing hp
  have hphase (r : P) : (s.record p b).phase r = s.phase r := by
    unfold State.record
    dsimp only
    split <;> rfl
  obtain ⟨hout, hop⟩ : (s.record p b).outstanding = s.outstanding ∧
      (s.record p b).opOf = s.opOf := by
    unfold State.record
    dsimp only
    split <;> exact ⟨rfl, rfl⟩
  have hself : (s.record p b).opBlocks p = insert b (s.opBlocks p) := by
    ext b'
    simp only [State.opBlocks, cur_record, hop, List.filter_append, List.map_append]
    simp
  have hother (r : P) (hr : s.phase r = .running) (hrp : r ≠ p) :
      (s.record p b).opBlocks r = s.opBlocks r := by
    have hne : s.opOf p ≠ s.opOf r := fun he ↦ hrp (h.opOf_inj r p hr hp he.symm)
    simp [State.opBlocks, cur_record, hop, List.filter_append, hne]
  have hsum : (s.record p b).reserved + s.allowance p =
      s.reserved + (s.record p b).allowance p := by
    apply sum_add_of_eq_off
    intro r hrp
    rw [State.allowance, State.allowance, hphase]
    split
    · next hr => rw [hother r hr hrp]
    · rfl
  have hbefore : s.allowance p = MAXOPBLOCKS - (s.opBlocks p).card := by
    simp [State.allowance, hp]
  have hafter : (s.record p b).allowance p =
      MAXOPBLOCKS - (insert b (s.opBlocks p)).card := by
    simp [State.allowance, hphase, hp, hself]
  constructor
  · intro r hr
    rw [hphase] at hr
    by_cases hrp : r = p
    · rw [hrp, hself]
      exact hquota
    · rw [hother r hr hrp]
      exact ha.quota r hr
  · have hspace := ha.space
    rw [hout, lh_record]
    split
    · have hmono := Finset.card_le_card (Finset.subset_insert b (s.opBlocks p))
      omega
    · next hb =>
      -- a block that is new to the transaction is new to the operation
      have hnew : b ∉ s.opBlocks p := by
        intro hmem
        apply hb
        rw [h.mem_lh_iff hc]
        simp only [State.opBlocks, List.mem_toFinset, List.mem_map, List.mem_filter] at hmem
        obtain ⟨u, ⟨hu, -⟩, hub⟩ := hmem
        exact List.mem_map.mpr ⟨u, hu, hub⟩
      rw [Finset.card_insert_of_notMem hnew] at hquota hafter
      rw [List.length_append, List.length_singleton]
      omega

/-- Steps within the quota keep the admitted space. -/
theorem admitted_step {c : Cfg} {a : Act P} {t : State P} (hs : Protocol s) (hh : History s)
    (ha : s.mode = .up → Admitted q s) (hq : q ≤ MAXOPBLOCKS) (hquota : Quota q s a)
    (ht : Step c s a t) (hmode : t.mode = .up) : Admitted q t := by
  cases ht with
  | crash => cases hmode
  | recover hr =>
    cases hr with
    | readHead | install | installed => cases hmode
    | clear hclear =>
      have hb := hs.boot (by rw [hclear]; trivial)
      refine admitted_of_not_running ?_ hb.outstanding (Nat.zero_le _)
      intro p
      change (s.pos p).phase ≠ .running
      rw [hb.pos]
      simp [Pos.phase]
  | evict => exact (ha hmode).congr (fun _ ↦ rfl) rfl rfl rfl rfl
  | bread hup => exact (ha hup).congr (fun _ ↦ rfl) rfl rfl rfl rfl
  | store hup => exact (ha hup).congr (fun _ ↦ rfl) rfl rfl rfl rfl
  | brelse hup => exact (ha hup).congr (fun _ ↦ rfl) rfl rfl rfl rfl
  | kill hup hpos =>
    exact (ha hup).congr (phase_goto_same s (by rw [State.phase, hpos]; rfl)) rfl rfl rfl rfl
  | @beginOp p hup hpos =>
    have hp : s.phase p = .outside := by
      rcases hpos with hpos | hpos <;> rw [State.phase, hpos] <;> rfl
    have hsleep : Admitted q (s.goto p .sleeping) :=
      (ha hup).congr (phase_goto_same s (by rw [hp]; rfl)) rfl rfl rfl rfl
    unfold State.beginOp
    split
    · exact hsleep
    · next hc =>
      split
      · exact hsleep
      · next hroom =>
        refine admitted_enterOp (hs.up hup) (ha hup) hq hp (by simpa using hc) ?_ (by omega)
        exact hh.old s.cur (List.mem_append_right _ List.mem_cons_self)
  | endOp hup hpos =>
    exact admitted_endOp (hs.up hup) (ha hup) hq (by rw [State.phase, hpos]; rfl)
  | logWrite hup _ hpos =>
    unfold State.logWrite at hmode ⊢
    split
    · next htoo => rw [if_pos htoo] at hmode; cases hmode
    · next htoo =>
      rw [if_neg htoo] at hmode
      split
      · next hout => rw [if_pos hout] at hmode; cases hmode
      · exact admitted_record (hs.up hup) (ha hup) hq (by rw [State.phase, hpos]; rfl) hquota
  | @commit p _ hup hc =>
    -- no operation runs during a commit
    have hops := ops_commit (hs.up hup) hc
    have hspace := (ha hup).space
    have hcommits : (s.phase p).Commits := by
      cases hc with
      | copy hpos | copied hpos | head hpos => left; rw [State.phase, hpos]; rfl
      | install hpos | installed hpos | clear hpos => right; left; rw [State.phase, hpos]; rfl
      | ended hpos => right; right; rw [State.phase, hpos]; rfl
    have hout := (hs.up hup).quiet ((hs.up hup).committing p hcommits)
    have hnone : t.outstanding = 0 ∧ t.lh.length ≤ s.lh.length := by
      cases hc with
      | clear => exact ⟨hout, Nat.zero_le _⟩
      | _ => exact ⟨hout, le_refl _⟩
    exact admitted_of_not_running (hops.not_running hnone.1) hnone.1 (by omega)

omit [Fintype P] in
/-- A step other than `log_write` does not reach its panic. -/
theorem fits_step {c : Cfg} {a : Act P} {t : State P} (h : Fits s) (ht : Step c s a t)
    (ha : ∀ p b, a ≠ .logWrite p b) : Fits t := by
  cases ht with
  | crash => simp [Fits, State.crash, State.reset]
  | recover hr => cases hr <;> simp [Fits]
  | evict | bread | store | brelse | kill => exact h
  | beginOp =>
    unfold State.beginOp
    split
    · exact h
    · split <;> exact h
  | endOp =>
    unfold State.endOp
    split
    · simp [Fits]
    · split <;> exact h
  | logWrite => exact (ha _ _ rfl).elim
  | commit _ hc => cases hc <;> exact h

omit [DecidableEq P] in
/-- With the log of `mkfs`, `log_write` panics exactly after 29 distinct blocks. -/
theorem fits_logWrite_iff (hs : Ops s) (h : Fits s) {p : P} (b : Nat)
    (hp : s.phase p = .running) :
    Fits (s.logWrite mkfsCfg p b) ↔ s.blocks.toFinset.card < LOGSIZE - 1 := by
  have hout := hs.pos_of_running hp
  rw [card_blocks hs (hs.not_committing hp)]
  unfold State.logWrite
  split
  · next htoo =>
    simp only [mkfsCfg] at htoo
    simp only [Fits, ne_eq, not_true_eq_false, false_iff]
    omega
  · next htoo =>
    simp only [mkfsCfg] at htoo
    rw [if_neg (by omega)]
    refine iff_of_true ?_ (by omega)
    unfold State.record
    dsimp only
    split <;> exact h

theorem fits_step_iff {a : Act P} {t : State P} (hs : Protocol s) (h : Fits s)
    (ht : Step mkfsCfg s a t) : Fits t ↔ Below s a := by
  cases a with
  | logWrite p b =>
    cases ht with
    | logWrite hup _ hpos =>
      exact fits_logWrite_iff (hs.up hup) h b (by rw [State.phase, hpos]; rfl)
  | _ => exact iff_of_true (fits_step h ht (by simp)) True.intro

/-- One block less for each operation, and every log write comes in time. -/
theorem below_of_quota {c : Cfg} {a : Act P} {t : State P} (hs : Protocol s)
    (ha : s.mode = .up → Admitted (MAXOPBLOCKS - 1) s) (ht : Step c s a t) : Below s a := by
  cases a with
  | logWrite p b =>
    cases ht with
    | logWrite hup _ hpos =>
      have hp : s.phase p = .running := by rw [State.phase, hpos]; rfl
      have hops := hs.up hup
      have hout := hops.pos_of_running hp
      have hres := le_reserved hops (ha hup)
      have hspace := (ha hup).space
      rw [Below, card_blocks hops (hops.not_committing hp)]
      simp only [MAXOPBLOCKS, LOGSIZE] at hres hspace ⊢
      split at hspace <;> omega
  | _ => exact True.intro

/-- What a run within quota `q` keeps. -/
structure Within (q : Nat) (s : State P) : Prop where
  protocol : Protocol s
  history : History s
  admitted : s.mode = .up → Admitted q s

omit [DecidableEq P] in
theorem within_off (d : Disk) : Within q (State.off d : State P) :=
  ⟨protocol_off d, history_off d, fun hm ↦ (by cases hm)⟩

theorem within_step {c : Cfg} {a : Act P} {t : State P} (hq : q ≤ MAXOPBLOCKS)
    (h : Within q s) (hquota : Quota q s a) (ht : Step c s a t) : Within q t :=
  ⟨protocol_step h.protocol ht, history_step h.protocol h.history ht,
    admitted_step h.protocol h.history h.admitted hq hquota ht⟩

/-- In every run in which no operation logs more than `MAXOPBLOCKS` distinct blocks: the panic
of `log_write` stays unreached exactly if no log write comes after `LOGSIZE - 1` distinct
blocks of its transaction; the logged blocks never exceed `LOGSIZE`; and with at most
`MAXOPBLOCKS - 1` blocks for each operation the panic stays unreached. -/
theorem fits_iff_below (d : Disk) {as : List (Act P)} {t : State P}
    (hrun : run (State.step mkfsCfg) (State.off d) as = some t)
    (hquota : Along (State.step mkfsCfg) (Quota MAXOPBLOCKS) (State.off d) as) :
    (Always (State.step mkfsCfg) Fits (State.off d) as ↔
      Along (State.step mkfsCfg) Below (State.off d) as) ∧
    Always (State.step mkfsCfg) (fun s ↦ s.mode = .up → s.lh.length ≤ LOGSIZE)
      (State.off d) as ∧
    (Along (State.step mkfsCfg) (Quota (MAXOPBLOCKS - 1)) (State.off d) as →
      Always (State.step mkfsCfg) Fits (State.off d) as) := by
  have hoff : Fits (State.off d : State P) := by simp [Fits, State.off]
  refine ⟨?_, ?_, ?_⟩
  · refine always_iff_along (J := fun s ↦ Protocol s ∧ Fits s) (fun _ h ↦ h.2) ?_ ?_
      ⟨protocol_off d, hoff⟩ hrun
    · rintro s a t ⟨hs, h⟩ hbelow ht
      have ht := step_of_eq_some ht
      exact ⟨protocol_step hs ht, (fits_step_iff hs h ht).mpr hbelow⟩
    · rintro s a t ⟨hs, h⟩ hbelow ht hfits
      exact hbelow ((fits_step_iff hs h (step_of_eq_some ht)).mp hfits)
  · refine Along.always (J := Within MAXOPBLOCKS) ?_ ?_ (within_off d) hquota
    · intro s h hmode
      have := (h.admitted hmode).space
      omega
    · exact fun s a t h hq ht ↦ within_step (le_refl _) h hq (step_of_eq_some ht)
  · refine Along.always (J := fun s ↦ Within (MAXOPBLOCKS - 1) s ∧ Fits s) (fun _ h ↦ h.2) ?_
      ⟨within_off d, hoff⟩
    rintro s a t ⟨h, hfits⟩ hq ht
    have ht := step_of_eq_some ht
    refine ⟨within_step (Nat.sub_le _ _) h hq ht, ?_⟩
    exact (fits_step_iff h.protocol hfits ht).mpr (below_of_quota h.protocol h.admitted ht)

/-- The machine starts with an empty log, and three processes begin an operation. -/
def threeOps : List (Act (Fin 3)) :=
  [.recover, .recover, .recover, .beginOp 0, .beginOp 1, .beginOp 2]

/-- Process `p` logs `n` blocks of its own. -/
def logBlocks (p : Fin 3) (n : Nat) : List (Act (Fin 3)) :=
  (List.range n).flatMap (fun i ↦
    let b := 100 + MAXOPBLOCKS * p + i
    [.bread p b, .logWrite p b, .brelse p b])

/-- Three operations that leave one block each of their quotas fit in the log. -/
theorem fits_iff_below_threeOps :
    Always (State.step mkfsCfg) Fits (State.off (fun _ _ ↦ 0))
      (threeOps ++ logBlocks 0 9 ++ logBlocks 1 9 ++ logBlocks 2 9) := by
  have hrun : (run (State.step mkfsCfg) (State.off (fun _ _ ↦ 0))
      (threeOps ++ logBlocks 0 9 ++ logBlocks 1 9 ++ logBlocks 2 9)).isSome = true := by
    decide +kernel
  obtain ⟨t, ht⟩ := Option.isSome_iff_exists.mp hrun
  exact (fits_iff_below _ ht (by decide +kernel)).2.2 (by decide +kernel)

/-- Three admitted operations that use their quotas reach the panic with the thirtieth block. -/
theorem full_quotas_panic :
    ¬ ∀ (as : List (Act (Fin 3))) (t : State (Fin 3)),
      run (State.step mkfsCfg) (State.off (fun _ _ ↦ 0)) as = some t →
      Along (State.step mkfsCfg) (Quota MAXOPBLOCKS) (State.off (fun _ _ ↦ 0)) as → Fits t := by
  intro h
  let as := threeOps ++ logBlocks 0 10 ++ logBlocks 1 10 ++ logBlocks 2 9 ++
    [Act.bread 2 129, Act.logWrite 2 129]
  have hrun : (run (State.step mkfsCfg) (State.off (fun _ _ ↦ 0)) as).map (·.mode) =
      some (.panicked "too big a transaction") := by decide +kernel
  obtain ⟨t, ht, hmode⟩ := Option.map_eq_some_iff.mp hrun
  exact h as t ht (by decide +kernel) hmode

end Xv6.Log
