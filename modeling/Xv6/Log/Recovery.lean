import Xv6.Log.Crash

/-!
# Recovery

Every step of the machine keeps the crash invariant: those of processes, those of `commit`, a
crash, and those of `recover_from_log`, which may itself be cut off by a crash any number of
times. A recovery that completes has put every home block in the state that the committed
transactions, in order, produce; and each operation is in one transaction as a whole.
-/

namespace Xv6.Log

open Xv6.Lib

variable {P : Type} [Fintype P] [DecidableEq P] {c : Cfg} {home : Disk} {s : State P} {p : P}

omit [Fintype P] in
/-- One process moves between positions that no loop of `commit` is in. -/
theorem cached_goto (h : Cached c home s) (pos : Pos) (hfrom : s.phase p ≠ .installing)
    (hto : pos.phase ≠ .installing) (hdone : ∀ i, ¬ pos.Done i) : Cached c home (s.goto p pos) := by
  have hother {q : P} (hqp : q ≠ p) : (s.goto p pos).pos q = s.pos q :=
    Function.update_of_ne hqp _ _
  refine h.move rfl rfl rfl rfl rfl rfl rfl ?_ ?_ ?_
  · intro q _
    by_cases hqp : q = p
    · left
      intro i
      rw [hqp, State.goto]
      dsimp only
      rw [Function.update_self]
      exact hdone i
    · exact Or.inr (hother hqp)
  · intro q hq
    apply hother
    rintro rfl
    rw [phase_goto, if_pos rfl] at hq
    exact hto hq
  · intro q hq
    rw [phase_goto]
    split
    · next hqp => exact (hfrom (hqp ▸ hq)).elim
    · exact hq

omit [Fintype P] [DecidableEq P] in
theorem cached_wakeup (h : Cached c home s) : Cached c home s.wakeup := by
  have hpos {q : P} (hq : s.phase q = .logging ∨ s.phase q = .installing) :
      s.wakeup.pos q = s.pos q := by
    simp only [State.wakeup]
    split
    · next hsleep => simp [State.phase, hsleep, Pos.phase] at hq
    · rfl
  refine h.move rfl rfl rfl rfl rfl rfl rfl ?_ ?_ ?_
  · intro q hq
    rw [phase_wakeup] at hq
    exact Or.inr (hpos (Or.inl hq))
  · intro q hq
    rw [phase_wakeup] at hq
    exact hpos (Or.inr hq)
  · intro q hq
    rw [phase_wakeup]
    exact hq

omit [Fintype P] [DecidableEq P] in
/-- The counters of `struct log` and the numbering of operations do not matter. -/
theorem cached_congr {t : State P} (h : Cached c home s) (hcache : t.cache = s.cache)
    (hholder : t.holder = s.holder) (hdirty : t.dirty = s.dirty) (hdisk : t.disk = s.disk)
    (hlh : t.lh = s.lh) (hpins : t.pins = s.pins) (hcur : t.cur = s.cur) (hpos : t.pos = s.pos) :
    Cached c home t := by
  refine h.move hcache hholder hdirty hdisk hlh hpins hcur ?_ ?_ ?_
  · exact fun q _ ↦ Or.inr (congrFun hpos q)
  · exact fun q _ ↦ congrFun hpos q
  · intro q hq
    rw [State.phase, hpos]
    exact hq

omit [Fintype P] in
/-- One test of `begin_op`. -/
theorem cached_beginOp (h : Cached c home s) (hp : s.phase p = .outside) :
    Cached c home (s.beginOp p) := by
  have hmove (pos : Pos) (hto : pos.phase ≠ .installing) (hdone : ∀ i, ¬ pos.Done i) :=
    cached_goto (p := p) h pos (by rw [hp]; simp) hto hdone
  unfold State.beginOp
  split
  · exact hmove _ (by simp [Pos.phase]) (fun _ ↦ id)
  · split
    · exact hmove _ (by simp [Pos.phase]) (fun _ ↦ id)
    · exact cached_congr (hmove .inOp (by simp [Pos.phase]) (fun _ ↦ id))
        rfl rfl rfl rfl rfl rfl rfl rfl

omit [Fintype P] in
/-- The critical section of `end_op`. -/
theorem cached_endOp (h : Cached c home s) (hp : s.phase p = .running) :
    Cached c home (s.endOp p) := by
  have hfrom : s.phase p ≠ .installing := by rw [hp]; simp
  unfold State.endOp
  split
  · exact cached_congr h rfl rfl rfl rfl rfl rfl rfl rfl
  · split
    · have := cached_goto (p := p) h (if 0 < s.lh.length then .writeLog 0 else .endCommit)
        hfrom (by split <;> simp [Pos.phase])
        (by intro i; split <;> simp [Pos.Done])
      exact cached_congr this rfl rfl rfl rfl rfl rfl rfl rfl
    · have hout : Cached c home { s with outstanding := s.outstanding - 1 } :=
        cached_congr h rfl rfl rfl rfl rfl rfl rfl rfl
      refine cached_goto (cached_wakeup hout) _ ?_ (by simp [Pos.phase]) (fun _ ↦ id)
      rw [phase_wakeup]
      exact hfrom

/-- A step inside `commit`. The header write applies the transaction to the abstract disk. -/
theorem crashSafe_commit {d : Disk} {t : State P} (hs : Ops s) (hmode : s.mode = .up)
    (h : CrashSafe c d s) (ht : CommitStep c p s t) : CrashSafe c d t := by
  have hc := h.up hmode
  have hup {t : State P} (hpast : applyTxns d t.past = applyTxns d s.past) (htm : t.mode = .up)
      (hj : OnDisk c (applyTxns d s.past) t.disk ∧ Cached c (applyTxns d s.past) t) :
      CrashSafe c d t :=
    ⟨hpast ▸ hj.1, fun _ ↦ hpast ▸ hj.2, fun hb ↦ (by rw [htm] at hb; exact hb.elim)⟩
  cases ht with
  | copy hpos hb _ hhome => exact hup rfl hmode (crashSafe_copy hs h.onDisk hc hpos hb hhome)
  | copied hpos hb =>
    refine hup rfl hmode ⟨h.onDisk, cached_endLoop hc ?_ ?_⟩
    · rw [State.phase, hpos]
      rfl
    · intro i b hib
      rw [hpos]
      have hi := (List.getElem?_eq_some_iff.mp hib).1
      have htail := List.getElem?_eq_none_iff.mp hb
      exact lt_of_lt_of_le hi htail
  | head hpos =>
    have hnew : applyTxns d (s.past ++ [⟨s.cur, true⟩]) = s.view (applyTxns d s.past) :=
      applyTxns_committed d s.past s.cur
    obtain ⟨hdisk, hcached⟩ := crashSafe_head hs h.onDisk hc hpos
    rw [← hnew] at hdisk hcached
    exact ⟨hdisk, fun _ ↦ hcached, fun hb ↦
      (by change s.mode.Boots at hb; rw [hmode] at hb; exact hb.elim)⟩
  | install hpos hb hlog => exact hup rfl hmode (crashSafe_install hs h.onDisk hc hpos hb hlog)
  | installed hpos hb =>
    refine hup rfl hmode ⟨h.onDisk, cached_endLoop hc ?_ ?_⟩
    · rw [State.phase, hpos]
      rfl
    · intro i b hib
      rw [hpos]
      have hi := (List.getElem?_eq_some_iff.mp hib).1
      have htail := List.getElem?_eq_none_iff.mp hb
      exact lt_of_lt_of_le hi htail
  | clear hpos => exact hup rfl hmode (crashSafe_clear hs h.onDisk hc hpos)
  | ended hpos =>
    refine hup rfl hmode ⟨h.onDisk, cached_goto (cached_wakeup ?_) _ ?_ ?_ (fun _ ↦ id)⟩
    · exact cached_congr hc rfl rfl rfl rfl rfl rfl rfl rfl
    · rw [phase_wakeup]
      change (s.pos p).phase ≠ .installing
      rw [hpos]
      simp [Pos.phase]
    · simp [Pos.phase]

omit [Fintype P] [DecidableEq P] in
theorem Recovering.contents_eq (h : Recovering c home s) (b : Nat) : s.contents b = s.disk b := by
  unfold State.contents
  cases hc : s.cache b with
  | none => rfl
  | some data => exact h.clean b data hc

omit [Fintype P] [DecidableEq P] in
/-- A step of `recover_from_log`. -/
theorem crashSafe_recover {d : Disk} {t : State P} (hb : s.mode.Boots → Booting s)
    (h : CrashSafe c d s) (ht : RecoverStep c s t) : CrashSafe c d t := by
  cases ht with
  | readHead hmode =>
    have hr := h.boot (by rw [hmode]; trivial)
    refine ⟨h.onDisk, fun hm ↦ (by cases hm), fun _ ↦ ⟨?_, ?_, ?_⟩⟩
    · intro b data hc
      change Function.update s.cache c.start (some (s.contents c.start)) b = some data at hc
      by_cases hbs : b = c.start
      · rw [hbs, Function.update_self] at hc
        rw [hbs, ← Option.some.inj hc]
        exact hr.contents_eq c.start
      · rw [Function.update_of_ne hbs] at hc
        exact hr.clean b data hc
    · intro _
      change decodeHead (s.contents c.start) = decodeHead (s.disk c.start)
      rw [hr.contents_eq]
    · intro i b hi
      exact (Nat.not_lt_zero i hi).elim
  | @install tail b hmode hib =>
    have hr := h.boot (by rw [hmode]; trivial)
    have hlh : s.lh = decodeHead (s.disk c.start) := hr.header (by rw [hmode]; simp)
    have hmem : b ∈ decodeHead (s.disk c.start) := hlh ▸ List.mem_of_getElem? hib
    have hcontents : s.contents (c.start + tail + 1) = applyTxns d s.past b := by
      rw [hr.contents_eq]
      exact h.onDisk.copies tail b (hlh ▸ hib)
    have hne : c.start ≠ b := by
      rintro rfl
      exact (h.onDisk.homes _ hmem).2 (OnDisk.start_inLog c)
    generalize hts : ({ s.installTrans c true tail b with mode := .recover (tail + 1) } : State P)
      = t
    have hdisk : t.disk = Function.update s.disk b (applyTxns d s.past b) := by
      rw [← hts, ← hcontents]
      rfl
    have hcache (b' : Nat) : t.cache b' = if b' = b then some (applyTxns d s.past b)
        else if b' = c.start + tail + 1 then some (applyTxns d s.past b) else s.cache b' := by
      rw [← hts, ← hcontents]
      simp only [State.installTrans, State.bwrite, State.setCache, if_true,
        Function.update_apply]
    obtain ⟨hpast, htlh, htmode⟩ :
        t.past = s.past ∧ t.lh = s.lh ∧ t.mode = .recover (tail + 1) := by
      rw [← hts]
      exact ⟨rfl, rfl, rfl⟩
    refine ⟨?_, fun hm ↦ (by rw [htmode] at hm; cases hm), fun _ ↦ ?_⟩
    · rw [hpast, hdisk]
      exact h.onDisk.install hmem
    rw [hpast]
    refine ⟨?_, ?_, ?_⟩
    · intro b' data hc
      rw [hcache] at hc
      rw [hdisk]
      split at hc
      · next hbb =>
        rw [hbb, Function.update_self]
        exact (Option.some.inj hc).symm
      · next hbb =>
        rw [Function.update_of_ne hbb]
        split at hc
        · next hbl =>
          rw [← Option.some.inj hc, ← hcontents, hbl]
          exact hr.contents_eq _
        · exact hr.clean b' data hc
    · intro _
      rw [htlh, hdisk, Function.update_of_ne hne]
      exact hlh
    · intro i b' hi hib'
      rw [htmode] at hi
      rw [htlh] at hib'
      rw [hdisk]
      by_cases hbb : b' = b
      · rw [hbb, Function.update_self]
      · rw [Function.update_of_ne hbb]
        have hit : i ≠ tail := by
          rintro rfl
          rw [hib', Option.some.injEq] at hib
          exact hbb hib
        apply hr.installed i b' _ hib'
        rw [hmode]
        change i < tail + 1 at hi
        change i < tail
        omega
  | @installed tail hmode hib =>
    have hr := h.boot (by rw [hmode]; trivial)
    refine ⟨h.onDisk, fun hm ↦ (by cases hm), fun _ ↦ ⟨hr.clean, ?_, ?_⟩⟩
    · exact fun _ ↦ hr.header (by rw [hmode]; simp)
    · intro i b _ hb'
      apply hr.installed i b _ hb'
      rw [hmode]
      have hi := (List.getElem?_eq_some_iff.mp hb').1
      have htail := List.getElem?_eq_none_iff.mp hib
      exact lt_of_lt_of_le hi htail
  | clear hmode =>
    have hr := h.boot (by rw [hmode]; trivial)
    have hboot := hb (by rw [hmode]; trivial)
    have hlh : s.lh = decodeHead (s.disk c.start) := hr.header (by rw [hmode]; simp)
    have hphase (q : P) : s.phase q = .outside := by rw [State.phase, hboot.pos]; rfl
    have hinst : ∀ b ∈ decodeHead (s.disk c.start), s.disk b = applyTxns d s.past b := by
      rw [← hlh]
      intro b hmem
      obtain ⟨i, hi⟩ := List.mem_iff_getElem?.mp hmem
      exact hr.installed i b (by rw [hmode]; trivial) hi
    refine ⟨h.onDisk.clear _ (decodeHead_empty _) hinst, fun _ ↦ ?_, fun hm ↦ hm.elim⟩
    refine
      { held := fun b hb' ↦ (hb' (hboot.holder b)).elim
        dirty := ?_
        clean := ?_
        room := ⟨Nat.zero_le _, Nat.zero_le _⟩
        homes := fun b hb' ↦ (by cases hb')
        pinned := fun _ b hb' ↦ (by cases hb')
        emptyHead := ?_
        logged := ?_
        fullHead := ?_
        installed := ?_ }
    · intro b hd
      change s.dirty b = true at hd
      rw [hboot.dirty] at hd
      cases hd
    · intro b data hc _ _
      change Function.update s.cache c.start _ b = some data at hc
      change data = Function.update s.disk c.start _ b
      by_cases hbs : b = c.start
      · rw [hbs, Function.update_self] at hc ⊢
        exact (Option.some.inj hc).symm
      · rw [Function.update_of_ne hbs] at hc ⊢
        exact hr.clean b data hc
    · intro _
      change decodeHead (Function.update s.disk c.start _ c.start) = []
      rw [Function.update_self]
      exact decodeHead_empty _
    all_goals
      intro q hq
      change s.phase q = _ at hq
      rw [hphase] at hq
      cases hq

omit [Fintype P] [DecidableEq P] in
theorem Recovering.evict (h : Recovering c home s) (b : Nat) : Recovering c home (s.evict b) := by
  refine ⟨?_, h.header, h.installed⟩
  intro b' data hc
  change Function.update s.cache b none b' = some data at hc
  by_cases hbb : b' = b
  · simp [hbb] at hc
  · rw [Function.update_of_ne hbb] at hc
    exact h.clean b' data hc

/-- Every step keeps the crash invariant. -/
theorem crashSafe_step {d : Disk} {a : Act P} {t : State P} (hs : Protocol s)
    (h : CrashSafe c d s) (ht : Step c s a t) : CrashSafe c d t := by
  -- a step of a process that leaves the disk alone
  have hup (hmode : s.mode = .up) (ha : a ≠ .crash) (hdisk : t.disk = s.disk)
      (hpast : t.past = s.past) (hc : t.mode = .up → Cached c (applyTxns d s.past) t) :
      CrashSafe c d t :=
    ⟨by rw [hdisk, hpast]; exact h.onDisk, by rw [hpast]; exact hc,
      fun hb ↦ (step_not_boots hmode ha ht hb).elim⟩
  cases ht with
  | crash =>
    refine ⟨?_, fun hm ↦ (by cases hm), fun _ ↦ ⟨?_, fun hm ↦ (hm rfl).elim, ?_⟩⟩
    · change OnDisk c (applyTxns d (s.past ++ [⟨s.cur, false⟩])) s.disk
      rw [applyTxns_lost]
      exact h.onDisk
    · exact fun b data hc ↦ (by cases hc)
    · exact fun i b hi ↦ hi.elim
  | recover hr => exact crashSafe_recover hs.boot h hr
  | evict hpins hholder =>
    exact ⟨h.onDisk, fun hm ↦ cached_evict (h.up hm) hpins hholder, fun hb ↦ (h.boot hb).evict _⟩
  | @beginOp p hmode hpos =>
    have hp : s.phase p = .outside := by
      rcases hpos with hpos | hpos <;> rw [State.phase, hpos] <;> rfl
    have hsame : (s.beginOp p).disk = s.disk ∧ (s.beginOp p).past = s.past := by
      unfold State.beginOp
      split
      · exact ⟨rfl, rfl⟩
      · split <;> exact ⟨rfl, rfl⟩
    exact hup hmode (by simp) hsame.1 hsame.2 (fun _ ↦ cached_beginOp (h.up hmode) hp)
  | @endOp p hmode hpos =>
    have hsame : (s.endOp p).disk = s.disk ∧ (s.endOp p).past = s.past := by
      unfold State.endOp
      split
      · exact ⟨rfl, rfl⟩
      · split <;> exact ⟨rfl, rfl⟩
    refine hup hmode (by simp) hsame.1 hsame.2 (fun _ ↦ cached_endOp (h.up hmode) ?_)
    rw [State.phase, hpos]
    rfl
  | bread hmode hholder =>
    exact hup hmode (by simp) rfl rfl (fun _ ↦ cached_bread (h.up hmode) _ hholder)
  | store hmode hholder =>
    refine hup hmode (by simp) rfl rfl (fun _ ↦ cached_store (h.up hmode) _ ?_)
    rw [hholder]
    simp
  | @logWrite p b hmode hholder hpos hhome =>
    have hsame : (s.logWrite c p b).disk = s.disk ∧ (s.logWrite c p b).past = s.past := by
      unfold State.logWrite
      split
      · exact ⟨rfl, rfl⟩
      · split
        · exact ⟨rfl, rfl⟩
        · unfold State.record
          dsimp only
          split <;> exact ⟨rfl, rfl⟩
    refine hup hmode (by simp) hsame.1 hsame.2 ?_
    unfold State.logWrite
    split
    · exact fun hm ↦ (by cases hm)
    · next hroom =>
      split
      · exact fun hm ↦ (by cases hm)
      · intro _
        refine cached_record (hs.up hmode) (h.up hmode) ?_ ?_ hhome hroom
        · rw [State.phase, hpos]
          rfl
        · rw [hholder]
          simp
  | brelse hmode _ hclean =>
    exact hup hmode (by simp) rfl rfl (fun _ ↦ cached_brelse (h.up hmode) hclean)
  | commit hmode hc => exact crashSafe_commit (hs.up hmode) hmode h hc
  | kill hmode hpos =>
    refine hup hmode (by simp) rfl rfl (fun _ ↦ cached_goto (h.up hmode) _ ?_ ?_ (fun _ ↦ id))
    · rw [State.phase, hpos]
      simp [Pos.phase]
    · simp [Pos.phase]

omit [Fintype P] [DecidableEq P] in
/-- A disk with an empty log header represents itself. -/
theorem crashSafe_off {d : Disk} (hd : decodeHead (d c.start) = []) :
    CrashSafe c d (State.off d : State P) := by
  refine ⟨OnDisk.of_empty hd (fun _ _ ↦ rfl), fun hm ↦ (by cases hm), fun _ ↦ ⟨?_, ?_, ?_⟩⟩
  · exact fun b data hc ↦ (by cases hc)
  · exact fun hm ↦ (hm rfl).elim
  · exact fun i b hi ↦ hi.elim

/-- Every run, with any number of crashes, keeps all invariants of the log. -/
theorem run_crashSafe {d : Disk} (hd : decodeHead (d c.start) = []) {as : List (Act P)}
    (hrun : run (State.step c) (State.off d) as = some s) :
    Protocol s ∧ History s ∧ CrashSafe c d s := by
  have hreach : Reaches (State.step c) (State.off d) s := ⟨as, hrun⟩
  refine hreach.invariant (P := fun s ↦ Protocol s ∧ History s ∧ CrashSafe c d s) ?_
    ⟨protocol_off d, history_off d, crashSafe_off hd⟩
  rintro s a t ⟨hs, hh, h⟩ ht
  have ht := step_of_eq_some ht
  exact ⟨protocol_step hs ht, history_step hs hh ht, crashSafe_step hs h ht⟩

/-- Crash atomicity. After any run from a disk with an empty log, with crashes at any points of
commits and of earlier recoveries: when a recovery completes, every block outside the log area
is the result of applying the committed transactions, in order, to the initial disk. The
log writes of an operation are in one transaction only. -/
theorem recovery_applies_committed {d : Disk} (hd : decodeHead (d c.start) = [])
    {as : List (Act P)} {t : State P} (hrun : run (State.step c) (State.off d) as = some s)
    (hrec : s.step c .recover = some t) (hup : t.mode = .up) :
    (∀ b, ¬ c.InLog b → t.disk b = applyTxns d t.past b) ∧ OneTxn t := by
  obtain ⟨hs, hh, h⟩ := run_crashSafe hd hrun
  have hstep := step_of_eq_some hrec
  have ht := crashSafe_step hs h hstep
  refine ⟨?_, (history_step hs hh hstep).oneTxn⟩
  intro b hb
  -- the recovery has just written an empty header, so no block waits in the log
  have hempty : decodeHead (t.disk c.start) = [] := by
    apply (ht.up hup).emptyHead
    intro p hp
    cases recoverStep_of_eq_some hrec with
    | readHead | install | installed => cases hup
    | clear hmode =>
      have hboot := hs.boot (by rw [hmode]; trivial)
      change (s.pos p).phase = .installing at hp
      rw [hboot.pos] at hp
      cases hp
  exact ht.onDisk.rest b hb (by rw [hempty]; exact List.not_mem_nil)

/-- One operation logs block 100; the machine crashes right after the header write, and again
in the recovery. -/
def crashTwice : List (Act (Fin 1)) :=
  [.recover, .recover, .recover, .beginOp 0, .bread 0 100, .store 0 100 (fun _ ↦ 7),
    .logWrite 0 100, .brelse 0 100, .endOp 0, .commit 0, .commit 0, .commit 0, .crash,
    .recover, .recover, .crash, .recover, .recover, .recover]

theorem recovery_applies_committed_crashTwice :
    ∃ s t : State (Fin 1), run (State.step mkfsCfg) (State.off (fun _ _ ↦ 0)) crashTwice = some s ∧
      s.step mkfsCfg .recover = some t ∧ t.past.map (·.committed) = [true, false, false] ∧
      t.disk 100 = applyTxns (fun _ _ ↦ 0) t.past 100 := by
  have hrun : ((run (State.step mkfsCfg) (State.off (fun _ _ ↦ 0)) crashTwice).bind
      (fun s ↦ (s.step mkfsCfg .recover).map (fun t ↦ (t.mode, t.past.map (·.committed))))) =
      some (.up, [true, false, false]) := by decide +kernel
  obtain ⟨s, hs, hrest⟩ := Option.bind_eq_some_iff.mp hrun
  obtain ⟨t, ht, heq⟩ := Option.map_eq_some_iff.mp hrest
  obtain ⟨hmode, hpast⟩ := Prod.mk.inj heq
  refine ⟨s, t, hs, ht, hpast, ?_⟩
  exact (recovery_applies_committed (by decide) hs ht hmode).1 100 (by decide)

end Xv6.Log
