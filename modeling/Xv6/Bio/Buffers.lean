import Xv6.Bio.Pins

/-!
# `commit` always finds a buffer

Every step keeps the invariant of the pins. A transaction has at most `LOGSIZE - 1` blocks, one less
than there are buffers: each `bread` of `commit` asks for a block that is pinned and therefore
cached, or for one block more while it has no other in hand.
-/

namespace Xv6.Bio

open Xv6.Lib

variable {P : Type} [Fintype P] [DecidableEq P] {cfg : Log.Cfg} {s s' : Sys P} {c t : Cache Nat P}
variable {r r' : Committer P} {lh : List Nat}

/-! ### The process in `commit` -/

/-- What a step of the process in `commit` does to the cache and the pins. -/
structure Advances (c : Cache Nat P) (lh : List Nat) (r : Committer P) (t : Cache Nat P)
    (r' : Committer P) :
    Prop where
  proc : r'.proc = r.proc
  inv : Inv t
  running : Running t lh r'
  pinned : Pinned t (unpins (r'.names t) r'.todo)

omit [Fintype P] [DecidableEq P] in
theorem KeepsUsed.of_sameBlock (h : ∀ b, SameBlock (t.buf b) (c.buf b)) : KeepsUsed c t :=
  fun b _ ↦ h b

omit [DecidableEq P] in
/-- It started or finished a call that changes none of its variables. -/
theorem Advances.of_keep (hc : Inv c) (hr : Running c lh r)
    (hp : Pinned c (unpins (r.names c) r.todo)) (ht : Inv t) (hkeep : KeepsUsed c t)
    (hpins : t.pins = c.pins) (hlock : t.lock = c.lock)
    (hwaits : ∀ b, t.pc r.proc = .acquiring b →
      ∃ x blockno rest, r.todo = .bread x blockno :: rest ∧ t.Caches b blockno) :
    Advances c lh r t r := by
  have hnames := names_keep hc hkeep (fun x b hx ↦ (hr.held x b hx).1)
  refine ⟨rfl, ht, hr.move hc hkeep (fun b hb ↦ by rw [hlock]; exact hb) hwaits, ?_⟩
  rw [hnames]
  exact hp.keep hc ht hkeep hpins

omit [DecidableEq P] in
/-- The end of a `bread`. -/
theorem Advances.bread (hc : Inv c) (hr : Running c lh r)
    (hp : Pinned c (unpins (r.names c) r.todo)) {x : Var} {blockno : Nat} {rest : List Cmd}
    (htodo : r.todo = .bread x blockno :: rest) {b : Bufno} (hcaches : c.Caches b blockno)
    (hfree : c.lock b = none) (ht : Inv t) (hbuf : ∀ y, SameBlock (t.buf y) (c.buf y))
    (hpins : t.pins = c.pins) (hpc : t.pc r.proc = .out)
    (hlock : ∀ y, t.lock y = if y = b then some r.proc else c.lock y) :
    Advances c lh r t { r with var := Function.update r.var x (some b), todo := rest } := by
  have hkeep := KeepsUsed.of_sameBlock hbuf
  have hnames : Committer.names { r with var := Function.update r.var x (some b), todo := rest } t =
      Function.update (r.names c) x (some blockno) := by
    funext y
    by_cases hy : y = x
    · rw [hy, Function.update_self]
      simp only [Committer.names, Function.update_self, Option.map_some, (hbuf b).2.1, hcaches.2]
    · rw [Function.update_of_ne hy, ← names_keep hc hkeep (fun x b hx ↦ (hr.held x b hx).1)]
      simp only [Committer.names, Function.update_of_ne hy]
  have hruns := hr.runs
  have hnodup := hr.nodup
  have hfew := hr.few
  have hcleared := hr.cleared
  rw [htodo] at hruns hnodup hfew hcleared hp
  -- the buffers in hand are locked, the new one was not
  have hvar (y : Var) (b' : Bufno) (hy : Function.update r.var x (some b) y = some b') :
      (y = x ∧ b' = b) ∨ (y ≠ x ∧ r.var y = some b' ∧ b' ≠ b) := by
    rw [Function.update_apply] at hy
    split at hy
    · next hyx => exact Or.inl ⟨hyx, (Option.some.inj hy).symm⟩
    · next hyx =>
      refine Or.inr ⟨hyx, hy, ?_⟩
      rintro rfl
      have := (hr.held y b' hy).1
      rw [hfree] at this
      cases this
  refine ⟨rfl, ht, ⟨?_, ?_, ?_, ?_, ?_, ?_, ?_⟩, ?_⟩
  · rw [hnames]
    exact hruns.2.2.2
  · intro y b' hy
    rw [hlock, (hbuf b').1]
    rcases hvar y b' hy with ⟨-, rfl⟩ | ⟨-, hy, hne⟩
    · rw [if_pos rfl]
      exact ⟨rfl, hcaches.1⟩
    · rw [if_neg hne]
      exact hr.held y b' hy
  · intro y z b' hy hz
    rcases hvar y b' hy with ⟨hyx, rfl⟩ | ⟨hyx, hy, hne⟩
    · rcases hvar z b' hz with ⟨hzx, -⟩ | ⟨-, -, hne⟩
      · rw [hyx, hzx]
      · exact absurd rfl hne
    · rcases hvar z b' hz with ⟨-, he⟩ | ⟨-, hz, -⟩
      · exact absurd he hne
      · exact hr.inj y z b' hy hz
  · intro b' hb'
    rw [hpc] at hb'
    cases hb'
  · rw [hnames]
    exact hnodup
  · rw [hnames]
    exact hfew
  · rcases hcleared with h | h
    · exact Or.inl h
    · rcases List.mem_cons.mp h with h | h
      · cases h
      · exact Or.inr h
  · rw [hnames]
    exact hp.keep hc ht hkeep hpins

omit [DecidableEq P] in
/-- The start of a `brelse`. -/
theorem Advances.brelse (hc : Inv c) (hr : Running c lh r)
    (hp : Pinned c (unpins (r.names c) r.todo)) {x : Var} {rest : List Cmd}
    (htodo : r.todo = .brelse x :: rest) {b : Bufno} (hx : r.var x = some b) (ht : Inv t)
    (hbuf : t.buf = c.buf) (hpins : t.pins = c.pins) (hpc : t.pc r.proc = .releasing b)
    (hlock : ∀ y, t.lock y = if y = b then none else c.lock y) :
    Advances c lh r t { r with var := Function.update r.var x none, todo := rest } := by
  have hkeep : KeepsUsed c t :=
    KeepsUsed.of_sameBlock (fun y ↦ by rw [hbuf]; exact SameBlock.refl _)
  have hnames : Committer.names { r with var := Function.update r.var x none, todo := rest } t =
      Function.update (r.names c) x none := by
    funext y
    by_cases hy : y = x
    · rw [hy, Function.update_self]
      simp only [Committer.names, Function.update_self, Option.map_none]
    · rw [Function.update_of_ne hy]
      simp only [Committer.names, Function.update_of_ne hy, hbuf]
  have hruns := hr.runs
  have hnodup := hr.nodup
  have hfew := hr.few
  have hcleared := hr.cleared
  rw [htodo] at hruns hnodup hfew hcleared hp
  have hvar (y : Var) (b' : Bufno) (hy : Function.update r.var x none y = some b') :
      r.var y = some b' ∧ b' ≠ b := by
    rw [Function.update_apply] at hy
    split at hy
    · cases hy
    · next hyx =>
      refine ⟨hy, ?_⟩
      rintro rfl
      exact hyx (hr.inj y x b' hy hx)
  refine ⟨rfl, ht, ⟨?_, ?_, ?_, ?_, ?_, ?_, ?_⟩, ?_⟩
  · rw [hnames]
    exact hruns.2
  · intro y b' hy
    obtain ⟨hy, hne⟩ := hvar y b' hy
    rw [hlock, if_neg hne, hbuf]
    exact hr.held y b' hy
  · intro y z b' hy hz
    exact hr.inj y z b' (hvar y b' hy).1 (hvar z b' hz).1
  · intro b' hb'
    rw [hpc] at hb'
    cases hb'
  · rw [hnames]
    exact hnodup
  · rw [hnames]
    exact hfew
  · rcases hcleared with h | h
    · exact Or.inl h
    · rcases List.mem_cons.mp h with h | h
      · cases h
      · exact Or.inr h
  · rw [hnames]
    exact hp.keep hc ht hkeep hpins

omit [DecidableEq P] in
/-- A pin is taken back. -/
theorem Advances.bunpin (hc : Inv c) (hr : Running c lh r)
    (hp : Pinned c (unpins (r.names c) r.todo)) {x : Var} {rest : List Cmd}
    (htodo : r.todo = .bunpin x :: rest) {b : Bufno} (hx : r.var x = some b) (ht : Inv t)
    (hbuf : ∀ y, SameBlock (t.buf y) (c.buf y)) (hpc : t.pc = c.pc) (hlock : t.lock = c.lock)
    (hout : c.pc r.proc = .out) (hpins : ∀ y, t.pins y = if y = b then c.pins b - 1 else c.pins y) :
    Advances c lh r t { r with todo := rest } := by
  have hkeep := KeepsUsed.of_sameBlock hbuf
  have hnames : Committer.names { r with todo := rest } t = r.names c :=
    names_keep hc hkeep (fun x b hx ↦ (hr.held x b hx).1)
  have hname : r.names c x = some (c.buf b).blockno := by
    rw [Committer.names, hx]
    rfl
  have hruns := hr.runs
  have hnodup := hr.nodup
  have hfew := hr.few
  have hcleared := hr.cleared
  rw [htodo, unpins, hname] at hnodup hfew hp
  rw [htodo] at hruns hcleared
  have hcons : (some (c.buf b).blockno).toList ++ unpins (r.names c) rest =
      (c.buf b).blockno :: unpins (r.names c) rest := rfl
  rw [hcons] at hnodup hfew hp
  refine ⟨rfl, ht, ⟨?_, ?_, hr.inj, ?_, ?_, ?_, ?_⟩, ?_⟩
  · rw [hnames]
    exact hruns.2
  · intro y b' hy
    rw [hlock, (hbuf b').1]
    exact hr.held y b' hy
  · intro b' hb'
    rw [hpc] at hb'
    rw [hout] at hb'
    cases hb'
  · rw [hnames]
    exact (List.nodup_cons.mp hnodup).2
  · rw [hnames]
    exact Nat.lt_of_succ_lt hfew
  · rcases hcleared with h | h
    · exact Or.inl h
    · rcases List.mem_cons.mp h with h | h
      · cases h
      · exact Or.inr h
  · rw [hnames]
    exact hp.bunpin hc (List.nodup_cons.mp hnodup).1 ⟨(hr.held x b hx).2, rfl⟩ hbuf hpins

/-- Every step of the process in `commit`. -/
theorem step_advances (hc : Inv c) (hr : Running c lh r) (hp : Pinned c (unpins (r.names c) r.todo))
    (hs : r.step c = some (r', t)) : Advances c lh r t r' := by
  rw [Committer.step] at hs
  cases hpc : c.pc r.proc with
  | releasing b =>
    simp only [hpc] at hs
    obtain ⟨c', hstep, h⟩ := Option.bind_eq_some_iff.mp hs
    cases h
    obtain ⟨ht, hkeep⟩ := step_ok hc hstep
    simp only [Cache.step, hpc] at hstep
    obtain ⟨-, rfl⟩ := Option.ite_none_right_eq_some.mp hstep |>.imp_right Option.some.inj
    obtain ⟨hlock, hpins, -, -⟩ := brelse_rest c b
    refine Advances.of_keep hc hr hp ht hkeep hpins hlock ?_
    intro b' hb'
    have hself : ((c.brelse b).goto r.proc .out).pc r.proc = .out := Function.update_self _ _ _
    rw [hself] at hb'
    cases hb'
  | acquiring b =>
    obtain ⟨x, blockno, rest, htodo, hcaches⟩ := hr.waits b hpc
    simp only [hpc, htodo] at hs
    obtain ⟨c₁, hstep₁, hs⟩ := Option.bind_eq_some_iff.mp hs
    obtain ⟨c₂, hstep₂, h⟩ := Option.bind_eq_some_iff.mp hs
    cases h
    obtain ⟨h₁, -⟩ := step_ok hc hstep₁
    obtain ⟨h₂, -⟩ := step_ok h₁ hstep₂
    simp only [Cache.step, hpc] at hstep₁
    obtain ⟨⟨-, hfree⟩, rfl⟩ := Option.ite_none_right_eq_some.mp hstep₁ |>.imp_right Option.some.inj
    obtain ⟨-, rfl⟩ := Option.ite_none_right_eq_some.mp hstep₂ |>.imp_right Option.some.inj
    refine Advances.bread hc hr hp htodo hcaches hfree h₂ ?_ rfl ?_ ?_
    · apply setBuf_sameBlock
      exact ⟨rfl, rfl, fun _ ↦ rfl⟩
    · exact Function.update_self _ _ _
    · intro y
      exact Function.update_apply _ _ _ _
  | out =>
    cases htodo : r.todo with
    | nil =>
      simp only [hpc, htodo] at hs
      cases hs
    | cons cmd rest =>
      cases cmd with
      | bread x blockno =>
        simp only [hpc, htodo] at hs
        obtain ⟨c', hstep, h⟩ := Option.bind_eq_some_iff.mp hs
        cases h
        obtain ⟨ht, hkeep⟩ := step_ok hc hstep
        obtain ⟨-, rfl⟩ := Option.ite_none_right_eq_some.mp hstep |>.imp_right Option.some.inj
        obtain ⟨hlock, hpins, -⟩ := bget_rest c r.proc ROOTDEV blockno
        refine Advances.of_keep hc hr hp ht hkeep hpins hlock ?_
        intro b hb
        exact ⟨x, blockno, rest, htodo, bget_caches hc hpc hb⟩
      | brelse x =>
        simp only [hpc, htodo] at hs
        obtain ⟨b, hx, hs⟩ := Option.bind_eq_some_iff.mp hs
        obtain ⟨c', hstep, h⟩ := Option.bind_eq_some_iff.mp hs
        cases h
        obtain ⟨ht, -⟩ := step_ok hc hstep
        obtain ⟨-, rfl⟩ := Option.ite_none_right_eq_some.mp hstep |>.imp_right Option.some.inj
        refine Advances.brelse hc hr hp htodo hx ht rfl rfl ?_ ?_
        · exact Function.update_self _ _ _
        · intro y
          exact Function.update_apply _ _ _ _
      | bunpin x =>
        simp only [hpc, htodo] at hs
        obtain ⟨b, hx, hs⟩ := Option.bind_eq_some_iff.mp hs
        obtain ⟨c', hstep, h⟩ := Option.bind_eq_some_iff.mp hs
        cases h
        obtain ⟨ht, -⟩ := step_ok hc hstep
        obtain ⟨-, rfl⟩ := Option.ite_none_right_eq_some.mp hstep |>.imp_right Option.some.inj
        refine Advances.bunpin hc hr hp htodo hx ht (unref_sameBlock b) rfl rfl hpc ?_
        intro y
        exact setPins_pins b _ y
      | clear =>
        simp only [hpc, htodo] at hs
        cases hs

/-! ### Every step -/

omit [Fintype P] [DecidableEq P] in
theorem pending_some (h : s.committer = some r) : s.pending = unpins (r.names s.cache) r.todo := by
  rw [Sys.pending, h]

omit [Fintype P] [DecidableEq P] in
theorem pending_none (h : s.committer = none) : s.pending = s.lh := by
  rw [Sys.pending, h]

omit [DecidableEq P] in
theorem Good.idle (h : Good cfg s) {p : P} (hp : p ∈ s.ops) :
    s.committing = false ∧ s.committer = none := by
  have hbusy : s.committing = false := by
    apply Bool.eq_false_of_not_eq_true
    intro hc
    rw [h.alone hc] at hp
    exact absurd hp (Finset.notMem_empty p)
  refine ⟨hbusy, ?_⟩
  have hb := h.busy
  rw [hbusy] at hb
  exact Option.not_isSome_iff_eq_none.mp (by rw [← hb]; decide)

omit [DecidableEq P] in
/-- A `panic` changes nothing else. -/
theorem Good.panicked (h : Good cfg s) (msg : String) :
    Good cfg { s with cache := { s.cache with panic := some msg } } := by
  have hkeep : KeepsUsed s.cache { s.cache with panic := some msg } :=
    KeepsUsed.of_sameBlock (fun _ ↦ SameBlock.refl _)
  have hinv : Inv { s.cache with panic := some msg } :=
    h.cache.congr rfl rfl (fun _ ↦ SameBlock.refl _) h.cache.refs
  refine ⟨hinv, h.ops, h.busy, h.alone, h.nodup, h.few, h.home, ?_, ?_⟩
  · exact h.pinned.keep h.cache hinv hkeep rfl
  · intro r hr
    exact (h.running r hr).keep h.cache hkeep rfl (fun _ hb ↦ hb)

/-- A process that is not in `commit` uses the cache. -/
theorem Good.cacheStep (h : Good cfg s) {a : Act P} {q : P} (hq : a.proc = some q)
    (hn : ¬ s.Commits q) (hs : s.cache.step a = some c) : Good cfg { s with cache := c } := by
  obtain ⟨hinv, hkeep⟩ := step_ok h.cache hs
  have hpinned : Pinned c s.pending := h.pinned.keep h.cache hinv hkeep (step_pins hq hs)
  refine ⟨hinv, h.ops, h.busy, h.alone, h.nodup, h.few, h.home, ?_, ?_⟩
  · cases hr : s.committer with
    | none =>
      rw [pending_none hr] at hpinned
      exact hpinned
    | some r =>
      have hnames := names_keep h.cache hkeep (fun x b hx ↦ ((h.running r hr).held x b hx).1)
      rw [pending_some hr, ← hnames] at hpinned
      exact hpinned
  · intro r hr
    have hne : r.proc ≠ q := fun he ↦ hn ⟨r, hr, he⟩
    obtain ⟨hpc, hlock⟩ := step_other hq hne hs
    exact (h.running r hr).keep h.cache hkeep hpc hlock

theorem Good.beginOp (h : Good cfg s) {p : P} (hp : p ∉ s.ops) : Good cfg (s.beginOp p) := by
  rw [Sys.beginOp]
  split
  · exact h
  · next hcom =>
    split
    · exact h
    · refine ⟨h.cache, ?_, h.busy, fun hc ↦ absurd hc hcom, h.nodup, h.few, h.home, h.pinned,
        h.running⟩
      rw [Finset.card_insert_of_notMem hp, h.ops]

theorem Good.endOp (h : Good cfg s) (hsize : cfg.size = LOGSIZE) {p : P} (hp : p ∈ s.ops)
    (hpc : s.cache.pc p = .out) : Good cfg (s.endOp cfg p) := by
  obtain ⟨hcom, hnone⟩ := h.idle hp
  have hcard : s.outstanding - 1 = (s.ops.erase p).card := by
    rw [Finset.card_erase_of_mem hp, h.ops]
  have hpinned := h.pinned
  rw [pending_none hnone] at hpinned
  simp only [Sys.endOp, hcom, Bool.false_eq_true, if_false]
  split
  · next hzero =>
    -- the variables of the new process in `commit` refer to nothing
    have hnames : Committer.names { proc := p, var := fun _ ↦ none, todo := commit cfg.start s.lh }
        s.cache = inHand none none := by
      funext x
      cases x <;> rfl
    have hunpins := unpins_commit cfg.start s.lh
    refine ⟨h.cache, hcard, rfl, ?_, h.nodup, h.few, h.home, ?_, ?_⟩
    · intro _
      exact Finset.card_eq_zero.mp (hcard.symm.trans hzero)
    · rw [pending_some rfl, hnames, hunpins]
      exact hpinned
    · intro r hr
      cases hr
      refine ⟨?_, (fun _ _ hx ↦ nomatch hx), (fun _ _ _ hx ↦ nomatch hx), ?_, ?_, ?_, ?_⟩
      · rw [hnames]
        exact runs_commit (by rw [hsize]; exact h.few) h.home
      · intro b hb
        rw [hpc] at hb
        cases hb
      · rw [hnames, hunpins]
        exact h.nodup
      · rw [hnames, hunpins]
        exact h.few
      · by_cases hnil : s.lh = []
        · exact Or.inl hnil
        · exact Or.inr (clear_mem_commit cfg.start hnil)
  · refine ⟨h.cache, hcard, ?_, (fun hc ↦ nomatch hc), h.nodup, h.few, h.home, h.pinned, h.running⟩
    rw [hnone]
    rfl

theorem Good.logWrite (h : Good cfg s) (hsize : cfg.size = LOGSIZE) {p : P} (hp : p ∈ s.ops)
    {b : Bufno} (hdev : (s.cache.buf b).dev = ROOTDEV) (hhome : ¬ cfg.InLog (s.cache.buf b).blockno)
    (hs : s.logWrite cfg b = some s') : Good cfg s' := by
  obtain ⟨-, hnone⟩ := h.idle hp
  have hpinned := h.pinned
  rw [pending_none hnone] at hpinned
  rw [Sys.logWrite] at hs
  split at hs
  · cases hs
    exact h.panicked _
  · next hroom =>
    split at hs
    · cases hs
      exact h.panicked _
    · split at hs
      · cases hs
        exact h
      · next hnew =>
        obtain ⟨c, hstep, hs⟩ := Option.bind_eq_some_iff.mp hs
        cases hs
        obtain ⟨hinv, -⟩ := step_ok h.cache hstep
        obtain ⟨-, rfl⟩ := Option.ite_none_right_eq_some.mp hstep |>.imp_right Option.some.inj
        refine ⟨hinv, h.ops, h.busy, h.alone, ?_, ?_, ?_, ?_, ?_⟩
        · rw [List.nodup_append]
          refine ⟨h.nodup, List.nodup_singleton _, ?_⟩
          intro x hx y hy he
          rw [List.mem_singleton] at hy
          rw [he, hy] at hx
          exact hnew hx
        · rw [List.length_append, List.length_singleton]
          omega
        · intro blockno hm
          rcases List.mem_append.mp hm with hm | hm
          · exact h.home blockno hm
          · rw [List.mem_singleton.mp hm]
            exact hhome
        · simp only [Sys.pending, hnone]
          exact hpinned.bpin h.cache hdev hnew (ref_sameBlock b) (setPins_pins b _)
        · intro r hr
          rw [hnone] at hr
          cases hr

theorem Good.commitStep (h : Good cfg s) (hs : s.commitStep = some s') : Good cfg s' := by
  rw [Sys.commitStep] at hs
  cases hr : s.committer with
  | none =>
    rw [hr] at hs
    cases hs
  | some r =>
    have hrun := h.running r hr
    have hpinned := h.pinned
    rw [pending_some hr] at hpinned
    simp only [hr] at hs
    split at hs
    · next htodo =>
      -- all pins are taken back, and the transaction has been cleared
      cases hs
      have hlh : s.lh = [] := by
        rcases hrun.cleared with hlh | hmem
        · exact hlh
        · rw [htodo] at hmem
          cases hmem
      refine ⟨h.cache, h.ops, rfl, (fun hc ↦ nomatch hc), h.nodup, h.few, h.home, ?_,
        (fun _ hr ↦ nomatch hr)⟩
      rw [htodo] at hpinned
      rw [pending_none rfl, hlh]
      exact hpinned
    · next rest _ htodo =>
      cases hs
      rw [htodo] at hpinned
      have hruns := hrun.runs
      have hnodup := hrun.nodup
      have hfew := hrun.few
      rw [htodo] at hruns hnodup hfew
      refine ⟨h.cache, h.ops, ?_, h.alone, List.nodup_nil, Nat.lt_of_le_of_lt (Nat.zero_le _) h.few,
        (fun _ hm ↦ nomatch hm), ?_, ?_⟩
      · rw [h.busy, hr]
        rfl
      · rw [pending_some rfl]
        exact hpinned
      · intro r' hr'
        cases hr'
        refine ⟨hruns, hrun.held, hrun.inj, ?_, hnodup, hfew, Or.inl rfl⟩
        intro b hb
        obtain ⟨x, blockno, rest', htodo', -⟩ := hrun.waits b hb
        rw [htodo] at htodo'
        cases htodo'
    · obtain ⟨⟨r', c⟩, hstep, hs⟩ := Option.bind_eq_some_iff.mp hs
      cases hs
      have hadv := step_advances h.cache hrun hpinned hstep
      refine ⟨hadv.inv, h.ops, ?_, h.alone, h.nodup, h.few, h.home, ?_, ?_⟩
      · rw [h.busy, hr]
        rfl
      · rw [pending_some rfl]
        exact hadv.pinned
      · intro r'' hr''
        cases hr''
        exact hadv.running

theorem good_step (hsize : cfg.size = LOGSIZE) (h : Good cfg s) {a : Call P}
    (hs : s.step cfg a = some s') : Good cfg s' := by
  unfold Sys.step at hs
  split at hs
  · cases hs
  · cases a with
    | beginOp p =>
      obtain ⟨⟨-, hp, -⟩, rfl⟩ := Option.ite_none_right_eq_some.mp hs |>.imp_right Option.some.inj
      exact h.beginOp hp
    | endOp p =>
      obtain ⟨⟨hpc, hp⟩, rfl⟩ := Option.ite_none_right_eq_some.mp hs |>.imp_right Option.some.inj
      exact h.endOp hsize hp hpc
    | cache a =>
      simp only at hs
      split at hs
      · cases hs
      · next q hq =>
        split at hs
        · cases hs
        · next hn =>
          obtain ⟨c, hstep, hs⟩ := Option.bind_eq_some_iff.mp hs
          cases hs
          exact h.cacheStep hq hn hstep
    | logWrite p b =>
      obtain ⟨⟨-, hp, -, hdev, hhome⟩, hs⟩ := Option.ite_none_right_eq_some.mp hs
      exact h.logWrite hsize hp hdev hhome hs
    | commit => exact h.commitStep hs

omit [Fintype P] [DecidableEq P] in
theorem pinned_nil (h : ∀ b, c.pins b = 0) : Pinned c [] := by
  refine ⟨?_, fun _ hm ↦ nomatch hm⟩
  intro b
  rw [h, if_neg]
  rintro ⟨-, hm⟩
  cases hm

omit [DecidableEq P] in
theorem good_init : Good cfg (Sys.init : Sys P) := by
  refine ⟨inv_binit, rfl, rfl, (fun hc ↦ nomatch hc), List.nodup_nil, (by decide : 0 < LOGSIZE),
    (fun _ hm ↦ nomatch hm), pinned_nil ?_, (fun _ hr ↦ nomatch hr)⟩
  intro b
  exact congrFun binit_fields.2.2.2.1 b

/-! ### `commit` alone -/

/-- No process is in a function of the cache, and only the one in `commit` has buffers in hand. -/
structure Alone (c : Cache Nat P) (r : Committer P) : Prop where
  panic : c.panic = none
  pc : ∀ q, c.pc q = .out
  lock : ∀ b q, c.lock b = some q → ∃ x, r.var x = some b

/-- `bget` has a buffer for a block that is cached, or if one is not in use. -/
theorem bget_finds (hc : Inv c) {blockno : Nat}
    (h : (∃ b, c.Caches b blockno) ∨ ∃ b, (c.buf b).refcnt = 0) (p : P) :
    (c.bget p ROOTDEV blockno).panic = c.panic ∧
      ∃ b, (c.bget p ROOTDEV blockno).pc p = .acquiring b := by
  have hself (x : Bufno) : (c.goto p (.acquiring x)).pc p = .acquiring x :=
    Function.update_self _ _ _
  rcases bget_cases hc p ROOTDEV blockno with ⟨x, hx, -⟩ | ⟨hnone, ⟨x, hx, -⟩ | ⟨-, hu⟩⟩
  · rw [hx]
    exact ⟨rfl, x, hself x⟩
  · rw [hx]
    exact ⟨rfl, x, hself x⟩
  · obtain ⟨L, hL⟩ := hc.listed
    rw [unused_eq hL, List.find?_eq_none] at hu
    rcases h with ⟨b, hb⟩ | ⟨b, hb⟩
    · exact (hnone b hb).elim
    · exact absurd (decide_eq_true hb) (hu b (List.mem_reverse.mpr (hL.all b)))

/-- A `bread` of `commit` gets its buffer. -/
theorem Alone.bread (ha : Alone c r) (hc : Inv c) (hr : Running c lh r)
    (hp : Pinned c (unpins (r.names c) r.todo)) {x : Var} {blockno : Nat} {rest : List Cmd}
    (htodo : r.todo = .bread x blockno :: rest) :
    ∃ c₁ r₂ c₂, r.step c = some (r, c₁) ∧ c₁.panic = none ∧ r.step c₁ = some (r₂, c₂) ∧
      r₂.todo = rest ∧ Alone c₂ r₂ := by
  have hruns := hr.runs
  have hfew := hr.few
  have hpend := hp
  rw [htodo] at hruns hfew hpend
  obtain ⟨hxnone, hfresh, hroom, -⟩ := hruns
  have hnovar (y : Var) (hy : r.names c y = none) : r.var y = none := Option.map_eq_none_iff.mp hy
  -- a block that is pinned is cached; else nothing is in hand, and one buffer is left
  have hfind : (∃ b, c.Caches b blockno) ∨ ∃ b, (c.buf b).refcnt = 0 := by
    rcases hroom with hnone | hmem
    · right
      apply hpend.exists_unused hc hfew ha.pc
      intro b
      cases hb : c.lock b with
      | none => rfl
      | some q =>
        obtain ⟨y, hy⟩ := ha.lock b q hb
        rw [hnovar y (hnone y)] at hy
        cases hy
    · exact Or.inl (hpend.cached blockno hmem)
  obtain ⟨hpanic, b, hb⟩ := bget_finds hc hfind r.proc
  have hget : c.step (.bget r.proc ROOTDEV blockno) = some (c.bget r.proc ROOTDEV blockno) :=
    if_pos ⟨ha.panic, ha.pc r.proc⟩
  obtain ⟨hinv, hkeep⟩ := step_ok hc hget
  have hcaches := bget_caches hc (ha.pc r.proc) hb
  obtain ⟨hlock, -, hothers⟩ := bget_rest c r.proc ROOTDEV blockno
  have hnames := names_keep hc hkeep (fun x b hx ↦ (hr.held x b hx).1)
  generalize c.bget r.proc ROOTDEV blockno = c₁ at *
  have hfree : c₁.lock b = none := by
    rw [hlock]
    cases hq : c.lock b with
    | none => rfl
    | some q =>
      obtain ⟨y, hy⟩ := ha.lock b q hq
      refine absurd ?_ (hfresh y)
      rw [← hnames, Committer.names, hy, Option.map_some, hcaches.2]
  have hacquire : c₁.step (.acquiresleep r.proc) =
      some ((c₁.goto r.proc .out).setLock b (some r.proc)) := by
    simp only [Cache.step, hb]
    exact if_pos ⟨hpanic.trans ha.panic, hfree⟩
  have hself : ((c₁.goto r.proc .out).setLock b (some r.proc)).pc r.proc = .out :=
    Function.update_self _ _ _
  have hmine : ((c₁.goto r.proc .out).setLock b (some r.proc)).lock b = some r.proc :=
    Function.update_self _ _ _
  have hfill : ((c₁.goto r.proc .out).setLock b (some r.proc)).step (.fill r.proc b) =
      some (((c₁.goto r.proc .out).setLock b (some r.proc)).setBuf b
        { c₁.buf b with valid := true }) :=
    if_pos ⟨hpanic.trans ha.panic, hself, hmine⟩
  refine ⟨c₁, { r with var := Function.update r.var x (some b), todo := rest },
    ((c₁.goto r.proc .out).setLock b (some r.proc)).setBuf b { c₁.buf b with valid := true },
    ?_, hpanic.trans ha.panic, ?_, rfl, ?_⟩
  · rw [Committer.step, ha.pc]
    simp only [htodo, hget, Option.bind_eq_bind, Option.bind_some]
    rfl
  · rw [Committer.step, hb]
    simp only [htodo, hacquire, Option.bind_eq_bind, Option.bind_some, hfill]
    rfl
  · refine ⟨hpanic.trans ha.panic, ?_, ?_⟩
    · intro q
      by_cases hq : q = r.proc
      · rw [hq]
        exact hself
      · exact (Function.update_of_ne hq _ _).trans ((hothers q hq).trans (ha.pc q))
    · intro b' q hq
      by_cases hb' : b' = b
      · exact ⟨x, by rw [hb']; exact Function.update_self _ _ _⟩
      · have hold : c.lock b' = some q := by
          rw [← hlock]
          exact (Function.update_of_ne hb' _ _).symm.trans hq
        obtain ⟨y, hy⟩ := ha.lock b' q hold
        refine ⟨y, (Function.update_of_ne ?_ _ _).trans hy⟩
        rintro rfl
        rw [hnovar y hxnone] at hy
        cases hy

omit [Fintype P] in
/-- A `brelse` of `commit` releases the buffer in hand. -/
theorem Alone.brelse (ha : Alone c r) (hr : Running c lh r) {x : Var} {rest : List Cmd}
    (htodo : r.todo = .brelse x :: rest) :
    ∃ r₁ c₁ c₂, r.step c = some (r₁, c₁) ∧ c₁.panic = none ∧ r₁.step c₁ = some (r₁, c₂) ∧
      r₁.todo = rest ∧ Alone c₂ r₁ := by
  have hruns := hr.runs
  rw [htodo] at hruns
  obtain ⟨blockno, hname⟩ := Option.ne_none_iff_exists'.mp hruns.1
  obtain ⟨b, hx, -⟩ := Option.map_eq_some_iff.mp hname
  have hrelease : c.step (.releasesleep r.proc b) =
      some ((c.setLock b none).goto r.proc (.releasing b)) :=
    if_pos ⟨ha.panic, ha.pc r.proc, (hr.held x b hx).1⟩
  have hself : ((c.setLock b none).goto r.proc (.releasing b)).pc r.proc = .releasing b :=
    Function.update_self _ _ _
  obtain ⟨hlock, -, hpc, hpanic⟩ := brelse_rest ((c.setLock b none).goto r.proc (.releasing b)) b
  have hbrelse : ((c.setLock b none).goto r.proc (.releasing b)).step (.brelse r.proc) =
      some ((((c.setLock b none).goto r.proc (.releasing b)).brelse b).goto r.proc .out) := by
    simp only [Cache.step, hself]
    exact if_pos ha.panic
  refine ⟨{ r with var := Function.update r.var x none, todo := rest },
    (c.setLock b none).goto r.proc (.releasing b),
    (((c.setLock b none).goto r.proc (.releasing b)).brelse b).goto r.proc .out,
    ?_, ha.panic, ?_, rfl, ?_⟩
  · rw [Committer.step, ha.pc]
    simp only [htodo, hx, hrelease, Option.bind_eq_bind, Option.bind_some]
    rfl
  · rw [Committer.step, hself]
    simp only [hbrelse, Option.bind_eq_bind, Option.bind_some]
    rfl
  · refine ⟨hpanic.trans ha.panic, ?_, ?_⟩
    · intro q
      by_cases hq : q = r.proc
      · rw [hq]
        exact Function.update_self _ _ _
      · refine (Function.update_of_ne hq _ _).trans ((congrFun hpc q).trans ?_)
        exact (Function.update_of_ne hq _ _).trans (ha.pc q)
    · intro b' q hq
      have hold : Function.update c.lock b none b' = some q := (congrFun hlock b').symm.trans hq
      rw [Function.update_apply] at hold
      split at hold
      · cases hold
      · next hne =>
        obtain ⟨y, hy⟩ := ha.lock b' q hold
        refine ⟨y, (Function.update_of_ne ?_ _ _).trans hy⟩
        rintro rfl
        exact hne (Option.some.inj (hy.symm.trans hx))

omit [Fintype P] in
/-- A `bunpin` of `commit` takes back a pin that is there. -/
theorem Alone.bunpin (ha : Alone c r) (hr : Running c lh r)
    (hp : Pinned c (unpins (r.names c) r.todo)) {x : Var} {rest : List Cmd}
    (htodo : r.todo = .bunpin x :: rest) :
    ∃ r₁ c₁, r.step c = some (r₁, c₁) ∧ r₁.todo = rest ∧ Alone c₁ r₁ := by
  have hruns := hr.runs
  rw [htodo] at hruns hp
  obtain ⟨blockno, hname⟩ := Option.ne_none_iff_exists'.mp hruns.1
  obtain ⟨b, hx, hblock⟩ := Option.map_eq_some_iff.mp hname
  have hmem : blockno ∈ unpins (r.names c) (.bunpin x :: rest) :=
    List.mem_append_left _ (Option.mem_toList.mpr hname)
  have hpin := hp.pos ⟨(hr.held x b hx).2, hblock⟩ hmem
  have hunpin : c.step (.bunpin b) = some ((c.unref b).setPins b (c.pins b - 1)) :=
    if_pos ⟨ha.panic, by omega⟩
  refine ⟨{ r with todo := rest }, (c.unref b).setPins b (c.pins b - 1), ?_, rfl,
    ⟨ha.panic, ha.pc, ha.lock⟩⟩
  rw [Committer.step, ha.pc]
  simp only [htodo, hx, hunpin, Option.bind_eq_bind, Option.bind_some]
  rfl

/-! ### `commit` to its end -/

omit [Fintype P] in
theorem step_commit (cfg : Log.Cfg) (hr : s.committer = some r) (hpanic : s.cache.panic = none)
    (hs : r.step s.cache = some (r', c)) :
    s.step cfg .commit = some { s with cache := c, committer := some r' } := by
  rw [Sys.step, if_neg (not_not.mpr hpanic), Sys.commitStep]
  simp only [hr]
  split
  · next hpc htodo =>
    rw [Committer.step, hpc, htodo] at hs
    cases hs
  · next hpc htodo =>
    rw [Committer.step, hpc, htodo] at hs
    cases hs
  · rw [hs]
    rfl

/-- The steps of the process in `commit` lead to its end, with an empty transaction and all buffers
released. -/
def Finishes (cfg : Log.Cfg) (s : Sys P) : Prop :=
  ∃ n u, run (Sys.step cfg) s (List.replicate n .commit) = some u ∧ u.committer = none ∧ u.lh = [] ∧
    u.cache.panic = none ∧ (∀ q, u.cache.pc q = .out) ∧ ∀ b, u.cache.lock b = none

omit [Fintype P] in
theorem Finishes.step (hs : s.step cfg .commit = some s') (h : Finishes cfg s') :
    Finishes cfg s := by
  obtain ⟨n, u, hrun, hu⟩ := h
  refine ⟨n + 1, u, ?_, hu⟩
  rw [List.replicate_succ]
  exact run_cons_eq_some.mpr ⟨s', hs, hrun⟩

/-- `commit` goes on to its end from each of its commands. -/
theorem commit_finishes (hsize : cfg.size = LOGSIZE) {todo : List Cmd} (hg : Good cfg s)
    (hr : s.committer = some r) (htodo : r.todo = todo) (ha : Alone s.cache r) :
    Finishes cfg s := by
  induction todo generalizing s r with
  | nil =>
    have hstep : s.step cfg .commit = some { s with committing := false, committer := none } := by
      rw [Sys.step, if_neg (not_not.mpr ha.panic), Sys.commitStep]
      simp only [hr, ha.pc, htodo]
    have hlh : s.lh = [] := by
      rcases (hg.running r hr).cleared with hlh | hmem
      · exact hlh
      · rw [htodo] at hmem
        cases hmem
    refine Finishes.step hstep ⟨0, _, rfl, rfl, hlh, ha.panic, ha.pc, ?_⟩
    intro b
    cases hb : s.cache.lock b with
    | none => rfl
    | some q =>
      obtain ⟨x, hx⟩ := ha.lock b q hb
      have hruns := (hg.running r hr).runs
      rw [htodo] at hruns
      have := hruns x
      rw [Committer.names, hx] at this
      cases this
  | cons cmd rest ih =>
    have hrun := hg.running r hr
    have hp := hg.pinned
    rw [pending_some hr] at hp
    cases cmd with
    | bread x blockno =>
      obtain ⟨c₁, r₂, c₂, hs₁, hpanic, hs₂, htodo₂, ha₂⟩ := ha.bread hg.cache hrun hp htodo
      have hstep₁ := step_commit cfg hr ha.panic hs₁
      have hstep₂ := step_commit (s := { s with cache := c₁, committer := some r }) cfg rfl hpanic
        hs₂
      have hg₂ := good_step hsize (good_step hsize hg hstep₁) hstep₂
      exact Finishes.step hstep₁ (Finishes.step hstep₂ (ih hg₂ rfl htodo₂ ha₂))
    | brelse x =>
      obtain ⟨r₁, c₁, c₂, hs₁, hpanic, hs₂, htodo₂, ha₂⟩ := ha.brelse hrun htodo
      have hstep₁ := step_commit cfg hr ha.panic hs₁
      have hstep₂ := step_commit (s := { s with cache := c₁, committer := some r₁ }) cfg rfl hpanic
        hs₂
      have hg₂ := good_step hsize (good_step hsize hg hstep₁) hstep₂
      exact Finishes.step hstep₁ (Finishes.step hstep₂ (ih hg₂ rfl htodo₂ ha₂))
    | bunpin x =>
      obtain ⟨r₁, c₁, hs₁, htodo₁, ha₁⟩ := ha.bunpin hrun hp htodo
      have hstep := step_commit cfg hr ha.panic hs₁
      exact Finishes.step hstep (ih (good_step hsize hg hstep) rfl htodo₁ ha₁)
    | clear =>
      have hstep : s.step cfg .commit =
          some { s with lh := [], committer := some { r with todo := rest } } := by
        rw [Sys.step, if_neg (not_not.mpr ha.panic), Sys.commitStep]
        simp only [hr, ha.pc, htodo]
      exact Finishes.step hstep
        (ih (good_step hsize hg hstep) rfl rfl ⟨ha.panic, ha.pc, ha.lock⟩)

/-- `commit` of the last operation runs to its end without a `panic` in `bget`, from every state in
which no process outside a transaction has a buffer, and all pins are taken back. -/
theorem commit_finds_buffers (hsize : cfg.size = LOGSIZE) {p : P}
    (h : Reaches (Sys.step cfg) Sys.init s) (hend : s.step cfg (.endOp p) = some s')
    (hlast : s'.outstanding = 0)
    (hquiet : ∀ q ∉ s'.ops, s'.cache.pc q = .out ∧ ∀ b, s'.cache.lock b ≠ some q) :
    ∃ n u, run (Sys.step cfg) s' (List.replicate n .commit) = some u ∧ u.committing = false ∧
      u.cache.panic = none ∧ u.lh = [] ∧ ∀ b, u.cache.pins b = 0 ∧ (u.cache.buf b).refcnt = 0 := by
  have hinv (s a t) (hs : Good cfg s) (hst : Sys.step cfg s a = some t) : Good cfg t :=
    good_step (P := P) hsize hs hst
  have hs : Good cfg s := h.invariant hinv good_init
  have hs' := hinv s _ s' hs hend
  have hnone : s'.ops = ∅ := Finset.card_eq_zero.mp (hs'.ops.symm.trans hlast)
  rw [hnone] at hquiet
  have hpc (q : P) := (hquiet q (Finset.notMem_empty q)).1
  have hlock (b : Bufno) : s'.cache.lock b = none := by
    cases hb : s'.cache.lock b with
    | none => rfl
    | some q => exact absurd hb ((hquiet q (Finset.notMem_empty q)).2 b)
  -- the process of the last operation is in `commit`
  have hcommit : s'.cache.panic = none ∧ ∃ r, s'.committer = some r := by
    unfold Sys.step at hend
    split at hend
    · cases hend
    · next hpanic =>
      obtain ⟨⟨-, hp⟩, rfl⟩ := Option.ite_none_right_eq_some.mp hend |>.imp_right Option.some.inj
      obtain ⟨hcom, -⟩ := hs.idle hp
      simp only [Sys.endOp, hcom, Bool.false_eq_true, if_false] at hlast ⊢
      split
      · exact ⟨not_not.mp hpanic, _, rfl⟩
      · next hmore =>
        rw [if_neg hmore] at hlast
        exact absurd hlast hmore
  obtain ⟨hpanic, r, hr⟩ := hcommit
  have halone : Alone s'.cache r := by
    refine ⟨hpanic, hpc, ?_⟩
    intro b q hb
    rw [hlock] at hb
    cases hb
  obtain ⟨n, u, hrun, hdone, hlh, hok, hout, hfree⟩ := commit_finishes hsize hs' hr rfl halone
  have hu : Good cfg u := Reaches.invariant hinv ⟨_, hrun⟩ hs'
  have hpins (b : Bufno) : u.cache.pins b = 0 := by
    rw [hu.pinned.pins, pending_none hdone, hlh, if_neg]
    rintro ⟨-, hm⟩
    cases hm
  refine ⟨n, u, hrun, ?_, hok, hlh, ?_⟩
  · rw [hu.busy, hdone]
    rfl
  · intro b
    refine ⟨hpins b, ?_⟩
    rw [hu.cache.count, refs_idle hout hfree]
    exact hpins b

/-- An operation logs block 50, up to its `end_op`. -/
def logBlock (b : Bufno) : List (Call Unit) :=
  [.beginOp (), .cache (.bget () ROOTDEV 50), .cache (.acquiresleep ()), .cache (.fill () b),
    .logWrite () b, .cache (.releasesleep () b), .cache (.brelse ())]

theorem commit_finds_buffers_one :
    ∃ s t : Sys Unit, run (Sys.step Log.mkfsCfg) Sys.init (logBlock ⟨0, by decide⟩) = some s ∧
      s.step Log.mkfsCfg (.endOp ()) = some t ∧ t.lh = [50] ∧
      ∃ n u, run (Sys.step Log.mkfsCfg) t (List.replicate n .commit) = some u ∧
        u.committing = false ∧ u.cache.panic = none ∧ u.lh = [] ∧
        ∀ b, u.cache.pins b = 0 ∧ (u.cache.buf b).refcnt = 0 := by
  have hruns : ((run (Sys.step Log.mkfsCfg) Sys.init (logBlock ⟨0, by decide⟩)).bind (fun s ↦
      s.step Log.mkfsCfg (.endOp ()))).any (fun t ↦ decide (t.lh = [50] ∧ t.outstanding = 0 ∧
        ∀ q ∉ t.ops, t.cache.pc q = .out ∧ ∀ b, t.cache.lock b ≠ some q)) = true := by
    decide +kernel
  obtain ⟨t, ht, hok⟩ := (Option.any_eq_true _ _).mp hruns
  obtain ⟨s, hs, hend⟩ := Option.bind_eq_some_iff.mp ht
  obtain ⟨hlh, hlast, hquiet⟩ := of_decide_eq_true hok
  exact ⟨s, t, hs, hend, hlh, commit_finds_buffers rfl ⟨_, hs⟩ hend hlast hquiet⟩

end Xv6.Bio
