import Xv6.Log.Disk
import Xv6.Log.History

/-!
# Crash atomicity

The invariant that ties the buffer cache and the progress of a commit or of a recovery to the
disk. Unpinned buffers that nobody is changing agree with the disk; the pinned ones hold the
current transaction. It holds across any number of crashes, so that a recovery that completes
leaves the abstract disk.
-/

namespace Xv6.Log

open Xv6.Lib

variable {P : Type}

/-- The loop that the process is in, or came from, is done with block `i`. -/
def Pos.Done (i : Nat) : Pos → Prop
  | .writeLog tail | .install tail => i < tail
  | .writeHead | .clearHead => True
  | _ => False

/-- The same for the loop of recovery. -/
def Mode.Done (i : Nat) : Mode → Prop
  | .recover tail => i < tail
  | .clear => True
  | _ => False

/-- The contents of the blocks as the running operations see them. -/
def State.view (home : Disk) (s : State P) : Disk := applyUpdates home s.cur

/-- The invariant of the cache and of a commit, when the machine is up. -/
structure Cached (c : Cfg) (home : Disk) (s : State P) : Prop where
  held : ∀ b, s.holder b ≠ none → s.cache b ≠ none
  dirty : ∀ b, s.dirty b = true → s.holder b ≠ none
  clean : ∀ b data, s.cache b = some data → s.dirty b = false → b ∉ s.lh → data = s.disk b
  room : s.lh.length ≤ c.size - 1 ∧ s.lh.length ≤ LOGSIZE
  homes : ∀ b ∈ s.lh, c.Home b
  pinned : (∀ p, s.phase p ≠ .installing) → ∀ b ∈ s.lh, 0 < s.pins b ∧
    (s.dirty b = false → s.cache b = some (s.view home b))
  emptyHead : (∀ p, s.phase p ≠ .installing) → decodeHead (s.disk c.start) = []
  logged : ∀ p, s.phase p = .logging → ∀ i b, (s.pos p).Done i → s.lh[i]? = some b →
    s.disk (c.start + i + 1) = s.view home b
  fullHead : ∀ p, s.phase p = .installing → decodeHead (s.disk c.start) = s.lh
  installed : ∀ p, s.phase p = .installing → ∀ i b, (s.pos p).Done i → s.lh[i]? = some b →
    s.disk b = home b ∧
      ∀ data, s.cache b = some data → s.dirty b = false → data = s.disk b

/-- The invariant of a recovery. -/
structure Recovering (c : Cfg) (home : Disk) (s : State P) : Prop where
  clean : ∀ b data, s.cache b = some data → data = s.disk b
  header : s.mode ≠ .readHead → s.lh = decodeHead (s.disk c.start)
  installed : ∀ i b, s.mode.Done i → s.lh[i]? = some b → s.disk b = home b

/-- The invariant of the log across crashes, for the abstract disk of the state. -/
structure CrashSafe (c : Cfg) (d : Disk) (s : State P) : Prop where
  onDisk : OnDisk c (applyTxns d s.past) s.disk
  up : s.mode = .up → Cached c (applyTxns d s.past) s
  boot : s.mode.Boots → Recovering c (applyTxns d s.past) s

section
variable {c : Cfg} {home : Disk} {s : State P}

theorem Cached.not_dirty (h : Cached c home s) {b : Nat} (hb : s.holder b = none) :
    s.dirty b = false := by
  cases hd : s.dirty b with
  | false => rfl
  | true => exact (h.dirty b hd hb).elim

/-- An unlocked buffer outside the transaction agrees with the disk. -/
theorem Cached.contents_eq (h : Cached c home s) {b : Nat} (hb : s.holder b = none)
    (hnot : b ∉ s.lh) : s.contents b = s.disk b := by
  unfold State.contents
  cases hc : s.cache b with
  | none => rfl
  | some data => exact h.clean b data hc (h.not_dirty hb) hnot

theorem Cached.ne_log (h : Cached c home s) {b b' : Nat} (hb : b ∈ s.lh) (hb' : c.InLog b') :
    b ≠ b' := by
  rintro rfl
  exact (h.homes b hb).2 hb'

/-- Changes of positions outside the loops of `commit`. -/
theorem Cached.move {t : State P} (h : Cached c home s) (hcache : t.cache = s.cache)
    (hholder : t.holder = s.holder) (hdirty : t.dirty = s.dirty) (hdisk : t.disk = s.disk)
    (hlh : t.lh = s.lh) (hpins : t.pins = s.pins) (hcur : t.cur = s.cur)
    (hlogging : ∀ p, t.phase p = .logging → (∀ i, ¬ (t.pos p).Done i) ∨ t.pos p = s.pos p)
    (hinst : ∀ p, t.phase p = .installing → t.pos p = s.pos p)
    (hkeep : ∀ p, s.phase p = .installing → t.phase p = .installing) : Cached c home t := by
  have hview : t.view home = s.view home := by rw [State.view, State.view, hcur]
  have hnone (hn : ∀ p, t.phase p ≠ .installing) (p : P) : s.phase p ≠ .installing :=
    fun hp ↦ hn p (hkeep p hp)
  have hphase {p : P} (hp : t.pos p = s.pos p) : t.phase p = s.phase p := by
    rw [State.phase, State.phase, hp]
  constructor
  · rw [hholder, hcache]
    exact h.held
  · rw [hholder, hdirty]
    exact h.dirty
  · rw [hcache, hdirty, hlh, hdisk]
    exact h.clean
  · rw [hlh]
    exact h.room
  · rw [hlh]
    exact h.homes
  · rw [hlh, hpins, hdirty, hcache, hview]
    exact fun hn ↦ h.pinned (hnone hn)
  · rw [hdisk]
    exact fun hn ↦ h.emptyHead (hnone hn)
  · intro p hp i b hd hb
    rw [hlh] at hb
    rw [hdisk, hview]
    rcases hlogging p hp with hno | hpos
    · exact (hno i hd).elim
    · rw [hpos] at hd
      exact h.logged p (hphase hpos ▸ hp) i b hd hb
  · intro p hp
    rw [hdisk, hlh]
    exact h.fullHead p (hphase (hinst p hp) ▸ hp)
  · intro p hp i b hd hb
    rw [hlh] at hb
    rw [hinst p hp] at hd
    rw [hdisk, hcache, hdirty]
    exact h.installed p (hphase (hinst p hp) ▸ hp) i b hd hb

/-! ### Uses of a buffer -/

/-- `bread` of an unlocked buffer. -/
theorem cached_bread (h : Cached c home s) (p : P) {b : Nat} (hb : s.holder b = none) :
    Cached c home (s.bread p b) := by
  have hnot := h.not_dirty hb
  -- the buffer that is found, or filled from the disk
  have hcache {b' : Nat} {data : Block} (hd : (s.bread p b).cache b' = some data) :
      s.cache b' = some data ∨ b' = b ∧ s.cache b = none ∧ data = s.disk b := by
    change Function.update s.cache b (some (s.contents b)) b' = some data at hd
    by_cases hbb : b' = b
    · subst hbb
      rw [Function.update_self, Option.some.injEq] at hd
      cases hc : s.cache b' with
      | none =>
        rw [State.contents, hc] at hd
        exact Or.inr ⟨rfl, rfl, hd.symm⟩
      | some data' =>
        rw [State.contents, hc] at hd
        exact Or.inl (by rw [← hd]; rfl)
    · rw [Function.update_of_ne hbb] at hd
      exact Or.inl hd
  have hkeep {b' : Nat} {data : Block} (hd : s.cache b' = some data) :
      (s.bread p b).cache b' = some data := by
    change Function.update s.cache b (some (s.contents b)) b' = some data
    by_cases hbb : b' = b
    · subst hbb
      rw [Function.update_self, State.contents, hd]
      rfl
    · rw [Function.update_of_ne hbb]
      exact hd
  refine { h with held := ?_, dirty := ?_, clean := ?_, pinned := ?_, installed := ?_ }
  · intro b' hb'
    change Function.update s.holder b (some p) b' ≠ none at hb'
    change Function.update s.cache b (some (s.contents b)) b' ≠ none
    by_cases hbb : b' = b
    · simp [hbb]
    · rw [Function.update_of_ne hbb] at hb' ⊢
      exact h.held b' hb'
  · intro b' hd
    change Function.update s.holder b (some p) b' ≠ none
    by_cases hbb : b' = b
    · simp [hbb]
    · rw [Function.update_of_ne hbb]
      exact h.dirty b' hd
  · intro b' data hc hd hlh
    rcases hcache hc with hc | ⟨rfl, -, rfl⟩
    · exact h.clean b' data hc hd hlh
    · rfl
  · intro hn b' hb'
    obtain ⟨hpin, hdata⟩ := h.pinned hn b' hb'
    exact ⟨hpin, fun hd ↦ hkeep (hdata hd)⟩
  · intro q hq i b' hi hib
    obtain ⟨hhome, hdata⟩ := h.installed q hq i b' hi hib
    refine ⟨hhome, ?_⟩
    intro data hc hd
    rcases hcache hc with hc | ⟨rfl, -, rfl⟩
    · exact hdata data hc hd
    · rfl

/-- The holder changes a buffer. -/
theorem cached_store (h : Cached c home s) {b : Nat} (data : Block) (hb : s.holder b ≠ none) :
    Cached c home (s.store b data) := by
  have hdirty {b' : Nat} (hd : (s.store b data).dirty b' = false) :
      b' ≠ b ∧ s.dirty b' = false := by
    change Function.update s.dirty b true b' = false at hd
    by_cases hbb : b' = b
    · simp [hbb] at hd
    · rw [Function.update_of_ne hbb] at hd
      exact ⟨hbb, hd⟩
  have hcache {b' : Nat} (hbb : b' ≠ b) : (s.store b data).cache b' = s.cache b' :=
    Function.update_of_ne hbb _ _
  refine { h with held := ?_, dirty := ?_, clean := ?_, pinned := ?_, installed := ?_ }
  · intro b' hb'
    by_cases hbb : b' = b
    · simp [State.store, hbb]
    · rw [hcache hbb]
      exact h.held b' hb'
  · intro b' hd
    by_cases hbb : b' = b
    · rw [hbb]
      exact hb
    · apply h.dirty b'
      change Function.update s.dirty b true b' = true at hd
      rw [Function.update_of_ne hbb] at hd
      exact hd
  · intro b' data' hc hd hlh
    obtain ⟨hbb, hd⟩ := hdirty hd
    rw [hcache hbb] at hc
    exact h.clean b' data' hc hd hlh
  · intro hn b' hb'
    obtain ⟨hpin, hdata⟩ := h.pinned hn b' hb'
    refine ⟨hpin, ?_⟩
    intro hd
    obtain ⟨hbb, hd⟩ := hdirty hd
    rw [hcache hbb]
    exact hdata hd
  · intro q hq i b' hi hib
    obtain ⟨hhome, hdata⟩ := h.installed q hq i b' hi hib
    refine ⟨hhome, ?_⟩
    intro data' hc hd
    obtain ⟨hbb, hd⟩ := hdirty hd
    rw [hcache hbb] at hc
    exact hdata data' hc hd

/-- `brelse` of a buffer whose changes were logged. -/
theorem cached_brelse (h : Cached c home s) {b : Nat} (hclean : s.dirty b = false) :
    Cached c home (s.brelse b) := by
  refine { h with held := ?_, dirty := ?_ }
  · intro b' hb'
    apply h.held b'
    intro hnone
    apply hb'
    change Function.update s.holder b none b' = none
    by_cases hbb : b' = b
    · rw [hbb, Function.update_self]
    · rw [Function.update_of_ne hbb]
      exact hnone
  · intro b' hd
    have hbb : b' ≠ b := by
      rintro rfl
      change s.dirty b' = true at hd
      rw [hclean] at hd
      cases hd
    change Function.update s.holder b none b' ≠ none
    rw [Function.update_of_ne hbb]
    exact h.dirty b' hd

/-- The cache drops a buffer that is neither locked nor pinned. -/
theorem cached_evict (h : Cached c home s) {b : Nat} (hpins : s.pins b = 0)
    (hb : s.holder b = none) : Cached c home (s.evict b) := by
  have hcache {b' : Nat} {data : Block} (hd : (s.evict b).cache b' = some data) :
      s.cache b' = some data := by
    change Function.update s.cache b none b' = some data at hd
    by_cases hbb : b' = b
    · simp [hbb] at hd
    · rw [Function.update_of_ne hbb] at hd
      exact hd
  refine { h with held := ?_, clean := ?_, pinned := ?_, installed := ?_ }
  · intro b' hb'
    have hbb : b' ≠ b := by
      rintro rfl
      exact hb' hb
    change Function.update s.cache b none b' ≠ none
    rw [Function.update_of_ne hbb]
    exact h.held b' hb'
  · exact fun b' data hc hd hlh ↦ h.clean b' data (hcache hc) hd hlh
  · intro hn b' hb'
    obtain ⟨hpin, hdata⟩ := h.pinned hn b' hb'
    have hbb : b' ≠ b := by
      rintro rfl
      omega
    refine ⟨hpin, ?_⟩
    change s.dirty b' = false → Function.update s.cache b none b' = _
    rw [Function.update_of_ne hbb]
    exact hdata
  · intro q hq i b' hi hib
    obtain ⟨hhome, hdata⟩ := h.installed q hq i b' hi hib
    exact ⟨hhome, fun data hc hd ↦ hdata data (hcache hc) hd⟩

end

section
variable [Fintype P] {c : Cfg} {home : Disk} {s : State P}

/-- `log_write` of a home block by the holder of its buffer. -/
theorem cached_record (hs : Ops s) (h : Cached c home s) {p : P} {b : Nat}
    (hp : s.phase p = .running) (hb : s.holder b ≠ none) (hhome : c.Home b)
    (hroom : ¬ (s.lh.length ≥ LOGSIZE ∨ s.lh.length ≥ c.size - 1)) :
    Cached c home (s.record p b) := by
  have hnot := hs.not_commits (hs.not_committing hp)
  have hnone (q : P) : s.phase q ≠ .installing := fun hq ↦ hnot q (Or.inr (Or.inl hq))
  obtain ⟨hcache, hholder, hdisk, hphase⟩ : (s.record p b).cache = s.cache ∧
      (s.record p b).holder = s.holder ∧ (s.record p b).disk = s.disk ∧
      (s.record p b).phase = s.phase := by
    unfold State.record
    dsimp only
    split <;> exact ⟨rfl, rfl, rfl, rfl⟩
  have hdirty : (s.record p b).dirty = Function.update s.dirty b false := by
    unfold State.record
    dsimp only
    split <;> rfl
  have hview : (s.record p b).view home = Function.update (s.view home) b (s.contents b) := by
    rw [State.view, cur_record, applyUpdates_append]
    rfl
  have hcontents : s.cache b = some (s.contents b) := by
    cases hc : s.cache b with
    | none => exact (h.held b hb hc).elim
    | some data => simp [State.contents, hc]
  have hlen : (s.record p b).lh.length ≤ s.lh.length + 1 := by
    rw [lh_record]
    split
    · omega
    · simp
  constructor
  · rw [hholder, hcache]
    exact h.held
  · intro b' hd
    rw [hholder]
    rw [hdirty] at hd
    by_cases hbb : b' = b
    · rw [hbb]
      exact hb
    · rw [Function.update_of_ne hbb] at hd
      exact h.dirty b' hd
  · intro b' data hc hd hlh
    rw [mem_lh_record, not_or] at hlh
    rw [hcache] at hc
    rw [hdirty, Function.update_of_ne hlh.2] at hd
    rw [hdisk]
    exact h.clean b' data hc hd hlh.1
  · omega
  · intro b' hb'
    rcases (mem_lh_record s p b b').mp hb' with hb' | rfl
    · exact h.homes b' hb'
    · exact hhome
  · intro _ b' hb'
    have hpins : 0 < (s.record p b).pins b' := by
      unfold State.record
      dsimp only
      split
      · next hmem =>
        rcases (mem_lh_record s p b b').mp hb' with hb' | rfl
        · exact (h.pinned hnone b' hb').1
        · exact (h.pinned hnone b' hmem).1
      · change 0 < Function.update s.pins b (s.pins b + 1) b'
        by_cases hbb : b' = b
        · rw [hbb, Function.update_self]
          omega
        · rw [Function.update_of_ne hbb]
          rcases (mem_lh_record s p b b').mp hb' with hb' | hbb'
          · exact (h.pinned hnone b' hb').1
          · exact (hbb hbb').elim
    refine ⟨hpins, ?_⟩
    intro hd
    rw [hcache, hview]
    by_cases hbb : b' = b
    · rw [hbb, Function.update_self]
      exact hcontents
    · rw [Function.update_of_ne hbb]
      rw [hdirty, Function.update_of_ne hbb] at hd
      rcases (mem_lh_record s p b b').mp hb' with hb' | hbb'
      · exact (h.pinned hnone b' hb').2 hd
      · exact (hbb hbb').elim
  · intro _
    rw [hdisk]
    exact h.emptyHead hnone
  · rw [hphase]
    exact fun q hq ↦ (hnot q (Or.inl hq)).elim
  · rw [hphase]
    exact fun q hq ↦ (hnone q hq).elim
  · rw [hphase]
    exact fun q hq ↦ (hnone q hq).elim

end

/-! ### The steps of `commit` -/

section
variable [Fintype P] [DecidableEq P] {c : Cfg} {home : Disk} {s : State P} {p : P}

/-- `write_log` copies one pinned buffer to its place in the log. -/
theorem crashSafe_copy (hs : Ops s) (hd : OnDisk c home s.disk) (h : Cached c home s)
    {tail b : Nat} (hpos : s.pos p = .writeLog tail) (hb : s.lh[tail]? = some b)
    (hhome : s.holder b = none) :
    OnDisk c home (State.goto p (.writeLog (tail + 1)) (s.writeLog c tail b)).disk ∧
      Cached c home (State.goto p (.writeLog (tail + 1)) (s.writeLog c tail b)) := by
  have hp : s.phase p = .logging := by rw [State.phase, hpos]; rfl
  have hnone (q : P) : s.phase q ≠ .installing := by
    intro hq
    have hqp := hs.alone q p (Or.inr (Or.inl hq)) (Or.inl hp)
    rw [hqp, hp] at hq
    cases hq
  have hmem : b ∈ s.lh := List.mem_of_getElem? hb
  have hlog : c.InLog (c.start + tail + 1) := OnDisk.copy_inLog h.room.1 hb
  have hcontents : s.contents b = s.view home b := by
    rw [State.contents, (h.pinned hnone b hmem).2 (h.not_dirty hhome)]
    rfl
  generalize ht : State.goto p (.writeLog (tail + 1)) (s.writeLog c tail b) = t
  have hdisk : t.disk = Function.update s.disk (c.start + tail + 1) (s.view home b) := by
    rw [← ht, ← hcontents]
    rfl
  have hcache (b' : Nat) : t.cache b' = if b' = c.start + tail + 1 then some (s.view home b)
      else if b' = b then some (s.view home b) else s.cache b' := by
    rw [← ht, ← hcontents]
    simp only [State.goto, State.writeLog, State.bwrite, State.setCache, Function.update_apply]
  have hphase (q : P) : t.phase q = s.phase q := by
    rw [← ht, phase_goto]
    split
    · next hq => rw [hq, hp]; rfl
    · rfl
  obtain ⟨hholder, hdirty, hlh, hpins, hcur⟩ : t.holder = s.holder ∧ t.dirty = s.dirty ∧
      t.lh = s.lh ∧ t.pins = s.pins ∧ t.cur = s.cur := by
    rw [← ht]
    exact ⟨rfl, rfl, rfl, rfl, rfl⟩
  have hview : t.view home = s.view home := by rw [State.view, State.view, hcur]
  have hposp : t.pos p = .writeLog (tail + 1) := by rw [← ht]; exact Function.update_self _ _ _
  constructor
  · rw [hdisk]
    exact hd.write_log (h.emptyHead hnone) hlog (by omega) _
  constructor
  · intro b' hb'
    rw [hcache]
    split
    · simp
    · split
      · simp
      · exact h.held b' (hholder ▸ hb')
  · rw [hdirty, hholder]
    exact h.dirty
  · intro b' data hc hd' hnot
    rw [hcache] at hc
    rw [hdisk]
    split at hc
    · next hbb =>
      rw [hbb, Function.update_self]
      exact (Option.some.inj hc).symm
    · next hbb =>
      rw [Function.update_of_ne hbb]
      rw [hlh] at hnot
      rw [if_neg (by rintro rfl; exact hnot hmem)] at hc
      exact h.clean b' data hc (hdirty ▸ hd') hnot
  · rw [hlh]
    exact h.room
  · rw [hlh]
    exact h.homes
  · intro _ b' hb'
    rw [hlh] at hb'
    obtain ⟨hpin, hdata⟩ := h.pinned hnone b' hb'
    rw [hpins, hdirty, hview, hcache, if_neg (h.ne_log hb' hlog)]
    refine ⟨hpin, ?_⟩
    intro hd'
    split
    · next hbb => rw [hbb]
    · exact hdata hd'
  · intro _
    rw [hdisk, Function.update_of_ne (by omega)]
    exact h.emptyHead hnone
  · intro q hq i b' hi hib
    rw [hphase] at hq
    have hqp := hs.alone q p (Or.inl hq) (Or.inl hp)
    rw [hqp, hposp] at hi
    rw [hlh] at hib
    rw [hdisk, hview]
    by_cases hit : i = tail
    · subst hit
      rw [hib, Option.some.injEq] at hb
      rw [Function.update_self, hb]
    · rw [Function.update_of_ne (by omega)]
      apply h.logged p hp i b' _ hib
      rw [hpos]
      change i < tail + 1 at hi
      change i < tail
      omega
  · intro q hq
    exact (hnone q (hphase q ▸ hq)).elim
  · intro q hq
    exact (hnone q (hphase q ▸ hq)).elim

/-- `write_head` commits the transaction. -/
theorem crashSafe_head (hs : Ops s) (hd : OnDisk c home s.disk) (h : Cached c home s)
    (hpos : s.pos p = .writeHead) :
    OnDisk c (s.view home)
        (State.goto p (.install 0) (State.endTxn true (s.writeHead c))).disk ∧
      Cached c (s.view home) (State.goto p (.install 0) (State.endTxn true (s.writeHead c))) := by
  have hp : s.phase p = .logging := by rw [State.phase, hpos]; rfl
  have hnone (q : P) : s.phase q ≠ .installing := by
    intro hq
    have hqp := hs.alone q p (Or.inr (Or.inl hq)) (Or.inl hp)
    rw [hqp, hp] at hq
    cases hq
  generalize ht : State.goto p (.install 0) (State.endTxn true (s.writeHead c)) = t
  have hdisk : t.disk = Function.update s.disk c.start (encodeHead (s.contents c.start) s.lh) := by
    rw [← ht]
    rfl
  have hcache : t.cache =
      Function.update s.cache c.start (some (encodeHead (s.contents c.start) s.lh)) := by
    rw [← ht]
    rfl
  obtain ⟨hholder, hdirty, hlh, hcur⟩ : t.holder = s.holder ∧ t.dirty = s.dirty ∧
      t.lh = s.lh ∧ t.cur = [] := by
    rw [← ht]
    exact ⟨rfl, rfl, rfl, rfl⟩
  have hposp : t.pos p = .install 0 := by rw [← ht]; exact Function.update_self _ _ _
  have hself : t.phase p = .installing := by rw [State.phase, hposp]; rfl
  have hcommits {q : P} (hq : t.phase q = .logging ∨ t.phase q = .installing) : q = p := by
    by_contra hqp
    have hsame : t.phase q = s.phase q := by
      rw [← ht, phase_goto, if_neg hqp]
      rfl
    rw [hsame] at hq
    rcases hq with hq | hq
    · exact hqp (hs.alone q p (Or.inl hq) (Or.inl hp))
    · exact hnone q hq
  have hhead : decodeHead (encodeHead (s.contents c.start) s.lh) = s.lh := by
    apply decodeHead_encodeHead
    · have := h.room.2
      simp only [LOGSIZE, MAXOPBLOCKS] at this
      omega
    · exact fun b hb ↦ (h.homes b hb).1
  constructor
  · rw [hdisk]
    refine hd.commit (h.emptyHead hnone) _ hhead h.room.1 h.homes ?_ ?_
    · exact fun i b hib ↦ h.logged p hp i b (by rw [hpos]; trivial) hib
    · intro b hb
      apply applyUpdates_of_notMem
      intro hmem
      exact hb ((hs.logged hnone b).mpr hmem)
  constructor
  · intro b hb
    rw [hcache]
    by_cases hbs : b = c.start
    · simp [hbs]
    · rw [Function.update_of_ne hbs]
      exact h.held b (hholder ▸ hb)
  · rw [hdirty, hholder]
    exact h.dirty
  · intro b data hc hd' hnot
    rw [hcache] at hc
    rw [hdisk]
    by_cases hbs : b = c.start
    · rw [hbs, Function.update_self] at hc ⊢
      exact (Option.some.inj hc).symm
    · rw [Function.update_of_ne hbs] at hc ⊢
      exact h.clean b data hc (hdirty ▸ hd') (hlh ▸ hnot)
  · rw [hlh]
    exact h.room
  · rw [hlh]
    exact h.homes
  · exact fun hn ↦ (hn p hself).elim
  · exact fun hn ↦ (hn p hself).elim
  · intro q hq
    rw [hcommits (Or.inl hq), hself] at hq
    cases hq
  · intro q _
    rw [hdisk, Function.update_self, hlh]
    exact hhead
  · intro q hq i b hi
    rw [hcommits (Or.inr hq), hposp] at hi
    exact (Nat.not_lt_zero i hi).elim

/-- `install_trans` copies one block of the log to its home. -/
theorem crashSafe_install (hs : Ops s) (hd : OnDisk c home s.disk) (h : Cached c home s)
    {tail b : Nat} (hpos : s.pos p = .install tail) (hb : s.lh[tail]? = some b)
    (hlog : s.holder (c.start + tail + 1) = none) :
    OnDisk c home (State.goto p (.install (tail + 1)) (s.installTrans c false tail b)).disk ∧
      Cached c home (State.goto p (.install (tail + 1)) (s.installTrans c false tail b)) := by
  have hp : s.phase p = .installing := by rw [State.phase, hpos]; rfl
  have hhead := h.fullHead p hp
  have hmem : b ∈ s.lh := List.mem_of_getElem? hb
  have hinlog : c.InLog (c.start + tail + 1) := OnDisk.copy_inLog h.room.1 hb
  have hnotmem : c.start + tail + 1 ∉ s.lh := fun hm ↦ h.ne_log hm hinlog rfl
  have hcontents : s.contents (c.start + tail + 1) = home b := by
    rw [h.contents_eq hlog hnotmem]
    exact hd.copies tail b (hhead ▸ hb)
  generalize ht : State.goto p (.install (tail + 1)) (s.installTrans c false tail b) = t
  have hdisk : t.disk = Function.update s.disk b (home b) := by
    rw [← ht, ← hcontents]
    rfl
  have hcache (b' : Nat) : t.cache b' = if b' = b then some (home b)
      else if b' = c.start + tail + 1 then some (home b) else s.cache b' := by
    rw [← ht, ← hcontents]
    simp only [State.goto, State.installTrans, State.bwrite, State.setCache,
      Bool.false_eq_true, if_false, Function.update_apply]
  have hphase (q : P) : t.phase q = s.phase q := by
    rw [← ht, phase_goto]
    split
    · next hq => rw [hq, hp]; rfl
    · rfl
  obtain ⟨hholder, hdirty, hlh, hcur⟩ : t.holder = s.holder ∧ t.dirty = s.dirty ∧
      t.lh = s.lh ∧ t.cur = s.cur := by
    rw [← ht]
    exact ⟨rfl, rfl, rfl, rfl⟩
  have hposp : t.pos p = .install (tail + 1) := by rw [← ht]; exact Function.update_self _ _ _
  have hcommits {q : P} (hq : t.phase q = .logging ∨ t.phase q = .installing) : q = p := by
    rw [hphase] at hq
    apply hs.alone q p _ (Or.inr (Or.inl hp))
    rcases hq with hq | hq
    · exact Or.inl hq
    · exact Or.inr (Or.inl hq)
  have hself : t.phase p = .installing := by rw [hphase, hp]
  constructor
  · rw [hdisk]
    exact hd.install (hhead ▸ hmem)
  constructor
  · intro b' hb'
    rw [hcache]
    split
    · simp
    · split
      · simp
      · exact h.held b' (hholder ▸ hb')
  · rw [hdirty, hholder]
    exact h.dirty
  · intro b' data hc hd' hnot
    rw [hlh] at hnot
    have hbb : b' ≠ b := by
      rintro rfl
      exact hnot hmem
    rw [hcache, if_neg hbb] at hc
    rw [hdisk, Function.update_of_ne hbb]
    split at hc
    · next hbl =>
      rw [← Option.some.inj hc, ← hcontents, hbl]
      exact h.contents_eq hlog hnotmem
    · exact h.clean b' data hc (hdirty ▸ hd') hnot
  · rw [hlh]
    exact h.room
  · rw [hlh]
    exact h.homes
  · exact fun hn ↦ (hn p hself).elim
  · exact fun hn ↦ (hn p hself).elim
  · intro q hq
    rw [hcommits (Or.inl hq), hself] at hq
    cases hq
  · intro q _
    rw [hdisk, Function.update_of_ne (h.ne_log hmem (OnDisk.start_inLog c)).symm, hlh]
    exact hhead
  · intro q hq i b' hi hib
    rw [hcommits (Or.inr hq), hposp] at hi
    rw [hlh] at hib
    rw [hdisk]
    by_cases hbb : b' = b
    · subst hbb
      rw [Function.update_self]
      refine ⟨rfl, ?_⟩
      intro data hc _
      rw [hcache, if_pos rfl] at hc
      exact (Option.some.inj hc).symm
    · have hit : i ≠ tail := by
        rintro rfl
        rw [hib, Option.some.injEq] at hb
        exact hbb hb
      have hdone : (s.pos p).Done i := by
        rw [hpos]
        change i < tail + 1 at hi
        change i < tail
        omega
      obtain ⟨hhome, hdata⟩ := h.installed p hp i b' hdone hib
      have hbl : b' ≠ c.start + tail + 1 := h.ne_log (List.mem_of_getElem? hib) hinlog
      rw [Function.update_of_ne hbb, hcache, if_neg hbb, if_neg hbl, hdirty]
      exact ⟨hhome, hdata⟩

/-- The second `write_head` erases the transaction. -/
theorem crashSafe_clear (hs : Ops s) (hd : OnDisk c home s.disk) (h : Cached c home s)
    (hpos : s.pos p = .clearHead) :
    OnDisk c home (State.goto p .endCommit (State.writeHead c { s with lh := [] })).disk ∧
      Cached c home (State.goto p .endCommit (State.writeHead c { s with lh := [] })) := by
  have hp : s.phase p = .installing := by rw [State.phase, hpos]; rfl
  have hinst {b : Nat} (hb : b ∈ s.lh) : s.disk b = home b ∧
      ∀ data, s.cache b = some data → s.dirty b = false → data = s.disk b := by
    obtain ⟨i, hi⟩ := List.mem_iff_getElem?.mp hb
    exact h.installed p hp i b (by rw [hpos]; trivial) hi
  generalize ht : State.goto p .endCommit (State.writeHead c { s with lh := [] }) = t
  have hdisk : t.disk = Function.update s.disk c.start (encodeHead (s.contents c.start) []) := by
    rw [← ht]
    rfl
  have hcache : t.cache =
      Function.update s.cache c.start (some (encodeHead (s.contents c.start) [])) := by
    rw [← ht]
    rfl
  obtain ⟨hholder, hdirty, hlh⟩ : t.holder = s.holder ∧ t.dirty = s.dirty ∧ t.lh = [] := by
    rw [← ht]
    exact ⟨rfl, rfl, rfl⟩
  have hnone {q : P} (hq : t.phase q = .logging ∨ t.phase q = .installing) : False := by
    rw [← ht, phase_goto] at hq
    split at hq
    · simp [Pos.phase] at hq
    · next hqp =>
      apply hqp
      apply hs.alone q p _ (Or.inr (Or.inl hp))
      rcases hq with hq | hq
      · exact Or.inl hq
      · exact Or.inr (Or.inl hq)
  constructor
  · rw [hdisk]
    refine hd.clear _ (decodeHead_empty _) ?_
    rw [h.fullHead p hp]
    exact fun b hb ↦ (hinst hb).1
  constructor
  · intro b hb
    rw [hcache]
    by_cases hbs : b = c.start
    · simp [hbs]
    · rw [Function.update_of_ne hbs]
      exact h.held b (hholder ▸ hb)
  · rw [hdirty, hholder]
    exact h.dirty
  · intro b data hc hd' _
    rw [hcache] at hc
    rw [hdirty] at hd'
    rw [hdisk]
    by_cases hbs : b = c.start
    · rw [hbs, Function.update_self] at hc ⊢
      exact (Option.some.inj hc).symm
    · rw [Function.update_of_ne hbs] at hc ⊢
      by_cases hmem : b ∈ s.lh
      · exact (hinst hmem).2 data hc hd'
      · exact h.clean b data hc hd' hmem
  · rw [hlh]
    exact ⟨Nat.zero_le _, Nat.zero_le _⟩
  · rw [hlh]
    exact fun b hb ↦ (by cases hb)
  · rw [hlh]
    exact fun _ b hb ↦ (by cases hb)
  · intro _
    rw [hdisk, Function.update_self]
    exact decodeHead_empty _
  · exact fun q hq ↦ (hnone (Or.inl hq)).elim
  · exact fun q hq ↦ (hnone (Or.inr hq)).elim
  · exact fun q hq ↦ (hnone (Or.inr hq)).elim

omit [Fintype P] in
/-- The end of a loop of `commit`, when its counter has passed the last block. -/
theorem cached_endLoop (h : Cached c home s) {pos : Pos} (hphase : pos.phase = s.phase p)
    (hdone : ∀ i b, s.lh[i]? = some b → (s.pos p).Done i) : Cached c home (s.goto p pos) := by
  have hsame := phase_goto_same s hphase
  refine { h with pinned := ?_, emptyHead := ?_, logged := ?_, fullHead := ?_, installed := ?_ }
  · exact fun hn ↦ h.pinned (fun q ↦ hsame q ▸ hn q)
  · exact fun hn ↦ h.emptyHead (fun q ↦ hsame q ▸ hn q)
  · intro q hq i b hi hib
    rw [hsame] at hq
    refine h.logged q hq i b ?_ hib
    by_cases hqp : q = p
    · rw [hqp]
      exact hdone i b hib
    · rw [State.goto] at hi
      dsimp only at hi
      rw [Function.update_of_ne hqp] at hi
      exact hi
  · intro q hq
    exact h.fullHead q (hsame q ▸ hq)
  · intro q hq i b hi hib
    rw [hsame] at hq
    refine h.installed q hq i b ?_ hib
    by_cases hqp : q = p
    · rw [hqp]
      exact hdone i b hib
    · rw [State.goto] at hi
      dsimp only at hi
      rw [Function.update_of_ne hqp] at hi
      exact hi

end

end Xv6.Log
