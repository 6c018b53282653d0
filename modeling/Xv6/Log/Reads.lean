import Xv6.Log.Protocol

/-!
# Reads see the latest contents

The machine between two crashes, with processes that may also `bwrite` a buffer they hold. The
newest contents of a block are what a process last logged or wrote, or what recovery found. They
are in the block's buffer, and on the disk as well unless the buffer is pinned, so that the cache
can drop any other buffer. `install_trans` writes back what `write_log` copied, and so an older
version of a block that somebody else wrote in between.
-/

namespace Xv6.Log

open Xv6.Lib

/-- A step of the machine without a crash, or `bwrite` by the holder of a buffer. -/
inductive Call (P : Type) where
  | act (a : Act P)
  | bwrite (p : P) (b : Nat)

/-- What the last `log_write` or `bwrite` of a process stored in each block, if there was one. -/
abbrev Stored := Nat → Option Block

/-- The disk `d` when the blocks `lh` of a transaction, of which the first is in block `i` of the
log, are copied home one after the other. -/
def replay (c : Cfg) : Nat → List Nat → Disk → Disk
  | _, [], d => d
  | i, b :: lh, d => replay c (i + 1) lh (Function.update d b (d (c.start + i + 1)))

variable {P : Type}

section
variable [DecidableEq P]

/-- What a process stores by a step from `s` to `t`. -/
def Stored.record (g : Stored) (s t : State P) : Call P → Stored
  | .act (.logWrite _ b) => if t.mode = .up then Function.update g b (some (s.contents b)) else g
  | .bwrite _ b => Function.update g b (some (s.contents b))
  | _ => g

end

/-- The blocks of the transaction that are still pinned. -/
def Pos.pinned (lh : List Nat) : Pos → List Nat
  | .install tail => lh.drop tail
  | .clearHead => []
  | _ => lh

/-- Block `i` of the transaction is in the log and not yet installed. -/
def Pos.Copied (i : Nat) : Pos → Prop
  | .writeLog tail => i < tail
  | .writeHead => True
  | .install tail => tail ≤ i
  | _ => False

instance Pos.Copied.decidable (i : Nat) : ∀ pos : Pos, Decidable (pos.Copied i)
  | .writeLog tail => inferInstanceAs (Decidable (i < tail))
  | .install tail => inferInstanceAs (Decidable (tail ≤ i))
  | .writeHead => isTrue True.intro
  | .idle | .sleeping | .woken | .inOp | .clearHead | .endCommit => isFalse id

/-- Block `b` is one of the transaction, or its copy in the log, since `write_log` copied it and
until `install_trans` has copied it back. -/
def State.InFlight (c : Cfg) (s : State P) (b : Nat) : Prop :=
  ∃ p, ∃ i : Fin s.lh.length, (s.pos p).Copied i ∧ (b = s.lh.get i ∨ b = c.start + i + 1)

instance State.InFlight.decidable [Fintype P] (c : Cfg) (s : State P) (b : Nat) :
    Decidable (s.InFlight c b) :=
  inferInstanceAs (Decidable (∃ p, ∃ i : Fin s.lh.length,
    (s.pos p).Copied i ∧ (b = s.lh.get i ∨ b = c.start + i + 1)))

/-- No process writes a block that the commit is about to install. -/
def Call.Ok (c : Cfg) (s : State P) : Call P → Prop
  | .act _ => True
  | .bwrite _ b => ¬ s.InFlight c b

instance Call.Ok.decidable [Fintype P] (c : Cfg) (s : State P) :
    ∀ a : Call P, Decidable (a.Ok c s)
  | .act _ => isTrue True.intro
  | .bwrite _ b => inferInstanceAs (Decidable (¬ s.InFlight c b))

/-- A buffer, its block on the disk and what was stored last in it. -/
structure BufferOk (home : Prop) (cache : Option Block) (locked changed : Bool) (disk last : Block)
    (pins : Nat) : Prop where
  held : locked = true → cache ≠ none
  dirty : changed = true → locked = true
  pinned : 0 < pins → cache ≠ none
  cached : ∀ data, home → cache = some data → changed = false → data = last
  stored : home → pins = 0 → disk = last
  other : ∀ data, ¬ home → cache = some data → changed = false → data = disk

/-- All of them. -/
def Buffers (c : Cfg) (last : Disk) (s : State P) : Prop :=
  ∀ b, BufferOk (c.Home b) (s.cache b) (s.holder b).isSome (s.dirty b) (s.disk b) (last b)
    (s.pins b)

/-- The transaction: its blocks, which of them are pinned, and their copies in the log. -/
structure Txned (c : Cfg) (last : Disk) (s : State P) : Prop where
  room : s.lh.length ≤ c.size - 1
  homes : ∀ b ∈ s.lh, c.Home b
  pins : (∀ p, s.phase p ≠ .installing) → ∀ b, s.pins b = if b ∈ s.lh then 1 else 0
  unpins : ∀ p, s.phase p = .installing → ∀ b, s.pins b = if b ∈ (s.pos p).pinned s.lh then 1 else 0
  copies : ∀ p i b, (s.pos p).Copied i → s.lh[i]? = some b → s.disk (c.start + i + 1) = last b

/-! ### One buffer -/

namespace BufferOk
variable {home : Prop} {cache : Option Block} {locked changed : Bool} {disk last : Block}
  {pins : Nat}

/-- What `bread` of a home block returns. -/
theorem contents_home (h : BufferOk home cache locked false disk last pins) (hhome : home) :
    cache.getD disk = last := by
  cases cache with
  | some data => exact h.cached data hhome rfl rfl
  | none =>
    apply h.stored hhome
    apply Nat.eq_zero_of_not_pos
    exact fun hp ↦ h.pinned hp rfl

/-- What it returns of any other block. -/
theorem contents_other (h : BufferOk home cache locked false disk last pins) (hhome : ¬ home) :
    cache.getD disk = disk := by
  cases cache with
  | some data => exact h.other data hhome rfl rfl
  | none => rfl

/-- The buffer is filled, and may be locked. -/
theorem filled (h : BufferOk home cache locked false disk last pins) (locked' : Bool) :
    BufferOk home (some (cache.getD disk)) locked' false disk last pins := by
  refine ⟨fun _ ↦ Option.some_ne_none _, fun hd ↦ (nomatch hd), fun _ ↦ Option.some_ne_none _, ?_,
    h.stored, ?_⟩
  · intro data hhome hdata _
    rw [← Option.some.inj hdata]
    exact h.contents_home hhome
  · intro data hhome hdata _
    rw [← Option.some.inj hdata]
    exact h.contents_other hhome

/-- The contents of the buffer are logged, and it is pinned. -/
theorem logged (h : BufferOk home cache true changed disk last pins) (hhome : home) {pins' : Nat}
    (hpins : pins' ≠ 0) : BufferOk home cache true false disk (cache.getD disk) pins' := by
  have hcache : cache ≠ none := h.held rfl
  refine ⟨fun _ ↦ hcache, fun hd ↦ (nomatch hd), fun _ ↦ hcache, ?_, fun _ hp ↦ (hpins hp).elim,
    fun _ hn ↦ (hn hhome).elim⟩
  intro data _ hdata _
  rw [hdata]
  rfl

/-- The holder gives up a buffer it did not modify. -/
theorem released (h : BufferOk home cache locked false disk last pins) :
    BufferOk home cache false false disk last pins :=
  { h with held := fun hd ↦ (nomatch hd), dirty := fun hd ↦ (nomatch hd) }

/-- The buffer is written to the disk. -/
theorem written {data : Block} (hlast : home → data = last) (locked : Bool) (pins : Nat) :
    BufferOk home (some data) locked false data last pins :=
  ⟨fun _ ↦ Option.some_ne_none _, fun hd ↦ (nomatch hd), fun _ ↦ Option.some_ne_none _,
    fun _ hhome hdata _ ↦ (Option.some.inj hdata).symm.trans (hlast hhome),
    fun hhome _ ↦ hlast hhome, fun _ _ hdata _ ↦ (Option.some.inj hdata).symm⟩

end BufferOk

section
variable {c : Cfg} {last last' : Disk} {s t : State P}

theorem Buffers.not_dirty (h : Buffers c last s) {b : Nat} (hb : s.holder b = none) :
    s.dirty b = false := by
  cases hd : s.dirty b with
  | false => rfl
  | true =>
    have := (h b).dirty hd
    rw [hb] at this
    cases this

/-- A step that changes the buffer of block `b` only. -/
theorem Buffers.update (h : Buffers c last s) (b : Nat)
    (hb : BufferOk (c.Home b) (t.cache b) (t.holder b).isSome (t.dirty b) (t.disk b) (last' b)
      (t.pins b))
    (hoff : ∀ x, x ≠ b → t.cache x = s.cache x ∧ t.holder x = s.holder x ∧ t.dirty x = s.dirty x ∧
      t.disk x = s.disk x ∧ last' x = last x ∧ t.pins x = s.pins x) : Buffers c last' t := by
  intro x
  by_cases hx : x = b
  · rw [hx]
    exact hb
  · obtain ⟨hcache, hholder, hdirty, hdisk, hlast, hpins⟩ := hoff x hx
    rw [hcache, hholder, hdirty, hdisk, hlast, hpins]
    exact h x

/-- An unlocked buffer has not been modified. -/
theorem Buffers.unlocked (h : Buffers c last s) {b : Nat} (hb : s.holder b = none) :
    BufferOk (c.Home b) (s.cache b) false false (s.disk b) (last b) (s.pins b) := by
  have := h b
  rw [hb, h.not_dirty hb] at this
  exact this

theorem Pos.Copied.commits {pos : Pos} {i : Nat} (h : pos.Copied i) : pos.phase.Commits := by
  cases pos with
  | writeLog tail => exact Or.inl rfl
  | writeHead => exact Or.inl rfl
  | install tail => exact Or.inr (Or.inl rfl)
  | _ => exact h.elim

/-- Positions change, but not those inside `install_trans`. -/
theorem Txned.move (h : Txned c last s) (hlh : t.lh = s.lh) (hpins : t.pins = s.pins)
    (hinst : ∀ p, t.phase p = .installing → t.pos p = s.pos p)
    (hkeep : ∀ p, s.phase p = .installing → t.phase p = .installing)
    (hcopies : ∀ p i b, (t.pos p).Copied i → s.lh[i]? = some b →
      t.disk (c.start + i + 1) = last' b) :
    Txned c last' t := by
  refine ⟨?_, ?_, ?_, ?_, ?_⟩
  · rw [hlh]
    exact h.room
  · rw [hlh]
    exact h.homes
  · rw [hlh, hpins]
    intro hn
    exact h.pins (fun p hp ↦ hn p (hkeep p hp))
  · intro p hp
    have hpos := hinst p hp
    rw [State.phase, hpos] at hp
    rw [hpos, hlh, hpins]
    exact h.unpins p hp
  · intro p i b hi hb
    rw [hlh] at hb
    exact hcopies p i b hi hb

theorem Txned.home (h : Txned c last s) {i b : Nat} (hb : s.lh[i]? = some b) : c.Home b :=
  h.homes b (List.mem_of_getElem? hb)

theorem Cfg.Home.ne {b b' : Nat} (h : c.Home b) (h' : c.InLog b') : b ≠ b' := by
  intro he
  rw [he] at h
  exact h.2 h'

variable [Fintype P]

variable [DecidableEq P]

omit [Fintype P] in
theorem goto_pos (s : State P) (p q : P) (pos : Pos) :
    (s.goto p pos).pos q = if q = p then pos else s.pos q := Function.update_apply _ _ _ _

/-- The process that commits moves on inside `write_log` or `install_trans`. -/
theorem Txned.forward (hops : Ops s) (ht : Txned c last s) {p : P} (hp : (s.phase p).Commits)
    {pos : Pos} (hpos : t.pos = (s.goto p pos).pos) (hphase : pos.phase = s.phase p)
    (hlh : t.lh = s.lh)
    (hpins : s.phase p ≠ .installing → t.pins = s.pins)
    (hunpins : s.phase p = .installing → ∀ b, t.pins b = if b ∈ pos.pinned s.lh then 1 else 0)
    (hcopies : ∀ i b, pos.Copied i → s.lh[i]? = some b → t.disk (c.start + i + 1) = last' b) :
    Txned c last' t := by
  have hsame (q : P) : t.phase q = s.phase q := by
    rw [State.phase, hpos]
    exact phase_goto_same s hphase q
  have hself : t.pos p = pos := by rw [hpos, goto_pos, if_pos rfl]
  have honly (q : P) (hq : (s.phase q).Commits) : q = p := hops.alone q p hq hp
  refine ⟨?_, ?_, ?_, ?_, ?_⟩
  · rw [hlh]
    exact ht.room
  · rw [hlh]
    exact ht.homes
  · intro hn
    have hn' (q : P) : s.phase q ≠ .installing := hsame q ▸ hn q
    rw [hlh, hpins (hn' p)]
    exact ht.pins hn'
  · intro q hq
    rw [hsame] at hq
    have hqp := honly q (Or.inr (Or.inl hq))
    rw [hqp, hself, hlh]
    rw [hqp] at hq
    exact hunpins hq
  · intro q i b hi hb
    have hqp := honly q (hsame q ▸ hi.commits)
    rw [hqp, hself] at hi
    rw [hlh] at hb
    exact hcopies i b hi hb

omit [Fintype P] [DecidableEq P] in
theorem start_inLog (c : Cfg) : c.InLog c.start := ⟨Nat.le_refl _, Nat.lt_add_of_pos_right c.head⟩

/-- What recovery has still to do gives the disk `home`. -/
def Replays (c : Cfg) (home disk : Disk) (lh : List Nat) : Mode → Prop
  | .readHead => replay c 0 (decodeHead (disk c.start)) disk = home
  | .recover tail => replay c tail (lh.drop tail) disk = home
  | .clear => disk = home
  | _ => True

/-- The invariant of a machine that recovers: the cache is a copy of the disk. -/
structure Unmodified (c : Cfg) (home : Disk) (g : Stored) (s : State P) : Prop where
  booting : Booting s
  pins : ∀ b, s.pins b = 0
  clean : ∀ b data, s.cache b = some data → data = s.disk b
  fresh : ∀ b, g b = none
  replays : Replays c home s.disk s.lh s.mode

variable {home : Disk} {g : Stored}

omit [Fintype P] [DecidableEq P] in
theorem Unmodified.contents (h : Unmodified c home g s) (b : Nat) : s.contents b = s.disk b := by
  unfold State.contents
  cases hc : s.cache b with
  | none => rfl
  | some data => exact h.clean b data hc

end

/-- Two processes: one that logs a block, and one that writes a block. -/
def logger : Fin 2 := ⟨0, Nat.two_pos⟩

def writer : Fin 2 := ⟨1, Nat.one_lt_two⟩

/-- The first one logs block 100 and ends its operation, and `write_log` copies the block. -/
def copied : List (Call (Fin 2)) :=
  [.act .recover, .act .recover, .act .recover, .act (.beginOp logger), .act (.bread logger 100),
    .act (.store logger 100 (fun _ ↦ 7)), .act (.logWrite logger 100), .act (.brelse logger 100),
    .act (.endOp logger), .act (.commit logger)]

/-- The other one writes block `b`; the commit goes on and installs block 100. -/
def writes (b : Nat) : List (Call (Fin 2)) :=
  [.act (.bread writer b), .act (.store writer b (fun _ ↦ 9)), .bwrite writer b,
    .act (.brelse writer b), .act (.commit logger), .act (.commit logger), .act (.commit logger),
    .act (.evict b), .act (.evict 100)]

end Xv6.Log
