import Xv6.Itable.Model
import Xv6.Lib.Sum

/-!
# The invariant of the inode table

An inode has one slot at most, and a slot with references keeps its inode. While `ip->lock` is free,
a valid slot has the fields of the on-disk inode. The delicate case is `iput`: after it has freed
the inode on the disk, `ialloc` may allocate the number again while the slot still says valid; but
then `ip->lock` is held until `valid` is cleared.
-/

namespace Xv6.Itable

open Xv6.Lib Xv6.Fs

variable {P : Type}

/-- The call that the process is in uses the slot. -/
def Pc.Uses (i : Slotno) : Pc → Prop
  | .ilock j | .ilocked j | .itrunc j | .iupdate j | .clearValid j | .drop j => j = i
  | _ => False

/-- The call has locked the slot's inode. -/
def Pc.Locks (i : Slotno) : Pc → Prop
  | .ilocked j | .itrunc j | .iupdate j | .clearValid j => j = i
  | _ => False

/-- The call frees the slot's inode. -/
def Pc.Frees (i : Slotno) : Pc → Prop
  | .itrunc j | .iupdate j | .clearValid j => j = i
  | _ => False

/-- No inode has two slots. -/
def OneSlot (s : State P) : Prop :=
  ∀ i j, 0 < (s.slot i).ref → 0 < (s.slot j).ref → (s.slot i).dev = (s.slot j).dev →
    (s.slot i).inum = (s.slot j).inum → i = j

/-- What holds of the table between any two steps. -/
structure Coherent (s : State P) : Prop where
  one : OneSlot s
  fields : ∀ i, (s.slot i).lock = none → 0 < (s.slot i).ref → (s.slot i).valid = true →
    (s.slot i).ip = s.disk i

/-- A slot with references stays the slot of its inode. -/
def KeepsSlots (s t : State P) : Prop :=
  ∀ i, 0 < (s.slot i).ref → (t.slot i).dev = (s.slot i).dev ∧ (t.slot i).inum = (s.slot i).inum

/-- A valid slot: its inode is allocated, and on the disk as in the table unless the holder of its
lock has changed it. -/
structure Agrees (s : State P) (i : Slotno) : Prop where
  type : (s.slot i).ip.type ≠ 0
  allocated : (s.disk i).type ≠ 0
  fields : s.dirty i = false → (s.slot i).ip = s.disk i

/-- What holds of one slot and its users. -/
structure SlotOk [Fintype P] (s : State P) (i : Slotno) : Prop where
  refs : (s.slot i).ref = ∑ p, s.own p i
  holder : ∀ p, (s.slot i).lock = some p → 0 < s.own p i
  user : ∀ p, (s.pc p).Uses i → 0 < s.own p i
  locks : ∀ p, (s.pc p).Locks i → (s.slot i).lock = some p
  unlocked : ∀ p, s.pc p = .drop i → (s.slot i).lock ≠ some p
  frees : ∀ p, (s.pc p).Frees i → (s.slot i).valid = true ∧ s.dirty i = false
  dirty : s.dirty i = true → (s.slot i).lock ≠ none
  agrees : 0 < (s.slot i).ref → (s.slot i).valid = true → (∀ p, s.pc p ≠ .clearValid i) → Agrees s i

/-- The invariant of the table. -/
structure Inv [Fintype P] (s : State P) : Prop where
  slots : ∀ i, SlotOk s i
  one : OneSlot s

theorem Pc.Locks.uses {i : Slotno} {pc : Pc} (h : pc.Locks i) : pc.Uses i := by
  cases pc <;> first | exact h | exact h.elim

theorem Pc.Frees.locks {i : Slotno} {pc : Pc} (h : pc.Frees i) : pc.Locks i := by
  cases pc <;> first | exact h | exact h.elim

theorem Pc.Locks.apart {i j : Slotno} {pc : Pc} (h : pc.Locks i) (hj : j ≠ i) : ¬ pc.Uses j := by
  intro hu
  cases pc <;> first | exact h.elim | exact hj (hu.symm.trans h)

section
variable {s t : State P} {i : Slotno}

/-- Slots with references have the inodes that they had. -/
theorem OneSlot.congr (h : OneSlot s) (href : ∀ j, 0 < (t.slot j).ref → 0 < (s.slot j).ref)
    (hkey : ∀ j, (t.slot j).dev = (s.slot j).dev ∧ (t.slot j).inum = (s.slot j).inum) :
    OneSlot t := by
  intro j k hj hk hdev hinum
  rw [(hkey j).1, (hkey k).1] at hdev
  rw [(hkey j).2, (hkey k).2] at hinum
  exact h j k (href j hj) (href k hk) hdev hinum

theorem Agrees.congr (h : Agrees s i) (hip : (t.slot i).ip = (s.slot i).ip)
    (hdisk : t.disk i = s.disk i) (hdirty : t.dirty i = s.dirty i) : Agrees t i := by
  refine ⟨?_, ?_, ?_⟩
  · rw [hip]
    exact h.type
  · rw [hdisk]
    exact h.allocated
  · rw [hip, hdisk, hdirty]
    exact h.fields

variable [Fintype P]

theorem SlotOk.not_dirty (h : SlotOk s i) (hi : (s.slot i).lock = none) : s.dirty i = false := by
  cases hd : s.dirty i with
  | false => rfl
  | true => exact (h.dirty hd hi).elim

theorem SlotOk.ref_pos (h : SlotOk s i) {p : P} (hp : 0 < s.own p i) : 0 < (s.slot i).ref := by
  have := le_sum (fun q ↦ s.own q i) p
  rw [h.refs]
  omega

/-- A slot without references is not locked or used. -/
theorem SlotOk.unused (h : SlotOk s i) (hi : (s.slot i).ref = 0) :
    (s.slot i).lock = none ∧ ∀ p, ¬ (s.pc p).Uses i := by
  constructor
  · cases hl : (s.slot i).lock with
    | none => rfl
    | some p =>
      have := h.ref_pos (h.holder p hl)
      omega
  · intro p hp
    have := h.ref_pos (h.user p hp)
    omega

/-- While the lock is free nobody frees the inode. -/
theorem SlotOk.not_locks (h : SlotOk s i) (hi : (s.slot i).lock = none) (p : P) :
    ¬ (s.pc p).Locks i := by
  intro hp
  have := h.locks p hp
  rw [hi] at this
  cases this

theorem Inv.coherent (h : Inv s) : Coherent s := by
  refine ⟨h.one, ?_⟩
  intro i hlock href hvalid
  refine ((h.slots i).agrees href hvalid ?_).fields ((h.slots i).not_dirty hlock)
  intro p hp
  exact (h.slots i).not_locks hlock p (by rw [hp]; rfl)

/-- The comment of `iput`: with one reference, no other process can have the inode locked. -/
theorem SlotOk.alone [DecidableEq P] (h : SlotOk s i) {p : P} (hspare : s.Spare p i)
    (href : (s.slot i).ref = 1) : (s.slot i).lock = none := by
  cases hl : (s.slot i).lock with
  | none => rfl
  | some q =>
    have hsum := h.refs
    rw [href] at hsum
    by_cases hqp : q = p
    · rw [hqp] at hl
      have hle := le_sum (fun q ↦ s.own q i) p
      have := hspare.2 hl
      omega
    · have hq := h.holder q hl
      have hp := hspare.1
      have hoff := sum_add_of_eq_off (f := fun r ↦ if r = p then 0 else s.own r i)
        (g := fun r ↦ s.own r i) p (fun r hr ↦ if_neg hr)
      have hle := le_sum (fun r ↦ if r = p then 0 else s.own r i) q
      simp only [if_pos, if_neg hqp] at hoff hle
      omega

/-- A slot that a step does not touch. -/
theorem SlotOk.congr (h : SlotOk s i) (hslot : t.slot i = s.slot i) (hdirty : t.dirty i = s.dirty i)
    (hown : ∀ p, t.own p i = s.own p i) (hdisk : 0 < (s.slot i).ref → t.disk i = s.disk i)
    (hpc : ∀ p, t.pc p = s.pc p ∨ ¬ (t.pc p).Uses i ∧ ¬ (s.pc p).Uses i) : SlotOk t i := by
  have hold {Q : Pc → Prop} (hQ : ∀ pc, Q pc → pc.Uses i) (p : P) (hp : Q (t.pc p)) :
      Q (s.pc p) := by
    rcases hpc p with he | hn
    · rw [← he]
      exact hp
    · exact (hn.1 (hQ _ hp)).elim
  refine ⟨?_, ?_, ?_, ?_, ?_, ?_, ?_, ?_⟩
  · simp only [hslot, hown]
    exact h.refs
  · intro p hp
    rw [hslot] at hp
    rw [hown]
    exact h.holder p hp
  · intro p hp
    rw [hown]
    exact h.user p (hold (fun _ hu ↦ hu) p hp)
  · intro p hp
    rw [hslot]
    exact h.locks p (hold (Q := (·.Locks i)) (fun _ hl ↦ hl.uses) p hp)
  · intro p hp
    rw [hslot]
    exact h.unlocked p (hold (Q := (· = .drop i)) (fun _ hd ↦ by rw [hd]; rfl) p hp)
  · intro p hp
    rw [hslot, hdirty]
    exact h.frees p (hold (Q := (·.Frees i)) (fun _ hl ↦ hl.locks.uses) p hp)
  · rw [hslot, hdirty]
    exact h.dirty
  · intro href hvalid hclear
    rw [hslot] at href hvalid
    have hagrees := h.agrees href hvalid (by
      intro p hp
      rcases hpc p with he | hn
      · exact hclear p (he.trans hp)
      · exact hn.2 (by rw [hp]; rfl))
    exact hagrees.congr (by rw [hslot]) (hdisk href) hdirty

/-- A step of `p` that touches slot `i`, its inode on the disk and its users, and nothing else. -/
structure Local (s t : State P) (p : P) (i : Slotno) : Prop where
  slot : ∀ j ≠ i, t.slot j = s.slot j
  key : (t.slot i).dev = (s.slot i).dev ∧ (t.slot i).inum = (s.slot i).inum
  dirty : ∀ j ≠ i, t.dirty j = s.dirty j
  dinode : ∀ dev inum, ¬ (dev = (s.slot i).dev ∧ inum = (s.slot i).inum) →
    t.dinode dev inum = s.dinode dev inum
  own : ∀ j ≠ i, ∀ q, t.own q j = s.own q j
  pc : ∀ q ≠ p, t.pc q = s.pc q
  apart : ∀ j ≠ i, ¬ (t.pc p).Uses j ∧ ¬ (s.pc p).Uses j

omit [Fintype P] in
omit [Fintype P] in
/-- The inodes of other slots are other inodes, and stay as they are. -/
theorem Local.disk {p : P} (h : Local s t p i) (hone : OneSlot s) (hi : 0 < (s.slot i).ref)
    {j : Slotno} (hj : j ≠ i) (href : 0 < (s.slot j).ref) : t.disk j = s.disk j := by
  rw [State.disk, h.slot j hj]
  apply h.dinode
  intro hkey
  exact hj (hone j i href hi hkey.1 hkey.2)

/-- After such a step only slot `i` has to be looked at. -/
theorem Local.inv {p : P} (hl : Local s t p i) (h : Inv s) (hpos : 0 < (s.slot i).ref)
    (hi : SlotOk t i) : Inv t := by
  refine ⟨?_, h.one.congr ?_ ?_⟩
  · intro j
    by_cases hj : j = i
    · rw [hj]
      exact hi
    · apply (h.slots j).congr (hl.slot j hj) (hl.dirty j hj) (hl.own j hj) (hl.disk h.one hpos hj)
      intro q
      by_cases hq : q = p
      · rw [hq]
        exact Or.inr (hl.apart j hj)
      · exact Or.inl (hl.pc q hq)
  · intro j
    by_cases hj : j = i
    · rw [hj]
      exact fun _ ↦ hpos
    · rw [hl.slot j hj]
      exact id
  · intro j
    by_cases hj : j = i
    · rw [hj]
      exact hl.key
    · rw [hl.slot j hj]
      exact ⟨rfl, rfl⟩

/-- A step that counts references: the slot has another `ref`, and the holder of its lock and its
other users keep one. -/
theorem Local.recount {p : P} (hl : Local s t p i) (h : Inv s) (hpos : 0 < (s.slot i).ref) {n : Nat}
    (hslot : t.slot i = { s.slot i with ref := n }) (hdirty : t.dirty i = s.dirty i)
    (hdinode : t.dinode = s.dinode) (hrefs : n = ∑ q, t.own q i)
    (hholder : ∀ q, (s.slot i).lock = some q → 0 < t.own q i)
    (huser : ∀ q, (t.pc q).Uses i → 0 < t.own q i)
    (hs : ¬ (s.pc p).Locks i) (ht : ¬ (t.pc p).Locks i) (hdrop : t.pc p ≠ .drop i) : Inv t := by
  have hok := h.slots i
  have hold {Q : Pc → Prop} (hQ : ∀ pc, Q pc → pc.Locks i) (q : P) (hq : Q (t.pc q)) :
      Q (s.pc q) := by
    by_cases hqp : q = p
    · rw [hqp] at hq
      exact (ht (hQ _ hq)).elim
    · rw [← hl.pc q hqp]
      exact hq
  refine hl.inv h hpos ⟨?_, ?_, huser, ?_, ?_, ?_, ?_, ?_⟩
  · rw [hslot]
    exact hrefs
  · rw [hslot]
    exact hholder
  · rw [hslot]
    exact fun q hq ↦ hok.locks q (hold (Q := (·.Locks i)) (fun _ hp ↦ hp) q hq)
  · intro q hq
    rw [hslot]
    by_cases hqp : q = p
    · rw [hqp] at hq
      exact (hdrop hq).elim
    · rw [hl.pc q hqp] at hq
      exact hok.unlocked q hq
  · rw [hslot, hdirty]
    exact fun q hq ↦ hok.frees q (hold (Q := (·.Frees i)) (fun _ hp ↦ hp.locks) q hq)
  · rw [hslot, hdirty]
    exact hok.dirty
  · intro _ hvalid hclear
    rw [hslot] at hvalid
    have hagrees := hok.agrees hpos hvalid (by
      intro q hq
      by_cases hqp : q = p
      · rw [← hqp, hq] at hs
        exact hs rfl
      · exact hclear q ((hl.pc q hqp).trans hq))
    refine hagrees.congr (by rw [hslot]) ?_ hdirty
    rw [State.disk, State.disk, hslot, hdinode]

/-- A step that locks or unlocks the inode, or changes it with the lock held: nobody but `p` is in a
section of the lock. -/
theorem Local.exclusive {p : P} {x : Slot P} {pc : Pc} (hl : Local s t p i) (h : Inv s)
    (hp : 0 < s.own p i) (hs : (s.slot i).lock = none ∨ (s.slot i).lock = some p)
    (hslot : t.slot i = x) (hpc : t.pc p = pc) (ht : x.lock = none ∨ x.lock = some p)
    (hown : t.own = s.own) (href : x.ref = (s.slot i).ref)
    (hlocks : pc.Locks i → x.lock = some p) (hunlocked : pc = .drop i → x.lock = none)
    (hfrees : pc.Frees i → x.valid = true ∧ t.dirty i = false)
    (hdirty : t.dirty i = true → x.lock ≠ none)
    (hagrees : x.valid = true → pc ≠ .clearValid i → Agrees t i) : Inv t := by
  have hok := h.slots i
  have hpos : 0 < (s.slot i).ref := hok.ref_pos hp
  have hother (q : P) (hq : (t.pc q).Locks i) : q = p := by
    by_contra hqp
    rw [hl.pc q hqp] at hq
    have hlock := hok.locks q hq
    rcases hs with hs | hs
    · rw [hs] at hlock
      cases hlock
    · exact hqp (Option.some.inj (hlock.symm.trans hs))
  have hholder (q : P) (hq : x.lock = some q) : q = p := by
    rcases ht with ht | ht
    · rw [ht] at hq
      cases hq
    · exact Option.some.inj (hq.symm.trans ht)
  refine hl.inv h hpos ⟨?_, ?_, ?_, ?_, ?_, ?_, ?_, ?_⟩
  · rw [hslot, href, hown]
    exact hok.refs
  · rw [hslot, hown]
    intro q hq
    rw [hholder q hq]
    exact hp
  · intro q hq
    rw [hown]
    by_cases hqp : q = p
    · rw [hqp]
      exact hp
    · rw [hl.pc q hqp] at hq
      exact hok.user q hq
  · intro q hq
    have hqp := hother q hq
    rw [hqp, hpc] at hq
    rw [hslot, hqp]
    exact hlocks hq
  · rw [hslot]
    intro q hq hlock
    rw [hholder q hlock, hpc] at hq
    rw [hunlocked hq] at hlock
    cases hlock
  · intro q hq
    rw [hother q hq.locks, hpc] at hq
    rw [hslot]
    exact hfrees hq
  · rw [hslot]
    exact hdirty
  · intro _ hvalid hclear
    rw [hslot] at hvalid
    exact hagrees hvalid (by rw [← hpc]; exact hclear p)

/-- A valid slot agrees with the disk as long as `p` could lock it, or has locked it and has not
freed its inode. -/
theorem SlotOk.agrees_of (h : SlotOk s i) {p : P} {pc : Pc} (hp : 0 < s.own p i)
    (hvalid : (s.slot i).valid = true) (hlock : (s.slot i).lock = none ∨ (s.slot i).lock = some p)
    (hpc : s.pc p = pc) (hclear : pc ≠ .clearValid i) : Agrees s i := by
  apply h.agrees (h.ref_pos hp) hvalid
  intro q hq
  have hq' := h.locks q (by rw [hq]; rfl)
  rcases hlock with hlock | hlock
  · rw [hlock] at hq'
    cases hq'
  · rw [← Option.some.inj (hq'.symm.trans hlock), hq] at hpc
    exact hclear hpc.symm

/-! ### What the operations touch -/

section
omit [Fintype P]
variable {p : P}

@[simp] theorem setSlot_slot (s : State P) (i : Slotno) (x : Slot P) : (s.setSlot i x).slot i = x :=
  Function.update_self _ _ _

@[simp] theorem setDirty_dirty (s : State P) (i : Slotno) (b : Bool) :
    (s.setDirty i b).dirty i = b :=
  Function.update_self _ _ _

@[simp] theorem iupdate_disk (s : State P) (i : Slotno) : (s.iupdate i).disk i = (s.slot i).ip := by
  change Function.update s.dinode (s.slot i).dev (Function.update _ _ (s.slot i).ip) (s.slot i).dev
    (s.slot i).inum = (s.slot i).ip
  rw [Function.update_self, Function.update_self]

theorem Local.refl (h : ∀ j ≠ i, ¬ (s.pc p).Uses j) : Local s s p i where
  slot := fun _ _ ↦ rfl
  key := ⟨rfl, rfl⟩
  dirty := fun _ _ ↦ rfl
  dinode := fun _ _ _ ↦ rfl
  own := fun _ _ _ ↦ rfl
  pc := fun _ _ ↦ rfl
  apart := fun j hj ↦ ⟨h j hj, h j hj⟩

theorem Local.setSlot (h : Local s t p i) {x : Slot P}
    (hx : x.dev = (t.slot i).dev ∧ x.inum = (t.slot i).inum) : Local s (t.setSlot i x) p i where
  slot := fun j hj ↦ (Function.update_of_ne hj _ _).trans (h.slot j hj)
  key := by
    rw [setSlot_slot, hx.1, hx.2]
    exact h.key
  dirty := h.dirty
  dinode := h.dinode
  own := h.own
  pc := h.pc
  apart := h.apart

theorem Local.setDirty (h : Local s t p i) (b : Bool) : Local s (t.setDirty i b) p i where
  slot := h.slot
  key := h.key
  dirty := fun j hj ↦ (Function.update_of_ne hj _ _).trans (h.dirty j hj)
  dinode := h.dinode
  own := h.own
  pc := h.pc
  apart := h.apart

theorem Local.iupdate (h : Local s t p i) : Local s (t.iupdate i) p i := by
  refine Local.setDirty ?_ false
  refine ⟨h.slot, h.key, h.dirty, ?_, h.own, h.pc, h.apart⟩
  intro dev inum hkey
  rw [← h.dinode dev inum hkey, ← h.key.1, ← h.key.2] at *
  change Function.update t.dinode (t.slot i).dev (Function.update _ _ _) dev inum = _
  by_cases hdev : dev = (t.slot i).dev
  · rw [hdev, Function.update_self, Function.update_of_ne]
    exact fun hinum ↦ hkey ⟨hdev, hinum⟩
  · rw [Function.update_of_ne hdev]

variable [DecidableEq P]

theorem setOwn_own (s : State P) (p : P) (i : Slotno) (n : Nat) (q : P) (j : Slotno) :
    (s.setOwn p i n).own q j = if q = p ∧ j = i then n else s.own q j := by
  change Function.update s.own p (Function.update (s.own p) i n) q j = _
  by_cases hq : q = p
  · rw [hq, Function.update_self, Function.update_apply]
    simp
  · rw [Function.update_of_ne hq, if_neg (fun h ↦ hq h.1)]

theorem setOwn_le (s : State P) (p : P) (i : Slotno) {n : Nat} (hn : s.own p i ≤ n) (q : P) :
    s.own q i ≤ (s.setOwn p i n).own q i := by
  rw [setOwn_own]
  split
  · next hq =>
    rw [hq.1]
    exact hn
  · exact Nat.le_refl _

theorem goto_pc (s : State P) (p q : P) (pc : Pc) :
    (s.goto p pc).pc q = if q = p then pc else s.pc q := Function.update_apply _ _ _ _

@[simp] theorem goto_pc_self (s : State P) (p : P) (pc : Pc) : (s.goto p pc).pc p = pc :=
  Function.update_self _ _ _

theorem Local.setOwn (h : Local s t p i) (q : P) (n : Nat) : Local s (t.setOwn q i n) p i where
  slot := h.slot
  key := h.key
  dirty := h.dirty
  dinode := h.dinode
  own := by
    intro j hj r
    rw [setOwn_own, if_neg (fun hc ↦ hj hc.2)]
    exact h.own j hj r
  pc := h.pc
  apart := h.apart

theorem Local.goto (h : Local s t p i) {pc : Pc} (hpc : ∀ j ≠ i, ¬ pc.Uses j) :
    Local s (t.goto p pc) p i where
  slot := h.slot
  key := h.key
  dirty := h.dirty
  dinode := h.dinode
  own := h.own
  pc := fun q hq ↦ (Function.update_of_ne hq _ _).trans (h.pc q hq)
  apart := by
    intro j hj
    rw [goto_pc_self]
    exact ⟨hpc j hj, (h.apart j hj).2⟩

end

end

end Xv6.Itable
