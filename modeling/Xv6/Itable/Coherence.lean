import Xv6.Itable.Invariant

/-!
# The table and the disk agree

Each step keeps the invariant, or panics. So in every run an inode has one slot at most, and a valid
slot that nobody has locked has the fields of the on-disk inode.
-/

namespace Xv6.Itable

open Xv6.Lib Xv6.Fs

variable {P : Type} {s t : State P} {i : Slotno} [Fintype P]

/-! ### The steps -/

/-- The holder of the lock, not inside a call, changes fields. -/
theorem inv_modify (h : Inv s) {p : P} {i : Slotno} {ip : Dinode} (hpc : s.pc p = .out)
    (hlock : (s.slot i).lock = some p) (htype : ip.type ≠ 0) :
    Inv ((s.setSlot i { s.slot i with ip := ip }).setDirty i true) := by
  have hp := (h.slots i).holder p hlock
  have hl : Local s ((s.setSlot i { s.slot i with ip := ip }).setDirty i true) p i := by
    apply Local.setDirty
    apply Local.setSlot (Local.refl (fun j _ ↦ by rw [hpc]; exact id))
    exact ⟨rfl, rfl⟩
  have hslot : ((s.setSlot i { s.slot i with ip := ip }).setDirty i true).slot i =
      { s.slot i with ip := ip } := setSlot_slot s i _
  refine hl.exclusive h hp (Or.inr hlock) hslot hpc (Or.inr hlock) rfl rfl False.elim
    (by intro hc; cases hc) False.elim (by intro _ hc; cases hlock.symm.trans hc) ?_
  intro hvalid _
  have hagrees := (h.slots i).agrees_of hp hvalid (Or.inr hlock) hpc (by intro hc; cases hc)
  refine ⟨?_, ?_, ?_⟩
  · rw [hslot]
    exact htype
  · rw [State.disk, hslot]
    exact hagrees.allocated
  · rw [setDirty_dirty]
    intro hc
    cases hc

/-- `iupdate` by the holder of the lock. -/
theorem inv_iupdate (h : Inv s) {p : P} {i : Slotno} (hpc : s.pc p = .out)
    (hlock : (s.slot i).lock = some p) : Inv (s.iupdate i) := by
  have hp := (h.slots i).holder p hlock
  have hl : Local s (s.iupdate i) p i :=
    Local.iupdate (Local.refl (fun j _ ↦ by rw [hpc]; exact id))
  have hdisk : (s.iupdate i).disk i = (s.slot i).ip := iupdate_disk s i
  refine hl.exclusive h hp (Or.inr hlock) rfl hpc (Or.inr hlock) rfl rfl False.elim
    (fun hc ↦ nomatch hc) False.elim (fun _ hc ↦ nomatch hlock.symm.trans hc) ?_
  intro hvalid _
  have hagrees := (h.slots i).agrees_of hp hvalid (Or.inr hlock) hpc (fun hc ↦ nomatch hc)
  refine ⟨hagrees.type, ?_, fun _ ↦ hdisk.symm⟩
  rw [hdisk]
  exact hagrees.type

theorem inv_iunlock (h : Inv s) {p : P} {i : Slotno} (hpc : s.pc p = .out)
    (hlock : (s.slot i).lock = some p) (hdirty : s.dirty i = false) :
    Inv (s.setSlot i { s.slot i with lock := none }) := by
  have hp := (h.slots i).holder p hlock
  have hl : Local s (s.setSlot i { s.slot i with lock := none }) p i := by
    apply Local.setSlot (Local.refl (fun j _ ↦ by rw [hpc]; exact id))
    exact ⟨rfl, rfl⟩
  have hslot := setSlot_slot s i { s.slot i with lock := none }
  refine hl.exclusive h hp (Or.inr hlock) hslot hpc (Or.inl rfl) rfl rfl False.elim
    (fun hc ↦ nomatch hc) False.elim (fun hc ↦ nomatch hdirty.symm.trans hc) ?_
  intro hvalid _
  have hagrees := (h.slots i).agrees_of hp hvalid (Or.inr hlock) hpc (fun hc ↦ nomatch hc)
  exact hagrees.congr (by rw [hslot]) (by rw [State.disk, hslot]; rfl) rfl

variable [DecidableEq P]

theorem sum_setOwn (s : State P) (p : P) (i : Slotno) (n : Nat) :
    ∑ q, (s.setOwn p i n).own q i + s.own p i = ∑ q, s.own q i + n := by
  have h := sum_add_of_eq_off (f := fun q ↦ (s.setOwn p i n).own q i) (g := fun q ↦ s.own q i) p
    (fun q hq ↦ by rw [setOwn_own, if_neg (fun hc ↦ hq hc.1)])
  rw [h]
  simp only [setOwn_own, and_self, if_true]

/-- A process moves between places that use no slot. -/
theorem inv_goto (h : Inv s) {p : P} {pc : Pc} (hs : ∀ j, ¬ (s.pc p).Uses j)
    (ht : ∀ j, ¬ pc.Uses j) :
    Inv (s.goto p pc) := by
  refine ⟨?_, h.one⟩
  intro j
  refine SlotOk.congr (t := s.goto p pc) (h.slots j) rfl rfl (fun _ ↦ rfl) (fun _ ↦ rfl) ?_
  intro q
  rw [goto_pc]
  split
  · next hq =>
    rw [hq]
    exact Or.inr ⟨ht j, hs j⟩
  · exact Or.inl rfl

/-- One more reference to a slot that has one. -/
theorem inv_addRef (h : Inv s) {p : P} {i : Slotno} (hpc : ∀ j, ¬ (s.pc p).Uses j)
    (hi : 0 < (s.slot i).ref) : Inv (s.addRef p i) := by
  have hl : Local s (s.addRef p i) p i := by
    apply Local.setOwn
    apply Local.setSlot (Local.refl (fun j _ ↦ hpc j))
    exact ⟨rfl, rfl⟩
  have hle (q : P) : s.own q i ≤ (s.addRef p i).own q i := setOwn_le _ p i (Nat.le_succ _) q
  have hsum := sum_setOwn (s.setSlot i { s.slot i with ref := (s.slot i).ref + 1 }) p i
    (s.own p i + 1)
  have hrefs := (h.slots i).refs
  have hfree : ¬ (s.pc p).Locks i := fun hp ↦ hpc i hp.uses
  refine hl.recount h hi (n := (s.slot i).ref + 1) (Function.update_self _ _ _) rfl rfl ?_ ?_ ?_
    hfree hfree ?_
  · change _ + s.own p i = ∑ q, s.own q i + _ at hsum
    change _ = ∑ q, (State.setOwn p i _ _).own q i
    omega
  · exact fun q hq ↦ Nat.lt_of_lt_of_le ((h.slots i).holder q hq) (hle q)
  · exact fun q hq ↦ Nat.lt_of_lt_of_le ((h.slots i).user q hq) (hle q)
  · intro hp
    apply hpc i
    change (s.pc p) = _ at hp
    rw [hp]
    rfl

/-- One reference less; the process that gives it up has another one if it holds the lock. -/
theorem inv_dropRef (h : Inv s) {p : P} {i : Slotno} {pc : Pc} (hs : ∀ j ≠ i, ¬ (s.pc p).Uses j)
    (hlocks : ¬ (s.pc p).Locks i) (hpc : ∀ j, ¬ pc.Uses j) (hp : 0 < s.own p i)
    (hspare : (s.slot i).lock = some p → 1 < s.own p i) : Inv ((s.dropRef p i).goto p pc) := by
  have hl : Local s ((s.dropRef p i).goto p pc) p i := by
    apply Local.goto _ (fun j _ ↦ hpc j)
    apply Local.setOwn
    apply Local.setSlot (Local.refl hs)
    exact ⟨rfl, rfl⟩
  have hown (q : P) : ((s.dropRef p i).goto p pc).own q i =
      if q = p ∧ i = i then s.own p i - 1 else s.own q i := setOwn_own _ p i _ q i
  have hsum := sum_setOwn (s.setSlot i { s.slot i with ref := (s.slot i).ref - 1 }) p i
    (s.own p i - 1)
  have hrefs := (h.slots i).refs
  refine hl.recount h ((h.slots i).ref_pos hp) (n := (s.slot i).ref - 1)
    (Function.update_self _ _ _)
    rfl rfl ?_ ?_ ?_ hlocks ?_ ?_
  · change _ + s.own p i = ∑ q, s.own q i + _ at hsum
    change _ = ∑ q, (State.setOwn p i _ _).own q i
    omega
  · intro q hq
    rw [hown]
    split
    · next hqp =>
      rw [hqp.1] at hq
      have := hspare hq
      omega
    · exact (h.slots i).holder q hq
  · intro q hq
    rw [goto_pc] at hq
    split at hq
    · exact (hpc i hq).elim
    · next hqp =>
      rw [hown, if_neg (fun hc ↦ hqp hc.1)]
      exact (h.slots i).user q hq
  · rw [goto_pc_self]
    exact fun hc ↦ hpc i hc.uses
  · rw [goto_pc_self]
    intro hc
    apply hpc i
    rw [hc]
    rfl

/-- A reference changes hands. -/
theorem inv_give (h : Inv s) {p : P} (q : P) {i : Slotno} (hpc : ∀ j, ¬ (s.pc p).Uses j)
    (hspare : s.Spare p i) :
    let u := s.setOwn p i (s.own p i - 1)
    Inv (u.setOwn q i (u.own q i + 1)) := by
  intro u
  have hl : Local s (u.setOwn q i (u.own q i + 1)) p i := by
    apply Local.setOwn
    apply Local.setOwn
    exact Local.refl (fun j _ ↦ hpc j)
  have hle (r : P) : u.own r i ≤ (u.setOwn q i (u.own q i + 1)).own r i :=
    setOwn_le u q i (Nat.le_succ _) r
  have hown (r : P) : u.own r i = if r = p ∧ i = i then s.own p i - 1 else s.own r i :=
    setOwn_own _ p i _ r i
  have hfree : ¬ (s.pc p).Locks i := fun hp ↦ hpc i hp.uses
  have hp := hspare.1
  refine hl.recount h ((h.slots i).ref_pos hp)
    (n := (s.slot i).ref) rfl rfl rfl ?_ ?_ ?_ hfree hfree ?_
  · have h₁ := sum_setOwn s p i (s.own p i - 1)
    have h₂ := sum_setOwn u q i (u.own q i + 1)
    have hrefs := (h.slots i).refs
    change ∑ r, u.own r i + _ = _ at h₁
    omega
  · intro r hr
    refine Nat.lt_of_lt_of_le ?_ (hle r)
    rw [hown]
    split
    · next hrp =>
      rw [hrp.1] at hr
      have := hspare.2 hr
      omega
    · exact (h.slots i).holder r hr
  · intro r hr
    refine Nat.lt_of_lt_of_le ?_ (hle r)
    have hrp : r ≠ p := by
      intro he
      rw [he] at hr
      exact hpc i hr
    rw [hown, if_neg (fun hc ↦ hrp hc.1)]
    exact (h.slots i).user r hr
  · intro hc
    apply hpc i
    change s.pc p = _ at hc
    rw [hc]
    rfl

/-- `ilock` before `acquiresleep`. -/
theorem inv_ilock (h : Inv s) {p : P} {i : Slotno} (hpc : ∀ j, ¬ (s.pc p).Uses j)
    (hp : 0 < s.own p i) : Inv (s.goto p (.ilock i)) := by
  have hl : Local s (s.goto p (.ilock i)) p i := by
    apply Local.goto (Local.refl (fun j _ ↦ hpc j))
    exact fun j hj hc ↦ hj hc.symm
  refine hl.recount h ((h.slots i).ref_pos hp) (n := (s.slot i).ref) rfl rfl rfl (h.slots i).refs
    (h.slots i).holder ?_ (fun hc ↦ hpc i hc.uses) ?_ ?_
  · intro q hq
    rw [goto_pc] at hq
    split at hq
    · next hqp =>
      rw [hqp]
      exact hp
    · exact (h.slots i).user q hq
  · rw [goto_pc_self]
    exact id
  · rw [goto_pc_self]
    exact fun hc ↦ nomatch hc

/-- `acquiresleep` of a free lock: in `ilock`, or in `iput` of an inode that it will free. -/
theorem inv_acquire (h : Inv s) {p : P} {i : Slotno} {pc : Pc} (hs : ∀ j ≠ i, ¬ (s.pc p).Uses j)
    (hp : 0 < s.own p i) (hlock : (s.slot i).lock = none) (hclear : s.pc p ≠ .clearValid i)
    (hpc : pc = .ilocked i ∨ pc = .itrunc i ∧ (s.slot i).valid = true) :
    Inv ((s.setSlot i { s.slot i with lock := some p }).goto p pc) := by
  have huses : ∀ j ≠ i, ¬ pc.Uses j := by
    intro j hj hc
    rcases hpc with rfl | ⟨rfl, _⟩ <;> exact hj hc.symm
  have hl : Local s ((s.setSlot i { s.slot i with lock := some p }).goto p pc) p i := by
    apply Local.goto _ huses
    apply Local.setSlot (Local.refl hs)
    exact ⟨rfl, rfl⟩
  have hslot : ((s.setSlot i { s.slot i with lock := some p }).goto p pc).slot i =
      { s.slot i with lock := some p } := setSlot_slot s i _
  refine hl.exclusive h hp (Or.inl hlock) hslot (goto_pc_self _ p pc) (Or.inr rfl) rfl rfl
    (fun _ ↦ rfl) ?_ ?_ (fun _ hc ↦ nomatch hc) ?_
  · rintro rfl
    rcases hpc with hc | ⟨hc, _⟩ <;> cases hc
  · intro hfrees
    rcases hpc with rfl | ⟨rfl, hvalid⟩
    · exact hfrees.elim
    · exact ⟨hvalid, (h.slots i).not_dirty hlock⟩
  · intro hvalid _
    have hagrees := (h.slots i).agrees_of hp hvalid (Or.inl hlock) rfl hclear
    exact hagrees.congr (by rw [hslot]) (by rw [State.disk, hslot]; rfl) rfl

/-- The end of `ilock`, with the fields in memory. -/
theorem inv_ilocked (h : Inv s) {p : P} {i : Slotno} (hpc : s.pc p = .ilocked i)
    (hvalid : (s.slot i).valid = true) : Inv (s.goto p .out) := by
  have hlocks : (s.pc p).Locks i := by
    rw [hpc]
    rfl
  have hp := (h.slots i).user p hlocks.uses
  have hlock := (h.slots i).locks p hlocks
  have hl : Local s (s.goto p .out) p i :=
    Local.goto (Local.refl (fun _ hj ↦ hlocks.apart hj)) (fun _ _ ↦ id)
  refine hl.exclusive h hp (Or.inr hlock) rfl (goto_pc_self _ p _) (Or.inr hlock) rfl
    rfl False.elim (fun hc ↦ nomatch hc) False.elim (fun _ hc ↦ nomatch hlock.symm.trans hc) ?_
  intro _ _
  exact ((h.slots i).agrees_of hp hvalid (Or.inr hlock) hpc (fun hc ↦ nomatch hc)).congr rfl rfl rfl

/-- The end of `ilock`, with the fields read from the disk. -/
theorem inv_fill (h : Inv s) {p : P} {i : Slotno} (hpc : s.pc p = .ilocked i)
    (htype : (s.disk i).type ≠ 0) :
    Inv ((s.setSlot i { s.slot i with ip := s.disk i, valid := true }).goto p .out) := by
  have hlocks : (s.pc p).Locks i := by
    rw [hpc]
    rfl
  have hlock := (h.slots i).locks p hlocks
  have hl : Local s ((s.setSlot i { s.slot i with ip := s.disk i, valid := true }).goto p .out) p
      i := by
    apply Local.goto _ (fun _ _ ↦ id)
    apply Local.setSlot (Local.refl (fun _ hj ↦ hlocks.apart hj))
    exact ⟨rfl, rfl⟩
  have hslot : ((s.setSlot i { s.slot i with ip := s.disk i, valid := true }).goto p .out).slot i =
      { s.slot i with ip := s.disk i, valid := true } := setSlot_slot s i _
  have hdisk : ((s.setSlot i { s.slot i with ip := s.disk i, valid := true }).goto p .out).disk i =
      s.disk i := by
    rw [State.disk, hslot]
    rfl
  refine hl.exclusive h ((h.slots i).user p hlocks.uses) (Or.inr hlock) hslot (goto_pc_self _ p _)
    (Or.inr hlock) rfl rfl False.elim (by intro hc; cases hc) False.elim
    (by intro _ hc; cases hlock.symm.trans hc) ?_
  intro _ _
  refine ⟨?_, ?_, ?_⟩
  · rw [hslot]
    exact htype
  · rw [hdisk]
    exact htype
  · rw [hslot, hdisk]
    exact fun _ ↦ rfl

/-- A part of `iput` that changes the inode that it frees and writes it to the disk. -/
theorem inv_free (h : Inv s) {p : P} {i : Slotno} {ip : Dinode} {pc : Pc} (hp : (s.pc p).Frees i)
    (hpc : pc = .iupdate i ∧ ip.type ≠ 0 ∨ pc = .clearValid i) :
    Inv (((s.setSlot i { s.slot i with ip := ip }).iupdate i).goto p pc) := by
  have hown := (h.slots i).user p hp.locks.uses
  have hlock := (h.slots i).locks p hp.locks
  have huses : ∀ j ≠ i, ¬ pc.Uses j := by
    intro j hj hc
    rcases hpc with ⟨rfl, _⟩ | rfl <;> exact hj hc.symm
  have hl : Local s (((s.setSlot i { s.slot i with ip := ip }).iupdate i).goto p pc) p i := by
    apply Local.goto _ huses
    apply Local.iupdate
    apply Local.setSlot (Local.refl (fun _ hj ↦ hp.locks.apart hj))
    exact ⟨rfl, rfl⟩
  have hslot : (((s.setSlot i { s.slot i with ip := ip }).iupdate i).goto p pc).slot i =
      { s.slot i with ip := ip } := setSlot_slot s i _
  have hdisk : (((s.setSlot i { s.slot i with ip := ip }).iupdate i).goto p pc).disk i = ip :=
    (iupdate_disk (s.setSlot i { s.slot i with ip := ip }) i).trans (by rw [setSlot_slot])
  have hdirty : (((s.setSlot i { s.slot i with ip := ip }).iupdate i).goto p pc).dirty i = false :=
    setDirty_dirty _ i false
  refine hl.exclusive h hown (Or.inr hlock) hslot (goto_pc_self _ p pc) (Or.inr hlock) rfl rfl
    (fun _ ↦ hlock) ?_ (fun _ ↦ ⟨((h.slots i).frees p hp).1, hdirty⟩)
    (fun _ hc ↦ nomatch hlock.symm.trans hc) ?_
  · rintro rfl
    rcases hpc with ⟨hc, _⟩ | hc <;> cases hc
  · intro _ hclear
    rcases hpc with ⟨_, htype⟩ | hpc
    · refine ⟨?_, ?_, ?_⟩
      · rw [hslot]
        exact htype
      · rw [hdisk]
        exact htype
      · rw [hslot, hdisk]
        exact fun _ ↦ rfl
    · exact (hclear hpc).elim

/-- `iput` unlocks the inode that it freed; the slot is not valid any more. -/
theorem inv_clearValid (h : Inv s) {p : P} {i : Slotno} (hpc : s.pc p = .clearValid i) :
    Inv ((s.setSlot i { s.slot i with valid := false, lock := none }).goto p (.drop i)) := by
  have hfrees : (s.pc p).Frees i := by
    rw [hpc]
    rfl
  have hl : Local s ((s.setSlot i { s.slot i with valid := false, lock := none }).goto p (.drop i))
      p i := by
    refine Local.goto ?_ (fun j hj (hc : i = j) ↦ hj hc.symm)
    apply Local.setSlot (Local.refl (fun _ hj ↦ hfrees.locks.apart hj))
    exact ⟨rfl, rfl⟩
  have hslot :
      ((s.setSlot i { s.slot i with valid := false, lock := none }).goto p (.drop i)).slot i =
      { s.slot i with valid := false, lock := none } := setSlot_slot s i _
  exact hl.exclusive h ((h.slots i).user p hfrees.locks.uses)
    (Or.inr ((h.slots i).locks p hfrees.locks))
    hslot (goto_pc_self _ p _) (Or.inl rfl) rfl rfl False.elim (fun _ ↦ rfl) False.elim
    (fun hc ↦ nomatch ((h.slots i).frees p hfrees).2.symm.trans hc) (fun hc ↦ nomatch hc)

/-- `iget` of an inode without a slot, in an empty one. -/
theorem inv_recycle (h : Inv s) (p : P) {dev inum : Nat} {i : Slotno}
    (hfind : s.find dev inum = none) (hi : (s.slot i).ref = 0) :
    Inv ((s.setSlot i { s.slot i with dev := dev, inum := inum, ref := 1, valid := false }).setOwn
      p i (s.own p i + 1)) := by
  have hnew (j : Slotno) (hj : 0 < (s.slot j).ref) :
      ¬ ((s.slot j).dev = dev ∧ (s.slot j).inum = inum) := by
    intro hkey
    have := List.find?_eq_none.mp hfind j (List.mem_finRange j)
    simp only [hj, hkey, and_self, decide_true, not_true] at this
  obtain ⟨hlock, huser⟩ := (h.slots i).unused hi
  generalize ht :
    (s.setSlot i { s.slot i with dev := dev, inum := inum, ref := 1, valid := false }).setOwn
    p i (s.own p i + 1) = t
  have hslot : t.slot i = { s.slot i with dev := dev, inum := inum, ref := 1, valid := false } := by
    rw [← ht]
    exact setSlot_slot s i _
  have hother (j : Slotno) (hj : j ≠ i) : t.slot j = s.slot j := by
    rw [← ht]
    exact Function.update_of_ne hj _ _
  have hpc : t.pc = s.pc := by
    rw [← ht]
    rfl
  have hdirty : t.dirty = s.dirty := by
    rw [← ht]
    rfl
  have hown (q : P) (j : Slotno) :
      t.own q j = if q = p ∧ j = i then s.own p i + 1 else s.own q j := by
    rw [← ht]
    exact setOwn_own _ p i _ q j
  refine ⟨?_, ?_⟩
  · intro j
    by_cases hj : j = i
    · rw [hj]
      have hrefs := (h.slots i).refs
      refine ⟨?_, ?_, ?_, ?_, ?_, ?_, ?_, ?_⟩
      · have hsum := sum_setOwn (s.setSlot i
          { s.slot i with dev := dev, inum := inum, ref := 1, valid := false }) p i (s.own p i + 1)
        change ∑ q, (State.setOwn p i (s.own p i + 1) _).own q i + s.own p i =
            ∑ q, s.own q i + _ at hsum
        rw [ht] at hsum
        rw [hslot]
        change 1 = _
        omega
      · intro q hq
        rw [hslot] at hq
        cases hlock.symm.trans hq
      · rw [hpc]
        exact fun q hq ↦ (huser q hq).elim
      · rw [hpc]
        exact fun q hq ↦ (huser q hq.uses).elim
      · intro q _ hq
        rw [hslot] at hq
        cases hlock.symm.trans hq
      · rw [hpc]
        exact fun q hq ↦ (huser q hq.locks.uses).elim
      · rw [hslot, hdirty]
        exact (h.slots i).dirty
      · rw [hslot]
        exact fun _ hc ↦ nomatch hc
    · apply (h.slots j).congr (hother j hj) (by rw [hdirty]) _ _ (fun q ↦ Or.inl (by rw [hpc]))
      · intro q
        rw [hown, if_neg (fun hc ↦ hj hc.2)]
      · intro _
        rw [State.disk, hother j hj, ← ht]
        rfl
  · intro j k hj hk hdev hinum
    by_cases hji : j = i
    · by_cases hki : k = i
      · rw [hji, hki]
      · rw [hji, hslot, hother k hki] at hdev hinum
        rw [hother k hki] at hk
        exact (hnew k hk ⟨hdev.symm, hinum.symm⟩).elim
    · rw [hother j hji] at hj hdev hinum
      by_cases hki : k = i
      · rw [hki, hslot] at hdev hinum
        exact (hnew j hj ⟨hdev, hinum⟩).elim
      · rw [hother k hki] at hk hdev hinum
        exact h.one j k hj hk hdev hinum

omit [Fintype P] [DecidableEq P] in
theorem find_ref {dev inum : Nat} (h : s.find dev inum = some i) : 0 < (s.slot i).ref := by
  have := List.find?_some h
  simp only [decide_eq_true_eq] at this
  exact this.1

omit [Fintype P] [DecidableEq P] in
theorem empty_ref (h : s.empty = some i) : (s.slot i).ref = 0 := by
  have := List.find?_some h
  simpa only [decide_eq_true_eq] using this

/-- `ialloc` allocates an inode that is free on the disk. A slot of that inode is not valid, or the
`iput` that freed it is about to clear `valid`. -/
theorem inv_ialloc (h : Inv s) {p : P} {dev inum : Nat} (ip : Dinode) (hpc : ∀ j, ¬ (s.pc p).Uses j)
    (hfree : (s.dinode dev inum).type = 0) :
    Inv ((s.setDinode dev inum ip).goto p (.iget dev inum)) := by
  refine inv_goto (s := s.setDinode dev inum ip) ?_ hpc (fun _ ↦ id)
  refine ⟨?_, h.one⟩
  intro j
  have hok := h.slots j
  refine ⟨hok.refs, hok.holder, hok.user, hok.locks, hok.unlocked, hok.frees, hok.dirty, ?_⟩
  intro href hvalid hclear
  have hagrees : Agrees s j := hok.agrees href hvalid hclear
  refine hagrees.congr rfl ?_ rfl
  change Function.update s.dinode dev (Function.update _ inum ip) (s.slot j).dev (s.slot j).inum = _
  by_cases hdev : (s.slot j).dev = dev
  · rw [hdev, Function.update_self, Function.update_of_ne, State.disk, hdev]
    intro hinum
    have hdisk := hagrees.allocated
    rw [State.disk, hdev, hinum] at hdisk
    exact hdisk hfree
  · rw [Function.update_of_ne hdev]
    rfl

/-! ### Every run -/

/-- What a step establishes: after a panic nothing runs, and the invariant is not needed. -/
structure StepOk (s t : State P) : Prop where
  coherent : Coherent t
  keeps : KeepsSlots s t
  inv : t.panic = none → Inv t

omit [DecidableEq P] in
theorem StepOk.of_inv (h : Inv t) (hk : KeepsSlots s t) : StepOk s t := ⟨h.coherent, hk, fun _ ↦ h⟩

omit [DecidableEq P] in
theorem StepOk.fail (h : Inv s) (msg : String) : StepOk s (s.fail msg) :=
  ⟨⟨h.one, h.coherent.fields⟩, fun _ _ ↦ ⟨rfl, rfl⟩, fun hc ↦ nomatch hc⟩

omit [Fintype P] [DecidableEq P] in
theorem keepsSlots_setSlot {x : Slot P} (ht : t.slot = (s.setSlot i x).slot)
    (hx : 0 < (s.slot i).ref → x.dev = (s.slot i).dev ∧ x.inum = (s.slot i).inum) :
    KeepsSlots s t := by
  intro j hj
  rw [ht]
  by_cases hji : j = i
  · rw [hji] at hj ⊢
    rw [setSlot_slot]
    exact hx hj
  · change ((Function.update s.slot i x) j).dev = _ ∧ ((Function.update s.slot i x) j).inum = _
    rw [Function.update_of_ne hji]
    exact ⟨rfl, rfl⟩

omit [Fintype P] in
theorem iget_pc (s : State P) (p : P) (dev inum : Nat) : (s.iget p dev inum).pc = s.pc := by
  unfold State.iget
  split
  · rfl
  · split <;> rfl

theorem stepOk_iget (h : Inv s) {p : P} (hpc : ∀ j, ¬ (s.pc p).Uses j) (dev inum : Nat) :
    StepOk s (s.iget p dev inum) := by
  unfold State.iget
  split
  · next hfind =>
    exact StepOk.of_inv (inv_addRef h hpc (find_ref hfind))
      (keepsSlots_setSlot rfl (fun _ ↦ ⟨rfl, rfl⟩))
  · next hfind =>
    split
    · next i hempty =>
      refine StepOk.of_inv (inv_recycle h p hfind (empty_ref hempty)) (keepsSlots_setSlot rfl ?_)
      intro hi
      rw [empty_ref hempty] at hi
      omega
    · exact StepOk.fail h _

omit [Fintype P] [DecidableEq P] in
/-- With the lock held, the fields do not matter. -/
theorem Coherent.setSlot (h : Coherent s) {x : Slot P} (hlock : x.lock ≠ none)
    (href : x.ref = (s.slot i).ref) (hkey : x.dev = (s.slot i).dev ∧ x.inum = (s.slot i).inum) :
    Coherent (s.setSlot i x) := by
  have hother (j : Slotno) (hj : j ≠ i) : (s.setSlot i x).slot j = s.slot j :=
    Function.update_of_ne hj _ _
  refine ⟨h.one.congr ?_ ?_, ?_⟩
  · intro j
    by_cases hj : j = i
    · rw [hj, setSlot_slot, href]
      exact id
    · rw [hother j hj]
      exact id
  · intro j
    by_cases hj : j = i
    · rw [hj, setSlot_slot]
      exact hkey
    · rw [hother j hj]
      exact ⟨rfl, rfl⟩
  · intro j
    by_cases hj : j = i
    · rw [hj, setSlot_slot]
      exact fun hfree ↦ (hlock hfree).elim
    · rw [State.disk, hother j hj]
      exact h.fields j

theorem stepOk_readInode (h : Inv s) {p : P} {i : Slotno} (hpc : s.pc p = .ilocked i) :
    StepOk s (s.readInode p i) := by
  have hlock : (s.slot i).lock = some p := (h.slots i).locks p (by rw [hpc]; rfl)
  have hkeeps :
      KeepsSlots s ((s.setSlot i { s.slot i with ip := s.disk i, valid := true }).goto p .out) :=
    keepsSlots_setSlot rfl (fun _ ↦ ⟨rfl, rfl⟩)
  unfold State.readInode
  split
  · next hvalid => exact StepOk.of_inv (inv_ilocked h hpc hvalid) (fun _ _ ↦ ⟨rfl, rfl⟩)
  · simp only
    split
    · have hnoType : Coherent (s.setSlot i { s.slot i with ip := s.disk i, valid := true }) := by
        refine h.coherent.setSlot ?_ ?_ ?_
        · exact fun hc ↦ nomatch hlock.symm.trans hc
        · rfl
        · exact ⟨rfl, rfl⟩
      exact ⟨⟨hnoType.one, hnoType.fields⟩, hkeeps, fun hc ↦ nomatch hc⟩
    · next htype => exact StepOk.of_inv (inv_fill h hpc htype) hkeeps

theorem stepOk_iput (h : Inv s) {p : P} {i : Slotno} (hpc : s.pc p = .out) (hspare : s.Spare p i) :
    StepOk s (s.iput p i) := by
  have huses : ∀ j, ¬ (s.pc p).Uses j := by
    rw [hpc]
    exact fun _ ↦ id
  unfold State.iput
  simp only
  split
  · next hlast =>
    rw [if_pos ((h.slots i).alone hspare hlast.1)]
    refine StepOk.of_inv ?_ (keepsSlots_setSlot rfl (fun _ ↦ ⟨rfl, rfl⟩))
    exact inv_acquire h (fun j _ ↦ huses j) hspare.1 ((h.slots i).alone hspare hlast.1)
      (by rw [hpc]; exact fun hc ↦ nomatch hc) (Or.inr ⟨rfl, hlast.2.1⟩)
  · have hstay : s.dropRef p i = (s.dropRef p i).goto p .out := by
      rw [State.goto, ← hpc]
      change _ = { s.dropRef p i with pc := Function.update s.pc p (s.pc p) }
      rw [Function.update_eq_self]
      rfl
    rw [hstay]
    exact StepOk.of_inv (inv_dropRef h (fun j _ ↦ huses j) (fun hc ↦ huses i hc.uses) (fun _ ↦ id)
      hspare.1 hspare.2) (keepsSlots_setSlot rfl (fun _ ↦ ⟨rfl, rfl⟩))

theorem stepOk_next (h : Inv s) {ninodes : Nat} {p : P} (hnext : s.next ninodes p = some t) :
    StepOk s t := by
  unfold State.next at hnext
  cases hpc : s.pc p with
  | out =>
    rw [hpc] at hnext
    cases hnext
  | ilock i =>
    simp only [hpc] at hnext
    split at hnext
    · next hlock =>
      cases hnext
      refine StepOk.of_inv ?_ (keepsSlots_setSlot rfl (fun _ ↦ ⟨rfl, rfl⟩))
      refine inv_acquire h ?_ ((h.slots i).user p (by rw [hpc]; rfl)) hlock ?_ (Or.inl rfl)
      · rw [hpc]
        exact fun j hj (hc : i = j) ↦ hj hc.symm
      · rw [hpc]
        exact fun hc ↦ nomatch hc
    · cases hnext
  | ilocked i =>
    simp only [hpc] at hnext
    cases hnext
    exact stepOk_readInode h hpc
  | itrunc i =>
    simp only [hpc] at hnext
    cases hnext
    have hfrees : (s.pc p).Frees i := by
      rw [hpc]
      rfl
    have hagrees := (h.slots i).agrees_of ((h.slots i).user p hfrees.locks.uses)
      ((h.slots i).frees p hfrees).1 (Or.inr ((h.slots i).locks p hfrees.locks)) hpc
      (fun hc ↦ nomatch hc)
    exact StepOk.of_inv (inv_free h hfrees (Or.inl ⟨rfl, hagrees.type⟩))
      (keepsSlots_setSlot rfl (fun _ ↦ ⟨rfl, rfl⟩))
  | iupdate i =>
    simp only [hpc] at hnext
    cases hnext
    exact StepOk.of_inv (inv_free h (by rw [hpc]; rfl) (Or.inr rfl))
      (keepsSlots_setSlot rfl (fun _ ↦ ⟨rfl, rfl⟩))
  | clearValid i =>
    simp only [hpc] at hnext
    cases hnext
    exact StepOk.of_inv (inv_clearValid h hpc) (keepsSlots_setSlot rfl (fun _ ↦ ⟨rfl, rfl⟩))
  | drop i =>
    simp only [hpc] at hnext
    cases hnext
    refine StepOk.of_inv ?_ (keepsSlots_setSlot rfl (fun _ ↦ ⟨rfl, rfl⟩))
    refine inv_dropRef h ?_ ?_ (fun _ ↦ id) ((h.slots i).user p (by rw [hpc]; rfl)) ?_
    · rw [hpc]
      exact fun j hj (hc : i = j) ↦ hj hc.symm
    · rw [hpc]
      exact id
    · exact fun hlock ↦ ((h.slots i).unlocked p hpc hlock).elim
  | ialloc dev type inum =>
    have huses : ∀ j, ¬ (s.pc p).Uses j := by
      rw [hpc]
      exact fun _ ↦ id
    simp only [hpc] at hnext
    split at hnext
    · split at hnext
      · next hfree =>
        cases hnext
        exact StepOk.of_inv (inv_ialloc h _ huses hfree) (fun _ _ ↦ ⟨rfl, rfl⟩)
      · cases hnext
        exact StepOk.of_inv (inv_goto h huses (fun _ ↦ id)) (fun _ _ ↦ ⟨rfl, rfl⟩)
    · cases hnext
      exact StepOk.of_inv (inv_goto h huses (fun _ ↦ id)) (fun _ _ ↦ ⟨rfl, rfl⟩)
  | iget dev inum =>
    have huses : ∀ j, ¬ (s.pc p).Uses j := by
      rw [hpc]
      exact fun _ ↦ id
    simp only [hpc] at hnext
    cases hnext
    have hget := stepOk_iget h huses dev inum
    refine ⟨⟨hget.coherent.one, hget.coherent.fields⟩, hget.keeps, ?_⟩
    intro hpanic
    refine inv_goto (hget.inv hpanic) ?_ (fun _ ↦ id)
    rw [iget_pc]
    exact huses

/-- Every step, from a state with the invariant. -/
theorem step_ok (h : Inv s) {ninodes : Nat} {a : Act P} (hstep : s.step ninodes a = some t) :
    StepOk s t := by
  have hout {p : P} (hpc : s.pc p = .out) (j : Slotno) : ¬ (s.pc p).Uses j := by
    rw [hpc]
    exact id
  unfold State.step at hstep
  split at hstep <;> split at hstep <;> try cases hstep
  · next p dev inum hg => exact stepOk_iget h (hout hg.2) dev inum
  · next p i hg =>
    exact StepOk.of_inv (inv_addRef h (hout hg.2.1) ((h.slots i).ref_pos hg.2.2))
      (keepsSlots_setSlot rfl (fun _ ↦ ⟨rfl, rfl⟩))
  · next p q i hg => exact StepOk.of_inv (inv_give h q (hout hg.2.1) hg.2.2) (fun _ _ ↦ ⟨rfl, rfl⟩)
  · next p i hg =>
    have hpos := (h.slots i).ref_pos hg.2.2
    rw [if_neg (by omega)] at hstep
    cases hstep
    exact StepOk.of_inv (inv_ilock h (hout hg.2.1) hg.2.2) (fun _ _ ↦ ⟨rfl, rfl⟩)
  · next p i ip hg =>
    exact StepOk.of_inv (inv_modify h hg.2.1 hg.2.2.1 hg.2.2.2)
      (keepsSlots_setSlot rfl (fun _ ↦ ⟨rfl, rfl⟩))
  · next p i hg => exact StepOk.of_inv (inv_iupdate h hg.2.1 hg.2.2) (fun _ _ ↦ ⟨rfl, rfl⟩)
  · next p i hg =>
    have hpos := (h.slots i).ref_pos ((h.slots i).holder p hg.2.2.1)
    rw [if_neg (by omega)] at hstep
    cases hstep
    exact StepOk.of_inv (inv_iunlock h hg.2.1 hg.2.2.1 hg.2.2.2)
      (keepsSlots_setSlot rfl (fun _ ↦ ⟨rfl, rfl⟩))
  · next p i hg => exact stepOk_iput h hg.2.1 hg.2.2
  · next p dev type hg =>
    exact StepOk.of_inv (inv_goto h (hout hg.2) (fun _ ↦ id)) (fun _ _ ↦ ⟨rfl, rfl⟩)
  · exact stepOk_next h hstep

omit [Fintype P] in
/-- Nothing runs after a panic. -/
theorem panic_of_step {ninodes : Nat} {a : Act P} (hstep : s.step ninodes a = some t) :
    s.panic = none := by
  unfold State.step at hstep
  split at hstep <;> split at hstep <;> first | cases hstep; done | skip
  all_goals
    next hg => first | exact hg.1 | exact hg

omit [DecidableEq P] in
theorem inv_iinit (dinode : Nat → Nat → Dinode) : Inv (State.iinit dinode : State P) := by
  refine ⟨?_, ?_⟩
  · intro i
    refine ⟨?_, ?_, ?_, ?_, ?_, ?_, ?_, ?_⟩
    · exact Finset.sum_const_zero.symm
    · exact fun _ hc ↦ nomatch hc
    · exact fun _ hc ↦ hc.elim
    · exact fun _ hc ↦ hc.elim
    · exact fun _ hc ↦ nomatch hc
    · exact fun _ hc ↦ hc.elim
    · exact fun hc ↦ nomatch hc
    · exact fun hc ↦ (Nat.lt_irrefl 0 hc).elim
  · exact fun _ _ hc ↦ (Nat.lt_irrefl 0 hc).elim

/-- In every run, with any number of processes and any disks, after every step: an inode has one
slot at most, and a valid slot whose lock is free has the fields of the on-disk inode; and no step
assigns a slot with references to another inode. -/
theorem table_coherent (ninodes : Nat) (dinode : Nat → Nat → Dinode) (as : List (Act P)) :
    Always (State.step ninodes) Coherent (State.iinit dinode) as ∧
      Along (State.step ninodes) (fun s a ↦ ∀ t, s.step ninodes a = some t → KeepsSlots s t)
        (State.iinit dinode) as := by
  let J : State P → Prop := fun s ↦ Coherent s ∧ (s.panic = none → Inv s)
  have hinit : J (State.iinit dinode) := ⟨(inv_iinit dinode).coherent, fun _ ↦ inv_iinit dinode⟩
  have hkeep (s : State P) (a : Act P) (t : State P) (hJ : J s)
      (hstep : s.step ninodes a = some t) :
      J t := by
    have hok := step_ok (hJ.2 (panic_of_step hstep)) hstep
    exact ⟨hok.coherent, hok.inv⟩
  refine ⟨?_, ?_⟩
  · exact always_of_invariant (fun _ hJ ↦ hJ.1) hkeep hinit as
  · apply along_of_invariant _ hkeep hinit as
    intro s a hJ t hstep
    exact (step_ok (hJ.2 (panic_of_step hstep)) hstep).keeps

/-- Process 1 allocates the inode that the `iput` of process 0 has freed but still holds. -/
example : let i : Slotno := ⟨0, by decide⟩
    (run (State.step 3) (State.iinit (fun _ inum ↦ newDinode inum) : State (Fin 2))
      [.iget 0 1 1, .ilock 0 i, .next 0, .next 0, .iunlock 0 i, .iput 0 i, .next 0, .next 0,
        .ialloc 1 1 2, .next 1, .next 1, .next 0, .next 0]).map
      (fun s ↦ ((s.slot i).ref, (s.slot i).valid)) = some (1, false) := by
  decide

end Xv6.Itable
