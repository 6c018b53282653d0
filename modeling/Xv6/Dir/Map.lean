import Xv6.Dir.Model
import Xv6.Lib.Run

/-!
# A directory is a finite map

The entries of a directory bind keys to inode numbers. `dirlookup` reads the map, `dirlink` adds a
binding and `sys_unlink` removes one; an empty entry may be used again for another key.
-/

namespace Xv6.Dir

open Xv6.Lib Xv6.Fs

/-! ### Entries -/

/-- The bytes of entry `j` of a directory with the given content. -/
def slot (c : List UInt8) (j : Nat) : List UInt8 := (c.drop (DESIZE * j)).take DESIZE

/-- The inode number of entry `j`, or 0 if it is empty. -/
def slotInum (c : List UInt8) (j : Nat) : Nat := direntInum (slot c j)

/-- The key of entry `j`. -/
def slotKey (c : List UInt8) (j : Nat) : List UInt8 := key (direntName (slot c j))

/-- The number of entries, empty ones included. -/
def slots (c : List UInt8) : Nat := c.length / DESIZE

/-- Does entry `j` bind the key? -/
def binds (c : List UInt8) (k : List UInt8) (j : Nat) : Bool := slotInum c j ≠ 0 ∧ slotKey c j = k

/-- The map: the inode number that a key is bound to. -/
def dirMap (c : List UInt8) (k : List UInt8) : Option Nat :=
  (firstFrom (binds c k) 0 (slots c)).map (slotInum c)

/-- No key occurs in two entries that are not empty. -/
def Unique (c : List UInt8) : Prop :=
  ∀ k j j', j < slots c → j' < slots c → binds c k j = true → binds c k j' = true → j = j'

/-- A directory: block ownership holds, and its entries fill it and have different keys. -/
structure DirOk (sb : Super) (d : Disk) (i : Nat) : Prop where
  ownership : BlockOwnership sb d
  inode : i < sb.ninodes
  type : (dinode sb d i).type = T_DIR
  entries : (dinode sb d i).size % DESIZE = 0
  unique : Unique (content sb d i)

/-- A slot can be obtained: an entry is empty, or the directory can grow. -/
def Room (sb : Super) (d : Disk) (i : Nat) : Prop :=
  (∃ j, j < slots (content sb d i) ∧ slotInum (content sb d i) j = 0) ∨
    (dinode sb d i).size + DESIZE ≤ MAXFILE * BSIZE ∧
      Enough sb d (dinode sb d i) (dinode sb d i).size DESIZE

section
variable {c de : List UInt8} {j : Nat}

theorem getElem?_slot (bs : List UInt8) (j k : Nat) :
    (slot bs j)[k]? = if k < DESIZE then bs[DESIZE * j + k]? else none := by
  rw [slot, List.getElem?_take]
  split
  · rw [List.getElem?_drop]
  · rfl

/-- Storing an entry leaves the others as they are. -/
theorem slot_splice (hj : DESIZE * j ≤ c.length) (hde : de.length = DESIZE) (j' : Nat) :
    slot (splice c (DESIZE * j) de) j' = if j' = j then de else slot c j' := by
  apply List.ext_getElem?
  intro k
  rw [getElem?_slot, getElem?_splice hj, hde]
  by_cases hjj : j' = j
  · rw [if_pos hjj, hjj]
    by_cases hk : k < DESIZE
    · rw [if_pos hk, if_pos (by omega), Nat.add_sub_cancel_left]
    · rw [if_neg hk, List.getElem?_eq_none (by omega)]
  · rw [if_neg hjj, getElem?_slot]
    by_cases hk : k < DESIZE
    · rw [if_pos hk, if_pos hk, if_neg]
      simp only [DESIZE] at hk ⊢
      omega
    · rw [if_neg hk, if_neg hk]

theorem slots_splice (hj : DESIZE * j ≤ c.length) (hde : de.length = DESIZE)
    (hc : c.length % DESIZE = 0) : slots (splice c (DESIZE * j) de) = max (slots c) (j + 1) := by
  rw [slots, slots, length_splice hj, hde]
  simp only [DESIZE] at *
  omega

theorem binds_splice (hj : DESIZE * j ≤ c.length) (hde : de.length = DESIZE) (k : List UInt8)
    (j' : Nat) :
    binds (splice c (DESIZE * j) de) k j' =
      if j' = j then decide (direntInum de ≠ 0 ∧ key (direntName de) = k) else binds c k j' := by
  unfold binds slotInum slotKey
  rw [slot_splice hj hde]
  split <;> rfl

theorem dirMap_eq_none {k : List UInt8} :
    dirMap c k = none ↔ ∀ j, j < slots c → binds c k j = false := by
  unfold dirMap
  rw [Option.map_eq_none_iff]
  constructor
  · intro h j hj
    exact firstFrom_eq_none h j (Nat.zero_le j) (by omega)
  · intro h
    cases hf : firstFrom (binds c k) 0 (slots c) with
    | none => rfl
    | some j =>
      obtain ⟨-, hlt, hb, -⟩ := firstFrom_eq_some hf
      rw [h j (by omega)] at hb
      cases hb

/-- The first entry that binds a key is the only one. -/
theorem Unique.firstFrom (h : Unique c) {k : List UInt8} (hj : j < slots c)
    (hb : binds c k j = true) :
    firstFrom (binds c k) 0 (slots c) = some j := by
  cases hf : Lib.firstFrom (binds c k) 0 (slots c) with
  | none =>
    have := firstFrom_eq_none hf j (Nat.zero_le j) (by omega)
    rw [hb] at this
    cases this
  | some j' =>
    obtain ⟨-, hlt, hb', -⟩ := firstFrom_eq_some hf
    rw [h k j j' hj (by omega) hb hb']

theorem Unique.dirMap (h : Unique c) {k : List UInt8} (hj : j < slots c) (hb : binds c k j = true) :
    dirMap c k = some (slotInum c j) := by
  rw [Dir.dirMap, h.firstFrom hj hb]
  rfl

theorem dirMap_eq_some {k : List UInt8} {inum : Nat} (h : dirMap c k = some inum) :
    ∃ j, j < slots c ∧ binds c k j = true ∧ slotInum c j = inum := by
  unfold dirMap at h
  obtain ⟨j, hj, hinum⟩ := Option.map_eq_some_iff.mp h
  obtain ⟨-, hlt, hb, -⟩ := firstFrom_eq_some hj
  exact ⟨j, by omega, hb, hinum⟩

/-! ### Storing an entry -/

/-- Storing an entry at a place of the directory or at its end. -/
structure Place (c de : List UInt8) (j : Nat) : Prop where
  entries : c.length % DESIZE = 0
  le : j ≤ slots c
  length : de.length = DESIZE

namespace Place
variable (h : Place c de j)

include h

theorem offset : DESIZE * j ≤ c.length := by
  have hle := h.le
  simp only [slots, DESIZE] at hle ⊢
  omega

theorem lt {j' : Nat} (hj' : j' < slots (splice c (DESIZE * j) de)) (hne : j' ≠ j) :
    j' < slots c := by
  have hle := h.le
  rw [slots_splice h.offset h.length h.entries] at hj'
  omega

theorem lt' {j' : Nat} (hj' : j' < slots c) : j' < slots (splice c (DESIZE * j) de) := by
  rw [slots_splice h.offset h.length h.entries]
  omega

theorem unique (hu : Unique c) (hnew : direntInum de ≠ 0 →
      ∀ j', j' < slots c → j' ≠ j → binds c (key (direntName de)) j' = false) :
    Unique (splice c (DESIZE * j) de) := by
  have hother {k : List UInt8} {j' : Nat} (hj' : j' < slots (splice c (DESIZE * j) de))
      (hne : j' ≠ j)
      (hbind : decide (direntInum de ≠ 0 ∧ key (direntName de) = k) = true)
      (hb : binds c k j' = true) :
      False := by
    have hde := of_decide_eq_true hbind
    have := hnew hde.1 j' (h.lt hj' hne) hne
    rw [hde.2, hb] at this
    cases this
  intro k j₁ j₂ h₁ h₂ hb₁ hb₂
  rw [binds_splice h.offset h.length] at hb₁ hb₂
  by_cases hj₁ : j₁ = j
  · rw [if_pos hj₁] at hb₁
    by_cases hj₂ : j₂ = j
    · rw [hj₁, hj₂]
    · rw [if_neg hj₂] at hb₂
      exact (hother h₂ hj₂ hb₁ hb₂).elim
  · rw [if_neg hj₁] at hb₁
    by_cases hj₂ : j₂ = j
    · rw [if_pos hj₂] at hb₂
      exact (hother h₁ hj₁ hb₂ hb₁).elim
    · rw [if_neg hj₂] at hb₂
      exact hu k j₁ j₂ (h.lt h₁ hj₁) (h.lt h₂ hj₂) hb₁ hb₂

/-- Keys that neither the old entry nor the new one binds. -/
theorem dirMap_other (hu : Unique (splice c (DESIZE * j) de)) {k : List UInt8}
    (hold : j < slots c → binds c k j = false)
    (hnew : ¬ (direntInum de ≠ 0 ∧ key (direntName de) = k)) :
    dirMap (splice c (DESIZE * j) de) k = dirMap c k := by
  cases hmap : dirMap c k with
  | none =>
    rw [dirMap_eq_none] at hmap ⊢
    intro j' hj'
    rw [binds_splice h.offset h.length]
    split
    · exact decide_eq_false hnew
    · next hne => exact hmap j' (h.lt hj' hne)
  | some inum =>
    obtain ⟨j', hj', hb, hinum⟩ := dirMap_eq_some hmap
    have hne : j' ≠ j := by
      intro he
      rw [he] at hj' hb
      rw [hold hj'] at hb
      cases hb
    rw [hu.dirMap (h.lt' hj') (by rw [binds_splice h.offset h.length, if_neg hne]; exact hb),
      ← hinum, slotInum, slot_splice h.offset h.length, if_neg hne]
    rfl

/-- The new entry binds its key. -/
theorem dirMap_self (hu : Unique (splice c (DESIZE * j) de)) (hde : direntInum de ≠ 0) :
    dirMap (splice c (DESIZE * j) de) (key (direntName de)) = some (direntInum de) := by
  have hj : j < slots (splice c (DESIZE * j) de) := by
    rw [slots_splice h.offset h.length h.entries]
    omega
  rw [hu.dirMap hj, slotInum, slot_splice h.offset h.length, if_pos rfl]
  rw [binds_splice h.offset h.length, if_pos rfl]
  exact decide_eq_true ⟨hde, rfl⟩

/-- A new binding in an empty entry, or at the end. -/
theorem link (hu : Unique c) (hempty : j < slots c → slotInum c j = 0) (hde : direntInum de ≠ 0)
    (hfree : dirMap c (key (direntName de)) = none) :
    Unique (splice c (DESIZE * j) de) ∧ dirMap (splice c (DESIZE * j) de) =
      Function.update (dirMap c) (key (direntName de)) (some (direntInum de)) := by
  have hu' := h.unique hu (fun _ j' hj' _ ↦ dirMap_eq_none.mp hfree j' hj')
  refine ⟨hu', ?_⟩
  funext k
  by_cases hk : k = key (direntName de)
  · rw [hk, Function.update_self]
    exact h.dirMap_self hu' hde
  · rw [Function.update_of_ne hk]
    refine h.dirMap_other hu' ?_ (fun hc ↦ hk hc.2.symm)
    intro hj
    apply decide_eq_false
    exact fun hc ↦ hc.1 (hempty hj)

/-- An entry is emptied. -/
theorem unlink (hu : Unique c) (hj : j < slots c) {k : List UInt8} (hb : binds c k j = true)
    (hde : direntInum de = 0) :
    Unique (splice c (DESIZE * j) de) ∧ dirMap (splice c (DESIZE * j) de) =
      Function.update (dirMap c) k none := by
  have hu' := h.unique hu (fun hne ↦ (hne hde).elim)
  refine ⟨hu', ?_⟩
  funext k'
  by_cases hk : k' = k
  · rw [hk, Function.update_self, dirMap_eq_none]
    intro j' hj'
    rw [binds_splice h.offset h.length]
    split
    · exact decide_eq_false (fun hc ↦ hc.1 hde)
    · next hne =>
      cases hb' : binds c k j' with
      | false => rfl
      | true => exact (hne (hu k j' j (h.lt hj' hne) hj hb' hb)).elim
  · rw [Function.update_of_ne hk]
    refine h.dirMap_other hu' ?_ (fun hc ↦ hc.1 hde)
    intro _
    cases hb' : binds c k' j with
    | false => rfl
    | true =>
      have h₁ := (of_decide_eq_true hb).2
      have h₂ := (of_decide_eq_true hb').2
      exact (hk (h₂.symm.trans h₁)).elim

end Place

end

/-! ### The loops -/

variable {sb : Super} {d d' : Disk} {i : Nat}

namespace DirOk
variable (h : DirOk sb d i)

include h

theorem allocated : (dinode sb d i).type ≠ 0 := by
  rw [h.type]
  decide

theorem size_le : (dinode sb d i).size ≤ MAXFILE * BSIZE := h.ownership.size_le h.inode h.allocated

theorem length : (content sb d i).length % DESIZE = 0 := by
  rw [length_content]
  exact h.entries

theorem lt_size {j : Nat} : DESIZE * j < (dinode sb d i).size ↔ j < slots (content sb d i) := by
  have hentries := h.entries
  rw [slots, length_content]
  simp only [DESIZE] at *
  omega

/-- `readi` of an entry. -/
theorem readi_slot {j : Nat} (hj : j < slots (content sb d i)) :
    readi sb (dinode sb d i) (fun _ ↦ true) (DESIZE * j) DESIZE d =
      .ok (some DESIZE, slot (content sb d i) j, dinode sb d i, d) := by
  have hlt := h.lt_size.mpr hj
  have hle := h.size_le
  have hentries := h.entries
  have hmin : min DESIZE ((dinode sb d i).size - DESIZE * j) = DESIZE := by
    simp only [DESIZE] at *
    omega
  have hread := readi_eq h.ownership h.inode h.allocated (show DESIZE * j + DESIZE < 2 ^ 32 by
    simp only [DESIZE, MAXFILE, NDIRECT, NINDIRECT, BSIZE] at *; omega)
      (fun k _ ↦ (rfl : (fun _ ↦ true) k = true))
  rw [hmin] at hread
  exact hread

theorem dirlookupLoop_eq (name : Name) {fuel j : Nat} (hfuel : slots (content sb d i) ≤ fuel + j) :
    dirlookupLoop sb name fuel (DESIZE * j) (dinode sb d i) d =
      .ok ((firstFrom (binds (content sb d i) (key name)) j (slots (content sb d i) - j)).map
        (fun j ↦ (slotInum (content sb d i) j, DESIZE * j)), dinode sb d i, d) := by
  induction fuel generalizing j with
  | zero =>
    rw [show slots (content sb d i) - j = 0 by omega]
    rfl
  | succ fuel ih =>
    rw [dirlookupLoop]
    split
    · next hlt =>
      have hj := h.lt_size.mp hlt
      have hnext : DESIZE * j + DESIZE = DESIZE * (j + 1) := rfl
      rw [h.readi_slot hj, hnext]
      simp only [bind, Except.bind, ne_eq, not_true, if_false, pure, Except.pure]
      rw [show slots (content sb d i) - j = slots (content sb d i) - (j + 1) + 1 by omega,
        firstFrom]
      have hslot : direntInum (slot (content sb d i) j) = slotInum (content sb d i) j := rfl
      rw [ih (by omega), hslot]
      by_cases hinum : slotInum (content sb d i) j = 0
      · have hb : binds (content sb d i) (key name) j = false :=
          decide_eq_false (fun hc ↦ hc.1 hinum)
        rw [if_pos hinum, hb]
        rfl
      · rw [if_neg hinum]
        by_cases hname : key name = slotKey (content sb d i) j
        · have hb : binds (content sb d i) (key name) j = true := decide_eq_true ⟨hinum, hname.symm⟩
          rw [if_pos ((namecmp_eq_zero _ _).mpr hname), hb]
          rfl
        · have hb : binds (content sb d i) (key name) j = false :=
            decide_eq_false (fun hc ↦ hname hc.2.symm)
          rw [if_neg (fun hc ↦ hname ((namecmp_eq_zero _ _).mp hc)), hb]
          rfl
    · next hge =>
      have hj := mt h.lt_size.mpr hge
      rw [show slots (content sb d i) - j = 0 by omega]
      rfl

/-- `dirlookup` finds the entry that binds the key. -/
theorem dirlookup_eq (name : Name) : dirlookup sb name (dinode sb d i) d =
    .ok ((firstFrom (binds (content sb d i) (key name)) 0 (slots (content sb d i))).map
      (fun j ↦ (slotInum (content sb d i) j, DESIZE * j)), dinode sb d i, d) := by
  rw [dirlookup, if_neg (fun hne ↦ hne h.type)]
  apply h.dirlookupLoop_eq name (j := 0)
  rw [slots, length_content]
  exact Nat.div_le_self _ _

/-- The search for an empty entry ends at one, or at the end of the directory. -/
theorem emptyLoop_eq {fuel j : Nat} (hfuel : slots (content sb d i) ≤ fuel + j)
    (hj : j ≤ slots (content sb d i)) :
    ∃ j', emptyLoop sb fuel (DESIZE * j) (dinode sb d i) d = .ok (DESIZE * j', dinode sb d i, d) ∧
      j' ≤ slots (content sb d i) ∧
      (j' < slots (content sb d i) → slotInum (content sb d i) j' = 0) ∧
      (j' = slots (content sb d i) →
        ∀ q, j ≤ q → q < slots (content sb d i) → slotInum (content sb d i) q ≠ 0) := by
  induction fuel generalizing j with
  | zero => exact ⟨j, rfl, hj, fun hlt ↦ by omega, fun _ q hlo hhi ↦ by omega⟩
  | succ fuel ih =>
    rw [emptyLoop]
    split
    · next hlt =>
      have hj := h.lt_size.mp hlt
      rw [h.readi_slot hj]
      simp only [bind, Except.bind, ne_eq, not_true, if_false, pure, Except.pure]
      have hslot : direntInum (slot (content sb d i) j) = slotInum (content sb d i) j := rfl
      rw [hslot]
      by_cases hinum : slotInum (content sb d i) j = 0
      · rw [if_pos hinum]
        exact ⟨j, rfl, by omega, fun _ ↦ hinum, fun he ↦ by omega⟩
      · rw [if_neg hinum]
        obtain ⟨j', hloop, hle, hempty, hfull⟩ := ih (j := j + 1) (by omega) (by omega)
        refine ⟨j', hloop, hle, hempty, ?_⟩
        intro he q hlo hhi
        by_cases hq : q = j
        · rw [hq]
          exact hinum
        · exact hfull he q (by omega) hhi
    · next hge =>
      have hj' := mt h.lt_size.mpr hge
      exact ⟨j, rfl, hj, fun hlt ↦ by omega, fun _ q hlo hhi ↦ by omega⟩

/-- The directory after an entry was stored. -/
theorem of_written {j : Nat} {de : List UInt8} (hplace : Place (content sb d i) de j)
    (hw : Written sb d i (DESIZE * j) de d')
    (hu : Unique (splice (content sb d i) (DESIZE * j) de)) : DirOk sb d' i where
  ownership := hw.ownership
  inode := h.inode
  type := hw.type.trans h.type
  entries := by
    have hentries := h.entries
    rw [hw.size, hplace.length]
    simp only [DESIZE] at *
    omega
  unique := by
    rw [hw.content]
    exact hu

/-- `writei` of an entry writes all of it or nothing. -/
theorem writei_slot {j : Nat} {de : List UInt8} (hplace : Place (content sb d i) de j)
    (hmax : DESIZE * j + DESIZE ≤ MAXFILE * BSIZE) :
    ∃ tot d', writei sb i (dinode sb d i) (fun k ↦ de[k]?) (DESIZE * j) DESIZE d =
        .ok (some tot, dinode sb d' i, d') ∧ (tot = DESIZE ∨ tot = 0) ∧
      Written sb d i (DESIZE * j) (de.take tot) d' ∧
      (j < slots (content sb d i) → tot = DESIZE) ∧
      (tot = DESIZE ↔ Enough sb d (dinode sb d i) (DESIZE * j) DESIZE) := by
  have hoff : DESIZE * j ≤ (dinode sb d i).size := by
    have := hplace.offset
    rwa [length_content] at this
  have hsrc (k : Nat) (_ : k < de.length) : (fun k ↦ de[k]?) k = de[k]? := rfl
  obtain ⟨tot, d', hwi, hw, hend, hpaid⟩ := writei_written h.ownership h.inode h.allocated hoff
    (by rw [hplace.length]; exact hmax) hsrc
  rw [hplace.length] at hwi hend hpaid
  have hcases : tot = DESIZE ∨ tot = 0 := by
    by_cases hlt : tot < DESIZE
    · have hedge := hend.edge hlt
      simp only [DESIZE, BSIZE] at hedge hlt ⊢
      omega
    · have := hend.le
      omega
  refine ⟨tot, d', hwi, hcases, hw, ?_, ?_⟩
  · -- an entry inside the directory is on a block of it
    intro hlt
    rcases hcases with ht | hz
    · exact ht
    · have hhole := hend.hole (by rw [hz]; decide)
      rw [hz, Nat.add_zero] at hhole
      apply ((hw.ownership.filled i h.inode (by rw [hw.type]; exact h.allocated)
        (DESIZE * j / BSIZE) _) hhole).elim
      have hlt' := h.lt_size.mpr hlt
      have := Nat.div_mul_le_self (DESIZE * j) BSIZE
      rw [hw.size]
      omega
  · have hpaid := hpaid _ _ (le_refl _) (le_refl _)
    constructor
    · intro htot
      -- the block and, if needed, the indirect block are there now
      have hzero : missing d' (dinode sb d' i) (DESIZE * j / BSIZE)
          ((DESIZE * j + DESIZE + BSIZE - 1) / BSIZE) = 0 := by
        apply missing_eq_zero
        · simp only [DESIZE, BSIZE]
          omega
        · intro k _ hk
          apply hw.ownership.filled i h.inode (by rw [hw.type]; exact h.allocated)
          rw [hw.size, htot, ← hplace.length, List.take_length, hplace.length]
          simp only [DESIZE, BSIZE] at hk ⊢
          omega
      unfold Paid at hpaid
      unfold Enough
      omega
    · intro henough
      exact hend.eq hpaid henough (le_refl _) (le_refl _)

end DirOk

/-! ### Operations -/

/-- What is done to the directory. -/
inductive Op where
  | dirlookup (name : Name)
  | dirlink (name : Name) (inum : Nat) (h : 1 ≤ inum ∧ inum < 65536)
  | unlink (name : Name)

/-- What it returns. -/
inductive Result where
  | found (inum off : Nat)
  | done
  | failed
  deriving DecidableEq, Repr

/-- The result of `dirlookup`. -/
def Result.ofLookup : Option (Nat × Nat) → Result
  | some (inum, off) => .found inum off
  | none => .failed

/-- Perform an operation on directory `i`, locked. -/
def Op.exec (sb : Super) (i : Nat) (d : Disk) : Op → Except String (Result × Disk)
  | .dirlookup name => do
    let dp ← ilock sb i d
    let (r, _, d) ← Dir.dirlookup sb name dp d
    return (Result.ofLookup r, d)
  | .dirlink name inum _ => do
    let dp ← ilock sb i d
    let (ok, _, d) ← Dir.dirlink sb i name inum dp d
    return (if ok then .done else .failed, d)
  | .unlink name => do
    let dp ← ilock sb i d
    let (ok, _, d) ← unlinkEntry sb i name dp d
    return (if ok then .done else .failed, d)

/-- A map from keys to inode numbers. -/
abbrev Map := List UInt8 → Option Nat

/-- What an operation does to the map: a `dirlink` that succeeds binds the key, an `unlink` that
succeeds removes its binding. -/
def Op.apply (m : Map) : Op → Result → Map
  | .dirlink name inum _, .done => Function.update m (key name) (some inum)
  | .unlink name, .done => Function.update m (key name) none
  | _, _ => m

/-- The entry at offset `off` binds the key to the inode number, and is the only one to bind it. -/
def OnlyEntry (c : List UInt8) (k : List UInt8) (inum off : Nat) : Prop :=
  ∃ j, off = DESIZE * j ∧ j < slots c ∧ slotKey c j = k ∧ slotInum c j = inum ∧
    ∀ j', j' < slots c → slotInum c j' ≠ 0 → slotKey c j' = k → j' = j

/-- What an operation has to return, when the directory on the disk is to represent the map `m`. -/
def Op.Returns (sb : Super) (i : Nat) (d : Disk) (m : Map) : Op → Result → Prop
  | .dirlookup name, r =>
    match m (key name) with
    | some inum => ∃ off, r = .found inum off ∧ OnlyEntry (content sb d i) (key name) inum off
    | none => r = .failed
  | .dirlink name _ _, r =>
    (r = .done ∨ r = .failed) ∧ (r = .failed ↔ m (key name) ≠ none ∨ ¬ Room sb d i)
  | .unlink name, r => (r = .done ∨ r = .failed) ∧ (r = .failed ↔ m (key name) = none)

/-- The operations on the disk do, step by step, what they do to the map. -/
def Simulates (sb : Super) (i : Nat) : Disk → Map → List Op → Prop
  | d, m, [] => DirOk sb d i ∧ dirMap (content sb d i) = m
  | d, m, op :: ops => DirOk sb d i ∧ dirMap (content sb d i) = m ∧
    ∃ r d', op.exec sb i d = .ok (r, d') ∧ op.Returns sb i d m r ∧
    Simulates sb i d' (op.apply m r) ops

theorem direntInum_makeDirent {inum : Nat} (h : inum < 65536) (name : List UInt8) :
    direntInum (makeDirent inum name) = inum := by
  have h₁ : (UInt8.ofNat inum).toNat = inum % 256 := UInt8.toNat_ofNat'
  have h₂ : (UInt8.ofNat (inum / 256)).toNat = inum / 256 % 256 := UInt8.toNat_ofNat'
  change (UInt8.ofNat inum).toNat + 256 * (UInt8.ofNat (inum / 256)).toNat = inum
  rw [h₁, h₂]
  omega

theorem key_makeDirent (inum : Nat) (name : Name) :
    key (direntName (makeDirent inum (strncpyFrom name 0 DIRSIZ))) = key name := by
  rw [key, key, ← keyFrom_strncpyFrom name 0 DIRSIZ]
  apply keyFrom_congr
  intro j _ _
  change (makeDirent inum (strncpyFrom name 0 DIRSIZ)).getD (2 + j) 0 = _
  rw [show 2 + j = j + 1 + 1 by omega]
  rfl

/-- What one operation does. -/
def Op.Ok (sb : Super) (i : Nat) (d : Disk) (op : Op) : Prop :=
  ∃ r d', op.exec sb i d = .ok (r, d') ∧ op.Returns sb i d (dirMap (content sb d i)) r ∧
    DirOk sb d' i ∧ dirMap (content sb d' i) = op.apply (dirMap (content sb d i)) r

theorem dirMap_of_none {c k : List UInt8} (h : firstFrom (binds c k) 0 (slots c) = none) :
    dirMap c k = none := by
  rw [dirMap, h]
  rfl

theorem dirMap_of_some {c k : List UInt8} {j : Nat}
    (h : firstFrom (binds c k) 0 (slots c) = some j) :
    dirMap c k = some (slotInum c j) := by
  rw [dirMap, h]
  rfl

theorem dirlookup_ok (h : DirOk sb d i) (name : Name) : (Op.dirlookup name).Ok sb i d := by
  have hexec (r : Option (Nat × Nat)) (hr : dirlookup sb name (dinode sb d i) d =
      .ok (r, dinode sb d i, d)) : (Op.dirlookup name).exec sb i d =
      .ok (Result.ofLookup r, d) := by
    unfold Op.exec
    rw [ilock_ok h.allocated]
    simp only [bind, Except.bind, hr]
    rfl
  have hlookup := h.dirlookup_eq name
  cases hfind : firstFrom (binds (content sb d i) (key name)) 0 (slots (content sb d i)) with
  | none =>
    rw [hfind] at hlookup
    refine ⟨.failed, d, hexec _ hlookup, ?_, h, rfl⟩
    simp only [Op.Returns, dirMap_of_none hfind]
  | some j =>
    rw [hfind] at hlookup
    obtain ⟨-, hlt, hb, -⟩ := firstFrom_eq_some hfind
    refine ⟨_, d, hexec _ hlookup, ?_, h, rfl⟩
    simp only [Op.Returns, dirMap_of_some hfind]
    refine ⟨DESIZE * j, rfl, j, rfl, by omega, (of_decide_eq_true hb).2, rfl, ?_⟩
    intro j' hj' hinum hkey
    exact h.unique (key name) j' j hj' (by omega) (decide_eq_true ⟨hinum, hkey⟩) hb

/-- `dirlink` of a key that is bound. -/
theorem dirlink_bound (h : DirOk sb d i) {name : Name} {j : Nat}
    (hfind : firstFrom (binds (content sb d i) (key name)) 0 (slots (content sb d i)) = some j)
    {inum : Nat} (hinum : 1 ≤ inum ∧ inum < 65536) : (Op.dirlink name inum hinum).Ok sb i d := by
  have hlookup := h.dirlookup_eq name
  rw [hfind] at hlookup
  refine ⟨.failed, d, ?_, ?_, h, rfl⟩
  · unfold Op.exec dirlink
    rw [ilock_ok h.allocated]
    simp only [bind, Except.bind, hlookup]
    rfl
  · refine ⟨Or.inr rfl, fun _ ↦ Or.inl ?_, fun _ ↦ rfl⟩
    rw [dirMap_of_some hfind]
    exact Option.some_ne_none _

/-- `dirlink` after both searches. -/
theorem dirlink_write (h : DirOk sb d i) {name : Name}
    (hfind : firstFrom (binds (content sb d i) (key name)) 0 (slots (content sb d i)) = none)
    {inum : Nat} (hinum : 1 ≤ inum ∧ inum < 65536) {off : Nat} {r : Option Nat} {dp : Dinode}
    (hempty : emptyLoop sb (dinode sb d i).size 0 (dinode sb d i) d = .ok (off, dinode sb d i, d))
    (hwi : writei sb i (dinode sb d i) (fun k ↦ (makeDirent inum (strncpyFrom name 0 DIRSIZ))[k]?)
      off DESIZE d = .ok (r, dp, d')) :
    (Op.dirlink name inum hinum).exec sb i d =
      .ok (if r = some DESIZE then .done else .failed, d') := by
  have hlookup := h.dirlookup_eq name
  rw [hfind] at hlookup
  unfold Op.exec dirlink
  rw [ilock_ok h.allocated]
  simp only [bind, Except.bind, hlookup, Option.map_none, Option.isSome_none, hempty, hwi]
  by_cases hr : r = some DESIZE
  · rw [if_pos hr, decide_eq_true hr]
    rfl
  · rw [if_neg hr, decide_eq_false hr]
    rfl

theorem dirlink_ok (h : DirOk sb d i) (name : Name) {inum : Nat} (hinum : 1 ≤ inum ∧ inum < 65536) :
    (Op.dirlink name inum hinum).Ok sb i d := by
  cases hfind : firstFrom (binds (content sb d i) (key name)) 0 (slots (content sb d i)) with
  | some j => exact dirlink_bound h hfind hinum
  | none =>
    have hfuel : slots (content sb d i) ≤ (dinode sb d i).size + 0 := by
      rw [slots, length_content]
      exact Nat.div_le_self _ _
    obtain ⟨j, hempty, hle, hfree, hfull⟩ := h.emptyLoop_eq hfuel (Nat.zero_le _)
    rw [Nat.mul_zero] at hempty
    have hunbound := dirMap_of_none hfind
    have hde : (makeDirent inum (strncpyFrom name 0 DIRSIZ)).length = DESIZE := by
      rw [makeDirent, List.length_cons, List.length_cons, length_strncpyFrom]
      rfl
    have hplace : Place (content sb d i) (makeDirent inum (strncpyFrom name 0 DIRSIZ)) j :=
      ⟨h.length, hle, hde⟩
    have hhole (hlt : j < slots (content sb d i)) : Room sb d i := Or.inl ⟨j, hlt, hfree hlt⟩
    have hend (hge : ¬ j < slots (content sb d i)) : DESIZE * j = (dinode sb d i).size ∧
        (Room sb d i ↔ (dinode sb d i).size + DESIZE ≤ MAXFILE * BSIZE ∧
          Enough sb d (dinode sb d i) (dinode sb d i).size DESIZE) := by
      have heq : j = slots (content sb d i) := by omega
      refine ⟨?_, ?_, Or.inr⟩
      · have hentries := h.entries
        rw [heq, slots, length_content]
        simp only [DESIZE] at *
        omega
      · rintro (⟨q, hq, hz⟩ | hgrow)
        · exact (hfull heq q (Nat.zero_le q) hq hz).elim
        · exact hgrow
    by_cases hmax : DESIZE * j + DESIZE ≤ MAXFILE * BSIZE
    · obtain ⟨tot, d', hwi, htot, hw, hin, henough⟩ := h.writei_slot hplace hmax
      have hexec := dirlink_write h hfind hinum hempty hwi
      have hroom : tot = DESIZE ↔ Room sb d i := by
        by_cases hlt : j < slots (content sb d i)
        · exact ⟨fun _ ↦ hhole hlt, fun _ ↦ hin hlt⟩
        · obtain ⟨hsize, hiff⟩ := hend hlt
          rw [hiff, ← hsize, henough]
          exact ⟨fun he ↦ ⟨hmax, he⟩, fun hr ↦ hr.2⟩
      rcases htot with ht | hz
      · rw [ht] at hexec hw
        rw [if_pos rfl] at hexec
        rw [← hde, List.take_length, hde] at hw
        have hnz : direntInum (makeDirent inum (strncpyFrom name 0 DIRSIZ)) ≠ 0 := by
          rw [direntInum_makeDirent hinum.2]
          omega
        obtain ⟨hu, hmap⟩ := hplace.link h.unique hfree hnz (by rw [key_makeDirent]; exact hunbound)
        refine ⟨.done, d', hexec, ⟨Or.inl rfl, ?_⟩, h.of_written hplace hw hu, ?_⟩
        · constructor
          · intro hc
            cases hc
          · rintro (hbound | hnone)
            · exact (hbound hunbound).elim
            · exact (hnone (hroom.mp ht)).elim
        · rw [hw.content, hmap, key_makeDirent, direntInum_makeDirent hinum.2]
          rfl
      · rw [hz] at hexec hw
        rw [if_neg (by decide)] at hexec
        rw [List.take_zero] at hw
        have hcontent : content sb d' i = content sb d i := by rw [hw.content, splice_nil]
        have hnoroom : ¬ Room sb d i := by
          intro hr
          rw [hroom.mpr hr] at hz
          cases hz
        refine ⟨.failed, d', hexec, ⟨Or.inr rfl, fun _ ↦ Or.inr hnoroom, fun _ ↦ rfl⟩, ?_, ?_⟩
        · refine ⟨hw.ownership, h.inode, hw.type.trans h.type, ?_, ?_⟩
          · rw [← length_content, hcontent]
            exact h.length
          · rw [hcontent]
            exact h.unique
        · rw [hcontent]
          rfl
    · -- the directory has its maximal size
      have hge : ¬ j < slots (content sb d i) := by
        intro hlt
        have hlt' := h.lt_size.mpr hlt
        have hsize := h.size_le
        have hentries := h.entries
        simp only [DESIZE, MAXFILE, NDIRECT, NINDIRECT, BSIZE] at *
        omega
      obtain ⟨hsize, hiff⟩ := hend hge
      have hwi : writei sb i (dinode sb d i)
          (fun k ↦ (makeDirent inum (strncpyFrom name 0 DIRSIZ))[k]?) (DESIZE * j) DESIZE d =
          .ok (none, dinode sb d i, d) := by
        unfold writei
        split
        · rfl
        · exact if_pos (by omega)
      refine ⟨.failed, d, ?_, ⟨Or.inr rfl, fun _ ↦ Or.inr ?_, fun _ ↦ rfl⟩, h, rfl⟩
      · have hexec := dirlink_write h hfind hinum hempty hwi
        rw [if_neg (by intro hc; cases hc)] at hexec
        exact hexec
      · intro hr
        have := (hiff.mp hr).1
        omega

theorem unlink_ok (h : DirOk sb d i) (name : Name) : (Op.unlink name).Ok sb i d := by
  have hlookup := h.dirlookup_eq name
  cases hfind : firstFrom (binds (content sb d i) (key name)) 0 (slots (content sb d i)) with
  | none =>
    rw [hfind] at hlookup
    refine ⟨.failed, d, ?_, ⟨Or.inr rfl, fun _ ↦ dirMap_of_none hfind, fun _ ↦ rfl⟩, h, rfl⟩
    unfold Op.exec unlinkEntry
    rw [ilock_ok h.allocated]
    simp only [bind, Except.bind, hlookup]
    rfl
  | some j =>
    rw [hfind] at hlookup
    obtain ⟨-, hlt, hb, -⟩ := firstFrom_eq_some hfind
    have hj : j < slots (content sb d i) := by omega
    have hoff := h.lt_size.mpr hj
    have hplace : Place (content sb d i) (List.replicate DESIZE 0) j :=
      ⟨h.length, by omega, List.length_replicate⟩
    have hmax : DESIZE * j + DESIZE ≤ MAXFILE * BSIZE := by
      have hsize := h.size_le
      have hentries := h.entries
      simp only [DESIZE, MAXFILE, NDIRECT, NINDIRECT, BSIZE] at *
      omega
    obtain ⟨tot, d', hwi, -, hw, hin, -⟩ := h.writei_slot hplace hmax
    rw [hin hj] at hwi hw
    rw [List.take_of_length_le (by rw [List.length_replicate])] at hw
    obtain ⟨hu, hmap⟩ := hplace.unlink h.unique hj hb rfl
    refine ⟨.done, d', ?_, ⟨Or.inl rfl, ?_⟩, h.of_written hplace hw hu, ?_⟩
    · unfold Op.exec unlinkEntry
      rw [ilock_ok h.allocated]
      simp only [bind, Except.bind, hlookup, Option.map_some, hwi, ne_eq, not_true, if_false]
      rfl
    · rw [dirMap_of_some hfind]
      exact ⟨(by intro hc; cases hc), (by intro hc; cases hc)⟩
    · rw [hw.content, hmap]
      rfl

theorem exec_ok (h : DirOk sb d i) (op : Op) : op.Ok sb i d := by
  cases op with
  | dirlookup name => exact dirlookup_ok h name
  | dirlink name inum hinum => exact dirlink_ok h name hinum
  | unlink name => exact unlink_ok h name

theorem simulates (h : DirOk sb d i) (ops : List Op) :
    Simulates sb i d (dirMap (content sb d i)) ops := by
  induction ops generalizing d with
  | nil => exact ⟨h, rfl⟩
  | cons op ops ih =>
    obtain ⟨r, d', hexec, hret, hok, hmap⟩ := exec_ok h op
    refine ⟨h, rfl, r, d', hexec, hret, ?_⟩
    rw [← hmap]
    exact ih hok

/-- A directory refines a finite map on keys. From any directory, every sequence of operations runs
without a panic and returns what the map says; after each of them no key is in two entries. Two
names are one key for `namecmp` if they agree up to the first zero or `DIRSIZ` bytes, and the key of
a name made by `skipelem` is the path element, cut after `DIRSIZ` bytes. -/
theorem dir_refines_map (h : DirOk sb d i) (ops : List Op) :
    Simulates sb i d (dirMap (content sb d i)) ops ∧
    (∀ s t : Name, namecmp s t = 0 ↔ key s = key t) ∧
    ∀ (path rest : List UInt8) (buf name : Name), (∀ x ∈ path, x ≠ 0) →
      skipelem path buf = some (rest, name) →
      key name = ((path.dropWhile (· = slash)).takeWhile (· ≠ slash)).take DIRSIZ :=
  ⟨simulates h ops, namecmp_eq_zero, fun _ _ _ _ hpath ↦ key_skipelem hpath⟩

/-- The small disk with an empty directory. -/
def tinyDir : Disk := (ialloc tinySuper T_DIR tinyDisk).2

/-- One byte and a zero. -/
def nameA : Name := Function.update (fun _ ↦ 0) 0 97

theorem dir_refines_map_tinyDir : DirOk tinySuper tinyDir 1 ∧
    Simulates tinySuper 1 tinyDir (fun _ ↦ none)
      [.dirlink nameA 7 (by decide), .dirlookup nameA, .unlink nameA, .dirlookup nameA] := by
  have hown : BlockOwnership tinySuper tinyDir :=
    let h := blockOwnership_iff.mp blockOwnership_tinyDisk
    blockOwnership_iff.mpr (ialloc_ok h.1 h.2 (by decide))
  have hempty : content tinySuper tinyDir 1 = [] := by decide +kernel
  have hdir : DirOk tinySuper tinyDir 1 := by
    refine ⟨hown, by decide, by decide +kernel, by decide +kernel, ?_⟩
    rw [hempty]
    intro k j j' hj
    cases hj
  have hrun := (dir_refines_map hdir
    [.dirlink nameA 7 (by decide), .dirlookup nameA, .unlink nameA, .dirlookup nameA]).1
  rw [hempty] at hrun
  exact ⟨hdir, hrun⟩

end Xv6.Dir
