import Xv6.Log.Protocol

/-!
# What the disk holds at any time

The abstract disk is the initial one with the committed transactions applied in order. At
every moment, and so at every crash, the real disk represents it: the header block lists blocks
whose logged copies are their abstract contents, and every other home block has its
abstract contents already. Installing a listed block again changes nothing.
-/

namespace Xv6.Log

open Xv6.Lib

/-- Perform log writes in order. -/
def applyUpdates (d : Disk) (us : List Update) : Disk :=
  us.foldl (fun d u ↦ Function.update d u.blockno u.data) d

/-- Apply the committed transactions in order. -/
def applyTxns (d : Disk) (ts : List Txn) : Disk :=
  (ts.filter (·.committed)).foldl (fun d T ↦ applyUpdates d T.updates) d

theorem applyUpdates_of_notMem {d : Disk} {us : List Update} {b : Nat}
    (h : b ∉ us.map (·.blockno)) : applyUpdates d us b = d b := by
  induction us generalizing d with
  | nil => rfl
  | cons u us ih =>
    simp only [List.map_cons, List.mem_cons, not_or] at h
    rw [applyUpdates, List.foldl_cons]
    exact (ih h.2).trans (Function.update_of_ne h.1 _ _)

theorem applyUpdates_append (d : Disk) (us : List Update) (u : Update) :
    applyUpdates d (us ++ [u]) = Function.update (applyUpdates d us) u.blockno u.data := by
  rw [applyUpdates, List.foldl_append]
  rfl

/-- A transaction that committed is applied after the earlier ones. -/
theorem applyTxns_committed (d : Disk) (ts : List Txn) (us : List Update) :
    applyTxns d (ts ++ [⟨us, true⟩]) = applyUpdates (applyTxns d ts) us := by
  simp [applyTxns, List.filter_append]

/-- A transaction that a crash cut off has no effect. -/
theorem applyTxns_lost (d : Disk) (ts : List Txn) (us : List Update) :
    applyTxns d (ts ++ [⟨us, false⟩]) = applyTxns d ts := by
  simp [applyTxns, List.filter_append]

/-- The disk represents the abstract disk `home`. -/
structure OnDisk (c : Cfg) (home disk : Disk) : Prop where
  fits : (decodeHead (disk c.start)).length ≤ c.size - 1
  homes : ∀ b ∈ decodeHead (disk c.start), c.Home b
  copies : ∀ i b, (decodeHead (disk c.start))[i]? = some b → disk (c.start + i + 1) = home b
  rest : ∀ b, ¬ c.InLog b → b ∉ decodeHead (disk c.start) → disk b = home b

namespace OnDisk

variable {c : Cfg} {home disk : Disk}

theorem start_inLog (c : Cfg) : c.InLog c.start := ⟨le_refl _, Nat.lt_add_of_pos_right c.head⟩

theorem copy_inLog {lh : List Nat} {i b : Nat} (hfits : lh.length ≤ c.size - 1)
    (hb : lh[i]? = some b) : c.InLog (c.start + i + 1) := by
  have hi := (List.getElem?_eq_some_iff.mp hb).1
  constructor <;> omega

/-- A disk whose header is empty. -/
theorem of_empty (h : decodeHead (disk c.start) = []) (hrest : ∀ b, ¬ c.InLog b → disk b = home b) :
    OnDisk c home disk := by
  constructor
  · rw [h]
    exact Nat.zero_le _
  · rw [h]
    exact fun b hb ↦ (by cases hb)
  · rw [h]
    exact fun i b hb ↦ (by cases hb)
  · exact fun b hb _ ↦ hrest b hb

/-- With an empty header, the blocks of the log after it can be overwritten. -/
theorem write_log (h : OnDisk c home disk) (hempty : decodeHead (disk c.start) = []) {b : Nat}
    (hb : c.InLog b) (hne : b ≠ c.start) (data : Block) :
    OnDisk c home (Function.update disk b data) := by
  apply of_empty
  · rw [Function.update_of_ne hne.symm]
    exact hempty
  · intro b' hb'
    have hbb : b' ≠ b := by
      rintro rfl
      exact hb' hb
    rw [Function.update_of_ne hbb]
    exact h.rest b' hb' (by rw [hempty]; exact List.not_mem_nil)

/-- Copying a logged block to its home changes nothing that the disk represents. -/
theorem install (h : OnDisk c home disk) {b : Nat} (hb : b ∈ decodeHead (disk c.start)) :
    OnDisk c home (Function.update disk b (home b)) := by
  have hhome := (h.homes b hb).2
  have hstart : c.start ≠ b := by
    rintro rfl
    exact hhome (start_inLog c)
  have hhead : decodeHead (Function.update disk b (home b) c.start) =
      decodeHead (disk c.start) := by rw [Function.update_of_ne hstart]
  constructor
  · rw [hhead]
    exact h.fits
  · rw [hhead]
    exact h.homes
  · rw [hhead]
    intro i b' hb'
    have hne : c.start + i + 1 ≠ b := by
      rintro rfl
      exact hhome (copy_inLog h.fits hb')
    rw [Function.update_of_ne hne]
    exact h.copies i b' hb'
  · rw [hhead]
    intro b' hb' hnot
    have hne : b' ≠ b := by
      rintro rfl
      exact hnot hb
    rw [Function.update_of_ne hne]
    exact h.rest b' hb' hnot

/-- The header is erased once every listed block is home. -/
theorem clear (h : OnDisk c home disk) (hb : Block) (hempty : decodeHead hb = [])
    (hinst : ∀ b ∈ decodeHead (disk c.start), disk b = home b) :
    OnDisk c home (Function.update disk c.start hb) := by
  apply of_empty
  · rw [Function.update_self]
    exact hempty
  · intro b hnot
    have hne : b ≠ c.start := by
      rintro rfl
      exact hnot (start_inLog c)
    rw [Function.update_of_ne hne]
    by_cases hmem : b ∈ decodeHead (disk c.start)
    · exact hinst b hmem
    · exact h.rest b hnot hmem

/-- The header of a transaction is written: from this moment on the disk represents the
abstract disk after the transaction. -/
theorem commit {home' : Disk} {lh : List Nat} (h : OnDisk c home disk)
    (hempty : decodeHead (disk c.start) = []) (hb : Block) (hhead : decodeHead hb = lh)
    (hfits : lh.length ≤ c.size - 1) (hhomes : ∀ b ∈ lh, c.Home b)
    (hcopies : ∀ i b, lh[i]? = some b → disk (c.start + i + 1) = home' b)
    (hsame : ∀ b, b ∉ lh → home' b = home b) :
    OnDisk c home' (Function.update disk c.start hb) := by
  have hnew : decodeHead (Function.update disk c.start hb c.start) = lh := by
    rw [Function.update_self]
    exact hhead
  constructor
  · rw [hnew]
    exact hfits
  · rw [hnew]
    exact hhomes
  · rw [hnew]
    intro i b hib
    rw [Function.update_of_ne (by omega)]
    exact hcopies i b hib
  · rw [hnew]
    intro b hnot hmem
    have hne : b ≠ c.start := by
      rintro rfl
      exact hnot (start_inLog c)
    rw [Function.update_of_ne hne, hsame b hmem]
    exact h.rest b hnot (by rw [hempty]; exact List.not_mem_nil)

end OnDisk

/-- An empty header reads back as such, whatever the rest of the block holds. -/
theorem decodeHead_empty (hb : Block) : decodeHead (encodeHead hb []) = [] := by
  apply decodeHead_encodeHead hb
  · decide
  · exact fun b hb ↦ (by cases hb)

end Xv6.Log
