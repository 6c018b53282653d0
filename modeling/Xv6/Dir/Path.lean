import Mathlib.Data.List.TakeWhile
import Xv6.Dir.Map

/-!
# Path names on the disk

`namex` and `namei` (`kernel/fs.c:651–691`) on the inodes of a disk. The inode of the root or of the
current directory is given by its number. The references that a walk drops are the last ones.
-/

namespace Xv6.Dir

open Xv6.Lib Xv6.Fs

/-- The loop of `namex` from inode `i` on; each iteration takes a byte of the path at least, so that
`fuel`, which starts as its length, lasts until no element is left; `kernel/fs.c:661–684`. -/
def namexLoop (sb : Super) (parent : Bool) : Nat → List UInt8 → Name → Nat → Disk →
    Except String (Option Nat × Name × Disk)
  | fuel, path, buf, i, d =>
    match skipelem path buf with
    | none => do
      if parent then
        let d ← iput sb i (dinode sb d i) d
        return (none, buf, d)
      return (some i, buf, d)
    | some (rest, name) =>
      match fuel with
      | 0 => .ok (none, buf, d)
      | fuel + 1 => do
        let ip ← ilock sb i d
        if ip.type ≠ T_DIR then
          let d ← iput sb i ip d
          return (none, name, d)
        else if parent ∧ rest = [] then return (some i, name, d)
        else
          let (next, ip, d) ← dirlookup sb name ip d
          let d ← iput sb i ip d
          match next with
          | none => return (none, name, d)
          | some (next, _) => namexLoop sb parent fuel rest name next d

/-- `namei`, with the inode number of the root and of the current directory, and the bytes that the
buffer `name` holds; `kernel/fs.c:686–691`. -/
def namei (sb : Super) (root cwd : Nat) (path : List UInt8) (buf : Name) (d : Disk) :
    Except String (Option Nat × Name × Disk) :=
  namexLoop sb false path.length path buf (if path.head? = some slash then root else cwd) d

/-! ### Finding an entry -/

variable {sb : Super} {d : Disk}

/-- `dirlookup` of a directory whose entries can be read up to the first one that binds the key. -/
theorem dirlookupLoop_found {name : Name} {c : List UInt8} {dp : Dinode} {J : Nat}
    (hread : ∀ j, j ≤ J → DESIZE * j < dp.size ∧
      readi sb dp (fun _ ↦ true) (DESIZE * j) DESIZE d = .ok (some DESIZE, slot c j, dp, d))
    (hfirst : ∀ j, j < J → binds c (key name) j = false) (hbind : binds c (key name) J = true)
    {fuel j : Nat} (hj : j ≤ J) (hfuel : J < fuel + j) :
    dirlookupLoop sb name fuel (DESIZE * j) dp d =
      .ok (some (slotInum c J, DESIZE * J), dp, d) := by
  induction fuel generalizing j with
  | zero => omega
  | succ fuel ih =>
    obtain ⟨hlt, hslot⟩ := hread j hj
    have hnext : DESIZE * j + DESIZE = DESIZE * (j + 1) := rfl
    rw [dirlookupLoop, if_pos hlt, hslot, hnext]
    simp only [bind, Except.bind, ne_eq, not_true, if_false, pure, Except.pure]
    have hinum : direntInum (slot c j) = slotInum c j := rfl
    rw [hinum]
    by_cases hlast : j = J
    · obtain ⟨hne, hkey⟩ := of_decide_eq_true hbind
      subst hlast
      rw [if_neg hne, if_pos ((namecmp_eq_zero _ _).mpr hkey.symm)]
    · have hno := of_decide_eq_false (hfirst j (by omega))
      rw [ih (by omega) (by omega)]
      split
      · rfl
      · next hne => rw [if_neg (fun hk ↦ hno ⟨hne, ((namecmp_eq_zero _ _).mp hk).symm⟩)]

section
variable {name : List UInt8} (hslash : slash ∉ name)

include hslash

theorem dropWhile_slash_cons : (slash :: name).dropWhile (· = slash) = name := by
  cases name with
  | nil => rfl
  | cons x xs =>
    have hx : ¬ x = slash := fun hs ↦ hslash (hs ▸ List.mem_cons_self)
    simp [List.dropWhile, hx]

theorem ne_slash_of_mem {x : UInt8} (hx : x ∈ name) : decide (x ≠ slash) = true := by
  apply decide_eq_true
  intro hs
  exact hslash (hs ▸ hx)

/-- A path of one element. -/
theorem skipelem_single (hne : name ≠ []) (buf : Name) :
    ∃ name', skipelem (slash :: name) buf = some ([], name') := by
  have hrest : name.dropWhile (· ≠ slash) = [] :=
    List.dropWhile_eq_nil_iff.mpr (fun x hx ↦ ne_slash_of_mem hslash hx)
  unfold skipelem
  simp only [dropWhile_slash_cons hslash, hrest, if_neg hne, List.dropWhile_nil]
  exact ⟨_, rfl⟩

theorem key_skipelem_single (hnul : ∀ x ∈ name, x ≠ 0) {rest : List UInt8} {buf name' : Name}
    (h : skipelem (slash :: name) buf = some (rest, name')) : key name' = name.take DIRSIZ := by
  have hpath : ∀ x ∈ slash :: name, x ≠ 0 := by
    intro x hx
    rcases List.mem_cons.mp hx with rfl | hx
    · decide
    · exact hnul x hx
  rw [key_skipelem hpath h, dropWhile_slash_cons hslash,
    List.takeWhile_eq_self_iff.mpr (fun x hx ↦ ne_slash_of_mem hslash hx)]

end

/-- `namei` of a path of one element in a directory with links: what `dirlookup` finds. -/
theorem namei_single {root cwd : Nat} {name : List UInt8} (hne : name ≠ []) (hslash : slash ∉ name)
    (hnul : ∀ x ∈ name, x ≠ 0) (htype : (dinode sb d root).type = T_DIR)
    (hnlink : (dinode sb d root).nlink ≠ 0) {i off : Nat}
    (hfound : ∀ nm, key nm = name.take DIRSIZ →
      dirlookup sb nm (dinode sb d root) d = .ok (some (i, off), dinode sb d root, d))
    (buf : Name) :
    ∃ name', namei sb root cwd (slash :: name) buf d = .ok (some i, name', d) := by
  obtain ⟨name', hskip⟩ := skipelem_single hslash hne buf
  have hkey := key_skipelem_single hslash hnul hskip
  have hlock : ilock sb root d = .ok (dinode sb d root) := by
    apply ilock_ok
    rw [htype]
    decide
  have hput : iput sb root (dinode sb d root) d = .ok d := if_neg hnlink
  have hend (buf : Name) : skipelem [] buf = none := rfl
  refine ⟨name', ?_⟩
  rw [namei, List.head?_cons, if_pos rfl, List.length_cons, namexLoop, hskip]
  simp only [bind, Except.bind, hlock, htype, ne_eq, not_true, if_false, Bool.false_eq_true,
    false_and, hfound name' hkey, hput]
  rw [namexLoop, hend]
  rfl

end Xv6.Dir
