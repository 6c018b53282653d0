import Xv6.Lib.Sum
import Xv6.Tree.Model

/-!
# The graph of directory entries

How entries, link counts and parents agree in every state: a directory is listed at most once,
by its parent, and its link count is its listing plus its subdirectories; a file has at least
as many links as listings. Attaching an inode to a directory, detaching one, and freeing
inodes without links keep this. Nothing is said about where the `..` of a directory that is
not listed leads.
-/

namespace Xv6.Tree

open Xv6.Lib

/-- Inodes by number. -/
abbrev Graph := Nat → Inode

/-- How many entries of a directory, the first two apart, name `x`. -/
def names (es : List Dirent) (x : Nat) : Nat := (es.drop 2).countP (fun e ↦ decide (e.inum = x))

/-- How often `x` is listed in directories. -/
def linksTo (m : Graph) (x : Nat) : Nat := ∑ y : Fin NINODES, names (m y).entries x

/-- How many directories `x` lists. -/
def subdirs (m : Graph) (x : Nat) : Nat :=
  ∑ z : Fin NINODES, if (m z).type = .dir then names (m x).entries z else 0

/-- The inode number in the second entry, `..`, of a directory. -/
def parent (m : Graph) (x : Nat) : Nat := ((m x).entries[1]?.map (·.inum)).getD 0

/-- The entries of directory `x`: `.`, then `..`, then entries with other names. -/
def Dots (x : Nat) (es : List Dirent) : Prop :=
  ∃ p rest, es = ⟨x, dot⟩ :: ⟨p, dotdot⟩ :: rest ∧ p ≠ 0 ∧
    ∀ e ∈ rest, e.inum ≠ 0 → e.name ≠ dot ∧ e.name ≠ dotdot

/-- How entries, link counts and parents agree. -/
structure Shape (m : Graph) : Prop where
  outside : ∀ x, x = 0 ∨ NINODES ≤ x → (m x).type = .free
  root : (m ROOTINO).type = .dir
  rootParent : parent m ROOTINO = ROOTINO
  dots : ∀ x, (m x).type = .dir → Dots x (m x).entries
  empty : ∀ x, (m x).type ≠ .dir → (m x).entries = []
  listed : ∀ y x, x ≠ 0 → 0 < names (m y).entries x →
    (m x).type ≠ .free ∧ x ≠ ROOTINO ∧ x ≠ y ∧ ((m x).type = .dir → parent m x = y)
  once : ∀ x, (m x).type = .dir → linksTo m x ≤ 1
  fileLinks : ∀ x, (m x).type ≠ .free → (m x).type ≠ .dir → linksTo m x ≤ (m x).nlink
  dirLinks : ∀ x, (m x).type = .dir →
    (m x).nlink = linksTo m x + subdirs m x + if x = ROOTINO then 1 else 0
  width : ∀ x, (m x).nlink < 2 ^ 16

theorem FileType.ne_free {t : FileType} (h : t = .dir) : t ≠ .free := by
  rw [h]
  exact fun h ↦ nomatch h

theorem FileType.ne_dir {t : FileType} (h : t = .free) : t ≠ .dir := by
  rw [h]
  exact fun h ↦ nomatch h

/-! ### Entries of one directory -/

@[simp] theorem names_nil (x : Nat) : names [] x = 0 := rfl

@[simp] theorem names_dots (a b : Dirent) (rest : List Dirent) (x : Nat) :
    names (a :: b :: rest) x = rest.countP (fun e ↦ decide (e.inum = x)) := rfl

theorem countP_put (e : Dirent) (es : List Dirent) {x : Nat} (hx : x ≠ 0) :
    (put e es).countP (fun e ↦ decide (e.inum = x)) =
      es.countP (fun e ↦ decide (e.inum = x)) + if e.inum = x then 1 else 0 := by
  induction es with
  | nil => simp [put, List.countP_cons]
  | cons d es ih =>
    rw [put]
    split
    · next hd =>
      have hdx : d.inum ≠ x := by omega
      simp [List.countP_cons, hdx]
    · simp only [List.countP_cons, ih]
      omega

theorem mem_put {e e' : Dirent} {es : List Dirent} (h : e' ∈ put e es) : e' ∈ es ∨ e' = e := by
  induction es with
  | nil =>
    right
    simpa [put] using h
  | cons d es ih =>
    rw [put] at h
    split at h
    · rcases List.mem_cons.mp h with rfl | h
      · exact Or.inr rfl
      · exact Or.inl (List.mem_cons_of_mem _ h)
    · rcases List.mem_cons.mp h with rfl | h
      · exact Or.inl List.mem_cons_self
      · rcases ih h with h | h
        · exact Or.inl (List.mem_cons_of_mem _ h)
        · exact Or.inr h

/-- A new entry does not move the first two. -/
theorem put_dots {a b e : Dirent} {rest : List Dirent} (ha : a.inum ≠ 0) (hb : b.inum ≠ 0) :
    put e (a :: b :: rest) = a :: b :: put e rest := by
  rw [put, if_neg ha, put, if_neg hb]

theorem Dots.self_ne_zero {x : Nat} {es : List Dirent} (h : Dots x es) (hx : x ≠ 0) (e : Dirent) :
    ∃ p rest, es = ⟨x, dot⟩ :: ⟨p, dotdot⟩ :: rest ∧
      put e es = ⟨x, dot⟩ :: ⟨p, dotdot⟩ :: put e rest := by
  obtain ⟨p, rest, rfl, hp, -⟩ := h
  exact ⟨p, rest, rfl, put_dots hx hp⟩

/-- A directory with one more entry. -/
theorem Dots.put {x : Nat} {es : List Dirent} (h : Dots x es) (hx : x ≠ 0) {e : Dirent}
    (he : e.name ≠ dot ∧ e.name ≠ dotdot) : Dots x (put e es) := by
  obtain ⟨p, rest, rfl, hp, hrest⟩ := h
  refine ⟨p, Tree.put e rest, put_dots hx hp, hp, ?_⟩
  intro e' he' hne
  rcases mem_put he' with he' | rfl
  · exact hrest e' he' hne
  · exact he

theorem names_put {x : Nat} {es : List Dirent} (h : Dots x es) (hx : x ≠ 0) (e : Dirent) {z : Nat}
    (hz : z ≠ 0) : names (put e es) z = names es z + if e.inum = z then 1 else 0 := by
  obtain ⟨p, rest, rfl, hput⟩ := h.self_ne_zero hx e
  rw [hput, names_dots, names_dots, countP_put e rest hz]

/-- A directory with an entry after the second cleared. -/
theorem Dots.clear {x : Nat} {es : List Dirent} (h : Dots x es) {k : Nat} (hk : 2 ≤ k) :
    Dots x (es.set k ⟨0, []⟩) := by
  obtain ⟨p, rest, rfl, hp, hrest⟩ := h
  obtain ⟨j, rfl⟩ : ∃ j, k = j + 2 := ⟨k - 2, by omega⟩
  refine ⟨p, rest.set j ⟨0, []⟩, by simp, hp, ?_⟩
  intro e he hne
  rcases List.mem_or_eq_of_mem_set he with he | rfl
  · exact hrest e he hne
  · exact (hne rfl).elim

theorem names_clear {x : Nat} {es : List Dirent} (h : Dots x es) {k : Nat} (hk : 2 ≤ k)
    {e : Dirent} (he : es[k]? = some e) {z : Nat} (hz : z ≠ 0) :
    names (es.set k ⟨0, []⟩) z + (if e.inum = z then 1 else 0) = names es z := by
  obtain ⟨p, rest, rfl, hp, -⟩ := h
  obtain ⟨j, rfl⟩ : ∃ j, k = j + 2 := ⟨k - 2, by omega⟩
  simp only [List.getElem?_cons_succ, List.set_cons_succ, names_dots] at he ⊢
  obtain ⟨hj, rfl⟩ := List.getElem?_eq_some_iff.mp he
  have hpos : rest[j].inum = z → 0 < rest.countP (fun e ↦ decide (e.inum = z)) := by
    intro hjz
    exact List.countP_pos_iff.mpr ⟨rest[j], List.getElem_mem hj, by simpa using hjz⟩
  have hzero : (0 : Nat) ≠ z := by omega
  rw [List.countP_set hj]
  simp only [hzero, decide_false, Bool.false_eq_true, if_false, decide_eq_true_eq]
  split
  · next hjz =>
    have := hpos hjz
    omega
  · omega

theorem names_pos_of_getElem {es : List Dirent} {k : Nat} (hk : 2 ≤ k) {e : Dirent}
    (he : es[k]? = some e) : 0 < names es e.inum := by
  apply List.countP_pos_iff.mpr
  refine ⟨e, ?_, by simp⟩
  obtain ⟨j, rfl⟩ : ∃ j, k = 2 + j := ⟨k - 2, by omega⟩
  rw [← List.getElem?_drop] at he
  exact List.mem_of_getElem? he

theorem isdirempty_iff {ip : Inode} :
    isdirempty ip = true ↔ ∀ z, z ≠ 0 → names ip.entries z = 0 := by
  simp only [isdirempty, List.all_eq_true, decide_eq_true_eq]
  constructor
  · intro h z hz
    apply List.countP_eq_zero.mpr
    intro e he
    rw [h e he]
    simpa using hz.symm
  · intro h e he
    apply Classical.byContradiction
    intro hne
    have := List.countP_eq_zero.mp (h e.inum hne) e he
    simp at this

/-! ### Totals -/

theorem names_le_linksTo (m : Graph) (x : Nat) {y : Nat} (hy : y < NINODES) :
    names (m y).entries x ≤ linksTo m x :=
  le_sum (fun y : Fin NINODES ↦ names (m y).entries x) ⟨y, hy⟩

theorem linksTo_eq_zero {m : Graph} {x : Nat} (h : ∀ y, names (m y).entries x = 0) :
    linksTo m x = 0 := Finset.sum_eq_zero (fun y _ ↦ h y)

theorem sum_at {d : Nat} (hd : d < NINODES) (a : Nat) (q : Prop) [Decidable q] :
    (∑ y : Fin NINODES, if (y : Nat) = d ∧ q then a else 0) = if q then a else 0 := by
  by_cases hq : q
  · simp only [hq, and_true, if_true]
    rw [Finset.sum_eq_single ⟨d, hd⟩]
    · exact if_pos rfl
    · intro y _ hy
      exact if_neg (fun h ↦ hy (Fin.ext h))
    · exact fun h ↦ (h (Finset.mem_univ _)).elim
  · simp [hq]

section
variable {m g : Graph} {d x a b : Nat}

/-- The listings when directory `d` loses `a` entries for `x` and gains `b`. -/
theorem linksTo_edit (hd : d < NINODES) {z : Nat}
    (h : ∀ y, names (g y).entries z + (if y = d ∧ z = x then a else 0) =
      names (m y).entries z + if y = d ∧ z = x then b else 0) :
    linksTo g z + (if z = x then a else 0) = linksTo m z + if z = x then b else 0 := by
  rw [linksTo, linksTo, ← sum_at hd a (z = x), ← sum_at hd b (z = x), ← Finset.sum_add_distrib,
    ← Finset.sum_add_distrib]
  exact Finset.sum_congr rfl (fun y _ ↦ h y)

/-- The subdirectories when directory `d` loses `a` entries for `x` and gains `b`. -/
theorem subdirs_edit (hx : x < NINODES) {w : Nat}
    (h : ∀ z : Fin NINODES,
      (if (g z).type = .dir then names (g w).entries z else 0) +
          (if (z : Nat) = x ∧ w = d then a else 0) =
        (if (m z).type = .dir then names (m w).entries z else 0) +
          if (z : Nat) = x ∧ w = d then b else 0) :
    subdirs g w + (if w = d then a else 0) = subdirs m w + if w = d then b else 0 := by
  rw [subdirs, subdirs, ← sum_at hx a (w = d), ← sum_at hx b (w = d), ← Finset.sum_add_distrib,
    ← Finset.sum_add_distrib]
  exact Finset.sum_congr rfl (fun z _ ↦ h z)

end

namespace Shape

variable {m : Graph} (hs : Shape m)
include hs

theorem lt_ninodes {x : Nat} (h : (m x).type ≠ .free) : x < NINODES := by
  apply Classical.byContradiction
  intro hn
  exact h (hs.outside x (Or.inr (by omega)))

theorem ne_zero {x : Nat} (h : (m x).type ≠ .free) : x ≠ 0 :=
  fun hx ↦ h (hs.outside x (Or.inl hx))

theorem dir_of_names {y x : Nat} (h : 0 < names (m y).entries x) : (m y).type = .dir := by
  apply Classical.byContradiction
  intro hn
  rw [hs.empty y hn] at h
  exact Nat.lt_irrefl _ h

theorem names_of_free {x : Nat} (hx : x ≠ 0) (h : (m x).type = .free) (y : Nat) :
    names (m y).entries x = 0 := by
  apply Nat.eq_zero_of_not_pos
  exact fun hpos ↦ (hs.listed y x hx hpos).1 h

theorem names_eq_zero {x : Nat} (h : linksTo m x = 0) (y : Nat) : names (m y).entries x = 0 := by
  by_cases hy : y < NINODES
  · have := names_le_linksTo m x hy
    omega
  · rw [hs.empty y (FileType.ne_dir (hs.outside y (Or.inr (by omega))))]
    rfl

/-- A directory lists no more directories than there are inodes. -/
theorem subdirs_le (x : Nat) : subdirs m x ≤ NINODES := by
  have hle : subdirs m x ≤ ∑ _z : Fin NINODES, 1 := by
    apply Finset.sum_le_sum
    intro z _
    split
    · next hz =>
      have hone := hs.once z hz
      by_cases hx : (m x).type = .dir
      · have hlt := hs.lt_ninodes (FileType.ne_free hx)
        exact Nat.le_trans (names_le_linksTo m z hlt) hone
      · rw [hs.empty x hx]
        exact Nat.zero_le _
    · exact Nat.zero_le _
  simpa using hle

theorem root_links : 0 < (m ROOTINO).nlink := by
  have := hs.dirLinks ROOTINO hs.root
  rw [if_pos rfl] at this
  omega

/-- The link count of a directory is far from the limit of the field. -/
theorem dir_nlink_le {x : Nat} (h : (m x).type = .dir) : (m x).nlink ≤ NINODES + 2 := by
  have h1 := hs.dirLinks x h
  have h2 := hs.once x h
  have h3 := hs.subdirs_le x
  split at h1 <;> omega

end Shape

end Xv6.Tree
