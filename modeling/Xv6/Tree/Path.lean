import Xv6.Tree.Dangling

/-!
# Paths as lists of names

The elements of a path are the parts between its slashes. `skipelem` (`kernel/fs.c:622`) takes them
off one after the other, and what `walk` finds is what looking them up one after the other finds.
-/

namespace Xv6.Tree

open Xv6.Lib

/-- The elements of a path: its non-empty parts between slashes, each cut to `DIRSIZ` bytes. -/
def elems (path : Path) : List Name :=
  ((path.splitOn 47).filter (fun w ↦ w ≠ [])).map (fun w ↦ w.take DIRSIZ)

/-- The inode of an entry with this name. -/
def lookup (m : Graph) (dp : Nat) (name : Name) : Option Nat :=
  (scan name 0 (m dp).entries).map Prod.snd

/-- The inode that looking up names one after the other leads to. -/
def follow (m : Graph) : Nat → List Name → Option Nat
  | ip, [] => some ip
  | ip, name :: names =>
    if (m ip).type = .dir then (lookup m ip name).bind (fun x ↦ follow m x names) else none

/-- The directory that all names but the last lead to, and the last. -/
def followParent (m : Graph) (ip : Nat) (names : List Name) : Option (Nat × Name) :=
  match names.getLast? with
  | none => none
  | some name => (follow m ip names.dropLast).bind (fun dp ↦
      if (m dp).type = .dir then some (dp, name) else none)

/-! ### The elements of a path -/

theorem elems_nil : elems [] = [] := rfl

theorem elems_slash (path : Path) : elems (47 :: path) = elems path := by
  rw [elems, List.splitOn_cons_eq_if_modifyHead, if_pos (beq_self_eq_true _), List.filter_cons,
    if_neg (by decide)]
  rfl

theorem elems_slashes (path : Path) : elems (path.dropWhile (· == 47)) = elems path := by
  induction path with
  | nil => rfl
  | cons c path ih =>
    rw [List.dropWhile_cons]
    split
    · next hc =>
      rw [beq_iff_eq.mp hc, ih, elems_slash]
    · rfl

/-- A word, and what comes after it. -/
theorem elems_word {word rest : Path} (hne : word ≠ []) (hword : 47 ∉ word)
    (hrest : rest.head? = some 47 ∨ rest = []) :
    elems (word ++ rest) = word.take DIRSIZ :: elems rest := by
  rcases hrest with hrest | rfl
  · obtain ⟨as, rfl⟩ : ∃ as, rest = 47 :: as := by
      cases rest with
      | nil => cases hrest
      | cons c as => exact ⟨as, by rw [Option.some.inj hrest]⟩
    have hsplit : (word ++ 47 :: as).splitOn 47 = word :: as.splitOn 47 := by
      rw [List.splitOn_append_cons_of_beq _ _ (beq_self_eq_true _), List.splitOn_eq_singleton hword]
      rfl
    rw [elems_slash, elems, hsplit, List.filter_cons, if_pos (decide_eq_true hne), List.map_cons]
    rfl
  · rw [List.append_nil, elems, List.splitOn_eq_singleton hword, List.filter_cons,
      if_pos (decide_eq_true hne)]
    rfl

theorem head?_dropWhile_slash (path : Path) : (path.dropWhile (· == 47)).head? ≠ some 47 := by
  induction path with
  | nil => exact (fun h ↦ nomatch h)
  | cons c path ih =>
    rw [List.dropWhile_cons]
    split
    · exact ih
    · next hc =>
      intro h
      rw [List.head?_cons, Option.some.injEq] at h
      rw [h] at hc
      exact hc rfl

/-- A path that has no slash in front has an element, unless it is empty. -/
theorem elems_ne_nil {path : Path} (hne : path ≠ []) (hhead : path.head? ≠ some 47) :
    elems path ≠ [] := by
  cases path with
  | nil => exact (hne rfl).elim
  | cons c path =>
    have hc : c ≠ 47 := fun h ↦ hhead (by rw [h]; rfl)
    have hbeq : (c == 47) = false := beq_eq_false_iff_ne.mpr hc
    obtain ⟨w, ws, hw⟩ := List.exists_cons_of_ne_nil (List.splitOn_ne_nil 47 path)
    rw [elems, List.splitOn_cons_eq_if_modifyHead, hbeq, if_neg Bool.false_ne_true, hw,
      List.modifyHead_cons, List.filter_cons, if_pos (decide_eq_true (List.cons_ne_nil c w)),
      List.map_cons]
    exact List.cons_ne_nil _ _

theorem skipelem_none {path : Path} (h : skipelem path = none) : elems path = [] := by
  rw [skipelem] at h
  split at h
  · next hnil => rw [← elems_slashes, hnil, elems_nil]
  · cases h

/-- `skipelem` takes the first element off a path. -/
theorem skipelem_some {path rest : Path} {name : Name} (h : skipelem path = some (name, rest)) :
    elems path = name :: elems rest ∧ rest.length < path.length ∧
      (rest = [] ↔ elems rest = []) := by
  rw [skipelem] at h
  have hhead := head?_dropWhile_slash path
  have hlen := (List.dropWhile_suffix (l := path) (· == 47)).length_le
  rw [← elems_slashes path]
  generalize path.dropWhile (· == 47) = tail at h hhead hlen
  split at h
  · cases h
  · next hne =>
    cases h
    have hsplit := List.takeWhile_append_dropWhile (p := (· != 47)) (l := tail)
    have hword : tail.takeWhile (· != 47) ≠ [] := by
      cases tail with
      | nil => exact (hne rfl).elim
      | cons c tail =>
        have hc : (c != 47) = true := bne_iff_ne.mpr (fun h ↦ hhead (by rw [h]; rfl))
        rw [List.takeWhile_cons, if_pos hc]
        exact List.cons_ne_nil _ _
    have hslash : 47 ∉ tail.takeWhile (· != 47) := by
      intro hmem
      have := List.all_eq_true.mp List.all_takeWhile 47 hmem
      exact absurd this (by decide)
    have hrest : (tail.dropWhile (· != 47)).head? = some 47 ∨ tail.dropWhile (· != 47) = [] := by
      have := List.head?_dropWhile_not (· != 47) tail
      cases hd : tail.dropWhile (· != 47) with
      | nil => exact Or.inr rfl
      | cons c cs =>
        rw [hd] at this
        have hc : (c != 47) = false := this
        exact Or.inl (by rw [List.head?_cons, bne_eq_false_iff_eq.mp hc])
    have hpos := List.length_pos_iff.mpr hword
    have hlen' := congrArg List.length hsplit
    rw [List.length_append] at hlen'
    have hdrop := (List.dropWhile_suffix (l := tail.dropWhile (· != 47)) (· == 47)).length_le
    refine ⟨?_, by omega, ?_⟩
    · rw [elems_slashes]
      conv_lhs => rw [← hsplit]
      exact elems_word hword hslash hrest
    · constructor
      · intro hnil
        rw [hnil, elems_nil]
      · intro hnil
        by_contra hno
        exact elems_ne_nil hno (head?_dropWhile_slash _) hnil

/-! ### Looking up the elements -/

section
variable {m : Graph}

theorem follow_cons (m : Graph) (ip : Nat) (name : Name) (names : List Name) :
    follow m ip (name :: names) =
    if (m ip).type = .dir then (lookup m ip name).bind (fun x ↦ follow m x names) else none := rfl

theorem followParent_single (m : Graph) (ip : Nat) (name : Name) :
    followParent m ip [name] = if (m ip).type = .dir then some (ip, name) else none := rfl

theorem followParent_cons (m : Graph) (ip : Nat) (name : Name) {names : List Name}
    (hne : names ≠ []) :
    followParent m ip (name :: names) =
      if (m ip).type = .dir then (lookup m ip name).bind
      (fun x ↦ followParent m x names) else none := by
  obtain ⟨last, hlast⟩ := Option.isSome_iff_exists.mp (List.getLast?_isSome.mpr hne)
  have hlast' : (name :: names).getLast? = some last := by
    rw [List.getLast?_cons, hlast]
    rfl
  rw [followParent, hlast', List.dropLast_cons_of_ne_nil hne, follow_cons]
  dsimp only
  split
  · cases lookup m ip name with
    | none => rfl
    | some x =>
      rw [Option.bind_some, Option.bind_some, followParent, hlast]
  · rfl

theorem lookup_none {ip : Nat} {name : Name} (h : scan name 0 (m ip).entries = none) :
    lookup m ip name = none := by
  rw [lookup, h]
  rfl

theorem lookup_some {ip k x : Nat} {name : Name} (h : scan name 0 (m ip).entries = some (k, x)) :
    lookup m ip name = some x := by
  rw [lookup, h]
  rfl

/-- What `walk` finds for `namei`. -/
theorem walk_follow {fuel ip : Nat} {path : Path} (hfuel : path.length ≤ fuel) :
    walk m false fuel ip path = (follow m ip (elems path)).map (fun x ↦ (x, [])) := by
  induction fuel generalizing ip path with
  | zero =>
    rw [List.length_eq_zero_iff.mp (Nat.le_zero.mp hfuel)]
    rfl
  | succ fuel ih =>
    rw [walk]
    cases hsk : skipelem path with
    | none =>
      rw [skipelem_none hsk]
      rfl
    | some q =>
      obtain ⟨name, rest⟩ := q
      obtain ⟨helems, hlen, -⟩ := skipelem_some hsk
      rw [helems, follow_cons]
      dsimp only
      by_cases ht : (m ip).type = .dir
      · rw [if_neg (not_not_intro ht), if_pos ht, if_neg (fun h ↦ Bool.false_ne_true h.1)]
        cases hscan : scan name 0 (m ip).entries with
        | none =>
          rw [lookup_none hscan]
          rfl
        | some q =>
          rw [lookup_some hscan, Option.bind_some]
          exact ih (by omega)
      · rw [if_pos ht, if_neg ht]
        rfl

/-- What `walk` finds for `nameiparent`. -/
theorem walk_followParent {fuel ip : Nat} {path : Path} (hfuel : path.length ≤ fuel) :
    walk m true fuel ip path = followParent m ip (elems path) := by
  induction fuel generalizing ip path with
  | zero =>
    rw [List.length_eq_zero_iff.mp (Nat.le_zero.mp hfuel)]
    rfl
  | succ fuel ih =>
    rw [walk]
    cases hsk : skipelem path with
    | none =>
      rw [skipelem_none hsk]
      rfl
    | some q =>
      obtain ⟨name, rest⟩ := q
      obtain ⟨helems, hlen, hlast⟩ := skipelem_some hsk
      rw [helems]
      dsimp only
      by_cases hrest : rest = []
      · rw [hlast.mp hrest, followParent_single]
        by_cases ht : (m ip).type = .dir
        · rw [if_neg (not_not_intro ht), if_pos ht, if_pos ⟨rfl, hrest⟩]
        · rw [if_pos ht, if_neg ht]
      · rw [followParent_cons m ip name (fun h ↦ hrest (hlast.mpr h))]
        by_cases ht : (m ip).type = .dir
        · rw [if_neg (not_not_intro ht), if_pos ht, if_neg (fun h ↦ hrest h.2)]
          cases hscan : scan name 0 (m ip).entries with
          | none =>
            rw [lookup_none hscan]
            rfl
          | some q =>
            rw [lookup_some hscan, Option.bind_some]
            exact ih (by omega)
        · rw [if_pos ht, if_neg ht]

/-- The last element is looked up in the directory that the others lead to. -/
theorem follow_of_parent {ip dp : Nat} {names : List Name} {name : Name}
    (h : followParent m ip names = some (dp, name)) : follow m ip names = lookup m dp name := by
  induction names generalizing ip with
  | nil => cases h
  | cons first names ih =>
    rw [follow_cons]
    by_cases hnil : names = []
    · subst hnil
      rw [followParent_single] at h
      split at h
      · next ht =>
        cases h
        rw [if_pos ht]
        cases lookup m dp name with
        | none => rfl
        | some x => rfl
      · cases h
    · rw [followParent_cons m ip first hnil] at h
      split at h
      · next ht =>
        rw [if_pos ht]
        cases hl : lookup m ip first with
        | none =>
          rw [hl] at h
          cases h
        | some x =>
          rw [hl, Option.bind_some] at h
          exact ih h
      · cases h

end

end Xv6.Tree
