import Xv6.Sysfile.Uses

/-!
# Searching directories

`dirlookup` and `namex` change nothing on the disk. A walk ends with one reference, to the inode
that it returns, or with none; `nameiparent` returns the directory that the path leads to.
-/

namespace Xv6.Sysfile

open Xv6.Lib Xv6.Fs Xv6.Dir

variable {sb : Super} {d d₀ d' : Disk} {s s' : State} {ref : Nat → Nat} {held : Multiset Nat}
variable {locks : List Nat} {i x : Nat} {name : Name}

/-! ### The loops of `dirlookup` and `dirlink` -/

section
variable (h : BlockOwnership sb d) (hi : i < sb.ninodes) (ht : (dinode sb d i).type ≠ 0)

include h hi ht

/-- What `readi` delivers at an entry; at the end of the directory it may be cut. -/
theorem readi_dirent {j : Nat} (hj : DESIZE * j < (dinode sb d i).size) :
    ∃ n, readi sb (dinode sb d i) (fun _ ↦ true) (DESIZE * j) DESIZE d =
        .ok (some n, slot (content sb d i) j, dinode sb d i, d) ∧
      (n = DESIZE → j < slots (content sb d i) ∧ DESIZE * (j + 1) ≤ (dinode sb d i).size) := by
  have hle := h.size_le hi ht
  have hlt : DESIZE * j + DESIZE < 2 ^ 32 := by
    simp only [DESIZE, MAXFILE, NDIRECT, NINDIRECT, BSIZE] at *
    omega
  refine ⟨_, readi_eq h hi ht hlt (fun k _ ↦ (rfl : (fun _ ↦ true) k = true)), ?_⟩
  intro hn
  rw [slots, length_content]
  simp only [DESIZE] at *
  omega

/-- A binding that `dirlookup` returns is the first one of the key. -/
theorem dirlookupLoop_first {fuel j : Nat} {found : Option (Nat × Nat)} {dp : Dinode}
    (hbefore : ∀ q, q < j → binds (content sb d i) (key name) q = false)
    (heq : dirlookupLoop sb name fuel (DESIZE * j) (dinode sb d i) d = .ok (found, dp, d')) :
    dp = dinode sb d i ∧ d' = d ∧ ∀ inum off, found = some (inum, off) →
      ∃ q, q < slots (content sb d i) ∧ binds (content sb d i) (key name) q = true ∧
        (∀ q', q' < q → binds (content sb d i) (key name) q' = false) ∧
        slotInum (content sb d i) q = inum := by
  induction fuel generalizing j with
  | zero =>
    cases heq
    exact ⟨rfl, rfl, fun _ _ hf ↦ nomatch hf⟩
  | succ fuel ih =>
    rw [dirlookupLoop] at heq
    split at heq
    · next hlt =>
      obtain ⟨n, hread, hfull⟩ := readi_dirent h hi ht hlt
      rw [hread] at heq
      simp only [bind, Except.bind] at heq
      have hnext (hb : binds (content sb d i) (key name) j = false) (q : Nat) (hq : q < j + 1) :
          binds (content sb d i) (key name) q = false := by
        by_cases hqj : q = j
        · rw [hqj]
          exact hb
        · exact hbefore q (by omega)
      split at heq
      · cases heq
      · next hr =>
        obtain ⟨hj, -⟩ := hfull (Option.some.inj (not_not.mp hr))
        split at heq
        · next hz => exact ih (hnext (decide_eq_false (fun hb ↦ hb.1 hz))) heq
        · next hnz =>
          split at heq
          · next hcmp =>
            cases heq
            refine ⟨rfl, rfl, ?_⟩
            rintro inum off hf
            cases hf
            exact ⟨j, hj, decide_eq_true ⟨hnz, ((namecmp_eq_zero _ _).mp hcmp).symm⟩, hbefore, rfl⟩
          · next hcmp =>
            refine ih (hnext (decide_eq_false ?_)) heq
            exact fun hb ↦ hcmp ((namecmp_eq_zero _ _).mpr hb.2.symm)
    · cases heq
      exact ⟨rfl, rfl, fun _ _ hf ↦ nomatch hf⟩

/-- The search for an empty entry ends at an entry, or at the end of the directory. -/
theorem emptyLoop_inside {fuel j off : Nat} {dp : Dinode} (hj : DESIZE * j ≤ (dinode sb d i).size)
    (heq : emptyLoop sb fuel (DESIZE * j) (dinode sb d i) d = .ok (off, dp, d')) :
    dp = dinode sb d i ∧ d' = d ∧ off ≤ (dinode sb d i).size ∧ off % DESIZE = 0 := by
  induction fuel generalizing j with
  | zero =>
    cases heq
    exact ⟨rfl, rfl, hj, Nat.mul_mod_right _ _⟩
  | succ fuel ih =>
    rw [emptyLoop] at heq
    split at heq
    · next hlt =>
      obtain ⟨n, hread, hfull⟩ := readi_dirent h hi ht hlt
      rw [hread] at heq
      simp only [bind, Except.bind] at heq
      split at heq
      · cases heq
      · next hr =>
        obtain ⟨-, hend⟩ := hfull (Option.some.inj (not_not.mp hr))
        split at heq
        · cases heq
          exact ⟨rfl, rfl, hj, Nat.mul_mod_right _ _⟩
        · exact ih hend heq
    · cases heq
      exact ⟨rfl, rfl, hj, Nat.mul_mod_right _ _⟩

end

theorem dirMap_of_first {c k : List UInt8} {q : Nat} (hq : q < slots c) (hb : binds c k q = true)
    (hbefore : ∀ q', q' < q → binds c k q' = false) : dirMap c k = some (slotInum c q) := by
  cases hf : firstFrom (binds c k) 0 (slots c) with
  | none =>
    have := firstFrom_eq_none hf q (Nat.zero_le q) (by omega)
    rw [hb] at this
    cases this
  | some q' =>
    obtain ⟨-, -, hb', hfirst⟩ := firstFrom_eq_some hf
    have heq : q' = q := by
      rcases Nat.lt_trichotomy q' q with hlt | he | hlt
      · rw [hbefore q' hlt] at hb'
        cases hb'
      · exact he
      · rw [hfirst q (Nat.zero_le q) hlt] at hb
        cases hb
    rw [dirMap_of_some hf, heq]

/-! ### `dirlookup` -/

/-- `dirlookup` in a directory whose fields are in memory: it finds nothing, or references what the
name is bound to. -/
theorem dirlookup_cases (hown : BlockOwnership sb s.disk) (hx : x < sb.ninodes)
    (hip : s.ip x = dinode sb s.disk x) (ht : (dinode sb s.disk x).type ≠ 0) {found : Option Nat}
    (heq : dirlookup sb x name s = .ok (found, s')) :
    (dinode sb s.disk x).type = T_DIR ∧ ((found = none ∧ s' = s) ∨
      ∃ y, found = some y ∧ iget sb y s = .ok s' ∧
        dirMap (content sb s.disk x) (key name) = some y ∧
        ∃ q, q < slots (content sb s.disk x) ∧ slotInum (content sb s.disk x) q = y) := by
  obtain ⟨⟨r, dp, d⟩, hlook, heq⟩ := bind_ok heq
  rw [hip, Dir.dirlookup] at hlook
  split at hlook
  · cases hlook
  next hdir =>
  refine ⟨not_not.mp hdir, ?_⟩
  obtain ⟨rfl, rfl, hfirst⟩ := dirlookupLoop_first hown hx ht (j := 0) (fun q hq ↦ by omega) hlook
  have hsame :
      ({ s with ip := Function.update s.ip x (dinode sb s.disk x), disk := s.disk } : State) =
      s := by
    rw [← hip, Function.update_eq_self]
  simp only [hsame] at heq
  cases r with
  | none =>
    cases heq
    exact Or.inl ⟨rfl, rfl⟩
  | some r =>
    obtain ⟨inum, off⟩ := r
    obtain ⟨s₁, hget, heq⟩ := bind_ok heq
    cases heq
    obtain ⟨q, hq, hb, hbefore, hinum⟩ := hfirst inum off rfl
    refine Or.inr ⟨inum, rfl, hget, ?_, q, hq, hinum⟩
    rw [← hinum]
    exact dirMap_of_first hq hb hbefore

/-! ### `namex` -/

/-- Entries of directories hold numbers of inodes. -/
def EntriesOk (sb : Super) (d : Disk) : Prop :=
  ∀ x, x < sb.ninodes → (dinode sb d x).type = T_DIR →
    ∀ q, q < slots (content sb d x) → slotInum (content sb d x) q < sb.ninodes

/-- The directory that the path leads to from directory `x`, without its last element. -/
def parentFrom (sb : Super) (d : Disk) : Nat → List UInt8 → Name → Nat → Option Nat
  | fuel, path, buf, x =>
    match skipelem path buf with
    | none => none
    | some (rest, name) =>
      if rest = [] then some x
      else match fuel with
      | 0 => none
      | fuel + 1 =>
        (dirMap (content sb d x) (key name)).bind (fun y ↦ parentFrom sb d fuel rest name y)

/-- The parent directory of a path. -/
def parentDir (sb : Super) (d : Disk) (cwd : Nat) (path : List UInt8) (buf : Name) : Option Nat :=
  parentFrom sb d path.length path buf (if path.head? = some slash then ROOTINO else cwd)

theorem skipelem_length {path rest : List UInt8} {buf : Name}
    (h : skipelem path buf = some (rest, name)) :
    rest.length < path.length := by
  unfold skipelem at h
  dsimp only at h
  split at h
  · cases h
  · next hne =>
    simp only [Option.some.injEq, Prod.mk.injEq] at h
    rw [← h.1]
    have h₁ := (List.dropWhile_sublist (l := path) (· = slash)).length_le
    have h₂ := (List.dropWhile_sublist (l := (path.dropWhile (· = slash)).dropWhile (· ≠ slash))
      (· = slash)).length_le
    have h₃ : ((path.dropWhile (· = slash)).dropWhile (· ≠ slash)).length <
        (path.dropWhile (· = slash)).length := by
      cases hp : path.dropWhile (· = slash) with
      | nil => exact absurd hp hne
      | cons c cs =>
        -- the first byte is no slash
        have hc := List.head?_dropWhile_not (· = slash) path
        rw [hp] at hc
        have hcs : decide (c ≠ slash) = true := by
          simpa using hc
        rw [List.dropWhile_cons, if_pos hcs, List.length_cons]
        exact Nat.lt_succ_of_le (List.dropWhile_sublist _).length_le
    omega

/-- What a walk leaves behind: the disk as it was, and a reference to the inode that it returns. -/
structure Walked (sb : Super) (ref : Nat → Nat) (parent : Bool) (dir : Option Nat) (s : State)
    (r : Option (Nat × Name)) (s' : State) : Prop where
  disk : s'.disk = s.disk
  uses : Uses sb ref ((r.map Prod.fst).elim 0 (fun y ↦ {y})) [] s'
  dir : parent = true → ∀ y name, r = some (y, name) →
    dir = some y ∧ (dinode sb s.disk y).type = T_DIR

theorem Walked.none (h : Uses sb ref 0 [] s') (hd : s'.disk = s.disk) {parent : Bool}
    {dir : Option Nat} :
    Walked sb ref parent dir s none s' :=
  ⟨hd, h, fun _ _ _ hr ↦ nomatch hr⟩

/-- The end of `namex`, when no element is left. -/
theorem namexLoop_end (hlinked : Linked sb ref s.disk x) {parent : Bool} {fuel : Nat}
    {path : List UInt8} {buf : Name} {r : Option (Nat × Name)} (h : Uses sb ref {x} [] s)
    (hskip : skipelem path buf = none) (heq : namexLoop sb parent fuel path buf x s = .ok (r, s'))
    (dir : Option Nat) :
    Walked sb ref parent dir s r s' := by
  rw [namexLoop, hskip] at heq
  cases parent with
  | true =>
    obtain ⟨s₁, hput, heq⟩ := bind_ok heq
    cases heq
    have h' : Uses sb ref (x ::ₘ 0) [] s := h
    obtain ⟨h₁, hd₁⟩ := h'.iput hlinked hput
    exact Walked.none h₁ hd₁
  | false =>
    cases heq
    exact ⟨rfl, h, fun hp ↦ nomatch hp⟩

section
variable (hown : BlockOwnership sb d) (hlinked : ∀ x, Linked sb ref d x) (hentries : EntriesOk sb d)
  (hsame : ∀ x, x < sb.ninodes → (dinode sb d x).type ≠ 0 → content sb d x = content sb d₀ x)

include hown hlinked hentries hsame

/-- The loop of `namex`, on a disk whose files are those of `d₀`. -/
theorem namexLoop_walked {parent : Bool} {fuel : Nat} {path : List UInt8} {buf : Name}
    {r : Option (Nat × Name)} (h : Uses sb ref {x} [] s) (hd : s.disk = d)
    (hfuel : path.length ≤ fuel) (heq : namexLoop sb parent fuel path buf x s = .ok (r, s')) :
    Walked sb ref parent (parentFrom sb d₀ fuel path buf x) s r s' := by
  induction fuel generalizing path buf x s with
  | zero =>
    cases hskip : skipelem path buf with
    | none => exact namexLoop_end (by rw [hd]; exact hlinked x) h hskip heq _
    | some q =>
      obtain ⟨rest, name⟩ := q
      have := skipelem_length hskip
      omega
  | succ fuel ih =>
    cases hskip : skipelem path buf with
    | none => exact namexLoop_end (by rw [hd]; exact hlinked x) h hskip heq _
    | some q =>
      obtain ⟨rest, name⟩ := q
      have hrest := skipelem_length hskip
      rw [namexLoop, hskip] at heq
      obtain ⟨s₁, hlock, heq⟩ := bind_ok heq
      obtain ⟨h₁, hd₁, -, -, hpos, hip, ht, -⟩ := h.ilock hlock
      rw [hd] at hd₁ hip ht
      have hx : x < sb.ninodes := h.inodes x hpos
      have hnil : x ∉ ([] : List Nat) := List.not_mem_nil
      have h₁' : Uses sb ref (x ::ₘ 0) [x] s₁ := h₁
      split at heq
      · obtain ⟨s₂, hput, heq⟩ := bind_ok heq
        cases heq
        obtain ⟨h₂, hd₂⟩ := h₁'.iunlockput hnil (by rw [hd₁]; exact hlinked x) hput
        exact Walked.none h₂ (by rw [hd₂, hd₁, hd])
      next hdir =>
      rw [hip] at hdir
      split at heq
      · next hlast =>
        obtain ⟨s₂, hunlock, heq⟩ := bind_ok heq
        cases heq
        obtain ⟨h₂, hd₂, -⟩ := h₁.iunlock hnil hunlock
        refine ⟨by rw [hd₂, hd₁, hd], h₂, ?_⟩
        intro _ y nm hr
        cases hr
        rw [hd]
        refine ⟨?_, not_not.mp hdir⟩
        rw [parentFrom, hskip]
        exact if_pos hlast.2
      · next hmore =>
        obtain ⟨⟨next, s₂⟩, hlook, hrest'⟩ := bind_ok heq
        obtain ⟨s₃, hput, hend⟩ := bind_ok hrest'
        rw [← hd₁] at hip ht
        obtain ⟨hT, hcases⟩ := dirlookup_cases (by rw [hd₁]; exact hown) hx hip ht hlook
        rw [hd₁] at hcases hT ht
        rcases hcases with ⟨hnone, hs₂⟩ | ⟨y, hsome, hget, hmap, k, hk, hkey⟩
        · rw [hs₂] at hput
          rw [hnone] at hend
          cases hend
          obtain ⟨h₃, hd₃⟩ := h₁'.iunlockput hnil (by rw [hd₁]; exact hlinked x) hput
          exact Walked.none h₃ (by rw [hd₃, hd₁, hd])
        · have hy : y < sb.ninodes := by
            rw [← hkey]
            exact hentries x hx hT k hk
          obtain ⟨h₂, hd₂⟩ := h₁.iget hy hget
          have hswap : y ::ₘ {x} = x ::ₘ {y} := Multiset.pair_comm y x
          rw [hswap] at h₂
          obtain ⟨h₃, hd₃⟩ := h₂.iunlockput hnil (by rw [hd₂, hd₁]; exact hlinked x) hput
          have hd' : s₃.disk = d := by rw [hd₃, hd₂, hd₁]
          rw [hsome] at hend
          have hwalk := ih h₃ hd' (by omega) hend
          refine ⟨by rw [hwalk.disk, hd', hd], hwalk.uses, ?_⟩
          intro hp z nm hr
          obtain ⟨hdir', hz⟩ := hwalk.dir hp z nm hr
          have hne : rest ≠ [] := fun hnil ↦ hmore ⟨hp, hnil⟩
          rw [hsame x hx ht] at hmap
          rw [hd, ← hd']
          refine ⟨?_, hz⟩
          rw [parentFrom, hskip]
          simp only [if_neg hne, hmap, Option.bind_some]
          exact hdir'

end

/-- `namex` of a process whose current directory is referenced. -/
theorem namex_walked (hown : BlockOwnership sb s.disk) (hlinked : ∀ x, Linked sb s.ref s.disk x)
    (hentries : EntriesOk sb s.disk) (hroot : ROOTINO < sb.ninodes)
    (hsame : ∀ x, x < sb.ninodes → (dinode sb s.disk x).type ≠ 0 →
      content sb s.disk x = content sb d₀ x)
    (h : Uses sb s.ref 0 [] s) {cwd : Nat} (hcwd : 0 < s.ref cwd) {parent : Bool}
    {path : List UInt8}
    {buf : Name} {r : Option (Nat × Name)} (heq : namex sb cwd parent path buf s = .ok (r, s')) :
    Walked sb s.ref parent (parentDir sb d₀ cwd path buf) s r s' := by
  unfold namex at heq
  unfold parentDir
  split at heq
  · next habs =>
    obtain ⟨s₁, hget, heq⟩ := bind_ok heq
    obtain ⟨h₁, hd₁⟩ := h.iget hroot hget
    have hwalk := namexLoop_walked hown hlinked hentries hsame h₁ hd₁ (le_refl _) heq
    rw [if_pos habs]
    have hdir := hwalk.dir
    rw [hd₁] at hdir
    exact ⟨hwalk.disk.trans hd₁, hwalk.uses, hdir⟩
  · next hrel =>
    have hwalk := namexLoop_walked hown hlinked hentries hsame (h.idup hcwd) rfl (le_refl _) heq
    rw [if_neg hrel]
    exact ⟨hwalk.disk, hwalk.uses, hwalk.dir⟩

end Xv6.Sysfile
