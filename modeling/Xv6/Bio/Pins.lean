import Xv6.Bio.Commit

/-!
# The pins that a transaction holds

Each block of a transaction is cached in one buffer, which is pinned once until `install_trans` has
copied the block. `unpins` says which pins the rest of `commit` takes back: it is the rest of the
transaction in every state, whatever the other processes do with the cache in the meantime.
-/

namespace Xv6.Bio

open Xv6.Lib

/-! ### What `commit` has yet to do -/

/-- The blocks that the commands unpin, when the variables refer to the blocks `names`. -/
def unpins (names : Var → Option Nat) : List Cmd → List Nat
  | [] => []
  | .bread x blockno :: cs => unpins (Function.update names x (some blockno)) cs
  | .brelse x :: cs => unpins (Function.update names x none) cs
  | .bunpin x :: cs => (names x).toList ++ unpins names cs
  | .clear :: cs => unpins names cs

/-- The commands use their variables properly: a block is read that is not in hand, with nothing
else in hand or while it is pinned, and what is released or unpinned is in hand. -/
def Runs (names : Var → Option Nat) : List Cmd → Prop
  | [] => ∀ x, names x = none
  | .bread x blockno :: cs => names x = none ∧ (∀ y, names y ≠ some blockno) ∧
    ((∀ y, names y = none) ∨ blockno ∈ unpins (Function.update names x (some blockno)) cs) ∧
    Runs (Function.update names x (some blockno)) cs
  | .brelse x :: cs => names x ≠ none ∧ Runs (Function.update names x none) cs
  | .bunpin x :: cs => names x ≠ none ∧ Runs names cs
  | .clear :: cs => Runs names cs

/-- The variables refer to the blocks `a` and `b`. -/
def inHand (a b : Option Nat) : Var → Option Nat
  | .log => a
  | .home => b

@[simp] theorem update_log (a b v : Option Nat) :
    Function.update (inHand a b) .log v = inHand v b := by
  funext x
  cases x <;> rfl

@[simp] theorem update_home (a b v : Option Nat) :
    Function.update (inHand a b) .home v = inHand a v := by
  funext x
  cases x <;> rfl

theorem unpins_writeLog (start tail : Nat) (lh : List Nat) (cs : List Cmd) :
    unpins (inHand none none) (writeLog start tail lh ++ cs) = unpins (inHand none none) cs := by
  induction lh generalizing tail with
  | nil => rfl
  | cons b lh ih =>
    simp only [writeLog, List.cons_append, unpins, update_log, update_home]
    exact ih (tail + 1)

theorem unpins_installTrans (start tail : Nat) (lh : List Nat) (cs : List Cmd) :
    unpins (inHand none none) (installTrans start tail lh ++ cs) =
      lh ++ unpins (inHand none none) cs := by
  induction lh generalizing tail with
  | nil => rfl
  | cons b lh ih =>
    simp only [installTrans, List.cons_append, unpins, update_log, update_home]
    rw [ih (tail + 1)]
    rfl

theorem unpins_writeHead (start : Nat) (cs : List Cmd) :
    unpins (inHand none none) (writeHead start ++ cs) = unpins (inHand none none) cs := by
  simp only [writeHead, List.cons_append, List.nil_append, unpins, update_log]

/-- `commit` takes back the pins of its transaction. -/
theorem unpins_commit (start : Nat) (lh : List Nat) :
    unpins (inHand none none) (commit start lh) = lh := by
  rw [commit]
  split
  · rw [unpins_writeLog, unpins_writeHead, unpins_installTrans, unpins]
    have hhead := unpins_writeHead start []
    rw [List.append_nil] at hhead
    rw [hhead, unpins, List.append_nil]
  · next hzero =>
    have hnil : lh = [] := List.eq_nil_of_length_eq_zero (by omega)
    rw [hnil]
    rfl

theorem runs_writeHead (start : Nat) {cs : List Cmd} (h : Runs (inHand none none) cs) :
    Runs (inHand none none) (writeHead start ++ cs) := by
  have hnone (y : Var) : inHand none none y = none := by cases y <;> rfl
  simp only [writeHead, List.cons_append, List.nil_append, Runs, update_log]
  refine ⟨rfl, ?_, Or.inl hnone, ?_, h⟩
  · intro y
    rw [hnone]
    exact Option.some_ne_none start |>.symm
  · exact Option.some_ne_none start

/-- A round that reads a log block and then a pinned home block. -/
theorem runs_round {a b : Nat} {cs : List Cmd} (hne : b ≠ a)
    (hpin : b ∈ unpins (inHand (some a) (some b)) cs) (h : Runs (inHand (some a) (some b)) cs) :
    Runs (inHand none none) (.bread .log a :: .bread .home b :: cs) := by
  have hnone (y : Var) : inHand none none y = none := by cases y <;> rfl
  simp only [Runs, update_log, update_home]
  refine ⟨rfl, ?_, Or.inl hnone, rfl, ?_, Or.inr hpin, h⟩
  · intro y
    rw [hnone]
    exact Option.some_ne_none a |>.symm
  · intro y
    cases y with
    | log => exact fun he ↦ hne (Option.some.inj he).symm
    | home => exact Option.some_ne_none b |>.symm

theorem runs_writeLog {start : Nat} (tail : Nat) {lh : List Nat} {cs : List Cmd}
    (hpin : ∀ b ∈ lh, b ∈ unpins (inHand none none) cs)
    (hhome : ∀ b ∈ lh, ∀ j < lh.length, b ≠ start + (tail + j) + 1)
    (h : Runs (inHand none none) cs) :
    Runs (inHand none none) (writeLog start tail lh ++ cs) := by
  induction lh generalizing tail with
  | nil => exact h
  | cons b lh ih =>
    have hrest := ih (tail + 1) (fun b' hb' ↦ hpin b' (List.mem_cons_of_mem b hb')) (by
      intro b' hb' j hj
      have := hhome b' (List.mem_cons_of_mem b hb') (j + 1) (by rw [List.length_cons]; omega)
      omega)
    rw [writeLog, List.cons_append, List.cons_append]
    apply runs_round
    · exact hhome b List.mem_cons_self 0 (by rw [List.length_cons]; omega)
    · simp only [List.cons_append, unpins, update_log, update_home]
      rw [unpins_writeLog]
      exact hpin b List.mem_cons_self
    · simp only [List.cons_append, Runs, update_log, update_home]
      exact ⟨Option.some_ne_none b, Option.some_ne_none _, hrest⟩

theorem runs_installTrans {start : Nat} (tail : Nat) {lh : List Nat} {cs : List Cmd}
    (hhome : ∀ b ∈ lh, ∀ j < lh.length, b ≠ start + (tail + j) + 1)
    (h : Runs (inHand none none) cs) :
    Runs (inHand none none) (installTrans start tail lh ++ cs) := by
  induction lh generalizing tail with
  | nil => exact h
  | cons b lh ih =>
    have hrest := ih (tail + 1) (by
      intro b' hb' j hj
      have := hhome b' (List.mem_cons_of_mem b hb') (j + 1) (by rw [List.length_cons]; omega)
      omega)
    rw [installTrans, List.cons_append, List.cons_append]
    apply runs_round
    · exact hhome b List.mem_cons_self 0 (by rw [List.length_cons]; omega)
    · simp only [List.cons_append, unpins]
      exact List.mem_append_left _ (Option.mem_toList.mpr rfl)
    · simp only [List.cons_append, Runs, update_log, update_home]
      exact ⟨Option.some_ne_none b, Option.some_ne_none _, Option.some_ne_none b, hrest⟩

/-- `commit` uses its variables properly, if the blocks of the transaction are outside the log. -/
theorem runs_commit {cfg : Log.Cfg} {lh : List Nat} (hfits : lh.length < cfg.size)
    (hhome : ∀ b ∈ lh, ¬ cfg.InLog b) : Runs (inHand none none) (commit cfg.start lh) := by
  have hend : Runs (inHand none none) [] := by
    intro y
    cases y <;> rfl
  have hblock : ∀ b ∈ lh, ∀ j < lh.length, b ≠ cfg.start + (0 + j) + 1 := by
    intro b hb j hj he
    apply hhome b hb
    rw [he]
    exact ⟨by omega, by omega⟩
  rw [commit]
  split
  · have hlast : Runs (inHand none none) (.clear :: writeHead cfg.start) := by
      have := runs_writeHead cfg.start hend
      rwa [List.append_nil] at this
    have hinstall := runs_installTrans 0 hblock hlast
    refine runs_writeLog 0 ?_ hblock (runs_writeHead cfg.start hinstall)
    intro b hb
    rw [unpins_writeHead, unpins_installTrans]
    exact List.mem_append_left _ hb
  · exact hend

/-- A transaction that is not empty is cleared. -/
theorem clear_mem_commit (start : Nat) {lh : List Nat} (h : lh ≠ []) :
    .clear ∈ commit start lh := by
  rw [commit, if_pos (List.length_pos_iff.mpr h)]
  simp

/-! ### Pinned blocks -/

variable {P : Type} {c t : Cache Nat P}

/-- Buffer `b` is that of block `blockno` of the file system. -/
def Cache.Caches (c : Cache Nat P) (b : Bufno) (blockno : Nat) : Prop :=
  (c.buf b).dev = ROOTDEV ∧ (c.buf b).blockno = blockno

/-- The blocks `pend` are cached, their buffers have one pin each, and the other buffers have
none. -/
structure Pinned (c : Cache Nat P) (pend : List Nat) : Prop where
  pins : ∀ b, c.pins b =
    if (c.buf b).dev = ROOTDEV ∧ (c.buf b).blockno ∈ pend then 1 else 0
  cached : ∀ blockno ∈ pend, ∃ b, c.Caches b blockno

section
variable [Fintype P] {pend : List Nat}

theorem Inv.unique (h : Inv c) {b b' : Bufno} {blockno : Nat} (hb : c.Caches b blockno)
    (hb' : c.Caches b' blockno) : b = b' := by
  apply h.one
  · rw [hb.1]
    decide
  · rw [hb.1, hb'.1]
  · rw [hb.2, hb'.2]

/-- Counts that are numbers do not wrap. -/
theorem Inv.count (h : Inv c) (b : Bufno) : (c.buf b).refcnt = c.refs b := by
  rw [h.refs, tally_nat]

theorem Inv.used_of_pinned (h : Inv c) {b : Bufno} (hb : 0 < c.pins b) :
    (c.buf b).refcnt ≠ 0 := by
  rw [h.count, Cache.refs]
  omega

theorem Inv.used_of_locked (h : Inv c) {b : Bufno} {p : P} (hb : c.lock b = some p) :
    (c.buf b).refcnt ≠ 0 := by
  rw [h.count, Cache.refs, hb]
  simp only [Option.isSome_some, Bool.toNat_true]
  omega

theorem Inv.used_of_acquiring (h : Inv c) {b : Bufno} {p : P} (hb : c.pc p = .acquiring b) :
    (c.buf b).refcnt ≠ 0 := by
  have hhits : 0 < hits c.pc (.acquiring b) := hits_pos_iff.mpr ⟨p, hb⟩
  rw [h.count, Cache.refs]
  omega

omit [Fintype P] in
theorem Pinned.pos (h : Pinned c pend) {b : Bufno} {blockno : Nat} (hb : c.Caches b blockno)
    (hmem : blockno ∈ pend) : c.pins b = 1 := by
  rw [h.pins, if_pos]
  exact ⟨hb.1, hb.2.symm ▸ hmem⟩

omit [Fintype P] in
theorem KeepsUsed.caches (h : KeepsUsed c t) {b : Bufno} {blockno : Nat} (hb : c.Caches b blockno)
    (hused : (c.buf b).refcnt ≠ 0) : t.Caches b blockno := by
  obtain ⟨hdev, hblock, -⟩ := h b hused
  exact ⟨hdev.trans hb.1, hblock.trans hb.2⟩

/-- The pins stay right when the cache recycles buffers that are not in use. -/
theorem Pinned.keep (h : Pinned c pend) (hc : Inv c) (ht : Inv t) (hkeep : KeepsUsed c t)
    (hpins : t.pins = c.pins) : Pinned t pend := by
  have hcached (blockno : Nat) (hmem : blockno ∈ pend) :
      ∃ b, t.Caches b blockno ∧ (c.buf b).refcnt ≠ 0 := by
    obtain ⟨b, hb⟩ := h.cached blockno hmem
    have hused := hc.used_of_pinned (b := b) (by rw [h.pos hb hmem]; omega)
    exact ⟨b, hkeep.caches hb hused, hused⟩
  refine ⟨?_, ?_⟩
  · intro b
    rw [hpins, h.pins]
    by_cases hused : (c.buf b).refcnt ≠ 0
    · obtain ⟨hdev, hblock, -⟩ := hkeep b hused
      rw [hdev, hblock]
    · rw [if_neg, if_neg]
      · -- a recycled buffer got a block that was not cached
        rintro ⟨hdev, hmem⟩
        obtain ⟨b', hb', hused'⟩ := hcached _ hmem
        rw [ht.unique ⟨hdev, rfl⟩ hb'] at hused
        exact hused hused'
      · rintro ⟨hdev, hmem⟩
        apply hused
        apply hc.used_of_pinned
        rw [h.pos ⟨hdev, rfl⟩ hmem]
        omega
  · intro blockno hmem
    obtain ⟨b, hb, -⟩ := hcached blockno hmem
    exact ⟨b, hb⟩

/-- While no process uses the cache, the references are pins. -/
theorem refs_idle (hpc : ∀ p, c.pc p = .out) (hlock : ∀ b, c.lock b = none) {b : Bufno} :
    c.refs b = c.pins b := by
  rw [Cache.refs, hlock, hits_eq_zero, hits_eq_zero]
  · simp
  · intro p
    rw [hpc]
    exact Pc.noConfusion
  · intro p
    rw [hpc]
    exact Pc.noConfusion

/-- With fewer than `NBUF` blocks pinned and no process using the cache, a buffer is not in use. -/
theorem Pinned.exists_unused (h : Pinned c pend) (hc : Inv c) (hlen : pend.length < NBUF)
    (hpc : ∀ p, c.pc p = .out) (hlock : ∀ b, c.lock b = none) : ∃ b, (c.buf b).refcnt = 0 := by
  by_contra hall
  have hpins (b : Bufno) : (c.buf b).refcnt = c.pins b := (hc.count b).trans (refs_idle hpc hlock)
  have hpend (b : Bufno) : (c.buf b).dev = ROOTDEV ∧ (c.buf b).blockno ∈ pend := by
    by_contra hno
    apply hall
    refine ⟨b, ?_⟩
    rw [hpins, h.pins, if_neg hno]
  have hinj : Function.Injective (fun b ↦ (c.buf b).blockno) := by
    intro b b' he
    exact hc.unique ⟨(hpend b).1, rfl⟩ ⟨(hpend b').1, he.symm⟩
  have hle : (List.finRange NBUF).length ≤ pend.length := by
    have hsub : ((List.finRange NBUF).map (fun b ↦ (c.buf b).blockno)) ⊆ pend := by
      intro x hx
      obtain ⟨b, -, rfl⟩ := List.mem_map.mp hx
      exact (hpend b).2
    have hperm := List.subperm_of_subset ((List.nodup_finRange NBUF).map hinj) hsub
    have := hperm.length_le
    rwa [List.length_map] at this
  rw [List.length_finRange] at hle
  omega

/-- `log_write` pins the buffer of a block that is not in the transaction. -/
theorem Pinned.bpin (h : Pinned c pend) (hc : Inv c) {b : Bufno} (hdev : (c.buf b).dev = ROOTDEV)
    (hnew : (c.buf b).blockno ∉ pend) (hbuf : ∀ x, SameBlock (t.buf x) (c.buf x))
    (hpins : ∀ x, t.pins x = if x = b then c.pins b + 1 else c.pins x) :
    Pinned t (pend ++ [(c.buf b).blockno]) := by
  refine ⟨?_, ?_⟩
  · intro x
    rw [hpins, (hbuf x).1, (hbuf x).2.1]
    by_cases hx : x = b
    · rw [if_pos hx, hx, h.pins, if_neg (fun hm ↦ hnew hm.2), if_pos]
      exact ⟨hdev, List.mem_append_right pend (List.mem_singleton_self _)⟩
    · have hiff : ((c.buf x).dev = ROOTDEV ∧ (c.buf x).blockno ∈ pend ++ [(c.buf b).blockno]) ↔
          ((c.buf x).dev = ROOTDEV ∧ (c.buf x).blockno ∈ pend) := by
        apply and_congr_right
        intro hdev'
        rw [List.mem_append, List.mem_singleton]
        constructor
        · rintro (hm | he)
          · exact hm
          · exact absurd (hc.unique ⟨hdev', he⟩ ⟨hdev, rfl⟩) hx
        · exact Or.inl
      rw [if_neg hx, h.pins]
      simp only [hiff]
  · intro blockno hm
    rcases List.mem_append.mp hm with hm | hm
    · obtain ⟨x, hx⟩ := h.cached blockno hm
      exact ⟨x, (hbuf x).1.trans hx.1, (hbuf x).2.1.trans hx.2⟩
    · rw [List.mem_singleton.mp hm]
      exact ⟨b, (hbuf b).1.trans hdev, (hbuf b).2.1⟩

/-- `install_trans` takes back the pin of a block. -/
theorem Pinned.bunpin {blockno : Nat} (h : Pinned c (blockno :: pend)) (hc : Inv c)
    (hnodup : blockno ∉ pend) {b : Bufno} (hb : c.Caches b blockno)
    (hbuf : ∀ x, SameBlock (t.buf x) (c.buf x))
    (hpins : ∀ x, t.pins x = if x = b then c.pins b - 1 else c.pins x) : Pinned t pend := by
  refine ⟨?_, ?_⟩
  · intro x
    rw [hpins, (hbuf x).1, (hbuf x).2.1]
    by_cases hx : x = b
    · rw [if_pos hx, hx, h.pos hb List.mem_cons_self, if_neg]
      rintro ⟨-, hm⟩
      rw [hb.2] at hm
      exact hnodup hm
    · have hiff : ((c.buf x).dev = ROOTDEV ∧ (c.buf x).blockno ∈ blockno :: pend) ↔
          ((c.buf x).dev = ROOTDEV ∧ (c.buf x).blockno ∈ pend) := by
        apply and_congr_right
        intro hdev
        rw [List.mem_cons]
        constructor
        · rintro (he | hm)
          · exact absurd (hc.unique ⟨hdev, he⟩ hb) hx
          · exact hm
        · exact Or.inr
      rw [if_neg hx, h.pins]
      simp only [hiff]
  · intro blockno' hm
    obtain ⟨x, hx⟩ := h.cached blockno' (List.mem_cons_of_mem blockno hm)
    exact ⟨x, (hbuf x).1.trans hx.1, (hbuf x).2.1.trans hx.2⟩

end

/-! ### Steps of the cache -/

section
variable [DecidableEq P]

theorem bget_rest (c : Cache Nat P) (p : P) (dev blockno : Nat) :
    (c.bget p dev blockno).lock = c.lock ∧ (c.bget p dev blockno).pins = c.pins ∧
      ∀ q, q ≠ p → (c.bget p dev blockno).pc q = c.pc q := by
  unfold Cache.bget
  split
  · exact ⟨rfl, rfl, fun q hq ↦ Function.update_of_ne hq _ _⟩
  · split
    · exact ⟨rfl, rfl, fun q hq ↦ Function.update_of_ne hq _ _⟩
    · exact ⟨rfl, rfl, fun _ _ ↦ rfl⟩

omit [DecidableEq P] in
theorem brelse_rest (c : Cache Nat P) (b : Bufno) :
    (c.brelse b).lock = c.lock ∧ (c.brelse b).pins = c.pins ∧ (c.brelse b).pc = c.pc ∧
      (c.brelse b).panic = c.panic := by
  unfold Cache.brelse
  dsimp only
  split <;> exact ⟨rfl, rfl, rfl, rfl⟩

/-- The pins belong to the log. -/
theorem step_pins {a : Act P} {q : P} (hq : a.proc = some q) (hs : c.step a = some t) :
    t.pins = c.pins := by
  cases a with
  | bget q' dev blockno =>
    obtain ⟨-, rfl⟩ := Option.ite_none_right_eq_some.mp hs |>.imp_right Option.some.inj
    exact (bget_rest c q' dev blockno).2.1
  | acquiresleep q' =>
    simp only [Cache.step] at hs
    split at hs
    · obtain ⟨-, rfl⟩ := Option.ite_none_right_eq_some.mp hs |>.imp_right Option.some.inj
      rfl
    · cases hs
  | fill q' b | releasesleep q' b =>
    obtain ⟨-, rfl⟩ := Option.ite_none_right_eq_some.mp hs |>.imp_right Option.some.inj
    rfl
  | brelse q' =>
    simp only [Cache.step] at hs
    split at hs
    · next b _ =>
      obtain ⟨-, rfl⟩ := Option.ite_none_right_eq_some.mp hs |>.imp_right Option.some.inj
      exact (brelse_rest c b).2.1
    · cases hs
  | bpin b | bunpin b => cases hq

/-- What a step of another process leaves alone. -/
theorem step_other {a : Act P} {p q : P} (hq : a.proc = some q) (hne : p ≠ q)
    (hs : c.step a = some t) : t.pc p = c.pc p ∧ ∀ b, c.lock b = some p → t.lock b = some p := by
  cases a with
  | bget q' dev blockno =>
    cases hq
    obtain ⟨-, rfl⟩ := Option.ite_none_right_eq_some.mp hs |>.imp_right Option.some.inj
    obtain ⟨hlock, -, hpc⟩ := bget_rest c q dev blockno
    refine ⟨hpc p hne, ?_⟩
    intro b hb
    rw [hlock]
    exact hb
  | acquiresleep q' =>
    cases hq
    simp only [Cache.step] at hs
    split at hs
    · next b' _ =>
      obtain ⟨⟨-, hfree⟩, rfl⟩ := Option.ite_none_right_eq_some.mp hs |>.imp_right Option.some.inj
      refine ⟨Function.update_of_ne hne _ _, ?_⟩
      intro b hb
      refine (Function.update_of_ne ?_ _ _).trans hb
      rintro rfl
      rw [hfree] at hb
      cases hb
    · cases hs
  | fill q' b' =>
    obtain ⟨-, rfl⟩ := Option.ite_none_right_eq_some.mp hs |>.imp_right Option.some.inj
    exact ⟨rfl, fun b hb ↦ hb⟩
  | releasesleep q' b' =>
    cases hq
    obtain ⟨⟨-, -, hheld⟩, rfl⟩ := Option.ite_none_right_eq_some.mp hs |>.imp_right Option.some.inj
    refine ⟨Function.update_of_ne hne _ _, ?_⟩
    intro b hb
    refine (Function.update_of_ne ?_ _ _).trans hb
    rintro rfl
    rw [hheld] at hb
    exact hne (Option.some.inj hb).symm
  | brelse q' =>
    cases hq
    simp only [Cache.step] at hs
    split at hs
    · next b' _ =>
      obtain ⟨-, rfl⟩ := Option.ite_none_right_eq_some.mp hs |>.imp_right Option.some.inj
      obtain ⟨hlock, -, hpc, -⟩ := brelse_rest c b'
      refine ⟨(Function.update_of_ne hne _ _).trans (congrFun hpc p), ?_⟩
      intro b hb
      exact (congrFun hlock b).trans hb
    · cases hs
  | bpin b' | bunpin b' => cases hq

/-- The buffer that `bget` found, or took for the block. -/
theorem bget_caches [Fintype P] (h : Inv c) {p : P} (hp : c.pc p = .out) {b : Bufno} {blockno : Nat}
    (hb : (c.bget p ROOTDEV blockno).pc p = .acquiring b) :
    (c.bget p ROOTDEV blockno).Caches b blockno := by
  have hself (x : Bufno) : (c.goto p (.acquiring x)).pc p = .acquiring x :=
    Function.update_self _ _ _
  rcases bget_cases h p ROOTDEV blockno with ⟨x, hx, hfound⟩ | ⟨-, ⟨x, hx, -⟩ | ⟨hx, -⟩⟩
  all_goals rw [hx] at hb ⊢
  · cases (hself x).symm.trans hb
    obtain ⟨hdev, hblock, -⟩ : SameBlock ((c.ref b).buf b) (c.buf b) := ref_sameBlock b b
    exact ⟨hdev.trans hfound.1, hblock.trans hfound.2⟩
  · cases (hself x).symm.trans hb
    have hbuf : ((c.setBuf b ⟨false, ROOTDEV, blockno, 1⟩).goto p (.acquiring b)).buf b =
        ⟨false, ROOTDEV, blockno, 1⟩ := Function.update_self _ _ _
    rw [Cache.Caches, hbuf]
    exact ⟨rfl, rfl⟩
  · cases hp.symm.trans hb

end

/-! ### The invariant -/

/-- The blocks that the variables of the process in `commit` refer to. -/
def Committer.names (r : Committer P) (c : Cache Nat P) (x : Var) : Option Nat :=
  (r.var x).map (fun b ↦ (c.buf b).blockno)

/-- The pins that have not been taken back. -/
def Sys.pending (s : Sys P) : List Nat :=
  match s.committer with
  | none => s.lh
  | some r => unpins (r.names s.cache) r.todo

/-- The process in `commit` has locked what its variables refer to, and waits for the buffer of the
block that it reads next. -/
structure Running (c : Cache Nat P) (lh : List Nat) (r : Committer P) : Prop where
  runs : Runs (r.names c) r.todo
  held : ∀ x b, r.var x = some b → c.lock b = some r.proc ∧ (c.buf b).dev = ROOTDEV
  inj : ∀ x y b, r.var x = some b → r.var y = some b → x = y
  waits : ∀ b, c.pc r.proc = .acquiring b →
    ∃ x blockno rest, r.todo = .bread x blockno :: rest ∧ c.Caches b blockno
  nodup : (unpins (r.names c) r.todo).Nodup
  few : (unpins (r.names c) r.todo).length < LOGSIZE
  cleared : lh = [] ∨ .clear ∈ r.todo

/-- What holds in every state. -/
structure Good [Fintype P] (cfg : Log.Cfg) (s : Sys P) : Prop where
  cache : Inv s.cache
  ops : s.outstanding = s.ops.card
  busy : s.committing = s.committer.isSome
  alone : s.committing = true → s.ops = ∅
  nodup : s.lh.Nodup
  few : s.lh.length < LOGSIZE
  home : ∀ blockno ∈ s.lh, ¬ cfg.InLog blockno
  pinned : Pinned s.cache s.pending
  running : ∀ r, s.committer = some r → Running s.cache s.lh r

section
variable [Fintype P] {r : Committer P} {lh : List Nat}

/-- A process keeps what it has locked. -/
theorem names_keep (hc : Inv c) (hkeep : KeepsUsed c t)
    (hheld : ∀ x b, r.var x = some b → c.lock b = some r.proc) : r.names t = r.names c := by
  funext x
  rw [Committer.names, Committer.names]
  cases hx : r.var x with
  | none => rfl
  | some b =>
    have hused := hc.used_of_locked (hheld x b hx)
    exact congrArg some (hkeep b hused).2.1

/-- The process in `commit` keeps its buffers, and has nothing more to do than before. -/
theorem Running.move (h : Running c lh r) (hc : Inv c) (hkeep : KeepsUsed c t)
    (hlock : ∀ b, c.lock b = some r.proc → t.lock b = some r.proc)
    (hwaits : ∀ b, t.pc r.proc = .acquiring b →
      ∃ x blockno rest, r.todo = .bread x blockno :: rest ∧ t.Caches b blockno) :
    Running t lh r := by
  have hnames := names_keep hc hkeep (fun x b hx ↦ (h.held x b hx).1)
  refine ⟨by rw [hnames]; exact h.runs, ?_, h.inj, hwaits, by rw [hnames]; exact h.nodup,
    by rw [hnames]; exact h.few, h.cleared⟩
  intro x b hx
  obtain ⟨hb, hdev⟩ := h.held x b hx
  exact ⟨hlock b hb, (hkeep b (hc.used_of_locked hb)).1.trans hdev⟩

/-- A step of another process. -/
theorem Running.keep (h : Running c lh r) (hc : Inv c) (hkeep : KeepsUsed c t)
    (hpc : t.pc r.proc = c.pc r.proc)
    (hlock : ∀ b, c.lock b = some r.proc → t.lock b = some r.proc) : Running t lh r := by
  apply h.move hc hkeep hlock
  intro b hb
  rw [hpc] at hb
  obtain ⟨x, blockno, rest, htodo, hcaches⟩ := h.waits b hb
  exact ⟨x, blockno, rest, htodo, hkeep.caches hcaches (hc.used_of_acquiring hb)⟩

end

end Xv6.Bio
