import Xv6.Bio.Lru
import Xv6.Lib.Run

/-!
# Which buffer is recycled

A run of the cache is recorded: whenever a `brelse` takes a reference count to zero, the buffer gets
the number of the step. The list is ordered by these numbers, the last one first. So the search of
`bget` from the back finds the buffer that was released longest ago.
-/

namespace Xv6.Bio

open Xv6.Lib

/-- The cache, when a `brelse` last took the count of each buffer to zero, and the number of the
next step. -/
structure Recorded (R P : Type) where
  cache : Cache R P
  stamp : Bufno → Nat
  clock : Nat

section
variable {R P : Type} [Add R] [Sub R] [OfNat R 0] [OfNat R 1] [DecidableEq R] [DecidableEq P]

/-- A step that is recorded. -/
def Recorded.step (s : Recorded R P) (a : Act P) : Option (Recorded R P) :=
  (s.cache.step a).map (fun t ↦
    { cache := t
      stamp := fun b ↦ if Zeroed s.cache t a b then s.clock else s.stamp b
      clock := s.clock + 1 })

/-- After `binit` the buffers count as released in the order in which it put them in the list. -/
def Recorded.init : Recorded R P where
  cache := Cache.binit
  stamp := fun b ↦ b.val
  clock := NBUF

/-- The pointers form one ring of all buffers. -/
def Ringed (c : Cache R P) : Prop := ∃ L, Listed c L

/-- A block that is not cached gets the buffer that was released first of those not in use. -/
def RecyclesOldest (s : Recorded R P) (t : Cache R P) : Act P → Prop
  | .bget p dev blockno =>
    (∀ b, ¬ ((s.cache.buf b).dev = dev ∧ (s.cache.buf b).blockno = blockno)) →
      ∀ b, t.pc p = .acquiring b → (s.cache.buf b).refcnt = 0 ∧
        ∀ b', (s.cache.buf b').refcnt = 0 → b' ≠ b → s.stamp b < s.stamp b'
  | _ => True

/-- The list is in the order of the releases. -/
structure InOrder (s : Recorded R P) (L : List Bufno) : Prop where
  listed : Listed s.cache L
  recent : L.Pairwise (fun b b' ↦ s.stamp b' < s.stamp b)
  clock : ∀ b, s.stamp b < s.clock

variable {s t : Recorded R P} {L : List Bufno}

omit [Add R] [Sub R] [OfNat R 1] [DecidableEq P] in
/-- The buffer that `bget` recycles was released before all others that are not in use. -/
theorem InOrder.oldest (h : InOrder s L) {b : Bufno} (hb : s.cache.unused = some b) :
    (s.cache.buf b).refcnt = 0 ∧
      ∀ b', (s.cache.buf b').refcnt = 0 → b' ≠ b → s.stamp b < s.stamp b' := by
  obtain ⟨hzero, l, l', hL, hused⟩ := unused_last h.listed hb
  refine ⟨hzero, ?_⟩
  intro b' hb' hne
  have hmem := h.listed.all b'
  have hrecent := h.recent
  rw [hL] at hmem hrecent
  rcases List.mem_append.mp hmem with hmem | hmem
  · exact (List.pairwise_append.mp hrecent).2.2 b' hmem b List.mem_cons_self
  · rcases List.mem_cons.mp hmem with he | hmem
    · exact (hne he).elim
    · exact (hused b' hmem hb').elim

variable [Fintype P] [Counter R]

theorem InOrder.step (h : InOrder s L) (hc : Inv s.cache) {a : Act P} (hs : s.step a = some t) :
    ∃ L', InOrder t L' := by
  obtain ⟨c, hstep, rfl⟩ := Option.map_eq_some_iff.mp hs
  obtain ⟨L', hL', hmoved⟩ := step_moved hc h.listed hstep
  have hclock (b : Bufno) :
      (if Zeroed s.cache c a b then s.clock else s.stamp b) < s.clock + 1 := by
    split
    · exact Nat.lt_succ_self _
    · exact Nat.lt_succ_of_lt (h.clock b)
  refine ⟨L', hL', ?_, hclock⟩
  rcases hmoved with ⟨rfl, hnot⟩ | ⟨b, rfl, hzeroed⟩
  · refine h.recent.imp ?_
    intro x y hlt
    dsimp only
    rw [if_neg (hnot x), if_neg (hnot y)]
    exact hlt
  · have hold (x : Bufno) (hx : x ∈ L.erase b) : ¬ Zeroed s.cache c a x := by
      rw [hzeroed]
      rintro rfl
      exact h.listed.nodup.not_mem_erase hx
    rw [List.pairwise_cons]
    constructor
    · intro x hx
      dsimp only
      rw [if_neg (hold x hx), if_pos ((hzeroed b).mpr rfl)]
      exact h.clock x
    · refine (h.recent.sublist (List.erase_sublist)).imp_of_mem ?_
      intro x y hx hy hlt
      dsimp only
      rw [if_neg (hold x hx), if_neg (hold y hy)]
      exact hlt

omit [Counter R] in
theorem step_oldest (h : InOrder s L) (hc : Inv s.cache) {a : Act P} (hs : s.step a = some t) :
    RecyclesOldest s t.cache a := by
  obtain ⟨c, hstep, rfl⟩ := Option.map_eq_some_iff.mp hs
  cases a with
  | bget p dev blockno =>
    obtain ⟨⟨-, hp⟩, rfl⟩ := Option.ite_none_right_eq_some.mp hstep |>.imp_right Option.some.inj
    intro hnone b hb
    have hself (x : Bufno) : (s.cache.goto p (.acquiring x)).pc p = .acquiring x :=
      Function.update_self _ _ _
    rcases bget_cases hc p dev blockno with ⟨x, -, hx⟩ | ⟨-, ⟨x, hx, hu⟩ | ⟨hx, -⟩⟩
    · exact (hnone x hx).elim
    · have hpc : (s.cache.bget p dev blockno).pc p = .acquiring x := by
        rw [hx]
        exact hself x
      cases hpc.symm.trans hb
      exact h.oldest hu
    · have hpc : (s.cache.bget p dev blockno).pc p = .out := by
        rw [hx]
        exact hp
      cases hpc.symm.trans hb
  | _ => exact True.intro

omit [Add R] [Sub R] [OfNat R 1] [DecidableEq R] [DecidableEq P] [Fintype P] [Counter R] in
theorem inOrder_init : InOrder (Recorded.init : Recorded R P) (List.finRange NBUF).reverse := by
  refine ⟨listed_binit, ?_, fun b ↦ b.isLt⟩
  rw [List.pairwise_reverse]
  exact List.pairwise_lt_finRange NBUF

end

/-- What holds of the cache between any two steps. -/
structure CacheOk {P : Type} [Fintype P] (c : Cache UInt32 P) : Prop where
  ring : Ringed c
  one : OneBuffer c
  refs : ∀ b, (c.buf b).refcnt = UInt32.ofNat (c.refs b)

theorem Inv.cacheOk {P : Type} [Fintype P] {c : Cache UInt32 P} (h : Inv c) : CacheOk c := by
  refine ⟨h.listed, h.one, ?_⟩
  intro b
  rw [h.refs, tally_uint32]

/-- In every run the pointers form one ring of all buffers, no block is cached twice and the
references are counted; no step takes a buffer in use from its block, and each recycled buffer is
the one that was released longest ago. -/
theorem cache_always {P : Type} [DecidableEq P] [Fintype P] (as : List (Act P)) :
    Always Recorded.step (fun s ↦ CacheOk s.cache) (Recorded.init : Recorded UInt32 P) as ∧
      Along Recorded.step (fun s a ↦ ∀ t, s.step a = some t →
        KeepsUsed s.cache t.cache ∧ RecyclesOldest s t.cache a)
        (Recorded.init : Recorded UInt32 P) as := by
  have hkeep (s : Recorded UInt32 P) (a : Act P) (t : Recorded UInt32 P)
      (h : Inv s.cache ∧ ∃ L, InOrder s L) (hs : s.step a = some t) :
      (Inv t.cache ∧ ∃ L, InOrder t L) ∧ KeepsUsed s.cache t.cache ∧
        RecyclesOldest s t.cache a := by
    obtain ⟨hc, L, hL⟩ := h
    obtain ⟨c, hstep, he⟩ := Option.map_eq_some_iff.mp hs
    have hok := step_ok hc hstep
    have hcache : t.cache = c := by rw [← he]
    rw [← hcache] at hok
    exact ⟨⟨hok.1, hL.step hc hs⟩, hok.2, step_oldest hL hc hs⟩
  have hinit : Inv (Recorded.init : Recorded UInt32 P).cache ∧
      ∃ L, InOrder (Recorded.init : Recorded UInt32 P) L := ⟨inv_binit, _, inOrder_init⟩
  constructor
  · exact always_of_invariant (fun _ h ↦ h.1.cacheOk) (fun s a t h hs ↦ (hkeep s a t h hs).1)
      hinit as
  · exact along_of_invariant (fun s a h t hs ↦ (hkeep s a t h hs).2)
      (fun s a t h hs ↦ (hkeep s a t h hs).1) hinit as

end Xv6.Bio
