import Mathlib.Algebra.Order.BigOperators.Group.Finset
import Mathlib.Data.Nat.ModEq
import Mathlib.Order.Interval.Finset.Nat
import Xv6.Disk.Invariant

/-!
# Each step of `virtio_disk_rw` keeps the invariant

The steps of `virtio_disk_rw`, one after the other. The rings never hold more than two requests,
because each of them has three of the `NUM` descriptors.
-/

namespace Xv6.Disk

open Lib

variable {P B : Type} {s t : State P B}

/-! ### How many requests there are -/

/-- The number of the request of a process. -/
def State.number (s : State P B) (p : P) : Option Nat := (s.pos p).live.map fun r ↦ s.serial r.1

theorem Driver.two_requests [Fintype P] (h : Driver s) {S : Finset Nat}
    (hS : ∀ n ∈ S, ∃ k, Head s n k) : S.card ≤ 2 := by
  classical
  have hcard := h.pool.card
  let L : Finset P := Finset.univ.filter fun p ↦ (s.pos p).live.isSome
  -- a process has one request at a time
  have hsub : S.image some ⊆ L.image s.number := by
    intro o ho
    obtain ⟨n, hn, rfl⟩ := Finset.mem_image.mp ho
    obtain ⟨_, p, b, idx, hlive, rfl, -⟩ := hS n hn
    refine Finset.mem_image.mpr ⟨p, ?_, ?_⟩
    · simp only [L, Finset.mem_filter, Finset.mem_univ, true_and, hlive, Option.isSome_some]
    · rw [State.number, hlive]
      rfl
  have hle : S.card ≤ L.card := by
    calc S.card
      _ = (S.image some).card := (Finset.card_image_of_injective S (Option.some_injective _)).symm
      _ ≤ (L.image s.number).card := Finset.card_le_card hsub
      _ ≤ L.card := Finset.card_image_le
  have hsum : ∑ p ∈ L, 3 ≤ ∑ p, (s.pos p).chain.length := by
    calc ∑ p ∈ L, 3
      _ ≤ ∑ p ∈ L, (s.pos p).chain.length := by
        apply Finset.sum_le_sum
        intro p hp
        obtain ⟨⟨b, idx⟩, hlive⟩ := Option.isSome_iff_exists.mp (Finset.mem_filter.mp hp).2
        rw [Pos.chain_of_ready (Pos.ready_of_live hlive)]
        exact Nat.le_refl 3
      _ ≤ ∑ p, (s.pos p).chain.length := Finset.sum_le_sum_of_subset (Finset.subset_univ _)
  rw [Finset.sum_const_nat (fun _ _ ↦ rfl)] at hsum
  unfold NUM at hcard
  omega

namespace Requests

/-- A number that the device has not completed was not cleared. -/
theorem not_cleared (h : Requests s) {n : Nat} (hn : n ∉ s.completed) : n ∉ s.cleared :=
  fun hmem ↦ hn (h.cleared.subset hmem)

/-- The entries of the used ring that the handler has not seen were not cleared. -/
theorem unseen_not_cleared (h : Requests s) {m : Nat} (hm : m < s.completed.length)
    (hseen : s.cleared.length ≤ m) : s.completed[m] ∉ s.cleared := by
  intro hmem
  obtain ⟨rest, hrest⟩ := h.cleared
  obtain ⟨k, hk, heq⟩ := List.getElem_of_mem hmem
  have hk' : k < s.completed.length := by
    rw [← hrest, List.length_append]
    omega
  have hget : s.completed[k] = s.cleared[k] := by
    simp only [← hrest]
    exact List.getElem_append_left hk
  have := (h.completedNodup.getElem_inj_iff).mp (hget.trans heq)
  omega

/-- Each published request that was not cleared is in flight. -/
theorem pending (h : Requests s) {n : Nat} (hn : n < s.published) (hclear : n ∉ s.cleared) :
    ∃ k, Head s n k := by
  by_cases hfetched : s.fetched ≤ n
  · exact ⟨_, h.avail n hfetched hn⟩
  rcases h.stage n (Nat.lt_of_not_le hfetched) with htaken | hdone
  · obtain ⟨r, hr, rfl⟩ := List.mem_map.mp htaken
    exact ⟨_, h.taken r hr⟩
  · obtain ⟨m, hm, rfl⟩ := List.getElem_of_mem hdone
    have hseen : s.cleared.length ≤ m := by
      by_contra hlt
      obtain ⟨rest, hrest⟩ := h.cleared
      apply hclear
      have hlt' : m < s.cleared.length := Nat.lt_of_not_le hlt
      have hget : s.completed[m] = s.cleared[m] := by
        simp only [← hrest]
        exact List.getElem_append_left hlt'
      rw [hget]
      exact List.getElem_mem hlt'
    exact ⟨_, (h.used m hm hseen).1⟩

/-- The avail ring holds at most two requests. -/
theorem avail_le [Fintype P] (h : Requests s) (hd : Driver s) : s.published ≤ s.fetched + 2 := by
  have hall : ∀ n ∈ Finset.Ico s.fetched s.published, ∃ k, Head s n k := by
    intro n hn
    rw [Finset.mem_Ico] at hn
    exact ⟨_, h.avail n hn.1 hn.2⟩
  have hcard := hd.two_requests hall
  rw [Nat.card_Ico] at hcard
  omega

/-- And so does the used ring. -/
theorem used_le [Fintype P] (h : Requests s) (hd : Driver s) :
    s.completed.length ≤ s.cleared.length + 2 := by
  have hall : ∀ n ∈ (s.completed.drop s.cleared.length).toFinset, ∃ k, Head s n k := by
    intro n hn
    obtain ⟨m, hm, rfl⟩ := List.getElem_of_mem (List.mem_toFinset.mp hn)
    rw [List.length_drop] at hm
    rw [List.getElem_drop]
    exact ⟨_, (h.used (s.cleared.length + m) (by omega) (Nat.le_add_right _ _)).1⟩
  have hcard := hd.two_requests hall
  have hnodup : (s.completed.drop s.cleared.length).Nodup :=
    h.completedNodup.sublist (List.drop_sublist _ _)
  rw [List.toFinset_card_of_nodup hnodup, List.length_drop] at hcard
  omega

end Requests

/-! ### Steps that leave the requests alone -/

/-- The rings, the work of the device and the history are the same. -/
structure SameRings (s t : State P B) : Prop where
  availIdx : t.availIdx = s.availIdx
  usedIdx : t.usedIdx = s.usedIdx
  usedRing : t.usedRing = s.usedRing
  seen : t.seen = s.seen
  fetched : t.fetched = s.fetched
  taken : t.taken = s.taken
  published : t.published = s.published
  completed : t.completed = s.completed
  cleared : t.cleared = s.cleared

/-- Nothing changes that the requests in flight depend on; those that were answered may go. -/
theorem Requests.shrink (h : Requests s) (hsame : SameRings s t)
    (hlive : ∀ p b idx, (t.pos p).live = some (b, idx) → (s.pos p).live = some (b, idx))
    (hkeep : ∀ p b idx, (s.pos p).live = some (b, idx) → s.serial b ∉ s.cleared →
      (t.pos p).live = some (b, idx))
    (hreq : ∀ p b idx, (s.pos p).live = some (b, idx) → t.serial b = s.serial b ∧
      t.disk b = s.disk b ∧ t.infoStatus idx.i₀ = s.infoStatus idx.i₀)
    (hring : ∀ n, s.fetched ≤ n → n < s.published →
      t.availRing (n % NUM) = s.availRing (n % NUM)) : Requests t := by
  have hhead {n k : Nat} (hk : Head s n k) (hn : n ∉ s.cleared) : Head t n k := by
    obtain ⟨p, b, idx, hp, rfl, hk⟩ := hk
    exact ⟨p, b, idx, hkeep p b idx hp hn, (hreq p b idx hp).1, hk⟩
  refine ⟨?_, ?_, ?_, ?_, ?_, ?_, ?_, ?_, ?_, ?_, ?_, ?_, ?_, ?_, ?_⟩
  · rw [hsame.availIdx, hsame.published]
    exact h.availIdx
  · rw [hsame.usedIdx, hsame.completed]
    exact h.usedIdx
  · rw [hsame.seen, hsame.cleared]
    exact h.seen
  · rw [hsame.fetched, hsame.published]
    exact h.fetched
  · rw [hsame.fetched, hsame.taken, hsame.completed]
    exact h.stage
  · rw [hsame.taken]
    exact h.takenNodup
  · rw [hsame.taken, hsame.fetched, hsame.completed]
    exact h.takenOnly
  · rw [hsame.completed]
    exact h.completedNodup
  · rw [hsame.completed, hsame.fetched]
    exact h.completedOnly
  · rw [hsame.cleared, hsame.completed]
    exact h.cleared
  · rw [hsame.fetched, hsame.published]
    intro n hn hn'
    rw [hring n hn hn']
    apply hhead (h.avail n hn hn')
    exact h.not_cleared (fun hmem ↦ Nat.not_le_of_lt (h.completedOnly n hmem) hn)
  · rw [hsame.taken]
    intro r hr
    exact hhead (h.taken r hr) (h.not_cleared (h.takenOnly r hr).2)
  · simp only [hsame.completed, hsame.cleared, hsame.usedRing]
    intro m hm hseen
    obtain ⟨hk, hstatus⟩ := h.used m hm hseen
    refine ⟨hhead hk (h.unseen_not_cleared hm hseen), ?_⟩
    obtain ⟨p, b, idx, hp, -, hidx⟩ := hk
    rw [← hidx, (hreq p b idx hp).2.2, hidx]
    exact hstatus
  · intro p b idx hp
    have hp := hlive p b idx hp
    obtain ⟨hserial, hdisk, -⟩ := hreq p b idx hp
    rw [hserial, hdisk, hsame.published, hsame.cleared]
    exact h.live p b idx hp
  · intro p q b b' idx idx' hp hq heq
    have hp := hlive p b idx hp
    have hq := hlive q b' idx' hq
    rw [(hreq p b idx hp).1, (hreq q b' idx' hq).1] at heq
    exact h.inj p q b b' idx idx' hp hq heq

theorem Requests.frame (h : Requests s) (hsame : SameRings s t)
    (hlive : ∀ p, (t.pos p).live = (s.pos p).live)
    (hreq : ∀ p b idx, (s.pos p).live = some (b, idx) → t.serial b = s.serial b ∧
      t.disk b = s.disk b ∧ t.infoStatus idx.i₀ = s.infoStatus idx.i₀)
    (hring : ∀ n, s.fetched ≤ n → n < s.published →
      t.availRing (n % NUM) = s.availRing (n % NUM)) : Requests t :=
  h.shrink hsame (fun p _ _ hp ↦ (hlive p).symm.trans hp) (fun p _ _ hp _ ↦ (hlive p).trans hp) hreq
    hring

/-- The lock is free or is held by the process. -/
def LockFor (lock : Holder P) (p : P) : Prop := lock = .free ∨ lock = .proc p

/-- Whoever holds the lock, nobody else does. -/
theorem LockFor.others {lock : Holder P} {p q : P} (h : LockFor lock p) (hq : q ≠ p) :
    lock ≠ .proc q := by
  rintro rfl
  rcases h with h | h
  · cases h
  · cases h
    exact hq rfl

/-- The descriptors of a request are not free. -/
theorem Driver.chain_used (h : Driver s) {p : P} {b : B} {idx : Idx}
    (hp : (s.pos p).ready = some (b, idx)) : ∀ i ∈ idx.list, i < NUM ∧ s.free i = false := by
  intro i hi
  rw [← Pos.chain_of_ready hp] at hi
  exact ⟨h.pool.lt p i hi, h.pool.taken p i hi⟩

/-- The step of a process that has or gets the lock: what remains to be shown of the driver is about
the process itself, and about the descriptors of the others. -/
theorem Driver.goto [DecidableEq P] (h : Driver s) {p : P} {pos : Pos B}
    (hpos : t.pos = Function.update s.pos p pos) (hheld : t.held = s.held)
    (hold : LockFor s.lock p) (hnew : LockFor t.lock p)
    (hlock : pos.locked = true ↔ t.lock = .proc p)
    (hbuf : ∀ b, pos.buf = some b → s.held b = some p)
    (hpool : Pool NUM t.free fun q ↦ (t.pos q).chain)
    (hself : ∀ b idx, pos.ready = some (b, idx) → Ready t.desc t.infoBuf b idx)
    (hother : ∀ q b idx, q ≠ p → (s.pos q).ready = some (b, idx) → Ready t.desc t.infoBuf b idx)
    (hformatted : ∀ b idx, pos = .formatted b idx →
      t.serial b = t.published ∧ t.disk b = true ∧ t.availRing (t.published % NUM) = idx.i₀) :
    Driver t := by
  have hat : t.pos p = pos := by rw [hpos, Function.update_self]
  have hoff {q : P} (hq : q ≠ p) : t.pos q = s.pos q := by rw [hpos, Function.update_of_ne hq]
  refine ⟨hpool, ?_, ?_, ?_, ?_⟩
  · intro q
    by_cases hq : q = p
    · rw [hq, hat]
      exact hlock
    · rw [hoff hq, h.lock q]
      exact iff_of_false (hold.others hq) (hnew.others hq)
  · intro q b hb
    rw [hheld]
    by_cases hq : q = p
    · rw [hq, hat] at hb
      rw [hq]
      exact hbuf b hb
    · rw [hoff hq] at hb
      exact h.held q b hb
  · intro q b idx hr
    by_cases hq : q = p
    · rw [hq, hat] at hr
      exact hself b idx hr
    · rw [hoff hq] at hr
      exact hother q b idx hq hr
  · intro q b idx hf
    by_cases hq : q = p
    · rw [hq, hat] at hf
      exact hformatted b idx hf
    · rw [hoff hq] at hf
      have hlocked : (s.pos q).locked = true := by
        rw [hf]
        rfl
      exact (hold.others hq ((h.lock q).mp hlocked)).elim

/-- `alloc3_desc` may clear descriptors that are free. -/
theorem Inv.clear_free (h : Inv s) {desc : Nat → Desc B} {asleep : P → Bool}
    (hdesc : ∀ i, s.free i = false → desc i = s.desc i) :
    Inv { s with desc := desc, asleep := asleep } := by
  have hd := h.driver
  refine ⟨⟨hd.pool, hd.lock, hd.held, ?_, hd.formatted⟩, ?_, h.fault⟩
  · intro p b idx hp
    refine ⟨(hd.ready p b idx hp).linked.frame ?_, (hd.ready p b idx hp).buf⟩
    intro i hi
    exact hdesc i (hd.chain_used hp i hi).2
  · exact h.requests.frame ⟨rfl, rfl, rfl, rfl, rfl, rfl, rfl, rfl, rfl⟩ (fun _ ↦ rfl)
      (fun _ _ _ _ ↦ ⟨rfl, rfl, rfl⟩) (fun _ _ _ ↦ rfl)

section
variable [DecidableEq P]

/-- A property of positions that a process keeps. -/
theorem goto_keeps {α : Type} (f : Pos B → α) {p : P} {pos : Pos B} (hf : f pos = f (s.pos p))
    (q : P) :
    f (Function.update s.pos p pos q) = f (s.pos q) := by
  rw [Function.update_apply]
  split
  · next hq => rw [hf, hq]
  · rfl

/-- A process acquires the lock, or sleeps and gives it up. -/
theorem Inv.move (h : Inv s) {p : P} {old pos : Pos B} {lock : Holder P} {asleep : P → Bool}
    (hp : s.pos p = old) (hchain : pos.chain = old.chain) (hready : pos.ready = old.ready)
    (hlive : pos.live = old.live) (hbuf : ∀ b, pos.buf = some b → s.held b = some p)
    (hnot : ∀ b idx, pos ≠ .formatted b idx) (hold : LockFor s.lock p) (hnew : LockFor lock p)
    (hlock : pos.locked = true ↔ lock = .proc p) :
    Inv { s.goto p pos with lock := lock, asleep := asleep } := by
  have hd := h.driver
  subst hp
  refine ⟨hd.goto rfl rfl hold hnew hlock hbuf ?_ ?_ ?_ ?_, ?_, h.fault⟩
  · exact hd.pool.congr (goto_keeps Pos.chain hchain)
  · intro b idx hr
    exact hd.ready p b idx (hready.symm.trans hr)
  · intro q b idx _ hr
    exact hd.ready q b idx hr
  · intro b idx hf
    exact (hnot b idx hf).elim
  · exact h.requests.frame ⟨rfl, rfl, rfl, rfl, rfl, rfl, rfl, rfl, rfl⟩ (goto_keeps Pos.live hlive)
      (fun _ _ _ _ ↦ ⟨rfl, rfl, rfl⟩) (fun _ _ _ ↦ rfl)

/-! ### `virtio_disk_rw` -/

theorem alloc_inv (h : Inv s) {p : P} {b : B} {write : Bool} (hp : s.pos p = .start b write) :
    Inv (s.alloc p b write) := by
  have hd := h.driver
  have hlocked : s.lock = .proc p := (hd.lock p).mp (by rw [hp]; rfl)
  have hbuf : ∀ b', some b = some b' → s.held b' = some p := by
    intro b' hb'
    cases hb'
    exact hd.held p b (by rw [hp]; rfl)
  unfold State.alloc
  rcases alloc3Desc_spec s with ⟨idx, free, heq, hnodup, hidx, hfree⟩ | ⟨desc, asleep, heq, hdesc⟩
  · rw [heq]
    change Inv (({ s with free := free } : State P B).goto p (.chosen b write idx))
    refine ⟨hd.goto rfl rfl (Or.inr hlocked) (Or.inr hlocked) ⟨fun _ ↦ hlocked, fun _ ↦ rfl⟩ hbuf
      ?_ (fun _ _ hr ↦ nomatch hr) (fun q b' idx' _ hr ↦ hd.ready q b' idx' hr)
      (fun _ _ hf ↦ nomatch hf), ?_, h.fault⟩
    · have hnone : (s.pos p).chain = [] := by
        rw [hp]
        rfl
      have hself : (Function.update s.pos p (Pos.chosen b write idx) p).chain = idx.list := by
        rw [Function.update_self]
        rfl
      refine hd.pool.take hnone hidx hnodup hfree hself ?_
      intro q hq
      exact congrArg Pos.chain (Function.update_of_ne hq _ _)
    · exact h.requests.frame ⟨rfl, rfl, rfl, rfl, rfl, rfl, rfl, rfl, rfl⟩
        (goto_keeps Pos.live (by rw [hp]; rfl)) (fun _ _ _ _ ↦ ⟨rfl, rfl, rfl⟩) (fun _ _ _ ↦ rfl)
  · rw [heq]
    have hclear : Inv { s with desc := desc, asleep := asleep } := h.clear_free hdesc
    change Inv (({ s with desc := desc, asleep := asleep } : State P B).sleep p (.noDesc b write))
    exact hclear.move hp rfl rfl rfl hbuf (fun _ _ hh ↦ nomatch hh) (Or.inr hlocked) (Or.inl rfl)
      ⟨(fun hh ↦ nomatch hh), (fun hh ↦ nomatch hh)⟩

/-- The end of `virtio_disk_rw`: the request is answered, and its descriptors are free again. -/
theorem finish_inv (h : Inv s) {p : P} {b : B} {idx : Idx} (hp : s.pos p = .published b idx)
    (hdone : s.disk b = false) {desc : Nat → Desc B} {free : Nat → Bool} {asleep : P → Bool}
    (hdesc : ∀ i, i ∉ idx.list → desc i = s.desc i)
    (hfree : ∀ i, free i = if i ∈ idx.list then true else s.free i) :
    Inv { s.goto p .idle with
      infoBuf := Function.update s.infoBuf idx.i₀ none, desc := desc, free := free
      asleep := asleep, lock := .free } := by
  have hd := h.driver
  have hr := h.requests
  have hlocked : s.lock = .proc p := (hd.lock p).mp (by rw [hp]; rfl)
  have hchain : (s.pos p).chain = idx.list := by
    rw [hp]
    rfl
  have hcleared : s.serial b ∈ s.cleared := by
    by_contra hnot
    have := (hr.live p b idx (by rw [hp]; rfl)).2.mpr hnot
    rw [hdone] at this
    cases this
  refine ⟨hd.goto rfl rfl (Or.inr hlocked) (Or.inl rfl)
    ⟨(fun hh ↦ nomatch hh), (fun hh ↦ nomatch hh)⟩
    (fun _ hb ↦ nomatch hb) ?_ (fun _ _ hready ↦ nomatch hready) ?_ (fun _ _ hf ↦ nomatch hf), ?_,
    h.fault⟩
  · have hfree' (i : Nat) : free i = if i ∈ (s.pos p).chain then true else s.free i := by
      rw [hchain]
      exact hfree i
    have hself : (Function.update s.pos p (Pos.idle : Pos B) p).chain = [] := by
      rw [Function.update_self]
      rfl
    refine hd.pool.give hfree' hself ?_
    intro q hq
    exact congrArg Pos.chain (Function.update_of_ne hq _ _)
  · intro q b' idx' hq hready
    have hapart {i : Nat} (hi : i ∈ idx'.list) : i ∉ idx.list := by
      intro hmem
      rw [← Pos.chain_of_ready hready] at hi
      rw [← hchain] at hmem
      exact hq (hd.pool.disjoint q p i hi hmem)
    apply (hd.ready q b' idx' hready).frame
    · intro i hi
      exact hdesc i (hapart hi)
    · apply Function.update_of_ne
      intro heq
      apply hapart idx'.head_mem
      rw [heq]
      exact idx.head_mem
  · refine hr.shrink ⟨rfl, rfl, rfl, rfl, rfl, rfl, rfl, rfl, rfl⟩ ?_ ?_
      (fun _ _ _ _ ↦ ⟨rfl, rfl, rfl⟩) (fun _ _ _ ↦ rfl)
    · intro q b' idx' hlive
      change (Function.update s.pos p .idle q).live = _ at hlive
      rw [Function.update_apply] at hlive
      split at hlive
      · cases hlive
      · exact hlive
    · intro q b' idx' hlive hn
      have hq : q ≠ p := by
        rintro rfl
        rw [hp] at hlive
        cases hlive
        exact hn hcleared
      change (Function.update s.pos p .idle q).live = _
      rw [Function.update_of_ne hq]
      exact hlive

theorem test_inv (h : Inv s) {p : P} {b : B} {idx : Idx} (hp : s.pos p = .published b idx) :
    Inv (s.test p b idx) := by
  have hd := h.driver
  have hready : (s.pos p).ready = some (b, idx) := by
    rw [hp]
    rfl
  have hlocked : s.lock = .proc p := (hd.lock p).mp (by rw [hp]; rfl)
  unfold State.test
  split
  · refine h.move hp rfl rfl rfl ?_ (fun _ _ hh ↦ nomatch hh) (Or.inr hlocked) (Or.inl rfl)
      ⟨(fun hh ↦ nomatch hh), (fun hh ↦ nomatch hh)⟩
    intro b' hb'
    cases hb'
    exact hd.held p b (by rw [hp]; rfl)
  · next hdisk =>
    have hnodup : idx.list.Nodup := by
      rw [← Pos.chain_of_ready hready]
      exact hd.pool.nodup p
    obtain ⟨desc, free, asleep, heq, hdesc, hfree⟩ := freeChain_spec
      (s := { s with infoBuf := Function.update s.infoBuf idx.i₀ none })
      (hd.ready p b idx hready).linked hnodup (hd.chain_used hready)
    rw [heq]
    exact finish_inv h hp (Bool.eq_false_iff.mpr hdisk) hdesc hfree

variable [DecidableEq B]

/-- Formatting makes the chain of the process ready. -/
theorem format_ready (blockno : B → Nat) {p : P} {b : B} {write : Bool} {idx : Idx}
    (hnodup : idx.list.Nodup) :
    Ready (s.format blockno p b write idx).desc (s.format blockno p b write idx).infoBuf b idx := by
  simp only [Idx.list, List.nodup_cons, List.mem_cons, List.not_mem_nil, or_false, not_or,
    List.nodup_nil, not_false_eq_true, and_true] at hnodup
  obtain ⟨⟨h01, h02⟩, h12⟩ := hnodup
  have hflags : ((if write then 0 else VRING_DESC_F_WRITE) ||| VRING_DESC_F_NEXT) &&&
      VRING_DESC_F_NEXT ≠ 0 := by
    cases write <;> decide
  refine ⟨⟨?_, ?_, ?_⟩, ?_⟩
  · simp only [State.format, Function.update_of_ne h01, Function.update_of_ne h02,
      Function.update_self]
    decide
  · simp only [State.format, Function.update_of_ne h12, Function.update_self]
    exact ⟨hflags, trivial⟩
  · simp only [State.format, Function.update_self]
    decide
  · simp only [State.format, Function.update_self]

/-- Formatting touches only the descriptors of the process. -/
theorem format_desc (blockno : B → Nat) {p : P} {b : B} {write : Bool} {idx : Idx} {i : Nat}
    (hi : i ∉ idx.list) : (s.format blockno p b write idx).desc i = s.desc i := by
  simp only [Idx.list, List.mem_cons, List.not_mem_nil, or_false, not_or] at hi
  simp only [State.format, Function.update_of_ne hi.1, Function.update_of_ne hi.2.1,
    Function.update_of_ne hi.2.2]

theorem format_inv [Fintype P] (h : Inv s) (blockno : B → Nat) {p : P} {b : B} {write : Bool}
    {idx : Idx} (hp : s.pos p = .chosen b write idx) : Inv (s.format blockno p b write idx) := by
  have hd := h.driver
  have hr := h.requests
  have hlocked : s.lock = .proc p := (hd.lock p).mp (by rw [hp]; rfl)
  have hheld : s.held b = some p := hd.held p b (by rw [hp]; rfl)
  have hchain : (s.pos p).chain = idx.list := by
    rw [hp]
    rfl
  have hnodup : idx.list.Nodup := by
    rw [← hchain]
    exact hd.pool.nodup p
  have hslot : s.availIdx % NUM = s.published % NUM := by
    rw [hr.availIdx]
    exact Nat.mod_mod_of_dvd _ (by decide)
  -- the chains of the others are elsewhere
  have hapart {q : P} {b' : B} {idx' : Idx} (hq : q ≠ p)
      (hready : (s.pos q).ready = some (b', idx'))
      {i : Nat} (hi : i ∈ idx'.list) : i ∉ idx.list := by
    intro hmem
    rw [← Pos.chain_of_ready hready] at hi
    rw [← hchain] at hmem
    exact hq (hd.pool.disjoint q p i hi hmem)
  have hhead {q : P} {b' : B} {idx' : Idx} (hq : q ≠ p)
      (hready : (s.pos q).ready = some (b', idx')) : idx'.i₀ ≠ idx.i₀ := by
    intro heq
    apply hapart hq hready idx'.head_mem
    rw [heq]
    exact idx.head_mem
  refine ⟨hd.goto rfl rfl (Or.inr hlocked) (Or.inr hlocked) ⟨fun _ ↦ hlocked, fun _ ↦ rfl⟩
    ?_ ?_ ?_ ?_ ?_, ?_, h.fault⟩
  · intro b' hb'
    cases hb'
    exact hheld
  · exact hd.pool.congr (goto_keeps Pos.chain (by rw [hp]; rfl))
  · intro b' idx' hready
    cases hready
    exact format_ready blockno hnodup
  · intro q b' idx' hq hready
    apply (hd.ready q b' idx' hready).frame
    · intro i hi
      exact format_desc blockno (hapart hq hready hi)
    · exact Function.update_of_ne (hhead hq hready) _ _
  · intro b' idx' hf
    cases hf
    refine ⟨Function.update_self _ _ _, Function.update_self _ _ _, ?_⟩
    change Function.update s.availRing (s.availIdx % NUM) idx.i₀ (s.published % NUM) = idx.i₀
    rw [hslot, Function.update_self]
  · refine hr.frame ⟨rfl, rfl, rfl, rfl, rfl, rfl, rfl, rfl, rfl⟩
      (goto_keeps Pos.live (by rw [hp]; rfl)) ?_ ?_
    · intro q b' idx' hlive
      have hq : q ≠ p := by
        rintro rfl
        rw [hp] at hlive
        cases hlive
      have hb : b' ≠ b := by
        rintro rfl
        have := hd.held q b' (Pos.buf_of_live hlive)
        rw [hheld] at this
        cases this
        exact hq rfl
      exact ⟨Function.update_of_ne hb _ _, Function.update_of_ne hb _ _,
        Function.update_of_ne (hhead hq (Pos.ready_of_live hlive)) _ _⟩
    · intro n hn hn'
      have hroom := hr.avail_le hd
      apply Function.update_of_ne
      rw [hslot]
      unfold NUM
      omega

theorem publish_inv (h : Inv s) {p : P} {b : B} {idx : Idx} (hp : s.pos p = .formatted b idx) :
    Inv (s.publish p b idx) := by
  have hd := h.driver
  have hr := h.requests
  have hlocked : s.lock = .proc p := (hd.lock p).mp (by rw [hp]; rfl)
  obtain ⟨hserial, hdisk, hring⟩ := hd.formatted p b idx hp
  have hat : ((s.publish p b idx).pos p).live = some (b, idx) := by
    change (Function.update s.pos p (Pos.published b idx) p).live = _
    rw [Function.update_self]
    rfl
  have hoff {q : P} (hq : q ≠ p) : (s.publish p b idx).pos q = s.pos q :=
    Function.update_of_ne hq _ _
  have hnot {q : P} {r : B × Idx} (hq : (s.pos q).live = some r) : q ≠ p := by
    rintro rfl
    rw [hp] at hq
    cases hq
  have hhead {n k : Nat} (hk : Head s n k) : Head (s.publish p b idx) n k := by
    obtain ⟨q, b', idx', hlive, hn, hk⟩ := hk
    exact ⟨q, b', idx', by rw [hoff (hnot hlive)]; exact hlive, hn, hk⟩
  -- whoever is in flight now was it before, or is the process with the next number
  have hcases {q : P} {b' : B} {idx' : Idx}
      (hlive : ((s.publish p b idx).pos q).live = some (b', idx')) :
      b' = b ∨ (s.pos q).live = some (b', idx') ∧ s.serial b' < s.published := by
    by_cases hq : q = p
    · rw [hq, hat] at hlive
      cases hlive
      exact Or.inl rfl
    · rw [hoff hq] at hlive
      exact Or.inr ⟨hlive, (hr.live q b' idx' hlive).1⟩
  refine ⟨hd.goto rfl rfl (Or.inr hlocked) (Or.inr hlocked) ⟨fun _ ↦ hlocked, fun _ ↦ rfl⟩
    ?_ ?_ ?_ ?_ (fun _ _ hf ↦ nomatch hf), ?_, h.fault⟩
  · intro b' hb'
    cases hb'
    exact hd.held p b (by rw [hp]; rfl)
  · exact hd.pool.congr (goto_keeps Pos.chain (by rw [hp]; rfl))
  · intro b' idx' hready
    exact hd.ready p b' idx' (by rw [hp]; exact hready)
  · intro q b' idx' _ hready
    exact hd.ready q b' idx' hready
  · refine ⟨?_, hr.usedIdx, hr.seen, Nat.le_succ_of_le hr.fetched, hr.stage, hr.takenNodup,
      hr.takenOnly, hr.completedNodup, hr.completedOnly, hr.cleared, ?_,
      fun r hr' ↦ hhead (hr.taken r hr'), fun m hm hseen ↦
        ⟨hhead (hr.used m hm hseen).1, (hr.used m hm hseen).2⟩, ?_, ?_⟩
    · change (s.availIdx + 1) % 2 ^ 16 = (s.published + 1) % 2 ^ 16
      rw [hr.availIdx, Nat.mod_add_mod]
    · intro n hn hn'
      rcases Nat.lt_succ_iff_lt_or_eq.mp hn' with hlt | rfl
      · exact hhead (hr.avail n hn hlt)
      · exact ⟨p, b, idx, hat, hserial, hring.symm⟩
    · intro q b' idx' hlive
      rcases hcases hlive with rfl | ⟨hlive', hlt⟩
      · refine ⟨Nat.lt_succ_of_le (Nat.le_of_eq hserial), iff_of_true hdisk ?_⟩
        change s.serial b' ∉ s.cleared
        rw [hserial]
        intro hmem
        have hlt := hr.completedOnly _ (hr.cleared.subset hmem)
        have hle := hr.fetched
        omega
      · exact ⟨Nat.lt_succ_of_lt hlt, (hr.live q b' idx' hlive').2⟩
    · intro q q' b₁ b₂ idx₁ idx₂ h₁ h₂ heq
      change s.serial b₁ = s.serial b₂ at heq
      rcases hcases h₁ with rfl | ⟨h₁', hlt₁⟩
      · rcases hcases h₂ with rfl | ⟨h₂', hlt₂⟩
        · rfl
        · omega
      · rcases hcases h₂ with rfl | ⟨h₂', hlt₂⟩
        · omega
        · exact hr.inj q q' b₁ b₂ idx₁ idx₂ h₁' h₂' heq

end

end Xv6.Disk
