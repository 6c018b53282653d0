import Xv6.Disk.Model
import Xv6.Lib.Pool
import Xv6.Lib.Returns

/-!
# What the driver and the device agree on

The driver keeps three descriptors for each request and knows by its lock that nobody else changes
them. The device knows a request by the head of its chain. The invariant follows the number of each
request through its stages: in the avail ring, with the device, in the used ring, and answered.
-/

namespace Xv6.Disk

open Lib

variable {P B : Type}

/-! ### Positions -/

namespace Pos

/-- The descriptors of the process. -/
def chain : Pos B → List Nat
  | chosen _ _ idx | formatted _ idx | published _ idx | noReply _ idx => idx.list
  | _ => []

/-- The request whose descriptors are formatted. -/
def ready : Pos B → Option (B × Idx)
  | formatted b idx | published b idx | noReply b idx => some (b, idx)
  | _ => none

/-- The request in flight: published and not yet freed. -/
def live : Pos B → Option (B × Idx)
  | published b idx | noReply b idx => some (b, idx)
  | _ => none

/-- The buffer the process works on. -/
def buf : Pos B → Option B
  | idle => none
  | start b _ | noDesc b _ | chosen b _ _ | formatted b _ | published b _ | noReply b _ => some b

/-- The process holds `vdisk_lock`. -/
def locked : Pos B → Bool
  | start _ _ | chosen _ _ _ | formatted _ _ | published _ _ => true
  | _ => false

theorem ready_of_live {pos : Pos B} {r : B × Idx} (h : pos.live = some r) : pos.ready = some r := by
  cases pos with
  | published | noReply => exact h
  | _ => cases h

theorem buf_of_live {pos : Pos B} {b : B} {idx : Idx} (h : pos.live = some (b, idx)) :
    pos.buf = some b := by
  cases pos with
  | published | noReply => cases h; rfl
  | _ => cases h

theorem chain_of_ready {pos : Pos B} {b : B} {idx : Idx} (h : pos.ready = some (b, idx)) :
    pos.chain = idx.list := by
  cases pos with
  | formatted | published | noReply => cases h; rfl
  | _ => cases h

end Pos

theorem Idx.head_mem (idx : Idx) : idx.i₀ ∈ idx.list := List.mem_cons_self

/-! ### The invariant -/

/-- The three descriptors are linked, and the last one points to the status byte of the head. -/
structure Linked (desc : Nat → Desc B) (idx : Idx) : Prop where
  next₀ : (desc idx.i₀).flags &&& VRING_DESC_F_NEXT ≠ 0 ∧ (desc idx.i₀).next = idx.i₁
  next₁ : (desc idx.i₁).flags &&& VRING_DESC_F_NEXT ≠ 0 ∧ (desc idx.i₁).next = idx.i₂
  last : (desc idx.i₂).flags &&& VRING_DESC_F_NEXT = 0 ∧ (desc idx.i₂).addr = .status idx.i₀

/-- The chain of a request is linked, and its head knows the buffer. -/
structure Ready (desc : Nat → Desc B) (infoBuf : Nat → Option B) (b : B) (idx : Idx) : Prop where
  linked : Linked desc idx
  buf : infoBuf idx.i₀ = some b

/-- What holds of the driver by itself. -/
structure Driver (s : State P B) : Prop where
  pool : Pool NUM s.free fun p ↦ (s.pos p).chain
  lock : ∀ p, (s.pos p).locked = true ↔ s.lock = .proc p
  held : ∀ p b, (s.pos p).buf = some b → s.held b = some p
  ready : ∀ p b idx, (s.pos p).ready = some (b, idx) → Ready s.desc s.infoBuf b idx
  formatted : ∀ p b idx, s.pos p = .formatted b idx →
    s.serial b = s.published ∧ s.disk b = true ∧ s.availRing (s.published % NUM) = idx.i₀

/-- The request with number `n` is in flight and has the head `h`. -/
def Head (s : State P B) (n h : Nat) : Prop :=
  ∃ p b idx, (s.pos p).live = some (b, idx) ∧ s.serial b = n ∧ idx.i₀ = h

/-- Where the requests are. -/
structure Requests (s : State P B) : Prop where
  availIdx : s.availIdx = s.published % 2 ^ 16
  usedIdx : s.usedIdx = s.completed.length % 2 ^ 16
  seen : s.seen = s.cleared.length % 2 ^ 16
  fetched : s.fetched ≤ s.published
  stage : ∀ n < s.fetched, n ∈ s.taken.map Prod.snd ∨ n ∈ s.completed
  takenNodup : (s.taken.map Prod.snd).Nodup
  takenOnly : ∀ r ∈ s.taken, r.2 < s.fetched ∧ r.2 ∉ s.completed
  completedNodup : s.completed.Nodup
  completedOnly : ∀ n ∈ s.completed, n < s.fetched
  cleared : s.cleared <+: s.completed
  avail : ∀ n, s.fetched ≤ n → n < s.published → Head s n (s.availRing (n % NUM))
  taken : ∀ r ∈ s.taken, Head s r.2 r.1
  used : ∀ m (hm : m < s.completed.length), s.cleared.length ≤ m →
    Head s s.completed[m] (s.usedRing (m % NUM)) ∧ s.infoStatus (s.usedRing (m % NUM)) = 0
  live : ∀ p b idx, (s.pos p).live = some (b, idx) →
    s.serial b < s.published ∧ (s.disk b = true ↔ s.serial b ∉ s.cleared)
  inj : ∀ p q b b' idx idx', (s.pos p).live = some (b, idx) → (s.pos q).live = some (b', idx') →
    s.serial b = s.serial b' → b = b'

/-- The invariant of the driver and the device. -/
structure Inv (s : State P B) : Prop where
  driver : Driver s
  requests : Requests s
  fault : s.fault = none

section
variable {s t : State P B}

theorem Linked.frame {desc desc' : Nat → Desc B} {idx : Idx} (h : Linked desc idx)
    (hdesc : ∀ i ∈ idx.list, desc' i = desc i) : Linked desc' idx := by
  have h₀ : desc' idx.i₀ = desc idx.i₀ := hdesc _ (by simp [Idx.list])
  have h₁ : desc' idx.i₁ = desc idx.i₁ := hdesc _ (by simp [Idx.list])
  have h₂ : desc' idx.i₂ = desc idx.i₂ := hdesc _ (by simp [Idx.list])
  refine ⟨?_, ?_, ?_⟩
  · rw [h₀]
    exact h.next₀
  · rw [h₁]
    exact h.next₁
  · rw [h₂]
    exact h.last

theorem Ready.frame {b : B} {idx : Idx} (h : Ready s.desc s.infoBuf b idx)
    (hdesc : ∀ i ∈ idx.list, t.desc i = s.desc i) (hbuf : t.infoBuf idx.i₀ = s.infoBuf idx.i₀) :
    Ready t.desc t.infoBuf b idx :=
  ⟨h.linked.frame hdesc, hbuf.trans h.buf⟩

/-- The device finds the status byte of the head. -/
theorem Linked.lastAddr {desc : Nat → Desc B} {idx : Idx} (h : Linked desc idx) :
    State.lastAddr desc NUM idx.i₀ = .status idx.i₀ := by
  have hnum : NUM = 5 + 1 + 1 + 1 := rfl
  rw [hnum, State.lastAddr, if_pos h.next₀.1, h.next₀.2, State.lastAddr, if_pos h.next₁.1,
    h.next₁.2, State.lastAddr, if_neg (not_not.mpr h.last.1), h.last.2]

/-! ### Descriptors -/

theorem allocDesc_some {i : Nat} (h : s.allocDesc = (some i, t)) :
    i < NUM ∧ s.free i = true ∧ t = { s with free := Function.update s.free i false } := by
  unfold State.allocDesc at h
  split at h
  · next j hfind =>
    cases h
    exact ⟨List.mem_range.mp (List.mem_of_find?_eq_some hfind), List.find?_some hfind, rfl⟩
  · cases h

theorem allocDesc_none (h : s.allocDesc = (none, t)) : t = s := by
  unfold State.allocDesc at h
  split at h
  · cases h
  · cases h
    rfl

theorem freeDesc_ok {i : Nat} (hi : i < NUM) (hfree : s.free i = false) :
    ∃ asleep, State.freeDesc i s = .ok { s with
      desc := Function.update s.desc i ⟨.null, 0, 0, 0⟩
      free := Function.update s.free i true
      asleep := asleep } := by
  have hfree' : State.freeDesc i s = .ok (State.wakeupFree { s with
      desc := Function.update s.desc i ⟨.null, 0, 0, 0⟩
      free := Function.update s.free i true }) := by
    rw [State.freeDesc, if_neg (Nat.not_le_of_lt hi), if_neg (by rw [hfree]; decide)]
  exact ⟨_, hfree'⟩

/-- Giving back a descriptor that was just taken leaves the free ones as they were. -/
theorem update_restore {free : Nat → Bool} {i : Nat} (h : free i = true) :
    Function.update (Function.update free i false) i true = free := by
  rw [Function.update_idem, ← h, Function.update_eq_self]

/-- `alloc3_desc` finds three descriptors, or gives back what it found. -/
theorem alloc3Desc_spec (s : State P B) :
    (∃ idx free, s.alloc3Desc = .ok (some idx, { s with free := free }) ∧ idx.list.Nodup ∧
      (∀ i ∈ idx.list, i < NUM ∧ s.free i = true) ∧
      ∀ i, free i = if i ∈ idx.list then false else s.free i) ∨
    ∃ desc asleep, s.alloc3Desc = .ok (none, { s with desc := desc, asleep := asleep }) ∧
      ∀ i, s.free i = false → desc i = s.desc i := by
  have hkeep {i j : Nat} (hi : s.free i = true) (hj : s.free j = false) : j ≠ i := by
    rintro rfl
    rw [hi] at hj
    cases hj
  unfold State.alloc3Desc
  split
  · next t h =>
    cases allocDesc_none h
    exact Or.inr ⟨s.desc, s.asleep, rfl, fun _ _ ↦ rfl⟩
  next i₀ s₁ h₀ =>
  obtain ⟨hlt₀, hfree₀, hs₁⟩ := allocDesc_some h₀
  have hf₁ : s₁.free = Function.update s.free i₀ false := by rw [hs₁]
  split
  · next t h =>
    cases allocDesc_none h
    have hused : s₁.free i₀ = false := by rw [hf₁, Function.update_self]
    obtain ⟨asleep, hfree⟩ := freeDesc_ok hlt₀ hused
    rw [hfree, hf₁, update_restore hfree₀, hs₁]
    refine Or.inr ⟨_, asleep, rfl, ?_⟩
    intro i hi
    exact Function.update_of_ne (hkeep hfree₀ hi) _ _
  next i₁ s₂ h₁ =>
  obtain ⟨hlt₁, hfree₁, hs₂⟩ := allocDesc_some h₁
  have hne₁ : i₁ ≠ i₀ := by
    rintro rfl
    rw [hf₁, Function.update_self] at hfree₁
    cases hfree₁
  rw [hf₁, Function.update_of_ne hne₁] at hfree₁
  have hf₂ : s₂.free = Function.update (Function.update s.free i₀ false) i₁ false := by
    rw [hs₂, hf₁]
  split
  · next t h =>
    cases allocDesc_none h
    have hused₀ : s₂.free i₀ = false := by
      rw [hf₂, Function.update_of_ne hne₁.symm, Function.update_self]
    obtain ⟨asleep, hfree⟩ := freeDesc_ok hlt₀ hused₀
    rw [hfree]
    generalize hs₃ : ({ s₂ with
      desc := Function.update s₂.desc i₀ ⟨.null, 0, 0, 0⟩
      free := Function.update s₂.free i₀ true
      asleep := asleep } : State P B) = s₃
    have hf₃ : s₃.free = Function.update s.free i₁ false := by
      rw [← hs₃, hf₂, Function.update_comm hne₁.symm, update_restore]
      rw [Function.update_of_ne hne₁.symm, hfree₀]
    have hused₁ : s₃.free i₁ = false := by rw [hf₃, Function.update_self]
    obtain ⟨asleep', hfree'⟩ := freeDesc_ok hlt₁ hused₁
    change (_ ∨ ∃ desc asleep, (State.freeDesc i₁ s₃ >>= fun s ↦ .ok (none, s)) = _ ∧ _)
    rw [hfree', hf₃, update_restore hfree₁, ← hs₃, hs₂, hs₁]
    refine Or.inr ⟨Function.update (Function.update s.desc i₀ ⟨.null, 0, 0, 0⟩) i₁ ⟨.null, 0, 0, 0⟩,
      asleep', rfl, ?_⟩
    intro i hi
    rw [Function.update_of_ne (hkeep hfree₁ hi), Function.update_of_ne (hkeep hfree₀ hi)]
  next i₂ s₃ h₂ =>
  obtain ⟨hlt₂, hfree₂, hs₃⟩ := allocDesc_some h₂
  have hne₂ : i₂ ≠ i₁ := by
    rintro rfl
    rw [hf₂, Function.update_self] at hfree₂
    cases hfree₂
  have hne₂' : i₂ ≠ i₀ := by
    rintro rfl
    rw [hf₂, Function.update_of_ne hne₂, Function.update_self] at hfree₂
    cases hfree₂
  rw [hf₂, Function.update_of_ne hne₂, Function.update_of_ne hne₂'] at hfree₂
  refine Or.inl ⟨⟨i₀, i₁, i₂⟩, Function.update s₂.free i₂ false, ?_, ?_, ?_, ?_⟩
  · rw [hs₃, hs₂, hs₁]
  · simp only [Idx.list, List.nodup_cons, List.mem_cons, List.not_mem_nil, or_false, not_or]
    exact ⟨⟨hne₁.symm, hne₂'.symm⟩, hne₂.symm, not_false, List.nodup_nil⟩
  · intro i hi
    simp only [Idx.list, List.mem_cons, List.not_mem_nil, or_false] at hi
    rcases hi with rfl | rfl | rfl
    · exact ⟨hlt₀, hfree₀⟩
    · exact ⟨hlt₁, hfree₁⟩
    · exact ⟨hlt₂, hfree₂⟩
  · intro i
    rw [hf₂]
    simp only [Idx.list, List.mem_cons, List.not_mem_nil, or_false, Function.update_apply]
    by_cases h₀ : i = i₀
    · simp [h₀]
    · by_cases h₁ : i = i₁
      · simp [h₁]
      · simp [h₀, h₁]

/-- One round of `free_chain`. -/
theorem freeChain_round {rounds i : Nat} (hi : i < NUM) (hused : s.free i = false) :
    ∃ asleep, State.freeChain (rounds + 1) i s =
      if (s.desc i).flags &&& VRING_DESC_F_NEXT ≠ 0 then
        State.freeChain rounds (s.desc i).next { s with
          desc := Function.update s.desc i ⟨.null, 0, 0, 0⟩
          free := Function.update s.free i true
          asleep := asleep }
      else .ok { s with
        desc := Function.update s.desc i ⟨.null, 0, 0, 0⟩
        free := Function.update s.free i true
        asleep := asleep } := by
  obtain ⟨asleep, hfree⟩ := freeDesc_ok hi hused
  refine ⟨asleep, ?_⟩
  rw [State.freeChain, hfree]
  rfl

/-- `free_chain` frees the three descriptors of a request and nothing else. -/
theorem freeChain_spec {idx : Idx} (hlink : Linked s.desc idx) (hnodup : idx.list.Nodup)
    (hused : ∀ i ∈ idx.list, i < NUM ∧ s.free i = false) :
    ∃ desc free asleep, State.freeChain (NUM + 1) idx.i₀ s =
        .ok { s with desc := desc, free := free, asleep := asleep } ∧
      (∀ i, i ∉ idx.list → desc i = s.desc i) ∧
      ∀ i, free i = if i ∈ idx.list then true else s.free i := by
  obtain ⟨i₀, i₁, i₂⟩ := idx
  simp only [Idx.list, List.nodup_cons, List.mem_cons, List.not_mem_nil, or_false, not_or,
    List.nodup_nil, not_false_eq_true, and_true] at hnodup
  obtain ⟨⟨h01, h02⟩, h12⟩ := hnodup
  have h₀ := hused i₀ (by simp [Idx.list])
  have h₁ := hused i₁ (by simp [Idx.list])
  have h₂ := hused i₂ (by simp [Idx.list])
  have hnum : NUM + 1 = 6 + 1 + 1 + 1 := rfl
  have hnext₀ : (s.desc i₀).next = i₁ := hlink.next₀.2
  have hnext₁ : (s.desc i₁).next = i₂ := hlink.next₁.2
  obtain ⟨asleep₀, hround₀⟩ := freeChain_round h₀.1 h₀.2
  rw [hnum, hround₀, if_pos hlink.next₀.1, hnext₀]
  generalize hs₁ : ({ s with
      desc := Function.update s.desc i₀ ⟨.null, 0, 0, 0⟩
      free := Function.update s.free i₀ true
      asleep := asleep₀ } : State P B) = s₁
  have hd₁ : s₁.desc i₁ = s.desc i₁ := by
    rw [← hs₁]
    exact Function.update_of_ne (Ne.symm h01) _ _
  have hf₁ : s₁.free i₁ = false := by
    rw [← hs₁]
    exact (Function.update_of_ne (Ne.symm h01) _ _).trans h₁.2
  obtain ⟨asleep₁, hround₁⟩ := freeChain_round h₁.1 hf₁
  rw [hround₁, hd₁, if_pos hlink.next₁.1, hnext₁]
  generalize hs₂ : ({ s₁ with
      desc := Function.update s₁.desc i₁ ⟨.null, 0, 0, 0⟩
      free := Function.update s₁.free i₁ true
      asleep := asleep₁ } : State P B) = s₂
  have hd₂ : s₂.desc i₂ = s.desc i₂ := by
    rw [← hs₂, ← hs₁]
    exact (Function.update_of_ne (Ne.symm h12) _ _).trans (Function.update_of_ne (Ne.symm h02) _ _)
  have hf₂ : s₂.free i₂ = false := by
    rw [← hs₂, ← hs₁]
    exact ((Function.update_of_ne (Ne.symm h12) _ _).trans
      (Function.update_of_ne (Ne.symm h02) _ _)).trans h₂.2
  obtain ⟨asleep₂, hround₂⟩ := freeChain_round h₂.1 hf₂
  rw [hround₂, hd₂, if_neg (not_not.mpr hlink.last.1), ← hs₂, ← hs₁]
  refine ⟨_, _, asleep₂, rfl, ?_, ?_⟩
  · intro i hi
    simp only [Idx.list, List.mem_cons, List.not_mem_nil, or_false, not_or] at hi
    simp only [Function.update_of_ne hi.1, Function.update_of_ne hi.2.1,
      Function.update_of_ne hi.2.2]
  · intro i
    simp only [Idx.list, List.mem_cons, List.not_mem_nil, or_false, Function.update_apply]
    by_cases hi₀ : i = i₀
    · simp [hi₀]
    · by_cases hi₁ : i = i₁
      · simp [hi₁]
      · simp [hi₀, hi₁]

end

end Xv6.Disk
