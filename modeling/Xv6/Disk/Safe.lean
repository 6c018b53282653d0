import Mathlib.Algebra.BigOperators.Group.Finset.Piecewise
import Mathlib.Algebra.BigOperators.Ring.Finset
import Xv6.Disk.Steps
import Xv6.Lib.Run

/-!
# The bookkeeping of the disk driver holds in every run

The steps of the device and of the interrupt handler, and what holds in every state of every run,
however processes, interrupts and the device interleave: whenever `vdisk_lock` is free, the requests
in flight own disjoint chains and the descriptors add up; each `b->disk` is cleared once, after the
device has completed that request; and no step panics or uses a null pointer.
-/

namespace Xv6.Disk

open Lib

variable {P B : Type} {s t : State P B}

/-! ### The device and the interrupt handler -/

theorem fetch_inv (h : Inv s) (ht : s.fetch = some t) : Inv t := by
  have hr := h.requests
  unfold State.fetch at ht
  split at ht
  · cases ht
  · next hne =>
    have heq := Option.some.inj ht
    subst heq
    have hlt : s.fetched < s.published := by
      rcases Nat.lt_or_eq_of_le hr.fetched with hlt | heq
      · exact hlt
      · exact (hne (by rw [hr.availIdx, heq])).elim
    have hslot : s.fetched % 2 ^ 16 % NUM = s.fetched % NUM := Nat.mod_mod_of_dvd _ (by decide)
    have hfresh : s.fetched ∉ s.completed := by
      intro hmem
      exact Nat.lt_irrefl _ (hr.completedOnly _ hmem)
    refine ⟨⟨h.driver.pool, h.driver.lock, h.driver.held, h.driver.ready, h.driver.formatted⟩,
      ⟨hr.availIdx, hr.usedIdx, hr.seen, hlt, ?_, ?_, ?_, hr.completedNodup, ?_, hr.cleared, ?_, ?_,
        hr.used, hr.live, hr.inj⟩, h.fault⟩
    · intro n hn
      rcases Nat.lt_succ_iff_lt_or_eq.mp hn with hlt | rfl
      · rcases hr.stage n hlt with hmem | hmem
        · exact Or.inl (List.mem_cons_of_mem _ hmem)
        · exact Or.inr hmem
      · exact Or.inl List.mem_cons_self
    · refine List.nodup_cons.mpr ⟨?_, hr.takenNodup⟩
      intro hmem
      obtain ⟨r, hr', heq⟩ := List.mem_map.mp hmem
      have := (hr.takenOnly r hr').1
      change r.2 = s.fetched at heq
      omega
    · intro r hr'
      rcases List.mem_cons.mp hr' with rfl | hr'
      · exact ⟨Nat.lt_succ_self _, hfresh⟩
      · exact ⟨Nat.lt_succ_of_lt (hr.takenOnly r hr').1, (hr.takenOnly r hr').2⟩
    · intro n hn
      exact Nat.lt_succ_of_lt (hr.completedOnly n hn)
    · intro n hn hn'
      exact hr.avail n (Nat.le_of_succ_le hn) hn'
    · intro r hr'
      rcases List.mem_cons.mp hr' with rfl | hr'
      · change Head s s.fetched (s.availRing (s.fetched % 2 ^ 16 % NUM))
        rw [hslot]
        exact hr.avail s.fetched (Nat.le_refl _) hlt
      · exact hr.taken r hr'

/-- The device completes a request that it works on. -/
theorem complete_inv [Fintype P] (h : Inv s) {r : Nat × Nat} (hmem : r ∈ s.taken) :
    Inv (s.complete r) := by
  have hd := h.driver
  have hr := h.requests
  obtain ⟨hlt, hnew⟩ := hr.takenOnly r hmem
  obtain ⟨p, b, idx, hlive, hserial, hhead⟩ := hr.taken r hmem
  have haddr : State.lastAddr s.desc NUM r.1 = .status r.1 := by
    rw [← hhead]
    exact (hd.ready p b idx (Pos.ready_of_live hlive)).linked.lastAddr
  have hstatus : (s.complete r).infoStatus = Function.update s.infoStatus r.1 0 := by
    unfold State.complete
    rw [haddr]
  have hslot : s.usedIdx % NUM = s.completed.length % NUM := by
    rw [hr.usedIdx]
    exact Nat.mod_mod_of_dvd _ (by decide)
  have hother {r' : Nat × Nat} (hmem' : r' ∈ s.taken.erase r) : r' ∈ s.taken ∧ r'.2 ≠ r.2 := by
    have hin : r' ∈ s.taken := List.mem_of_mem_erase hmem'
    refine ⟨hin, ?_⟩
    intro heq
    have hsame := List.inj_on_of_nodup_map hr.takenNodup hin hmem heq
    rw [hsame] at hmem'
    exact hr.takenNodup.of_map.not_mem_erase hmem'
  refine ⟨⟨hd.pool, hd.lock, hd.held, hd.ready, hd.formatted⟩,
    ⟨hr.availIdx, ?_, hr.seen, hr.fetched, ?_, ?_, ?_, ?_, ?_, ?_, hr.avail, ?_, ?_, hr.live,
      hr.inj⟩,
    h.fault⟩
  · change (s.usedIdx + 1) % 2 ^ 16 = (s.completed ++ [r.2]).length % 2 ^ 16
    rw [hr.usedIdx, Nat.mod_add_mod, List.length_append]
    rfl
  · intro n hn
    rcases hr.stage n hn with hin | hin
    · obtain ⟨r', hr', rfl⟩ := List.mem_map.mp hin
      by_cases heq : r' = r
      · rw [heq]
        exact Or.inr (List.mem_append_right _ List.mem_cons_self)
      · exact Or.inl (List.mem_map_of_mem ((List.mem_erase_of_ne heq).mpr hr'))
    · exact Or.inr (List.mem_append_left _ hin)
  · exact hr.takenNodup.sublist (List.erase_sublist.map Prod.snd)
  · intro r' hr'
    obtain ⟨hin, hne⟩ := hother hr'
    refine ⟨(hr.takenOnly r' hin).1, ?_⟩
    intro hdone
    rcases List.mem_append.mp hdone with hdone | hdone
    · exact (hr.takenOnly r' hin).2 hdone
    · exact hne (List.mem_singleton.mp hdone)
  · change (s.completed ++ [r.2]).Nodup
    rw [List.nodup_append]
    refine ⟨hr.completedNodup, List.nodup_singleton _, ?_⟩
    intro n hn m hm heq
    rw [heq, List.mem_singleton.mp hm] at hn
    exact hnew hn
  · intro n hn
    rcases List.mem_append.mp hn with hn | hn
    · exact hr.completedOnly n hn
    · rw [List.mem_singleton.mp hn]
      exact hlt
  · exact hr.cleared.trans (List.prefix_append _ _)
  · intro r' hr'
    exact hr.taken r' (hother hr').1
  · intro m hm hseen
    change m < (s.completed ++ [r.2]).length at hm
    change s.cleared.length ≤ m at hseen
    rw [List.length_append, List.length_singleton] at hm
    rw [hstatus]
    change Head s (s.completed ++ [r.2])[m]
        (Function.update s.usedRing (s.usedIdx % NUM) r.1 (m % NUM)) ∧
      Function.update s.infoStatus r.1 0
        (Function.update s.usedRing (s.usedIdx % NUM) r.1 (m % NUM)) = 0
    rcases Nat.lt_succ_iff_lt_or_eq.mp hm with hlt' | rfl
    · have hroom := hr.used_le hd
      have hne : m % NUM ≠ s.usedIdx % NUM := by
        rw [hslot]
        unfold NUM
        omega
      obtain ⟨hk, hzero⟩ := hr.used m hlt' hseen
      rw [Function.update_of_ne hne, List.getElem_append_left hlt']
      refine ⟨hk, ?_⟩
      rw [Function.update_apply]
      split
      · rfl
      · exact hzero
    · rw [hslot, Function.update_self, Function.update_self, List.getElem_concat_length rfl]
      exact ⟨⟨p, b, idx, hlive, hserial, hhead⟩, rfl⟩

/-- The entry of the used ring that the interrupt handler looks at: it belongs to a request in
flight that the device has completed. -/
theorem Inv.entry [Fintype P] (h : Inv s) (hne : s.seen ≠ s.usedIdx) :
    ∃ hlt : s.cleared.length < s.completed.length, ∃ p b idx, (s.pos p).live = some (b, idx) ∧
      s.serial b = s.completed[s.cleared.length] ∧ s.usedRing (s.seen % NUM) = idx.i₀ ∧
      s.infoStatus idx.i₀ = 0 ∧ s.infoBuf idx.i₀ = some b := by
  have hd := h.driver
  have hr := h.requests
  have hlt : s.cleared.length < s.completed.length := by
    rcases Nat.lt_or_eq_of_le hr.cleared.length_le with hlt | heq
    · exact hlt
    · exact (hne (by rw [hr.seen, hr.usedIdx, heq])).elim
  have hslot : s.seen % NUM = s.cleared.length % NUM := by
    rw [hr.seen]
    exact Nat.mod_mod_of_dvd _ (by decide)
  obtain ⟨⟨p, b, idx, hlive, hserial, hhead⟩, hzero⟩ := hr.used _ hlt (Nat.le_refl _)
  rw [← hhead] at hzero
  refine ⟨hlt, p, b, idx, hlive, hserial, ?_, hzero,
    (hd.ready p b idx (Pos.ready_of_live hlive)).buf⟩
  rw [hslot, hhead]

/-- A round of the interrupt handler. -/
theorem intr_inv [Fintype P] [DecidableEq B] (h : Inv s) (hlock : s.lock = .intr) : Inv s.intr := by
  have hd := h.driver
  have hr := h.requests
  have hunlocked (p : P) : ¬ (s.pos p).locked = true := by
    rw [hd.lock p, hlock]
    exact fun hh ↦ nomatch hh
  unfold State.intr
  split
  · refine ⟨⟨hd.pool, ?_, hd.held, hd.ready, hd.formatted⟩, ?_, h.fault⟩
    · intro p
      exact iff_of_false (hunlocked p) (fun hh ↦ nomatch hh)
    · exact hr.frame ⟨rfl, rfl, rfl, rfl, rfl, rfl, rfl, rfl, rfl⟩ (fun _ ↦ rfl)
        (fun _ _ _ _ ↦ ⟨rfl, rfl, rfl⟩) (fun _ _ _ ↦ rfl)
  · next hne =>
    obtain ⟨hlt, p, b, idx, hlive, hserial, hid, hstatus, hbuf⟩ := h.entry hne
    dsimp only
    rw [hid, if_neg (not_not.mpr hstatus), hbuf]
    have hprefix : s.cleared ++ [s.serial b] <+: s.completed := by
      rw [hserial]
      obtain ⟨rest, hrest⟩ := hr.cleared
      have hrest' : rest = s.completed[s.cleared.length] :: rest.tail := by
        cases rest with
        | nil =>
          rw [← hrest, List.append_nil] at hlt
          exact (Nat.lt_irrefl _ hlt).elim
        | cons n rest =>
          simp only [← hrest, List.getElem_append_right (Nat.le_refl _), Nat.sub_self,
            List.getElem_cons_zero, List.tail_cons]
      refine ⟨rest.tail, ?_⟩
      rw [List.append_assoc, List.singleton_append, ← hrest', hrest]
    refine ⟨⟨hd.pool, hd.lock, hd.held, hd.ready, ?_⟩, ?_, h.fault⟩
    · intro q b' idx' hf
      change s.pos q = .formatted b' idx' at hf
      exact (hunlocked q (by rw [hf]; rfl)).elim
    · refine ⟨hr.availIdx, hr.usedIdx, ?_, hr.fetched, hr.stage, hr.takenNodup, hr.takenOnly,
        hr.completedNodup, hr.completedOnly, hprefix, hr.avail, hr.taken, ?_, ?_, hr.inj⟩
      · change (s.seen + 1) % 2 ^ 16 = (s.cleared ++ [s.serial b]).length % 2 ^ 16
        rw [hr.seen, Nat.mod_add_mod, List.length_append]
        rfl
      · intro m hm hseen
        change (s.cleared ++ [s.serial b]).length ≤ m at hseen
        rw [List.length_append] at hseen
        exact hr.used m hm (by omega)
      · intro q b' idx' hlive'
        refine ⟨(hr.live q b' idx' hlive').1, ?_⟩
        change Function.update s.disk b false b' = true ↔ s.serial b' ∉ s.cleared ++ [s.serial b]
        by_cases hb : b' = b
        · rw [hb, Function.update_self]
          refine iff_of_false (fun hh ↦ nomatch hh) ?_
          exact not_not.mpr (List.mem_append_right _ List.mem_cons_self)
        · have hother : s.serial b' ≠ s.serial b := by
            intro heq
            exact hb (hr.inj q p b' b idx' idx hlive' hlive heq)
          rw [Function.update_of_ne hb, (hr.live q b' idx' hlive').2, List.mem_append,
            List.mem_singleton]
          simp only [hother, or_false]

/-! ### Runs -/

theorem boot_inv : Inv (State.boot : State P B) := by
  refine ⟨⟨⟨?_, ?_, ?_, ?_, ?_⟩, ?_, ?_, ?_, ?_⟩, ?_, rfl⟩
  · exact fun _ _ hi ↦ nomatch hi
  · exact fun _ _ hi ↦ nomatch hi
  · exact fun _ ↦ List.nodup_nil
  · exact fun _ _ _ hi ↦ nomatch hi
  · exact fun _ _ hused ↦ nomatch hused
  · exact fun _ ↦ ⟨(fun hh ↦ nomatch hh), (fun hh ↦ nomatch hh)⟩
  · exact fun _ _ hb ↦ nomatch hb
  · exact fun _ _ _ hready ↦ nomatch hready
  · exact fun _ _ _ hf ↦ nomatch hf
  · refine ⟨rfl, rfl, rfl, Nat.le_refl _, ?_, List.nodup_nil, ?_, List.nodup_nil, ?_,
      List.prefix_rfl, ?_, ?_, ?_, ?_, ?_⟩
    · exact fun _ hn ↦ absurd hn (Nat.not_lt_zero _)
    · exact fun _ hr ↦ nomatch hr
    · exact fun _ hn ↦ nomatch hn
    · exact fun _ _ hn ↦ absurd hn (Nat.not_lt_zero _)
    · exact fun _ hr ↦ nomatch hr
    · exact fun _ hm ↦ absurd hm (Nat.not_lt_zero _)
    · exact fun _ _ _ hlive ↦ nomatch hlive
    · exact fun _ _ _ _ _ _ hlive ↦ nomatch hlive

/-- What holds in every state. A request is in flight from its publication until its descriptors are
free. `cleared` has the number of the request each time `b->disk` is set to 0, `completed` the
numbers of the requests that the device completed. -/
structure Sound [Fintype P] (s : State P B) : Prop where
  noFault : s.fault = none
  chain : s.lock = .free → ∀ p b idx, (s.pos p).live = some (b, idx) →
    Linked s.desc idx ∧ idx.list.Nodup ∧ ∀ i ∈ idx.list, i < NUM ∧ s.free i = false
  disjoint : s.lock = .free → ∀ p q b b' idx idx', p ≠ q → (s.pos p).live = some (b, idx) →
    (s.pos q).live = some (b', idx') → ∀ i ∈ idx.list, i ∉ idx'.list
  count : s.lock = .free → ((Finset.range NUM).filter fun i ↦ s.free i = true).card +
    3 * (Finset.univ.filter fun p ↦ (s.pos p).live.isSome = true).card = NUM
  handler : s.seen ≠ s.usedIdx → s.infoStatus (s.usedRing (s.seen % NUM)) = 0 ∧
    ∃ b, s.infoBuf (s.usedRing (s.seen % NUM)) = some b
  once : s.cleared.Nodup
  after : ∀ n ∈ s.cleared, n ∈ s.completed
  answered : ∀ n < s.published, n ∈ s.cleared ∨
    ∃ p b idx, (s.pos p).live = some (b, idx) ∧ s.serial b = n ∧ s.disk b = true

/-- When nobody holds the lock, whoever has descriptors is in flight. -/
theorem Driver.chain_length (h : Driver s) (hlock : s.lock = .free) (p : P) :
    (s.pos p).chain.length = 3 * if (s.pos p).live.isSome = true then 1 else 0 := by
  have hunlocked : (s.pos p).locked ≠ true := by
    intro hl
    rw [h.lock p, hlock] at hl
    cases hl
  cases hp : s.pos p with
  | chosen | formatted => rw [hp] at hunlocked; exact (hunlocked rfl).elim
  | _ => rfl

theorem Inv.sound [Fintype P] (h : Inv s) : Sound s := by
  have hd := h.driver
  have hr := h.requests
  refine ⟨h.fault, ?_, ?_, ?_, ?_, hr.completedNodup.sublist hr.cleared.sublist,
    fun n hn ↦ hr.cleared.subset hn, ?_⟩
  · intro _ p b idx hlive
    have hready := Pos.ready_of_live hlive
    refine ⟨(hd.ready p b idx hready).linked, ?_, hd.chain_used hready⟩
    rw [← Pos.chain_of_ready hready]
    exact hd.pool.nodup p
  · intro _ p q b b' idx idx' hne hp hq i hi hi'
    rw [← Pos.chain_of_ready (Pos.ready_of_live hp)] at hi
    rw [← Pos.chain_of_ready (Pos.ready_of_live hq)] at hi'
    exact hne (hd.pool.disjoint p q i hi hi')
  · intro hlock
    have hsum : ∑ p, (s.pos p).chain.length =
        3 * (Finset.univ.filter fun p ↦ (s.pos p).live.isSome = true).card := by
      rw [Finset.card_filter, Finset.mul_sum]
      exact Finset.sum_congr rfl (fun p _ ↦ hd.chain_length hlock p)
    rw [← hsum]
    exact hd.pool.card
  · intro hne
    obtain ⟨-, p, b, idx, -, -, hid, hstatus, hbuf⟩ := h.entry hne
    rw [hid]
    exact ⟨hstatus, b, hbuf⟩
  · intro n hn
    by_cases hclear : n ∈ s.cleared
    · exact Or.inl hclear
    · obtain ⟨k, p, b, idx, hlive, rfl, -⟩ := hr.pending hn hclear
      exact Or.inr ⟨p, b, idx, hlive, rfl, (hr.live p b idx hlive).2.mpr hclear⟩

/-- The sleep locks of the buffers change for processes that are elsewhere. -/
theorem Inv.held (h : Inv s) {held : B → Option P}
    (hheld : ∀ p b, (s.pos p).buf = some b → held b = some p) : Inv { s with held := held } := by
  have hd := h.driver
  refine ⟨⟨hd.pool, hd.lock, hheld, hd.ready, hd.formatted⟩, ?_, h.fault⟩
  exact h.requests.frame ⟨rfl, rfl, rfl, rfl, rfl, rfl, rfl, rfl, rfl⟩ (fun _ ↦ rfl)
    (fun _ _ _ _ ↦ ⟨rfl, rfl, rfl⟩) (fun _ _ _ ↦ rfl)

section
variable [DecidableEq P] [DecidableEq B] [Fintype P]

theorem cont_inv (h : Inv s) (blockno : B → Nat) {p : P} (ht : s.cont blockno p = some t) :
    Inv t := by
  have hd := h.driver
  unfold State.cont at ht
  split at ht
  · cases ht
  · next b write hp =>
    have heq := Option.some.inj ht
    subst heq
    exact alloc_inv h hp
  · next b write hp =>
    split at ht
    · next hok =>
      have heq := Option.some.inj ht
      subst heq
      refine h.move hp rfl rfl rfl ?_ (fun _ _ hh ↦ nomatch hh) (Or.inl hok.2) (Or.inr rfl)
        ⟨fun _ ↦ rfl, fun _ ↦ rfl⟩
      intro b' hb'
      cases hb'
      exact hd.held p b (by rw [hp]; rfl)
    · cases ht
  · next b write idx hp =>
    have heq := Option.some.inj ht
    subst heq
    exact format_inv h blockno hp
  · next b idx hp =>
    have heq := Option.some.inj ht
    subst heq
    exact publish_inv h hp
  · next b idx hp =>
    have heq := Option.some.inj ht
    subst heq
    exact test_inv h hp
  · next b idx hp =>
    split at ht
    · next hok =>
      have heq := Option.some.inj ht
      subst heq
      refine h.move hp rfl rfl rfl ?_ (fun _ _ hh ↦ nomatch hh) (Or.inl hok.2) (Or.inr rfl)
        ⟨fun _ ↦ rfl, fun _ ↦ rfl⟩
      intro b' hb'
      cases hb'
      exact hd.held p b (by rw [hp]; rfl)
    · cases ht

/-- Each step keeps the invariant. -/
theorem step_inv (h : Inv s) (blockno : B → Nat) {a : Act P B} (ht : s.step blockno a = some t) :
    Inv t := by
  have hd := h.driver
  unfold State.step at ht
  rw [if_neg (not_not.mpr h.fault)] at ht
  cases a with
  | lockBuf p b =>
    dsimp only at ht
    split at ht
    · next hfree =>
      have heq := Option.some.inj ht
      subst heq
      apply h.held
      intro q b' hb'
      have hq := hd.held q b' hb'
      rw [Function.update_of_ne]
      · exact hq
      · rintro rfl
        rw [hfree] at hq
        cases hq
    · cases ht
  | unlockBuf p b =>
    dsimp only at ht
    split at ht
    · next hp =>
      split at ht
      · next hown =>
        have heq := Option.some.inj ht
        subst heq
        apply h.held
        intro q b' hb'
        have hq := hd.held q b' hb'
        rw [Function.update_of_ne]
        · exact hq
        · rintro rfl
          rw [hown] at hq
          cases hq
          rw [hp] at hb'
          cases hb'
      · cases ht
    · cases ht
  | rw p b write =>
    dsimp only at ht
    split at ht
    · next hp =>
      split at ht
      · next hok =>
        have heq := Option.some.inj ht
        subst heq
        refine h.move hp rfl rfl rfl ?_ (fun _ _ hh ↦ nomatch hh) (Or.inl hok.2) (Or.inr rfl)
          ⟨fun _ ↦ rfl, fun _ ↦ rfl⟩
        intro b' hb'
        cases hb'
        exact hok.1
      · cases ht
    · cases ht
  | cont p => exact cont_inv h blockno ht
  | wake p =>
    have heq := Option.some.inj ht
    subst heq
    exact h.clear_free (fun _ _ ↦ rfl)
  | fetch => exact fetch_inv h ht
  | complete r =>
    dsimp only at ht
    split at ht
    · next hmem =>
      have heq := Option.some.inj ht
      subst heq
      exact complete_inv h hmem
    · cases ht
  | intrEnter =>
    dsimp only at ht
    split at ht
    · next hfree =>
      have heq := Option.some.inj ht
      subst heq
      refine ⟨⟨hd.pool, ?_, hd.held, hd.ready, hd.formatted⟩, ?_, h.fault⟩
      · intro p
        rw [hd.lock p, hfree]
        exact iff_of_false (fun hh ↦ nomatch hh) (fun hh ↦ nomatch hh)
      · exact h.requests.frame ⟨rfl, rfl, rfl, rfl, rfl, rfl, rfl, rfl, rfl⟩ (fun _ ↦ rfl)
          (fun _ _ _ _ ↦ ⟨rfl, rfl, rfl⟩) (fun _ _ _ ↦ rfl)
    · cases ht
  | intrRound =>
    dsimp only at ht
    split at ht
    · next hlock =>
      have heq := Option.some.inj ht
      subst heq
      exact intr_inv h hlock
    · cases ht

/-! ### What is cleared -/

/-- No `b->disk` is set to 0, and none is recorded. -/
structure KeepsBusy (s t : State P B) : Prop where
  busy : ∀ b, s.disk b = true → t.disk b = true
  cleared : t.cleared = s.cleared

omit [DecidableEq P] [DecidableEq B] [Fintype P] in
theorem KeepsBusy.of_eq (hdisk : t.disk = s.disk) (hcleared : t.cleared = s.cleared) :
    KeepsBusy s t := by
  refine ⟨?_, hcleared⟩
  intro b hb
  rw [hdisk]
  exact hb

omit [DecidableEq B] [Fintype P] in
theorem alloc_keepsBusy (p : P) (b : B) (write : Bool) : KeepsBusy s (s.alloc p b write) := by
  unfold State.alloc
  rcases alloc3Desc_spec s with ⟨idx, free, heq, -⟩ | ⟨desc, asleep, heq, -⟩
  · rw [heq]
    exact KeepsBusy.of_eq rfl rfl
  · rw [heq]
    exact KeepsBusy.of_eq rfl rfl

omit [Fintype P] in
theorem format_keepsBusy (blockno : B → Nat) (p : P) (b : B) (write : Bool) (idx : Idx) :
    KeepsBusy s (s.format blockno p b write idx) := by
  refine ⟨?_, rfl⟩
  intro b' hb'
  change Function.update s.disk b true b' = true
  by_cases hb : b' = b
  · rw [hb, Function.update_self]
  · rw [Function.update_of_ne hb]
    exact hb'

omit [DecidableEq B] [Fintype P] in
theorem test_keepsBusy (h : Inv s) {p : P} {b : B} {idx : Idx} (hp : s.pos p = .published b idx) :
    KeepsBusy s (s.test p b idx) := by
  have hd := h.driver
  have hready : (s.pos p).ready = some (b, idx) := by
    rw [hp]
    rfl
  unfold State.test
  split
  · exact KeepsBusy.of_eq rfl rfl
  · have hnodup : idx.list.Nodup := by
      rw [← Pos.chain_of_ready hready]
      exact hd.pool.nodup p
    obtain ⟨desc, free, asleep, heq, -⟩ := freeChain_spec
      (s := { s with infoBuf := Function.update s.infoBuf idx.i₀ none })
      (hd.ready p b idx hready).linked hnodup (hd.chain_used hready)
    rw [heq]
    exact KeepsBusy.of_eq rfl rfl

omit [Fintype P] in
theorem cont_keepsBusy (h : Inv s) (blockno : B → Nat) {p : P} (ht : s.cont blockno p = some t) :
    KeepsBusy s t := by
  unfold State.cont at ht
  split at ht
  · cases ht
  · cases Option.some.inj ht
    exact alloc_keepsBusy p _ _
  · split at ht
    · cases Option.some.inj ht
      exact KeepsBusy.of_eq rfl rfl
    · cases ht
  · cases Option.some.inj ht
    exact format_keepsBusy blockno p _ _ _
  · cases Option.some.inj ht
    exact KeepsBusy.of_eq rfl rfl
  · next b idx hp =>
    cases Option.some.inj ht
    exact test_keepsBusy h hp
  · split at ht
    · cases Option.some.inj ht
      exact KeepsBusy.of_eq rfl rfl
    · cases ht

omit [Fintype P] in
/-- Only the interrupt handler clears `b->disk`. -/
theorem step_keepsBusy (h : Inv s) (blockno : B → Nat) {a : Act P B} (ha : a ≠ .intrRound)
    (ht : s.step blockno a = some t) : KeepsBusy s t := by
  unfold State.step at ht
  rw [if_neg (not_not.mpr h.fault)] at ht
  cases a with
  | cont p => exact cont_keepsBusy h blockno ht
  | intrRound => exact (ha rfl).elim
  | wake p =>
    cases Option.some.inj ht
    exact KeepsBusy.of_eq rfl rfl
  | fetch =>
    simp only [State.fetch] at ht
    split at ht
    · cases ht
    · cases Option.some.inj ht
      exact KeepsBusy.of_eq rfl rfl
  | lockBuf p b | complete r | intrEnter =>
    dsimp only at ht
    split at ht
    · cases Option.some.inj ht
      exact KeepsBusy.of_eq rfl rfl
    · cases ht
  | unlockBuf p b | rw p b write =>
    dsimp only at ht
    split at ht
    · split at ht
      · cases Option.some.inj ht
        exact KeepsBusy.of_eq rfl rfl
      · cases ht
    · cases ht

/-- What a step does to the requests that the device has completed. `cleared` records the request of
each `b->disk` that the step sets to 0 and no other, and when the interrupt handler gives up the
lock it has cleared every request completed so far. -/
structure Clears (s : State P B) (a : Act P B) (t : State P B) : Prop where
  recorded : ∀ b, s.disk b = true → t.disk b = false → t.cleared = s.cleared ++ [s.serial b]
  actual : t.cleared ≠ s.cleared → ∃ b, s.disk b = true ∧ t.disk b = false
  handled : a = .intrRound → t.lock = .free → ∀ n ∈ s.completed, n ∈ t.cleared

omit [DecidableEq P] [DecidableEq B] [Fintype P] in
theorem KeepsBusy.clears (h : KeepsBusy s t) {a : Act P B} (ha : a ≠ .intrRound) :
    Clears s a t := by
  refine ⟨?_, fun hne ↦ (hne h.cleared).elim, fun heq ↦ (ha heq).elim⟩
  intro b hb hb'
  rw [h.busy b hb] at hb'
  cases hb'

omit [DecidableEq P] [DecidableEq B] in
/-- When the handler has seen the whole used ring, every completed request is cleared: the counters
agree modulo 2 ^ 16, and at most two requests are completed and not cleared. -/
theorem Inv.all_cleared (h : Inv s) (hseen : s.seen = s.usedIdx) : s.cleared = s.completed := by
  have hr := h.requests
  have hroom := hr.used_le h.driver
  have hle := hr.cleared.length_le
  rw [hr.seen, hr.usedIdx] at hseen
  exact hr.cleared.eq_of_length (by omega)

omit [DecidableEq P] in
/-- A round of the handler clears one request, or finds that all are cleared and gives up the
lock. -/
theorem intr_clears (h : Inv s) (hlock : s.lock = .intr) : Clears s .intrRound s.intr := by
  have hr := h.requests
  unfold State.intr
  split
  · next hseen =>
    refine ⟨?_, fun hne ↦ (hne rfl).elim, ?_⟩
    · intro b hb hb'
      rw [hb] at hb'
      cases hb'
    · intro _ _ n hn
      rw [h.all_cleared hseen]
      exact hn
  · next hne =>
    obtain ⟨hlt, p, b, idx, hlive, hserial, hid, hstatus, hbuf⟩ := h.entry hne
    dsimp only
    rw [hid, if_neg (not_not.mpr hstatus), hbuf]
    have hbusy : s.disk b = true := by
      rw [(hr.live p b idx hlive).2, hserial]
      exact hr.unseen_not_cleared hlt (Nat.le_refl _)
    refine ⟨?_, fun _ ↦ ⟨b, hbusy, Function.update_self b _ _⟩, ?_⟩
    · intro b' hb' hclear
      change Function.update s.disk b false b' = false at hclear
      by_cases hb : b' = b
      · rw [hb]
      · rw [Function.update_of_ne hb, hb'] at hclear
        cases hclear
    · intro _ hfree
      change s.lock = .free at hfree
      rw [hlock] at hfree
      cases hfree

theorem step_clears (h : Inv s) (blockno : B → Nat) {a : Act P B}
    (ht : s.step blockno a = some t) : Clears s a t := by
  by_cases ha : a = .intrRound
  · subst ha
    unfold State.step at ht
    rw [if_neg (not_not.mpr h.fault)] at ht
    dsimp only at ht
    split at ht
    · next hlock =>
      cases Option.some.inj ht
      exact intr_clears h hlock
    · cases ht
  · exact (step_keepsBusy h blockno ha ht).clears ha

/-- The bookkeeping of the disk driver is sound in every state of every run, and each step clears
the requests that it records: none twice, and all that are completed before the interrupt handler
gives up the lock. -/
theorem bookkeeping_always (blockno : B → Nat) (as : List (Act P B)) :
    Always (State.step blockno)
      (fun s ↦ Sound s ∧ ∀ a t, s.step blockno a = some t → Clears s a t) State.boot as :=
  always_of_invariant (fun _ hs ↦ ⟨hs.sound, fun _ _ ht ↦ step_clears hs blockno ht⟩)
    (fun _ _ _ hs ht ↦ step_inv hs blockno ht) boot_inv as

end

/-- A process reads a block: it publishes the request and sleeps, the device completes it, the
interrupt handler clears it in its first round and gives up the lock in its second, and the process
returns. -/
def oneRead : List (Act Unit Unit) :=
  [.lockBuf () (), .rw () () false, .cont (), .cont (), .cont (), .cont (), .fetch,
    .complete (0, 0), .intrEnter, .intrRound, .intrRound, .cont (), .cont (), .unlockBuf () ()]

theorem bookkeeping_always_oneRead :
    ∃ s, run (State.step fun _ ↦ 7) State.boot oneRead = some s ∧ s.published = 1 ∧
      s.completed = [0] ∧ s.cleared = [0] ∧ s.disk () = false ∧ s.lock = .free ∧ Sound s := by
  have hcheck : (run (State.step fun _ ↦ 7) State.boot oneRead).map
      (fun s ↦ (s.published, s.completed, s.cleared, s.disk (), s.lock)) =
        some (1, [0], [0], false, .free) := by
    decide +kernel
  obtain ⟨s, hrun, heq⟩ := Option.map_eq_some_iff.mp hcheck
  simp only [Prod.mk.injEq] at heq
  obtain ⟨hpub, hdone, hclear, hdisk, hlock⟩ := heq
  have hsound := Always.last (bookkeeping_always (fun _ ↦ 7) oneRead) hrun
  exact ⟨s, hrun, hpub, hdone, hclear, hdisk, hlock, hsound.1⟩

end Xv6.Disk
