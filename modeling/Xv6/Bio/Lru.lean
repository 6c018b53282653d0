import Mathlib.Data.Fintype.Card
import Xv6.Bio.Model
import Xv6.Lib.Sum
import Xv6.Lib.Tally

/-!
# The list of buffers

The pointers always form one ring through all buffers, and only a `brelse` that takes a count to
zero changes it: the buffer becomes the first one. The search of `bget` from the front sees all
buffers, which keeps a block from being cached twice.
-/

namespace Xv6.Bio

open Xv6.Lib

variable {R P : Type}

/-- No block of a device but 0 has two buffers. -/
def OneBuffer (c : Cache R P) : Prop :=
  ∀ b b', (c.buf b).dev ≠ 0 → (c.buf b).dev = (c.buf b').dev →
    (c.buf b).blockno = (c.buf b').blockno → b = b'

/-- The buffer has the same block, and if it was valid it is. -/
def SameBlock (new old : Buf R) : Prop :=
  new.dev = old.dev ∧ new.blockno = old.blockno ∧ (old.valid = true → new.valid = true)

/-- A buffer in use stays the buffer of its block, and what was read into it stays valid. -/
def KeepsUsed [OfNat R 0] (c t : Cache R P) : Prop :=
  ∀ b, (c.buf b).refcnt ≠ 0 → SameBlock (t.buf b) (c.buf b)

/-- A `brelse` takes the reference count of the buffer to zero. -/
def Zeroed [OfNat R 0] (c t : Cache R P) : Act P → Bufno → Prop
  | .brelse _, b => (c.buf b).refcnt ≠ 0 ∧ (t.buf b).refcnt = 0
  | _, _ => False

instance Zeroed.decidable [OfNat R 0] [DecidableEq R] (c t : Cache R P) (b : Bufno) :
    ∀ a : Act P, Decidable (Zeroed c t a b)
  | .brelse _ => inferInstanceAs (Decidable ((c.buf b).refcnt ≠ 0 ∧ (t.buf b).refcnt = 0))
  | .bget .. | .acquiresleep _ | .fill .. | .releasesleep .. | .bpin _ | .bunpin _ => isFalse id

/-- The buffers in the order of the list. -/
structure Listed (c : Cache R P) (L : List Bufno) : Prop where
  ring : Ring c.next c.prev none (L.map some)
  all : ∀ b, b ∈ L

/-- The list after a step: the buffer whose count became zero is the first. -/
def Moved [OfNat R 0] (c t : Cache R P) (a : Act P) (L L' : List Bufno) : Prop :=
  (L' = L ∧ ∀ b, ¬ Zeroed c t a b) ∨ ∃ b, L' = b :: L.erase b ∧ ∀ b', Zeroed c t a b' ↔ b' = b

section
variable {c t : Cache R P} {L : List Bufno}

theorem Listed.nodup (h : Listed c L) : L.Nodup :=
  List.Nodup.of_map some (List.nodup_cons.mp h.ring.nodup).2

theorem Listed.length (h : Listed c L) : L.length < NBUF + 1 := by
  have := h.nodup.length_le_card
  rw [Fintype.card_fin] at this
  omega

theorem find_map_some (test : Bufno → Bool) (L : List Bufno) :
    ((L.map some).find? (fun n ↦ n.any test)).join = L.find? test := by
  induction L with
  | nil => rfl
  | cons b L ih =>
    rw [List.map_cons, List.find?_cons, List.find?_cons, Option.any_some]
    cases test b with
    | true => rfl
    | false => exact ih

/-- The first loop of `bget` searches the list from the front. -/
theorem find_eq (h : Listed c L) (dev blockno : Nat) :
    c.find dev blockno = L.find? (fun b ↦ (c.buf b).dev = dev ∧ (c.buf b).blockno = blockno) := by
  have hlen : (L.map some).length < NBUF + 1 := by
    rw [List.length_map]
    exact h.length
  rw [Cache.find, follow_eq_find _ h.ring.forward (List.nodup_cons.mp h.ring.nodup).1 hlen,
    find_map_some]

/-- The second one searches it from the back. -/
theorem unused_eq [OfNat R 0] [DecidableEq R] (h : Listed c L) :
    c.unused = L.reverse.find? (fun b ↦ (c.buf b).refcnt = 0) := by
  have hback := h.ring.swap
  rw [← List.map_reverse] at hback
  have hlen : (L.reverse.map some).length < NBUF + 1 := by
    rw [List.length_map, List.length_reverse]
    exact h.length
  rw [Cache.unused, follow_eq_find _ hback.forward (List.nodup_cons.mp hback.nodup).1 hlen,
    find_map_some]

/-- The buffer that is found from the back is not in use, and all others that are not come before
it in the list. -/
theorem unused_last [OfNat R 0] [DecidableEq R] (h : Listed c L) {b : Bufno}
    (hb : c.unused = some b) :
    (c.buf b).refcnt = 0 ∧ ∃ l l', L = l ++ b :: l' ∧ ∀ b' ∈ l', (c.buf b').refcnt ≠ 0 := by
  rw [unused_eq h, List.find?_eq_some_iff_append] at hb
  obtain ⟨hzero, l₁, l₂, hsplit, hbefore⟩ := hb
  have hL : L = l₂.reverse ++ b :: l₁.reverse := by
    rw [← List.reverse_reverse L, hsplit, List.reverse_append, List.reverse_cons, List.append_assoc]
    rfl
  refine ⟨of_decide_eq_true hzero, l₂.reverse, l₁.reverse, hL, ?_⟩
  intro b' hb' hused
  have := hbefore b' (List.mem_reverse.mp hb')
  simp only [hused, decide_true, Bool.not_true, Bool.false_eq_true] at this

theorem Listed.congr (h : Listed c L) (hnext : t.next = c.next) (hprev : t.prev = c.prev) :
    Listed t L := by
  refine ⟨?_, h.all⟩
  rw [hnext, hprev]
  exact h.ring

/-- A buffer is put in front. -/
theorem ring_pushFront (h : Ring c.next c.prev none (L.map some)) {b : Bufno} (hb : b ∉ L) :
    Ring (c.pushFront b).next (c.pushFront b).prev none ((b :: L).map some) := by
  have hnot : some b ∉ none :: L.map some := by
    rw [List.mem_cons, List.mem_map]
    rintro (he | ⟨x, hx, he⟩)
    · cases he
    · cases he
      exact hb hx
  have hpush := h.push hnot
  have hne : (none : Node) ≠ some b := (Option.some_ne_none b).symm
  have hnone : Function.update c.next (some b) (c.next none) none = c.next none :=
    Function.update_of_ne hne _ _
  change Ring (Function.update _ none (some b))
    (Function.update _ (Function.update c.next (some b) (c.next none) none) (some b)) none _
  rw [hnone]
  exact hpush

/-- A buffer is taken out. -/
theorem ring_unlink {l₁ l₂ : List Bufno} {b : Bufno}
    (h : Ring c.next c.prev none ((l₁ ++ b :: l₂).map some)) :
    Ring (c.unlink b).next (c.unlink b).prev none ((l₁ ++ l₂).map some) := by
  rw [List.map_append, List.map_cons] at h
  have hne : some b ≠ c.next (some b) := h.next_ne.symm
  have hprev : Function.update c.prev (c.next (some b)) (c.prev (some b)) (some b) =
      c.prev (some b) := Function.update_of_ne hne _ _
  change Ring (Function.update c.next (Function.update c.prev (c.next (some b)) (c.prev (some b))
    (some b)) _) _ none _
  rw [hprev, List.map_append]
  exact h.unlink

/-- A buffer that is somewhere in the list becomes its first. -/
theorem Listed.touch (h : Listed c L) (b : Bufno) : Listed (c.touch b) (b :: L.erase b) := by
  obtain ⟨l₁, l₂, hL⟩ := List.append_of_mem (h.all b)
  have hnodup := h.nodup
  rw [hL, List.nodup_middle, List.nodup_cons] at hnodup
  have herase : L.erase b = l₁ ++ l₂ := by
    rw [hL, List.erase_append_right _ (fun hb ↦ hnodup.1 (List.mem_append_left _ hb)),
      List.erase_cons_head]
  refine ⟨?_, ?_⟩
  · have hring := h.ring
    rw [hL] at hring
    rw [herase]
    exact ring_pushFront (ring_unlink hring) hnodup.1
  · intro x
    by_cases hx : x = b
    · rw [hx]
      exact List.mem_cons_self
    · exact List.mem_cons_of_mem b ((List.mem_erase_of_ne hx).mpr (h.all x))

/-- `binit` puts one buffer after the other in front. -/
theorem ring_binit (l : List Bufno) (hl : l.Nodup) (c : Cache R P) (L : List Bufno)
    (hc : Ring c.next c.prev none (L.map some)) (hdisj : ∀ b ∈ l, b ∉ L) :
    Ring (l.foldl (fun c b ↦ c.pushFront b) c).next (l.foldl (fun c b ↦ c.pushFront b) c).prev none
      ((l.reverse ++ L).map some) := by
  induction l generalizing c L with
  | nil => exact hc
  | cons b l ih =>
    rw [List.nodup_cons] at hl
    rw [List.reverse_cons, List.append_assoc]
    apply ih hl.2 (c.pushFront b) (b :: L) (ring_pushFront hc (hdisj b List.mem_cons_self))
    intro x hx hm
    rcases List.mem_cons.mp hm with he | hm
    · exact hl.1 (he ▸ hx)
    · exact hdisj x (List.mem_cons_of_mem b hx) hm

theorem listed_binit [OfNat R 0] :
    Listed (Cache.binit : Cache R P) (List.finRange NBUF).reverse := by
  have hblank : Ring (Cache.blank : Cache R P).next (Cache.blank : Cache R P).prev none
      (([] : List Bufno).map some) := ⟨rfl, rfl, List.nodup_singleton _⟩
  have hring := ring_binit (List.finRange NBUF) (List.nodup_finRange _) Cache.blank [] hblank
    (fun _ _ hb ↦ nomatch hb)
  rw [List.append_nil] at hring
  exact ⟨hring, fun b ↦ List.mem_reverse.mpr (List.mem_finRange b)⟩

/-! ### Steps -/

theorem SameBlock.refl (buf : Buf R) : SameBlock buf buf := ⟨rfl, rfl, id⟩

theorem setBuf_sameBlock {b : Bufno} {buf : Buf R} (h : SameBlock buf (c.buf b)) (x : Bufno) :
    SameBlock ((c.setBuf b buf).buf x) (c.buf x) := by
  change SameBlock (Function.update c.buf b buf x) (c.buf x)
  by_cases hx : x = b
  · rw [hx, Function.update_self]
    exact h
  · rw [Function.update_of_ne hx]
    exact SameBlock.refl _

theorem setBuf_refcnt (b : Bufno) (buf : Buf R) (x : Bufno) :
    ((c.setBuf b buf).buf x).refcnt = if x = b then buf.refcnt else (c.buf x).refcnt := by
  change (Function.update c.buf b buf x).refcnt = _
  rw [Function.update_apply]
  split <;> rfl

theorem setLock_held (b : Bufno) (holder : Option P) (x : Bufno) :
    ((c.setLock b holder).lock x).isSome.toNat =
      if x = b then holder.isSome.toNat else (c.lock x).isSome.toNat := by
  change (Function.update c.lock b holder x).isSome.toNat = _
  rw [Function.update_apply]
  split <;> rfl

theorem setPins_pins (b : Bufno) (n : Nat) (x : Bufno) :
    (c.setPins b n).pins x = if x = b then n else c.pins x := Function.update_apply _ _ _ _

variable [Add R] [Sub R] [OfNat R 0] [OfNat R 1]

omit [Sub R] [OfNat R 0] in
theorem ref_sameBlock (b x : Bufno) : SameBlock ((c.ref b).buf x) (c.buf x) := by
  apply setBuf_sameBlock
  exact ⟨rfl, rfl, id⟩

omit [Add R] [OfNat R 0] in
theorem unref_sameBlock (b x : Bufno) : SameBlock ((c.unref b).buf x) (c.buf x) := by
  apply setBuf_sameBlock
  exact ⟨rfl, rfl, id⟩

variable [Fintype P]

/-- The references to a buffer: the processes that wait for its lock or hold it, those that have
yet to give up their reference, and the `bpin`s. -/
def Cache.refs (c : Cache R P) (b : Bufno) : Nat :=
  hits c.pc (.acquiring b) + hits c.pc (.releasing b) + (c.lock b).isSome.toNat + c.pins b

/-- The invariant of the cache. -/
structure Inv (c : Cache R P) : Prop where
  listed : ∃ L, Listed c L
  one : OneBuffer c
  refs : ∀ b, (c.buf b).refcnt = tally R (c.refs b)

omit [Sub R] in
/-- A step that leaves the list and the blocks of the buffers alone. -/
theorem Inv.congr (h : Inv c) (hnext : t.next = c.next) (hprev : t.prev = c.prev)
    (hbuf : ∀ b, SameBlock (t.buf b) (c.buf b))
    (hrefs : ∀ b, (t.buf b).refcnt = tally R (t.refs b)) :
    Inv t := by
  obtain ⟨L, hL⟩ := h.listed
  refine ⟨⟨L, hL.congr hnext hprev⟩, ?_, hrefs⟩
  intro b b' hdev hsame hblock
  rw [(hbuf b).1] at hdev hsame
  rw [(hbuf b').1] at hsame
  rw [(hbuf b).2.1, (hbuf b').2.1] at hblock
  exact h.one b b' hdev hsame hblock

omit [Sub R] in
/-- A buffer gets a reference. -/
theorem Inv.ref_refcnt (h : Inv c) (b x : Bufno) :
    ((c.ref b).buf x).refcnt = tally R (c.refs x + if x = b then 1 else 0) := by
  rw [Cache.ref, setBuf_refcnt]
  by_cases hx : x = b
  · rw [if_pos hx, if_pos hx, hx]
    exact congrArg (· + 1) (h.refs b)
  · rw [if_neg hx, if_neg hx]
    exact h.refs x

/-- A buffer loses one. -/
theorem Inv.unref_refcnt [Counter R] (h : Inv c) {b x : Bufno} {n : Nat}
    (hn : n + (if x = b then 1 else 0) = c.refs x) :
    ((c.unref b).buf x).refcnt = tally R n := by
  rw [Cache.unref, setBuf_refcnt]
  by_cases hx : x = b
  · rw [if_pos hx] at hn ⊢
    dsimp only
    rw [h.refs, ← hx, ← hn]
    exact tally_succ_sub R n
  · rw [if_neg hx] at hn ⊢
    rw [h.refs, ← hn]
    rfl

omit [Add R] [Sub R] [OfNat R 0] [OfNat R 1] in
/-- A `bpin` or its end. -/
theorem refs_setPins (hpc : t.pc = c.pc) (hlock : t.lock = c.lock) (x : Bufno) :
    t.refs x + c.pins x = c.refs x + t.pins x := by
  rw [Cache.refs, Cache.refs, hpc, hlock]
  omega

omit [Sub R] in
theorem inv_bpin (h : Inv c) (b : Bufno) : Inv ((c.ref b).setPins b (c.pins b + 1)) := by
  refine h.congr rfl rfl (ref_sameBlock b) ?_
  intro x
  have hcnt : (((c.ref b).setPins b (c.pins b + 1)).buf x).refcnt = _ := h.ref_refcnt b x
  have hrefs := refs_setPins (t := (c.ref b).setPins b (c.pins b + 1)) (c := c) rfl rfl x
  rw [setPins_pins] at hrefs
  rw [hcnt]
  congr 1
  by_cases hx : x = b
  · rw [if_pos hx, hx] at hrefs ⊢
    omega
  · rw [if_neg hx] at hrefs ⊢
    change _ = _ + c.pins x at hrefs
    omega

theorem inv_bunpin [Counter R] (h : Inv c) {b : Bufno} (hb : 0 < c.pins b) :
    Inv ((c.unref b).setPins b (c.pins b - 1)) := by
  refine h.congr rfl rfl (unref_sameBlock b) ?_
  intro x
  have hrefs := refs_setPins (t := (c.unref b).setPins b (c.pins b - 1)) (c := c) rfl rfl x
  rw [setPins_pins] at hrefs
  apply h.unref_refcnt
  by_cases hx : x = b
  · rw [if_pos hx, hx] at hrefs ⊢
    omega
  · rw [if_neg hx] at hrefs ⊢
    change _ = _ + c.pins x at hrefs
    omega

variable [DecidableEq P]

omit [Add R] [Sub R] [OfNat R 0] [OfNat R 1] in
/-- One process moves. -/
theorem hits_goto (c : Cache R P) (p : P) (pc pc' : Pc) :
    hits (c.goto p pc).pc pc' + (if c.pc p = pc' then 1 else 0) =
      hits c.pc pc' + if pc = pc' then 1 else 0 := by
  have h := hits_of_eq_off (f := (c.goto p pc).pc) (g := c.pc) p
    (fun q hq ↦ Function.update_of_ne hq _ _) pc'
  have hself : (c.goto p pc).pc p = pc := Function.update_self _ _ _
  rw [hself] at h
  exact h

omit [Add R] [Sub R] [OfNat R 0] [OfNat R 1] in
/-- How the references change when one process moves: it no longer is where it was, and the lock
and the pins change as given. -/
theorem refs_goto {p : P} {pc : Pc} (hpc : t.pc = (c.goto p pc).pc) (x : Bufno) :
    t.refs x + ((if c.pc p = .acquiring x then 1 else 0) +
      (if c.pc p = .releasing x then 1 else 0) +
        (c.lock x).isSome.toNat + c.pins x) =
      c.refs x + ((if pc = .acquiring x then 1 else 0) + (if pc = .releasing x then 1 else 0) +
        (t.lock x).isSome.toNat + t.pins x) := by
  have hacq := hits_goto c p pc (.acquiring x)
  have hrel := hits_goto c p pc (.releasing x)
  rw [← hpc] at hacq hrel
  rw [Cache.refs, Cache.refs]
  omega

omit [Add R] [Sub R] [OfNat R 0] [OfNat R 1] in
/-- A process waits for a buffer that has one more reference. -/
theorem refs_acquiring {p : P} (hp : c.pc p = .out) {b : Bufno}
    (hpc : t.pc = (c.goto p (.acquiring b)).pc) (hlock : t.lock = c.lock) (hpins : t.pins = c.pins)
    (x : Bufno) : t.refs x = c.refs x + if x = b then 1 else 0 := by
  have h := refs_goto hpc x
  rw [hp, hlock, hpins] at h
  simp only [Pc.acquiring.injEq, reduceCtorEq, if_false, eq_comm (a := b)] at h
  omega

omit [Sub R] in
/-- `bget` finds the block in the cache. -/
theorem inv_ref (h : Inv c) {p : P} (hp : c.pc p = .out) (b : Bufno) :
    Inv ((c.ref b).goto p (.acquiring b)) := by
  refine h.congr rfl rfl (ref_sameBlock b) ?_
  intro x
  have hcnt : (((c.ref b).goto p (.acquiring b)).buf x).refcnt = _ := h.ref_refcnt b x
  have hrefs : ((c.ref b).goto p (.acquiring b)).refs x = _ := refs_acquiring hp rfl rfl rfl x
  rw [hcnt, hrefs]

/-- `bget` recycles a buffer. -/
theorem inv_recycle [Counter R] (h : Inv c) {p : P} (hp : c.pc p = .out) {b : Bufno}
    {dev blockno : Nat} (hnone : ∀ x, ¬ ((c.buf x).dev = dev ∧ (c.buf x).blockno = blockno))
    (hzero : (c.buf b).refcnt = 0) :
    Inv ((c.setBuf b ⟨false, dev, blockno, 1⟩).goto p (.acquiring b)) := by
  obtain ⟨L, hL⟩ := h.listed
  have hself : ((c.setBuf b ⟨false, dev, blockno, 1⟩).goto p (.acquiring b)).buf b =
      ⟨false, dev, blockno, 1⟩ := Function.update_self _ _ _
  have hother (x : Bufno) (hx : x ≠ b) :
      ((c.setBuf b ⟨false, dev, blockno, 1⟩).goto p (.acquiring b)).buf x = c.buf x :=
    Function.update_of_ne hx _ _
  refine ⟨⟨L, hL.congr rfl rfl⟩, ?_, ?_⟩
  · intro x y hdev hsame hblock
    by_cases hx : x = b
    · by_cases hy : y = b
      · rw [hx, hy]
      · rw [hx, hself, hother y hy] at hsame hblock
        exact (hnone y ⟨hsame.symm, hblock.symm⟩).elim
    · by_cases hy : y = b
      · rw [hy, hself, hother x hx] at hsame hblock
        exact (hnone x ⟨hsame, hblock⟩).elim
      · rw [hother x hx] at hdev hsame hblock
        rw [hother y hy] at hsame hblock
        exact h.one x y hdev hsame hblock
  · intro x
    have hrefs : ((c.setBuf b ⟨false, dev, blockno, 1⟩).goto p (.acquiring b)).refs x = _ :=
      refs_acquiring hp rfl rfl rfl x
    rw [hrefs]
    by_cases hxb : x = b
    · rw [if_pos hxb, hxb, hself]
      exact (tally_succ_of_zero R ((h.refs b).symm.trans hzero)).symm
    · rw [if_neg hxb, hother x hxb]
      exact h.refs x

variable [DecidableEq R]

omit [Sub R] in
/-- What `bget` does: the block is in the cache, or a buffer that is not in use gets it, or there is
none. -/
theorem bget_cases (h : Inv c) (p : P) (dev blockno : Nat) :
    (∃ b, c.bget p dev blockno = (c.ref b).goto p (.acquiring b) ∧
      (c.buf b).dev = dev ∧ (c.buf b).blockno = blockno) ∨
    (∀ b, ¬ ((c.buf b).dev = dev ∧ (c.buf b).blockno = blockno)) ∧
      ((∃ b, c.bget p dev blockno = (c.setBuf b ⟨false, dev, blockno, 1⟩).goto p (.acquiring b) ∧
          c.unused = some b) ∨
        c.bget p dev blockno = { c with panic := some "bget: no buffers" } ∧ c.unused = none) := by
  obtain ⟨L, hL⟩ := h.listed
  unfold Cache.bget
  cases hf : c.find dev blockno with
  | some b =>
    rw [find_eq hL] at hf
    have hfound := List.find?_some hf
    exact .inl ⟨b, rfl, of_decide_eq_true hfound⟩
  | none =>
    right
    refine ⟨?_, ?_⟩
    · rw [find_eq hL, List.find?_eq_none] at hf
      exact fun x hx ↦ hf x (hL.all x) (decide_eq_true hx)
    · cases hu : c.unused with
      | some b => exact .inl ⟨b, rfl, rfl⟩
      | none => exact .inr ⟨rfl, rfl⟩

theorem bget_ok [Counter R] (h : Inv c) {p : P} (hp : c.pc p = .out) (dev blockno : Nat) :
    Inv (c.bget p dev blockno) ∧ KeepsUsed c (c.bget p dev blockno) := by
  rcases bget_cases h p dev blockno with ⟨b, hb, -⟩ | ⟨hnone, ⟨b, hb, hu⟩ | ⟨hb, -⟩⟩
  · rw [hb]
    exact ⟨inv_ref h hp b, fun x _ ↦ ref_sameBlock b x⟩
  · obtain ⟨L, hL⟩ := h.listed
    have hzero := (unused_last hL hu).1
    rw [hb]
    refine ⟨inv_recycle h hp hnone hzero, ?_⟩
    intro x hx
    have hxb : x ≠ b := by
      rintro rfl
      exact hx hzero
    have hsame : ((c.setBuf b ⟨false, dev, blockno, 1⟩).goto p (.acquiring b)).buf x = c.buf x :=
      Function.update_of_ne hxb _ _
    rw [hsame]
    exact SameBlock.refl _
  · rw [hb]
    exact ⟨h.congr rfl rfl (fun _ ↦ SameBlock.refl _) h.refs, fun x _ ↦ SameBlock.refl _⟩

omit [DecidableEq R] [Sub R] in
/-- A process that waited for a buffer's lock gets it. -/
theorem inv_acquiresleep (h : Inv c) {p : P} {b : Bufno} (hp : c.pc p = .acquiring b)
    (hb : c.lock b = none) : Inv ((c.goto p .out).setLock b (some p)) := by
  refine h.congr rfl rfl (fun _ ↦ SameBlock.refl _) ?_
  intro x
  have hrefs := refs_goto (t := (c.goto p .out).setLock b (some p)) (c := c) (p := p) rfl x
  have hpins : ((c.goto p .out).setLock b (some p)).pins x = c.pins x := rfl
  have hheld : (((c.goto p .out).setLock b (some p)).lock x).isSome.toNat =
      if x = b then 1 else (c.lock x).isSome.toNat := setLock_held b (some p) x
  have hx := h.refs x
  rw [hpins, hheld, hp] at hrefs
  simp only [Pc.acquiring.injEq, reduceCtorEq, if_false, eq_comm (a := b)] at hrefs
  change (c.buf x).refcnt = _
  rw [hx]
  congr 1
  by_cases hxb : x = b
  · rw [hxb] at hrefs hx ⊢
    rw [if_pos rfl, if_pos rfl, hb] at hrefs
    change _ + (1 + 0 + 0 + _) = _ at hrefs
    omega
  · rw [if_neg hxb, if_neg hxb] at hrefs
    omega

omit [DecidableEq R] [Sub R] in
/-- A holder gives up the lock, and has yet to give up its reference. -/
theorem inv_releasesleep (h : Inv c) {p : P} {b : Bufno} (hp : c.pc p = .out)
    (hb : c.lock b = some p) : Inv ((c.goto p (.releasing b)).setLock b none) := by
  refine h.congr rfl rfl (fun _ ↦ SameBlock.refl _) ?_
  intro x
  have hrefs := refs_goto (t := (c.goto p (.releasing b)).setLock b none) (c := c) (p := p) rfl x
  have hpins : ((c.goto p (.releasing b)).setLock b none).pins x = c.pins x := rfl
  have hheld : (((c.goto p (.releasing b)).setLock b none).lock x).isSome.toNat =
      if x = b then 0 else (c.lock x).isSome.toNat := setLock_held b none x
  have hx := h.refs x
  rw [hpins, hheld, hp] at hrefs
  simp only [Pc.releasing.injEq, reduceCtorEq, if_false, eq_comm (a := b)] at hrefs
  change (c.buf x).refcnt = _
  rw [hx]
  congr 1
  by_cases hxb : x = b
  · rw [hxb] at hrefs hx ⊢
    rw [if_pos rfl, if_pos rfl, hb] at hrefs
    change _ + (0 + 0 + 1 + _) = _ at hrefs
    omega
  · rw [if_neg hxb, if_neg hxb] at hrefs
    omega

/-- A `brelse` moves the buffer to the front if nobody refers to it any more. -/
theorem brelse_moved [Counter R] (h : Inv c) (hL : Listed c L) {p : P} {b : Bufno}
    (hp : c.pc p = .releasing b) :
    ∃ L', Listed ((c.brelse b).goto p .out) L' ∧
      Moved c ((c.brelse b).goto p .out) (.brelse p) L L' := by
  have hunref : Listed (c.unref b) L := hL.congr rfl rfl
  have hother (x : Bufno) (hx : x ≠ b) : (c.unref b).buf x = c.buf x :=
    Function.update_of_ne hx _ _
  by_cases hzero : ((c.unref b).buf b).refcnt = 0
  · have hbrelse : c.brelse b = (c.unref b).touch b := by
      unfold Cache.brelse
      exact if_pos hzero
    rw [hbrelse]
    refine ⟨b :: L.erase b, (hunref.touch b).congr rfl rfl, .inr ⟨b, rfl, ?_⟩⟩
    intro x
    change (c.buf x).refcnt ≠ 0 ∧ ((c.unref b).buf x).refcnt = 0 ↔ x = b
    constructor
    · rintro ⟨hne, hz⟩
      by_contra hx
      rw [hother x hx] at hz
      exact hne hz
    · rintro rfl
      refine ⟨?_, hzero⟩
      have hhits : 0 < hits c.pc (.releasing x) := hits_pos_iff.mpr ⟨p, hp⟩
      have hpos : 0 < c.refs x := by
        rw [Cache.refs]
        omega
      obtain ⟨n, hn⟩ := Nat.exists_eq_add_of_lt hpos
      have hcount : n + (if x = x then 1 else 0) = c.refs x := by
        rw [if_pos rfl]
        omega
      rw [h.unref_refcnt hcount] at hzero
      rw [h.refs, ← hcount, if_pos rfl]
      exact tally_succ_ne_zero R hzero
  · have hbrelse : c.brelse b = c.unref b := by
      unfold Cache.brelse
      exact if_neg hzero
    rw [hbrelse]
    refine ⟨L, hunref.congr rfl rfl, .inl ⟨rfl, ?_⟩⟩
    rintro x ⟨hne, hz⟩
    by_cases hx : x = b
    · rw [hx] at hz
      exact hzero hz
    · have hsame : (((c.unref b).goto p .out).buf x).refcnt = (c.buf x).refcnt := by
        change ((c.unref b).buf x).refcnt = _
        rw [hother x hx]
      exact hne (hsame.symm.trans hz)

/-- A reference is given up. -/
theorem inv_brelse [Counter R] (h : Inv c) {p : P} {b : Bufno} (hp : c.pc p = .releasing b) :
    Inv ((c.brelse b).goto p .out) ∧ KeepsUsed c ((c.brelse b).goto p .out) := by
  obtain ⟨L, hL⟩ := h.listed
  have hbuf : ((c.brelse b).goto p .out).buf = (c.unref b).buf := by
    change (c.brelse b).buf = _
    unfold Cache.brelse
    dsimp only
    split <;> rfl
  have hrest : ((c.brelse b).goto p .out).pc = (c.goto p .out).pc ∧
      ((c.brelse b).goto p .out).lock = c.lock ∧ ((c.brelse b).goto p .out).pins = c.pins := by
    simp only [Cache.brelse]
    split <;> exact ⟨rfl, rfl, rfl⟩
  obtain ⟨L', hL', -⟩ := brelse_moved h hL hp
  refine ⟨⟨⟨L', hL'⟩, ?_, ?_⟩, ?_⟩
  · intro x y hdev hsame hblock
    rw [hbuf, (unref_sameBlock b x).1] at hdev
    rw [hbuf, (unref_sameBlock b x).1, (unref_sameBlock b y).1] at hsame
    rw [hbuf, (unref_sameBlock b x).2.1, (unref_sameBlock b y).2.1] at hblock
    exact h.one x y hdev hsame hblock
  · intro x
    have hrefs := refs_goto hrest.1 x
    rw [hrest.2.1, hrest.2.2, hp] at hrefs
    simp only [Pc.releasing.injEq, reduceCtorEq, if_false, eq_comm (a := b)] at hrefs
    rw [hbuf]
    apply h.unref_refcnt
    omega
  · intro x _
    rw [hbuf]
    exact unref_sameBlock b x

theorem step_ok [Counter R] (h : Inv c) {a : Act P} (hs : c.step a = some t) :
    Inv t ∧ KeepsUsed c t := by
  cases a with
  | bget p dev blockno =>
    simp only [Cache.step] at hs
    split at hs
    · next hg =>
      cases Option.some.inj hs
      exact bget_ok h hg.2 dev blockno
    · cases hs
  | acquiresleep p =>
    simp only [Cache.step] at hs
    split at hs
    · next b hp =>
      split at hs
      · next hg =>
        cases Option.some.inj hs
        exact ⟨inv_acquiresleep h hp hg.2, fun _ _ ↦ SameBlock.refl _⟩
      · cases hs
    · cases hs
  | fill p b =>
    simp only [Cache.step] at hs
    split at hs
    · cases Option.some.inj hs
      have hsame (x : Bufno) : SameBlock ((c.setBuf b { c.buf b with valid := true }).buf x)
          (c.buf x) := by
        apply setBuf_sameBlock
        exact ⟨rfl, rfl, fun _ ↦ rfl⟩
      refine ⟨h.congr rfl rfl hsame ?_, fun x _ ↦ hsame x⟩
      intro x
      rw [setBuf_refcnt]
      split
      · next hx =>
        rw [hx]
        exact h.refs b
      · exact h.refs x
    · cases hs
  | releasesleep p b =>
    simp only [Cache.step] at hs
    split at hs
    · next hg =>
      cases Option.some.inj hs
      exact ⟨inv_releasesleep h hg.2.1 hg.2.2, fun _ _ ↦ SameBlock.refl _⟩
    · cases hs
  | brelse p =>
    simp only [Cache.step] at hs
    split at hs
    · next b hp =>
      split at hs
      · cases Option.some.inj hs
        exact inv_brelse h hp
      · cases hs
    · cases hs
  | bpin b =>
    simp only [Cache.step] at hs
    split at hs
    · cases Option.some.inj hs
      exact ⟨inv_bpin h b, fun x _ ↦ ref_sameBlock b x⟩
    · cases hs
  | bunpin b =>
    simp only [Cache.step] at hs
    split at hs
    · next hg =>
      cases Option.some.inj hs
      exact ⟨inv_bunpin h hg.2, fun x _ ↦ unref_sameBlock b x⟩
    · cases hs

omit [Add R] [Sub R] [OfNat R 1] [DecidableEq R] [DecidableEq P] [Fintype P] in
/-- `binit` changes the list only. -/
theorem binit_fields : (Cache.binit : Cache R P).buf = (Cache.blank : Cache R P).buf ∧
    (Cache.binit : Cache R P).pc = (Cache.blank : Cache R P).pc ∧
    (Cache.binit : Cache R P).lock = (Cache.blank : Cache R P).lock ∧
    (Cache.binit : Cache R P).pins = (Cache.blank : Cache R P).pins ∧
    (Cache.binit : Cache R P).panic = (Cache.blank : Cache R P).panic := by
  have hfold (l : List Bufno) (c : Cache R P) : (l.foldl (fun c b ↦ c.pushFront b) c).buf = c.buf ∧
      (l.foldl (fun c b ↦ c.pushFront b) c).pc = c.pc ∧
      (l.foldl (fun c b ↦ c.pushFront b) c).lock = c.lock ∧
      (l.foldl (fun c b ↦ c.pushFront b) c).pins = c.pins ∧
      (l.foldl (fun c b ↦ c.pushFront b) c).panic = c.panic := by
    induction l generalizing c with
    | nil => exact ⟨rfl, rfl, rfl, rfl, rfl⟩
    | cons b l ih => exact ih (c.pushFront b)
  exact hfold (List.finRange NBUF) Cache.blank

omit [Sub R] [DecidableEq R] [DecidableEq P] in
theorem inv_binit : Inv (Cache.binit : Cache R P) := by
  obtain ⟨hbuf, hpc, hlock, hpins, -⟩ := binit_fields (R := R) (P := P)
  refine ⟨⟨_, listed_binit⟩, ?_, ?_⟩
  · intro b b' hdev
    rw [hbuf] at hdev
    exact (hdev rfl).elim
  · intro b
    rw [Cache.refs, hbuf, hpc, hlock, hpins, hits_eq_zero, hits_eq_zero]
    · rfl
    · exact fun _ ↦ Pc.noConfusion
    · exact fun _ ↦ Pc.noConfusion

/-- Only a `brelse` moves a buffer. -/
theorem step_moved [Counter R] (h : Inv c) (hL : Listed c L) {a : Act P} (hs : c.step a = some t) :
    ∃ L', Listed t L' ∧ Moved c t a L L' := by
  have hstay (hnext : t.next = c.next) (hprev : t.prev = c.prev) (hnot : ∀ b, ¬ Zeroed c t a b) :
      ∃ L', Listed t L' ∧ Moved c t a L L' := ⟨L, hL.congr hnext hprev, .inl ⟨rfl, hnot⟩⟩
  cases a with
  | bget p dev blockno =>
    obtain ⟨-, rfl⟩ := Option.ite_none_right_eq_some.mp hs |>.imp_right Option.some.inj
    rcases bget_cases h p dev blockno with ⟨b, hb, -⟩ | ⟨-, ⟨b, hb, -⟩ | ⟨hb, -⟩⟩ <;>
      rw [hb] at hstay ⊢
    all_goals exact hstay rfl rfl (fun _ ↦ id)
  | acquiresleep p =>
    simp only [Cache.step] at hs
    split at hs
    · obtain ⟨-, rfl⟩ := Option.ite_none_right_eq_some.mp hs |>.imp_right Option.some.inj
      exact hstay rfl rfl (fun _ ↦ id)
    · cases hs
  | brelse p =>
    simp only [Cache.step] at hs
    split at hs
    · next b hp =>
      obtain ⟨-, rfl⟩ := Option.ite_none_right_eq_some.mp hs |>.imp_right Option.some.inj
      exact brelse_moved h hL hp
    · cases hs
  | fill | releasesleep | bpin | bunpin =>
    obtain ⟨-, rfl⟩ := Option.ite_none_right_eq_some.mp hs |>.imp_right Option.some.inj
    exact hstay rfl rfl (fun _ ↦ id)

end

end Xv6.Bio
