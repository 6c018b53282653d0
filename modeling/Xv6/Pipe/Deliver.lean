import Xv6.Pipe.Fifo
import Xv6.Vm.Copyin

/-!
# What a reader takes and what it gets

One call of `piperead` (`kernel/pipe.c:106`) with the caller's page table and memory. The call
holds `pi->lock` while it copies, so that the pipe changes only while it sleeps: a `Moment` is what
it finds each time it has the lock.
-/

namespace Xv6.Pipe

open Xv6.Vm

/-- What `piperead` finds when it has acquired `pi->lock`. -/
structure Moment where
  pipe : Pipe
  killed : Bool
  mem : Mem

/-- The copying loop of `piperead` with `left` bytes to go; `kernel/pipe.c:120–126`. -/
def readLoop (pagetable addr : Nat) : Nat → Nat → Pipe → Mem → Nat × Pipe × Mem
  | 0, i, pi, m => (i, pi, m)
  | left + 1, i, pi, m =>
    if pi.empty then (i, pi, m)
    else
      -- `nread` is advanced before `copyout` is tried
      let ch := pi.data (slot pi.nread)
      let pi := pi.take
      match copyout m pagetable ((addr + i) % 2 ^ 64) [ch] with
      | (false, m) => (i, pi, m)
      | (true, m) => readLoop pagetable addr left (i + 1) pi m

/-- The waiting loop of `piperead`; `kernel/pipe.c:113–119`. `none` says that the process still
sleeps, `some none` that the call returns -1. -/
def waitLoop : List Moment → Option (Option Moment)
  | [] => none
  | w :: later =>
    if w.pipe.empty ∧ w.pipe.writeopen then
      if w.killed then some none else waitLoop later
    else some (some w)

/-- The value `piperead` returns, with the pipe and the memory that it leaves;
`kernel/pipe.c:106–130`. -/
def piperead (pagetable addr : Nat) (n : Int) (seen : List Moment) :
    Option (Int × Option (Pipe × Mem)) :=
  match waitLoop seen with
  | none => none
  | some none => some (-1, none)
  | some (some w) =>
    let r := readLoop pagetable addr n.toNat 0 w.pipe w.mem
    some (r.1, some r.2)

/-- The `i` bytes that are gone from the pipe are those at `addr` of the caller. -/
def Delivered (pagetable addr i : Nat) (pi pi' : Pipe) (m' : Mem) : Prop :=
  ∃ bytes, bytes.length = i ∧ contents pi = bytes ++ contents pi' ∧
    ∀ j b, bytes[j]? = some b → userByte m' pagetable ((addr + j) % 2 ^ 64) = some b

/-- A call that returns a count has removed that many bytes, and delivered them. -/
def RemovesDelivered (pagetable addr : Nat) (n : Int) (seen : List Moment) : Prop :=
  ∀ w, waitLoop seen = some (some w) → ∀ (i : Nat) pi' m',
    piperead pagetable addr n seen = some ((i : Int), some (pi', m')) →
    Delivered pagetable addr i w.pipe pi' m'

section
variable {m m' : Mem} {pt : Nat}

/-! ### One byte -/

theorem userByte_congr (hpage : userPage m' pt = userPage m pt) {va : Nat}
    (h : ∀ page, userPage m pt (va / PGSIZE) = some page →
      m'.cells page (va % PGSIZE) = m.cells page (va % PGSIZE)) :
    userByte m' pt va = userByte m pt va := by
  rw [userByte, userByte, hpage]
  cases hp : userPage m pt (va / PGSIZE) with
  | none => rfl
  | some page => exact congrArg some (h page hp)

/-- `copyout` of one byte. -/
structure StoredByte (m m' : Mem) (pt va : Nat) (ok : Bool) (ch : UInt8) : Prop where
  same : SameTable m.cells m'.cells 2 pt
  ok_iff : ok = true ↔ Accessible m pt va
  stored : ok = true → userByte m' pt va = some ch
  frame : ∀ va', (ok = true → va' ≠ va) → userByte m' pt va' = userByte m pt va'

theorem copyout_byte (h : OwnPages m pt) (va : Nat) (ch : UInt8) :
    StoredByte m (copyout m pt va [ch]).2 pt va (copyout m pt va [ch]).1 ch := by
  have hout := bytesOut_copyout h va [ch]
  have hsame := (copyout_spec h va [ch]).same
  have hone : (∀ i < [ch].length, Accessible m pt (va + i)) ↔ Accessible m pt va := by
    constructor
    · intro hall
      exact hall 0 Nat.one_pos
    · intro hacc i hi
      rw [List.length_singleton, Nat.lt_one_iff] at hi
      rw [hi]
      exact hacc
  refine ⟨hsame, by rw [hout.ok_iff, hone], ?_, ?_⟩
  · intro hok
    have hacc := hone.mp (hout.ok_iff.mp hok)
    obtain ⟨page, hp, -⟩ := hacc.2
    rw [userByte, userPage_congr hsame, hp]
    apply congrArg some
    apply hout.stored 0 ch page rfl _ hp
    intro j hj
    rw [Nat.le_zero.mp hj]
    exact hacc
  · intro va' hne
    apply userByte_congr (userPage_congr hsame)
    intro page hp
    apply hout.frame
    intro i hi hacc hp' hoff
    rw [List.length_singleton, Nat.lt_one_iff] at hi
    rw [hi] at hacc hp' hoff
    -- the same page at the same offset is the same address
    have hv := h.distinct _ _ page hp' hp
    apply hne (hout.ok_iff.mpr (hone.mpr (hacc 0 (Nat.le_refl 0))))
    rw [← Nat.div_add_mod va' PGSIZE, ← hv, ← hoff, Nat.add_zero, Nat.div_add_mod]

/-! ### The copying loop -/

/-- The loop has delivered `bytes` from byte `i` on; it has stopped because it was done, or at a
byte that it had already taken out. -/
structure Copied (pt addr left i : Nat) (pi : Pipe) (m : Mem) (r : Nat × Pipe × Mem)
    (bytes : List UInt8) : Prop where
  count : r.1 = i + bytes.length
  good : ∀ j < bytes.length, Accessible m pt ((addr + (i + j)) % 2 ^ 64)
  stored : ∀ j b, bytes[j]? = some b → userByte r.2.2 pt ((addr + (i + j)) % 2 ^ 64) = some b
  frame : ∀ va, (∀ j < bytes.length, va ≠ (addr + (i + j)) % 2 ^ 64) →
    userByte r.2.2 pt va = userByte m pt va
  stop : (bytes.length = min left pi.count ∧ contents pi = bytes ++ contents r.2.1) ∨
    (bytes.length < min left pi.count ∧ ¬ Accessible m pt ((addr + (i + bytes.length)) % 2 ^ 64) ∧
      ∃ b, contents pi = bytes ++ b :: contents r.2.1)

theorem count_lt (pi : Pipe) : pi.count < 2 ^ 32 := (pi.nwrite - pi.nread).toNat_lt

theorem Copied.nil {addr left i : Nat} {pi : Pipe} {m : Mem} (h : min left pi.count = 0) :
    Copied pt addr left i pi m (i, pi, m) [] :=
  ⟨rfl, nofun, nofun, fun _ _ ↦ rfl, .inl ⟨h.symm, rfl⟩⟩

/-- One more byte in front. -/
theorem Copied.cons {addr left i : Nat} {pi : Pipe} {r : Nat × Pipe × Mem} {bytes : List UInt8}
    {ch : UInt8} (hb : StoredByte m m' pt ((addr + i) % 2 ^ 64) true ch) (hpos : 0 < pi.count)
    (hch : pi.data (slot pi.nread) = ch) (h : Copied pt addr left (i + 1) pi.take m' r bytes) :
    Copied pt addr (left + 1) i pi m r (ch :: bytes) := by
  have hcount := count_take pi hpos
  have hlt := count_lt pi
  have hlen : bytes.length ≤ pi.take.count := by
    rcases h.stop with hstop | hstop <;> omega
  have hpage := userPage_congr hb.same
  have hshift (j : Nat) : i + (j + 1) = i + 1 + j := by omega
  have hcontents := contents_take hpos
  rw [hch] at hcontents
  refine ⟨?_, ?_, ?_, ?_, ?_⟩
  · rw [h.count, List.length_cons]
    omega
  · intro j hj
    cases j with
    | zero => exact hb.ok_iff.mp rfl
    | succ j =>
      rw [List.length_cons] at hj
      rw [hshift, ← Accessible.congr hpage]
      exact h.good j (by omega)
  · intro j b hj
    cases j with
    | zero =>
      rw [List.getElem?_cons_zero] at hj
      rw [← Option.some.inj hj, Nat.add_zero, h.frame]
      · exact hb.stored rfl
      · intro j hj
        omega
    | succ j =>
      rw [List.getElem?_cons_succ] at hj
      rw [hshift]
      exact h.stored j b hj
  · intro va hva
    have hfirst := hva 0 (by simp)
    rw [h.frame va, hb.frame va (fun _ ↦ hfirst)]
    intro j hj
    rw [← hshift]
    exact hva (j + 1) (by rw [List.length_cons]; omega)
  · rw [List.length_cons, hcontents]
    rcases h.stop with ⟨hl, hc⟩ | ⟨hl, hbad, b, hc⟩
    · exact .inl ⟨by omega, congrArg (ch :: ·) hc⟩
    · rw [Accessible.congr hpage, ← hshift] at hbad
      exact .inr ⟨by omega, hbad, b, congrArg (ch :: ·) hc⟩

/-- The loop delivers bytes up to the first that it cannot store, and loses that one. -/
theorem readLoop_spec (h : OwnPages m pt) (addr left i : Nat) (pi : Pipe) :
    ∃ bytes, Copied pt addr left i pi m (readLoop pt addr left i pi m) bytes := by
  induction left generalizing i pi m with
  | zero => exact ⟨[], Copied.nil (by omega)⟩
  | succ left ih =>
    rw [readLoop]
    split
    · next hempty =>
      rw [empty_iff_count] at hempty
      exact ⟨[], Copied.nil (by omega)⟩
    · next hne =>
      rw [empty_iff_count] at hne
      have hpos : 0 < pi.count := Nat.pos_of_ne_zero hne
      have hbyte := copyout_byte h ((addr + i) % 2 ^ 64) (pi.data (slot pi.nread))
      dsimp only
      split
      · next m' hout =>
        rw [hout] at hbyte
        refine ⟨[], rfl, nofun, nofun, ?_, .inr ⟨?_, ?_, ?_⟩⟩
        · intro va _
          exact hbyte.frame va (fun h ↦ nomatch h)
        · rw [List.length_nil]
          omega
        · intro hacc
          cases hbyte.ok_iff.mpr hacc
        · exact ⟨_, contents_take hpos⟩
      · next m' hout =>
        rw [hout] at hbyte
        obtain ⟨bytes, hb⟩ := ih (h.congr hbyte.same) (i + 1) pi.take
        exact ⟨_, hb.cons hbyte hpos rfl⟩

/-! ### The call -/

theorem waitLoop_mem {seen : List Moment} {w : Moment} (h : waitLoop seen = some (some w)) :
    w ∈ seen := by
  induction seen with
  | nil => cases h
  | cons v later ih =>
    rw [waitLoop] at h
    split at h
    · split at h
      · cases h
      · exact List.mem_cons_of_mem v (ih h)
    · rw [Option.some.inj (Option.some.inj h)]
      exact List.mem_cons_self

theorem piperead_of_waitLoop {pt addr : Nat} {n : Int} {seen : List Moment} {w : Moment}
    (h : waitLoop seen = some (some w)) : piperead pt addr n seen =
      some (((readLoop pt addr n.toNat 0 w.pipe w.mem).1 : Int),
        some (readLoop pt addr n.toNat 0 w.pipe w.mem).2) := by
  rw [piperead, h]

/-- A byte that cannot be stored is lost. -/
theorem RemovesDelivered.accessible {addr : Nat} {n : Int} {seen : List Moment}
    (hdel : RemovesDelivered pt addr n seen) {w : Moment} (h : OwnPages w.mem pt)
    (hw : waitLoop seen = some (some w)) {j : Nat} (hj : j < min n.toNat w.pipe.count) :
    Accessible w.mem pt ((addr + j) % 2 ^ 64) := by
  obtain ⟨bytes, hc⟩ := readLoop_spec h addr n.toNat 0 w.pipe
  obtain ⟨got, hlen, hsplit, -⟩ := hdel w hw _ (readLoop pt addr n.toNat 0 w.pipe w.mem).2.1
    (readLoop pt addr n.toNat 0 w.pipe w.mem).2.2 (piperead_of_waitLoop hw)
  rw [hc.count, Nat.zero_add] at hlen
  rcases hc.stop with ⟨hl, -⟩ | ⟨-, -, b, hlost⟩
  · have hgood := hc.good j (by omega)
    rw [Nat.zero_add] at hgood
    exact hgood
  · -- without the lost byte the contents are one byte too short
    have hcount := congrArg List.length (hlost.symm.trans hsplit)
    rw [List.length_append, List.length_append, List.length_cons] at hcount
    omega

/-- A call removes what it delivers exactly when every byte that it takes can be stored. -/
theorem removesDelivered_iff {pt addr : Nat} {n : Int} {seen : List Moment}
    (h : ∀ w ∈ seen, OwnPages w.mem pt) :
    RemovesDelivered pt addr n seen ↔ ∀ w, waitLoop seen = some (some w) →
      ∀ j < min n.toNat w.pipe.count, Accessible w.mem pt ((addr + j) % 2 ^ 64) := by
  constructor
  · intro hdel w hw j hj
    exact hdel.accessible (h w (waitLoop_mem hw)) hw hj
  · intro hacc w hw i pi' m' hr
    rw [piperead_of_waitLoop hw] at hr
    obtain ⟨bytes, hc⟩ := readLoop_spec (h w (waitLoop_mem hw)) addr n.toNat 0 w.pipe
    have hi : (readLoop pt addr n.toNat 0 w.pipe w.mem).1 = i :=
      Int.ofNat_inj.mp (congrArg Prod.fst (Option.some.inj hr))
    have hpm : (readLoop pt addr n.toNat 0 w.pipe w.mem).2 = (pi', m') :=
      Option.some.inj (congrArg Prod.snd (Option.some.inj hr))
    rw [hc.count, Nat.zero_add] at hi
    rcases hc.stop with ⟨-, hsplit⟩ | ⟨hl, hbad, -⟩
    · have hstored := hc.stored
      rw [hpm] at hsplit hstored
      simp only [Nat.zero_add] at hstored
      exact ⟨bytes, hi, hsplit, hstored⟩
    · rw [Nat.zero_add] at hbad
      exact absurd (hacc w hw _ hl) hbad

end

/-- A pipe that holds the byte `'x'`. -/
def oneByte : Pipe := (alloc (fun _ ↦ 0)).put 120

/-- The read of `user/usertests.c:106`, to the highest address. -/
theorem piperead_loses_byte : ∃ s, TextRun s ∧ OwnPages s.mem s.root ∧
    ¬ RemovesDelivered s.root (2 ^ 64 - 1) 8192 [⟨oneByte, false, s.mem⟩] := by
  obtain ⟨s, hrun, htable, -⟩ := pageRun_table (.inl rfl)
  refine ⟨s, hrun, htable.ownPages, ?_⟩
  intro hdel
  have hcount : 0 < min (Int.toNat 8192) oneByte.count := by decide
  have hacc := hdel.accessible (w := ⟨oneByte, false, s.mem⟩) htable.ownPages rfl hcount
  exact absurd hacc.1 (by decide)

/-- A read of one byte, to the last byte of the page. -/
theorem removesDelivered_iff_text : ∃ s, TextRun s ∧ OwnPages s.mem s.root ∧
    RemovesDelivered s.root 4095 1 [⟨oneByte, false, s.mem⟩] := by
  obtain ⟨s, hrun, htable, hlookup, -, -⟩ := pageRun_table (.inl rfl)
  have hpage : userPage s.mem s.root 0 = some 0x80102 := by
    rw [userPage, hlookup]
    rfl
  refine ⟨s, hrun, htable.ownPages, (removesDelivered_iff ?_).mpr ?_⟩
  · intro w hw
    rw [List.mem_singleton.mp hw]
    exact htable.ownPages
  · intro w hw j hj
    rw [← Option.some.inj (Option.some.inj hw)] at hj ⊢
    have hz : j = 0 := by
      have := Nat.lt_of_lt_of_le hj (Nat.min_le_left _ _)
      exact Nat.lt_one_iff.mp this
    rw [hz]
    exact ⟨by decide, _, hpage, by decide⟩

end Xv6.Pipe
