import Xv6.Console.Model

/-!
# The line discipline

What the console is for: a queue `Q` of committed bytes and a line `L` that is being edited. The
buffer with its three counters implements these two lists, also when the counters wrap.
-/

namespace Xv6.Console

open Xv6.Lib

namespace Line

/-- A call of `consoleread`: the bytes it still wants, those it has, and its result: the bytes, or
`none` for an error. -/
structure Call where
  left : Nat
  got : List UInt8
  killed : Bool
  ret : Option (Option (List UInt8))

/-- The committed bytes, the line, and the calls. -/
structure State where
  Q : List UInt8
  L : List UInt8
  calls : Nat → Option Call

/-- A keystroke that is to be stored: it goes to the line if there is room, and the line to the
queue when it is complete or nothing more fits. -/
def type (c : UInt8) (Q L : List UInt8) : List UInt8 × List UInt8 :=
  if Q.length + L.length < INPUT_BUF_SIZE then
    let L := L ++ [c]
    if c = newline ∨ c = C 'D' ∨ Q.length + L.length = INPUT_BUF_SIZE then (Q ++ L, [])
    else (Q, L)
  else (Q, L)

/-- A keystroke. -/
def key (c : UInt8) (Q L : List UInt8) : List UInt8 × List UInt8 :=
  if c = C 'H' ∨ c = delete then (Q, L.dropLast)
  else if c = C 'U' then (Q, [])
  else if c = C 'P' ∨ c = 0 then (Q, L)
  else type (if c = carriageReturn then newline else c) Q L

/-- What a call comes to: it waits for more bytes, or it has its result. -/
inductive Outcome where
  | wait (left : Nat) (got : List UInt8)
  | done (bytes : List UInt8)

/-- A call takes bytes from the front of the queue until it has enough, or a whole line, or finds
the end of the input or of the queue. The end-of-input mark stays if the call has a byte. -/
def serve : Nat → List UInt8 → List UInt8 → Outcome × List UInt8
  | 0, got, Q => (.done got, Q)
  | left + 1, got, [] => (.wait (left + 1) got, [])
  | left + 1, got, c :: Q =>
    if c = C 'D' then (.done got, if got = [] then Q else c :: Q)
    else if c = newline then (.done (got ++ [c]), Q)
    else serve left (got ++ [c]) Q

/-- The call after it has been served; a killed process does not wait. -/
def Call.settle (c : Call) : Outcome → Call
  | .wait left got =>
    { c with left := left, got := got, ret := if c.killed then some none else none }
  | .done bytes => { c with got := bytes, ret := some (some bytes) }

/-- One step of the line model. -/
def step (s : State) : Act → Option State
  | .intr c => some { s with Q := (key c s.Q s.L).1, L := (key c s.Q s.L).2 }
  | .read id n _ =>
    match s.calls id with
    | none => some { s with calls := Function.update s.calls id (some ⟨n.toNat, [], false, none⟩) }
    | some _ => none
  | .go id =>
    match s.calls id with
    | none => none
    | some c =>
      if c.ret = none then
        let (o, Q) := serve c.left c.got s.Q
        some { s with Q := Q, calls := Function.update s.calls id (some (c.settle o)) }
      else none
  | .kill id =>
    match s.calls id with
    | none => none
    | some c => some { s with calls := Function.update s.calls id (some { c with killed := true }) }

def init : State := ⟨[], [], fun _ ↦ none⟩

end Line

/-- The buffer holds the queue and after it the line, and there is no complete line in the line. -/
structure Holds (s : Cons) (Q L : List UInt8) : Prop where
  w : s.w = s.r + UInt32.ofNat Q.length
  e : s.e = s.r + UInt32.ofNat (Q.length + L.length)
  fits : Q.length + L.length ≤ INPUT_BUF_SIZE
  bytes : window s.buf s.r (Q.length + L.length) = Q ++ L
  line : newline ∉ L

section
variable {s : Cons} {Q L : List UInt8}

theorem size_dvd : INPUT_BUF_SIZE ∣ 2 ^ 32 := by decide

theorem sub_toNat (a : UInt32) {m n : Nat} (hmn : m ≤ n) (hn : n < 2 ^ 32) :
    ((a + UInt32.ofNat n) - (a + UInt32.ofNat m)).toNat = n - m := by
  simp only [UInt32.toNat_sub, UInt32.toNat_add, UInt32.toNat_ofNat']
  have := a.toNat_lt
  omega

theorem Holds.fits_lt (h : Holds s Q L) : Q.length + L.length < 2 ^ 32 := by
  have := h.fits
  unfold INPUT_BUF_SIZE at this
  omega

/-- The distances of the counters are the lengths of the lists. -/
theorem Holds.distances (h : Holds s Q L) :
    (s.w - s.r).toNat = Q.length ∧ (s.e - s.w).toNat = L.length ∧
      (s.e - s.r).toNat = Q.length + L.length := by
  have hlt := h.fits_lt
  have hr : s.r = s.r + UInt32.ofNat 0 := (UInt32.add_zero s.r).symm
  refine ⟨?_, ?_, ?_⟩
  · rw [h.w]
    nth_rewrite 2 [hr]
    rw [sub_toNat _ (Nat.zero_le _) (by omega), Nat.sub_zero]
  · rw [h.e, h.w, sub_toNat _ (Nat.le_add_right _ _) hlt, Nat.add_sub_cancel_left]
  · rw [h.e]
    nth_rewrite 2 [hr]
    rw [sub_toNat _ (Nat.zero_le _) hlt, Nat.sub_zero]

theorem Holds.e_eq_w (h : Holds s Q L) : s.e = s.w ↔ L = [] := by
  obtain ⟨-, hl, -⟩ := h.distances
  rw [← List.length_eq_zero_iff, ← hl]
  constructor
  · intro he
    rw [he, UInt32.sub_self]
    rfl
  · intro hz
    have := s.e.toNat_lt
    have := s.w.toNat_lt
    rw [UInt32.toNat_sub] at hz
    rw [← UInt32.toNat_inj]
    omega

theorem Holds.r_eq_w (h : Holds s Q L) : s.r = s.w ↔ Q = [] := by
  obtain ⟨hq, -, -⟩ := h.distances
  rw [← List.length_eq_zero_iff, ← hq]
  constructor
  · intro he
    rw [he, UInt32.sub_self]
    rfl
  · intro hz
    have := s.r.toNat_lt
    have := s.w.toNat_lt
    rw [UInt32.toNat_sub] at hz
    rw [← UInt32.toNat_inj]
    omega

theorem Holds.room (h : Holds s Q L) :
    s.e - s.r < UInt32.ofNat INPUT_BUF_SIZE ↔ Q.length + L.length < INPUT_BUF_SIZE := by
  rw [UInt32.lt_iff_toNat_lt, h.distances.2.2]
  rfl

/-! ### Keystrokes -/

/-- The last byte of the line is dropped. -/
theorem Holds.back {c : UInt8} (h : Holds s Q (L ++ [c])) : Holds { s with e := s.e - 1 } Q L := by
  have hfits := h.fits
  have hbytes := h.bytes
  have hline := h.line
  rw [List.length_append, List.length_singleton] at hfits
  refine ⟨h.w, ?_, by omega, ?_, fun hm ↦ hline (List.mem_append_left _ hm)⟩
  · change s.e - 1 = _
    have hone : s.r + UInt32.ofNat (Q.length + (L ++ [c]).length) =
        s.r + UInt32.ofNat (Q.length + L.length) + 1 := by
      rw [List.length_append, List.length_singleton, ← Nat.add_assoc]
      exact (add_ofNat_add s.r (Q.length + L.length) 1).symm
    rw [h.e, hone, UInt32.add_sub_cancel]
  · rw [List.length_append, List.length_singleton, ← Nat.add_assoc, window_add, window_one,
      ← List.append_assoc] at hbytes
    exact (List.append_inj' hbytes rfl).1

/-- The last byte of the line, before it is dropped. -/
theorem Holds.last {c : UInt8} (h : Holds s Q (L ++ [c])) : s.at (s.e - 1) = c := by
  have hbytes := h.bytes
  have he := h.back.e
  change s.e - 1 = _ at he
  rw [List.length_append, List.length_singleton, ← Nat.add_assoc, window_add, window_one,
    ← List.append_assoc] at hbytes
  rw [he]
  exact List.singleton_inj.mp (List.append_inj' hbytes rfl).2

/-- Control-U removes the whole line, since it has no newline. -/
theorem Holds.killLine {fuel : Nat} (h : Holds s Q L) (hfuel : L.length ≤ fuel) :
    Holds (killLine fuel s) Q [] := by
  induction fuel generalizing s L with
  | zero =>
    have : L = [] := List.length_eq_zero_iff.mp (by omega)
    rw [← this]
    exact h
  | succ fuel ih =>
    rw [Console.killLine]
    rcases List.eq_nil_or_concat L with rfl | ⟨L', c, rfl⟩
    · rw [if_neg (fun hc ↦ hc.1 (h.e_eq_w.mpr rfl))]
      exact h
    · rw [List.concat_eq_append] at h hfuel
      rw [List.length_append, List.length_singleton] at hfuel
      have hne : s.e ≠ s.w := by
        intro he
        have := h.e_eq_w.mp he
        simp at this
      have hlast : s.at (s.e - 1) ≠ newline := by
        rw [h.last]
        rintro rfl
        exact h.line (List.mem_append_right _ (List.mem_singleton_self _))
      rw [if_pos ⟨hne, hlast⟩]
      exact ih h.back (by omega)

/-- A byte is stored at the end of the line. -/
theorem store_bytes (h : Holds s Q L) (hroom : Q.length + L.length < INPUT_BUF_SIZE) (c : UInt8) :
    window (s.store c).buf (s.store c).r (Q.length + (L ++ [c]).length) = Q ++ (L ++ [c]) ∧
      (s.store c).e = s.r + UInt32.ofNat (Q.length + (L ++ [c]).length) := by
  rw [List.length_append, List.length_singleton, ← Nat.add_assoc]
  constructor
  · change window (Function.update s.buf (cell INPUT_BUF_SIZE s.e) c) s.r _ = _
    rw [h.e, window_push size_dvd s.buf s.r hroom, h.bytes, List.append_assoc]
  · change s.e + 1 = _
    rw [h.e]
    exact add_ofNat_add s.r (Q.length + L.length) 1

/-- A line that is complete, or as long as possible, is committed. -/
theorem Holds.type (h : Holds s Q L) (hroom : Q.length + L.length < INPUT_BUF_SIZE) (c : UInt8) :
    let t := s.store c
    let full := c = newline ∨ c = C 'D' ∨ t.e - t.r = UInt32.ofNat INPUT_BUF_SIZE
    Holds (if full then { t with w := t.e } else t) (Line.type c Q L).1 (Line.type c Q L).2 ∧
      (¬ full → (Line.type c Q L).1 = Q) := by
  intro t full
  obtain ⟨hbytes, he⟩ := store_bytes h hroom c
  have hlen : Q.length + (L ++ [c]).length ≤ INPUT_BUF_SIZE := by
    rw [List.length_append, List.length_singleton]
    omega
  have hfull : full ↔ c = newline ∨ c = C 'D' ∨ Q.length + (L ++ [c]).length = INPUT_BUF_SIZE := by
    have hd : (t.e - t.r).toNat = Q.length + (L ++ [c]).length := by
      have hr : t.r = s.r + UInt32.ofNat 0 := (UInt32.add_zero s.r).symm
      rw [he, hr, sub_toNat _ (Nat.zero_le _) (by unfold INPUT_BUF_SIZE at hlen; omega),
        Nat.sub_zero]
    have hsize : t.e - t.r = UInt32.ofNat INPUT_BUF_SIZE ↔
        Q.length + (L ++ [c]).length = INPUT_BUF_SIZE := by
      rw [← UInt32.toNat_inj, hd]
      rfl
    simp only [full, hsize]
  unfold Line.type
  rw [if_pos hroom]
  by_cases hc : full
  · rw [if_pos hc]
    simp only [if_pos (hfull.mp hc)]
    refine ⟨⟨?_, ?_, ?_, ?_, List.not_mem_nil⟩, fun hn ↦ (hn hc).elim⟩
    · change t.e = t.r + _
      rw [List.length_append]
      exact he
    · change t.e = t.r + _
      rw [List.length_append, List.length_nil, Nat.add_zero]
      exact he
    · rw [List.length_append, List.length_nil, Nat.add_zero]
      exact hlen
    · rw [List.length_append, List.length_nil, Nat.add_zero, List.append_nil]
      exact hbytes
  · rw [if_neg hc]
    have hno := mt hfull.mpr hc
    simp only [if_neg hno]
    refine ⟨⟨h.w, he, hlen, hbytes, ?_⟩, fun _ ↦ True.intro⟩
    intro hm
    rcases List.mem_append.mp hm with hm | hm
    · exact h.line hm
    · exact hno (Or.inl (List.mem_singleton.mp hm).symm)

/-- `consoleintr` edits the line as it should, and wakes the readers when it commits. -/
theorem Holds.consoleintr (h : Holds s Q L) (c : UInt8) :
    Holds (consoleintr c s).1 (Line.key c Q L).1 (Line.key c Q L).2 ∧
      ((consoleintr c s).2 = false → (Line.key c Q L).1 = Q) := by
  unfold Console.consoleintr Line.key
  by_cases hp : c = C 'P'
  · have hh : ¬ (c = C 'H' ∨ c = delete) := by
      rw [hp]
      decide
    have hu : ¬ c = C 'U' := by
      rw [hp]
      decide
    rw [if_pos hp, if_neg hh, if_neg hu, if_pos (Or.inl hp)]
    exact ⟨h, fun _ ↦ rfl⟩
  · rw [if_neg hp]
    by_cases hu : c = C 'U'
    · have hh : ¬ (c = C 'H' ∨ c = delete) := by
        rw [hu]
        decide
      rw [if_pos hu, if_neg hh, if_pos hu]
      exact ⟨h.killLine h.distances.2.1.ge, fun _ ↦ rfl⟩
    · rw [if_neg hu]
      by_cases hh : c = C 'H' ∨ c = delete
      · rw [if_pos hh, if_pos hh]
        refine ⟨?_, fun _ ↦ rfl⟩
        rcases List.eq_nil_or_concat L with rfl | ⟨L', ch, rfl⟩
        · rw [if_neg (fun hne ↦ hne (h.e_eq_w.mpr rfl))]
          exact h
        · rw [List.concat_eq_append] at h ⊢
          rw [if_pos (fun he ↦ by have := h.e_eq_w.mp he; simp at this), List.dropLast_concat]
          exact h.back
      · rw [if_neg hh, if_neg hh, if_neg hu]
        by_cases hz : c = 0
        · rw [if_pos (Or.inr hz), if_neg (fun hn ↦ hn.1 hz)]
          exact ⟨h, fun _ ↦ rfl⟩
        · rw [if_neg (not_or.mpr ⟨hp, hz⟩)]
          by_cases hroom : Q.length + L.length < INPUT_BUF_SIZE
          · rw [if_pos ⟨hz, h.room.mpr hroom⟩]
            generalize (if c = carriageReturn then newline else c) = ch
            obtain ⟨hholds, hsame⟩ := h.type hroom ch
            by_cases hfull : ch = newline ∨ ch = C 'D' ∨
                (s.store ch).e - (s.store ch).r = UInt32.ofNat INPUT_BUF_SIZE
            · rw [if_pos hfull] at hholds ⊢
              exact ⟨hholds, fun hw ↦ nomatch hw⟩
            · rw [if_neg hfull] at hholds ⊢
              exact ⟨hholds, fun _ ↦ hsame hfull⟩
          · rw [if_neg (fun hn ↦ hroom (h.room.mp hn.2))]
            unfold Line.type
            rw [if_neg hroom]
            exact ⟨h, fun _ ↦ rfl⟩

/-! ### Readers -/

/-- The first byte of the queue is taken. -/
theorem Holds.take {c : UInt8} (h : Holds s (c :: Q) L) :
    s.at s.r = c ∧ Holds { s with r := s.r + 1 } Q L := by
  have hfits := h.fits
  have hw := h.w
  have he := h.e
  have hbytes := h.bytes
  rw [List.length_cons] at hfits
  have hlen : (c :: Q).length + L.length = 1 + (Q.length + L.length) := by
    rw [List.length_cons]
    omega
  rw [hlen, window_add, window_one, List.singleton_append, List.cons_append] at hbytes
  obtain ⟨hfirst, hrest⟩ := List.cons.inj hbytes
  refine ⟨hfirst, ?_, ?_, by omega, hrest, h.line⟩
  · change s.w = s.r + 1 + _
    rw [hw, List.length_cons, Nat.add_comm]
    exact (add_ofNat_add s.r 1 Q.length).symm
  · change s.e = s.r + 1 + _
    rw [he, hlen]
    exact (add_ofNat_add s.r 1 (Q.length + L.length)).symm

/-- What the loop of `consoleread` leaves of a call. -/
def Call.after (c : Call) : Line.Outcome → Call
  | .wait left got =>
    { c with
      n := left
      out := got
      asleep := !c.killed || c.asleep
      ret := if c.killed then some (-1) else c.ret }
  | .done bytes =>
    { c with n := c.target - bytes.length, out := bytes, ret := some bytes.length }

/-- The loop of `consoleread` serves the call from the queue. -/
theorem readLoop_serve {n : Nat} {c : Call} (h : Holds s Q L) (hn : c.n = n)
    (ht : c.target = n + c.out.length) (hdst : ∀ k, k < c.target → c.dst k = true)
    (hret : c.ret = none) :
    Holds (readLoop n s c).1 (Line.serve n c.out Q).2 L ∧
      (readLoop n s c).2 = c.after (Line.serve n c.out Q).1 := by
  have hfinish (c : Call) (ht : c.target = c.n + c.out.length) :
      c.finish = c.after (.done c.out) := by
    have hleft : c.target - c.out.length = c.n := by omega
    have hcount : (c.target : Int) - c.n = c.out.length := by omega
    simp only [Call.finish, Call.after, hleft, hcount]
  induction n generalizing s c Q with
  | zero => exact ⟨h, hfinish c (by omega)⟩
  | succ n ih =>
    cases Q with
    | nil =>
      rw [readLoop, if_pos (h.r_eq_w.mpr rfl), Line.serve]
      split
      · next hk =>
        refine ⟨h, ?_⟩
        unfold Call.after
        simp [hk, ← hn]
      · next hk =>
        refine ⟨h, ?_⟩
        unfold Call.after
        simp [hk, ← hn]
    | cons ch Q =>
      obtain ⟨hfirst, htake⟩ := h.take
      have hne : ¬ s.r = s.w := fun he ↦ nomatch h.r_eq_w.mp he
      rw [readLoop, if_neg hne, Line.serve]
      simp only [hfirst]
      by_cases hd : ch = C 'D'
      · rw [if_pos hd, if_pos hd]
        refine ⟨?_, hfinish c (by omega)⟩
        by_cases hgot : c.out = []
        · rw [if_pos hgot, if_neg (by rw [hn, ht, hgot, List.length_nil]; omega)]
          exact htake
        · have hpos : 0 < c.out.length := List.length_pos_iff.mpr hgot
          rw [if_neg hgot, if_pos (by omega), UInt32.add_sub_cancel]
          exact h
      · rw [if_neg hd, if_neg hd, hdst _ (by omega), if_neg (by decide)]
        by_cases hnl : ch = newline
        · rw [if_pos hnl, if_pos hnl]
          refine ⟨htake, ?_⟩
          refine (hfinish _ ?_).trans rfl
          change c.target = n + (c.out ++ [ch]).length
          rw [List.length_append, List.length_singleton]
          omega
        · rw [if_neg hnl, if_neg hnl]
          have hsize : c.target = n + (c.out ++ [ch]).length := by
            rw [List.length_append, List.length_singleton]
            omega
          have hnext := ih (c := { c with n := n, out := c.out ++ [ch] }) htake rfl hsize hdst hret
          refine ⟨hnext.1, hnext.2.trans ?_⟩
          generalize (Line.serve n (c.out ++ [ch]) Q).1 = o
          cases o <;> rfl

end

end Xv6.Console
