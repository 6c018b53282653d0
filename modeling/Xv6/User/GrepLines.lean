import Xv6.Lib.Lines
import Xv6.User.Grep

/-!
# The output of `grep`

However `read` chops the input, `grep` writes the lines that match. Between two calls of `read` the
buffer starts with the last line of what was read so far.
-/

namespace Xv6.Grep

open Xv6.Lib

/-- The text stands in memory at `p`. -/
def At (mem : Memory) (p : Nat) (text : Text) : Prop := ∀ i x, text[i]? = some x → mem (p + i) = x

/-- What `grep` is to write for a text: the lines that match, each with its newline. -/
def written (pattern text : Text) : List Text :=
  ((lines newline text).filter (fun l ↦ matchText pattern l)).map (· ++ [newline])

/-- The lines fit in the buffer, each with its newline. -/
structure Short (text : Text) : Prop where
  lines : ∀ l ∈ lines newline text, l.length + 1 ≤ BUFSZ - 1
  last : (lastLine newline text).length ≤ BUFSZ - 1

section
variable {mem mem' : Memory} {p n : Nat} {l s t : Text} {c : UInt8}

/-! ### Texts in memory -/

theorem At.congr (h : At mem p t) (hsame : ∀ a, p ≤ a → a < p + t.length → mem' a = mem a) :
    At mem' p t := by
  intro i x hx
  have hi : i < t.length := (List.getElem?_eq_some_iff.mp hx).1
  rw [hsame (p + i) (by omega) (by omega)]
  exact h i x hx

theorem at_append : At mem p (s ++ t) ↔ At mem p s ∧ At mem (p + s.length) t := by
  constructor
  · intro h
    refine ⟨?_, ?_⟩
    · intro i x hx
      apply h
      rw [List.getElem?_append_left (List.getElem?_eq_some_iff.mp hx).1]
      exact hx
    · intro i x hx
      rw [Nat.add_assoc]
      apply h
      rw [List.getElem?_append_right (Nat.le_add_right _ _), Nat.add_sub_cancel_left]
      exact hx
  · rintro ⟨hs, ht⟩ i x hx
    by_cases hi : i < s.length
    · rw [List.getElem?_append_left hi] at hx
      exact hs i x hx
    · rw [List.getElem?_append_right (by omega)] at hx
      have h := ht (i - s.length) x hx
      rwa [show p + s.length + (i - s.length) = p + i by omega] at h

theorem at_cons : At mem p (c :: t) ↔ mem p = c ∧ At mem (p + 1) t := by
  constructor
  · intro h
    refine ⟨h 0 c rfl, ?_⟩
    intro i x hx
    rw [Nat.add_assoc, Nat.add_comm 1 i]
    exact h (i + 1) x hx
  · rintro ⟨hc, ht⟩ i x hx
    cases i with
    | zero =>
      cases hx
      exact hc
    | succ i =>
      have h := ht i x hx
      rwa [Nat.add_assoc, Nat.add_comm 1 i] at h

theorem bytes_of_at (h : At mem p t) : bytes mem p t.length = t := by
  apply List.ext_getElem?
  intro i
  rw [bytes, List.getElem?_map]
  by_cases hi : i < t.length
  · rw [List.getElem?_range hi, List.getElem?_eq_getElem hi]
    exact congrArg some (h i _ (List.getElem?_eq_getElem hi))
  · rw [List.getElem?_eq_none (by rw [List.length_range]; omega), List.getElem?_eq_none (by omega)]
    rfl

theorem at_store (h : At mem p s) : At (store mem (p + s.length) t) p (s ++ t) := by
  rw [at_append]
  refine ⟨?_, ?_⟩
  · apply h.congr
    intro a _ ha
    exact if_neg (by omega)
  · intro i x hx
    rw [store, if_pos (Nat.le_add_right _ _), Nat.add_sub_cancel_left, hx]
    rfl

/-- `strchr` finds the first `c`. -/
theorem strchr_found (h : At mem p (l ++ c :: t)) (hnul : 0 ∉ l) (hc : c ∉ l) (hzero : c ≠ 0)
    (hfuel : l.length < n) : strchr mem c n p = some (p + l.length) := by
  induction l generalizing p n with
  | nil =>
    cases n with
    | zero => cases hfuel
    | succ n =>
      have hp : mem p = c := h 0 c rfl
      rw [strchr, hp, if_neg hzero, if_pos rfl]
      rfl
  | cons x l ih =>
    cases n with
    | zero => cases hfuel
    | succ n =>
      obtain ⟨hp, hl⟩ := at_cons.mp h
      rw [List.mem_cons, not_or] at hnul hc
      rw [strchr, hp, if_neg (Ne.symm hnul.1), if_neg (Ne.symm hc.1),
        ih hl hnul.2 hc.2 (Nat.lt_of_succ_lt_succ hfuel), List.length_cons, Nat.add_assoc,
        Nat.add_comm 1 l.length]

/-- `strchr` ends at the NUL. -/
theorem strchr_none (h : At mem p (l ++ [0])) (hnul : 0 ∉ l) (hc : c ∉ l) :
    strchr mem c n p = none := by
  induction l generalizing p n with
  | nil =>
    cases n with
    | zero => rfl
    | succ n =>
      have hp : mem p = 0 := h 0 0 rfl
      rw [strchr, if_pos hp]
  | cons x l ih =>
    cases n with
    | zero => rfl
    | succ n =>
      obtain ⟨hp, hl⟩ := at_cons.mp h
      rw [List.mem_cons, not_or] at hnul hc
      rw [strchr, hp, if_neg (Ne.symm hnul.1), if_neg (Ne.symm hc.1), ih hl hnul.2 hc.2]

theorem cstring_of_at (h : At mem p (l ++ [0])) (hnul : 0 ∉ l) (hfuel : l.length < n) :
    cstring mem n p = l := by
  induction l generalizing p n with
  | nil =>
    cases n with
    | zero => rfl
    | succ n =>
      have hp : mem p = 0 := h 0 0 rfl
      rw [cstring, if_pos hp]
  | cons x l ih =>
    cases n with
    | zero => cases hfuel
    | succ n =>
      obtain ⟨hp, hl⟩ := at_cons.mp h
      rw [List.mem_cons, not_or] at hnul
      rw [cstring, hp, if_neg (Ne.symm hnul.1), ih hl hnul.2 (Nat.lt_of_succ_lt_succ hfuel)]

end

section
variable {pattern text : Text} {p : Nat} {mem : Memory}

/-! ### The lines in the buffer -/

theorem written_of_not_mem {l : Text} (h : newline ∉ l) : written pattern l = [] := by
  rw [written, lines_of_not_mem h]
  rfl

theorem written_append (s t : Text) :
    written pattern (s ++ t) = written pattern s ++ written pattern (lastLine newline s ++ t) := by
  rw [written, lines_append, List.filter_append, List.map_append]
  rfl

theorem length_lastLine_le (text : Text) : (lastLine newline text).length ≤ text.length := by
  obtain ⟨s, hs⟩ := lastLine_suffix newline text
  have hlen := congrArg List.length hs
  rw [List.length_append] at hlen
  omega

/-- The loop over the buffer writes the lines in it that match, and leaves the last line alone. -/
theorem grepLines_spec (pattern : Text) (buf : Nat) (htext : At mem p (text ++ [0]))
    (hnul : 0 ∉ text) (hroom : p + text.length < buf + BUFSZ) :
    ∃ mem', grepLines pattern buf p mem =
        (written pattern text, p + (text.length - (lastLine newline text).length), mem') ∧
      ∀ a, p + (text.length - (lastLine newline text).length) ≤ a → mem' a = mem a := by
  induction text using lines_induction newline generalizing p mem with
  | hlast l h =>
    refine ⟨mem, ?_, fun _ _ ↦ rfl⟩
    rw [grepLines, strchr_none htext hnul h, written_of_not_mem h, lastLine_of_not_mem h,
      Nat.sub_self]
    rfl
  | hline l t h ih =>
    rw [List.append_assoc, List.cons_append] at htext
    rw [List.mem_append, not_or, List.mem_cons, not_or] at hnul
    rw [List.length_append, List.length_cons] at hroom
    obtain ⟨hl, hrest⟩ := at_append.mp htext
    obtain ⟨hq, ht⟩ := at_cons.mp hrest
    have hlen : p + (l.length + (t.length + 1) - (lastLine newline t).length) =
        p + l.length + 1 + (t.length - (lastLine newline t).length) := by
      have := length_lastLine_le t
      omega
    -- the rest of the buffer is the same whether the newline is put back or not
    have hgo (mem₁ : Memory) (hsame : ∀ a, p + l.length < a → mem₁ a = mem a) :
        ∃ mem', grepLines pattern buf (p + l.length + 1) mem₁ = (written pattern t,
            p + (l.length + (t.length + 1) - (lastLine newline t).length), mem') ∧
          ∀ a, p + (l.length + (t.length + 1) - (lastLine newline t).length) ≤ a →
          mem' a = mem a := by
      obtain ⟨mem', heq, hkeep⟩ :=
        ih (ht.congr (fun a ha _ ↦ hsame a (by omega))) hnul.2.2 (by omega)
      rw [hlen]
      refine ⟨mem', heq, ?_⟩
      intro a ha
      rw [hkeep a ha, hsame a (by omega)]
    have hcut : At (Function.update mem (p + l.length) 0) p (l ++ [0]) := by
      refine at_append.mpr ⟨?_, at_cons.mpr ⟨Function.update_self _ _ _, fun _ _ hx ↦ nomatch hx⟩⟩
      apply hl.congr
      intro a _ ha
      exact Function.update_of_ne (by omega) _ _
    rw [grepLines, strchr_found htext hnul.1 h (by decide) (by omega)]
    dsimp only
    rw [cstring_of_at hcut hnul.1 (by omega), written, lines_cons h, lastLine_cons h,
      List.length_append, List.length_cons]
    by_cases hmatch : matchText pattern l = true
    · rw [if_pos hmatch, List.filter_cons_of_pos hmatch, List.map_cons]
      obtain ⟨mem', heq, hkeep⟩ := hgo
        (Function.update (Function.update mem (p + l.length) 0) (p + l.length) newline)
        (fun a ha ↦ by rw [Function.update_of_ne (by omega), Function.update_of_ne (by omega)])
      rw [heq]
      refine ⟨mem', ?_, hkeep⟩
      have hline :
          At (Function.update (Function.update mem (p + l.length) 0) (p + l.length) newline) p
          (l ++ [newline]) := by
        rw [Function.update_idem, ← hq, Function.update_eq_self, hq]
        exact at_append.mpr ⟨hl, at_cons.mpr ⟨hq, fun _ _ hx ↦ nomatch hx⟩⟩
      have hbytes := bytes_of_at hline
      rw [List.length_append] at hbytes
      rw [show p + l.length + 1 - p = l.length + [newline].length by
        rw [List.length_singleton]; omega, hbytes]
      rfl
    · rw [if_neg hmatch, List.filter_cons_of_neg hmatch]
      exact hgo _ (fun a ha ↦ Function.update_of_ne (by omega) _ _)

end

/-! ### Reading -/

section
variable {pattern carry input : Text} {buf m : Nat} {mem : Memory}

theorem Short.append {s t : Text} (h : Short (s ++ t)) : Short (lastLine newline s ++ t) := by
  refine ⟨?_, ?_⟩
  · intro l hl
    apply h.lines l
    rw [lines_append]
    exact List.mem_append_right _ hl
  · rw [← lastLine_append]
    exact h.last

/-- While there is input, the line that has begun leaves room in the buffer. -/
theorem Short.room (h : Short (carry ++ input)) (hcarry : newline ∉ carry) (hinput : input ≠ []) :
    carry.length + 1 < BUFSZ := by
  have hpos : 0 < input.length := List.length_pos_iff.mpr hinput
  by_cases hmem : newline ∈ input
  · obtain ⟨l, t, rfl, hl⟩ := List.eq_append_cons_of_mem hmem
    have hline : newline ∉ carry ++ l := by
      rw [List.mem_append, not_or]
      exact ⟨hcarry, hl⟩
    rw [← List.append_assoc] at h
    have hshort := h.lines (carry ++ l) (by rw [lines_cons hline]; exact List.mem_cons_self)
    rw [List.length_append] at hshort
    unfold BUFSZ at *
    omega
  · have hline : newline ∉ carry ++ input := by
      rw [List.mem_append, not_or]
      exact ⟨hcarry, hmem⟩
    have hshort := h.last
    rw [lastLine_of_not_mem hline, List.length_append] at hshort
    unfold BUFSZ at *
    omega

theorem length_read {want k : Nat} (hwant : 0 < want) (hinput : input ≠ []) :
    0 < (read input want k).length ∧ (read input want k).length ≤ want := by
  have hpos : 0 < input.length := List.length_pos_iff.mpr hinput
  rw [read, List.length_take]
  omega

theorem read_append_drop (input : Text) (want k : Nat) :
    read input want k ++ input.drop (read input want k).length = input := by
  have hprefix : read input want k <+: input := List.take_prefix _ input
  obtain ⟨t, ht⟩ := hprefix
  generalize read input want k = piece at ht ⊢
  rw [← ht, List.drop_left]

/-- The loop of `grep`, with the beginning of a line in the buffer. -/
theorem grepLoop_spec (hbuf : buf + BUFSZ ≤ 2 ^ 64) (chop : Nat → Nat) (i : Nat)
    (hcarry : At mem buf carry) (hline : newline ∉ carry) (hnul : 0 ∉ carry ++ input)
    (hshort : Short (carry ++ input)) :
    grepLoop pattern buf chop i input carry.length mem = written pattern (carry ++ input) := by
  induction hlen : input.length using Nat.strongRecOn generalizing i input carry mem with
  | ind n ih =>
    rw [grepLoop]
    dsimp only
    by_cases hinput : input = []
    · have hnone : ¬ 0 < (read input (BUFSZ - carry.length - 1) (chop i)).length := by
        rw [hinput, read, List.take_nil]
        exact Nat.lt_irrefl 0
      rw [dif_neg hnone, hinput, List.append_nil, written_of_not_mem hline]
    · have hroom := hshort.room hline hinput
      obtain ⟨hpos, hle⟩ :=
        length_read (k := chop i) (show 0 < BUFSZ - carry.length - 1 by omega) hinput
      have hsplit := read_append_drop input (BUFSZ - carry.length - 1) (chop i)
      generalize read input (BUFSZ - carry.length - 1) (chop i) = piece at hpos hle hsplit ⊢
      generalize hrest : input.drop piece.length = rest at hsplit ⊢
      have hall : carry ++ input = (carry ++ piece) ++ rest := by rw [List.append_assoc, hsplit]
      rw [hall] at hnul hshort ⊢
      rw [List.mem_append, not_or] at hnul
      have hlast := length_lastLine_le (carry ++ piece)
      -- the buffer holds the line that has begun and the piece, with a NUL
      have htext : At (Function.update (store mem (buf + carry.length) piece)
          (buf + (carry.length + piece.length)) 0) buf ((carry ++ piece) ++ [0]) := by
        rw [at_append, List.length_append]
        refine ⟨?_, at_cons.mpr ⟨Function.update_self _ _ _, (by intro _ _ hx; cases hx)⟩⟩
        apply (at_store hcarry).congr
        intro a _ ha
        rw [List.length_append] at ha
        exact Function.update_of_ne (by omega) _ _
      obtain ⟨mem', heq, hkeep⟩ := grepLines_spec pattern buf htext hnul.1
        (by rw [List.length_append]; omega)
      rw [dif_pos hpos, heq]
      dsimp only
      rw [if_pos (by omega), List.length_append]
      rw [List.length_append] at hkeep hlast
      have hm : carry.length + piece.length -
          (buf + (carry.length + piece.length - (lastLine newline (carry ++ piece)).length) - buf) =
          (lastLine newline (carry ++ piece)).length := by omega
      rw [hm, Ulib.memmove_eq (by omega) (by omega)]
      -- the last line is moved to the start of the buffer
      have hmoved : At (copied mem' buf
          (buf + (carry.length + piece.length - (lastLine newline (carry ++ piece)).length))
          (lastLine newline (carry ++ piece)).length) buf (lastLine newline (carry ++ piece)) := by
        obtain ⟨s, hs⟩ := lastLine_suffix newline (carry ++ piece)
        have hslen := congrArg List.length hs
        rw [List.length_append, List.length_append] at hslen
        obtain ⟨htail, -⟩ := at_append.mp htext
        rw [hs, at_append] at htail
        intro j x hx
        have hj : j < (lastLine newline (carry ++ piece)).length :=
          (List.getElem?_eq_some_iff.mp hx).1
        rw [copied, if_pos (by omega), Nat.add_sub_cancel_left, hkeep _ (by omega)]
        have hend := htail.2 j x hx
        rwa [show s.length =
          carry.length + piece.length - (lastLine newline (carry ++ piece)).length by
          omega] at hend
      have hnul' : 0 ∉ lastLine newline (carry ++ piece) ++ rest := by
        obtain ⟨s, hs⟩ := lastLine_suffix newline (carry ++ piece)
        rw [List.mem_append, not_or]
        refine ⟨?_, hnul.2⟩
        intro hmem
        apply hnul.1
        rw [hs]
        exact List.mem_append_right s hmem
      have hless : rest.length < n := by
        rw [← hrest, List.length_drop, ← hlen]
        have := List.length_pos_iff.mpr hinput
        omega
      rw [ih rest.length hless (i + 1) hmoved (not_mem_lastLine newline _) hnul' hshort.append rfl,
        ← written_append]

/-- However `read` chops the input, `grep` writes the lines that match, complete and in order. -/
theorem grep_writes_matches (pattern : Text) (hbuf : buf + BUFSZ ≤ 2 ^ 64) (mem : Memory)
    (hnul : 0 ∉ input) (hshort : Short input) (chop : Nat → Nat) :
    grep pattern buf chop input mem = written pattern input :=
  grepLoop_spec hbuf chop 0 (show At mem buf [] from fun _ _ hx ↦ nomatch hx) List.not_mem_nil hnul
    hshort

end

/-- Two lines of input, of which `read` returns at most two bytes at a time. -/
theorem grep_writes_matches_two :
    grep [97] 4096 (fun _ ↦ 1) [97, 98, 10, 98, 10] (fun _ ↦ 1) =
      written [97] [97, 98, 10, 98, 10] :=
  grep_writes_matches [97] (by decide) (fun _ ↦ 1) (by decide) ⟨by decide, by decide⟩ (fun _ ↦ 1)

end Xv6.Grep
