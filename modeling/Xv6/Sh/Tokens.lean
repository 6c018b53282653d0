import Xv6.Sh.Grammar

/-!
# What `gettoken` and `peek` see

The parser walks the text by offsets. What is left at an offset is a text with its own tokens; one
`gettoken` takes the first of them, and `peek` looks at its first character.
-/

namespace Xv6.Sh

/-- The tokens that are left at `s`. -/
def view (inp : Text) (s : Nat) : List Token := tokens (inp.drop s)

/-- The first character of a token. -/
def Token.first : Token → UInt8
  | .lt => '<'.toUInt8
  | .gt => '>'.toUInt8
  | .gtgt => '>'.toUInt8
  | .bar => '|'.toUInt8
  | .amp => '&'.toUInt8
  | .semi => ';'.toUInt8
  | .lparen => '('.toUInt8
  | .rparen => ')'.toUInt8
  | .word w => w.headD 0

/-- What `gettoken` returns for a token. -/
def Token.code : Token → UInt8
  | .gtgt => '+'.toUInt8
  | .word _ => 'a'.toUInt8
  | t => t.first

/-- The word stands at these offsets, and ends there. -/
structure WordAt (inp : Text) (p : Word) (w : Text) : Prop where
  text : inp.drop p.1 = w ++ inp.drop p.2
  ends : p.2 = p.1 + w.length
  bound : p.2 ≤ inp.length
  chars : ∀ c ∈ w, isWord c = true
  stop : inp.length ≤ p.2 ∨ isWord (charAt inp p.2) = false

/-- Between the two offsets stand these tokens. -/
structure Advances (inp : Text) (s : Nat) (ts : List Token) (s' : Nat) : Prop where
  view : view inp s = ts ++ view inp s'
  le : s ≤ s'
  bound : s' ≤ inp.length

theorem Advances.trans {inp : Text} {s₁ s₂ s₃ : Nat} {ts us : List Token}
    (h₁ : Advances inp s₁ ts s₂) (h₂ : Advances inp s₂ us s₃) : Advances inp s₁ (ts ++ us) s₃ where
  view := by rw [h₁.view, h₂.view, List.append_assoc]
  le := Nat.le_trans h₁.le h₂.le
  bound := h₂.bound

theorem Advances.left {inp : Text} {s s' : Nat} {ts rest : List Token} (h : Advances inp s ts s')
    (hview : Sh.view inp s = ts ++ rest) : Sh.view inp s' = rest :=
  List.append_cancel_left (h.view.symm.trans hview)

section
variable {inp : Text} {s : Nat}

/-! ### Skipping -/

theorem drop_length_takeWhile (p : UInt8 → Bool) (l : Text) :
    l.drop (l.takeWhile p).length = l.dropWhile p := by
  have hsplit : l.takeWhile p ++ l.dropWhile p = l := List.takeWhile_append_dropWhile
  calc l.drop (l.takeWhile p).length
    _ = (l.takeWhile p ++ l.dropWhile p).drop (l.takeWhile p).length := by rw [hsplit]
    _ = l.dropWhile p := List.drop_left

theorem drop_span (p : UInt8 → Bool) : inp.drop (span p inp s) = (inp.drop s).dropWhile p := by
  rw [span, ← List.drop_drop, drop_length_takeWhile]

theorem le_span (p : UInt8 → Bool) : s ≤ span p inp s := Nat.le_add_right _ _

theorem span_le (p : UInt8 → Bool) (hs : s ≤ inp.length) : span p inp s ≤ inp.length := by
  have hle := (List.takeWhile_prefix p (l := inp.drop s)).length_le
  rw [List.length_drop] at hle
  unfold span
  omega

/-- Whatever comes after a run, it does not go on with it. -/
theorem dropWhile_head (p : UInt8 → Bool) {l cs : Text} {c : UInt8} (h : l.dropWhile p = c :: cs) :
    p c = false := by
  have := List.head_dropWhile_not p (l := l) (by rw [h]; exact List.cons_ne_nil _ _)
  simpa [h] using this

theorem tokens_eq (l : Text) : tokens l = match l.dropWhile isSpace with
    | [] => []
    | c :: cs => (firstToken c cs).1 :: tokens (firstToken c cs).2 := by
  rw [tokens]
  split
  · next h => rw [h]
  · next c cs h => rw [h]

theorem tokens_dropWhile (l : Text) : tokens (l.dropWhile isSpace) = tokens l := by
  have hsame : (l.dropWhile isSpace).dropWhile isSpace = l.dropWhile isSpace := by
    cases h : l.dropWhile isSpace with
    | nil => rfl
    | cons c cs => rw [List.dropWhile_cons, dropWhile_head isSpace h]; rfl
  rw [tokens_eq, tokens_eq l, hsame]

theorem view_span : view inp (span isSpace inp s) = view inp s := by
  rw [view, drop_span, tokens_dropWhile]
  rfl

/-! ### Characters -/

/-- A property of bytes that holds for each of them. -/
theorem forall_byte {P : UInt8 → Prop} (h : ∀ i : Fin 256, P (UInt8.ofNat i)) (c : UInt8) :
    P c := by
  have := h ⟨c.toNat, c.toNat_lt⟩
  rwa [UInt8.ofNat_toNat] at this

/-- A character that is neither whitespace nor part of a word is a symbol. -/
theorem symbol_cases : ∀ c : UInt8, isSpace c = false → isWord c = false →
    c = '<'.toUInt8 ∨ c = '>'.toUInt8 ∨ c = '|'.toUInt8 ∨ c = '&'.toUInt8 ∨ c = ';'.toUInt8 ∨
      c = '('.toUInt8 ∨ c = ')'.toUInt8 :=
  forall_byte (by decide +kernel)

/-- No operator starts with a character of a word. -/
theorem not_symbol : ∀ c : UInt8, isWord c = true →
    strchr "|();&<" c = false ∧ strchr ">" c = false ∧ strchr "<>" c = false ∧
      strchr "&" c = false ∧ strchr ";" c = false ∧ strchr "|" c = false ∧ strchr "(" c = false ∧
      strchr ")" c = false ∧ strchr "|)&;" c = false :=
  forall_byte (by decide +kernel)

/-! ### Tokens -/

theorem charAt_eq {c : UInt8} {cs : Text} (h : inp.drop s = c :: cs) : charAt inp s = c := by
  rw [charAt, h]
  rfl

theorem charAt_end (h : inp.drop s = []) : charAt inp s = 0 := by
  rw [charAt, h]
  rfl

theorem drop_succ {c : UInt8} {cs : Text} (h : inp.drop s = c :: cs) :
    inp.drop (s + 1) = cs ∧ s + 1 ≤ inp.length := by
  have hlen := congrArg List.length h
  rw [List.length_drop, List.length_cons] at hlen
  refine ⟨?_, by omega⟩
  rw [← List.drop_drop, h]
  rfl

/-- The first character of what is left is not the end of the text. -/
theorem head_ne_zero (hnul : 0 ∉ inp) {c : UInt8} {cs : Text} (h : inp.drop s = c :: cs) :
    c ≠ 0 := by
  rintro rfl
  apply hnul
  have hmem : (0 : UInt8) ∈ inp.drop s := by
    rw [h]
    exact List.mem_cons_self
  exact List.mem_of_mem_drop hmem

/-- What `scan` finds at the first character of a token. -/
structure Scanned (inp : Text) (s : Nat) (t : Token) (rest : Text) : Prop where
  ret : (scan inp s).1 = t.code
  rest : inp.drop (scan inp s).2 = rest
  lt : s < (scan inp s).2
  le : (scan inp s).2 ≤ inp.length
  word : ∀ w, t = .word w → WordAt inp (s, (scan inp s).2) w

theorem scan_word {c : UInt8} {cs : Text} (h : inp.drop s = c :: cs) (hc : isWord c = true)
    (hzero : c ≠ 0) :
    Scanned inp s (.word (c :: cs.takeWhile isWord)) (cs.dropWhile isWord) := by
  obtain ⟨hsym, hgt, -⟩ := not_symbol c hc
  have hscan : scan inp s = ('a'.toUInt8, span isWord inp s) := by
    simp only [scan, charAt_eq h, hzero, hsym, hgt, if_false, Bool.false_eq_true]
  have htake : (inp.drop s).takeWhile isWord = c :: cs.takeWhile isWord := by
    rw [h, List.takeWhile_cons, if_pos hc]
  have hrest : inp.drop (span isWord inp s) = cs.dropWhile isWord := by
    rw [drop_span, h, List.dropWhile_cons, if_pos hc]
  have hbound : span isWord inp s ≤ inp.length := by
    apply span_le
    have := (drop_succ h).2
    omega
  have hends : span isWord inp s = s + (c :: cs.takeWhile isWord).length := by rw [span, htake]
  refine ⟨?_, ?_, ?_, ?_, ?_⟩
  · rw [hscan]
    rfl
  · rw [hscan]
    exact hrest
  · rw [hscan]
    change s < span isWord inp s
    rw [hends, List.length_cons]
    omega
  · rw [hscan]
    exact hbound
  · intro w hw
    cases hw
    rw [hscan]
    refine ⟨?_, hends, hbound, ?_, ?_⟩
    · change inp.drop s = _ ++ inp.drop (span isWord inp s)
      rw [hrest, h, List.cons_append, List.takeWhile_append_dropWhile]
    · intro ch hch
      rcases List.mem_cons.mp hch with rfl | hch
      · exact hc
      · exact List.mem_takeWhile_imp hch
    · change inp.length ≤ span isWord inp s ∨ isWord (charAt inp (span isWord inp s)) = false
      cases hd : cs.dropWhile isWord with
      | nil => exact Or.inl (List.drop_eq_nil_iff.mp (hrest.trans hd))
      | cons ch cs' =>
        rw [charAt_eq (hrest.trans hd)]
        exact Or.inr (dropWhile_head isWord hd)

/-- A symbol that is a token by itself. -/
theorem scan_one {c : UInt8} {cs : Text} (h : inp.drop s = c :: cs) {t : Token}
    (hscan : scan inp s = (c, s + 1)) (hcode : t.code = c) (hword : ∀ w, t ≠ .word w) :
    Scanned inp s t cs := by
  obtain ⟨hrest, hle⟩ := drop_succ h
  refine ⟨?_, ?_, ?_, ?_, fun w hw ↦ (hword w hw).elim⟩
  · rw [hscan, hcode]
  · rw [hscan]
    exact hrest
  · rw [hscan]
    exact Nat.lt_succ_self s
  · rw [hscan]
    exact hle

theorem scan_symbol {c : UInt8} {cs : Text} (h : inp.drop s = c :: cs)
    (hsym : strchr "|();&<" c = true) (hzero : c ≠ 0) : scan inp s = (c, s + 1) := by
  simp only [scan, charAt_eq h, hzero, hsym, if_false, if_true]

/-- The operators that start with `>`. -/
theorem scan_gt {cs : Text} (h : inp.drop s = '>'.toUInt8 :: cs) :
    Scanned inp s (firstToken '>'.toUInt8 cs).1 (firstToken '>'.toUInt8 cs).2 := by
  obtain ⟨hrest, hle⟩ := drop_succ h
  have hword : isWord '>'.toUInt8 = false := by decide
  have hscan : scan inp s = if strchr ">" (charAt inp (s + 1)) then ('+'.toUInt8, s + 2)
      else ('>'.toUInt8, s + 1) := by
    have hzero : ¬ '>'.toUInt8 = 0 := by decide
    have hsym : ¬ strchr "|();&<" '>'.toUInt8 = true := by decide
    have hgt : strchr ">" '>'.toUInt8 = true := by decide
    rw [scan, charAt_eq h, if_neg hzero, if_neg hsym, if_pos hgt]
  have hstrchr (c : UInt8) : strchr ">" c = true ↔ c = '>'.toUInt8 := by
    change [('>'.toUInt8)].contains c = true ↔ _
    simp
  unfold firstToken
  rw [if_neg (by rw [hword]; decide)]
  cases cs with
  | nil =>
    rw [charAt_end hrest, if_neg (by decide)] at hscan
    rw [if_neg (fun hh ↦ nomatch hh.2)]
    exact scan_one h hscan rfl (fun _ hw ↦ nomatch hw)
  | cons c cs =>
    rw [charAt_eq hrest] at hscan
    by_cases hc : c = '>'.toUInt8
    · obtain ⟨hrest', hle'⟩ := drop_succ hrest
      rw [if_pos ((hstrchr c).mpr hc)] at hscan
      rw [if_pos ⟨rfl, by rw [hc]; rfl⟩]
      refine ⟨?_, ?_, ?_, ?_, fun w hw ↦ nomatch hw⟩
      · rw [hscan]
        rfl
      · rw [hscan]
        exact hrest'
      · rw [hscan]
        change s < s + 2
        omega
      · rw [hscan]
        exact hle'
    · rw [if_neg (mt (hstrchr c).mp hc)] at hscan
      rw [if_neg (fun hh ↦ hc (Option.some.inj hh.2))]
      exact scan_one h hscan rfl (fun _ hw ↦ nomatch hw)

/-- `scan` finds the first token. -/
theorem scan_spec {c : UInt8} {cs : Text} (h : inp.drop s = c :: cs) (hspace : isSpace c = false)
    (hzero : c ≠ 0) : Scanned inp s (firstToken c cs).1 (firstToken c cs).2 := by
  by_cases hword : isWord c = true
  · rw [firstToken, if_pos hword]
    exact scan_word h hword hzero
  · by_cases hgt : c = '>'.toUInt8
    · subst hgt
      exact scan_gt h
    · have hfirst : firstToken c cs = (symbolToken c, cs) := by
        rw [firstToken, if_neg hword, if_neg (fun hh ↦ hgt hh.1)]
      have hone {t : Token} (hcode : t.code = c) (hw : ∀ w, t ≠ .word w)
          (hsym : strchr "|();&<" c = true) : Scanned inp s t cs :=
        scan_one h (scan_symbol h hsym hzero) hcode hw
      rw [hfirst]
      rcases symbol_cases c hspace (Bool.eq_false_iff.mpr hword) with
        rfl | rfl | rfl | rfl | rfl | rfl | rfl
      · exact hone rfl (fun _ hw ↦ nomatch hw) (by decide)
      · exact (hgt rfl).elim
      · exact hone rfl (fun _ hw ↦ nomatch hw) (by decide)
      · exact hone rfl (fun _ hw ↦ nomatch hw) (by decide)
      · exact hone rfl (fun _ hw ↦ nomatch hw) (by decide)
      · exact hone rfl (fun _ hw ↦ nomatch hw) (by decide)
      · exact hone rfl (fun _ hw ↦ nomatch hw) (by decide)

/-- `gettoken` takes the first token that is left. -/
theorem gettoken_cons (hnul : 0 ∉ inp) {t : Token} {ts : List Token}
    (hview : view inp s = t :: ts) :
    (gettoken inp s).ret = t.code ∧ Advances inp s [t] (gettoken inp s).next ∧
      s < (gettoken inp s).next ∧ ∀ w, t = .word w → WordAt inp (gettoken inp s).word w := by
  have hge : s ≤ span isSpace inp s := le_span isSpace
  have hfirst := hview
  rw [view, tokens_eq] at hfirst
  split at hfirst
  · cases hfirst
  · next c cs hdrop =>
    cases hfirst
    have hspace := dropWhile_head isSpace hdrop
    rw [← drop_span] at hdrop
    have hscan := scan_spec hdrop hspace (head_ne_zero hnul hdrop)
    have hnext : (scan inp (span isSpace inp s)).2 ≤ (gettoken inp s).next := le_span isSpace
    have hlt : s < (gettoken inp s).next :=
      Nat.lt_of_le_of_lt hge (Nat.lt_of_lt_of_le hscan.lt hnext)
    refine ⟨hscan.ret, ⟨?_, Nat.le_of_lt hlt, span_le isSpace hscan.le⟩, hlt, hscan.word⟩
    change _ = [_] ++ view inp (span isSpace inp (scan inp (span isSpace inp s)).2)
    rw [hview, view_span, view, hscan.rest]
    rfl

/-- At the end there is no token. -/
theorem gettoken_nil (hs : s ≤ inp.length) (hview : view inp s = []) :
    (gettoken inp s).ret = 0 ∧ Advances inp s [] (gettoken inp s).next := by
  have hdrop : inp.drop (span isSpace inp s) = [] := by
    rw [view, tokens_eq] at hview
    split at hview
    · next h => rw [drop_span, h]
    · cases hview
  have hscan : scan inp (span isSpace inp s) = (0, span isSpace inp s) := by
    rw [scan, charAt_end hdrop]
    rfl
  have hnext : (gettoken inp s).next = span isSpace inp (span isSpace inp s) := by
    rw [gettoken, hscan]
  refine ⟨by rw [gettoken, hscan], ?_, ?_, ?_⟩
  · rw [hnext, view_span, view_span, List.nil_append]
  · rw [hnext]
    exact Nat.le_trans (le_span isSpace) (le_span isSpace)
  · rw [hnext]
    exact span_le isSpace (span_le isSpace hs)

/-- Only words have the code of a word. -/
theorem code_word {t : Token} (h : t.code = 'a'.toUInt8) : ∃ w, t = .word w := by
  cases t with
  | word w => exact ⟨w, rfl⟩
  | _ => exact absurd h (by decide)

/-- No token has the code of the end. -/
theorem code_ne_zero (t : Token) : t.code ≠ 0 := by
  cases t with
  | word w => exact fun h ↦ absurd h (show ¬ 'a'.toUInt8 = 0 by decide)
  | _ => decide

/-- When `gettoken` answers that it is at a word, it is. -/
theorem gettoken_word (hnul : 0 ∉ inp) (hs : s ≤ inp.length)
    (hret : (gettoken inp s).ret = 'a'.toUInt8) :
    ∃ w, Advances inp s [.word w] (gettoken inp s).next ∧ s < (gettoken inp s).next ∧
      WordAt inp (gettoken inp s).word w := by
  cases hview : view inp s with
  | nil =>
    rw [(gettoken_nil hs hview).1] at hret
    exact absurd hret (by decide)
  | cons t ts =>
    obtain ⟨hcode, hadv, hlt, hword⟩ := gettoken_cons hnul hview
    obtain ⟨w, rfl⟩ := code_word (hcode.symm.trans hret)
    exact ⟨w, hadv, hlt, hword w rfl⟩

/-- When `gettoken` answers that it is at the end, it is. -/
theorem gettoken_end (hnul : 0 ∉ inp) (hret : (gettoken inp s).ret = 0) : view inp s = [] := by
  cases hview : view inp s with
  | nil => rfl
  | cons t ts => exact (code_ne_zero t ((gettoken_cons hnul hview).1.symm.trans hret)).elim

/-! ### Peeking -/

/-- The token is an operator that starts with one of these characters. -/
def Token.starts (toks : String) : Token → Bool
  | .word _ => false
  | t => strchr toks t.first

/-- What `peek` answers when these tokens are left. -/
def peeks (toks : String) : List Token → Bool
  | [] => false
  | t :: _ => t.starts toks

theorem starts_firstToken {toks : String} {c : UInt8} {cs : Text} (hspace : isSpace c = false)
    (hword : isWord c = true → strchr toks c = false) :
    (firstToken c cs).1.starts toks = strchr toks c := by
  by_cases hc : isWord c = true
  · rw [firstToken, if_pos hc, hword hc]
    rfl
  · rw [firstToken, if_neg hc]
    split
    · next hgt =>
      rw [hgt.1]
      rfl
    · rcases symbol_cases c hspace (Bool.eq_false_iff.mpr hc) with
        rfl | rfl | rfl | rfl | rfl | rfl | rfl <;> rfl

/-- `peek` skips whitespace and looks at the first token. -/
theorem peek_spec (hnul : 0 ∉ inp) (hs : s ≤ inp.length) {toks : String}
    (hword : ∀ c, isWord c = true → strchr toks c = false) :
    ∃ s', peek inp s toks = (peeks toks (view inp s), s') ∧ Advances inp s [] s' := by
  refine ⟨span isSpace inp s, ?_, view_span.symm, le_span isSpace, span_le isSpace hs⟩
  have hdrop : inp.drop (span isSpace inp s) = (inp.drop s).dropWhile isSpace := drop_span isSpace
  rw [view, tokens_eq, peek]
  split
  · next h =>
    rw [h] at hdrop
    rw [charAt_end hdrop]
    rfl
  · next c cs h =>
    rw [h] at hdrop
    have hzero := head_ne_zero hnul hdrop
    rw [charAt_eq hdrop, peeks, starts_firstToken (dropWhile_head isSpace h) (hword c)]
    simp [hzero]

/-- The operators that `peek` looks for. -/
theorem starts_operator (t : Token) :
    (t.starts "<>" = true → t = .lt ∨ t = .gt ∨ t = .gtgt) ∧ (t.starts "&" = true → t = .amp) ∧
      (t.starts ";" = true → t = .semi) ∧ (t.starts "|" = true → t = .bar) ∧
      (t.starts "(" = true → t = .lparen) ∧ (t.starts ")" = true → t = .rparen) := by
  cases t with
  | word w => exact ⟨nofun, nofun, nofun, nofun, nofun, nofun⟩
  | _ => decide

theorem peeks_cons {toks : String} {ts : List Token} (h : peeks toks ts = true) :
    ∃ t us, ts = t :: us ∧ t.starts toks = true := by
  cases ts with
  | nil => cases h
  | cons t us => exact ⟨t, us, rfl, h⟩

theorem peeks_operator {toks : String} {op : Token}
    (hop : ∀ t : Token, t.starts toks = true → t = op) {ts : List Token}
    (h : peeks toks ts = true) : ∃ us, ts = op :: us := by
  obtain ⟨t, us, rfl, ht⟩ := peeks_cons h
  exact ⟨us, by rw [hop t ht]⟩

end

end Xv6.Sh
