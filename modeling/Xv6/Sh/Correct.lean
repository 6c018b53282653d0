import Xv6.Sh.Complete

/-!
# The shell parser accepts exactly its grammar

`parsecmd` on every string: it ends, it returns a command exactly when the tokens of the string
derive from `line`, and the command is the tree of the derivation. The words of the command are read
as `exec` and `open` read them, up to the NUL that `nulterminate` writes.
-/

namespace Xv6.Sh

open Lib

/-- Each word replaced. -/
def Cmd.map {V W : Type} (f : V → W) : Cmd V → Cmd W
  | .exec argv => .exec (argv.map f)
  | .redir cmd file mode fd => .redir (cmd.map f) (f file) mode fd
  | .pipe left right => .pipe (left.map f) (right.map f)
  | .list left right => .list (left.map f) (right.map f)
  | .back cmd => .back (cmd.map f)

/-- The words, in the order in which `nulterminate` visits them. -/
def Cmd.words {W : Type} : Cmd W → List W
  | .exec argv => argv
  | .redir cmd file _ _ => cmd.words ++ [file]
  | .pipe left right => left.words ++ right.words
  | .list left right => left.words ++ right.words
  | .back cmd => cmd.words

/-- The string at `q`. -/
def cstring (buf : List UInt8) (q : Nat) : Text := (buf.drop q).takeWhile (· ≠ 0)

/-- The command as the shell uses it: every `char *` is the string it points to. -/
def Cmd.strings (cmd : Cmd Word) (buf : List UInt8) : Cmd Text := cmd.map fun w ↦ cstring buf w.1

/-- Calls in which every string is parsed. -/
def steps (inp : Text) : Nat := depth inp .line 0

/-! ### The words in the buffer -/

theorem nulterminate_eq (cmd : Cmd Word) (buf : List UInt8) :
    nulterminate cmd buf = cmd.words.foldl (fun buf w ↦ buf.set w.2 0) buf := by
  induction cmd generalizing buf with
  | exec argv => rfl
  | redir cmd file mode fd ih =>
    rw [nulterminate, ih, Cmd.words, List.foldl_append]
    rfl
  | pipe left right ihl ihr => rw [nulterminate, ihl, ihr, Cmd.words, List.foldl_append]
  | list left right ihl ihr => rw [nulterminate, ihl, ihr, Cmd.words, List.foldl_append]
  | back cmd ih => exact ih buf

theorem getElem?_zeroed (ws : List Word) (buf : List UInt8) (i : Nat) :
    (ws.foldl (fun buf w ↦ buf.set w.2 0) buf)[i]? =
      if i ∈ ws.map Prod.snd then buf[i]?.map (fun _ ↦ 0) else buf[i]? := by
  induction ws generalizing buf with
  | nil => rfl
  | cons w ws ih =>
    rw [List.foldl_cons, ih, List.map_cons, List.getElem?_set]
    by_cases hw : w.2 = i
    · subst hw
      rw [if_pos rfl, if_pos List.mem_cons_self]
      by_cases hlt : w.2 < buf.length
      · rw [if_pos hlt, List.getElem?_eq_getElem hlt]
        split <;> rfl
      · rw [if_neg hlt, List.getElem?_eq_none (Nat.le_of_not_lt hlt)]
        split <;> rfl
    · rw [if_neg hw]
      have hmem : i ∈ w.2 :: ws.map Prod.snd ↔ i ∈ ws.map Prod.snd := by
        rw [List.mem_cons]
        exact or_iff_right (Ne.symm hw)
      simp only [hmem]

section
variable {inp : Text}

theorem Reads.wordAt {cmd : Cmd Word} {c : Cmd Text} (h : Reads inp cmd c) :
    ∀ p ∈ cmd.words, ∃ w, WordAt inp p w := by
  induction h with
  | @exec argv ws hall =>
    intro p hp
    induction hall with
    | nil => cases hp
    | cons hw _ ih =>
      cases hp with
      | head => exact ⟨_, hw⟩
      | tail _ hp => exact ih hp
  | redir _ hw ih =>
    intro p hp
    rcases List.mem_append.mp hp with hp | hp
    · exact ih p hp
    · rw [List.mem_singleton.mp hp]
      exact ⟨_, hw⟩
  | pipe _ _ ihl ihr => exact fun p hp ↦ (List.mem_append.mp hp).elim (ihl p) (ihr p)
  | list _ _ ihl ihr => exact fun p hp ↦ (List.mem_append.mp hp).elim (ihl p) (ihr p)
  | back _ ih => exact ih

theorem WordAt.getElem? {p : Word} {w : Text} (h : WordAt inp p w) {i : Nat} (hi : i < w.length) :
    inp[p.1 + i]? = w[i]? := by
  rw [← List.getElem?_drop, h.text, List.getElem?_append_left hi]

/-- No word ends inside another one. -/
theorem WordAt.not_inside {p q : Word} {v w : Text} (hp : WordAt inp p v) (hq : WordAt inp q w)
    {i : Nat} (hi : i < w.length) : p.2 ≠ q.1 + i := by
  intro heq
  have hlt : q.1 + i < q.2 := by
    rw [hq.ends]
    omega
  have hbound := hq.bound
  rcases hp.stop with hend | hstop
  · omega
  · have hchar : charAt inp (q.1 + i) = w[i] := by
      have hget := hq.getElem? hi
      rw [List.getElem?_eq_getElem hi] at hget
      rw [charAt, List.headD_eq_head?_getD, List.head?_drop, hget]
      rfl
    rw [heq, hchar, hq.chars _ (List.getElem_mem hi)] at hstop
    cases hstop

/-- After `nulterminate` every word of the command is a string of its own. -/
theorem cstring_nulterminate (hnul : 0 ∉ inp) {cmd : Cmd Word}
    (hwords : ∀ p ∈ cmd.words, ∃ w, WordAt inp p w) {q : Word} {w : Text} (hq : q ∈ cmd.words)
    (hw : WordAt inp q w) : cstring (nulterminate cmd (inp ++ [0])) q.1 = w := by
  rw [nulterminate_eq]
  generalize hbuf : cmd.words.foldl (fun buf w ↦ buf.set w.2 0) (inp ++ [0]) = buf
  have hget (i : Nat) : buf[i]? = if i ∈ cmd.words.map Prod.snd then
      (inp ++ [0])[i]?.map (fun _ ↦ 0) else (inp ++ [0])[i]? := by
    rw [← hbuf]
    exact getElem?_zeroed cmd.words (inp ++ [0]) i
  have hlen : w.length ≤ inp.length - q.1 := by
    have := hw.ends
    have := hw.bound
    omega
  -- the characters of the word are still there
  have hkeep : (buf.drop q.1).take w.length = w := by
    apply List.ext_getElem?
    intro i
    by_cases hi : i < w.length
    · have hout : q.1 + i ∉ cmd.words.map Prod.snd := by
        intro hmem
        obtain ⟨p, hp, heq⟩ := List.mem_map.mp hmem
        obtain ⟨v, hv⟩ := hwords p hp
        exact hv.not_inside hw hi heq
      rw [List.getElem?_take_of_lt hi, List.getElem?_drop, hget, if_neg hout,
        List.getElem?_append_left (by omega), hw.getElem? hi]
    · rw [List.getElem?_eq_none (by rw [List.length_take]; omega),
        List.getElem?_eq_none (Nat.le_of_not_lt hi)]
  -- and a NUL follows
  have hend : (buf.drop q.2).head? = some 0 := by
    rw [List.head?_drop, hget, if_pos (List.mem_map_of_mem hq)]
    have hlt : q.2 < (inp ++ [0]).length := by
      rw [List.length_append]
      exact Nat.lt_succ_of_le hw.bound
    rw [List.getElem?_eq_getElem hlt]
    rfl
  have hzero : ∀ c ∈ w, decide (c ≠ 0) = true := by
    intro c hc
    apply decide_eq_true
    rintro rfl
    apply hnul
    have hmem : (0 : UInt8) ∈ inp.drop q.1 := by
      rw [hw.text]
      exact List.mem_append_left _ hc
    exact List.mem_of_mem_drop hmem
  have hsplit : buf.drop q.1 = w ++ buf.drop q.2 := by
    rw [hw.ends, ← List.drop_drop]
    conv_rhs => lhs; rw [← hkeep]
    rw [List.take_append_drop]
  rw [cstring, hsplit, List.takeWhile_append_of_pos hzero]
  cases hrest : buf.drop q.2 with
  | nil => rw [hrest] at hend; cases hend
  | cons c cs =>
    rw [hrest] at hend
    cases hend
    exact List.append_nil w

theorem Reads.map_eq {cmd : Cmd Word} {c : Cmd Text} (h : Reads inp cmd c) {f : Word → Text}
    (hf : ∀ p ∈ cmd.words, ∀ w, WordAt inp p w → f p = w) : cmd.map f = c := by
  induction h with
  | @exec argv ws hall =>
    rw [Cmd.map]
    congr 1
    induction hall with
    | nil => rfl
    | cons hw _ ih =>
      rw [List.map_cons, hf _ List.mem_cons_self _ hw,
        ih (fun p hp ↦ hf p (List.mem_cons_of_mem _ hp))]
  | redir _ hw ih =>
    rw [Cmd.map, ih (fun p hp ↦ hf p (List.mem_append_left _ hp)),
      hf _ (List.mem_append_right _ List.mem_cons_self) _ hw]
  | pipe _ _ ihl ihr =>
    rw [Cmd.map, ihl (fun p hp ↦ hf p (List.mem_append_left _ hp)),
      ihr (fun p hp ↦ hf p (List.mem_append_right _ hp))]
  | list _ _ ihl ihr =>
    rw [Cmd.map, ihl (fun p hp ↦ hf p (List.mem_append_left _ hp)),
      ihr (fun p hp ↦ hf p (List.mem_append_right _ hp))]
  | back _ ih => rw [Cmd.map, ih hf]

/-- What the parser builds, the shell reads as the tree. -/
theorem Reads.strings (hnul : 0 ∉ inp) {cmd : Cmd Word} {c : Cmd Text} (h : Reads inp cmd c) :
    cmd.strings (nulterminate cmd (inp ++ [0])) = c :=
  h.map_eq fun _ hp _ hw ↦ cstring_nulterminate hnul h.wordAt hp hw

/-! ### `parsecmd` -/

theorem peek_end {s : Nat} (hs : s ≤ inp.length) :
    (peek inp s "").2 = inp.length ↔ view inp s = [] := by
  change span isSpace inp s = inp.length ↔ _
  have hle := span_le isSpace hs
  have hdrop : inp.drop (span isSpace inp s) = [] ↔ view inp s = [] := by
    rw [drop_span, view, tokens_eq]
    cases (inp.drop s).dropWhile isSpace with
    | nil => exact ⟨fun _ ↦ rfl, fun _ ↦ rfl⟩
    | cons c cs => exact ⟨(by intro h; cases h), (by intro h; cases h)⟩
  rw [← hdrop, List.drop_eq_nil_iff]
  omega

theorem parsecmd_eq {fuel : Nat} {cmd : Cmd Word} {s : Nat}
    (h : parse inp fuel .line 0 = .ok (cmd, s)) :
    parsecmd fuel inp = if (peek inp s "").2 ≠ inp.length then .error (.panic "syntax")
      else .ok (cmd, nulterminate cmd (inp ++ [0])) := by
  rw [parsecmd, h]
  rfl

/-- `parsecmd` ends, and what it returns is the tree of a derivation. -/
theorem parsecmd_sound (hnul : 0 ∉ inp) {fuel : Nat} (hfuel : steps inp ≤ fuel) :
    Ends (fun e ↦ e ≠ Fault.fuel) (parsecmd fuel inp) fun p ↦
      Derives .line (tokens inp) (p.1.strings p.2) := by
  have hsound := parse_sound hnul fuel .line 0 (Nat.zero_le _) hfuel
  cases hparse : parse inp fuel .line 0 with
  | error e =>
    rw [hparse] at hsound
    rw [parsecmd, hparse]
    exact hsound
  | ok p =>
    rw [hparse] at hsound
    obtain ⟨ts, c, hd, hr, hadv⟩ := hsound
    rw [parsecmd_eq hparse]
    by_cases hend : (peek inp p.2 "").2 = inp.length
    · rw [if_neg (not_not.mpr hend)]
      have hleft := (peek_end hadv.bound).mp hend
      have hview := hadv.view
      rw [hleft, List.append_nil] at hview
      change Derives .line (tokens inp) (p.1.strings (nulterminate p.1 (inp ++ [0])))
      rw [hr.strings hnul]
      change tokens inp = ts at hview
      rw [hview]
      exact hd
    · rw [if_pos hend]
      exact fun h ↦ nomatch h

/-- `parsecmd` returns the tree of each derivation. -/
theorem parsecmd_complete (hnul : 0 ∉ inp) {fuel : Nat} (hfuel : steps inp ≤ fuel) {c : Cmd Text}
    (hd : Derives .line (tokens inp) c) :
    Returns (parsecmd fuel inp) fun p ↦ p.1.strings p.2 = c := by
  have hview : view inp 0 = tokens inp ++ [] := (List.append_nil _).symm
  obtain ⟨⟨cmd, s⟩, hparse, hr, hadv⟩ :=
    parse_complete hnul hd (Nat.zero_le _) hfuel hview (Follows.nil .line)
  have hend := (peek_end hadv.bound).mpr (hadv.left hview)
  rw [parsecmd_eq hparse, if_neg (not_not.mpr hend)]
  exact Returns.ok (hr.strings hnul)

/-- The shell parser accepts exactly its grammar: on every string it ends, it returns if and only if
the tokens derive from `line`, and then the command is the tree of the derivation. -/
theorem parsecmd_accepts_grammar (inp : Text) (hnul : 0 ∉ inp) (fuel : Nat)
    (hfuel : steps inp ≤ fuel) :
    parsecmd fuel inp ≠ .error .fuel ∧
      ((∃ r, parsecmd fuel inp = .ok r) ↔ ∃ c, Derives .line (tokens inp) c) ∧
      ∀ cmd buf c, parsecmd fuel inp = .ok (cmd, buf) → Derives .line (tokens inp) c →
        cmd.strings buf = c := by
  have hsound := parsecmd_sound hnul hfuel
  refine ⟨?_, ⟨?_, ?_⟩, ?_⟩
  · intro h
    rw [h] at hsound
    exact hsound rfl
  · rintro ⟨r, h⟩
    rw [h] at hsound
    exact ⟨_, hsound⟩
  · rintro ⟨c, hd⟩
    obtain ⟨r, h, -⟩ := parsecmd_complete hnul hfuel hd
    exact ⟨r, h⟩
  · intro cmd buf c h hd
    exact (parsecmd_complete hnul hfuel hd).elim h

end

/-- `ls | wc > out &` is a line of the grammar, since the parser returns. -/
theorem parsecmd_accepts_grammar_ls :
    0 ∉ chars "ls | wc > out &" ∧ steps (chars "ls | wc > out &") ≤ 48 ∧
      (∃ r, parsecmd 48 (chars "ls | wc > out &") = .ok r) ∧
      ∃ c, Derives .line (tokens (chars "ls | wc > out &")) c := by
  have hnul : 0 ∉ chars "ls | wc > out &" := by decide
  have hfuel : steps (chars "ls | wc > out &") ≤ 48 := by decide
  have hok : ∃ r, parsecmd 48 (chars "ls | wc > out &") = .ok r := ⟨_, rfl⟩
  exact ⟨hnul, hfuel, hok, (parsecmd_accepts_grammar _ hnul 48 hfuel).2.1.mp hok⟩

end Xv6.Sh
