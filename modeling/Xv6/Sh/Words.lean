import Xv6.Sh.Correct

/-!
# Terminating the words

`nulterminate` (`user/sh.c:450`) cuts the words of a command out of the line by storing a NUL behind
each of them. The stores are in the order of the tree, they stay in the line or on its NUL, and none
of them is inside a word. So each word is afterwards the string that it was in the line.
-/

namespace Xv6.Sh

open Lib

/-- The word of a token. -/
def Token.text : Token → Option Text
  | .word w => some w
  | _ => none

/-- The words among the tokens. -/
def wordsOf (ts : List Token) : List Text := ts.filterMap Token.text

/-- The characters of a word in the line. -/
def textAt (inp : Text) (w : Word) : Text := (inp.drop w.1).take (w.2 - w.1)

/-! ### The words of a derivation -/

theorem wordsOf_append (ts us : List Token) : wordsOf (ts ++ us) = wordsOf ts ++ wordsOf us :=
  List.filterMap_append

theorem words_wrap (c : Cmd Text) (rs : List Redir) :
    (wrap c rs).words = c.words ++ rs.map Redir.file := by
  induction rs generalizing c with
  | nil => exact (List.append_nil _).symm
  | cons r rs ih =>
    change (wrap (.redir c r.file r.mode r.fd) rs).words = _
    rw [ih, Cmd.words, List.append_assoc]
    rfl

theorem words_backs (c : Cmd Text) (n : Nat) : (backs c n).words = c.words := by
  induction n generalizing c with
  | zero => rfl
  | succ n ih => exact ih (.back c)

theorem wordsOf_replicate (n : Nat) : wordsOf (List.replicate n .amp) = [] := by
  induction n with
  | zero => rfl
  | succ n ih => exact ih

theorem DerivesRedirs.wordsOf {ts : List Token} {rs : List Redir} (h : DerivesRedirs ts rs) :
    wordsOf ts = rs.map Redir.file := by
  induction h with
  | nil => rfl
  | cons hr _ ih =>
    rw [wordsOf_append, ih]
    cases hr <;> rfl

/-- In the line the files of the first redirections come before the words, in the tree behind
them. -/
theorem perm_behind {ts ws rs : List Text} (h : ts.Perm (ws ++ rs)) (qs : List Text) :
    (qs ++ ts).Perm (ws ++ (qs ++ rs)) := by
  have hswap : (qs ++ (ws ++ rs)).Perm (ws ++ (qs ++ rs)) := by
    rw [← List.append_assoc, ← List.append_assoc]
    exact List.perm_append_comm.append_right rs
  exact (h.append_left qs).trans hswap

theorem DerivesArgs.wordsOf {ts : List Token} {ws : List Text} {rs : List Redir}
    (h : DerivesArgs ts ws rs) : (wordsOf ts).Perm (ws ++ rs.map Redir.file) := by
  induction h with
  | nil => exact List.Perm.refl _
  | @cons us ts w ws qs rs hqs _ ih =>
    rw [List.cons_append, List.cons_append, List.map_append]
    apply List.Perm.cons w
    change (Sh.wordsOf (us ++ ts)).Perm _
    rw [wordsOf_append, hqs.wordsOf]
    exact perm_behind ih _

/-- The tree of a derivation has the words among its tokens, each once. -/
theorem Derives.wordsOf {nt : Nonterminal} {ts : List Token} {c : Cmd Text} (h : Derives nt ts c) :
    (wordsOf ts).Perm c.words := by
  induction h with
  | line n _ ih =>
    rw [wordsOf_append, wordsOf_replicate, List.append_nil, words_backs]
    exact ih
  | list n _ _ ihl ihr =>
    rw [wordsOf_append, wordsOf_append, wordsOf_replicate, List.append_nil, Cmd.words, words_backs]
    exact ihl.append ihr
  | single _ ih => exact ih
  | pipe _ _ ihl ihr =>
    rw [wordsOf_append]
    exact ihl.append ihr
  | block _ hrs ih =>
    rw [List.cons_append, words_wrap, ← hrs.wordsOf]
    change (Sh.wordsOf (_ ++ _)).Perm _
    rw [wordsOf_append]
    exact ih.append (List.Perm.refl _)
  | @simple us ts ws qs rs hqs hargs _ =>
    rw [wordsOf_append, hqs.wordsOf, words_wrap, Cmd.words, List.map_append]
    exact perm_behind hargs.wordsOf _

theorem words_map {V W : Type} (f : V → W) (cmd : Cmd V) : (cmd.map f).words = cmd.words.map f := by
  induction cmd with
  | exec argv => rfl
  | redir cmd file mode fd ih =>
    rw [Cmd.map, Cmd.words, ih, Cmd.words, List.map_append, List.map_singleton]
  | pipe left right ihl ihr => rw [Cmd.map, Cmd.words, ihl, ihr, Cmd.words, List.map_append]
  | list left right ihl ihr => rw [Cmd.map, Cmd.words, ihl, ihr, Cmd.words, List.map_append]
  | back cmd ih => exact ih

/-! ### The line -/

section
variable {inp : Text}

theorem WordAt.textAt {p : Word} {w : Text} (h : WordAt inp p w) : textAt inp p = w := by
  rw [Sh.textAt, h.text, h.ends, Nat.add_sub_cancel_left, List.take_left]

/-- The command that `parsecmd` returns has its words in the line. -/
theorem parsecmd_reads (hnul : 0 ∉ inp) {fuel : Nat} (hfuel : steps inp ≤ fuel) {cmd : Cmd Word}
    {buf : List UInt8} (h : parsecmd fuel inp = .ok (cmd, buf)) :
    buf = nulterminate cmd (inp ++ [0]) ∧ ∃ c, Reads inp cmd c := by
  have hsound := parse_sound hnul fuel .line 0 (Nat.zero_le _) hfuel
  cases hparse : parse inp fuel .line 0 with
  | error e =>
    rw [parsecmd, hparse] at h
    cases h
  | ok p =>
    rw [hparse] at hsound
    obtain ⟨ts, c, -, hr, -⟩ := hsound
    rw [parsecmd_eq hparse] at h
    split at h
    · cases h
    · cases h
      exact ⟨rfl, c, hr⟩

/-- Terminating the words of an accepted line damages none of them: in the buffer afterwards each is
the string that it is in the line, the words are those of the line, and each store of `nulterminate`
is in the line or on its NUL and outside of every word. -/
theorem nulterminate_keeps_words (hnul : 0 ∉ inp) {fuel : Nat} (hfuel : steps inp ≤ fuel)
    {cmd : Cmd Word} {buf : List UInt8} (h : parsecmd fuel inp = .ok (cmd, buf)) :
    (∀ w ∈ cmd.words, cstring buf w.1 = textAt inp w) ∧
      (cmd.words.map (textAt inp)).Perm (wordsOf (tokens inp)) ∧
      buf = (cmd.words.map Prod.snd).foldl (fun buf e ↦ buf.set e 0) (inp ++ [0]) ∧
      ∀ e ∈ cmd.words.map Prod.snd, e ≤ inp.length ∧ ∀ w ∈ cmd.words, ¬ (w.1 ≤ e ∧ e < w.2) := by
  obtain ⟨hbuf, c, hr⟩ := parsecmd_reads hnul hfuel h
  have hstrings : ∀ w ∈ cmd.words, cstring buf w.1 = textAt inp w := by
    intro w hw
    obtain ⟨text, htext⟩ := hr.wordAt w hw
    rw [htext.textAt, hbuf]
    exact cstring_nulterminate hnul hr.wordAt hw htext
  refine ⟨hstrings, ?_, ?_, ?_⟩
  · have hd := parsecmd_sound hnul hfuel
    rw [h] at hd
    have hperm := Derives.wordsOf hd
    rw [Cmd.strings, words_map] at hperm
    rw [← List.map_congr_left hstrings]
    exact hperm.symm
  · rw [hbuf, nulterminate_eq, List.foldl_map]
  · intro e he
    obtain ⟨p, hp, rfl⟩ := List.mem_map.mp he
    obtain ⟨v, hv⟩ := hr.wordAt p hp
    refine ⟨hv.bound, ?_⟩
    rintro w hw ⟨hlo, hhi⟩
    obtain ⟨text, htext⟩ := hr.wordAt w hw
    have hends := htext.ends
    exact hv.not_inside htext (show p.2 - w.1 < text.length by omega) (by omega)

end

/-- In `ls>>out|wc` the NULs are stored over the first `>`, over the bar and behind the line. -/
theorem nulterminate_keeps_words_append :
    ∃ cmd buf, parsecmd 40 (chars "ls>>out|wc") = .ok (cmd, buf) ∧
      cmd.words.map Prod.snd = [2, 7, 10] ∧
      (∀ w ∈ cmd.words, cstring buf w.1 = textAt (chars "ls>>out|wc") w) ∧
      ∀ e ∈ cmd.words.map Prod.snd, e ≤ 10 ∧ ∀ w ∈ cmd.words, ¬ (w.1 ≤ e ∧ e < w.2) := by
  have hnul : 0 ∉ chars "ls>>out|wc" := by decide
  have hfuel : steps (chars "ls>>out|wc") ≤ 40 := by decide
  have hok : parsecmd 40 (chars "ls>>out|wc") =
      .ok (.pipe (.redir (.exec [(0, 2)]) (4, 7) (O_WRONLY ||| O_CREATE) 1) (.exec [(8, 10)]),
        chars "ls\x00>out\x00wc\x00") := rfl
  obtain ⟨hstrings, -, -, hends⟩ := nulterminate_keeps_words hnul hfuel hok
  exact ⟨_, _, hok, rfl, hstrings, hends⟩

end Xv6.Sh
