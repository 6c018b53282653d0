import Mathlib.Data.List.Forall2
import Xv6.Lib.Returns
import Xv6.Sh.Tokens

/-!
# The parser ends, and what it accepts has a derivation

Each function either panics or takes the tokens of a derivation, and its command reads as the tree
of that derivation. The bound on the depth of the calls is never reached: it counts three calls for
each byte that is left, one for each of `parseline`, `parsepipe` and `parseexec`.
-/

namespace Xv6.Sh

open Lib

/-- The command of offsets reads as the command of texts. -/
inductive Reads (inp : Text) : Cmd Word → Cmd Text → Prop
  | exec {argv : List Word} {ws : List Text} :
    List.Forall₂ (WordAt inp) argv ws → Reads inp (.exec argv) (.exec ws)
  | redir {cmd : Cmd Word} {c : Cmd Text} {file : Word} {w : Text} {mode fd : Nat} :
    Reads inp cmd c → WordAt inp file w → Reads inp (.redir cmd file mode fd) (.redir c w mode fd)
  | pipe {left right : Cmd Word} {l r : Cmd Text} :
    Reads inp left l → Reads inp right r → Reads inp (.pipe left right) (.pipe l r)
  | list {left right : Cmd Word} {l r : Cmd Text} :
    Reads inp left l → Reads inp right r → Reads inp (.list left right) (.list l r)
  | back {cmd : Cmd Word} {c : Cmd Text} : Reads inp cmd c → Reads inp (.back cmd) (.back c)

/-- The functions of the parser, in the order in which they call each other. -/
def rank : Nonterminal → Nat
  | .line => 3
  | .pipe => 2
  | .exec => 1

/-- Calls that are enough for what is left at `s`. -/
def depth (inp : Text) (nt : Nonterminal) (s : Nat) : Nat := 3 * (inp.length - s) + rank nt

/-- The parser ends: it panics, or it returns with the property `Q`. -/
abbrev Parses (r : Parse) (Q : Cmd Word → Nat → Prop) : Prop :=
  Ends (fun e ↦ e ≠ Fault.fuel) r fun p ↦ Q p.1 p.2

section

-- Splitting on what `gettoken` answers must not compute it.
attribute [local irreducible] gettoken

variable {inp : Text} {s : Nat}

/-! ### Commands -/

theorem Reads.push {cmd : Cmd Word} {c : Cmd Text} {p : Word} {w : Text} (h : Reads inp cmd c)
    (hw : WordAt inp p w) : Reads inp (cmd.push p) (c.push w) := by
  induction h with
  | exec hall =>
    apply Reads.exec
    exact List.rel_append hall (List.Forall₂.cons hw List.Forall₂.nil)
  | redir _ hf ih => exact Reads.redir ih hf
  | pipe hl hr => exact Reads.pipe hl hr
  | list hl hr => exact Reads.list hl hr
  | back hc => exact Reads.back hc

theorem push_wrap (w : Text) (rs : List Redir) (c : Cmd Text) :
    (wrap c rs).push w = wrap (c.push w) rs := by
  induction rs generalizing c with
  | nil => rfl
  | cons r rs ih => exact ih (.redir c r.file r.mode r.fd)

theorem wrap_append (c : Cmd Text) (qs rs : List Redir) : wrap c (qs ++ rs) = wrap (wrap c qs) rs :=
  List.foldl_append

/-- The operator and the word make the redirection that `redircmd` wraps around the command. -/
theorem redircmd_reads {t : Token} (ht : t = .lt ∨ t = .gt ∨ t = .gtgt) {cmd : Cmd Word}
    {c : Cmd Text} (hr : Reads inp cmd c) {p : Word} {w : Text} (hw : WordAt inp p w) :
    ∃ r, DerivesRedir [t, .word w] r ∧ Reads inp (redircmd t.code cmd p) (wrap c [r]) := by
  rcases ht with rfl | rfl | rfl
  · exact ⟨_, DerivesRedir.input w, Reads.redir hr hw⟩
  · exact ⟨_, DerivesRedir.output w, Reads.redir hr hw⟩
  · exact ⟨_, DerivesRedir.append w, Reads.redir hr hw⟩

/-! ### Loops -/

/-- `parseredirs` takes redirections. -/
theorem parseredirs_sound (hnul : 0 ∉ inp) {fuel : Nat} {cmd : Cmd Word} {c : Cmd Text}
    (hs : s ≤ inp.length) (hfuel : inp.length - s < fuel) (hr : Reads inp cmd c) :
    Parses (parseredirs inp fuel cmd s) fun cmd s' ↦
      ∃ ts rs, DerivesRedirs ts rs ∧ Reads inp cmd (wrap c rs) ∧ Advances inp s ts s' := by
  induction fuel generalizing cmd c s with
  | zero => omega
  | succ fuel ih =>
    obtain ⟨s₁, hpeek, hskip⟩ := peek_spec hnul hs (fun c hc ↦ (not_symbol c hc).2.2.1)
    rw [parseredirs, hpeek]
    dsimp only
    by_cases hmore : peeks "<>" (view inp s) = true
    · obtain ⟨t, us, hview, ht⟩ := peeks_cons hmore
      rw [hskip.view] at hview
      obtain ⟨hcode, hop, hlt, -⟩ := gettoken_cons hnul hview
      rw [if_pos hmore]
      by_cases hret : (gettoken inp (gettoken inp s₁).next).ret = 'a'.toUInt8
      · rw [if_neg (not_not.mpr hret)]
        obtain ⟨w, hfile, hlt', hw⟩ := gettoken_word hnul hop.bound hret
        obtain ⟨r, hd, hr'⟩ := redircmd_reads ((starts_operator t).1 ht) hr hw
        have hle := hskip.le
        have hbound := hfile.bound
        rw [← hcode] at hr'
        apply (ih hfile.bound (by omega) hr').mono
        rintro ⟨cmd', s'⟩ ⟨ts, rs, hds, hrs, hadv⟩
        exact ⟨_, r :: rs, DerivesRedirs.cons hd hds, hrs,
          (hskip.trans (hop.trans hfile)).trans hadv⟩
      · rw [if_pos hret]
        exact fun h ↦ nomatch h
    · rw [if_neg hmore]
      exact ⟨[], [], DerivesRedirs.nil, hr, hskip⟩

/-- The loop over `&`. -/
theorem parsebacks_sound (hnul : 0 ∉ inp) {fuel : Nat} {cmd : Cmd Word} {c : Cmd Text}
    (hs : s ≤ inp.length) (hfuel : inp.length - s < fuel) (hr : Reads inp cmd c) :
    Parses (parsebacks inp fuel cmd s) fun cmd s' ↦
      ∃ n, Reads inp cmd (backs c n) ∧ Advances inp s (List.replicate n .amp) s' := by
  induction fuel generalizing cmd c s with
  | zero => omega
  | succ fuel ih =>
    obtain ⟨s₁, hpeek, hskip⟩ := peek_spec hnul hs (fun c hc ↦ (not_symbol c hc).2.2.2.1)
    rw [parsebacks, hpeek]
    dsimp only
    by_cases hmore : peeks "&" (view inp s) = true
    · obtain ⟨us, hview⟩ := peeks_operator (fun t ↦ (starts_operator t).2.1) hmore
      rw [hskip.view] at hview
      obtain ⟨-, hop, hlt, -⟩ := gettoken_cons hnul hview
      have hle := hskip.le
      have hbound := hop.bound
      rw [if_pos hmore]
      apply (ih hop.bound (by omega) (Reads.back hr)).mono
      rintro ⟨cmd', s'⟩ ⟨n, hback, hadv⟩
      exact ⟨n + 1, hback, (hskip.trans hop).trans hadv⟩
    · rw [if_neg hmore]
      exact ⟨0, hr, hskip⟩

/-- The loop over the words. -/
theorem parseargs_sound (hnul : 0 ∉ inp) {fuel : Nat} {cmd : Cmd Word} {ws : List Text}
    {qs : List Redir} (hs : s ≤ inp.length) (hfuel : inp.length - s < fuel)
    (hr : Reads inp cmd (wrap (.exec ws) qs)) (hargc : ws.length ≤ MAXARGS - 1) :
    Parses (parseargs inp fuel ws.length cmd s) fun cmd s' ↦
      ∃ ts vs rs, DerivesArgs ts vs rs ∧ Reads inp cmd (wrap (.exec (ws ++ vs)) (qs ++ rs)) ∧
        (ws ++ vs).length ≤ MAXARGS - 1 ∧ Advances inp s ts s' := by
  induction fuel generalizing cmd ws qs s with
  | zero => omega
  | succ fuel ih =>
    obtain ⟨s₁, hpeek, hskip⟩ := peek_spec hnul hs (fun c hc ↦ (not_symbol c hc).2.2.2.2.2.2.2.2)
    have hdone {s' : Nat} (hadv : Advances inp s [] s') :
        ∃ ts vs rs, DerivesArgs ts vs rs ∧ Reads inp cmd (wrap (.exec (ws ++ vs)) (qs ++ rs)) ∧
          (ws ++ vs).length ≤ MAXARGS - 1 ∧ Advances inp s ts s' := by
      refine ⟨[], [], [], DerivesArgs.nil, ?_, ?_, hadv⟩
      · rw [List.append_nil, List.append_nil]
        exact hr
      · rw [List.append_nil]
        exact hargc
    rw [parseargs, hpeek]
    dsimp only
    by_cases hstop : peeks "|)&;" (view inp s) = true
    · rw [if_pos hstop]
      exact hdone hskip
    rw [if_neg hstop]
    by_cases hend : (gettoken inp s₁).ret = 0
    · rw [if_pos hend]
      exact hdone (hskip.trans (gettoken_nil hskip.bound (gettoken_end hnul hend)).2)
    rw [if_neg hend]
    by_cases hret : (gettoken inp s₁).ret = 'a'.toUInt8
    · rw [if_neg (not_not.mpr hret)]
      by_cases hmax : ws.length + 1 ≥ MAXARGS
      · rw [if_pos hmax]
        exact fun h ↦ nomatch h
      · rw [if_neg hmax]
        obtain ⟨w, hword, hlt, hw⟩ := gettoken_word hnul hskip.bound hret
        have hle := hskip.le
        have hbound := hword.bound
        have hpush := hr.push hw
        rw [push_wrap] at hpush
        have hroom : inp.length - (gettoken inp s₁).next < enough inp := by
          unfold enough
          omega
        apply (parseredirs_sound hnul hword.bound hroom hpush).bind
        rintro ⟨cmd', s₂⟩ ⟨us, rs, hus, hr', hadv⟩
        rw [← wrap_append] at hr'
        have hlen : (ws ++ [w]).length = ws.length + 1 := List.length_append
        have hle₂ := hadv.le
        have hbound₂ := hadv.bound
        have hih := ih hadv.bound (by omega) hr' (by omega)
        rw [hlen] at hih
        apply hih.mono
        rintro ⟨cmd'', s'⟩ ⟨ts, vs, rs', hts, hr'', hlen', hadv'⟩
        rw [List.append_assoc, List.append_assoc] at hr''
        rw [List.append_assoc] at hlen'
        exact ⟨_, w :: vs, rs ++ rs', DerivesArgs.cons hus hts, hr'', hlen',
          (hskip.trans (hword.trans hadv)).trans hadv'⟩
    · rw [if_pos hret]
      exact fun h ↦ nomatch h

/-! ### The functions that call each other -/

variable {fuel : Nat} {call : Nonterminal → Nat → Parse}

/-- What is known about the calls, for an induction on their depth. -/
abbrev CallsSound (inp : Text) (call : Nonterminal → Nat → Parse) (fuel : Nat) : Prop :=
  ∀ nt s, s ≤ inp.length → depth inp nt s ≤ fuel → Parses (call nt s) fun cmd s' ↦
    ∃ ts c, Derives nt ts c ∧ Reads inp cmd c ∧ Advances inp s ts s'

theorem parseline_sound (hnul : 0 ∉ inp) (hcall : CallsSound inp call fuel) (hs : s ≤ inp.length)
    (hfuel : depth inp .line s ≤ fuel + 1) :
    Parses (parseline inp call s) fun cmd s' ↦
      ∃ ts c, Derives .line ts c ∧ Reads inp cmd c ∧ Advances inp s ts s' := by
  simp only [depth, rank] at hfuel
  apply (hcall .pipe s hs (by simp only [depth, rank]; omega)).bind
  rintro ⟨cmd, s₁⟩ ⟨ts, c, hd, hr, h₁⟩
  have hroom : inp.length - s₁ < enough inp := by
    unfold enough
    omega
  apply (parsebacks_sound hnul h₁.bound hroom hr).bind
  rintro ⟨cmd', s₂⟩ ⟨n, hr', h₂⟩
  have hadv := h₁.trans h₂
  obtain ⟨s₃, hpeek, hskip⟩ := peek_spec hnul h₂.bound (fun c hc ↦ (not_symbol c hc).2.2.2.2.1)
  dsimp only at hr' h₂ hadv hpeek hskip ⊢
  rw [hpeek]
  dsimp only
  by_cases hmore : peeks ";" (view inp s₂) = true
  · rw [if_pos hmore]
    obtain ⟨us, hview⟩ := peeks_operator (fun t ↦ (starts_operator t).2.2.1) hmore
    rw [hskip.view] at hview
    obtain ⟨-, hop, hlt, -⟩ := gettoken_cons hnul hview
    have hle := hadv.le
    have hle₃ := hskip.le
    have hbound := hop.bound
    apply (hcall .line _ hop.bound (by simp only [depth, rank]; omega)).bind
    rintro ⟨right, s₄⟩ ⟨us', d, hd', hright, h₄⟩
    refine ⟨_, _, Derives.list n hd hd', Reads.list hr' hright, ?_⟩
    exact hadv.trans (hskip.trans (hop.trans h₄))
  · rw [if_neg hmore]
    refine ⟨_, _, Derives.line n hd, hr', ?_⟩
    have hend := hadv.trans hskip
    rw [List.append_nil] at hend
    exact hend

theorem parsepipe_sound (hnul : 0 ∉ inp) (hcall : CallsSound inp call fuel) (hs : s ≤ inp.length)
    (hfuel : depth inp .pipe s ≤ fuel + 1) :
    Parses (parsepipe inp call s) fun cmd s' ↦
      ∃ ts c, Derives .pipe ts c ∧ Reads inp cmd c ∧ Advances inp s ts s' := by
  simp only [depth, rank] at hfuel
  apply (hcall .exec s hs (by simp only [depth, rank]; omega)).bind
  rintro ⟨cmd, s₁⟩ ⟨ts, c, hd, hr, hadv⟩
  obtain ⟨s₂, hpeek, hskip⟩ := peek_spec hnul hadv.bound (fun c hc ↦ (not_symbol c hc).2.2.2.2.2.1)
  dsimp only at hr hadv hpeek hskip ⊢
  rw [hpeek]
  dsimp only
  by_cases hmore : peeks "|" (view inp s₁) = true
  · rw [if_pos hmore]
    obtain ⟨us, hview⟩ := peeks_operator (fun t ↦ (starts_operator t).2.2.2.1) hmore
    rw [hskip.view] at hview
    obtain ⟨-, hop, hlt, -⟩ := gettoken_cons hnul hview
    have hle := hadv.le
    have hle₂ := hskip.le
    have hbound := hop.bound
    apply (hcall .pipe _ hop.bound (by simp only [depth, rank]; omega)).bind
    rintro ⟨right, s₃⟩ ⟨us', d, hd', hright, h₃⟩
    refine ⟨_, _, Derives.pipe hd hd', Reads.pipe hr hright, ?_⟩
    exact hadv.trans (hskip.trans (hop.trans h₃))
  · rw [if_neg hmore]
    refine ⟨_, _, Derives.single hd, hr, ?_⟩
    have hend := hadv.trans hskip
    rw [List.append_nil] at hend
    exact hend

theorem parseblock_sound (hnul : 0 ∉ inp) (hcall : CallsSound inp call fuel) (hs : s ≤ inp.length)
    (hfuel : depth inp .exec s ≤ fuel + 1) :
    Parses (parseblock inp call s) fun cmd s' ↦
      ∃ ts c, Derives .exec ts c ∧ Reads inp cmd c ∧ Advances inp s ts s' := by
  simp only [depth, rank] at hfuel
  obtain ⟨s₁, hpeek, hskip⟩ := peek_spec hnul hs (fun c hc ↦ (not_symbol c hc).2.2.2.2.2.2.1)
  rw [parseblock, hpeek]
  dsimp only
  by_cases hopens : peeks "(" (view inp s) = true
  · rw [if_pos hopens]
    obtain ⟨us, hview⟩ := peeks_operator (fun t ↦ (starts_operator t).2.2.2.2.1) hopens
    rw [hskip.view] at hview
    obtain ⟨-, hopen, hlt, -⟩ := gettoken_cons hnul hview
    have hle := hskip.le
    have hbound := hopen.bound
    apply (hcall .line _ hopen.bound (by simp only [depth, rank]; omega)).bind
    rintro ⟨cmd, s₂⟩ ⟨ts, c, hd, hr, hline⟩
    obtain ⟨s₃, hpeek', hskip'⟩ :=
      peek_spec hnul hline.bound (fun c hc ↦ (not_symbol c hc).2.2.2.2.2.2.2.1)
    dsimp only at hr hline hpeek' hskip' ⊢
    rw [hpeek']
    dsimp only
    by_cases hcloses : peeks ")" (view inp s₂) = true
    · rw [if_pos hcloses]
      obtain ⟨us', hview'⟩ := peeks_operator (fun t ↦ (starts_operator t).2.2.2.2.2) hcloses
      rw [hskip'.view] at hview'
      obtain ⟨-, hclose, -, -⟩ := gettoken_cons hnul hview'
      have hroom : inp.length - (gettoken inp s₃).next < enough inp := by
        unfold enough
        omega
      apply (parseredirs_sound hnul hclose.bound hroom hr).mono
      rintro ⟨cmd', s'⟩ ⟨vs, rs, hds, hr', hadv⟩
      refine ⟨_, _, Derives.block hd hds, hr', ?_⟩
      exact (hskip.trans (hopen.trans hline)).trans (hskip'.trans (hclose.trans hadv))
    · rw [if_neg hcloses]
      exact fun h ↦ nomatch h
  · rw [if_neg hopens]
    exact fun h ↦ nomatch h

theorem parseexec_sound (hnul : 0 ∉ inp) (hcall : CallsSound inp call fuel) (hs : s ≤ inp.length)
    (hfuel : depth inp .exec s ≤ fuel + 1) :
    Parses (parseexec inp call s) fun cmd s' ↦
      ∃ ts c, Derives .exec ts c ∧ Reads inp cmd c ∧ Advances inp s ts s' := by
  obtain ⟨s₁, hpeek, hskip⟩ := peek_spec hnul hs (fun c hc ↦ (not_symbol c hc).2.2.2.2.2.2.1)
  rw [parseexec, hpeek]
  dsimp only
  by_cases hblock : peeks "(" (view inp s) = true
  · rw [if_pos hblock]
    have hle := hskip.le
    have hdepth : depth inp .exec s₁ ≤ fuel + 1 := by
      simp only [depth] at hfuel ⊢
      omega
    apply (parseblock_sound hnul hcall hskip.bound hdepth).mono
    rintro ⟨cmd, s'⟩ ⟨ts, c, hd, hr, hadv⟩
    exact ⟨ts, c, hd, hr, hskip.trans hadv⟩
  · rw [if_neg hblock]
    have hroom (s' : Nat) : inp.length - s' < enough inp := by
      unfold enough
      omega
    apply (parseredirs_sound hnul hskip.bound (hroom s₁) (Reads.exec List.Forall₂.nil)).bind
    rintro ⟨cmd, s₂⟩ ⟨us, qs, hqs, hr, hadv⟩
    apply (parseargs_sound hnul hadv.bound (hroom s₂) hr (Nat.zero_le _)).mono
    rintro ⟨cmd', s'⟩ ⟨ts, ws, rs, hargs, hr', hlen, hadv'⟩
    exact ⟨_, _, Derives.simple hqs hargs hlen, hr', hskip.trans (hadv.trans hadv')⟩

/-- The parser ends, and what it accepts has a derivation. -/
theorem parse_sound (hnul : 0 ∉ inp) (fuel : Nat) : CallsSound inp (parse inp fuel) fuel := by
  induction fuel with
  | zero =>
    intro nt s hs hfuel
    cases nt <;> simp only [depth, rank] at hfuel <;> omega
  | succ fuel ih =>
    intro nt s hs hfuel
    cases nt with
    | line => exact parseline_sound hnul ih hs hfuel
    | pipe => exact parsepipe_sound hnul ih hs hfuel
    | exec => exact parseexec_sound hnul ih hs hfuel

end

end Xv6.Sh
