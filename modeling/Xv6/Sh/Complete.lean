import Xv6.Sh.Sound

/-!
# The parser accepts every derivation

On the tokens of a derivation, followed by what may follow them, each function takes these tokens
and returns a command that reads as the tree of the derivation. So there is at most one tree.
-/

namespace Xv6.Sh

open Lib

/-- The tokens that may come after a part of a line. -/
def follow : Nonterminal → List Token
  | .line => [.rparen]
  | .pipe => [.rparen, .amp, .semi]
  | .exec => [.rparen, .amp, .semi, .bar]

/-- What may come after a part of a line: such a token, or the end. -/
def Follows (nt : Nonterminal) (rest : List Token) : Prop :=
  ∀ t us, rest = t :: us → t ∈ follow nt

theorem Follows.nil (nt : Nonterminal) : Follows nt [] := fun _ _ h ↦ nomatch h

theorem Follows.cons {nt : Nonterminal} {t : Token} (ht : t ∈ follow nt) (us : List Token) :
    Follows nt (t :: us) := by
  intro t' us' h
  cases h
  exact ht

theorem Follows.mono {nt nt' : Nonterminal} {rest : List Token} (h : Follows nt rest)
    (hsub : ∀ t ∈ follow nt, t ∈ follow nt') : Follows nt' rest :=
  fun t us hrest ↦ hsub t (h t us hrest)

theorem Follows.peeks_false {nt : Nonterminal} {rest : List Token} (h : Follows nt rest)
    {toks : String} (hno : ∀ t ∈ follow nt, t.starts toks = false) : peeks toks rest = false := by
  cases rest with
  | nil => rfl
  | cons t us => exact hno t (h t us rfl)

theorem follows_replicate {rest : List Token} (n : Nat) (h : Follows .pipe rest) :
    Follows .pipe (List.replicate n .amp ++ rest) := by
  cases n with
  | zero => exact h
  | succ n => exact Follows.cons (by decide) _

/-- Words with their redirections start with a word. -/
theorem args_peeks_false {ts rest : List Token} {vs : List Text} {rs : List Redir}
    (h : DerivesArgs ts vs rs) {toks : String} (hrest : peeks toks rest = false) :
    peeks toks (ts ++ rest) = false := by
  cases h with
  | nil => exact hrest
  | cons _ _ => rfl

/-- The parser returns a command that reads as `c`, behind the tokens `ts`. -/
abbrev Accepts (inp : Text) (r : Parse) (s : Nat) (ts : List Token) (c : Cmd Text) : Prop :=
  Returns r fun p ↦ Reads inp p.1 c ∧ Advances inp s ts p.2

section

-- Splitting on what `gettoken` answers must not compute it.
attribute [local irreducible] gettoken

variable {inp : Text} {s : Nat} {rest : List Token}

/-! ### Loops -/

theorem parseredirs_complete (hnul : 0 ∉ inp) {fuel : Nat} {cmd : Cmd Word} {c : Cmd Text}
    {ts : List Token} {rs : List Redir} (hd : DerivesRedirs ts rs) (hs : s ≤ inp.length)
    (hfuel : inp.length - s < fuel) (hr : Reads inp cmd c) (hview : view inp s = ts ++ rest)
    (hrest : peeks "<>" rest = false) :
    Accepts inp (parseredirs inp fuel cmd s) s ts (wrap c rs) := by
  induction hd generalizing fuel cmd c s with
  | nil =>
    obtain ⟨fuel, rfl⟩ := Nat.exists_eq_add_one_of_ne_zero (Nat.ne_zero_of_lt hfuel)
    obtain ⟨s₁, hpeek, hskip⟩ := peek_spec hnul hs (fun c hc ↦ (not_symbol c hc).2.2.1)
    rw [hview, List.nil_append, hrest] at hpeek
    rw [parseredirs, hpeek]
    exact Returns.ok ⟨hr, hskip⟩
  | @cons ts us r rs hredir _ ih =>
    obtain ⟨fuel, rfl⟩ := Nat.exists_eq_add_one_of_ne_zero (Nat.ne_zero_of_lt hfuel)
    obtain ⟨t, w, rfl, ht, hmore⟩ :
        ∃ t w, ts = [t, .word w] ∧ (t = .lt ∨ t = .gt ∨ t = .gtgt) ∧ t.starts "<>" = true := by
      cases hredir with
      | input w => exact ⟨_, w, rfl, Or.inl rfl, rfl⟩
      | output w => exact ⟨_, w, rfl, Or.inr (Or.inl rfl), rfl⟩
      | append w => exact ⟨_, w, rfl, Or.inr (Or.inr rfl), rfl⟩
    obtain ⟨s₁, hpeek, hskip⟩ := peek_spec hnul hs (fun c hc ↦ (not_symbol c hc).2.2.1)
    have hview₁ : view inp s₁ = t :: .word w :: (us ++ rest) := hskip.left hview
    obtain ⟨hcode, hop, hlt, -⟩ := gettoken_cons hnul hview₁
    obtain ⟨hret, hfile, hlt', hword⟩ := gettoken_cons hnul (hop.left hview₁)
    change _ = 'a'.toUInt8 at hret
    obtain ⟨r', hredir', hr'⟩ := redircmd_reads ht hr (hword w rfl)
    have hsame : r' = r := by
      cases hredir <;> cases hredir' <;> rfl
    have hle := hskip.le
    have hbound := hfile.bound
    rw [hsame, ← hcode] at hr'
    have hpeeks : peeks "<>" (view inp s) = true := by
      rw [hview]
      exact hmore
    rw [hpeeks] at hpeek
    rw [parseredirs, hpeek]
    dsimp only
    rw [if_pos rfl, if_neg (not_not.mpr hret)]
    apply (ih hfile.bound (by omega) hr' (hfile.left (hop.left hview₁))).mono
    rintro ⟨cmd', s'⟩ ⟨hr'', hadv⟩
    exact ⟨hr'', (hskip.trans (hop.trans hfile)).trans hadv⟩

theorem parsebacks_complete (hnul : 0 ∉ inp) {fuel : Nat} {cmd : Cmd Word} {c : Cmd Text} {n : Nat}
    (hs : s ≤ inp.length) (hfuel : inp.length - s < fuel) (hr : Reads inp cmd c)
    (hview : view inp s = List.replicate n .amp ++ rest) (hrest : peeks "&" rest = false) :
    Accepts inp (parsebacks inp fuel cmd s) s (List.replicate n .amp) (backs c n) := by
  induction n generalizing fuel cmd c s with
  | zero =>
    obtain ⟨fuel, rfl⟩ := Nat.exists_eq_add_one_of_ne_zero (Nat.ne_zero_of_lt hfuel)
    obtain ⟨s₁, hpeek, hskip⟩ := peek_spec hnul hs (fun c hc ↦ (not_symbol c hc).2.2.2.1)
    rw [hview, List.replicate_zero, List.nil_append, hrest] at hpeek
    rw [parsebacks, hpeek]
    exact Returns.ok ⟨hr, hskip⟩
  | succ n ih =>
    obtain ⟨fuel, rfl⟩ := Nat.exists_eq_add_one_of_ne_zero (Nat.ne_zero_of_lt hfuel)
    obtain ⟨s₁, hpeek, hskip⟩ := peek_spec hnul hs (fun c hc ↦ (not_symbol c hc).2.2.2.1)
    have hview₁ : view inp s₁ = .amp :: (List.replicate n .amp ++ rest) := hskip.left hview
    obtain ⟨-, hop, hlt, -⟩ := gettoken_cons hnul hview₁
    have hle := hskip.le
    have hbound := hop.bound
    have hpeeks : peeks "&" (view inp s) = true := by
      rw [hview]
      rfl
    rw [hpeeks] at hpeek
    rw [parsebacks, hpeek]
    dsimp only
    rw [if_pos rfl]
    apply (ih hop.bound (by omega) (Reads.back hr) (hop.left hview₁)).mono
    rintro ⟨cmd', s'⟩ ⟨hr', hadv⟩
    exact ⟨hr', (hskip.trans hop).trans hadv⟩

theorem parseargs_complete (hnul : 0 ∉ inp) {fuel : Nat} {cmd : Cmd Word} {ws vs : List Text}
    {qs rs : List Redir} {ts : List Token} (hd : DerivesArgs ts vs rs) (hs : s ≤ inp.length)
    (hfuel : inp.length - s < fuel) (hr : Reads inp cmd (wrap (.exec ws) qs))
    (hmax : (ws ++ vs).length ≤ MAXARGS - 1) (hview : view inp s = ts ++ rest)
    (hrest : Follows .exec rest) :
    Accepts inp (parseargs inp fuel ws.length cmd s) s ts (wrap (.exec (ws ++ vs)) (qs ++ rs)) := by
  induction hd generalizing fuel cmd ws qs s with
  | nil =>
    obtain ⟨fuel, rfl⟩ := Nat.exists_eq_add_one_of_ne_zero (Nat.ne_zero_of_lt hfuel)
    obtain ⟨s₁, hpeek, hskip⟩ := peek_spec hnul hs (fun c hc ↦ (not_symbol c hc).2.2.2.2.2.2.2.2)
    rw [List.append_nil, List.append_nil, parseargs, hpeek]
    rw [List.nil_append] at hview
    cases hcase : rest with
    | nil =>
      have hend : view inp s₁ = [] := (hskip.left hview).trans hcase
      obtain ⟨hret, hadv⟩ := gettoken_nil hskip.bound hend
      rw [hview, hcase]
      dsimp only
      rw [if_neg (by intro h; cases h), if_pos hret]
      exact Returns.ok ⟨hr, hskip.trans hadv⟩
    | cons t us =>
      have hstop : peeks "|)&;" (t :: us) = true := by
        have hall : ∀ t ∈ follow .exec, Token.starts "|)&;" t = true := by decide
        exact hall t (hrest t us hcase)
      rw [hview, hcase]
      dsimp only
      rw [if_pos hstop]
      exact Returns.ok ⟨hr, hskip⟩
  | @cons us ts w vs qs' rs' hus hts ih =>
    obtain ⟨fuel, rfl⟩ := Nat.exists_eq_add_one_of_ne_zero (Nat.ne_zero_of_lt hfuel)
    obtain ⟨s₁, hpeek, hskip⟩ := peek_spec hnul hs (fun c hc ↦ (not_symbol c hc).2.2.2.2.2.2.2.2)
    have hview₁ : view inp s₁ = .word w :: (us ++ (ts ++ rest)) := by
      rw [hskip.view, List.nil_append, List.append_assoc] at hview
      exact hview
    obtain ⟨hret, hword, hlt, hw⟩ := gettoken_cons hnul hview₁
    change _ = 'a'.toUInt8 at hret
    have hpeeks : peeks "|)&;" (view inp s) = false := by
      rw [hview]
      rfl
    have hzero : ¬ (gettoken inp s₁).ret = 0 := by
      rw [hret]
      decide
    have hmax' : (ws ++ [w] ++ vs).length ≤ MAXARGS - 1 := by
      rw [List.append_assoc]
      exact hmax
    have hroom : ¬ ws.length + 1 ≥ MAXARGS := by
      rw [List.length_append, List.length_append, List.length_singleton] at hmax'
      unfold MAXARGS at hmax' ⊢
      omega
    have hle := hskip.le
    have hbound := hword.bound
    have hpush := hr.push (hw w rfl)
    rw [push_wrap] at hpush
    have hnot : peeks "<>" (ts ++ rest) = false :=
      args_peeks_false hts (hrest.peeks_false (by decide))
    have hsteps : inp.length - (gettoken inp s₁).next < enough inp := by
      unfold enough
      omega
    rw [parseargs, hpeek, hpeeks]
    dsimp only
    rw [if_neg (by intro h; cases h), if_neg hzero, if_neg (not_not.mpr hret), if_neg hroom]
    apply (parseredirs_complete hnul hus hword.bound hsteps hpush (hword.left hview₁) hnot).bind
    rintro ⟨cmd', s₂⟩ ⟨hr', hadv⟩
    rw [← wrap_append] at hr'
    have hle₂ : (gettoken inp s₁).next ≤ s₂ := hadv.le
    have hbound₂ : s₂ ≤ inp.length := hadv.bound
    have hfuel' : inp.length - s₂ < fuel := by omega
    have hih := ih hbound₂ hfuel' hr' hmax' (hadv.left (hword.left hview₁))
    rw [List.length_append, List.length_singleton] at hih
    apply hih.mono
    rintro ⟨cmd'', s'⟩ ⟨hr'', hadv'⟩
    rw [List.append_assoc, List.append_assoc] at hr''
    exact ⟨hr'', (hskip.trans (hword.trans hadv)).trans hadv'⟩

/-! ### The functions that call each other -/

variable {fuel : Nat} {call : Nonterminal → Nat → Parse}

/-- `parseline` after its first call, up to the test for `;`. -/
theorem parseline_pipe (hnul : 0 ∉ inp) {ts : List Token} {c : Cmd Text} {n : Nat}
    {rest : List Token} (hcall : Accepts inp (call .pipe s) s ts c)
    (hview : view inp s = ts ++ (List.replicate n .amp ++ rest)) (hrest : peeks "&" rest = false) :
    ∃ cmd s', Reads inp cmd (backs c n) ∧ Advances inp s (ts ++ List.replicate n .amp) s' ∧
      view inp s' = rest ∧
      parseline inp call s = if peeks ";" rest = true then do
          let (right, s) ← call .line (gettoken inp s').next
          return (.list cmd right, s)
        else return (cmd, s') := by
  obtain ⟨⟨cmd, s₁⟩, hpipe, hr, h₁⟩ := hcall
  have hsteps : inp.length - s₁ < enough inp := by
    unfold enough
    omega
  obtain ⟨⟨cmd', s₂⟩, hbacks, hr', h₂⟩ :=
    parsebacks_complete hnul h₁.bound hsteps hr (h₁.left hview) hrest
  obtain ⟨s₃, hpeek, hskip⟩ := peek_spec hnul h₂.bound (fun c hc ↦ (not_symbol c hc).2.2.2.2.1)
  have hleft := h₂.left (h₁.left hview)
  dsimp only at hr' h₂ hpeek hskip hleft hbacks
  have hadv := (h₁.trans h₂).trans hskip
  rw [List.append_nil] at hadv
  rw [hleft] at hpeek
  refine ⟨cmd', s₃, hr', hadv, hskip.left hleft, ?_⟩
  rw [parseline, hpipe]
  dsimp only [bind, Except.bind]
  rw [hbacks]
  dsimp only
  rw [hpeek]

/-- `parsepipe` after its first call. -/
theorem parsepipe_exec (hnul : 0 ∉ inp) {ts : List Token} {c : Cmd Text} {rest : List Token}
    (hcall : Accepts inp (call .exec s) s ts c) (hview : view inp s = ts ++ rest) :
    ∃ cmd s', Reads inp cmd c ∧ Advances inp s ts s' ∧ view inp s' = rest ∧
      parsepipe inp call s = if peeks "|" rest = true then do
          let (right, s) ← call .pipe (gettoken inp s').next
          return (.pipe cmd right, s)
        else return (cmd, s') := by
  obtain ⟨⟨cmd, s₁⟩, hexec, hr, h₁⟩ := hcall
  obtain ⟨s₂, hpeek, hskip⟩ := peek_spec hnul h₁.bound (fun c hc ↦ (not_symbol c hc).2.2.2.2.2.1)
  have hleft := h₁.left hview
  dsimp only at hr h₁ hpeek hskip hleft
  have hadv := h₁.trans hskip
  rw [List.append_nil] at hadv
  rw [hleft] at hpeek
  refine ⟨cmd, s₂, hr, hadv, hskip.left hleft, ?_⟩
  rw [parsepipe, hexec]
  dsimp only [bind, Except.bind]
  rw [hpeek]

/-- `parseexec` at an opening parenthesis. -/
theorem parseblock_complete (hnul : 0 ∉ inp) {ts us : List Token} {c : Cmd Text} {rs : List Redir}
    (hline : ∀ {s : Nat} {rest : List Token}, s ≤ inp.length → 3 * (inp.length - s) + 3 ≤ fuel →
      view inp s = ts ++ rest → Follows .line rest → Accepts inp (call .line s) s ts c)
    (hus : DerivesRedirs us rs) (hs : s ≤ inp.length) (hfuel : 3 * (inp.length - s) ≤ fuel)
    (hview : view inp s = .lparen :: ts ++ (.rparen :: us ++ rest))
    (hrest : peeks "<>" rest = false) :
    Accepts inp (parseexec inp call s) s (.lparen :: ts ++ .rparen :: us) (wrap c rs) := by
  obtain ⟨s₁, hpeek, hskip⟩ := peek_spec hnul hs (fun c hc ↦ (not_symbol c hc).2.2.2.2.2.2.1)
  obtain ⟨s₂, hpeek₂, hskip₂⟩ :=
    peek_spec hnul hskip.bound (fun c hc ↦ (not_symbol c hc).2.2.2.2.2.2.1)
  have hview₁ := hskip.left hview
  have hview₂ := hskip₂.left hview₁
  obtain ⟨-, hopen, hlt, -⟩ := gettoken_cons hnul hview₂
  have hview₃ := hopen.left hview₂
  have hle := hskip.le
  have hle₂ := hskip₂.le
  have hbound := hopen.bound
  rw [hview] at hpeek
  rw [hview₁] at hpeek₂
  rw [parseexec, hpeek]
  change Accepts inp (parseblock inp call s₁) _ _ _
  rw [parseblock, hpeek₂]
  change Accepts inp (call .line (gettoken inp s₂).next >>= _) _ _ _
  apply (hline hopen.bound (by omega) hview₃ (Follows.cons (by decide) _)).bind
  rintro ⟨cmd, s₃⟩ ⟨hr, hadv⟩
  obtain ⟨s₄, hpeek₄, hskip₄⟩ :=
    peek_spec hnul hadv.bound (fun c hc ↦ (not_symbol c hc).2.2.2.2.2.2.2.1)
  have hleft := hadv.left hview₃
  have hview₄ := hskip₄.left hleft
  obtain ⟨-, hclose, -, -⟩ := gettoken_cons hnul hview₄
  rw [hleft] at hpeek₄
  dsimp only at hr hadv hpeek₄ hskip₄ ⊢
  rw [hpeek₄]
  change Accepts inp (parseredirs inp (enough inp) cmd (gettoken inp s₄).next) _ _ _
  have hsteps : inp.length - (gettoken inp s₄).next < enough inp := by
    unfold enough
    omega
  apply (parseredirs_complete hnul hus hclose.bound hsteps hr (hclose.left hview₄) hrest).mono
  rintro ⟨cmd', s'⟩ ⟨hr', hadv'⟩
  refine ⟨hr', ?_⟩
  exact (hskip.trans (hskip₂.trans (hopen.trans hadv))).trans (hskip₄.trans (hclose.trans hadv'))

/-- `parseexec` at a simple command. -/
theorem parseexec_complete (hnul : 0 ∉ inp) {us ts : List Token} {ws : List Text}
    {qs rs : List Redir} (hus : DerivesRedirs us qs) (hts : DerivesArgs ts ws rs)
    (hlen : ws.length ≤ MAXARGS - 1) (hs : s ≤ inp.length) (hview : view inp s = us ++ (ts ++ rest))
    (hrest : Follows .exec rest) :
    Accepts inp (parseexec inp call s) s (us ++ ts) (wrap (.exec ws) (qs ++ rs)) := by
  obtain ⟨s₁, hpeek, hskip⟩ := peek_spec hnul hs (fun c hc ↦ (not_symbol c hc).2.2.2.2.2.2.1)
  have hno {toks : String} (h : peeks toks rest = false) : peeks toks (ts ++ rest) = false :=
    args_peeks_false hts h
  have hnot : peeks "(" (view inp s) = false := by
    rw [hview]
    cases hus with
    | nil => exact hno (hrest.peeks_false (by decide))
    | cons hredir _ => cases hredir <;> rfl
  have hsteps (s' : Nat) : inp.length - s' < enough inp := by
    unfold enough
    omega
  have hview₁ := hskip.left hview
  rw [hnot] at hpeek
  rw [parseexec, hpeek]
  change Accepts inp (parseredirs inp (enough inp) (.exec []) s₁ >>= _) _ _ _
  apply (parseredirs_complete hnul hus hskip.bound (hsteps s₁) (Reads.exec List.Forall₂.nil) hview₁
    (hno (hrest.peeks_false (by decide)))).bind
  rintro ⟨cmd, s₂⟩ ⟨hr, hadv⟩
  apply (parseargs_complete hnul hts hadv.bound (hsteps s₂) hr hlen (hadv.left hview₁) hrest).mono
  rintro ⟨cmd', s'⟩ ⟨hr', hadv'⟩
  exact ⟨hr', hskip.trans (hadv.trans hadv')⟩

/-- The parser accepts every derivation. -/
theorem parse_complete (hnul : 0 ∉ inp) {nt : Nonterminal} {ts : List Token} {c : Cmd Text}
    (hd : Derives nt ts c) {s fuel : Nat} {rest : List Token} (hs : s ≤ inp.length)
    (hfuel : depth inp nt s ≤ fuel) (hview : view inp s = ts ++ rest) (hrest : Follows nt rest) :
    Accepts inp (parse inp fuel nt s) s ts c := by
  induction hd generalizing s fuel rest with
  | @line ts c n _ ih =>
    simp only [depth, rank] at hfuel ih
    obtain ⟨fuel, rfl⟩ : ∃ k, fuel = k + 1 := ⟨fuel - 1, by omega⟩
    rw [List.append_assoc] at hview
    have hpipe : 3 * (inp.length - s) + 2 ≤ fuel := by omega
    have hcall := ih hs hpipe hview (follows_replicate n (hrest.mono (by decide)))
    obtain ⟨cmd, s', hr, hadv, -, heq⟩ :=
      parseline_pipe hnul hcall hview (hrest.peeks_false (by decide))
    rw [parse, heq, hrest.peeks_false (by decide)]
    exact Returns.ok ⟨hr, hadv⟩
  | @list ts us c d n _ _ ih₁ ih₂ =>
    simp only [depth, rank] at hfuel ih₁ ih₂
    obtain ⟨fuel, rfl⟩ : ∃ k, fuel = k + 1 := ⟨fuel - 1, by omega⟩
    rw [List.append_assoc, List.append_assoc] at hview
    have hsemi : Follows .pipe (.semi :: us ++ rest) := Follows.cons (by decide) _
    have hpipe : 3 * (inp.length - s) + 2 ≤ fuel := by omega
    have hcall := ih₁ hs hpipe hview (follows_replicate n hsemi)
    obtain ⟨cmd, s', hr, hadv, hleft, heq⟩ := parseline_pipe hnul hcall hview rfl
    obtain ⟨-, hop, hlt, -⟩ := gettoken_cons hnul hleft
    have hle := hadv.le
    have hbound := hop.bound
    have hmore : peeks ";" (.semi :: us ++ rest) = true := rfl
    rw [parse, heq, if_pos hmore]
    apply (ih₂ hop.bound (by omega) (hop.left hleft) hrest).bind
    rintro ⟨right, s''⟩ ⟨hright, hadv'⟩
    exact Returns.ok ⟨Reads.list hr hright, hadv.trans (hop.trans hadv')⟩
  | @single ts c _ ih =>
    simp only [depth, rank] at hfuel ih
    obtain ⟨fuel, rfl⟩ : ∃ k, fuel = k + 1 := ⟨fuel - 1, by omega⟩
    have hexec : 3 * (inp.length - s) + 1 ≤ fuel := by omega
    have hcall := ih hs hexec hview (hrest.mono (by decide))
    obtain ⟨cmd, s', hr, hadv, -, heq⟩ := parsepipe_exec hnul hcall hview
    rw [parse, heq, hrest.peeks_false (by decide)]
    exact Returns.ok ⟨hr, hadv⟩
  | @pipe ts us c d _ _ ih₁ ih₂ =>
    simp only [depth, rank] at hfuel ih₁ ih₂
    obtain ⟨fuel, rfl⟩ : ∃ k, fuel = k + 1 := ⟨fuel - 1, by omega⟩
    rw [List.append_assoc] at hview
    have hexec : 3 * (inp.length - s) + 1 ≤ fuel := by omega
    have hcall := ih₁ hs hexec hview (Follows.cons (by decide) _)
    obtain ⟨cmd, s', hr, hadv, hleft, heq⟩ := parsepipe_exec hnul hcall hview
    obtain ⟨-, hop, hlt, -⟩ := gettoken_cons hnul hleft
    have hle := hadv.le
    have hbound := hop.bound
    have hmore : peeks "|" (.bar :: us ++ rest) = true := rfl
    rw [parse, heq, if_pos hmore]
    apply (ih₂ hop.bound (by omega) (hop.left hleft) hrest).bind
    rintro ⟨right, s''⟩ ⟨hright, hadv'⟩
    exact Returns.ok ⟨Reads.pipe hr hright, hadv.trans (hop.trans hadv')⟩
  | @block ts us c rs _ hus ih =>
    simp only [depth, rank] at hfuel ih
    obtain ⟨fuel, rfl⟩ : ∃ k, fuel = k + 1 := ⟨fuel - 1, by omega⟩
    rw [List.append_assoc] at hview
    exact parseblock_complete hnul ih hus hs (by omega) hview (hrest.peeks_false (by decide))
  | @simple us ts ws qs rs hus hts hlen =>
    simp only [depth, rank] at hfuel
    obtain ⟨fuel, rfl⟩ : ∃ k, fuel = k + 1 := ⟨fuel - 1, by omega⟩
    rw [List.append_assoc] at hview
    exact parseexec_complete hnul hus hts hlen hs hview hrest

end

end Xv6.Sh
