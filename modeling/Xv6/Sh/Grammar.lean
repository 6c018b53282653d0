import Mathlib.Data.List.TakeWhile
import Xv6.Sh.Parser

/-!
# The grammar of the shell

What a command line is: its tokens, the derivations of a sequence of tokens, and the tree of each
derivation. Nothing here refers to how the parser works.
-/

namespace Xv6.Sh

/-- A text of one line: the bytes of a word. -/
abbrev Text := List UInt8

/-- The tokens. -/
inductive Token where
  | lt
  | gt
  | gtgt
  | bar
  | amp
  | semi
  | lparen
  | rparen
  | word (w : Text)
  deriving DecidableEq, Repr

/-- The token of a symbol that stands alone. -/
def symbolToken (c : UInt8) : Token :=
  if c = '<'.toUInt8 then .lt
  else if c = '>'.toUInt8 then .gt
  else if c = '|'.toUInt8 then .bar
  else if c = '&'.toUInt8 then .amp
  else if c = ';'.toUInt8 then .semi
  else if c = '('.toUInt8 then .lparen
  else .rparen

/-- The first token of a text that does not start with whitespace, and the rest. A word is as long
as possible, and so is `>>`. -/
def firstToken (c : UInt8) (cs : Text) : Token × Text :=
  if isWord c then (.word (c :: cs.takeWhile isWord), cs.dropWhile isWord)
  else if c = '>'.toUInt8 ∧ cs.head? = some '>'.toUInt8 then (.gtgt, cs.tail)
  else (symbolToken c, cs)

theorem length_firstToken (c : UInt8) (cs : Text) : (firstToken c cs).2.length ≤ cs.length := by
  unfold firstToken
  split
  · exact List.length_dropWhile_le _ _
  · split
    · rw [List.length_tail]
      omega
    · exact Nat.le_refl _

/-- The tokens of a text. -/
def tokens (inp : Text) : List Token :=
  match _h : inp.dropWhile isSpace with
  | [] => []
  | c :: cs => (firstToken c cs).1 :: tokens (firstToken c cs).2
termination_by inp.length
decreasing_by
  have hlen := List.length_dropWhile_le isSpace inp
  have hrest := length_firstToken c cs
  rw [_h, List.length_cons] at hlen
  omega

/-- A redirection: the operator with its word. -/
structure Redir where
  file : Text
  mode : Nat
  fd : Nat
  deriving DecidableEq, Repr

/-- `redir -> ('<' | '>' | '>>') WORD`. -/
inductive DerivesRedir : List Token → Redir → Prop
  | input (w : Text) : DerivesRedir [.lt, .word w] ⟨w, O_RDONLY, 0⟩
  | output (w : Text) : DerivesRedir [.gt, .word w] ⟨w, O_WRONLY ||| O_CREATE ||| O_TRUNC, 1⟩
  | append (w : Text) : DerivesRedir [.gtgt, .word w] ⟨w, O_WRONLY ||| O_CREATE, 1⟩

/-- `redir*`. -/
inductive DerivesRedirs : List Token → List Redir → Prop
  | nil : DerivesRedirs [] []
  | cons {ts us : List Token} {r : Redir} {rs : List Redir} :
    DerivesRedir ts r → DerivesRedirs us rs → DerivesRedirs (ts ++ us) (r :: rs)

/-- `(WORD redir*)*`: the words and the redirections. -/
inductive DerivesArgs : List Token → List Text → List Redir → Prop
  | nil : DerivesArgs [] [] []
  | cons {us ts : List Token} {w : Text} {ws : List Text} {qs rs : List Redir} :
    DerivesRedirs us qs → DerivesArgs ts ws rs →
      DerivesArgs (.word w :: us ++ ts) (w :: ws) (qs ++ rs)

/-- Redirections around a command, the first one innermost. -/
def wrap (cmd : Cmd Text) (rs : List Redir) : Cmd Text :=
  rs.foldl (fun cmd r ↦ .redir cmd r.file r.mode r.fd) cmd

/-- `BACK` once for each `&`. -/
def backs (cmd : Cmd Text) : Nat → Cmd Text
  | 0 => cmd
  | n + 1 => backs (.back cmd) n

/-- The derivations of `line`, `pipe` and `exec` with their trees:
`line -> pipe '&'* [';' line]`, `pipe -> exec ['|' pipe]`, and
`exec -> '(' line ')' redir* | redir* (WORD redir*)*` with at most `MAXARGS - 1` words. -/
inductive Derives : Nonterminal → List Token → Cmd Text → Prop
  | line {ts : List Token} {c : Cmd Text} (n : Nat) :
    Derives .pipe ts c → Derives .line (ts ++ List.replicate n .amp) (backs c n)
  | list {ts us : List Token} {c d : Cmd Text} (n : Nat) : Derives .pipe ts c → Derives .line us d →
    Derives .line (ts ++ List.replicate n .amp ++ .semi :: us) (.list (backs c n) d)
  | single {ts : List Token} {c : Cmd Text} : Derives .exec ts c → Derives .pipe ts c
  | pipe {ts us : List Token} {c d : Cmd Text} : Derives .exec ts c → Derives .pipe us d →
    Derives .pipe (ts ++ .bar :: us) (.pipe c d)
  | block {ts us : List Token} {c : Cmd Text} {rs : List Redir} : Derives .line ts c →
    DerivesRedirs us rs → Derives .exec (.lparen :: ts ++ .rparen :: us) (wrap c rs)
  | simple {us ts : List Token} {ws : List Text} {qs rs : List Redir} : DerivesRedirs us qs →
    DerivesArgs ts ws rs → ws.length ≤ MAXARGS - 1 →
    Derives .exec (us ++ ts) (wrap (.exec ws) (qs ++ rs))

end Xv6.Sh
