import Xv6.Base.Param

/-!
# The parser of the shell

`user/sh.c:263–494` on a string of bytes. A `char *` into the string is an offset, and the functions
that move `*ps` return the new one. Every loop and every recursive call has a bound on the number of
steps, so that running out of steps is a result of its own; the parser never does. `malloc`
succeeds.
-/

namespace Xv6.Sh

/-- Words of a command that `EXEC` has room for, and one more; `user/sh.c:14`. -/
def MAXARGS : Nat := 10

/-- The bytes of a string literal. -/
def chars (s : String) : List UInt8 := s.toList.map Char.toUInt8

/-- `strchr(s, c)` as a test; `user/ulib.c:62–69`. -/
def strchr (s : String) (c : UInt8) : Bool := (chars s).contains c

/-- `user/sh.c:263`. -/
def whitespace : String := " \t\r\n\x0b"

/-- `user/sh.c:264`. -/
def symbols : String := "<|>&;()"

/-- A character that `gettoken` skips. -/
def isSpace (c : UInt8) : Bool := strchr whitespace c

/-- A character of a word. -/
def isWord (c : UInt8) : Bool := !strchr whitespace c && !strchr symbols c

/-- `*s`, which is 0 at the end. -/
def charAt (inp : List UInt8) (s : Nat) : UInt8 := (inp.drop s).headD 0

/-- `while(s < es && p(*s)) s++`. -/
def span (p : UInt8 → Bool) (inp : List UInt8) (s : Nat) : Nat :=
  s + ((inp.drop s).takeWhile p).length

/-- A word: where it starts and ends. -/
abbrev Word := Nat × Nat

/-- What `gettoken` returns: the kind of token, the token, and where to go on. -/
structure Tok where
  ret : UInt8
  word : Word
  next : Nat

/-- The token at `s` and its end; `user/sh.c:277–301`. -/
def scan (inp : List UInt8) (s : Nat) : UInt8 × Nat :=
  let c := charAt inp s
  if c = 0 then (c, s)
  else if strchr "|();&<" c then (c, s + 1)
  else if strchr ">" c then
    if strchr ">" (charAt inp (s + 1)) then ('+'.toUInt8, s + 2) else (c, s + 1)
  else ('a'.toUInt8, span isWord inp s)

/-- `gettoken`; `user/sh.c:266–309`. -/
def gettoken (inp : List UInt8) (s : Nat) : Tok :=
  let q := span isSpace inp s
  let (ret, eq) := scan inp q
  ⟨ret, (q, eq), span isSpace inp eq⟩

/-- `peek`: the answer and the new `*ps`; `user/sh.c:311–321`. -/
def peek (inp : List UInt8) (s : Nat) (toks : String) : Bool × Nat :=
  let s := span isSpace inp s
  (charAt inp s ≠ 0 && strchr toks (charAt inp s), s)

/-! ### Commands -/

/-- Open modes; `kernel/fcntl.h`. -/
def O_RDONLY : Nat := 0x000

def O_WRONLY : Nat := 0x001

def O_CREATE : Nat := 0x200

def O_TRUNC : Nat := 0x400

/-- `struct cmd`, with words of any kind; `user/sh.c:16–51`. -/
inductive Cmd (W : Type) where
  | exec (argv : List W)
  | redir (cmd : Cmd W) (file : W) (mode fd : Nat)
  | pipe (left right : Cmd W)
  | list (left right : Cmd W)
  | back (cmd : Cmd W)
  deriving DecidableEq, Repr

/-- `cmd->argv[argc++] = q` where `cmd` is the `EXEC` inside the redirections. -/
def Cmd.push {W : Type} (w : W) : Cmd W → Cmd W
  | .exec argv => .exec (argv ++ [w])
  | .redir cmd file mode fd => .redir (cmd.push w) file mode fd
  | cmd => cmd

/-- A panic, or no steps left. -/
inductive Fault where
  | panic (msg : String)
  | fuel
  deriving DecidableEq, Repr

/-- A parse: a command and the offset behind it. -/
abbrev Parse := Except Fault (Cmd Word × Nat)

/-- `redircmd` for the operator `tok`; `user/sh.c:385–395`. -/
def redircmd (tok : UInt8) (cmd : Cmd Word) (file : Word) : Cmd Word :=
  if tok = '<'.toUInt8 then .redir cmd file O_RDONLY 0
  else if tok = '>'.toUInt8 then .redir cmd file (O_WRONLY ||| O_CREATE ||| O_TRUNC) 1
  else if tok = '+'.toUInt8 then .redir cmd file (O_WRONLY ||| O_CREATE) 1
  else cmd

/-- `parseredirs`; `user/sh.c:375–398`. -/
def parseredirs (inp : List UInt8) : Nat → Cmd Word → Nat → Parse
  | 0, _, _ => .error .fuel
  | fuel + 1, cmd, s =>
    let (more, s) := peek inp s "<>"
    if more then
      let tok := gettoken inp s
      let file := gettoken inp tok.next
      if file.ret ≠ 'a'.toUInt8 then .error (.panic "missing file for redirection")
      else parseredirs inp fuel (redircmd tok.ret cmd file.word) file.next
    else .ok (cmd, s)

/-- The functions that call each other. -/
inductive Nonterminal where
  | line
  | pipe
  | exec
  deriving DecidableEq, Repr

section
variable (inp : List UInt8) (call : Nonterminal → Nat → Parse)

/-- Steps that no loop of the parser uses up: each iteration takes a byte at least. -/
def enough : Nat := inp.length + 1

/-- The loop over `&`; `user/sh.c:351–354`. -/
def parsebacks : Nat → Cmd Word → Nat → Parse
  | 0, _, _ => .error .fuel
  | fuel + 1, cmd, s =>
    let (more, s) := peek inp s "&"
    if more then parsebacks fuel (.back cmd) (gettoken inp s).next else .ok (cmd, s)

/-- `parseline`; `user/sh.c:345–360`. -/
def parseline (s : Nat) : Parse := do
  let (cmd, s) ← call .pipe s
  let (cmd, s) ← parsebacks inp (enough inp) cmd s
  let (more, s) := peek inp s ";"
  if more then
    let (right, s) ← call .line (gettoken inp s).next
    return (.list cmd right, s)
  else return (cmd, s)

/-- `parsepipe`; `user/sh.c:362–373`. -/
def parsepipe (s : Nat) : Parse := do
  let (cmd, s) ← call .exec s
  let (more, s) := peek inp s "|"
  if more then
    let (right, s) ← call .pipe (gettoken inp s).next
    return (.pipe cmd right, s)
  else return (cmd, s)

/-- `parseblock`; `user/sh.c:400–414`. -/
def parseblock (s : Nat) : Parse := do
  let (opens, s) := peek inp s "("
  if opens then
    let (cmd, s) ← call .line (gettoken inp s).next
    let (closes, s) := peek inp s ")"
    if closes then parseredirs inp (enough inp) cmd (gettoken inp s).next
    else throw (.panic "syntax - missing )")
  else throw (.panic "parseblock")

/-- The loop of `parseexec` over the words; `user/sh.c:432–443`. -/
def parseargs : Nat → Nat → Cmd Word → Nat → Parse
  | 0, _, _, _ => .error .fuel
  | fuel + 1, argc, ret, s => do
    let (ends, s) := peek inp s "|)&;"
    if ends then return (ret, s)
    else
      let tok := gettoken inp s
      if tok.ret = 0 then return (ret, tok.next)
      else if tok.ret ≠ 'a'.toUInt8 then throw (.panic "syntax")
      else if argc + 1 ≥ MAXARGS then throw (.panic "too many args")
      else
        let (ret, s) ← parseredirs inp (enough inp) (ret.push tok.word) tok.next
        parseargs fuel (argc + 1) ret s

/-- `parseexec`; `user/sh.c:416–447`. -/
def parseexec (s : Nat) : Parse := do
  let (block, s) := peek inp s "("
  if block then parseblock inp call s
  else
    let (ret, s) ← parseredirs inp (enough inp) (.exec []) s
    parseargs inp (enough inp) 0 ret s

end

/-- The functions that call each other, with a bound on the depth of the calls. -/
def parse (inp : List UInt8) : Nat → Nonterminal → Nat → Parse
  | 0, _, _ => .error .fuel
  | fuel + 1, .line, s => parseline inp (parse inp fuel) s
  | fuel + 1, .pipe, s => parsepipe inp (parse inp fuel) s
  | fuel + 1, .exec, s => parseexec inp (parse inp fuel) s

/-- `nulterminate`: the string after a NUL was written behind each word; `user/sh.c:449–494`. -/
def nulterminate : Cmd Word → List UInt8 → List UInt8
  | .exec argv, buf => argv.foldl (fun buf w ↦ buf.set w.2 0) buf
  | .redir cmd file _ _, buf => (nulterminate cmd buf).set file.2 0
  | .pipe left right, buf => nulterminate right (nulterminate left buf)
  | .list left right, buf => nulterminate right (nulterminate left buf)
  | .back cmd, buf => nulterminate cmd buf

/-- `parsecmd`: the command, and the bytes of the string with its NUL afterwards;
`user/sh.c:328–343`. -/
def parsecmd (fuel : Nat) (inp : List UInt8) : Except Fault (Cmd Word × List UInt8) := do
  let (cmd, s) ← parse inp fuel .line 0
  let (_, s) := peek inp s ""
  if s ≠ inp.length then throw (.panic "syntax")
  else return (cmd, nulterminate cmd (inp ++ [0]))

end Xv6.Sh
