import Mathlib.Logic.Function.Basic
import Xv6.Base.Memmove

/-!
# `grep`

`user/grep.c`. A pattern and a text are C strings, lists of bytes that end where the NUL is. The
lines of the input are read into the array `buf` in memory, which `read` fills piece by piece.
-/

namespace Xv6.Grep

/-- A C string, without its NUL. -/
abbrev Text := List UInt8

def caret : UInt8 := '^'.toUInt8

def dollar : UInt8 := '$'.toUInt8

def dot : UInt8 := '.'.toUInt8

def star : UInt8 := '*'.toUInt8

def newline : UInt8 := '\n'.toUInt8

/-! ### The matcher -/

mutual

/-- `matchhere`: search for `re` at the beginning of the text; `user/grep.c:84–96`. -/
def matchhere (re text : Text) : Bool :=
  match re with
  | [] => true
  | c :: re =>
    if re.head? = some star then matchstar c re.tail text
    else if c = dollar ∧ re = [] then text = []
    else match text with
    | [] => false
    | x :: text => if c = dot ∨ c = x then matchhere re text else false
termination_by (re.length + text.length, 0)
decreasing_by
  · simp only [Prod.lex_def, List.length_cons, List.length_tail]
    omega
  · simp only [Prod.lex_def, List.length_cons]
    omega

/-- `matchstar`: search for `c*re` at the beginning of the text; `user/grep.c:98–106`. -/
def matchstar (c : UInt8) (re text : Text) : Bool :=
  if matchhere re text then true
  else match text with
  | [] => false
  | x :: text => if x = c ∨ c = dot then matchstar c re text else false
termination_by (re.length + text.length, 1)
decreasing_by
  · exact Prod.Lex.right _ Nat.zero_lt_one
  · simp only [Prod.lex_def, List.length_cons]
    omega

end

/-- The loop of `match`, which looks at the empty text too; `user/grep.c:77–80`. -/
def matchLoop (re : Text) : Text → Bool
  | [] => matchhere re []
  | x :: text => if matchhere re (x :: text) then true else matchLoop re text

/-- `match`; `user/grep.c:72–82`. -/
def matchText (re text : Text) : Bool :=
  if re.head? = some caret then matchhere re.tail text else matchLoop re text

/-! ### The lines -/

/-- `sizeof(buf)`; `user/grep.c:8`. -/
def BUFSZ : Nat := 1024

/-- The string at `p`, among the next `n` bytes. -/
def cstring (mem : Memory) : Nat → Nat → Text
  | 0, _ => []
  | n + 1, p => if mem p = 0 then [] else mem p :: cstring mem n (p + 1)

/-- `strchr`, with a NUL among the next `n` bytes; `user/ulib.c:62–69`. -/
def strchr (mem : Memory) (c : UInt8) : Nat → Nat → Option Nat
  | 0, _ => none
  | n + 1, s => if mem s = 0 then none else if mem s = c then some s else strchr mem c n (s + 1)

theorem strchr_some {mem : Memory} {c : UInt8} {n s q : Nat} (h : strchr mem c n s = some q) :
    s ≤ q ∧ q < s + n := by
  induction n generalizing s with
  | zero => cases h
  | succ n ih =>
    rw [strchr] at h
    split at h
    · cases h
    · split at h
      · cases h
        omega
      · have := ih h
        omega

/-- The bytes from `p` on. -/
def bytes (mem : Memory) (p n : Nat) : Text := (List.range n).map (fun i ↦ mem (p + i))

/-- Store bytes from `p` on. -/
def store (mem : Memory) (p : Nat) (bs : Text) : Memory :=
  fun a ↦ if p ≤ a then (bs[a - p]?).getD (mem a) else mem a

section
variable (pattern : Text) (buf : Nat)

/-- The loop over the lines in the buffer from `p` on: what it writes, and the pointer and the
memory it leaves; `user/grep.c:22–29`. -/
def grepLines (p : Nat) (mem : Memory) : List Text × Nat × Memory :=
  match _h : strchr mem newline (buf + BUFSZ - p) p with
  | none => ([], p, mem)
  | some q =>
    let cut := Function.update mem q 0
    if matchText pattern (cstring cut (buf + BUFSZ - p) p) then
      let mem := Function.update cut q newline
      let (out, r) := grepLines (q + 1) mem
      (bytes mem p (q + 1 - p) :: out, r)
    else grepLines (q + 1) cut
termination_by buf + BUFSZ - p
decreasing_by
  · have := strchr_some _h
    omega
  · have := strchr_some _h
    omega

/-- `read` of at most `want` bytes: it returns one byte at least as long as there is one, and never
more than `k + 1`. -/
def read (input : Text) (want k : Nat) : Text := input.take (min want (k + 1))

theorem length_read_le (input : Text) (want k : Nat) :
    (read input want k).length ≤ input.length := by
  rw [read, List.length_take]
  omega

/-- The loop of `grep` with `m` bytes in the buffer, and what it writes. The `i`-th call of `read`
returns at most `chop i + 1` bytes. `user/grep.c:18–34`. -/
def grepLoop (chop : Nat → Nat) (i : Nat) (input : Text) (m : Nat) (mem : Memory) : List Text :=
  let piece := read input (BUFSZ - m - 1) (chop i)
  if _h : 0 < piece.length then
    let mem := store mem (buf + m) piece
    let m := m + piece.length
    let mem := Function.update mem (buf + m) 0
    let (out, p, mem) := grepLines pattern buf buf mem
    let rest := input.drop piece.length
    if 0 < m then
      let m := m - (p - buf)
      out ++ grepLoop chop (i + 1) rest m (Ulib.memmove buf p m mem).2
    else out ++ grepLoop chop (i + 1) rest m mem
  else []
termination_by input.length
decreasing_by
  all_goals
    have hle : piece.length ≤ input.length := length_read_le input _ _
    change (input.drop piece.length).length < input.length
    rw [List.length_drop]
    omega

/-- `grep` of an input: the texts it writes, one for each call of `write`; `user/grep.c:11–35`. -/
def grep (chop : Nat → Nat) (input : Text) (mem : Memory) : List Text :=
  grepLoop pattern buf chop 0 input 0 mem

end

end Xv6.Grep
