import Mathlib.Data.BitVec
import Xv6.Base.Param

/-!
# System-call dispatch

`syscall()` of `kernel/syscall.c:173` with its two tables, as `conf/lab.mk` configures the kernel. A
table is an array with designated initializers: as long as its highest index needs, with null
pointers in the gaps. A read outside of an array is a fault. The handlers are parameters, except
for the two that the dispatch depends on.
-/

namespace Xv6.Dispatch

/-- The value of `LAB` in `conf/lab.mk`, as far as the tables depend on it. -/
inductive Lab where
  | net
  | pgtbl
  | other
  deriving DecidableEq, Repr

/-- The handlers; `kernel/syscall.c:80–112`. -/
inductive Handler where
  | sysFork
  | sysExit
  | sysWait
  | sysPipe
  | sysRead
  | sysKill
  | sysExec
  | sysFstat
  | sysChdir
  | sysDup
  | sysGetpid
  | sysSbrk
  | sysSleep
  | sysUptime
  | sysOpen
  | sysWrite
  | sysMknod
  | sysUnlink
  | sysLink
  | sysMkdir
  | sysClose
  | sysTrace
  | sysSysinfo
  | sysConnect
  | sysPgaccess
  deriving DecidableEq, Repr

/-- The system call numbers of `kernel/syscall.h`. -/
def Handler.number : Handler → Nat
  | .sysFork => 1
  | .sysExit => 2
  | .sysWait => 3
  | .sysPipe => 4
  | .sysRead => 5
  | .sysKill => 6
  | .sysExec => 7
  | .sysFstat => 8
  | .sysChdir => 9
  | .sysDup => 10
  | .sysGetpid => 11
  | .sysSbrk => 12
  | .sysSleep => 13
  | .sysUptime => 14
  | .sysOpen => 15
  | .sysWrite => 16
  | .sysMknod => 17
  | .sysUnlink => 18
  | .sysLink => 19
  | .sysMkdir => 20
  | .sysClose => 21
  | .sysTrace => 22
  | .sysSysinfo => 23
  | .sysConnect => 29
  | .sysPgaccess => 30

/-- The handlers that every configuration installs, in the order of `kernel/syscall.c:117–139`. -/
def common : List Handler :=
  [.sysFork, .sysExit, .sysWait, .sysPipe, .sysRead, .sysKill, .sysExec, .sysFstat, .sysChdir,
    .sysDup, .sysGetpid, .sysSbrk, .sysSleep, .sysUptime, .sysOpen, .sysWrite, .sysMknod,
    .sysUnlink, .sysLink, .sysMkdir, .sysClose, .sysTrace, .sysSysinfo]

/-- The handlers of a configuration; `kernel/syscall.c:116–146`. -/
def installed : Lab → List Handler
  | .net => common ++ [.sysConnect]
  | .pgtbl => common ++ [.sysPgaccess]
  | .other => common

/-- An array that is given by designated initializers; a later one overrides an earlier one. -/
def designated {α : Type} (inits : List (Nat × α)) : List (Option α) :=
  (List.range (inits.foldr (fun e n ↦ max (e.1 + 1) n) 0)).map
    (fun i ↦ (inits.reverse.find? (fun e ↦ e.1 = i)).map Prod.snd)

/-- `syscalls[]`; `kernel/syscall.c:116–146`. -/
def syscalls (lab : Lab) : List (Option Handler) :=
  designated ((installed lab).map (fun h ↦ (h.number, h)))

/-- `str_syscalls[]`; `kernel/syscall.c:148–172`. It has no conditional entries. -/
def strSyscalls : List (Option String) :=
  designated [(Handler.sysFork.number, "fork"), (Handler.sysExit.number, "exit"),
    (Handler.sysWait.number, "wait"), (Handler.sysPipe.number, "pipe"),
    (Handler.sysRead.number, "read"), (Handler.sysKill.number, "kill"),
    (Handler.sysExec.number, "exec"), (Handler.sysFstat.number, "fstat"),
    (Handler.sysChdir.number, "chdir"), (Handler.sysDup.number, "dup"),
    (Handler.sysGetpid.number, "getpid"), (Handler.sysSbrk.number, "sbrk"),
    (Handler.sysSleep.number, "sleep"), (Handler.sysUptime.number, "uptime"),
    (Handler.sysOpen.number, "open"), (Handler.sysWrite.number, "write"),
    (Handler.sysMknod.number, "mknod"), (Handler.sysUnlink.number, "unlink"),
    (Handler.sysLink.number, "link"), (Handler.sysMkdir.number, "mkdir"),
    (Handler.sysClose.number, "close"), (Handler.sysTrace.number, "trace"),
    (Handler.sysSysinfo.number, "sysinfo")]

/-- The part of a process that `syscall()` reads and writes, and the rest that handlers change. -/
structure Proc (σ : Type) where
  pid : Int
  name : String
  a0 : BitVec 64
  a7 : BitVec 64
  traceMask : BitVec 32
  rest : σ

/-- The lines that `syscall()` prints; a null pointer for `%s` is `none`. -/
inductive Line where
  | traced (pid : Int) (name : Option String) (ret : BitVec 64)
  | unknown (pid : Int) (name : String) (num : Int)
  deriving DecidableEq, Repr

/-- A read outside of one of the tables. -/
inductive Fault where
  | syscalls (num : Nat)
  | strSyscalls (num : Nat)
  deriving DecidableEq, Repr

/-- What a call of `syscall()` did. `proc` is `none` if the handler does not return. -/
structure Outcome (σ : Type) where
  ran : Option Handler
  proc : Option (Proc σ)
  printed : Option Line

section
variable {σ : Type}

/-- The value a handler returns, with the process afterwards; `none` if it does not return.
`sys_trace` is at `kernel/sysproc.c:105`, `sys_pgaccess` at `kernel/sysproc.c:76`. -/
def Handler.call (others : Handler → Proc σ → Option (BitVec 64 × Proc σ)) :
    Handler → Proc σ → Option (BitVec 64 × Proc σ)
  | .sysTrace, p => some (0, { p with traceMask := p.a0.setWidth 32 })
  | .sysPgaccess, p => some (0, p)
  | h, p => others h p

/-- `int num = p->trapframe->a7`. -/
def Proc.num (p : Proc σ) : BitVec 32 := p.a7.setWidth 32

/-- The trace line after a handler has returned; `kernel/syscall.c:185–186`. -/
def traceLine (h : Handler) (num : BitVec 32) (p : Proc σ) : Except Fault (Outcome σ) :=
  if (1#32 <<< num.toNat) &&& p.traceMask ≠ 0 then
    match strSyscalls[num.toNat]? with
    | none => .error (.strSyscalls num.toNat)
    | some name => .ok ⟨some h, some p, some (.traced p.pid name p.a0)⟩
  else .ok ⟨some h, some p, none⟩

/-- `syscall()`; `kernel/syscall.c:173–192`. `NELEM` is unsigned and 64 bits wide. -/
def syscall (lab : Lab) (others : Handler → Proc σ → Option (BitVec 64 × Proc σ)) (p : Proc σ) :
    Except Fault (Outcome σ) :=
  let unknown : Outcome σ :=
    ⟨none, some { p with a0 := -1 }, some (.unknown p.pid p.name p.num.toInt)⟩
  if 0 < p.num.toInt ∧ (p.num.signExtend 64).toNat < (syscalls lab).length then
    match (syscalls lab)[p.num.toNat]? with
    | none => .error (.syscalls p.num.toNat)
    | some none => .ok unknown
    | some (some h) =>
      match h.call others p with
      | none => .ok ⟨some h, none, none⟩
      | some (ret, q) => traceLine h p.num { q with a0 := ret }
  else .ok unknown

/-- What a call should do: read the tables within their bounds, run the handler whose number it is
given if there is one, store -1 otherwise, and print a trace line with the handler's name only. -/
structure Dispatches (lab : Lab) (p : Proc σ) (r : Except Fault (Outcome σ)) (o : Outcome σ) :
    Prop where
  within : r = .ok o
  handler : ∀ h, o.ran = some h ↔ h ∈ installed lab ∧ (h.number : Int) = p.num.toInt
  unknown : o.ran = none → o.proc = some { p with a0 := -1 }
  traced : ∀ pid name ret, o.printed = some (.traced pid name ret) →
    ∃ h text, o.ran = some h ∧ name = some text ∧ strSyscalls[h.number]? = some (some text)

/-! ### The tables -/

theorem syscalls_length : (syscalls .pgtbl).length = 31 := by decide

theorem syscalls_number : ∀ h ∈ installed .pgtbl, (syscalls .pgtbl)[h.number]? = some (some h) := by
  decide

theorem number_lt : ∀ h ∈ installed .pgtbl, 0 < h.number ∧ h.number < 31 := by decide

theorem syscalls_entry {i : Nat} (hi : i < 31) {h : Handler}
    (hget : (syscalls .pgtbl)[i]? = some (some h)) : h ∈ installed .pgtbl ∧ h.number = i := by
  have hall : ∀ i < 31, ∀ e ∈ (syscalls .pgtbl)[i]?, ∀ h ∈ e, h ∈ installed .pgtbl ∧
      h.number = i := by
    decide
  exact hall i hi _ hget h rfl

theorem strSyscalls_common :
    ∀ h ∈ common, (strSyscalls[h.number]?.bind id).isSome = true := by
  decide

theorem strSyscalls_pgaccess : strSyscalls[30]? = none := by decide

/-- The test `1 << num & p->trace_mask`. -/
theorem mask_bit {n : Nat} (hn : n < 32) (mask : BitVec 32) :
    (1#32 <<< n) &&& mask ≠ 0 ↔ mask.getLsbD n = true := by
  rw [BitVec.and_comm, ← BitVec.twoPow_eq, BitVec.and_twoPow]
  split
  · next hbit =>
    refine ⟨fun _ ↦ hbit, fun _ hzero ↦ ?_⟩
    have hget := congrArg (fun x : BitVec 32 ↦ x.getLsbD n) hzero
    rw [BitVec.getLsbD_twoPow] at hget
    simp [hn] at hget
  · next hbit => exact ⟨fun hne ↦ absurd rfl hne, fun h ↦ absurd h hbit⟩

/-! ### The number -/

theorem num_of_pos {num : BitVec 32} (h : 0 < num.toInt) :
    num.toInt = num.toNat ∧ (num.signExtend 64).toNat = num.toNat := by
  have hmsb : num.msb = false := by
    rw [BitVec.msb_eq_toInt, decide_eq_false_iff_not]
    omega
  refine ⟨BitVec.toInt_eq_toNat_of_msb hmsb, ?_⟩
  rw [BitVec.signExtend_eq_setWidth_of_msb_false hmsb, BitVec.toNat_setWidth]
  have := num.isLt
  omega

theorem num_of_number {num : BitVec 32} {n : Nat} (hn : n < 31) (h : (n : Int) = num.toInt) :
    num.toNat = n := by
  rw [BitVec.toInt_eq_toNat_cond] at h
  have := num.isLt
  split at h <;> omega

/-! ### The call -/

variable {others : Handler → Proc σ → Option (BitVec 64 × Proc σ)} {p : Proc σ}

/-- A number that no installed handler has. -/
theorem dispatches_unknown (h : ∀ h ∈ installed .pgtbl, (h.number : Int) ≠ p.num.toInt)
    {r : Except Fault (Outcome σ)}
    (hr : r = .ok ⟨none, some { p with a0 := -1 }, some (.unknown p.pid p.name p.num.toInt)⟩) :
    ∃ o, Dispatches .pgtbl p r o := by
  refine ⟨_, hr, ?_, fun _ ↦ rfl, ?_⟩
  · intro g
    exact ⟨fun hg ↦ (nomatch hg), fun hg ↦ absurd hg.2 (h g hg.1)⟩
  · intro pid name ret hp
    cases hp

/-- A handler has run, and printed its own name or nothing. -/
theorem dispatches_ran {h : Handler} (hmem : h ∈ installed .pgtbl)
    (hnum : (h.number : Int) = p.num.toInt) {o : Outcome σ} (hran : o.ran = some h)
    (hline : ∀ pid name ret, o.printed = some (.traced pid name ret) →
      ∃ text, name = some text ∧ strSyscalls[h.number]? = some (some text)) :
    Dispatches .pgtbl p (.ok o) o := by
  refine ⟨rfl, ?_, ?_, ?_⟩
  · intro g
    rw [hran]
    constructor
    · intro hg
      rw [← Option.some.inj hg]
      exact ⟨hmem, hnum⟩
    · rintro ⟨hg, hgnum⟩
      have hsame : h.number = g.number := Int.ofNat_inj.mp (hnum.trans hgnum.symm)
      have hget := syscalls_number g hg
      rw [← hsame, syscalls_number h hmem] at hget
      exact Option.some.inj hget
  · intro hnone
    rw [hran] at hnone
    cases hnone
  · intro pid name ret hp
    obtain ⟨text, hname, htext⟩ := hline pid name ret hp
    exact ⟨h, text, hran, hname, htext⟩

/-- A handler of the common part. -/
theorem dispatches_common {h : Handler} (hmem : h ∈ common) (hnum : p.num.toNat = h.number)
    (hint : (h.number : Int) = p.num.toInt) (q : Proc σ) :
    ∃ o, Dispatches .pgtbl p (traceLine h p.num q) o := by
  have hin : h ∈ installed .pgtbl := List.mem_append_left _ hmem
  unfold traceLine
  split
  · obtain ⟨text, htext⟩ := Option.isSome_iff_exists.mp (strSyscalls_common h hmem)
    obtain ⟨entry, hentry, hid⟩ := Option.bind_eq_some_iff.mp htext
    rw [id_eq] at hid
    rw [hnum, hentry]
    refine ⟨_, dispatches_ran hin hint rfl ?_⟩
    intro pid name ret hp
    cases hp
    exact ⟨text, hid, by rw [hentry, hid]⟩
  · exact ⟨_, dispatches_ran hin hint rfl (fun _ _ _ hp ↦ (nomatch hp))⟩

/-- `sys_pgaccess` has no entry in `str_syscalls[]`. -/
theorem dispatches_pgaccess (hnum : p.num.toNat = 30) (hint : (30 : Int) = p.num.toInt) :
    (∃ o, Dispatches .pgtbl p (traceLine .sysPgaccess p.num { p with a0 := 0 }) o) ↔
      p.traceMask.getLsbD 30 = false := by
  have hbit := mask_bit (show 30 < 32 by decide) p.traceMask
  unfold traceLine
  rw [hnum]
  split
  · next hmask =>
    rw [hbit] at hmask
    rw [strSyscalls_pgaccess, hmask]
    constructor
    · rintro ⟨o, ho⟩
      cases ho.within
    · intro hfalse
      cases hfalse
  · next hmask =>
    rw [hbit, Bool.not_eq_true] at hmask
    refine ⟨fun _ ↦ hmask, fun _ ↦ ⟨_, dispatches_ran (h := .sysPgaccess) (by decide) hint rfl ?_⟩⟩
    intro pid name ret hp
    cases hp

end

/-- `syscall()` does what it should, unless it would print a trace line for `sys_pgaccess`. -/
theorem dispatches_iff {σ : Type} (others : Handler → Proc σ → Option (BitVec 64 × Proc σ))
    (p : Proc σ) : (∃ o, Dispatches .pgtbl p (syscall .pgtbl others p) o) ↔
      ¬ (p.num = 30 ∧ p.traceMask.getLsbD 30 = true) := by
  by_cases hknown : ∃ h ∈ installed .pgtbl, (h.number : Int) = p.num.toInt
  · obtain ⟨h, hmem, hint⟩ := hknown
    have hlt := number_lt h hmem
    have hnum := num_of_number hlt.2 hint
    have hpos : 0 < p.num.toInt := by omega
    have hcall : syscall .pgtbl others p = match h.call others p with
        | none => .ok ⟨some h, none, none⟩
        | some (ret, q) => traceLine h p.num { q with a0 := ret } := by
      have hguard : 0 < p.num.toInt ∧ (p.num.signExtend 64).toNat < (syscalls .pgtbl).length := by
        rw [syscalls_length, (num_of_pos hpos).2, hnum]
        exact ⟨hpos, hlt.2⟩
      rw [syscall, if_pos hguard, hnum, syscalls_number h hmem]
    rw [hcall]
    rcases List.mem_append.mp hmem with hcommon | hlast
    · have hne : p.num ≠ 30 := by
        intro heq
        have hcheck : ∀ h ∈ common, h.number ≠ 30 := by decide
        rw [heq] at hnum
        exact hcheck h hcommon hnum.symm
      refine ⟨fun _ hbad ↦ hne hbad.1, fun _ ↦ ?_⟩
      cases h.call others p with
      | none => exact ⟨_, dispatches_ran hmem hint rfl (fun _ _ _ hp ↦ (nomatch hp))⟩
      | some r => exact dispatches_common hcommon hnum hint _
    · rw [List.mem_singleton.mp hlast] at hnum hint ⊢
      have heq : p.num = 30 := BitVec.eq_of_toNat_eq hnum
      refine (dispatches_pgaccess hnum hint).trans ?_
      rw [← Bool.not_eq_true]
      exact ⟨fun hbit hbad ↦ hbit hbad.2, fun hbad hbit ↦ hbad ⟨heq, hbit⟩⟩
  · have hno : ∀ h ∈ installed .pgtbl, (h.number : Int) ≠ p.num.toInt :=
      fun h hmem hint ↦ hknown ⟨h, hmem, hint⟩
    have hne : p.num ≠ 30 := by
      intro heq
      apply hno .sysPgaccess (by decide)
      rw [heq]
      decide
    refine ⟨fun _ hbad ↦ hne hbad.1, fun _ ↦ dispatches_unknown hno ?_⟩
    unfold syscall
    split
    · next hguard =>
      rw [(num_of_pos hguard.1).2, syscalls_length] at hguard
      cases hget : (syscalls .pgtbl)[p.num.toNat]? with
      | none =>
        have := List.getElem?_eq_none_iff.mp hget
        rw [syscalls_length] at this
        omega
      | some e =>
        cases e with
        | none => rfl
        | some h =>
          obtain ⟨hmem, hnum⟩ := syscalls_entry hguard.2 hget
          exact absurd (by rw [hnum, (num_of_pos hguard.1).1]) (hno h hmem)
    · rfl

/-- A process that traces every call, and calls `pgaccess`. -/
def tracedPgaccess : Proc Unit := ⟨3, "pgtbltest", 0, 30, -1, ()⟩

/-- `str_syscalls[30]` is read, of an array with 24 entries. -/
theorem syscall_reads_beyond_names :
    strSyscalls.length = 24 ∧
      syscall .pgtbl (fun _ p ↦ some (0, p)) tracedPgaccess = .error (.strSyscalls 30) ∧
      ¬ ∃ o, Dispatches .pgtbl tracedPgaccess
        (syscall .pgtbl (fun _ p ↦ some (0, p)) tracedPgaccess) o := by
  have herr : syscall .pgtbl (fun _ p ↦ some (0, p)) tracedPgaccess = .error (.strSyscalls 30) :=
    rfl
  refine ⟨by decide, herr, ?_⟩
  rintro ⟨o, ho⟩
  rw [ho.within] at herr
  cases herr

end Xv6.Dispatch
