import Mathlib.Algebra.Ring.Nat

/-!
# Kernel parameters

The constants of `kernel/param.h` that the models use, and the states a slot of the process
table goes through (`kernel/proc.h:82`).
-/

namespace Xv6

/-- Maximum number of processes; `kernel/param.h:1`. -/
def NPROC : Nat := 64

instance : NeZero NPROC := ⟨by decide⟩

/-- Open files per process; `kernel/param.h:3`. -/
def NOFILE : Nat := 16

/-- Open files per system; `kernel/param.h:4`. -/
def NFILE : Nat := 100

/-- Maximum number of active inodes; `kernel/param.h:5`. -/
def NINODE : Nat := 50

/-- Maximum major device number; `kernel/param.h:6`. -/
def NDEV : Nat := 10

/-- Maximum number of blocks any file-system operation writes; `kernel/param.h:9`. -/
def MAXOPBLOCKS : Nat := 10

/-- Maximum number of data blocks in the on-disk log; `kernel/param.h:10`. -/
def LOGSIZE : Nat := MAXOPBLOCKS * 3

/-- Size of the buffer cache; `kernel/param.h:11`. -/
def NBUF : Nat := MAXOPBLOCKS * 3

/-- Size of the file system in blocks; `kernel/param.h:12`. -/
def FSSIZE : Nat := 2000

/-- Maximum length of a path, with its NUL; `kernel/param.h:13`. -/
def MAXPATH : Nat := 128

/-- Process states; `enum procstate` of `kernel/proc.h:82`. -/
inductive ProcState where
  | UNUSED
  | USED
  | SLEEPING
  | RUNNABLE
  | RUNNING
  | ZOMBIE
  deriving DecidableEq, Repr

end Xv6
