import Xv6.Lib.Bytes

/-!
# Disk blocks

A disk block as the bytes that `bread` puts in `b->data`. Block numbers are `uint`.
-/

namespace Xv6

/-- Block size in bytes; `kernel/fs.h:6`. -/
def BSIZE : Nat := 1024

/-- The contents of a block. Code reads and writes bytes at offsets below `BSIZE` only. -/
abbrev Block := Nat → UInt8

/-- What the sectors of a disk hold. -/
abbrev Disk := Nat → Block

end Xv6
