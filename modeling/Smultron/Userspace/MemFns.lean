import Smultron.Basic
import Smultron.Lib.Memory

/-!
# Memory functions (userspace/libos/src/lib.rs)

The C functions that compiled programs call to copy, fill and compare blocks. Pointers are addresses,
and no block goes over the end of the memory.
-/

namespace Smultron.Libos

open Memory

/-- `p.write(byte)` -/
def writeAt (mem : Mem) (p : Nat) (byte : UInt8) : Mem := fun a => if a = p then byte else mem a

/-- The loop of `memcpy` at `i`, with `left` rounds to go. -/
def memcpyLoop (dst src : Nat) : Nat → Nat → Mem → Mem
  | _, 0, mem => mem
  | i, left + 1, mem => memcpyLoop dst src (i + 1) left (writeAt mem (dst + i) (mem (src + i)))

/-- The memory, and the pointer that is returned. -/
def memcpy (mem : Mem) (dst src n : Nat) : Mem × Nat := (memcpyLoop dst src 0 n mem, dst)

def memsetLoop (dst : Nat) (byte : UInt8) : Nat → Nat → Mem → Mem
  | _, 0, mem => mem
  | i, left + 1, mem => memsetLoop dst byte (i + 1) left (writeAt mem (dst + i) byte)

def memset (mem : Mem) (dst : Nat) (val : Int32) (n : Nat) : Mem × Nat :=
  let byte := val.toUInt32.toUInt8
  (memsetLoop dst byte 0 n mem, dst)

def memcmpLoop (mem : Mem) (a b : Nat) : Nat → Nat → Int
  | _, 0 => 0
  | i, left + 1 =>
    let av := mem (a + i)
    let bv := mem (b + i)
    if av ≠ bv then (av.toNat : Int) - bv.toNat else memcmpLoop mem a b (i + 1) left

def memcmp (mem : Mem) (a b n : Nat) : Int := memcmpLoop mem a b 0 n

end Smultron.Libos
