import Smultron.Basic
import Smultron.Lib.Checked
import Smultron.Lib.Stepped

/-!
# The frame allocator (kernel/src/memory.rs)

Every call goes through the frames of the usable regions from the first one on and takes the one
that its counter says. Addresses are 64-bit words; ranges of them are taken in steps without
overflow. Physical addresses and frames are those of the `x86_64` crate, which is not in the source,
so the allocator is open in them.
-/

namespace Smultron.FrameAllocator

open Checked Checked.Outcome

/-- The size of a frame, `Size4KiB`. -/
def frameSize : Nat := 4096

/-- What the allocator uses of the crate, and the start of a frame. -/
structure X86 (PhysAddr PhysFrame : Type) where
  -- `PhysAddr::new`
  newAddr : Nat → Outcome Empty PhysAddr
  -- `PhysFrame::containing_address`
  containingAddress : PhysAddr → PhysFrame
  -- `frame.start_address().as_u64()`
  startAddress : PhysFrame → Nat

/-- The kinds of memory in the boot information: the allocator asks for one of them. -/
inductive MemoryRegionType where
  | usable
  | other
  deriving DecidableEq

/-- An entry of the memory map, with the two addresses of its range. -/
structure MemoryRegion where
  startAddr : Nat
  endAddr : Nat
  regionType : MemoryRegionType
  deriving DecidableEq

structure BootInfoFrameAllocator where
  memoryMap : List MemoryRegion
  next : Nat

namespace BootInfoFrameAllocator

def init (memoryMap : List MemoryRegion) : BootInfoFrameAllocator := ⟨memoryMap, 0⟩

def frameAddresses (alloc : BootInfoFrameAllocator) : List Nat :=
  let usableRegions := alloc.memoryMap.filter (·.regionType = .usable)
  usableRegions.flatMap fun r => stepBy r.startAddr r.endAddr frameSize

variable {PhysAddr PhysFrame α : Type} (x86 : X86 PhysAddr PhysFrame)

/-- The items of the iterator. An item is computed when it is asked for and may panic then. -/
def usableFrames (alloc : BootInfoFrameAllocator) : List (Outcome Empty PhysFrame) :=
  alloc.frameAddresses.map fun addr => do
    let addr ← x86.newAddr addr
    return x86.containingAddress addr

/-- `Iterator::nth`: the items in front are computed, too. -/
def nth : List (Outcome Empty α) → Nat → Outcome Empty (Option α)
  | [], _ => return none
  | item :: _, 0 => do
    let a ← item
    return some a
  | item :: items, n + 1 => do
    let _ ← item
    nth items n

def allocateFrame (alloc : BootInfoFrameAllocator) :
    Outcome Empty (Option PhysFrame × BootInfoFrameAllocator) := do
  let frame ← nth (alloc.usableFrames x86) alloc.next
  let next ← add alloc.next 1
  return (frame, { alloc with next })

/-- The answers of the first `n` calls, up to a call that panics. -/
def answers : Nat → BootInfoFrameAllocator → List (Option PhysFrame)
  | 0, _ => []
  | n + 1, alloc =>
    match alloc.allocateFrame x86 with
    | .ok (frame, alloc') => frame :: answers n alloc'
    | _ => []

end BootInfoFrameAllocator

end Smultron.FrameAllocator
