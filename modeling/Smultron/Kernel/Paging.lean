import Smultron.Kernel.FrameAllocator
import Smultron.Kernel.Process

/-!
# Pages for the heap and the slots (kernel/src/allocator.rs, kernel/src/process.rs)

Before any program runs, the kernel maps the heap and the slots, page by page, each to a frame of its
own. Addresses, pages and page tables are those of the `x86_64` crate, which is not in the source, so
the functions are open in them.
-/

namespace Smultron.Paging

open Checked Checked.Outcome FrameAllocator Process

structure PageTableFlags where
  present : Bool
  writable : Bool

inductive MapToError (PhysFrame : Type) where
  | frameAllocationFailed
  | parentEntryHugePage
  | pageAlreadyMapped (frame : PhysFrame)

/-- What the functions use of the crate, and the start of a page. -/
structure Mapper (VirtAddr Page PhysFrame Table : Type) where
  -- `VirtAddr::new`
  newAddr : Nat → Outcome Empty VirtAddr
  -- `Page::containing_address`
  containingAddress : VirtAddr → Page
  -- the pages of `Page::range_inclusive`
  rangeInclusive : Page → Page → List Page
  -- `page.start_address().as_u64()`
  startAddress : Page → Nat
  -- `translate_page(page).ok()`
  translatePage : Table → Page → Option PhysFrame
  -- `map_to(page, frame, flags, frame_allocator)`
  mapTo : Table → Page → PhysFrame → PageTableFlags → BootInfoFrameAllocator →
    Outcome (MapToError PhysFrame) (Table × BootInfoFrameAllocator)

/-- The page tables, and the allocator that their frames come from. -/
structure Space (Table : Type) where
  table : Table
  alloc : BootInfoFrameAllocator

/-- A call that returns no error. -/
def returning {ε α : Type} : Outcome Empty α → Outcome ε α
  | .ok a => .ok a
  | .panic => .panic

variable {VirtAddr Page PhysAddr PhysFrame Table : Type} (x86 : X86 PhysAddr PhysFrame)
  (mapper : Mapper VirtAddr Page PhysFrame Table)

/-- The body of the loop of `init_heap`. -/
def mapPage (m : Space Table) (page : Page) : Outcome (MapToError PhysFrame) (Space Table) := do
  let (frame, alloc) ← returning (m.alloc.allocateFrame x86)
  let frame ← okOr .frameAllocationFailed frame
  let (table, alloc) ← mapper.mapTo m.table page frame ⟨true, true⟩ alloc
  return ⟨table, alloc⟩

/-- The body of the loop of `map_range`. -/
def mapMissing (m : Space Table) (page : Page) : Outcome (MapToError PhysFrame) (Space Table) :=
  if (mapper.translatePage m.table page).isSome then return m else mapPage x86 mapper m page

def heapSize : Nat := 100 * 1024
def heapStart : Nat := 0x444444440000

/-- `init_heap`, up to the allocator that gets the region. -/
def initHeap (m : Space Table) : Outcome (MapToError PhysFrame) (Space Table) := do
  let heapStart ← returning (mapper.newAddr Paging.heapStart)
  -- arithmetic on addresses makes new ones
  let heapEnd ← returning (mapper.newAddr (Paging.heapStart + heapSize - 1))
  let heapStartPage := mapper.containingAddress heapStart
  let heapEndPage := mapper.containingAddress heapEnd
  (mapper.rangeInclusive heapStartPage heapEndPage).foldlM (mapPage x86 mapper) m

def mapRange (base size : Nat) (m : Space Table) : Outcome (MapToError PhysFrame) (Space Table) := do
  let start ← returning (mapper.newAddr base)
  let stop ← add base size
  let stop ← sub stop 1
  let stop ← returning (mapper.newAddr stop)
  let startPage := mapper.containingAddress start
  let endPage := mapper.containingAddress stop
  (mapper.rangeInclusive startPage endPage).foldlM (mapMissing x86 mapper) m

def initExecRegions (m : Space Table) : Outcome (MapToError PhysFrame) (Space Table) :=
  (List.range maxProcessSlots).foldlM (fun m slot =>
    mapRange x86 mapper (slotBase slot) processSlotSize m) m

/-- What `kernel_main` maps. -/
def mapRegions (m : Space Table) : Outcome (MapToError PhysFrame) (Space Table) := do
  let m ← initHeap x86 mapper m
  initExecRegions x86 mapper m

end Smultron.Paging
