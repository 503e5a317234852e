import Smultron.Kernel.Paging
import Smultron.Kernel.Syscall
import Smultron.Kernel.VgaBuffer

/-!
# The boot (kernel/src/main.rs)

`kernel_main` maps the heap and the slots, tries the heap and the file system, probes the shell, runs
it, and reports its status. Behind that it halts. What it sets up in the processor is left out.
-/

namespace Smultron

open Checked FrameAllocator Paging Process

/-- `serial_println!` -/
def Kernel.serialPrintln (k : Kernel) (text : Bytes) : Kernel :=
  { k with console := k.console.serialPrint (text ++ str "\n") }

/-- `println!`, which goes to the screen through `write_string`. -/
def Kernel.println (k : Kernel) (text : Bytes) : Kernel :=
  { k with console :=
      { k.console with vga := k.console.vga ++ (text ++ str "\n").map Vga.Writer.printable } }

/-- `x.expect(..)` -/
def expect {ε α : Type} : Outcome ε α → Outcome Empty α
  | .ok a => .ok a
  | .err _ => .panic
  | .panic => .panic

def initPath : Bytes := str "/bin/init"

/-- `kernel_main` from the probe on; `none` where the shell does not return. -/
def launchInit (sys : System) (run : Runner) (k : Kernel) : Option Kernel :=
  let k := k.serialPrintln (
    if probeExecutable sys.images initPath then str "[ok][phase8] execve ELF load path completed"
    else str "[failed][phase8] execve ELF load path failed")
  let k := k.serialPrintln (str "[ok] all-phases boot flow completed")
  let k := k.serialPrintln (str "[ok] launching userspace init shell")
  match exec sys run k initPath [] [] with
  | none => none
  | some (code, k) =>
    some (k.serialPrintln (str "[ok] userspace init exited with status " ++ str (toString code)))

section Main

variable {VirtAddr Page PhysAddr PhysFrame Table : Type} (x86 : X86 PhysAddr PhysFrame)
  (mapper : Mapper VirtAddr Page PhysFrame Table)

/-- `kernel_main` behind `clear_screen`, with the memory map of the bootloader, the page tables it
has set up, and the kernel's own state. -/
def kernelMain (sys : System) (run : Runner) (memoryMap : List MemoryRegion) (table : Table)
    (k : Kernel) : Outcome Empty (Space Table × Option Kernel) := do
  let k := k.println (str "Smultron OS booting...")
  let k := k.serialPrintln (str "[ok][phase2] Hello Serial")
  let k := k.println (str "VGA Visual Test")
  let k := k.serialPrintln (str "[ok][phase3] VGA Visual Test rendered")
  let k := k.serialPrintln (str "[ok][phase4] breakpoint exception handled")
  let frameAllocator := BootInfoFrameAllocator.init memoryMap
  let m ← expect (initHeap x86 mapper ⟨table, frameAllocator⟩)
  let m ← expect (initExecRegions x86 mapper m)
  let k := k.serialPrintln (str "[ok] process exec regions mapped")
  let k := k.serialPrintln (str "[ok] syscall gate scaffold initialized")
  -- a value in a box and a vector, which hold what was put into them
  let heapValue := 41
  let v := [] ++ [1, 2, 3, 4]
  let k := k.serialPrintln (
    if heapValue = 41 ∧ v.length = 4 then str "[ok][phase5] heap allocator operational"
    else str "[failed][phase5] heap allocation check failed")
  let k := k.serialPrintln (str "[ok] vfs initialized")
  let hello := (Vfs.readFile sys.images (str "/hello.txt")).getD (str "(missing /hello.txt)")
  let k := if Utf8.Valid hello then k.println hello else k
  let k := k.serialPrintln (str "[ok][phase6] VFS/TarFS lookup executed")
  let k := k.serialPrintln (str "[ok] syscall MSR init scaffolded")
  let k := k.serialPrintln (str "[ok] ring3 smoke test placeholder executed")
  let k := k.serialPrintln (str "[ok][phase7] syscall path initialized")
  return (m, launchInit sys run k)

end Main

end Smultron
