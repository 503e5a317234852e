import Smultron.Properties.Stdio

/-!
# The system as its programs see it

Between two calls of the program that runs, all there is to the system is its files and its console.
An exec is one step here: a program is what it makes of the files and of its input. There is no
process table, no slot, no memory, no stdio context and no program that runs inside another one.
-/

namespace Smultron.Machine

open Process Vfs

structure World where
  ram : RamFiles
  console : Console

/-- What programs have written. -/
def World.show (w : World) (out : Bytes) : World := { w with console := out.foldl .put w.console }

/-- A message of the kernel, which goes to the serial line alone. -/
def World.log (w : World) (msg : Bytes) : World := { w with console := w.console.serialPrint msg }

/-- What a program writes and the files it leaves, from the files it finds and its redirected input.
`none` is a program that asks the console for its input. -/
abbrev Meaning := RamFiles → Option Bytes → Option (Bytes × RamFiles)

/-- The boot image, with the meaning of its programs for each path, arguments and environment. -/
structure Boot where
  images : Images
  meaning : (path args env : Bytes) → Meaning

/-- The messages of an exec that starts nothing. -/
def missing (path : Bytes) : Bytes := str "[failed] exec: missing app '" ++ path ++ str "'\n"
def unmapped (path : Bytes) : Bytes :=
  str "[failed] exec: no slot mapping for '" ++ path ++ str "'\n"
def unavailable (slotIdx : Nat) (path : Bytes) : Bytes :=
  str "[failed] exec: slot " ++ str (toString slotIdx) ++ str " unavailable for '" ++ path ++
    str "'\n"

/-- An exec out of the program in slot `own`: the status, what the caller's buffer of `cap` bytes
gets, and the world. It is left open what a program does that reads the console, or that writes more
than a capture takes. -/
def Boot.launch (boot : Boot) (own : Nat) (path args env : Bytes) (stdin : Option Bytes)
    (cap : Option Nat) (w : World) : Option (Nat × Bytes × World) :=
  match readFile boot.images path, slotForPath path with
  | none, _ => some (u64Max, [], w.log (missing path))
  | some _, none => some (u64Max, [], w.log (unmapped path))
  | some _, some slotIdx =>
    -- a program is not started inside itself
    if slotIdx = own then some (u64Max, [], w.log (unavailable slotIdx path))
    else
      match boot.meaning path args env w.ram stdin, cap with
      | none, _ => none
      | some (out, ram), none => some (0, [], World.show ⟨ram, w.console⟩ out)
      | some (out, ram), some cap =>
        if out.length ≤ maxIoStdout then some (0, out.take cap, ⟨ram, w.console⟩) else none

/-- A kernel in this world that runs nothing else. -/
def World.kernel (w : World) : Kernel :=
  { Kernel.boot w.console.input with ram := w.ram, console := w.console }

/-- What a program can see of a kernel. -/
def ofKernel (k : Kernel) : World := ⟨k.ram, k.console⟩

/-- A boot image whose programs are of no concern. -/
def Boot.idle (boot : Boot) : System := ⟨boot.images, fun _ _ _ => .ret 0⟩

/-- The calls of the program in slot `own`. -/
def Boot.answer (boot : Boot) (own : Nat) : Syscall → World → Option (Reply × World)
  | .execve path args env, w =>
    match execArgs path args env with
    | none => some (.failed, w)
    | some (path, args, env) =>
      (boot.launch own path args env none none w).map fun (status, _, w') => (.value status, w')
  | .execIo none, w => some (.failed, w)
  | .execIo (some req), w =>
    if req.path.isNone || !req.status then some (.failed, w)
    else
      match execArgs req.path req.args req.env with
      | none => some (.failed, w)
      | some (path, args, env) =>
        (boot.launch own path args env req.stdio.1 req.stdio.2 w).map fun (status, captured, w') =>
          (⟨captured.length, captured, some status⟩, w')
  -- a call that starts no program depends on nothing else that the kernel knows
  | c, w => (dispatch boot.idle (runImage boot.idle 0) c w.kernel).map fun (r, k) => (r, ofKernel k)

end Smultron.Machine
