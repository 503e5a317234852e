import Smultron.Machine.Commands
import Smultron.Properties.LineEditing

/-!
# Sessions

What is typed at the shell is a list of entries: keys, and the line end behind them. A session is the
entries one after the other. Each shows the prompt and the echo of its keys, and then its line does
what it means, until a line leaves the shell.
-/

namespace Smultron.Machine

open LineEditing Shell

/-- The console gives so many bytes away. -/
def World.takes (n : Nat) (w : World) : World :=
  { w with console := { w.console with taken := w.console.taken + n } }

/-- The next bytes of the console. -/
def World.upcoming (n : Nat) (w : World) : Bytes :=
  (List.range n).map fun i => w.console.input (w.console.taken + i)

/-- Keys that do not end the line, and one that does. -/
structure TypedLine where
  keys : Bytes
  stop : UInt8
  plain : ∀ b ∈ keys, ¬(b = 13 ∨ b = 10)
  ends : stop = 13 ∨ stop = 10

def TypedLine.bytes (e : TypedLine) : Bytes := e.keys ++ [e.stop]

/-- The line that is entered. -/
def TypedLine.line (e : TypedLine) : Bytes := e.keys.foldl press []

/-- What stands on the console when it is entered. -/
def TypedLine.shown (e : TypedLine) : Bytes := prompt ++ echoes [] e.keys ++ str "\n"

section Meaning

variable (boot : Boot)

/-- The entries in their order; false when one of them has left the shell. -/
def Boot.session : List TypedLine → Env → World → Option (Bool × Env × World)
  | [], env, w => some (true, env, w)
  | e :: entries, env, w => do
    let (more, env, w) ← boot.line env e.line ((w.takes e.bytes.length).show e.shown)
    if more then Boot.session entries env w else return (false, env, w)

def greeting : Bytes := str "smultron shell (userspace)\n" ++ str "type 'help' for commands\n"

/-- The shell from its start on. -/
def Boot.shell (entries : List TypedLine) (w : World) : Option (Bool × Env × World) :=
  let (env, w) := assign Env.empty cwdKey (str "/") w
  boot.session entries env (w.show greeting)

/-- What the boot shows. -/
def bootScreen : Bytes :=
  str "Smultron OS booting...\n" ++ str "VGA Visual Test\n" ++ Vfs.helloTxt ++ str "\n"

/-- What the boot reports, and what it reports of the shell before it starts it. -/
def bootLog : Bytes :=
  str "[ok][phase2] Hello Serial\n" ++ str "[ok][phase3] VGA Visual Test rendered\n" ++
    str "[ok][phase4] breakpoint exception handled\n" ++
    str "[ok] process exec regions mapped\n" ++ str "[ok] syscall gate scaffold initialized\n" ++
    str "[ok][phase5] heap allocator operational\n" ++ str "[ok] vfs initialized\n" ++
    str "[ok][phase6] VFS/TarFS lookup executed\n" ++ str "[ok] syscall MSR init scaffolded\n" ++
    str "[ok] ring3 smoke test placeholder executed\n" ++
    str "[ok][phase7] syscall path initialized\n"

def launchLog : Bytes :=
  str "[ok][phase8] execve ELF load path completed\n" ++
    str "[ok] all-phases boot flow completed\n" ++ str "[ok] launching userspace init shell\n"

/-- The world behind the boot, with no file in it but those of the boot image. -/
def World.booted (input : Nat → UInt8) : World :=
  ⟨Vfs.RamFiles.empty, ⟨input, 0, bootLog ++ launchLog, bootScreen⟩⟩

/-- The kernel boots, runs the shell, and reports its status. It is left open what the kernel does
while the shell is not left. -/
def Boot.main (entries : List TypedLine) (input : Nat → UInt8) : Option World := do
  match ← boot.shell entries (.booted input) with
  | (true, _, _) => none
  | (false, _, w) => return w.log (str "[ok] userspace init exited with status 0\n")

end Meaning

end Smultron.Machine
