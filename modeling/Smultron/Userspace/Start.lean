import Smultron.Userspace.Sed

/-!
# Where programs start (userspace/apps/*/src/main.rs)

The main loop of the shell, the `_start` of every program, and the programs of the boot image. The
shell goes on for as long as lines are typed, so its loop has a number of lines, and a number of
reads for each.
-/

namespace Smultron

open Checked

namespace Shell

/-- The loop of `run`. -/
def runLoop (reads : Nat) : Nat → Env → User (Reading Unit)
  | 0, _ => return .unfinished
  | lines + 1, env => do
    match ← promptLine reads with
    | .editing _ => return .unfinished
    | .entered line => do
      let (more, env) ← dispatch env line
      if more then runLoop reads lines env else return .ended ()

def run (reads lines : Nat) : User (Reading Unit) := do
  let env ← setEnv Env.empty cwdKey (str "/")
  writeStr (str "smultron shell (userspace)\n")
  writeStr (str "type 'help' for commands\n")
  runLoop reads lines env

/-- `_start` of `init`; the two strings are not looked at. -/
def start (reads lines other : Nat) (_argBuf _envBuf : Bytes) : Program Syscall Reply Nat :=
  (run reads lines).program.bind fun o => .ret (exitStatus other o)

end Shell

/-- What `_start` of a program without a loop over its input returns. -/
def plainStatus (other : Nat) : Outcome Empty Unit → Nat
  | .ok _ => 0
  | .panic => other

def Echo.start (other : Nat) (argBuf _envBuf : Bytes) : Program Syscall Reply Nat :=
  (run (cstrToStr argBuf)).program.bind fun o => .ret (plainStatus other o)

def EnvApp.start (other : Nat) (_argBuf envBuf : Bytes) : Program Syscall Reply Nat :=
  (run (cstrToStr envBuf)).program.bind fun o => .ret (plainStatus other o)

def Ls.start (other : Nat) (_argBuf envBuf : Bytes) : Program Syscall Reply Nat :=
  (run (startCwd (cstrToStr envBuf))).program.bind fun o => .ret (plainStatus other o)

def Tee.start (rounds other : Nat) (argBuf _envBuf : Bytes) : Program Syscall Reply Nat :=
  (run rounds (cstrToStr argBuf)).program.bind fun o => .ret (exitStatus other o)

/-- How far the loops of the programs go, and what stands for the status where one does not return. -/
structure Limits where
  rounds : Nat
  reads : Nat
  lines : Nat
  other : Nat

/-- The programs that `kernel/build.rs` packs into the boot image. -/
def bootProgram (limits : Limits) (path argBuf envBuf : Bytes) : Program Syscall Reply Nat :=
  if path = str "/bin/init" then Shell.start limits.reads limits.lines limits.other argBuf envBuf
  else if path = str "/bin/echo" then Echo.start limits.other argBuf envBuf
  else if path = str "/bin/env" then EnvApp.start limits.other argBuf envBuf
  else if path = str "/bin/ls" then Ls.start limits.other argBuf envBuf
  else if path = str "/bin/cat" then Cat.start limits.rounds limits.other argBuf envBuf
  else if path = str "/bin/tee" then Tee.start limits.rounds limits.other argBuf envBuf
  else if path = str "/bin/sed" then Sed.start limits.rounds limits.other argBuf envBuf
  else .ret limits.other

/-- The system as it is built, with images that stand for the files `kernel/build.rs` finds. -/
def bootSystem (images : Vfs.Images) (limits : Limits) : System := ⟨images, bootProgram limits⟩

end Smultron
