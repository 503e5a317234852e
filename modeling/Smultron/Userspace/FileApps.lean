import Smultron.Userspace.Apps
import Smultron.Userspace.Shell

/-!
# Programs that read and write files (userspace/apps/cat, tee and sed)

A loop over the input ends where the input ends, and a console may never end. So such a loop goes
only as far as a number of rounds, one for each read, and says whether it came to its end.
-/

namespace Smultron

open Checked Checked.Outcome Utf8 Proc

/-- How far a loop over the input came: to the end of the input, to a read error, or through all of
its rounds. -/
inductive Reading (α : Type) where
  | ended (value : α)
  | failed
  | unfinished
  deriving DecidableEq, Repr

/-- `resolve_path` of `cat` and of `sed` -/
def resolveFrom {ε : Type} (path cwd : Bytes) : Outcome ε (Option Bytes) :=
  -- an absolute path is handed on whatever its length
  if Shell.isAbsolute path then return some path
  else if cwd = str "/" then do
    let out ← push 128 [] 47
    Shell.joinPath out path
  else do
    let size ← add cwd.length 1
    if 128 < size then return none
    let out ← append 128 [] cwd
    if out.length = 0 then
      let out ← push 128 out 47
      Shell.joinPath out path
    else
      let last ← sub cwd.length 1
      let b ← index cwd last
      let out ← (if b ≠ 47 then push 128 out 47 else pure out)
      Shell.joinPath out path

/-- What `_start` returns. A panic spins and a loop that goes on does not return, so what stands for
them there is left open. -/
def exitStatus (other : Nat) : Outcome Empty (Reading Unit) → Nat
  | .ok .unfinished => other
  | .ok _ => 0
  | .panic => other

/-! ### `cat` (userspace/apps/cat/src/lib.rs) -/

namespace Cat

def resolvePath {ε : Type} (path cwd : Bytes) : Outcome ε (Option Bytes) := resolveFrom path cwd

/-- The loop over the input; the buffer keeps its old bytes. -/
def copyInput : Nat → Bytes → User (Reading Unit)
  | 0, _ => return .unfinished
  | rounds + 1, buf => do
    let (n, buf) ← Libos.read 0 buf
    -- a read error ends the copy without a message
    if n = 0 ∨ n = u64Max then return .ended ()
    let _ ← Libos.write 1 (buf.take n)
    copyInput rounds buf

def printFile (path : Bytes) : User Unit := do
  let (found, buf) ← Libos.readFile path (List.replicate 4096 0)
  match found with
  | some len =>
    if len = 0 then return ()
    let _ ← Libos.write 1 (buf.take len)
    let last ← lift (sub len 1)
    let b ← lift (index buf last)
    -- a line end is added where the file has none
    if b ≠ 10 then
      let _ ← Libos.write 1 (str "\n")
      return ()
    return ()
  | none => do
    Shell.writeStr (str "cat: cannot read ")
    Shell.writeStr path
    Shell.writeStr (str "\n")

def run (rounds : Nat) (args cwd : Bytes) : User (Reading Unit) := do
  let pathArg := trim args
  if pathArg = [] then copyInput rounds (List.replicate 256 0)
  else
    match ← lift (resolvePath pathArg cwd) with
    | none => do
      Shell.writeStr (str "cat: path too long\n")
      return .ended ()
    | some resolved => do
      printFile resolved
      return .ended ()

/-- `_start` (userspace/apps/cat/src/main.rs) -/
def start (rounds other : Nat) (argBuf envBuf : Bytes) : Program Syscall Reply Nat :=
  (run rounds (cstrToStr argBuf) (startCwd (cstrToStr envBuf))).program.bind fun o =>
    .ret (exitStatus other o)

end Cat

/-! ### `tee` (userspace/apps/tee/src/lib.rs) -/

namespace Tee

def maxStream : Nat := 4096

/-- The loop over the input, with `chunk` and `stream[..stream_len]`. -/
def copyInput : Nat → Bytes → Bytes → User (Reading Bytes)
  | 0, _, _ => return .unfinished
  | rounds + 1, chunk, stream => do
    let (n, chunk) ← Libos.read 0 chunk
    if n = u64Max then
      Shell.writeStr (str "tee: read error\n")
      return .failed
    if n = 0 then return .ended stream
    let _ ← Libos.write 1 (chunk.take n)
    -- what does not fit is still written to the output
    if stream.length < maxStream then
      let part ← lift (slice chunk 0 (min n (maxStream - stream.length)))
      let stream ← lift (append maxStream stream part)
      copyInput rounds chunk stream
    else copyInput rounds chunk stream

/-- The last loop. The paths go to the kernel as they were typed. -/
def writeFiles (stream : Bytes) : List Bytes → User Unit
  | [] => return ()
  | file :: later => do
    match ← Libos.writeFile file stream with
    | some _ => writeFiles stream later
    | none => do
      Shell.writeStr (str "tee: cannot write ")
      Shell.writeStr file
      Shell.writeStr (str "\n")
      writeFiles stream later

def run (rounds : Nat) (args : Bytes) : User (Reading Unit) := do
  match files args with
  | none => do
    Shell.writeStr (str "tee: too many output files\n")
    return .ended ()
  | some files => do
    match ← copyInput rounds (List.replicate 256 0) [] with
    | .ended stream => do
      writeFiles stream files
      return .ended ()
    | .failed => return .failed
    | .unfinished => return .unfinished

end Tee

end Smultron
