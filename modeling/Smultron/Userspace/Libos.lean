import Smultron.Kernel.Syscall
import Smultron.Lib.Proc

/-!
# The userspace library (userspace/libos/src/lib.rs)

Each function copies its strings to NUL-terminated buffers and issues one system call. A buffer the
kernel writes to goes in as its bytes and comes back with the bytes the kernel wrote at its front.
-/

namespace Smultron

open Checked

/-- What userspace code does: system calls, and a value unless it panics. -/
abbrev User (α : Type) := Proc Syscall Reply α

namespace Libos

open Proc

/-- The buffer after the kernel wrote `data` to it. -/
def overwrite (buf data : Bytes) : Bytes := data ++ buf.drop data.length

/-- A buffer of `size` bytes that holds `text` and the NUL behind it. -/
def cString (size : Nat) (text : Bytes) : Outcome Empty Bytes := do
  -- the callers check that the text is shorter than the buffer
  let buf ← append size [] text
  push size buf 0

def write (fd : Nat) (buf : Bytes) : User Nat := do
  let r ← request (.write fd (some buf))
  return r.ret

def read (fd : Nat) (buf : Bytes) : User (Nat × Bytes) := do
  let r ← request (.read fd (some buf.length))
  return (r.ret, overwrite buf r.data)

def listDir (path buf : Bytes) : User (Nat × Bytes) := do
  -- a path that leaves no room for the NUL never reaches the kernel
  if 128 ≤ path.length then return (0, buf)
  let pathBuf ← lift (cString 128 path)
  let r ← request (.readDir (some pathBuf) (some buf.length))
  if r.ret = u64Max then return (0, overwrite buf r.data)
  return (min r.ret buf.length, overwrite buf r.data)

def readFile (path buf : Bytes) : User (Option Nat × Bytes) := do
  if 128 ≤ path.length then return (none, buf)
  let pathBuf ← lift (cString 128 path)
  let r ← request (.readFile (some pathBuf) (some buf.length))
  if r.ret = u64Max then return (none, overwrite buf r.data)
  return (some (min r.ret buf.length), overwrite buf r.data)

def maxPath : Nat := 63
def maxArgs : Nat := 191
def maxEnv : Nat := 511

/-- The three NUL-terminated buffers of `exec_str_env` and `exec_io_str_env`. -/
def execBuffers (path args env : Bytes) : Outcome Empty (Bytes × Bytes × Bytes) := do
  let pathBuf ← cString (maxPath + 1) path
  let argsBuf ← cString (maxArgs + 1) args
  let envBuf ← cString (maxEnv + 1) env
  return (pathBuf, argsBuf, envBuf)

def execStrEnv (path args env : Bytes) : User Nat := do
  if maxPath < path.length ∨ maxArgs < args.length ∨ maxEnv < env.length then return u64Max
  let (pathBuf, argsBuf, envBuf) ← lift (execBuffers path args env)
  let r ← request (.execve (some pathBuf) (some argsBuf) (some envBuf))
  return r.ret

/-- The status, the length returned, and the output buffer. -/
def execIoStrEnv (path args env : Bytes) (stdin stdout : Option Bytes) :
    User (Nat × Nat × Option Bytes) := do
  if maxPath < path.length ∨ maxArgs < args.length ∨ maxEnv < env.length then
    return (u64Max, 0, stdout)
  let (pathBuf, argsBuf, envBuf) ← lift (execBuffers path args env)
  let r ← request (.execIo (some
    { path := some pathBuf
      args := some argsBuf
      env := some envBuf
      stdin := stdin
      stdoutCap := stdout.map List.length
      status := true }))
  let out := stdout.map (overwrite · r.data)
  if r.ret = u64Max then return (u64Max, 0, out)
  -- `status` holds `u64::MAX` until the kernel writes to it
  return (r.status.getD u64Max, r.ret, out)

def writeFile (path data : Bytes) : User (Option Nat) := do
  if 128 ≤ path.length then return none
  let pathBuf ← lift (cString 128 path)
  let r ← request (.writeFile (some pathBuf) (some data))
  if r.ret = u64Max then return none
  return some r.ret

end Libos

end Smultron
