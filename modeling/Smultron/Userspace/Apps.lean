import Smultron.Userspace.Libos

/-!
# What programs make of their arguments (userspace/apps)

A program gets two NUL-terminated strings. Every `_start` turns them into texts in the same way;
`cat`, `ls` and `sed` look their directory up in the environment, and `tee` and `sed` take their
arguments apart at white space.
-/

namespace Smultron

open Utf8

/-! ### `_start` -/

/-- `cstr_to_str` of memory that starts with these bytes. -/
def cstrToStr (mem : Bytes) : Bytes := fromUtf8OrEmpty (mem.takeWhile (· != 0))

/-- The loop of `_start` over the lines of the environment; `/` stands where no line sets `CWD`. -/
def findCwd : List Bytes → Bytes
  | [] => str "/"
  | line :: lines =>
    match splitOnce 61 line with
    | some (k, v) => if k = str "CWD" then v else findCwd lines
    | none => findCwd lines

/-- The directory `cat`, `ls` and `sed` work in. -/
def startCwd (envStr : Bytes) : Bytes := findCwd (envStr.splitOn 10)

/-- The loop of `tee` and `sed` over their arguments, with those found so far; `none` where there
are more than `cap` of them. -/
def collectArgs (cap : Nat) : List Bytes → List Bytes → Option (List Bytes)
  | [], found => some found
  | tok :: toks, found =>
    if cap ≤ found.length then none else collectArgs cap toks (found ++ [tok])

/-! ### `tee` (userspace/apps/tee/src/lib.rs) -/

namespace Tee

def maxArgs : Nat := 16

/-- `files[..file_count]` -/
def files (args : Bytes) : Option (List Bytes) := collectArgs maxArgs (splitWhitespace args) []

end Tee

/-! ### `sed` (userspace/apps/sed/src/lib.rs) -/

namespace Sed

def maxTokens : Nat := 16

/-- `tokens[..token_count]`; the first one is the script. -/
def tokens (args : Bytes) : Option (List Bytes) := collectArgs maxTokens (splitWhitespace args) []

end Sed

/-! ### `ls` (userspace/apps/ls/src/lib.rs) -/

namespace Ls

/-- The loop of `run` over `buf[i..len]`: the names it writes. -/
def names : Nat → Bytes → List Bytes
  | 0, _ => []
  | rounds + 1, rest =>
    if rest = [] then []
    else
      -- every round drops a name and the NUL behind it, and writes the name unless it is empty
      let name := rest.takeWhile (· != 0)
      let later := names rounds (rest.drop (name.length + 1))
      if name = [] then later else name :: later

def printNames : List Bytes → User Unit
  | [] => return ()
  | name :: later => do
    let _ ← Libos.write 1 name
    let _ ← Libos.write 1 (str "\n")
    printNames later

def run (cwd : Bytes) : User Unit := do
  let (len, buf) ← Libos.listDir cwd (List.replicate 1024 0)
  if len = 0 ∨ buf.length < len then return ()
  printNames (names len (buf.take len))

end Ls

/-! ### `echo` and `env` (userspace/apps/echo/src/lib.rs, userspace/apps/env/src/lib.rs) -/

namespace Echo

def run (args : Bytes) : User Unit := do
  if args ≠ [] then
    let _ ← Libos.write 1 args
  let _ ← Libos.write 1 (str "\n")
  return ()

end Echo

namespace EnvApp

def run (env : Bytes) : User Unit := do
  if env ≠ [] then
    let _ ← Libos.write 1 env
  return ()

end EnvApp

end Smultron
