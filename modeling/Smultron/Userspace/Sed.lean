import Smultron.Userspace.FileApps

/-!
# The stream editor (userspace/apps/sed/src/lib.rs)

The first argument is the script, the others are files. Without a file every piece of the input is
edited for itself as it comes from a read.
-/

namespace Smultron.Sed

open Checked Checked.Outcome Utf8 Proc

def maxPattern : Nat := 128
def maxReplacement : Nat := 128
def maxIoBuf : Nat := 4096

/-- The bytes `out[..len]` of a buffer of `cap` bytes. -/
abbrev Field (cap : Nat) := { bs : Bytes // bs.length ≤ cap }

namespace Field

variable {cap : Nat}

def empty : Field cap := ⟨[], Nat.zero_le cap⟩

/-- `if len >= out.len() { return None; } out[len] = b; len += 1;` -/
def push (out : Field cap) (b : UInt8) : Option (Field cap) :=
  if h : cap ≤ out.val.length then none else some ⟨out.val ++ [b], by simp; omega⟩

end Field

structure Script where
  pattern : Field maxPattern
  replacement : Field maxReplacement
  isGlobal : Bool
  deriving DecidableEq

/-! ### The script -/

/-- The loop of `parse_delimited` over `input[i..]`: the field, and the bytes behind its
delimiter. -/
def parseDelimited (delim : UInt8) {cap : Nat} :
    (input : Bytes) → (out : Field cap) → (escaped : Bool) → Option (Field cap × Bytes)
  | [], _, _ => none
  | b :: input, out, escaped =>
    if escaped then do
      let out ← out.push b
      parseDelimited delim input out false
    -- the backslash comes first, so it can delimit nothing
    else if b = 92 then parseDelimited delim input out true
    else if b = delim then some (out, input)
    else do
      let out ← out.push b
      parseDelimited delim input out false

/-- What stands behind the last delimiter. -/
def parseFlags (flags : Bytes) : Option Bool :=
  if flags = [] then some false else if flags = str "g" then some true else none

def parseScript (script : Bytes) : Option Script :=
  match script with
  | s :: delim :: fields =>
    if script.length < 4 ∨ s ≠ 115 then none
    else if delim = 0 then none
    else do
      let (pattern, behind) ← parseDelimited delim fields Field.empty false
      let (replacement, flags) ← parseDelimited delim behind Field.empty false
      let isGlobal ← parseFlags flags
      return ⟨pattern, replacement, isGlobal⟩
  -- fewer than four bytes
  | _ => none

/-! ### The substitution -/

/-- The main loop of `substitute` over `input[in_i..]`, with `out[..out_i]` of a buffer of `cap`
bytes. Every round takes a byte at least. -/
def substituteFrom (pattern replacement : Bytes) (isGlobal : Bool) (cap : Nat) :
    Nat → Bytes → Bytes → Bytes
  | 0, _, out => out
  | _ + 1, [], out => out
  | rounds + 1, b :: input, out =>
    if cap ≤ out.length then out
    else if pattern.isPrefixOf (b :: input) then
      let out := Shell.copyWhileRoom cap out replacement
      let input := (b :: input).drop pattern.length
      if isGlobal then substituteFrom pattern replacement isGlobal cap rounds input out
      -- the bytes behind the first match are copied
      else Shell.copyWhileRoom cap out input
    else substituteFrom pattern replacement isGlobal cap rounds input (out ++ [b])

/-- `out[..n]` for an `out` of `cap` bytes. -/
def substitute (input : Bytes) (cap : Nat) (pattern replacement : Bytes) (isGlobal : Bool) : Bytes :=
  if pattern = [] then input.take (min input.length cap)
  else substituteFrom pattern replacement isGlobal cap input.length input []

/-- The bytes a script writes for a piece of its input. -/
def edit (script : Script) (input : Bytes) : Bytes :=
  substitute input maxIoBuf script.pattern.val script.replacement.val script.isGlobal

/-! ### The input -/

/-- The loop of `run_on_stdin`; the buffer keeps its old bytes. -/
def editInput (script : Script) : Nat → Bytes → User (Reading Unit)
  | 0, _ => return .unfinished
  | rounds + 1, inBuf => do
    let (n, inBuf) ← Libos.read 0 inBuf
    if n = u64Max then
      Shell.writeStr (str "sed: read error\n")
      return .failed
    if n = 0 then return .ended ()
    let input ← lift (slice inBuf 0 n)
    let _ ← Libos.write 1 (edit script input)
    editInput script rounds inBuf

def runOnStdin (rounds : Nat) (script : Script) : User (Reading Unit) :=
  editInput script rounds (List.replicate maxIoBuf 0)

def resolvePath {ε : Type} (path cwd : Bytes) : Outcome ε (Option Bytes) := resolveFrom path cwd

def runOnFile (script : Script) (pathArg cwd : Bytes) : User Unit := do
  match ← lift (resolvePath pathArg cwd) with
  | none => Shell.writeStr (str "sed: path too long\n")
  | some path => do
    let (found, inBuf) ← Libos.readFile path (List.replicate maxIoBuf 0)
    match found with
    | none => do
      Shell.writeStr (str "sed: cannot read ")
      Shell.writeStr path
      Shell.writeStr (str "\n")
    | some n => do
      let input ← lift (slice inBuf 0 n)
      let _ ← Libos.write 1 (edit script input)
      return ()

def runOnFiles (script : Script) (cwd : Bytes) : List Bytes → User Unit
  | [] => return ()
  | file :: later => do
    runOnFile script file cwd
    runOnFiles script cwd later

def run (rounds : Nat) (args cwd : Bytes) : User (Reading Unit) :=
  match tokens args with
  | none => do
    Shell.writeStr (str "sed: too many arguments\n")
    return .ended ()
  | some [] => do
    Shell.writeStr (str "usage: sed s/old/new/[g] [file...]\n")
    return .ended ()
  | some (script :: files) =>
    match parseScript script with
    | none => do
      Shell.writeStr (str "sed: unsupported script (expected s<delim>old<delim>new<delim>[g])\n")
      return .ended ()
    | some script =>
      if files = [] then runOnStdin rounds script
      else do
        runOnFiles script cwd files
        return .ended ()

/-- `_start` (userspace/apps/sed/src/main.rs) -/
def start (rounds other : Nat) (argBuf envBuf : Bytes) : Program Syscall Reply Nat :=
  (run rounds (cstrToStr argBuf) (startCwd (cstrToStr envBuf))).program.bind fun o =>
    .ret (exitStatus other o)

end Smultron.Sed
