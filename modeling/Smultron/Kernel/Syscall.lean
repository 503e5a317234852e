import Smultron.Kernel.Process
import Smultron.Lib.Program

/-!
# System calls (kernel/src/syscall.rs)

A running program is the tree of its system calls. A pointer argument is the memory at it, `none`
the null pointer; a reply carries the return value and what the kernel wrote through the pointers.
A call that panics is not answered. The images are arbitrary programs, so the kernel is open in the
function that runs an image; `runImage` closes it for nested execs up to a depth.
-/

namespace Smultron

open Memory Process Vfs Utf8 Checked

structure ExecIoRequest where
  path : Option Bytes
  args : Option Bytes
  env : Option Bytes
  stdin : Option Bytes
  stdoutCap : Option Nat
  status : Bool
  deriving DecidableEq

inductive Syscall where
  | read (fd : Nat) (buf : Option Nat)
  | write (fd : Nat) (buf : Option Bytes)
  | execve (path args env : Option Bytes)
  | exit (code : Nat)
  | readDir (path : Option Bytes) (buf : Option Nat)
  | readFile (path : Option Bytes) (buf : Option Nat)
  | execIo (req : Option ExecIoRequest)
  | writeFile (path data : Option Bytes)
  | other (nr : Nat)
  deriving DecidableEq

structure Reply where
  ret : Nat
  data : Bytes
  status : Option Nat
  deriving DecidableEq

namespace Reply

/-- A return value alone. -/
def value (ret : Nat) : Reply := ⟨ret, [], none⟩

def failed : Reply := value u64Max

end Reply

/-! ### The kernel state -/

/-- The console: the bytes that polling the serial line and the keyboard yields, in order, how many
of them were taken, and the bytes sent to the serial line and to the VGA buffer. -/
structure Console where
  input : Nat → UInt8
  taken : Nat
  serial : Bytes
  vga : Bytes

/-- `serial_print!("{}", byte as char); vga_buffer::write_byte(byte)` -/
def Console.put (console : Console) (byte : UInt8) : Console :=
  { console with
    serial := console.serial ++ String.utf8EncodeChar (Char.ofNat byte.toNat)
    vga := console.vga ++ [byte] }

def Console.serialPrint (console : Console) (text : Bytes) : Console :=
  { console with serial := console.serial ++ text }

/-- The run of one image: its path, its arguments, its calls, its status and the console bytes it
took. -/
structure ProcessRun where
  path : Bytes
  argBuf : Bytes
  envBuf : Bytes
  calls : List (Syscall × Reply)
  status : Nat
  taken : Nat

/-- The kernel. `history` is not in the source: it lists the images that have run to their end. -/
structure Kernel where
  pm : ProcessManager
  io : IoState
  ram : RamFiles
  mem : Mem
  console : Console
  history : List ProcessRun

/-- The boot image, with the program each path's image holds. -/
structure System where
  images : Images
  image : (path argBuf envBuf : Bytes) → Program Syscall Reply Nat

/-- How an image is run from its entry to its return; `none` when it does not return. -/
abbrev Runner := (path argBuf envBuf : Bytes) → Kernel → Option (Nat × Kernel)

def Kernel.boot (input : Nat → UInt8) : Kernel where
  pm := ProcessManager.new
  io := IoState.new
  ram := RamFiles.empty
  mem := fun _ => 0
  console := ⟨input, 0, [], []⟩
  history := []

/-! ### Reading and writing -/

/-- The loop of `Read`, with `left` bytes of the buffer to fill. Where no byte is there yet it
spins, so the next poll that yields one is the next byte of the console input. -/
def readLoop : Nat → IoState → Console → Bytes × IoState × Console
  | 0, io, console => ([], io, console)
  | left + 1, io, console =>
    match io.takeStdinByte with
    | (.byte b, io') =>
      let (bs, last) := readLoop left io' console
      (b :: bs, last)
    | (.eof, io') => ([], io', console)
    | (.unavailable, io') =>
      -- the console: a line end is delivered and ends the read
      let b := console.input console.taken
      let console' := { console with taken := console.taken + 1 }
      if b = 10 ∨ b = 13 then ([b], io', console')
      else
        let (bs, last) := readLoop left io' console'
        (b :: bs, last)

def sysRead (k : Kernel) (fd : Nat) (buf : Option Nat) : Reply × Kernel :=
  match buf with
  | none => (.failed, k)
  | some len =>
    if fd ≠ 0 then (.failed, k)
    else if len = 0 then (.value 0, k)
    else
      let (bytes, io, console) := readLoop len k.io k.console
      (⟨bytes.length, bytes, none⟩, { k with io, console })

def sysWrite (k : Kernel) (fd : Nat) (buf : Option Bytes) : Reply × Kernel :=
  match buf with
  | none => (.failed, k)
  | some bytes =>
    if fd ≠ 1 ∧ fd ≠ 2 then (.failed, k)
    else if bytes.length = 0 then (.value 0, k)
    else
      -- a full or absent capture sends the bytes to the console
      match k.io.captureStdout bytes with
      | (true, io) => (.value bytes.length, { k with io })
      | (false, io) => (.value bytes.length, { k with io, console := bytes.foldl .put k.console })

/-! ### Arguments -/

/-- `copy_cstr_uninit` into a buffer of `size` bytes: the bytes before the first NUL. -/
def copyCstr (size : Nat) (src : Option Bytes) : Option Bytes :=
  match src with
  | none => none
  | some bytes =>
    let text := (bytes.take size).takeWhile (· != 0)
    -- `none` without a NUL among the first `size` bytes
    if text.length < min size bytes.length then some text else none

/-- A C string argument as the kernel uses it. -/
def cstr (size : Nat) (src : Option Bytes) : Option Bytes := (copyCstr size src).map fromUtf8OrEmpty

/-- A C string argument that may be null. -/
def cstrOrEmpty (size : Nat) (src : Option Bytes) : Option Bytes :=
  match src with
  | none => some []
  | some _ => cstr size src

/-- The three strings of an exec, in the order they are checked. -/
def execArgs (path args env : Option Bytes) : Option (Bytes × Bytes × Bytes) := do
  let path ← cstr 64 path
  let args ← cstrOrEmpty 192 args
  let env ← cstrOrEmpty 512 env
  return (path, args, env)

/-! ### Running images -/

section Exec

variable (sys : System) (run : Runner)

def execInternal (k : Kernel) (path args env : Bytes) : Option (Nat × Kernel) :=
  match startProcess sys.images k.pm path args env with
  | .error msg => some (u64Max, { k with console := k.console.serialPrint msg })
  | .ok started =>
    -- the segments are in memory and the process is in the table, also when entering fails
    let loaded := { k with pm := started.pm, mem := applyAll started.image started.ops k.mem }
    let ended : Option (Nat × Kernel) :=
      match started.entry with
      | .ok entry => run path entry.argBuf entry.envBuf loaded
      | .err msg =>
        let text := str "[failed] exec: " ++ str msg ++ str " for '" ++ path ++ str "'\n"
        some (u64Max, { loaded with console := loaded.console.serialPrint text })
      | .panic => none
    match ended with
    | none => none
    | some (status, k') => some (status, { k' with pm := k'.pm.finish started.pid status })

/-- The status, and the bytes copied to the caller's buffer of `cap` bytes; their number is the
length returned. -/
def execWithIo (k : Kernel) (path args env : Bytes) (stdin : Option Bytes) (cap : Option Nat) :
    Option (Nat × Bytes × Kernel) :=
  match execInternal sys run { k with io := k.io.setUp stdin cap.isSome } path args env with
  | none => none
  | some (status, k') =>
    -- the context is cleared, not restored: an outer exec is left without one
    let (captured, io) := k'.io.tearDown cap
    some (status, captured, { k' with io })

def exec (k : Kernel) (path args env : Bytes) : Option (Nat × Kernel) :=
  match execWithIo sys run k path args env none none with
  | none => none
  | some (status, _, k') => some (status, k')

def sysExecIo (k : Kernel) (req : ExecIoRequest) : Option (Reply × Kernel) :=
  if req.path.isNone || !req.status then some (.failed, k)
  else
    match execArgs req.path req.args req.env with
    | none => some (.failed, k)
    | some (path, args, env) =>
      -- an empty input counts as no input
      let stdin := match req.stdin with
        | none => none
        | some data => if data.length = 0 then none else some (data.take 4096)
      let stdout := match req.stdoutCap with
        | none => none
        | some cap => if cap = 0 then none else some (min cap 4096)
      match execWithIo sys run k path args env stdin stdout with
      | none => none
      | some (status, captured, k') => some (⟨captured.length, captured, some status⟩, k')

def dispatch : Syscall → Kernel → Option (Reply × Kernel)
  | .read fd buf, k => some (sysRead k fd buf)
  | .write fd buf, k => some (sysWrite k fd buf)
  | .execve path args env, k =>
    match execArgs path args env with
    | none => some (.failed, k)
    | some (path, args, env) =>
      match exec sys run k path args env with
      | none => none
      | some (status, k') => some (.value status, k')
  -- the call returns to the program; its status is what the image returns
  | .exit _, k => some (.value 0, k)
  | .readDir path buf, k =>
    if path.isNone ∨ buf.getD 0 = 0 then some (.failed, k)
    else
      match cstr 128 path with
      | none => some (.failed, k)
      | some path =>
        match listDir sys.images k.ram path (buf.getD 0) with
        | .ok listed => some (⟨listed.length, listed, none⟩, k)
        | _ => none
  | .readFile path buf, k =>
    if path.isNone ∨ buf.getD 0 = 0 then some (.failed, k)
    else
      match cstr 128 path with
      | none => some (.failed, k)
      | some path =>
        match readFileBytes sys.images k.ram path (buf.getD 0) with
        | none => some (.failed, k)
        | some data => some (⟨data.length, data, none⟩, k)
  | .execIo req, k =>
    match req with
    | none => some (.failed, k)
    | some req => sysExecIo sys run k req
  | .writeFile path data, k =>
    match data with
    | none => some (.failed, k)
    | some data =>
      match cstr 128 path with
      | none => some (.failed, k)
      | some path =>
        match Vfs.writeFile k.ram path data with
        | (true, ram) => some (.value data.length, { k with ram })
        | (false, ram) => some (.failed, { k with ram })
  | .other _, k => some (.failed, k)

end Exec

/-- Runs the program of an image whose system calls may nest execs up to a depth. -/
def runImage (sys : System) : Nat → Runner
  | 0, _, _, _, _ => none
  | depth + 1, path, argBuf, envBuf, k =>
    match (sys.image path argBuf envBuf).run (dispatch sys (runImage sys depth)) k with
    | none => none
    | some ran =>
      let this : ProcessRun :=
        ⟨path, argBuf, envBuf, ran.calls, ran.result, ran.state.console.taken - k.console.taken⟩
      some (ran.result, { ran.state with history := ran.state.history ++ [this] })

end Smultron
