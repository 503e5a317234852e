import Smultron.Kernel.ElfLoader
import Smultron.Kernel.Vfs

/-!
# Processes (kernel/src/process.rs)

The table of processes, the address slots they run in, and the one stdio context that every exec
sets up and tears down.
-/

namespace Smultron.Process

open Checked ElfLoader Memory SlotTable

def processSlotBase : Nat := 0x555500000000
def processSlotSize : Nat := 0x00100000
def maxProcessSlots : Nat := 7
def maxProcesses : Nat := 16
def maxIoStdin : Nat := 4096
def maxIoStdout : Nat := 4096

/-! ### The process table -/

inductive ProcessState where
  | empty
  | running
  deriving DecidableEq, Repr

structure ProcessRecord where
  pid : Nat
  slotIdx : Nat
  state : ProcessState
  exitCode : Nat
  deriving DecidableEq, Repr

def ProcessRecord.empty : ProcessRecord := ⟨0, 0, .empty, 0⟩

structure ProcessManager where
  nextPid : Nat
  slotsInUse : List Bool
  records : List ProcessRecord
  slots_length : slotsInUse.length = maxProcessSlots
  records_length : records.length = maxProcesses

namespace ProcessManager

def new : ProcessManager where
  nextPid := 1
  slotsInUse := List.replicate maxProcessSlots false
  records := List.replicate maxProcesses ProcessRecord.empty
  slots_length := List.length_replicate
  records_length := List.length_replicate

/-- `slots_in_use[slot_idx] = used` -/
def setSlot (pm : ProcessManager) (slotIdx : Nat) (used : Bool) : ProcessManager :=
  { pm with
    slotsInUse := pm.slotsInUse.set slotIdx used
    slots_length := by simpa using pm.slots_length }

/-- The scans of the table: change the first record that satisfies `p`. -/
def updateFirst (pm : ProcessManager) (p : ProcessRecord → Bool)
    (f : ProcessRecord → ProcessRecord) : Option ProcessManager :=
  match h : SlotTable.updateFirst p f pm.records with
  | some records =>
    some { pm with records, records_length := (length_updateFirst h).trans pm.records_length }
  | none => none

/-- The pid and the slot of the process that starts. -/
def spawnSlot (pm : ProcessManager) (slotIdx : Nat) : Option ((Nat × Nat) × ProcessManager) :=
  if pm.slotsInUse[slotIdx]? ≠ some false then none
  else
    let pid := pm.nextPid
    -- without an empty record nothing changes, and the pid is not used up
    match pm.updateFirst (·.state == .empty) fun _ => ⟨pid, slotIdx, .running, 0⟩ with
    | none => none
    | some pm' =>
      some ((pid, slotIdx), { pm' with nextPid := min (pid + 1) u64Max }.setSlot slotIdx true)

def finish (pm : ProcessManager) (pid _exitCode : Nat) : ProcessManager :=
  match pm.records.find? fun r => r.pid == pid && r.state == .running with
  | none => pm
  | some r =>
    -- the exit code is written to the record and cleared again at once
    match pm.updateFirst (fun r => r.pid == pid && r.state == .running)
        fun _ => ProcessRecord.empty with
    | none => pm
    | some pm' => if r.slotIdx < maxProcessSlots then pm'.setSlot r.slotIdx false else pm'

end ProcessManager

/-! ### Slots -/

def slotBase (slotIdx : Nat) : Nat := processSlotBase + slotIdx * processSlotSize

def slotForIndex (slotIdx : Nat) : AppSlot :=
  let base := slotBase slotIdx
  ⟨base, base + processSlotSize⟩

def slotForPath (path : Bytes) : Option Nat :=
  if path = str "/bin/init" then some 0
  else if path = str "/bin/echo" then some 1
  else if path = str "/bin/env" then some 2
  else if path = str "/bin/ls" then some 3
  else if path = str "/bin/cat" then some 4
  else if path = str "/bin/tee" then some 5
  else if path = str "/bin/sed" then some 6
  else none

def probeExecutable (images : Vfs.Images) (path : Bytes) : Bool :=
  match Vfs.readFile images path with
  | none => false
  | some bytes =>
    match slotForPath path with
    | none => false
    | some slotIdx => probeElfForSlot bytes (slotForIndex slotIdx)

/-! ### Starting a process -/

/-- A process in the table, with what loading it has done so far. -/
structure Started where
  pid : Nat
  slotIdx : Nat
  image : Bytes
  ops : List BlockOp
  entry : Outcome String Entry
  pm : ProcessManager

/-- `exec_internal` up to the jump into the image; an error is the message it logs. -/
def startProcess (images : Vfs.Images) (pm : ProcessManager) (path args env : Bytes) :
    Except Bytes Started :=
  match Vfs.readFile images path with
  | none => .error (str "[failed] exec: missing app '" ++ path ++ str "'\n")
  | some bytes =>
    match slotForPath path with
    | none => .error (str "[failed] exec: no slot mapping for '" ++ path ++ str "'\n")
    | some slotIdx =>
      match pm.spawnSlot slotIdx with
      | none =>
        .error (str "[failed] exec: slot " ++ str (toString slotIdx) ++ str " unavailable for '" ++
          path ++ str "'\n")
      | some ((pid, _), pm') =>
        let entered := enterSlot bytes (slotForIndex slotIdx) args env
        .ok ⟨pid, slotIdx, bytes, entered.1, entered.2, pm'⟩

/-! ### The stdio context -/

inductive StdinByte where
  | byte (b : UInt8)
  | eof
  | unavailable
  deriving DecidableEq, Repr

/-- `IO_STATE`. The two buffers keep their old bytes behind the lengths. -/
structure IoState where
  active : Bool
  stdinEnabled : Bool
  stdinLen : Nat
  stdinPos : Nat
  stdoutCapture : Bool
  stdoutLen : Nat
  stdinBuf : Buffer maxIoStdin
  stdoutBuf : Buffer maxIoStdout
  stdin_fits : stdinLen ≤ maxIoStdin
  stdout_fits : stdoutLen ≤ maxIoStdout

namespace IoState

def new : IoState where
  active := false
  stdinEnabled := false
  stdinLen := 0
  stdinPos := 0
  stdoutCapture := false
  stdoutLen := 0
  stdinBuf := Buffer.zero maxIoStdin
  stdoutBuf := Buffer.zero maxIoStdout
  stdin_fits := Nat.zero_le _
  stdout_fits := Nat.zero_le _

/-- The first block of `exec_with_io`. -/
def setUp (io : IoState) (stdin : Option Bytes) (capture : Bool) : IoState :=
  let io : IoState :=
    { io with
      active := true
      stdinEnabled := stdin.isSome
      stdinLen := 0
      stdinPos := 0
      stdoutCapture := capture
      stdoutLen := 0
      stdin_fits := Nat.zero_le _
      stdout_fits := Nat.zero_le _ }
  match stdin with
  | none => io
  | some data =>
    -- the old bytes behind `copyLen` stay in the buffer
    let copyLen := min data.length maxIoStdin
    { io with
      stdinLen := copyLen
      stdinBuf := io.stdinBuf.blit 0 (data.take copyLen) (by simp; omega)
      stdin_fits := Nat.min_le_right .. }

/-- The last block of `exec_with_io`, with the bytes copied to a buffer of `cap` bytes. -/
def tearDown (io : IoState) (cap : Option Nat) : Bytes × IoState :=
  let captured := match cap with
    | some cap => io.stdoutBuf.front (min io.stdoutLen cap)
    | none => []
  (captured,
    { io with
      active := false
      stdinEnabled := false
      stdinLen := 0
      stdinPos := 0
      stdoutCapture := false
      stdoutLen := 0
      stdin_fits := Nat.zero_le _
      stdout_fits := Nat.zero_le _ })

def takeStdinByte (io : IoState) : StdinByte × IoState :=
  -- `unavailable` sends the reader to the console; `eof` ends its input
  if !io.active || !io.stdinEnabled then (.unavailable, io)
  else if h : io.stdinLen ≤ io.stdinPos then (.eof, io)
  else
    have inside : io.stdinPos < maxIoStdin := by have := io.stdin_fits; omega
    (.byte (io.stdinBuf.get io.stdinPos inside), { io with stdinPos := io.stdinPos + 1 })

def captureStdout (io : IoState) (buf : Bytes) : Bool × IoState :=
  if h : !io.active || !io.stdoutCapture || decide (maxIoStdout ≤ io.stdoutLen) then (false, io)
  else
    have room : io.stdoutLen < maxIoStdout := by simp at h; omega
    -- what does not fit is dropped, but the caller is told that all of it was captured
    let remaining := maxIoStdout - io.stdoutLen
    let copyLen := min remaining buf.length
    (true,
      { io with
        stdoutLen := io.stdoutLen + copyLen
        stdoutBuf := io.stdoutBuf.blit io.stdoutLen (buf.take copyLen) (by simp; omega)
        stdout_fits := by omega })

end IoState

/-- What a context means to the running program: the redirected input not delivered yet, and the
output captured so far. `none` stands for the console. -/
structure Stdio where
  stdin : Option Bytes
  stdout : Option Bytes
  deriving DecidableEq, Repr

def IoState.stdio (io : IoState) : Stdio where
  stdin :=
    if io.active && io.stdinEnabled then some ((io.stdinBuf.front io.stdinLen).drop io.stdinPos)
    else none
  stdout :=
    if io.active && io.stdoutCapture then some (io.stdoutBuf.front io.stdoutLen) else none

end Smultron.Process
