import Smultron.Kernel.Process

/-!
# The serial line and the keyboard (kernel/src/serial.rs, kernel/src/keyboard.rs)

The kernel has no interrupts for its input: a reader polls the ports of the serial line, and where
nothing has come it polls those of the keyboard. What comes in is not known before, so the ports carry
all that will arrive, poll by poll. The decoder of scan codes is the `pc_keyboard` crate, which is not
in the source.
-/

namespace Smultron.Polling

open Process

inductive KeyCode where
  | returnKey
  | numpadEnter
  | backspace
  | other (code : Nat)
  deriving DecidableEq

inductive DecodedKey where
  | unicode (c : Char)
  | rawKey (code : KeyCode)

/-- What the functions use of the crate. -/
structure PcKeyboard (Keyboard KeyEvent : Type) where
  -- `keyboard.add_byte(scancode).ok().flatten()`
  addByte : Keyboard → UInt8 → Option KeyEvent × Keyboard
  -- `keyboard.process_keyevent(event)`
  processKeyevent : Keyboard → KeyEvent → Option DecodedKey × Keyboard

/-- The bytes that wait at the serial line, the scan codes that wait at the keyboard, its decoder, and
what will arrive before each of the next polls. -/
structure Ports (Keyboard : Type) where
  serial : List UInt8
  scancodes : List UInt8
  keyboard : Keyboard
  arrivals : List (List UInt8 × List UInt8)

variable {Keyboard KeyEvent : Type} (pc : PcKeyboard Keyboard KeyEvent)

/-- The line status register of the serial port. Of its bits only the lowest is looked at. -/
def Ports.lineStatus (ports : Ports Keyboard) : UInt8 := if ports.serial.isEmpty then 0x60 else 0x61

/-- The status register of the keyboard controller. -/
def Ports.status (ports : Ports Keyboard) : UInt8 := if ports.scancodes.isEmpty then 0x1c else 0x1d

/-- `serial::try_read_byte` -/
def tryReadSerial (ports : Ports Keyboard) : Option UInt8 × Ports Keyboard :=
  if ports.lineStatus &&& 1 = 0 then (none, ports)
  else (ports.serial.head?, { ports with serial := ports.serial.tail })

/-- The last `match` of `keyboard::try_read_byte`. -/
def keyByte : DecodedKey → Option UInt8
  | .unicode c => if c.val < 128 then some c.val.toUInt8 else none
  | .rawKey .returnKey => some 10
  | .rawKey .numpadEnter => some 10
  | .rawKey .backspace => some 8
  | .rawKey (.other _) => none

/-- What the keyboard makes of a scan code. -/
def decodeScancode (keyboard : Keyboard) (scancode : UInt8) : Option UInt8 × Keyboard :=
  match pc.addByte keyboard scancode with
  | (none, keyboard) => (none, keyboard)
  | (some event, keyboard) =>
    match pc.processKeyevent keyboard event with
    | (none, keyboard) => (none, keyboard)
    | (some key, keyboard) => (keyByte key, keyboard)

/-- `keyboard::try_read_byte` -/
def tryReadKey (ports : Ports Keyboard) : Option UInt8 × Ports Keyboard :=
  if ports.status &&& 1 = 0 then (none, ports)
  else
    match ports.scancodes with
    | [] => (none, ports)
    | scancode :: scancodes =>
      let (byte, keyboard) := decodeScancode pc ports.keyboard scancode
      (byte, { ports with scancodes, keyboard })

/-- `serial::try_read_byte().or_else(keyboard::try_read_byte)`, when what has come in is there. -/
def poll (ports : Ports Keyboard) : Option UInt8 × Ports Keyboard :=
  let (serial, scancodes) := ports.arrivals.headD ([], [])
  let ports := { ports with
    serial := ports.serial ++ serial
    scancodes := ports.scancodes ++ scancodes
    arrivals := ports.arrivals.tail }
  match tryReadSerial ports with
  | (some byte, ports) => (some byte, ports)
  | (none, ports) => tryReadKey pc ports

/-- The loop of `Read` with `left` bytes of the buffer to fill, for a number of rounds; `none` where it
still spins. -/
def readRounds : Nat → Nat → IoState → Ports Keyboard → Option (Bytes × IoState × Ports Keyboard)
  | _, 0, io, ports => some ([], io, ports)
  | 0, _ + 1, _, _ => none
  | rounds + 1, left + 1, io, ports =>
    match io.takeStdinByte with
    | (.byte b, io) => (readRounds rounds left io ports).map fun (bs, last) => (b :: bs, last)
    | (.eof, io) => some ([], io, ports)
    | (.unavailable, io) =>
      match poll pc ports with
      | (some b, ports) =>
        if b = 10 ∨ b = 13 then some ([b], io, ports)
        else (readRounds rounds left io ports).map fun (bs, last) => (b :: bs, last)
      | (none, ports) => readRounds rounds (left + 1) io ports

end Smultron.Polling
