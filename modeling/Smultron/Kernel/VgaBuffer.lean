import Smultron.Basic
import Smultron.Lib.Checked

/-!
# The screen (kernel/src/vga_buffer.rs)

The text buffer of the video card, and the writer that keeps its bottom row. What is in the buffer
at boot is not known, so a screen is used from `clear_screen` on.
-/

namespace Smultron.Vga

open Checked Checked.Outcome

structure ScreenChar where
  asciiCharacter : UInt8
  colorCode : UInt8
  deriving DecidableEq, Repr

def bufferHeight : Nat := 25
def bufferWidth : Nat := 80

/-- `Buffer` -/
abbrev Chars := Fin bufferHeight → Fin bufferWidth → ScreenChar

variable {ε : Type}

/-- `chars[row][col].read()` -/
def Chars.read (chars : Chars) (row col : Nat) : Outcome ε ScreenChar :=
  if h : row < bufferHeight ∧ col < bufferWidth then .ok (chars ⟨row, h.1⟩ ⟨col, h.2⟩) else .panic

/-- `chars[row][col].write(c)` -/
def Chars.write (chars : Chars) (row col : Nat) (c : ScreenChar) : Outcome ε Chars :=
  if row < bufferHeight ∧ col < bufferWidth then
    .ok fun r k => if r.val = row ∧ k.val = col then c else chars r k
  else .panic

structure Writer where
  columnPosition : Nat
  colorCode : UInt8
  buffer : Chars

namespace Writer

def clearRow (w : Writer) (row : Nat) : Outcome ε Writer := do
  let blank : ScreenChar := ⟨32, w.colorCode⟩
  let buffer ← forRange 0 bufferWidth w.buffer fun chars col => chars.write row col blank
  return { w with buffer }

def newLine (w : Writer) : Outcome ε Writer := do
  -- every row is copied to the one above it, from the top down
  let buffer ← forRange 1 bufferHeight w.buffer fun chars row =>
    forRange 0 bufferWidth chars fun chars col => do
      let c ← chars.read row col
      let up ← sub row 1
      chars.write up col c
  let w ← { w with buffer }.clearRow (bufferHeight - 1)
  return { w with columnPosition := 0 }

def writeByte (w : Writer) (byte : UInt8) : Outcome ε Writer := do
  if byte = 10 then w.newLine
  else if byte = 8 then
    if 0 < w.columnPosition then
      let col ← sub w.columnPosition 1
      let buffer ← w.buffer.write (bufferHeight - 1) col ⟨32, w.colorCode⟩
      return { w with columnPosition := col, buffer }
    else return w
  else
    -- the row is full only when there is something to write behind it
    let w ← (if bufferWidth ≤ w.columnPosition then w.newLine else pure w)
    let buffer ← w.buffer.write (bufferHeight - 1) w.columnPosition ⟨byte, w.colorCode⟩
    let col ← add w.columnPosition 1
    return { w with columnPosition := col, buffer }

/-- What `write_string` passes on for a byte. -/
def printable (byte : UInt8) : UInt8 := if (32 ≤ byte ∧ byte ≤ 126) ∨ byte = 10 then byte else 254

def writeString (w : Writer) (s : Bytes) : Outcome ε Writer :=
  s.foldlM (fun w byte => w.writeByte (printable byte)) w

end Writer

def clearScreen (w : Writer) : Outcome ε Writer := do
  let w ← forRange 0 bufferHeight w fun w row => w.clearRow row
  return { w with columnPosition := 0 }

/-- Bytes written one after the other. -/
def writeBytes (w : Writer) (bytes : Bytes) : Outcome ε Writer := bytes.foldlM Writer.writeByte w

end Smultron.Vga
