import Smultron.Basic
import Smultron.Lib.Checked
import Smultron.Lib.Memory

/-!
# The ELF loader (kernel/src/elf_loader.rs)

Fields of the headers are the numbers the bytes spell; `usize` is 64 bits wide. Writes to memory
are collected as block operations, in order, so that a load says which addresses it touches.
-/

namespace Smultron.ElfLoader

open Checked Checked.Outcome Memory

def maxArgLen : Nat := 191
def maxEnvLen : Nat := 511
def elfMag : Bytes := [0x7f, 0x45, 0x4c, 0x46]
def eiClass : Nat := 4
def eiData : Nat := 5
def elfClass64 : UInt8 := 2
def elfData2Lsb : UInt8 := 1
def ptLoad : Nat := 1
def elf64EhdrSize : Nat := 64
def elf64PhdrSize : Nat := 56

structure AppSlot where
  base : Nat
  end_ : Nat

structure ElfHdr where
  entry : Nat
  phoff : Nat
  phentsize : Nat
  phnum : Nat
  deriving DecidableEq, Repr

structure ProgramHeader where
  pType : Nat
  pOffset : Nat
  pVaddr : Nat
  pFilesz : Nat
  pMemsz : Nat
  deriving DecidableEq, Repr

/-- `from_le_bytes` -/
def leBytes (bs : Bytes) : Nat := bs.foldr (fun b rest => b.toNat + 256 * rest) 0

/-- `bytes.get(start..stop)` -/
def get (bytes : Bytes) (start stop : Nat) : Option Bytes :=
  if start ≤ stop ∧ stop ≤ bytes.length then some ((bytes.take stop).drop start) else none

-- `read_u16`, `read_u32` and `read_u64` differ in the width alone.
def readLe (width : Nat) (bytes : Bytes) (off : Nat) : Outcome String Nat := do
  let stop ← okOr "offset overflow" (checkedAdd off width)
  let slice ← okOr "offset out of bounds" (get bytes off stop)
  return leBytes slice

def readU16 : Bytes → Nat → Outcome String Nat := readLe 2
def readU32 : Bytes → Nat → Outcome String Nat := readLe 4
def readU64 : Bytes → Nat → Outcome String Nat := readLe 8

def parseElfHeader (bytes : Bytes) : Outcome String ElfHdr := do
  errIf (bytes.length < elf64EhdrSize) "ELF too small"
  let magic ← slice bytes 0 4
  errIf (magic ≠ elfMag) "invalid ELF magic"
  let class_ ← index bytes eiClass
  errIf (class_ ≠ elfClass64) "unsupported ELF class"
  let data ← index bytes eiData
  errIf (data ≠ elfData2Lsb) "unsupported ELF endianness"
  let entry ← readU64 bytes 24
  let phoff ← readU64 bytes 32
  let phentsize ← readU16 bytes 54
  let phnum ← readU16 bytes 56
  errIf (phentsize ≠ elf64PhdrSize) "unexpected program header size"
  return ⟨entry, phoff, phentsize, phnum⟩

/-- The bounds check of `program_headers`; the iterator it returns starts at index 0. -/
def programHeaders (bytes : Bytes) (hdr : ElfHdr) : Outcome String Unit := do
  let total ← okOr "program header overflow" (checkedMul hdr.phentsize hdr.phnum)
  let end_ ← okOr "program header overflow" (checkedAdd hdr.phoff total)
  errIf (bytes.length < end_) "program header table out of bounds"

/-- `x.ok()?` in a function that returns an option. -/
def okElse {ε ε' α β : Type} (x : Outcome ε α) (f : α → Outcome ε' (Option β)) :
    Outcome ε' (Option β) :=
  match x with
  | .ok a => f a
  | .err _ => .ok none
  | .panic => .panic

/-- `ProgramHeaderIter::next` at index `idx`: the header and the next index. -/
def next {ε : Type} (bytes : Bytes) (hdr : ElfHdr) (idx : Nat) :
    Outcome ε (Option (ProgramHeader × Nat)) := do
  if hdr.phnum ≤ idx then return none
  let off ← mul idx hdr.phentsize
  let base ← add hdr.phoff off
  -- `self.idx` is a `u16`
  let idx' ← (if idx + 1 < UInt16.size then .ok (idx + 1) else .panic)
  okElse (readU32 bytes base) fun pType => do
  let o8 ← add base 8
  okElse (readU64 bytes o8) fun pOffset => do
  let o16 ← add base 16
  okElse (readU64 bytes o16) fun pVaddr => do
  -- the physical address at offset 24 is not read
  let o32 ← add base 32
  okElse (readU64 bytes o32) fun pFilesz => do
  let o40 ← add base 40
  okElse (readU64 bytes o40) fun pMemsz =>
  return some (⟨pType, pOffset, pVaddr, pFilesz, pMemsz⟩, idx')

/-- `for ph in program_headers { body }` from index `idx` on. The iterator ends after at most
`phnum` headers, so `phnum + 1` calls of `next` are enough. -/
def forHeaders {ε σ : Type} (bytes : Bytes) (hdr : ElfHdr)
    (body : σ → ProgramHeader → Outcome ε σ) : Nat → Nat → σ → Outcome ε σ
  | 0, _, s => .ok s
  | calls + 1, idx, s => do
    match ← next bytes hdr idx with
    | none => return s
    | some (ph, idx') =>
      let s' ← body s ph
      forHeaders bytes hdr body calls idx' s'

/-- The body of the loop of `validate_elf_for_slot`. -/
def validateSegment (bytes : Bytes) (slot : AppSlot) (ph : ProgramHeader) : Outcome String Unit := do
  if ph.pType ≠ ptLoad then return ()
  let memEnd ← okOr "PT_LOAD range overflow" (checkedAdd ph.pVaddr ph.pMemsz)
  errIf (ph.pVaddr < slot.base ∨ slot.end_ < memEnd) "PT_LOAD outside app slot"
  let fileEnd ← okOr "PT_LOAD file range overflow" (checkedAdd ph.pOffset ph.pFilesz)
  errIf (bytes.length < fileEnd) "PT_LOAD file range outside ELF"
  errIf (ph.pMemsz < ph.pFilesz) "PT_LOAD memsz < filesz"

def validateElfForSlot (bytes : Bytes) (slot : AppSlot) : Outcome String ElfHdr := do
  let hdr ← parseElfHeader bytes
  programHeaders bytes hdr
  forHeaders bytes hdr (fun _ ph => validateSegment bytes slot ph) (hdr.phnum + 1) 0 ()
  return hdr

def probeElfForSlot (bytes : Bytes) (slot : AppSlot) : Bool :=
  match validateElfForSlot bytes slot with
  | .ok _ => true
  | _ => false

/-- What `load_segments` has done so far: the headers its loop has seen and its writes. -/
structure Loaded where
  headers : List ProgramHeader
  ops : List BlockOp

/-- The body of the loop of `load_segments`. -/
def loadSegment {ε : Type} (loaded : Loaded) (ph : ProgramHeader) : Outcome ε Loaded := do
  let headers := loaded.headers ++ [ph]
  if ph.pType ≠ ptLoad then return { loaded with headers }
  let copied := loaded.ops ++ [.copy ph.pOffset ph.pVaddr ph.pFilesz]
  -- only a segment that is larger in memory than in the file has a tail to clear
  if ph.pMemsz ≤ ph.pFilesz then return ⟨headers, copied⟩
  let tail ← add ph.pVaddr ph.pFilesz
  let rest ← sub ph.pMemsz ph.pFilesz
  return ⟨headers, copied ++ [.fill tail 0 rest]⟩

/-- An error carries the writes done before it. -/
def loadSegments (bytes : Bytes) (slot : AppSlot) (hdr : ElfHdr) : Outcome (List BlockOp) Loaded := do
  let size ← sub slot.end_ slot.base
  -- the whole slot is cleared before the headers are looked at again
  let zeroed : List BlockOp := [.fill slot.base 0 size]
  match programHeaders bytes hdr with
  | .err _ => .err zeroed
  | .panic => .panic
  | .ok () => forHeaders bytes hdr loadSegment (hdr.phnum + 1) 0 ⟨[], zeroed⟩

/-- The jump `exec_in_slot` is about to make: where to, and the NUL-terminated buffers whose
addresses the program gets. -/
structure Entry where
  entry : Nat
  argBuf : Bytes
  envBuf : Bytes

/-- `exec_in_slot` up to the call of the entry function, with the writes it has done. -/
def enterSlot (bytes : Bytes) (slot : AppSlot) (args env : Bytes) :
    List BlockOp × Outcome String Entry :=
  match validateElfForSlot bytes slot with
  | .err msg => ([], .err msg)
  | .panic => ([], .panic)
  | .ok hdr =>
    match loadSegments bytes slot hdr with
    | .err ops => (ops, .err "PT_LOAD mapping failed")
    | .panic => ([], .panic)
    | .ok loaded =>
      -- these three checks come after the segments are in memory
      (loaded.ops, do
        errIf (hdr.entry = 0) "invalid ELF entry"
        errIf (maxArgLen < args.length) "args too long"
        errIf (maxEnvLen < env.length) "env too long"
        return ⟨hdr.entry, args ++ [0], env ++ [0]⟩)

end Smultron.ElfLoader
