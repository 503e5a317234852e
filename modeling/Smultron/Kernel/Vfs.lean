import Smultron.Basic
import Smultron.Lib.Buffer
import Smultron.Lib.Checked
import Smultron.Lib.SlotTable
import Smultron.Lib.Utf8

/-!
# The file system (kernel/src/vfs.rs)

Read-only files the boot image carries, and sixteen RAM files that hold what programs write. The
ELF images come from the build, so they are a parameter.
-/

namespace Smultron.Vfs

open Checked SlotTable Utf8

structure FileEntry where
  path : Bytes
  data : Bytes

/-- The program images the build script places in the boot image. -/
structure Images where
  init : Bytes
  echo : Bytes
  env : Bytes
  ls : Bytes
  cat : Bytes
  tee : Bytes
  sed : Bytes

def helloTxt : Bytes := str "hello.txt from initrd/TarFS"

/-- `FILES` -/
def files (images : Images) : List FileEntry :=
  [⟨str "/hello.txt", helloTxt⟩,
   ⟨str "/bin/init", images.init⟩,
   ⟨str "/bin/echo", images.echo⟩,
   ⟨str "/bin/env", images.env⟩,
   ⟨str "/bin/ls", images.ls⟩,
   ⟨str "/bin/cat", images.cat⟩,
   ⟨str "/bin/tee", images.tee⟩,
   ⟨str "/bin/sed", images.sed⟩]

def maxRamFiles : Nat := 16
def maxRamPathLen : Nat := 128
def maxRamFileLen : Nat := 4096

/-- A RAM file. The arrays keep their old bytes behind the two lengths. -/
structure RamFile where
  used : Bool
  pathLen : Nat
  dataLen : Nat
  path : Buffer maxRamPathLen
  data : Buffer maxRamFileLen
  path_fits : pathLen ≤ maxRamPathLen
  data_fits : dataLen ≤ maxRamFileLen

namespace RamFile

def empty : RamFile where
  used := false
  pathLen := 0
  dataLen := 0
  path := Buffer.zero maxRamPathLen
  data := Buffer.zero maxRamFileLen
  path_fits := Nat.zero_le _
  data_fits := Nat.zero_le _

/-- `file.used && file.path_len == path.len() && file.path[..file.path_len] == path` -/
def holds (path : Bytes) (f : RamFile) : Bool :=
  f.used && f.pathLen == path.length && f.path.front f.pathLen == path

/-- Store the first `maxRamFileLen` bytes of `data`. -/
def setData (data : Bytes) (f : RamFile) : RamFile :=
  let copyLen := min data.length maxRamFileLen
  -- longer data is cut without an error
  { f with
    dataLen := copyLen
    data := f.data.blit 0 (data.take copyLen) (by simp; omega)
    data_fits := Nat.min_le_right .. }

/-- Take a free entry for `path`. -/
def create (path : Bytes) (fits : path.length ≤ maxRamPathLen) (data : Bytes) (f : RamFile) :
    RamFile :=
  { f with
    used := true
    pathLen := path.length
    path := f.path.blit 0 path (by simpa using fits)
    path_fits := fits }.setData data

/-- The path bytes and the data bytes an entry stands for. -/
def pathBytes (f : RamFile) : Bytes := f.path.front f.pathLen
def dataBytes (f : RamFile) : Bytes := f.data.front f.dataLen

/-- The slot of the overlay an entry is: free, or a path with its data. -/
def slot (f : RamFile) : Option (Bytes × Bytes) :=
  if f.used then some (f.pathBytes, f.dataBytes) else none

end RamFile

/-- `RAM_FILES` -/
structure RamFiles where
  files : List RamFile
  length_eq : files.length = maxRamFiles

namespace RamFiles

def empty : RamFiles := ⟨List.replicate maxRamFiles RamFile.empty, List.length_replicate⟩

/-- One of the two scans of `write_file`: update the first entry that satisfies `p`. -/
def updateFirst (ram : RamFiles) (p : RamFile → Bool) (f : RamFile → RamFile) : Option RamFiles :=
  match h : SlotTable.updateFirst p f ram.files with
  | some files => some ⟨files, (length_updateFirst h).trans ram.length_eq⟩
  | none => none

/-- The overlay as a table of slots. -/
def slots (ram : RamFiles) : Slots Bytes Bytes := ram.files.map RamFile.slot

/-- The paths stored in the overlay. -/
def paths (ram : RamFiles) : List Bytes := keys ram.slots

end RamFiles

def readFile (images : Images) (path : Bytes) : Option Bytes :=
  ((files images).find? (·.path == path)).map FileEntry.data

/-- The bytes copied to the front of `out`; their number is the length returned. -/
def readFileBytes (images : Images) (ram : RamFiles) (path : Bytes) (outLen : Nat) : Option Bytes :=
  match readFile images path with
  -- a file of the boot image hides a RAM file of the same path
  | some data => some (data.take (min data.length outLen))
  | none =>
    (ram.files.find? (·.holds path)).map fun f => f.data.front (min f.dataLen outLen)

def writeFile (ram : RamFiles) (path data : Bytes) : Bool × RamFiles :=
  if h : path = [] ∨ maxRamPathLen < path.length then (false, ram)
  else
    match ram.updateFirst (·.holds path) (·.setData data) with
    | some ram' => (true, ram')
    | none =>
      -- no entry of this path: the first unused one takes it
      match ram.updateFirst (!·.used) (·.create path (by omega) data) with
      | some ram' => (true, ram')
      | none => (false, ram)

/-- A sequence of `write_file` calls: each with its answer, and the files after them. -/
def writeFiles (ram : RamFiles) :
    List (Bytes × Bytes) → List ((Bytes × Bytes) × Bool) × RamFiles
  | [] => ([], ram)
  | (path, data) :: ws =>
    let (accepted, ram') := writeFile ram path data
    let (log, last) := writeFiles ram' ws
    (((path, data), accepted) :: log, last)

/-! ### Listing a directory -/

/-- `&path[from..]` -/
def sliceFrom (path : Bytes) (start : Nat) : Outcome Empty Bytes :=
  if start ≤ path.length ∧ (path[start]?.all fun b => b &&& 0xC0 != 0x80) then .ok (path.drop start)
  else .panic

/-- The search through the names listed so far, each ended by a NUL. -/
def alreadyAdded (component : Bytes) : Nat → Bytes → Bool
  | 0, _ => false
  | left + 1, listed =>
    if listed = [] then false
    else
      -- every round drops a name and its NUL, so the rounds never outnumber the bytes
      let name := listed.takeWhile (· != 0)
      name == component || alreadyAdded component left (listed.drop (name.length + 1))

/-- `listed` is `buf[..offset]`, `bufLen` the size of the buffer. -/
def appendPathComponent (entryPath prefixStr : Bytes) (prefixLen bufLen : Nat) (listed : Bytes) :
    Outcome Empty Bytes :=
  if !prefixStr.isPrefixOf entryPath then return listed
  else do
    let remainder ← sliceFrom entryPath prefixLen
    let component := remainder.takeWhile (· != 47)
    if component = [] then return listed
    if alreadyAdded component listed.length listed then return listed
    -- a name that does not fit is left out, and the listing goes on
    if listed.length + component.length + 1 ≤ bufLen then return listed ++ component ++ [0]
    return listed

def listDir (images : Images) (ram : RamFiles) (path : Bytes) (bufLen : Nat) :
    Outcome Empty Bytes := do
  -- A path cut inside a character is no text: the names are then compared with "/" but sliced
  -- behind the length of the cut path.
  let prefixBytes := if path = str "/" then str "/" else path.take 126 ++ str "/"
  let prefixStr := (fromUtf8 prefixBytes).getD (str "/")
  let add (listed entryPath : Bytes) : Outcome Empty Bytes :=
    appendPathComponent entryPath prefixStr prefixBytes.length bufLen listed
  let listed ← ((files images).map FileEntry.path).foldlM add []
  ((ram.files.filter (·.used)).map fun f => fromUtf8OrEmpty f.pathBytes).foldlM add listed

end Smultron.Vfs
