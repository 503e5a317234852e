import Smultron.Machine.World
import Smultron.Properties.CatCopies
import Smultron.Userspace.Start

/-!
# What the programs of the boot image mean

Each program is a function here: from its two strings, the files and its redirected input to what it
writes and to the files it leaves. Nothing is said of buffers, of the pieces in which input is read
and output is written, or of the calls that do it.
-/

namespace Smultron.Machine

open Checked Vfs

variable (images : Images)

/-- A file as the library reads it: a path that leaves no room for its NUL names none, and one with a
NUL in it ends there. -/
def fileAt (ram : RamFiles) (path : Bytes) : Option Bytes :=
  if path.length < 128 then readFileBytes images ram (cstrToStr path) 4096 else none

/-- A write of a file through the library: whether it is taken, and the files after it. -/
def store (ram : RamFiles) (path data : Bytes) : Bool × RamFiles :=
  if path.length < 128 then writeFile ram (cstrToStr path) data else (false, ram)

/-- The path that an argument stands for. -/
def pathMeant (cwd path : Bytes) : Option Bytes :=
  if Shell.isAbsolute path then some path
  else if (pathUnder cwd path).length ≤ 128 then some (pathUnder cwd path)
  else none

def cannotRead (program path : Bytes) : Bytes := program ++ str ": cannot read " ++ path ++ str "\n"

/-! ### The programs -/

def echo (args : Bytes) : Meaning := fun ram _ => some (args ++ str "\n", ram)

def env (envText : Bytes) : Meaning := fun ram _ => some (envText, ram)

/-- Each name in the directory on a line of its own. -/
def ls (envText : Bytes) : Meaning := fun ram _ =>
  if 128 ≤ (startCwd envText).length then some ([], ram)
  else
    match listDir images ram (startCwd envText) 1024 with
    | .ok listed => some ((Ls.names listed.length listed).flatMap (· ++ str "\n"), ram)
    | _ => none

/-- What `cat` makes of a file, if there is one. -/
def catText (path : Bytes) : Option Bytes → Bytes
  | none => cannotRead (str "cat") path
  | some content => if content = [] then [] else content ++ Cat.lineEnd content

def catFile (ram : RamFiles) (cwd path : Bytes) : Bytes :=
  match pathMeant cwd path with
  | none => str "cat: path too long\n"
  | some path => catText path (fileAt images ram path)

def cat (args envText : Bytes) : Meaning := fun ram stdin =>
  if Utf8.trim args = [] then stdin.map fun data => (data, ram)
  else some (catFile images ram (startCwd envText) (Utf8.trim args), ram)

/-- The messages of `tee`, and the files it leaves. -/
def teeFiles (data : Bytes) : List Bytes → RamFiles → Bytes × RamFiles
  | [], ram => ([], ram)
  | path :: later, ram =>
    let (stored, ram) := store ram path data
    let (messages, last) := teeFiles data later ram
    if stored then (messages, last)
    else (str "tee: cannot write " ++ path ++ str "\n" ++ messages, last)

def tee (args : Bytes) : Meaning := fun ram stdin =>
  match Tee.files args with
  | none => some (str "tee: too many output files\n", ram)
  | some files =>
    stdin.map fun data => (data ++ (teeFiles data files ram).1, (teeFiles data files ram).2)

def sedText (script : Sed.Script) (path : Bytes) : Option Bytes → Bytes
  | none => cannotRead (str "sed") path
  | some content => Sed.edit script content

def sedFile (script : Sed.Script) (ram : RamFiles) (cwd path : Bytes) : Bytes :=
  match pathMeant cwd path with
  | none => str "sed: path too long\n"
  | some path => sedText script path (fileAt images ram path)

def sed (args envText : Bytes) : Meaning := fun ram stdin =>
  match Sed.tokens args with
  | none => some (str "sed: too many arguments\n", ram)
  | some [] => some (str "usage: sed s/old/new/[g] [file...]\n", ram)
  | some (script :: files) =>
    match Sed.parseScript script with
    | none =>
      some (str "sed: unsupported script (expected s<delim>old<delim>new<delim>[g])\n", ram)
    | some script =>
      if files = [] then stdin.map fun data => (Sed.edit script data, ram)
      else some (files.flatMap (sedFile images script ram (startCwd envText)), ram)

/-- The boot image. Of the shell itself nothing is said: it asks the console for its lines. -/
def bootMachine : Boot where
  images := images
  meaning path args envText :=
    if path = str "/bin/echo" then echo args
    else if path = str "/bin/env" then env envText
    else if path = str "/bin/ls" then ls images envText
    else if path = str "/bin/cat" then cat images args envText
    else if path = str "/bin/tee" then tee args
    else if path = str "/bin/sed" then sed images args envText
    else fun _ _ => none

end Smultron.Machine
