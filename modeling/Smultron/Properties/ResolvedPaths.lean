import Smultron.Properties.ShellBounds
import Smultron.Userspace.Sed

/-!
# Paths under a directory

The shell, `cat` and `sed` each have their own copy of `resolve_path`. All of them put a relative
path behind the current directory, with one slash between the two, and refuse the result when it is
longer than 128 bytes. They differ in absolute paths, which the programs hand on unchecked, and in
an empty directory, at which the shell panics.
-/

namespace Smultron

open Checked Checked.Outcome Utf8 Shell

/-- The path a program means in a directory. -/
def pathUnder (cwd path : Bytes) : Bytes :=
  if isAbsolute path then path
  else if cwd.getLast? = some 47 then cwd ++ path
  else cwd ++ 47 :: path

/-- The directory with a slash behind it. -/
def slashed (cwd : Bytes) : Bytes := if cwd.getLast? = some 47 then cwd else cwd ++ [47]

/-- The text of a path that fits the buffer. -/
def fittingPath (path : Bytes) : Option Bytes := if path.length ≤ 128 then fromUtf8 path else none

theorem joinPath_eq {ε : Type} {out path : Bytes} (word : out.length + path.length < wordBound) :
    (joinPath out path : Outcome ε _) = .ok (fittingPath (out ++ path)) := by
  rw [joinPath, add_of_lt word, ok_bind, fittingPath, List.length_append]
  split
  next long => rw [if_neg (by omega), pure_eq]
  next fits =>
    rw [append_of_le (by omega), ok_bind, if_pos (by omega)]
    rfl

/-- A slash is put behind the directory unless it ends with one. -/
theorem slash_bind {ε β : Type} {cwd : Bytes} (some_ : cwd ≠ []) (room : cwd.length < 128)
    (f : Bytes → Outcome ε β) :
    (do
      let last ← sub cwd.length 1
      let b ← index cwd last
      let out ← (if b ≠ 47 then push 128 cwd 47 else pure cwd)
      f out) = f (slashed cwd) := by
  have size := List.length_pos_iff.mpr some_
  rw [sub_of_le size, ok_bind, index_of_lt (by omega), ok_bind, ← List.getLast_eq_getElem some_,
    slashed, List.getLast?_eq_some_getLast some_]
  by_cases slash : cwd.getLast some_ = 47
  · rw [if_neg (by simpa using slash), if_pos (by rw [slash]), pure_eq, ok_bind]
  · rw [if_pos slash, if_neg (by simpa using slash), push_of_lt room, ok_bind]

theorem pathUnder_relative {cwd path : Bytes} (relative : isAbsolute path = false) :
    pathUnder cwd path = slashed cwd ++ path := by
  rw [pathUnder, if_neg (by simp [relative]), slashed]
  split <;> simp

theorem length_slashed (cwd : Bytes) : (slashed cwd).length ≤ cwd.length + 1 := by
  rw [slashed]
  split <;> simp

theorem length_slashed_pos (cwd : Bytes) : 0 < (slashed cwd).length := by
  rw [slashed]
  split
  next slash => exact List.length_pos_of_mem (List.mem_of_getLast? slash)
  · simp

theorem suffix_pathUnder (cwd path : Bytes) : path <:+ pathUnder cwd path := by
  rw [pathUnder]
  split
  · exact List.suffix_refl path
  · split
    · exact List.suffix_append cwd path
    · exact ⟨cwd ++ [47], by simp⟩

theorem length_le_pathUnder (cwd path : Bytes) : path.length ≤ (pathUnder cwd path).length :=
  (suffix_pathUnder cwd path).length_le

theorem resolveFrom_eq {ε : Type} {path cwd : Bytes} (short : path.length ≤ maxParsedLine)
    (dir : cwd.length ≤ maxVal) : (resolveFrom path cwd : Outcome ε _) =
      .ok (if isAbsolute path then some path else fittingPath (pathUnder cwd path)) := by
  have word : 128 + maxParsedLine < wordBound := by decide
  have small : maxVal = 64 := rfl
  cases absolute : isAbsolute path with
  | true => rw [resolveFrom, absolute, if_pos rfl, if_pos rfl, pure_eq]
  | false =>
    have size := length_slashed cwd
    rw [resolveFrom, absolute, if_neg Bool.false_ne_true, if_neg Bool.false_ne_true,
      pathUnder_relative absolute]
    split
    next root =>
      rw [root, push_of_lt (by decide), ok_bind, joinPath_eq (by simp; omega)]
      rfl
    · rw [add_of_lt (by omega), ok_bind, if_neg (by omega), append_of_le (by simp; omega), ok_bind,
        List.nil_append]
      split
      next empty =>
        obtain rfl := List.length_eq_zero_iff.mp empty
        rw [push_of_lt (by decide), ok_bind, joinPath_eq (by simp; omega)]
        rfl
      next some_ =>
        rw [slash_bind (by simpa using some_) (by omega), joinPath_eq (by omega)]

theorem resolvePath_eq {ε : Type} {path : Bytes} {env : Env} (short : path.length ≤ maxParsedLine)
    (usable : cwdOf env = [] → isAbsolute path = true) : (resolvePath env path : Outcome ε _) =
      .ok (fittingPath (pathUnder (cwdOf env) path)) := by
  have word : 128 + maxParsedLine < wordBound := by decide
  have dir : (cwdOf env).length ≤ 64 := cwdOf_length env
  cases absolute : isAbsolute path with
  | true =>
    rw [resolvePath, absolute, if_pos rfl, pathUnder, absolute, if_pos rfl, fittingPath]
    split
    next long => rw [if_neg (by omega), pure_eq]
    next fits =>
      rw [append_of_le (by simpa using Nat.not_lt.mp fits), ok_bind, if_pos (by omega)]
      rfl
  | false =>
    have size := length_slashed (cwdOf env)
    rw [resolvePath, absolute, if_neg Bool.false_ne_true, pathUnder_relative absolute]
    split
    next root =>
      rw [root, push_of_lt (by decide), ok_bind, joinPath_eq (by simp; omega)]
      rfl
    · rw [add_of_lt (by omega), ok_bind, if_neg (by omega), append_of_le (by simp; omega), ok_bind,
        List.nil_append,
        slash_bind (fun empty => by simp [usable empty] at absolute) (by omega),
        joinPath_eq (by omega)]

/-- In an empty directory the shell looks for the last byte of nothing. -/
theorem resolvePath_panics {ε : Type} {path : Bytes} {env : Env} (empty : cwdOf env = [])
    (relative : isAbsolute path = false) : (resolvePath env path : Outcome ε _) = .panic := by
  rw [resolvePath, relative, empty]
  rfl

end Smultron
