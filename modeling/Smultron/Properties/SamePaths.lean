import Smultron.Properties.CatCopies
import Smultron.Properties.WorkingDir

/-!
# One path, three resolvers

The shell, `cat` and `sed` resolve a path each with a copy of one function, and then open the file
through the library. The copies differ at absolute paths, which only the shell measures, and the
library refuses what is longer than 127 bytes: that is less than what fits the buffers of the
resolvers. So the three come to the same call, or to none.
-/

namespace Smultron

open Checked Checked.Outcome Proc Utf8 Shell

variable {α : Type} {env : Env} {cwd path : Bytes}

/-- Whatever the replies are, the files the procedure opens are those of `target`. -/
def Opens (target : Option Bytes) (x : User α) : Prop :=
  ∀ (legal : Syscall → Reply → Prop) (calls : List (Syscall × Reply)) (o : Outcome Empty α),
    x.Exec legal calls o → (filesRead calls).map Prod.fst = target.toList

/-- The path the library hands to the kernel, with its NUL, when it is given this one. -/
def handedOn (path : Bytes) : Option Bytes := if path.length ≤ 127 then some (path ++ [0]) else none

/-- What the library hands on for the path a resolver has come to. -/
def handedOnFrom : Outcome Empty (Option Bytes) → Option Bytes
  | .ok (some path) => handedOn path
  | _ => none

/-! ### The call -/

theorem OnlyWrites.opens {x : User α} (h : OnlyWrites x) : Opens none x := by
  intro legal calls o e
  rw [(files_of_writes (h.calls e)).1]
  rfl

/-- The library makes one call, or none for a path that leaves no room for the NUL. -/
theorem readFile_handsOn (path buf : Bytes) : Opens (handedOn path) (Libos.readFile path buf) := by
  intro legal calls o e
  rw [Libos.readFile] at e
  split at e
  next long =>
    obtain ⟨rfl, -⟩ := exec_pure.mp e
    rw [handedOn, if_neg (by omega)]
    rfl
  next short =>
    rw [cString_ok (by omega), lift_ok, Proc.pure_bind] at e
    rw [handedOn, if_pos (by omega)]
    rcases exec_bind.mp e with ⟨panicked, -⟩ | ⟨first, rest, r, rfl, sent, after⟩
    · obtain ⟨r, -, -, impossible⟩ := exec_request.mp panicked
      cases impossible
    · obtain ⟨r', rfl, -, -⟩ := exec_request.mp sent
      have quiet : rest = [] := by
        split at after <;> exact (exec_pure.mp after).1
      subst quiet
      rfl

theorem OpensFirst.opens {x : User α} (h : OpensFirst path x) : Opens (handedOn path) x := by
  obtain ⟨tail, writes, rfl⟩ := h
  intro legal calls o e
  rcases exec_bind.mp e with ⟨panicked, -⟩ | ⟨first, rest, found, rfl, read, after⟩
  · exact readFile_handsOn _ _ _ _ _ panicked
  · rw [filesRead_append, (files_of_writes ((writes found).calls after)).1, List.append_nil]
    exact readFile_handsOn _ _ _ _ _ read

/-- A program that resolves a path and opens it, or only writes when there is none. -/
theorem opens_resolved {resolved : Outcome Empty (Option Bytes)} {f : Option Bytes → User α}
    (refused : OnlyWrites (f none)) (opened : ∀ path, OpensFirst path (f (some path))) :
    Opens (handedOnFrom resolved) (lift resolved >>= f) := by
  cases resolved with
  | ok found =>
    rw [lift_ok, Proc.pure_bind]
    cases found with
    | none => exact refused.opens
    | some path => exact (opened path).opens
  | err e => exact e.elim
  | panic =>
    have quiet : OnlyWrites (lift .panic : User α) := only_lift _
    rw [lift_panic_bind]
    exact quiet.opens

/-! ### The resolvers -/

/-- A path that does not fit the buffer is never joined. -/
theorem joinPath_long {ε : Type} {out r : Bytes} (long : 128 < path.length) :
    (joinPath out path : Outcome ε _) ≠ .ok (some r) := by
  intro joined
  rw [joinPath] at joined
  obtain ⟨stop, sum, joined⟩ := bind_eq_ok.mp joined
  have total : stop = out.length + path.length := by
    rw [add] at sum
    split at sum <;> cases sum
    rfl
  rw [if_pos (by omega)] at joined
  cases joined

/-- Nor is a relative path that long resolved, in whatever directory. -/
theorem resolveFrom_long {ε : Type} {r : Bytes} (relative : isAbsolute path = false)
    (long : 128 < path.length) : (resolveFrom path cwd : Outcome ε _) ≠ .ok (some r) := by
  intro resolved
  rw [resolveFrom, if_neg (by simp [relative])] at resolved
  split at resolved
  · obtain ⟨_, -, joined⟩ := bind_eq_ok.mp resolved
    exact joinPath_long long joined
  · obtain ⟨_, -, resolved⟩ := bind_eq_ok.mp resolved
    split at resolved
    · cases resolved
    obtain ⟨_, -, resolved⟩ := bind_eq_ok.mp resolved
    split at resolved
    · obtain ⟨_, -, joined⟩ := bind_eq_ok.mp resolved
      exact joinPath_long long joined
    · obtain ⟨_, -, resolved⟩ := bind_eq_ok.mp resolved
      obtain ⟨_, -, resolved⟩ := bind_eq_ok.mp resolved
      obtain ⟨_, -, joined⟩ := bind_eq_ok.mp resolved
      exact joinPath_long long joined

theorem resolvePath_long {ε : Type} {r : Bytes} (long : 128 < path.length) :
    (resolvePath env path : Outcome ε _) ≠ .ok (some r) := by
  intro resolved
  rw [resolvePath] at resolved
  split at resolved
  · simp at resolved
  split at resolved
  · obtain ⟨_, -, joined⟩ := bind_eq_ok.mp resolved
    exact joinPath_long long joined
  · obtain ⟨_, -, resolved⟩ := bind_eq_ok.mp resolved
    split at resolved
    · cases resolved
    obtain ⟨_, -, resolved⟩ := bind_eq_ok.mp resolved
    obtain ⟨_, -, resolved⟩ := bind_eq_ok.mp resolved
    obtain ⟨_, -, resolved⟩ := bind_eq_ok.mp resolved
    obtain ⟨_, -, joined⟩ := bind_eq_ok.mp resolved
    exact joinPath_long long joined

theorem handedOnFrom_none {resolved : Outcome Empty (Option Bytes)}
    (h : ∀ r, resolved ≠ .ok (some r)) : handedOnFrom resolved = none := by
  rcases resolved with (_ | r) | e | _
  · rfl
  · exact absurd rfl (h r)
  · rfl
  · rfl

theorem handedOn_long (long : 127 < path.length) : handedOn path = none := if_neg (by omega)

/-- A text that fits the buffer of a resolver is handed on, or is too long for the library. -/
theorem handedOnFrom_fitting (text : Valid path) :
    handedOnFrom (.ok (fittingPath path)) = handedOn path := by
  rw [fittingPath]
  split
  · rw [fromUtf8_of_valid text]
    rfl
  next long => exact (handedOn_long (by omega)).symm

theorem valid_pathUnder (dir : Valid cwd) (text : Valid path) : Valid (pathUnder cwd path) := by
  have slash : Valid (47 :: path) := Valid.append (by decide +kernel : Valid [47]) text
  rw [pathUnder]
  split
  · exact text
  · split
    · exact dir.append text
    · exact dir.append slash

theorem resolveFrom_handsOn (dir : Valid cwd) (text : Valid path) (short : cwd.length ≤ maxVal) :
    handedOnFrom (resolveFrom path cwd) = handedOn (pathUnder cwd path) := by
  cases absolute : isAbsolute path with
  | true =>
    rw [resolveFrom, pathUnder, if_pos absolute, if_pos absolute]
    rfl
  | false =>
    have most : 128 ≤ maxParsedLine := by decide
    by_cases long : 128 < path.length
    · have whole := length_le_pathUnder cwd path
      rw [handedOnFrom_none fun _ => resolveFrom_long absolute long, handedOn_long (by omega)]
    · rw [resolveFrom_eq (by omega) short, absolute, if_neg Bool.false_ne_true,
        handedOnFrom_fitting (valid_pathUnder dir text)]

theorem resolvePath_handsOn (value : getEnv env cwdKey = some cwd) (some_ : cwd ≠ [])
    (dir : Valid cwd) (text : Valid path) :
    handedOnFrom (resolvePath env path) = handedOn (pathUnder cwd path) := by
  have most : 128 ≤ maxParsedLine := by decide
  have same := cwdOf_eq value dir
  by_cases long : 128 < path.length
  · have whole := length_le_pathUnder cwd path
    rw [handedOnFrom_none fun _ => resolvePath_long long, handedOn_long (by omega)]
  · rw [resolvePath_eq (by omega) fun empty => absurd (same.symm.trans empty) some_, same,
      handedOnFrom_fitting (valid_pathUnder dir text)]

/-! ### The programs -/

theorem openInput_opens (env : Env) (file : Bytes) :
    Opens (handedOnFrom (resolvePath env file)) (openInput env file) :=
  opens_resolved (only_bind (writeStr_onlyWrites _) fun _ => only_pure _) openInput_tail_opensFirst

theorem cat_opens (rounds : Nat) (cwd : Bytes) {file : Bytes} (named : file ≠ [])
    (trimmed : trim file = file) :
    Opens (handedOnFrom (Cat.resolvePath file cwd)) (Cat.run rounds file cwd) := by
  rw [Cat.run, trimmed, if_neg named]
  exact opens_resolved (only_bind (writeStr_onlyWrites _) fun _ => only_pure _) fun path =>
    (printFile_opensFirst path).bind fun _ => only_pure _

theorem sed_opens (script : Sed.Script) (file cwd : Bytes) :
    Opens (handedOnFrom (Sed.resolvePath file cwd)) (Sed.runOnFile script file cwd) :=
  opens_resolved (writeStr_onlyWrites _) (sed_tail_opensFirst script)

/-- For `< file`, `cat file` and `sed` with the file, in any directory, the same path goes to the
kernel, or none does. -/
theorem resolvers_agree (env : Env) (cwd file : Bytes) (rounds : Nat) (script : Sed.Script)
    (value : getEnv env cwdKey = some cwd) (some_ : cwd ≠ []) (dir : Valid cwd)
    (text : Valid file) (named : file ≠ []) (trimmed : trim file = file) :
    Opens (handedOn (pathUnder cwd file)) (openInput env file) ∧
      Opens (handedOn (pathUnder cwd file)) (Cat.run rounds file cwd) ∧
      Opens (handedOn (pathUnder cwd file)) (Sed.runOnFile script file cwd) := by
  have short := getEnv_length value
  refine ⟨?_, ?_, ?_⟩
  · rw [← resolvePath_handsOn value some_ dir text]
    exact openInput_opens env file
  · rw [← resolveFrom_handsOn dir text short]
    exact cat_opens rounds cwd named trimmed
  · rw [← resolveFrom_handsOn dir text short]
    exact sed_opens script file cwd

/-- In the root, for a relative path. -/
theorem resolvers_agree_note : ∃ env, getEnv env cwdKey = some (str "/") ∧ ∀ script,
    Opens (some (str "/note" ++ [0])) (openInput env (str "note")) ∧
      Opens (some (str "/note" ++ [0])) (Cat.run 1 (str "note") (str "/")) ∧
      Opens (some (str "/note" ++ [0])) (Sed.runOnFile script (str "note") (str "/")) := by
  obtain ⟨env, -, value⟩ := root_reached
  have text : Valid (str "note") := by decide +kernel
  have root : Valid (str "/") := by decide +kernel
  have target : handedOn (pathUnder (str "/") (str "note")) = some (str "/note" ++ [0]) := by
    decide +kernel
  refine ⟨env, value, fun script => ?_⟩
  have agree := resolvers_agree env (str "/") (str "note") 1 script value (by decide +kernel) root
    text (by decide +kernel) (by decide +kernel)
  rwa [target] at agree

end Smultron
